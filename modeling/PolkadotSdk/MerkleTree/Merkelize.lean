import PolkadotSdk.Lib.PairTree

/-!
# `merkelize_row` and `merkelize`

The repository has two binary Merkle tree crates, `utils/binary-merkle-tree` and Snowbridge's
outbound-queue `merkle-tree`.  They build the root with the same `merkelize_row` / `merkelize`
loop, a `Visitor` watching the construction, and differ only in how two nodes are combined; so
here the node type `α` and the combination `combine` are parameters.

* `merkelize_fst`: `merkelize` computes `PairTree.root` of the leaves (the default node for none);
* `merkelize_proofCollection`: the `ProofCollection` visitor of `merkle_proof` collects the
  siblings of the authentication `PairTree.path` of its position.
-/

namespace PolkadotSdk.MerkleTree

open PolkadotSdk.Lib.PairTree

/-- A `Visitor` of the construction of a tree, with state `σ`. -/
structure Visitor (σ α : Type) where
  /-- `move_up`: the construction goes one level up. -/
  moveUp : σ → σ
  /-- `visit(index, left, right)`: an inner node is made from the items at `index` and after. -/
  visit : σ → ℕ → Option α → Option α → σ

/-- The no-op visitor `()` of `merkle_root`. -/
def unitVisitor {α : Type} : Visitor Unit α where
  moveUp _ := ()
  visit _ _ _ _ := ()

/-- `MerkleProof`: the root, the proof items, the number of leaves, the index of the leaf and the
leaf. -/
structure MerkleProof (Hs L : Type) where
  root : Hs
  proof : List Hs
  numberOfLeaves : ℕ
  leafIndex : ℕ
  leaf : L

variable {σ α : Type} (combine : α → α → α) (visitor : Visitor σ α)

/-- `merkelize_row`, on the items `iter` still to read, with the row `next` above built so far and
the `index` of the next left item: `Ok(root)` for a single item, else `Err` of the row above. -/
def merkelizeRow : List α → List α → ℕ → σ → Except (List α) α × σ
  | a :: b :: iter, next, index, v =>
    merkelizeRow iter (next ++ [combine a b]) (index + 2) (visitor.visit v index (some a) (some b))
  | [a], next, index, v =>
    let v := visitor.visit v index (some a) none
    -- an odd last item is promoted to the upper layer, unless it is the only one: the root
    if next.isEmpty then (.ok a, v) else merkelizeRow [] (next ++ [a]) (index + 2) v
  | [], next, index, v => (.error next, visitor.visit v index none none)

theorem merkelizeRow_error {l next : List α} {index : ℕ} {v : σ} (h : next ≠ [] ∨ l.length ≠ 1) :
    (merkelizeRow combine visitor l next index v).1 = .error (next ++ pairUp combine l) := by
  fun_induction merkelizeRow combine visitor l next index v with
  | case1 a b iter next index v ih =>
    rw [ih (Or.inl (by simp)), pairUp, List.append_assoc, List.singleton_append]
  | case2 a next index v w hnext =>
    simp only [List.isEmpty_iff] at hnext
    simp [hnext] at h
  | case3 a next index v w hnext ih =>
    rw [ih (Or.inl (by simp))]
    simp only [pairUp, List.append_nil]
  | case4 next index v => rw [pairUp, List.append_nil]

theorem merkelizeRow_singleton (a : α) (index : ℕ) (v : σ) :
    merkelizeRow combine visitor [a] [] index v = (.ok a, visitor.visit v index (some a) none) := by
  simp [merkelizeRow]

theorem merkelizeRow_ok {l : List α} {index : ℕ} {v v' : σ} {r : α}
    (h : merkelizeRow combine visitor l [] index v = (.ok r, v')) : l = [r] := by
  by_cases hl : l.length = 1
  · obtain ⟨a, rfl⟩ := List.length_eq_one_iff.mp hl
    rw [merkelizeRow_singleton] at h
    cases h
    rfl
  · have : (merkelizeRow combine visitor l [] index v).1 = .error ([] ++ pairUp combine l) :=
      merkelizeRow_error combine visitor (Or.inr hl)
    rw [h] at this
    cases this

theorem merkelizeRow_error_of_ne_nil {l t : List α} {index : ℕ} {v v' : σ} (hne : l ≠ [])
    (h : merkelizeRow combine visitor l [] index v = (.error t, v')) :
    2 ≤ l.length ∧ t = pairUp combine l := by
  have hl : l.length ≠ 1 := by
    intro hl
    obtain ⟨a, rfl⟩ := List.length_eq_one_iff.mp hl
    rw [merkelizeRow_singleton] at h
    cases h
  have hlen : l.length ≠ 0 := fun h0 => hne (List.length_eq_zero_iff.mp h0)
  have : (merkelizeRow combine visitor l [] index v).1 = .error ([] ++ pairUp combine l) :=
    merkelizeRow_error combine visitor (Or.inr hl)
  rw [h, List.nil_append] at this
  exact ⟨by omega, Except.error.inj this⟩

theorem ne_nil_of_merkelizeRow_error {l t : List α} {index : ℕ} {v v' : σ} (hne : l ≠ [])
    (h : merkelizeRow combine visitor l [] index v = (.error t, v')) : t ≠ [] := by
  obtain ⟨hlen, rfl⟩ := merkelizeRow_error_of_ne_nil combine visitor hne h
  rw [← List.length_pos_iff, length_pairUp]
  omega

/-- The `loop` of `merkelize`: one level up, then the next row, until a row gives the root.
It is entered with a non-empty row, and every row it makes is non-empty and shorter. -/
def merkelizeLoop (next : List α) (hne : next ≠ []) (v : σ) : α × σ :=
  match h : merkelizeRow combine visitor next [] 0 (visitor.moveUp v) with
  | (.ok root, v) => (root, v)
  | (.error t, v) => merkelizeLoop t (ne_nil_of_merkelizeRow_error combine visitor hne h) v
termination_by next.length
decreasing_by
  obtain ⟨hlen, rfl⟩ := merkelizeRow_error_of_ne_nil combine visitor hne h
  exact length_pairUp_lt combine hlen

/-- `merkelize`: the root of the tree over `leaves`, or `H::Out::default()` for no leaf. -/
def merkelize (default : α) (leaves : List α) (v : σ) : α × σ :=
  match merkelizeRow combine visitor leaves [] 0 v with
  | (.ok root, v) => (root, v)
  | (.error next, v) =>
    match next with
    | [] => (default, v)
    | a :: rest => merkelizeLoop combine visitor (a :: rest) (List.cons_ne_nil a rest) v

/-! ## The root -/

theorem merkelizeLoop_fst (next : List α) (hne : next ≠ []) (v : σ) :
    some (merkelizeLoop combine visitor next hne v).1 = root combine next := by
  fun_induction merkelizeLoop combine visitor next hne v with
  | case1 next hne v r v' h =>
    rw [merkelizeRow_ok combine visitor h, root]
  | case2 next hne v t v' h ih =>
    obtain ⟨hlen, rfl⟩ := merkelizeRow_error_of_ne_nil combine visitor hne h
    rw [ih, root_of_two_le combine hlen]

/-- **`merkelize` computes the root.** -/
theorem merkelize_fst (default : α) (leaves : List α) (v : σ) :
    (merkelize combine visitor default leaves v).1 = (root combine leaves).getD default := by
  unfold merkelize
  split
  · rename_i r v' h
    rw [merkelizeRow_ok combine visitor h, root, Option.getD_some]
  · rename_i t v' h
    by_cases hnil : leaves = []
    · subst hnil
      simp only [merkelizeRow, Prod.mk.injEq, Except.error.injEq] at h
      obtain ⟨rfl, -⟩ := h
      rw [root, Option.getD_none]
    have hne : leaves ≠ [] := hnil
    obtain ⟨hlen, rfl⟩ := merkelizeRow_error_of_ne_nil combine visitor hne h
    split
    · rename_i hnil
      rw [← List.length_eq_zero_iff, length_pairUp] at hnil
      omega
    · rename_i a rest hcons
      rw [root_of_two_le combine hlen, hcons,
        ← merkelizeLoop_fst combine visitor (a :: rest) (List.cons_ne_nil a rest) v', Option.getD_some]

/-! ## Collecting a proof -/

/-- `ProofCollection`: the proof items collected so far and the position of the node. -/
structure ProofCollection (α : Type) where
  proof : List α
  position : ℕ

/-- `impl Visitor for ProofCollection`. -/
def proofCollection : Visitor (ProofCollection α) α where
  moveUp s := { s with position := s.position / 2 }
  visit s index left right :=
    -- at the left branch, the right item goes to the proof
    let s := if s.position = index then { s with proof := s.proof ++ right.toList } else s
    -- at the right branch, the left item goes to the proof
    if s.position = index + 1 then { s with proof := s.proof ++ left.toList } else s

theorem proofCollection_visit (s : ProofCollection α) (index : ℕ) (left right : Option α) :
    proofCollection.visit s index left right =
      ⟨s.proof ++ (if s.position = index then right.toList else []) ++
        (if s.position = index + 1 then left.toList else []), s.position⟩ := by
  obtain ⟨proof, position⟩ := s
  by_cases h1 : position = index <;> by_cases h2 : position = index + 1 <;>
    simp [proofCollection, h1, h2]

theorem proofCollection_moveUp (s : ProofCollection α) :
    proofCollection.moveUp s = ⟨s.proof, s.position / 2⟩ := rfl

/-- The items a row gives the proof of position `j`: its sibling there, if any. -/
def siblingItems (l : List α) (j : ℕ) : List α := ((sibling l j).map Prod.snd).toList

theorem map_snd_path_of_two_le {l : List α} (h : 2 ≤ l.length) (j : ℕ) :
    (path combine l j).map Prod.snd =
      siblingItems l j ++ (path combine (pairUp combine l) (j / 2)).map Prod.snd := by
  rw [path_of_two_le combine h, List.map_append, siblingItems]
  cases sibling l j <;> rfl

theorem siblingItems_cons_cons (a b : α) (iter : List α) (j : ℕ) :
    siblingItems (a :: b :: iter) j = (if j = 0 then [b] else []) ++ (if j = 1 then [a] else []) ++
      (if 2 ≤ j then siblingItems iter (j - 2) else []) := by
  match j with
  | 0 => rfl
  | 1 => rfl
  | j + 2 => simp [siblingItems, sibling_cons_cons]

theorem siblingItems_singleton (a : α) (j : ℕ) :
    siblingItems [a] j = if j = 1 then [a] else [] := by
  rw [siblingItems, sibling_singleton]
  split <;> rfl

theorem siblingItems_nil (j : ℕ) : siblingItems ([] : List α) j = [] := by
  rw [siblingItems, sibling_nil]
  rfl

theorem proofCollection_visit_single (s : ProofCollection α) (index : ℕ) (a : α) :
    proofCollection.visit s index (some a) none =
      ⟨s.proof ++ (if index ≤ s.position then siblingItems [a] (s.position - index) else []),
        s.position⟩ := by
  obtain ⟨proof, p⟩ := s
  rw [proofCollection_visit]
  simp only [ProofCollection.mk.injEq, and_true, Option.toList_some, Option.toList_none,
    ite_self, List.append_nil, List.append_cancel_left_eq, siblingItems_singleton]
  rcases Nat.lt_or_ge p index with hp | hp
  · simp [show ¬index ≤ p by omega, show p ≠ index + 1 by omega]
  · obtain ⟨j, rfl⟩ := Nat.exists_eq_add_of_le hp
    simp

/-- A row, from item `index` on, adds the sibling of the position to the proof, and keeps the
position. -/
theorem merkelizeRow_proofCollection (l next : List α) (index : ℕ) (s : ProofCollection α) :
    (merkelizeRow combine proofCollection l next index s).2 =
      ⟨s.proof ++ (if index ≤ s.position then siblingItems l (s.position - index) else []),
        s.position⟩ := by
  fun_induction merkelizeRow combine proofCollection l next index s with
  | case1 a b iter next index s ih =>
    obtain ⟨proof, p⟩ := s
    rw [ih, proofCollection_visit]
    simp only [ProofCollection.mk.injEq, and_true, Option.toList_some, List.append_assoc,
      List.append_cancel_left_eq]
    rcases Nat.lt_or_ge p index with hp | hp
    · simp [show ¬index ≤ p by omega, show p ≠ index by omega, show p ≠ index + 1 by omega,
        show ¬index + 2 ≤ p by omega]
    · obtain ⟨j, rfl⟩ := Nat.exists_eq_add_of_le hp
      rw [if_pos hp, Nat.add_sub_cancel_left, siblingItems_cons_cons]
      -- the position is the left item, the right one, or further on
      match j with
      | 0 => simp [show ¬index + 2 ≤ index by omega]
      | 1 => simp [show ¬index + 2 ≤ index + 1 by omega]
      | j + 2 => simp [show index + (j + 2) - (index + 2) = j by omega]
  | case2 a next index s w hnext =>
    dsimp only [w]
    exact proofCollection_visit_single s index a
  | case3 a next index s w hnext ih =>
    rw [ih, siblingItems_nil, ite_self, List.append_nil]
    dsimp only [w]
    exact proofCollection_visit_single s index a
  | case4 next index s =>
    obtain ⟨proof, p⟩ := s
    rw [proofCollection_visit]
    simp [siblingItems_nil]

theorem merkelizeLoop_proofCollection (next : List α) (hne : next ≠ []) (s : ProofCollection α)
    (hpos : s.position / 2 < next.length) :
    (merkelizeLoop combine proofCollection next hne s).2.proof =
      s.proof ++ (path combine next (s.position / 2)).map Prod.snd := by
  fun_induction merkelizeLoop combine proofCollection next hne s with
  | case1 next hne s r v' h =>
    obtain rfl := merkelizeRow_ok combine proofCollection h
    have hrow := congrArg Prod.snd h
    rw [merkelizeRow_proofCollection, proofCollection_moveUp] at hrow
    have hzero : s.position / 2 = 0 := by simpa using hpos
    rw [← hrow, hzero, path]
    simp [siblingItems_singleton]
  | case2 next hne s t v' h ih =>
    obtain ⟨hlen, rfl⟩ := merkelizeRow_error_of_ne_nil combine proofCollection hne h
    have hrow := congrArg Prod.snd h
    rw [merkelizeRow_proofCollection, proofCollection_moveUp] at hrow
    simp only [Nat.zero_le, ↓reduceIte, Nat.sub_zero] at hrow
    subst hrow
    rw [ih (by simp only [length_pairUp]; omega), map_snd_path_of_two_le combine hlen,
      List.append_assoc]

/-- **`merkle_proof`'s visitor collects the path.** From position `i` of the leaves, the proof
items are the siblings on the authentication path of `i`. -/
theorem merkelize_proofCollection (default : α) (leaves : List α) {i : ℕ}
    (hi : i < leaves.length) :
    (merkelize combine proofCollection default leaves ⟨[], i⟩).2.proof =
      (path combine leaves i).map Prod.snd := by
  unfold merkelize
  split
  · rename_i r v' h
    obtain rfl := merkelizeRow_ok combine proofCollection h
    have hrow := congrArg Prod.snd h
    rw [merkelizeRow_proofCollection] at hrow
    obtain rfl : i = 0 := by simpa using hi
    rw [← hrow, path]
    simp [siblingItems_singleton]
  · rename_i t v' h
    have hne : leaves ≠ [] := List.ne_nil_of_length_pos (by omega)
    obtain ⟨hlen, rfl⟩ := merkelizeRow_error_of_ne_nil combine proofCollection hne h
    have hrow := congrArg Prod.snd h
    rw [merkelizeRow_proofCollection] at hrow
    simp only [Nat.zero_le, ↓reduceIte, Nat.sub_zero, List.nil_append] at hrow
    subst hrow
    split
    · rename_i hnil
      rw [← List.length_eq_zero_iff, length_pairUp] at hnil
      omega
    · rename_i a rest hcons
      have hpos : i / 2 < (a :: rest).length := by
        rw [← hcons, length_pairUp]
        omega
      rw [merkelizeLoop_proofCollection combine _ _ _ hpos, map_snd_path_of_two_le combine hlen,
        hcons]

end PolkadotSdk.MerkleTree
