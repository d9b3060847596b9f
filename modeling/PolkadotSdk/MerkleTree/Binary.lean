import PolkadotSdk.MerkleTree.Merkelize
import Mathlib.Data.Vector.Basic

/-!
# `binary-merkle-tree`

The crate `utils/binary-merkle-tree`: the leaves are hashed, then combined two by two by hashing
the concatenation of their hashes, a last odd node being promoted.  `merkle_proof` collects the
siblings of a leaf on the way up; `verify_proof` folds them back, taking the side of each from the
leaf's `position` and the row's `width` only (`position` odd, or last, puts the item on the left).

* `verifyProof_merkleProof`: a proof that `merkle_proof` makes verifies;
* `verifyProof_index_unbound`: a proof may verify a leaf at an index where it does not sit (the
  verifier does not check the number of items);
* `verifyProof_sound`: with as many items as `merkle_proof` gives, and no collision among the
  byte strings hashed, a leaf value that verifies is the leaf at that index.
-/

namespace PolkadotSdk.MerkleTree.Binary

open PolkadotSdk.Lib.PairTree

/-- A `Hasher` with `LENGTH`-byte outputs. -/
structure Hasher where
  /-- `Hasher::LENGTH` -/
  length : ℕ
  /-- `Hasher::hash` -/
  hash : List UInt8 → List.Vector UInt8 length

namespace Hasher

variable (H : Hasher)

/-- `H::Out`. -/
abbrev Out := List.Vector UInt8 H.length

/-- `H::Out::default()`: all zero bytes. -/
def default : H.Out := List.Vector.replicate H.length 0

/-- An inner node: the hash of the two nodes copied into `combined`, left first. -/
def combine (a b : H.Out) : H.Out := H.hash (a.toList ++ b.toList)

/-- `H` has no collision among the byte strings `S`. -/
def CollisionFree (S : List (List UInt8)) : Prop :=
  ∀ s ∈ S, ∀ t ∈ S, H.hash s = H.hash t → s = t

instance (S : List (List UInt8)) : Decidable (H.CollisionFree S) :=
  inferInstanceAs (Decidable (∀ s ∈ S, ∀ t ∈ S, H.hash s = H.hash t → s = t))

end Hasher

variable (H : Hasher)

/-- `merkle_root`: the leaves hashed, then `merkelize` with the no-op visitor. -/
def merkleRoot (leaves : List (List UInt8)) : H.Out :=
  (merkelize H.combine unitVisitor H.default (leaves.map H.hash) ()).1

/-- `merkle_proof`, with `None` where it panics: `leaf_index` is not below the number of leaves. -/
def merkleProof (leaves : List (List UInt8)) (leafIndex : ℕ) :
    Option (MerkleProof H.Out (List UInt8)) :=
  let collected := merkelize H.combine proofCollection H.default (leaves.map H.hash) ⟨[], leafIndex⟩
  match leaves[leafIndex]? with
  | none => none
  | some leaf => some ⟨collected.1, collected.2.proof, leaves.length, leafIndex, leaf⟩

/-- `Leaf`: a value to be hashed first, or the hash itself. -/
inductive Leaf (Hs : Type) where
  | value (content : List UInt8)
  | hash (h : Hs)

/-- The side `verify_proof` puts a proof item on, at `position` in a row of `width`. -/
def sideOf (position width : ℕ) : Side :=
  if position % 2 = 1 ∨ position + 1 = width then .left else .right

/-- One step of the fold of `verify_proof`, on the hash so far, `position` and `width`. -/
def verifyStep (acc : H.Out × ℕ × ℕ) (b : H.Out) : H.Out × ℕ × ℕ :=
  let (a, position, width) := acc
  let combined :=
    if position % 2 = 1 ∨ position + 1 = width then b.toList ++ a.toList
    else a.toList ++ b.toList
  (H.hash combined, position / 2, (width - 1) / 2 + 1)

/-- `leaf_hash` of `verify_proof`. -/
def leafHash : Leaf H.Out → H.Out
  | .value content => H.hash content
  | .hash h => h

/-- `verify_proof`. -/
def verifyProof (root : H.Out) (proof : List H.Out) (numberOfLeaves leafIndex : ℕ)
    (leaf : Leaf H.Out) : Bool :=
  if leafIndex ≥ numberOfLeaves then false
  else
    let computed := (proof.foldl (verifyStep H) (leafHash H leaf, leafIndex, numberOfLeaves)).1
    decide (root = computed)

/-! ## The verifier climbs -/

/-- The proof items with the sides `verify_proof` gives them, from `position` in a row of
`width`. -/
def orient {β : Type} : ℕ → ℕ → List β → List (Side × β)
  | _, _, [] => []
  | position, width, b :: bs =>
    (sideOf position width, b) :: orient (position / 2) ((width - 1) / 2 + 1) bs

theorem verifyStep_eq (a : H.Out) (position width : ℕ) (b : H.Out) :
    verifyStep H (a, position, width) b =
      (step H.combine a (sideOf position width, b), position / 2, (width - 1) / 2 + 1) := by
  unfold verifyStep sideOf
  dsimp only
  split_ifs <;> rfl

theorem foldl_verifyStep (proof : List H.Out) (a : H.Out) (position width : ℕ) :
    (proof.foldl (verifyStep H) (a, position, width)).1 =
      climb H.combine a (orient position width proof) := by
  induction proof generalizing a position width with
  | nil => rfl
  | cons b proof ih => rw [List.foldl_cons, verifyStep_eq, ih, orient, climb_cons]

theorem verifyProof_eq (root : H.Out) (proof : List H.Out) {numberOfLeaves leafIndex : ℕ}
    (hi : leafIndex < numberOfLeaves) (leaf : Leaf H.Out) :
    verifyProof H root proof numberOfLeaves leafIndex leaf =
      decide (root = climb H.combine (leafHash H leaf) (orient leafIndex numberOfLeaves proof)) := by
  rw [verifyProof, if_neg (by omega)]
  dsimp only
  rw [foldl_verifyStep]

theorem map_fst_orient {β γ : Type} (position width : ℕ) {bs : List β} {cs : List γ}
    (h : bs.length = cs.length) :
    (orient position width bs).map Prod.fst = (orient position width cs).map Prod.fst := by
  induction bs generalizing cs position width with
  | nil =>
    obtain rfl := List.length_eq_zero_iff.mp h.symm
    rfl
  | cons b bs ih =>
    obtain ⟨c, cs, rfl⟩ := List.exists_cons_of_length_eq_add_one h.symm
    simp only [orient, List.map_cons, List.cons.injEq, true_and]
    exact ih _ _ (by simpa using h)

theorem orient_last {β : Type} (width : ℕ) (hw : 1 ≤ width) (bs : List β) :
    orient (width - 1) width bs = bs.map (Side.left, ·) := by
  induction bs generalizing width with
  | nil => rfl
  | cons b bs ih =>
    have ih' := ih ((width - 1) / 2 + 1) (by omega)
    rw [Nat.add_sub_cancel] at ih'
    rw [orient, List.map_cons, sideOf, if_pos (Or.inr (by omega)), ih']

/-- **The verifier orients the path as the tree has it.** At every level where the leaf has a
sibling, the side the verifier computes is the sibling's; once the leaf is promoted it is the last
node of every row above, and every sibling is on its left. -/
theorem orient_path {α : Type} (f : α → α → α) {l : List α} {i : ℕ} (hi : i < l.length) :
    orient i l.length ((path f l i).map Prod.snd) = path f l i := by
  induction l using root.induct f generalizing i with
  | case1 => simp at hi
  | case2 a => rw [path, List.map_nil, orient]
  | case3 a b rest ih =>
    have hlen : 2 ≤ (a :: b :: rest).length := by simp
    have hup : ((a :: b :: rest).length - 1) / 2 + 1 = (pairUp f (a :: b :: rest)).length := by
      rw [length_pairUp]
      omega
    have hi' : i / 2 < (pairUp f (a :: b :: rest)).length := by
      rw [length_pairUp]
      omega
    rw [path_of_two_le f hlen]
    cases hs : sibling (a :: b :: rest) i with
    | none =>
      -- promoted: the leaf is last here and in every row above
      obtain ⟨heven, hlast⟩ := sibling_eq_none hi hs
      rw [Option.toList_none, List.nil_append]
      conv_rhs => rw [← ih hi']
      have hi2 : i / 2 = (pairUp f (a :: b :: rest)).length - 1 := by
        rw [length_pairUp]
        omega
      generalize (path f (pairUp f (a :: b :: rest)) (i / 2)).map Prod.snd = bs
      have e1 : orient i (a :: b :: rest).length bs = bs.map (Side.left, ·) := by
        rw [show i = (a :: b :: rest).length - 1 by omega]
        exact orient_last _ (by omega) bs
      have e2 : orient (i / 2) (pairUp f (a :: b :: rest)).length bs = bs.map (Side.left, ·) := by
        rw [hi2]
        exact orient_last _ (by omega) bs
      rw [e1, e2]
    | some s =>
      obtain ⟨hside, hnext⟩ := sibling_eq_some hs
      obtain ⟨side, z⟩ := s
      rw [Option.toList_some, List.singleton_append, List.map_cons, orient, hup, ih hi']
      congr 2
      rw [sideOf]
      simp only at hside
      split_ifs at hside with hodd <;> rw [hside]
      · rw [if_pos (Or.inl hodd)]
      · rw [if_neg (by omega)]

/-! ## Completeness -/

theorem merkleRoot_eq (leaves : List (List UInt8)) :
    merkleRoot H leaves = (root H.combine (leaves.map H.hash)).getD H.default :=
  merkelize_fst _ _ _ _ _

theorem merkleRoot_eq_climb {leaves : List (List UInt8)} {i : ℕ} {y : List UInt8}
    (hy : leaves[i]? = some y) :
    merkleRoot H leaves = climb H.combine (H.hash y) (path H.combine (leaves.map H.hash) i) := by
  have hy' : (leaves.map H.hash)[i]? = some (H.hash y) := by rw [List.getElem?_map, hy]; rfl
  rw [merkleRoot_eq, root_eq_climb H.combine hy', Option.getD_some]

theorem merkleProof_eq {leaves : List (List UInt8)} {i : ℕ} (hi : i < leaves.length) :
    merkleProof H leaves i = some ⟨merkleRoot H leaves,
      (path H.combine (leaves.map H.hash) i).map Prod.snd, leaves.length, i, leaves[i]⟩ := by
  unfold merkleProof
  rw [List.getElem?_eq_getElem hi]
  dsimp only
  rw [merkelize_fst, merkelize_proofCollection _ _ _ (by rw [List.length_map]; exact hi),
    ← merkleRoot_eq]

theorem verifyProof_path {leaves : List (List UInt8)} {i : ℕ} (hi : i < leaves.length)
    (leaf : Leaf H.Out) (hleaf : leafHash H leaf = H.hash leaves[i]) :
    verifyProof H (merkleRoot H leaves) ((path H.combine (leaves.map H.hash) i).map Prod.snd)
      leaves.length i leaf = true := by
  have hi' : i < (leaves.map H.hash).length := by rw [List.length_map]; exact hi
  rw [verifyProof_eq H _ _ hi, hleaf, ← List.length_map (f := H.hash), orient_path H.combine hi',
    merkleRoot_eq_climb H (List.getElem?_eq_getElem hi)]
  exact decide_eq_true rfl

/-- **`merkle_proof` is complete**: what it returns for a leaf verifies, as the leaf's value and as
its hash. -/
theorem merkleProof_complete {leaves : List (List UInt8)} {i : ℕ} (hi : i < leaves.length) :
    ∃ mp, merkleProof H leaves i = some mp ∧ mp.root = merkleRoot H leaves ∧
      mp.numberOfLeaves = leaves.length ∧ mp.leafIndex = i ∧ leaves[i]? = some mp.leaf ∧
      verifyProof H mp.root mp.proof leaves.length i (.value mp.leaf) = true ∧
      verifyProof H mp.root mp.proof leaves.length i (.hash (H.hash mp.leaf)) = true :=
  ⟨_, merkleProof_eq H hi, rfl, rfl, rfl, List.getElem?_eq_getElem hi,
    verifyProof_path H hi (.value _) rfl, verifyProof_path H hi (.hash _) rfl⟩

/-! ## Soundness -/

/-- The byte strings `merkle_root` hashes: the leaves, then each pair of nodes combined. -/
def rootInputs (leaves : List (List UInt8)) : List (List UInt8) :=
  leaves ++ (treePairs H.combine (leaves.map H.hash)).map fun u => u.1.toList ++ u.2.toList

/-- The byte strings `verify_proof` hashes for a leaf value `v`: `v`, then each `combined`. -/
def verifyInputs (proof : List H.Out) (numberOfLeaves leafIndex : ℕ) (v : List UInt8) :
    List (List UInt8) :=
  v :: (climbPairs H.combine (H.hash v) (orient leafIndex numberOfLeaves proof)).map
    fun u => u.1.toList ++ u.2.toList

theorem eq_of_combine_eq {S : List (List UInt8)} (hS : H.CollisionFree S) {u w : H.Out × H.Out}
    (hu : u.1.toList ++ u.2.toList ∈ S) (hw : w.1.toList ++ w.2.toList ∈ S)
    (h : H.combine u.1 u.2 = H.combine w.1 w.2) : u = w := by
  have hs := hS _ hu _ hw h
  obtain ⟨h1, h2⟩ := List.append_inj hs (by rw [List.Vector.toList_length, List.Vector.toList_length])
  exact Prod.ext (List.Vector.toList_injective h1) (List.Vector.toList_injective h2)

/-- **`verify_proof` is sound for proofs of the right length.** If the proof has as many items as
`merkle_proof` gives for index `i` and no two different byte strings hashed by `merkle_root` and
`verify_proof` collide, a value that verifies at `i` is the leaf at `i`. -/
theorem verifyProof_sound (leaves : List (List UInt8)) (proof : List H.Out) (i : ℕ)
    (v : List UInt8) (hlen : ∃ mp, merkleProof H leaves i = some mp ∧ proof.length = mp.proof.length)
    (hfree : H.CollisionFree (rootInputs H leaves ++ verifyInputs H proof leaves.length i v))
    (hverify : verifyProof H (merkleRoot H leaves) proof leaves.length i (.value v) = true) :
    leaves[i]? = some v := by
  obtain ⟨mp, hmp, hplen⟩ := hlen
  have hi : i < leaves.length := by
    by_contra hge
    rw [merkleProof, List.getElem?_eq_none (by omega)] at hmp
    cases hmp
  rw [merkleProof_eq H hi, Option.some.injEq] at hmp
  subst hmp
  have hi' : i < (leaves.map H.hash).length := by rw [List.length_map]; exact hi
  have hy : (leaves.map H.hash)[i]? = some (H.hash leaves[i]) := by
    rw [List.getElem?_map, List.getElem?_eq_getElem hi]
    rfl
  rw [verifyProof_eq H _ _ hi, decide_eq_true_iff] at hverify
  -- the verifier takes the sides of the path, since it has as many items
  have hsides : (orient i leaves.length proof).map Prod.fst =
      (path H.combine (leaves.map H.hash) i).map Prod.fst := by
    conv_rhs => rw [← orient_path H.combine hi', List.length_map]
    exact map_fst_orient _ _ (by simpa using hplen)
  have hroot : root H.combine (leaves.map H.hash) =
      some (climb H.combine (leafHash H (.value v)) (orient i leaves.length proof)) := by
    rw [root_eq_climb H.combine hy, ← merkleRoot_eq_climb H (List.getElem?_eq_getElem hi), hverify]
  obtain ⟨hxy, -⟩ := eq_of_climb_eq_root hy hsides
    (fun u hu w hw h => eq_of_combine_eq H hfree
      (List.mem_append_right _ (List.mem_cons_of_mem _ (List.mem_map_of_mem hu)))
      (List.mem_append_left _ (List.mem_append_right _ (List.mem_map_of_mem hw))) h) hroot
  have hv := hfree v (List.mem_append_right _ List.mem_cons_self) leaves[i]
    (List.mem_append_left _ (List.mem_append_left _ (List.getElem_mem hi))) hxy
  rw [List.getElem?_eq_getElem hi, hv]

/-- A one-byte hasher, with no collision among the few strings hashed for three one-byte leaves. -/
def byteHasher : Hasher := ⟨1, fun s => ⟨[s.foldl (fun acc x => acc * 3 + x + 1) 0], rfl⟩⟩

/-- The middle one of three leaves, proved with its own path. -/
theorem verifyProof_sound_three_leaves : ([[0], [1], [2]] : List (List UInt8))[1]? = some [1] :=
  verifyProof_sound byteHasher [[0], [1], [2]]
    ((path byteHasher.combine ([[0], [1], [2]].map byteHasher.hash) 1).map Prod.snd) 1 [1]
    ⟨_, merkleProof_eq byteHasher (by decide), rfl⟩
    (by
      simp only [rootInputs, verifyInputs, List.map_cons, List.map_nil, treePairs, path, pairUp]
      decide)
    (verifyProof_path byteHasher (by decide) _ rfl)

/-- **A proof binds no index.** Over three leaves `a, b, c`, the one item `H(H(a) ++ H(b))` proves
`c` at index `1`: `position` is odd, so the verifier hashes the item with `H(c)` and reaches the
root, though the tree has `b` there. -/
theorem verifyProof_index_unbound :
    ¬ ∀ (H : Hasher) (L : List (List UInt8)) (P : List H.Out) (i : ℕ) (v : List UInt8), L ≠ [] →
      H.CollisionFree (rootInputs H L ++ verifyInputs H P L.length i v) →
      verifyProof H (merkleRoot H L) P L.length i (.value v) = true → L[i]? = some v := by
  intro h
  have hroot : merkleRoot byteHasher [[0], [1], [2]] =
      byteHasher.combine (byteHasher.combine (byteHasher.hash [0]) (byteHasher.hash [1]))
        (byteHasher.hash [2]) := by
    simp only [merkleRoot_eq, List.map_cons, List.map_nil, root, pairUp, Option.getD_some]
  have hwrong := h byteHasher [[0], [1], [2]]
    [byteHasher.combine (byteHasher.hash [0]) (byteHasher.hash [1])] 1 [2] (by simp) ?_ ?_
  · simp at hwrong
  · simp only [rootInputs, List.map_cons, List.map_nil, treePairs, pairUp]
    decide
  · rw [verifyProof_eq byteHasher _ _ (by decide), hroot]
    decide

end PolkadotSdk.MerkleTree.Binary
