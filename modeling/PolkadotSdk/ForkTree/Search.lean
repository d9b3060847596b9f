import PolkadotSdk.ForkTree.Finalizes

/-!
# The search for the deepest ancestor

`find_node_index_where` walks the tree depth first, children before their parent, skipping every
node that is not below the block's number, and reports the path to the deepest ancestor of the
block that passes the predicate (`Node.searchNode`, `findRoots`).

Over a tree that keeps `Ancestry` and whose numbers do not fall from a node to its children
(`NumbersMonotone`), the ancestors of the block below its number lie on one path down from a root:
two sibling subtrees never both hold one (`Ancestry.not_le_of_cons`), and a subtree skipped for its
number holds none. So the search answers as `SearchSpec` says, subtree by subtree
(`searchNode_spec`), and returns the path to the deepest candidate (`findNodeIndexWhere_spec`).
Where numbers do fall, a child above the block's number hides the ancestors below it
(`findNodeIndexWhere_misses_hidden`).
-/

set_option linter.dupNamespace false

namespace PolkadotSdk.ForkTree

open scoped List

variable {H N V : Type}

theorem preorder_cons_eq (c : Node H N V) (cs : List (Node H N V)) :
    preorder (c :: cs) = preorder [c] ++ preorder cs :=
  preorder_append [c] cs

theorem preorder_singleton (h : H) (n : N) (d : V) (cs : List (Node H N V)) :
    preorder [⟨h, n, d, cs⟩] = ⟨h, n, d, cs⟩ :: preorder cs := by
  rw [preorder_cons, preorder_nil, List.append_nil]

theorem preorder_subset_of_mem {c : Node H N V} {f : List (Node H N V)} (hc : c ∈ f) :
    preorder [c] ⊆ preorder f := by
  intro x hx
  rw [preorder_eq_flatMap]
  exact List.mem_flatMap.mpr ⟨c, hc, hx⟩

theorem nodeAt_mem : ∀ (path : List ℕ) (t : Node H N V) {x : Node H N V},
    t.nodeAt path = some x → x ∈ preorder [t]
  | [], t, x, h => by
    obtain ⟨hh, n, d, cs⟩ := t
    rw [Option.some.inj h.symm, preorder_singleton]
    exact List.mem_cons_self
  | i :: path, ⟨hh, n, d, cs⟩, x, h => by
    obtain ⟨c, hc, hx⟩ := Option.bind_eq_some_iff.mp h
    rw [preorder_singleton]
    exact List.mem_cons_of_mem _
      (preorder_subset_of_mem (List.mem_of_getElem? hc) (nodeAt_mem path c hx))

theorem nodeAtPath_mem {f : List (Node H N V)} :
    ∀ {path : List ℕ} {x : Node H N V}, nodeAtPath f path = some x → x ∈ preorder f
  | [], _, h => by cases h
  | i :: path, x, h => by
    obtain ⟨c, hc, hx⟩ := Option.bind_eq_some_iff.mp h
    exact preorder_subset_of_mem (List.mem_of_getElem? hc) (nodeAt_mem path c hx)

theorem mem_withAncs_child (t : Node H N V) : ∀ {ancs : List H} {e : List H × Node H N V},
    e ∈ t.withAncs ancs → ∀ c ∈ e.2.children, (e.2.hash :: e.1, c) ∈ t.withAncs ancs := by
  induction t with
  | mk h n d cs ih =>
    intro ancs e he c hc
    rw [withAncs_mk] at he ⊢
    rcases List.mem_cons.mp he with rfl | he
    · obtain ⟨h', n', d', cs'⟩ := c
      refine List.mem_cons_of_mem _ (List.mem_flatMap.mpr ⟨_, hc, ?_⟩)
      rw [withAncs_mk]
      exact List.mem_cons_self
    · obtain ⟨c', hc', he⟩ := List.mem_flatMap.mp he
      exact List.mem_cons_of_mem _ (List.mem_flatMap.mpr ⟨c', hc', ih c' hc' he c hc⟩)

theorem mem_nodesOf_child {f : List (Node H N V)} {e : List H × Node H N V} (he : e ∈ nodesOf f)
    {c : Node H N V} (hc : c ∈ e.2.children) : (e.2.hash :: e.1, c) ∈ nodesOf f := by
  obtain ⟨t, ht, he⟩ := List.mem_flatMap.mp he
  exact List.mem_flatMap.mpr ⟨t, ht, mem_withAncs_child t he c hc⟩

/-- Where a path of the search of `f` from index `i` leads: its first index counts from `i`. -/
def locateFrom (f : List (Node H N V)) (i : ℕ) : List ℕ → Option (Node H N V)
  | [] => none
  | j :: path => if i ≤ j then nodeAtPath f ((j - i) :: path) else none

theorem locateFrom_zero (f : List (Node H N V)) : locateFrom f 0 = nodeAtPath f := by
  funext path
  cases path with
  | nil => rfl
  | cons j path => simp [locateFrom]

theorem locateFrom_cons {c : Node H N V} {cs : List (Node H N V)} {i : ℕ} {path : List ℕ}
    {x : Node H N V} (h : locateFrom cs (i + 1) path = some x) :
    locateFrom (c :: cs) i path = some x := by
  cases path with
  | nil => cases h
  | cons j path =>
    simp only [locateFrom] at h ⊢
    split at h
    · next hj =>
      obtain ⟨k, rfl⟩ : ∃ k, j = i + 1 + k := ⟨j - (i + 1), by omega⟩
      rw [if_pos (by omega), show i + 1 + k - i = k + 1 by omega]
      rw [show i + 1 + k - (i + 1) = k by omega] at h
      exact h
    · cases h

section Search

variable [DecidableEq H] [LinearOrder N] {E : Type}

/-- The numbers of the nodes do not fall from a node to its children, as when every node's number
is its block's. -/
def NumbersMonotone (f : List (Node H N V)) : Prop :=
  ∀ e ∈ nodesOf f, ∀ c ∈ e.2.children, e.2.number ≤ c.number

omit [DecidableEq H] in
theorem NumbersMonotone.append_left {f₁ f₂ : List (Node H N V)}
    (hf : NumbersMonotone (f₁ ++ f₂)) : NumbersMonotone f₁ := fun e he =>
  hf e (nodesOf_append f₁ f₂ ▸ List.mem_append_left _ he)

omit [DecidableEq H] in
theorem NumbersMonotone.append_right {f₁ f₂ : List (Node H N V)}
    (hf : NumbersMonotone (f₁ ++ f₂)) : NumbersMonotone f₂ := fun e he =>
  hf e (nodesOf_append f₁ f₂ ▸ List.mem_append_right _ he)

omit [DecidableEq H] in
theorem NumbersMonotone.children {h : H} {n : N} {d : V} {cs : List (Node H N V)}
    (hf : NumbersMonotone [⟨h, n, d, cs⟩]) : NumbersMonotone cs := fun e he =>
  hf (e.1 ++ [h], e.2) (mem_nodesOf_singleton he)

omit [DecidableEq H] in
/-- No node of a subtree has a smaller number than its root. -/
theorem NumbersMonotone.le_of_mem (t : Node H N V) :
    NumbersMonotone [t] → ∀ x ∈ preorder [t], t.number ≤ x.number := by
  induction t with
  | mk h n d cs ih =>
    intro hf x hx
    rw [preorder_singleton] at hx
    rcases List.mem_cons.mp hx with rfl | hx
    · exact le_refl _
    · rw [preorder_eq_flatMap] at hx
      obtain ⟨c, hc, hx⟩ := List.mem_flatMap.mp hx
      have hroot : (([] : List H), (⟨h, n, d, cs⟩ : Node H N V)) ∈ nodesOf [⟨h, n, d, cs⟩] := by
        rw [nodesOf_singleton]
        exact List.mem_cons_self
      have hcs := hf.children
      have hc' : NumbersMonotone [c] := fun e he =>
        hcs e (List.mem_flatMap.mpr ⟨c, hc, by simpa [nodesOf] using he⟩)
      exact le_trans (hf _ hroot c hc) (ih c hc hc' x hx)

omit [DecidableEq H] in
theorem Ancestry.numbersMonotone {B : BlockTree H} {f : List (Node H N V)} (ht : Ancestry B f)
    (num : H → N) (hnum : ∀ a b, B.isDescendentOf a b = true → num a < num b)
    (hnodes : ∀ x ∈ preorder f, x.number = num x.hash) : NumbersMonotone f := by
  intro e he c hc
  have hc' := mem_nodesOf_child he hc
  have hdesc : B.isDescendentOf e.2.hash c.hash = true :=
    (ht.ancestor_iff e he _ hc').mp List.mem_cons_self
  rw [hnodes e.2 (List.mem_map_of_mem he), hnodes c (List.mem_map_of_mem hc')]
  exact le_of_lt (hnum _ _ hdesc)

variable (B : BlockTree H) (hash : H) (number : N) (predicate : V → Bool)

/-- A node the search takes for an ancestor of the block: below its number, and above it. -/
def ancestorBelow (x : Node H N V) : Bool :=
  decide (x.number < number) && B.isDescendentOf x.hash hash

/-- A node `find_node_index_where` may return: an ancestor below the number that passes. -/
def candidate (x : Node H N V) : Bool := ancestorBelow B hash number x && predicate x.data

/-- What the search of the nodes `region` may answer, `locate` reading its paths: nothing, an
ancestor none of which passes, or the path to a candidate below which no candidate lies. -/
def SearchSpec (region : List (Node H N V)) (locate : List ℕ → Option (Node H N V)) :
    Node.Search → Prop
  | .notFound => ∀ x ∈ region, ancestorBelow B hash number x = false
  | .ancestorFailed => (∃ x ∈ region, ancestorBelow B hash number x = true) ∧
      ∀ x ∈ region, ancestorBelow B hash number x = true → predicate x.data = false
  | .found path => ∃ x, locate path = some x ∧ candidate B hash number predicate x = true ∧
      ∀ y ∈ region, candidate B hash number predicate y = true →
        B.isDescendentOf x.hash y.hash = false

variable {B hash number predicate}

omit [DecidableEq H] in
theorem ancestorBelow_of_candidate {x : Node H N V}
    (h : candidate B hash number predicate x = true) : ancestorBelow B hash number x = true :=
  (Bool.and_eq_true_iff.mp h).1

theorem isAncestorOrEq_of_ancestorBelow {x : Node H N V}
    (h : ancestorBelow B hash number x = true) : B.isAncestorOrEq x.hash hash = true :=
  Bool.or_eq_true_iff.mpr (.inr (Bool.and_eq_true_iff.mp h).2)

omit [DecidableEq H] in
/-- A child without ancestors of the block changes nothing in what its siblings' search answers. -/
theorem SearchSpec.cons {c : Node H N V} {cs : List (Node H N V)} {i : ℕ}
    (hc : ∀ x ∈ preorder [c], ancestorBelow B hash number x = false) {r : Node.Search}
    (h : SearchSpec B hash number predicate (preorder cs) (locateFrom cs (i + 1)) r) :
    SearchSpec B hash number predicate (preorder (c :: cs)) (locateFrom (c :: cs) i) r := by
  rw [preorder_cons_eq]
  cases r with
  | notFound =>
    intro x hx
    rcases List.mem_append.mp hx with hx | hx
    · exact hc x hx
    · exact h x hx
  | ancestorFailed =>
    obtain ⟨⟨x, hx, hxa⟩, hall⟩ := h
    refine ⟨⟨x, List.mem_append_right _ hx, hxa⟩, fun y hy hya => ?_⟩
    rcases List.mem_append.mp hy with hy | hy
    · rw [hc y hy] at hya
      cases hya
    · exact hall y hy hya
  | found path =>
    obtain ⟨x, hx, hcand, hdeep⟩ := h
    refine ⟨x, locateFrom_cons hx, hcand, fun y hy hcy => ?_⟩
    rcases List.mem_append.mp hy with hy | hy
    · have hya := ancestorBelow_of_candidate hcy
      rw [hc y hy] at hya
      cases hya
    · exact hdeep y hy hcy

omit [DecidableEq H] in
/-- A node that is an ancestor, with no candidate below it, answers for itself. -/
theorem SearchSpec.self {h : H} {n : N} {d : V} {cs : List (Node H N V)}
    (hself : ancestorBelow B hash number ⟨h, n, d, cs⟩ = true)
    (hbelow : ∀ x ∈ preorder cs, ancestorBelow B hash number x = true → predicate x.data = false) :
    SearchSpec B hash number predicate (preorder [⟨h, n, d, cs⟩])
      (fun path => Node.nodeAt path ⟨h, n, d, cs⟩)
      (if predicate d then .found [] else .ancestorFailed) := by
  rw [preorder_singleton]
  cases hp : predicate d
  · refine ⟨⟨_, List.mem_cons_self, hself⟩, fun y hy hya => ?_⟩
    rcases List.mem_cons.mp hy with rfl | hy
    · exact hp
    · exact hbelow y hy hya
  · refine ⟨_, rfl, by simp [candidate, hself, hp], fun y hy hcy => ?_⟩
    rcases List.mem_cons.mp hy with rfl | hy
    · exact B.irrefl _
    · have := hbelow y hy (ancestorBelow_of_candidate hcy)
      simp [candidate, this] at hcy

/-- **The search of a list of siblings answers as `SearchSpec` says**, given that the search of
each of them does. -/
theorem searchChildren_spec_of {f : List (Node H N V)} (ht : Ancestry B f)
    (hmono : NumbersMonotone f)
    (hf : ∀ c ∈ f, Ancestry B [c] → NumbersMonotone [c] → c.number < number →
      ∃ r, c.searchNode hash number (B.isDescendentOfM E) predicate = .ok r ∧
        SearchSpec B hash number predicate (preorder [c]) (fun path => c.nodeAt path) r) :
    ∀ i, ∃ r, Node.searchChildren hash number (B.isDescendentOfM E) predicate f i = .ok r ∧
      SearchSpec B hash number predicate (preorder f) (locateFrom f i) r := by
  induction f with
  | nil => intro i; exact ⟨.notFound, rfl, fun x hx => by cases hx⟩
  | cons c cs ih =>
    intro i
    have ht' : Ancestry B ([c] ++ cs) := ht
    have hmono' : NumbersMonotone ([c] ++ cs) := hmono
    obtain ⟨r, hr, hspec⟩ := ih ht'.append_right hmono'.append_right
      (fun c' hc' => hf c' (List.mem_cons_of_mem _ hc')) (i + 1)
    by_cases hc : c.number < number
    · obtain ⟨rc, hrc, hspecc⟩ := hf c List.mem_cons_self ht'.append_left hmono'.append_left hc
      rw [Node.searchChildren, if_pos hc]
      simp only [bind, Except.bind, hrc]
      cases rc with
      | found path =>
        -- the first sibling holding a candidate holds the deepest
        obtain ⟨x, hx, hcand, hdeep⟩ := hspecc
        refine ⟨_, rfl, x, by simpa [locateFrom, nodeAtPath] using hx, hcand, fun y hy hcy => ?_⟩
        rcases List.mem_append.mp ((preorder_cons_eq c cs) ▸ hy) with hy | hy
        · exact hdeep y hy hcy
        · exact (ht.not_le_of_cons (nodeAt_mem path c hx) hy
            (isAncestorOrEq_of_ancestorBelow (ancestorBelow_of_candidate hcand))
            (isAncestorOrEq_of_ancestorBelow (ancestorBelow_of_candidate hcy))).elim
      | ancestorFailed =>
        obtain ⟨⟨x, hx, hxa⟩, hall⟩ := hspecc
        refine ⟨_, rfl, ⟨x, (preorder_cons_eq c cs) ▸ List.mem_append_left _ hx, hxa⟩,
          fun y hy hya => ?_⟩
        rcases List.mem_append.mp ((preorder_cons_eq c cs) ▸ hy) with hy | hy
        · exact hall y hy hya
        · exact (ht.not_le_of_cons hx hy (isAncestorOrEq_of_ancestorBelow hxa)
            (isAncestorOrEq_of_ancestorBelow hya)).elim
      | notFound => exact ⟨r, hr, SearchSpec.cons hspecc hspec⟩
    · -- a sibling above the number is skipped with all its subtree
      rw [Node.searchChildren, if_neg hc]
      refine ⟨r, hr, SearchSpec.cons (fun x hx => ?_) hspec⟩
      have hle := hmono'.append_left.le_of_mem c x hx
      simp only [ancestorBelow, Bool.and_eq_false_iff, decide_eq_false_iff_not, not_lt]
      exact .inl (le_trans (not_lt.mp hc) hle)

/-- **The search below a node answers as `SearchSpec` says.** -/
theorem searchNode_spec (t : Node H N V) :
    Ancestry B [t] → NumbersMonotone [t] → t.number < number →
      ∃ r, t.searchNode hash number (B.isDescendentOfM E) predicate = .ok r ∧
        SearchSpec B hash number predicate (preorder [t]) (fun path => t.nodeAt path) r := by
  induction t with
  | mk h n d cs ih =>
    intro ht hmono hn
    obtain ⟨rc, hrc, hspec⟩ :=
      searchChildren_spec_of ht.children hmono.children (fun c hc => ih c hc) 0
    rw [locateFrom_zero] at hspec
    rw [Node.searchNode]
    simp only [bind, Except.bind, hrc]
    cases rc with
    | found path =>
      obtain ⟨x, hx, hcand, hdeep⟩ := hspec
      have hbelow := ht.isDescendentOf_below (nodeAtPath_mem hx)
      refine ⟨_, rfl, x, ?_, hcand, fun y hy hcy => ?_⟩
      · cases path with
        | nil => cases hx
        | cons j path => exact hx
      · rw [preorder_singleton] at hy
        rcases List.mem_cons.mp hy with rfl | hy
        · -- the node is above the candidate found below it
          cases hxy : B.isDescendentOf x.hash h
          · rfl
          · have := B.trans hxy hbelow
            rw [B.irrefl] at this
            cases this
        · exact hdeep y hy hcy
    | ancestorFailed =>
      obtain ⟨⟨x, hx, hxa⟩, hall⟩ := hspec
      have hself : ancestorBelow B hash number ⟨h, n, d, cs⟩ = true := by
        simp only [ancestorBelow, Bool.and_eq_true, decide_eq_true_eq]
        exact ⟨hn, B.trans (ht.isDescendentOf_below hx) (Bool.and_eq_true_iff.mp hxa).2⟩
      exact ⟨_, rfl, SearchSpec.self hself hall⟩
    | notFound =>
      simp only [BlockTree.isDescendentOfM]
      cases hd : B.isDescendentOf h hash
      · refine ⟨.notFound, rfl, fun x hx => ?_⟩
        rw [preorder_singleton] at hx
        rcases List.mem_cons.mp hx with rfl | hx
        · simp [ancestorBelow, hd]
        · exact hspec x hx
      · have hself : ancestorBelow B hash number ⟨h, n, d, cs⟩ = true := by
          simp [ancestorBelow, hn, hd]
        refine ⟨_, rfl, SearchSpec.self hself fun x hx hxa => ?_⟩
        rw [hspec x hx] at hxa
        cases hxa

end Search

/-- The answer of the search as `find_node_index_where` returns it. -/
def Node.Search.toPath : Node.Search → Option (List ℕ)
  | .found path => some path
  | _ => none

section Roots

variable [LinearOrder N] {E : Type} (hash : H) (number : N) (predicate : V → Bool)

/-- The loop over the roots is the search of the roots as siblings. -/
theorem findRoots_eq (isDescendentOf : H → H → Except E Bool) (roots : List (Node H N V))
    (i : ℕ) : findRoots hash number isDescendentOf predicate roots i =
      (Node.searchChildren hash number isDescendentOf predicate roots i).map
        Node.Search.toPath := by
  induction roots generalizing i with
  | nil => rfl
  | cons r rs ih =>
    rw [findRoots, Node.searchChildren]
    by_cases hr : r.number < number
    · rw [if_neg (not_le.mpr hr), if_pos hr]
      cases hs : r.searchNode hash number isDescendentOf predicate with
      | error e => rfl
      | ok res =>
        cases res with
        | found path => rfl
        | ancestorFailed => rfl
        | notFound => exact ih (i + 1)
    · rw [if_pos (not_lt.mp hr), if_neg hr, ih]

end Roots

section Spec

variable [DecidableEq H] [LinearOrder N] {E : Type}

/-- **`find_node_index_where` finds the deepest candidate.** Over a tree that keeps `Ancestry` and
whose numbers do not fall, it returns a path iff some node is a candidate, and then the path leads
to a candidate every other candidate of which is one of its fork-tree ancestors. -/
theorem findNodeIndexWhere_spec (B : BlockTree H) (roots : List (Node H N V))
    (ht : Ancestry B roots) (hmono : NumbersMonotone roots) (hash : H) (number : N)
    (predicate : V → Bool) :
    ∃ r, findNodeIndexWhere hash number (B.isDescendentOfM E) predicate roots = .ok r ∧
      (r.isSome = true ↔ ∃ x ∈ preorder roots, candidate B hash number predicate x = true) ∧
      ∀ path, r = some path → ∃ e ∈ nodesOf roots, nodeAtPath roots path = some e.2 ∧
        candidate B hash number predicate e.2 = true ∧
        ∀ e' ∈ nodesOf roots, candidate B hash number predicate e'.2 = true →
          e' = e ∨ e'.2.hash ∈ e.1 := by
  obtain ⟨s, hs, hspec⟩ := searchChildren_spec_of (E := E) ht hmono
    (fun c _ htc hmc hn => searchNode_spec c htc hmc hn) 0
  rw [locateFrom_zero] at hspec
  refine ⟨s.toPath, by rw [findNodeIndexWhere, findRoots_eq, hs]; rfl, ?_⟩
  cases s with
  | notFound =>
    refine ⟨iff_of_false (by simp [Node.Search.toPath]) ?_, fun path h => by cases h⟩
    rintro ⟨x, hx, hcx⟩
    have hxa := ancestorBelow_of_candidate hcx
    rw [hspec x hx] at hxa
    cases hxa
  | ancestorFailed =>
    refine ⟨iff_of_false (by simp [Node.Search.toPath]) ?_, fun path h => by cases h⟩
    rintro ⟨x, hx, hcx⟩
    have hpx := hspec.2 x hx (ancestorBelow_of_candidate hcx)
    simp [candidate, hpx] at hcx
  | found path =>
    obtain ⟨x, hx, hcand, hdeep⟩ := hspec
    obtain ⟨e, he, rfl⟩ := List.mem_map.mp (nodeAtPath_mem hx)
    refine ⟨iff_of_true rfl ⟨e.2, nodeAtPath_mem hx, hcand⟩, ?_⟩
    rintro p ⟨⟩
    refine ⟨e, he, hx, hcand, fun e' he' hce' => ?_⟩
    -- two candidates are both at or above the block, so one is above the other
    rcases B.isAncestorOrEq_total
        (isAncestorOrEq_of_ancestorBelow (ancestorBelow_of_candidate hce'))
        (isAncestorOrEq_of_ancestorBelow (ancestorBelow_of_candidate hcand)) with h | h | h
    · exact .inl (ht.eq_of_hash_eq he' he h)
    · exact .inr ((ht.ancestor_iff e' he' e he).mpr h)
    · rw [hdeep e'.2 (List.mem_map_of_mem he') hce'] at h
      cases h

end Spec

theorem findNodeIndexWhere_spec_chainTree :
    Ancestry natChain chainTree.roots ∧ NumbersMonotone chainTree.roots ∧
    ∃ r, findNodeIndexWhere 3 3 (natChain.isDescendentOfM Unit) (fun _ => true) chainTree.roots =
        .ok r ∧
      (r.isSome = true ↔
        ∃ x ∈ preorder chainTree.roots, candidate natChain 3 3 (fun _ => true) x = true) ∧
      ∀ path, r = some path → ∃ e ∈ nodesOf chainTree.roots,
        nodeAtPath chainTree.roots path = some e.2 ∧
        candidate natChain 3 3 (fun _ => true) e.2 = true ∧
        ∀ e' ∈ nodesOf chainTree.roots, candidate natChain 3 3 (fun _ => true) e'.2 = true →
          e' = e ∨ e'.2.hash ∈ e.1 := by
  have hmono : NumbersMonotone chainTree.roots := by
    simp [NumbersMonotone, chainTree, nodesOf_singleton]
  exact ⟨ancestry_chainTree, hmono,
    findNodeIndexWhere_spec natChain chainTree.roots ancestry_chainTree hmono 3 3 _⟩

/-- A child numbered above the block, between two of its ancestors numbered below it. -/
def fallingTree : List (Node ℕ ℕ ℕ) := [⟨1, 1, 0, [⟨2, 10, 0, [⟨3, 3, 0, []⟩]⟩]⟩]

/-- Where numbers fall, the search skips the child numbered above the block and with it the
deeper candidate below that child: it returns the root. -/
theorem findNodeIndexWhere_misses_hidden :
    Ancestry natChain fallingTree ∧
      findNodeIndexWhere 4 5 (natChain.isDescendentOfM Unit) (fun _ => true) fallingTree =
        .ok (some [0]) ∧
      (nodeAtPath fallingTree [0]).map (·.hash) = some 1 ∧
      (nodeAtPath fallingTree [0, 0, 0]).map (candidate natChain 4 5 fun _ => true) =
        some true := by
  refine ⟨⟨?_, ?_⟩, rfl, rfl, rfl⟩
  · rw [fallingTree, hashesOf_singleton, hashesOf_singleton, hashesOf_singleton]
    decide
  · simp [fallingTree, nodesOf_singleton, natChain]

end PolkadotSdk.ForkTree
