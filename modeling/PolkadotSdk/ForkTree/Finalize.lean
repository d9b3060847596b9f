import PolkadotSdk.ForkTree.Search

/-!
# Finalizing a block

`finalize` makes a root the new base of the tree when the block is one (`finalizeRoot`), and
otherwise, unless a root is an ancestor of the block, keeps the roots that descend from it.
`finalize_with_ancestors` also opens up the roots that are ancestors of the block, their children
joining the roots, until the block itself is a root or every root descends from it
(`finalizeWithAncestorsLoop`).

Over a tree that keeps `Ancestry` and whose numbers are its blocks' numbers (`Numbered`),
finalizing a block above the best finalized number leaves exactly the nodes that descend from the
block, each with its children (`Finalized`), and answers as `ResultSpec` says. What carries the
loop is `LoopInv`: the roots are nodes of the old tree, those before the index descend from the
block, and every node that is the block or descends from it lies below a root.
-/

set_option linter.dupNamespace false

namespace PolkadotSdk.ForkTree

open scoped List

variable {H N V : Type}

/-! ## Subtrees -/

section Subtrees

theorem withAncs_eq_map (t : Node H N V) (ancs : List H) :
    t.withAncs ancs = (t.withAncs []).map fun e => (e.1 ++ ancs, e.2) :=
  withAncs_append [] ancs t

theorem preorder_singleton_eq (t : Node H N V) (ancs : List H) :
    preorder [t] = (t.withAncs ancs).map (·.2) := by
  rw [withAncs_eq_map, List.map_map, preorder, nodesOf, List.flatMap_singleton]
  rfl

theorem preorder_singleton_cons (t : Node H N V) :
    preorder [t] = t :: preorder t.children := by
  rw [preorder_cons, preorder_nil, List.append_nil]

theorem exists_withAncs_of_mem_preorder {c x : Node H N V} (ancs : List H)
    (hx : x ∈ preorder [c]) : ∃ b, (b ++ ancs, x) ∈ c.withAncs ancs := by
  rw [preorder_singleton_eq c []] at hx
  obtain ⟨e, he, rfl⟩ := List.mem_map.mp hx
  rw [withAncs_eq_map]
  exact ⟨e.1, List.mem_map_of_mem he⟩

/-- Every node below a node of a subtree is in the subtree, with that node among its ancestors. -/
theorem exists_withAncs_below (t : Node H N V) :
    ∀ {ancs : List H} {er : List H × Node H N V}, er ∈ t.withAncs ancs →
      ∀ x ∈ preorder er.2.children, ∃ e ∈ t.withAncs ancs, e.2 = x ∧ er.2.hash ∈ e.1 := by
  induction t with
  | mk h n d cs ih =>
    intro ancs er her x hx
    rw [withAncs_mk] at her ⊢
    rcases List.mem_cons.mp her with rfl | her
    · -- the node is the subtree's root: `x` lies below one of its children
      rw [preorder_eq_flatMap] at hx
      obtain ⟨c, hc, hx⟩ := List.mem_flatMap.mp hx
      obtain ⟨b, hb⟩ := exists_withAncs_of_mem_preorder (h :: ancs) hx
      exact ⟨_, List.mem_cons_of_mem _ (List.mem_flatMap.mpr ⟨c, hc, hb⟩), rfl,
        List.mem_append_right _ List.mem_cons_self⟩
    · obtain ⟨c, hc, her⟩ := List.mem_flatMap.mp her
      obtain ⟨e, he, hex, hre⟩ := ih c hc her x hx
      exact ⟨e, List.mem_cons_of_mem _ (List.mem_flatMap.mpr ⟨c, hc, he⟩), hex, hre⟩

/-- Every ancestor of a node of a subtree is below the subtree, or a node of it above the node. -/
theorem withAncs_ancestor (t : Node H N V) :
    ∀ {ancs : List H} {e : List H × Node H N V}, e ∈ t.withAncs ancs → ∀ a ∈ e.1,
      a ∈ ancs ∨ ∃ er ∈ t.withAncs ancs, er.2.hash = a ∧ e.2 ∈ preorder er.2.children := by
  induction t with
  | mk h n d cs ih =>
    intro ancs e he a ha
    rw [withAncs_mk] at he ⊢
    rcases List.mem_cons.mp he with rfl | he
    · exact .inl ha
    obtain ⟨c, hc, he'⟩ := List.mem_flatMap.mp he
    rcases ih c hc he' a ha with ha | ⟨er, her, hhash, hbelow⟩
    · rcases List.mem_cons.mp ha with rfl | ha
      · -- the subtree's root is the ancestor
        have hx : e.2 ∈ preorder [c] := by
          rw [preorder_singleton_eq c (a :: ancs)]
          exact List.mem_map_of_mem he'
        exact .inr ⟨_, List.mem_cons_self, rfl, preorder_subset_of_mem hc hx⟩
      · exact .inl ha
    · exact .inr ⟨er, List.mem_cons_of_mem _ (List.mem_flatMap.mpr ⟨c, hc, her⟩), hhash, hbelow⟩

theorem mem_preorder_of_below {f : List (Node H N V)} {er : List H × Node H N V}
    (her : er ∈ nodesOf f) {x : Node H N V} (hx : x ∈ preorder er.2.children) :
    x ∈ preorder f := by
  obtain ⟨t, ht, her⟩ := List.mem_flatMap.mp her
  obtain ⟨e, he, rfl, -⟩ := exists_withAncs_below t her x hx
  exact List.mem_map_of_mem (List.mem_flatMap.mpr ⟨t, ht, he⟩)

theorem preorder_subset_of_entry {f : List (Node H N V)} {er : List H × Node H N V}
    (her : er ∈ nodesOf f) : preorder [er.2] ⊆ preorder f := by
  intro x hx
  rw [preorder_singleton_cons] at hx
  rcases List.mem_cons.mp hx with rfl | hx
  · exact List.mem_map_of_mem her
  · exact mem_preorder_of_below her hx

end Subtrees

section Ancestry

variable {B : BlockTree H} {f : List (Node H N V)}

/-- **Below a node of a forest lie exactly the nodes of the forest that descend from it.** -/
theorem Ancestry.mem_preorder_children_iff (ht : Ancestry B f) {er : List H × Node H N V}
    (her : er ∈ nodesOf f) {x : Node H N V} (hx : x ∈ preorder f) :
    x ∈ preorder er.2.children ↔ B.isDescendentOf er.2.hash x.hash = true := by
  obtain ⟨e, he, rfl⟩ := List.mem_map.mp hx
  constructor
  · intro hbelow
    obtain ⟨t, htf, hrt⟩ := List.mem_flatMap.mp her
    obtain ⟨e', he', hx', hre⟩ := exists_withAncs_below t hrt e.2 hbelow
    have he'f : e' ∈ nodesOf f := List.mem_flatMap.mpr ⟨t, htf, he'⟩
    rw [← hx']
    exact (ht.ancestor_iff er her e' he'f).mp hre
  · intro hdesc
    have hre : er.2.hash ∈ e.1 := (ht.ancestor_iff er her e he).mpr hdesc
    obtain ⟨t, htf, het⟩ := List.mem_flatMap.mp he
    rcases withAncs_ancestor t het _ hre with hnil | ⟨er', her', hhash, hbelow⟩
    · cases hnil
    · -- the node above with the hash is the given node
      have := ht.eq_of_hash_eq (List.mem_flatMap.mpr ⟨t, htf, her'⟩) her hhash
      rw [← this]
      exact hbelow

theorem Ancestry.eq_or_isDescendentOf (ht : Ancestry B f) {er : List H × Node H N V}
    (her : er ∈ nodesOf f) {x : Node H N V} (hx : x ∈ preorder [er.2]) :
    x = er.2 ∨ B.isDescendentOf er.2.hash x.hash = true := by
  rw [preorder_singleton_cons] at hx
  rcases List.mem_cons.mp hx with rfl | hx
  · exact .inl rfl
  · exact .inr ((ht.mem_preorder_children_iff her (mem_preorder_of_below her hx)).mp hx)

theorem Ancestry.isDescendentOf_of_subtree (ht : Ancestry B f) {er : List H × Node H N V}
    (her : er ∈ nodesOf f) {a : H} (ha : B.isDescendentOf a er.2.hash = true) {x : Node H N V}
    (hx : x ∈ preorder [er.2]) : B.isDescendentOf a x.hash = true := by
  rcases ht.eq_or_isDescendentOf her hx with rfl | hx
  · exact ha
  · exact B.trans ha hx

theorem Ancestry.isAncestorOrEq_of_subtree [DecidableEq H] (ht : Ancestry B f)
    {er : List H × Node H N V} (her : er ∈ nodesOf f) {x : Node H N V}
    (hx : x ∈ preorder [er.2]) : B.isAncestorOrEq er.2.hash x.hash = true := by
  rcases ht.eq_or_isDescendentOf her hx with rfl | hx
  · simp [BlockTree.isAncestorOrEq]
  · simp [BlockTree.isAncestorOrEq, hx]

theorem Ancestry.eq_of_mem_preorder (ht : Ancestry B f) {er : List H × Node H N V}
    (her : er ∈ nodesOf f) {x : Node H N V} (hx : x ∈ preorder f) (hhash : x.hash = er.2.hash) :
    x = er.2 := by
  obtain ⟨e, he, rfl⟩ := List.mem_map.mp hx
  rw [ht.eq_of_hash_eq he her hhash]

end Ancestry

/-! ## What finalizing should leave -/

section Spec

variable [LinearOrder N]

/-- The numbers of a forest are its blocks' numbers `num`, and a block's number is below its
descendants'. -/
structure Numbered (B : BlockTree H) (num : H → N) (f : List (Node H N V)) : Prop where
  lt_of_isDescendentOf : ∀ a b, B.isDescendentOf a b = true → num a < num b
  number_eq : ∀ x ∈ preorder f, x.number = num x.hash

/-- What finalizing the block `hash` at `number` should leave of `t`: `number` as the best finalized
number, and the nodes of `t` that descend from the block, each with its children. -/
def Finalized (B : BlockTree H) (hash : H) (number : N) (t t' : ForkTree H N V) : Prop :=
  t'.bestFinalizedNumber = some number ∧
    ∀ x, x ∈ preorder t'.roots ↔ x ∈ preorder t.roots ∧ B.isDescendentOf hash x.hash = true

/-- The result finalizing the block `hash` should give, `found d` saying that the block is found,
with data `d`, where it is looked for: its data, and otherwise whether a node was dropped. -/
def ResultSpec (B : BlockTree H) (hash : H) (t : ForkTree H N V) (found : V → Prop)
    (res : FinalizationResult V) : Prop :=
  (∀ d, res = .changed (some d) ↔ found d) ∧
    (res = .changed none ↔
      (∀ d, ¬ found d) ∧ ∃ x ∈ preorder t.roots, B.isDescendentOf hash x.hash = false)

variable {B : BlockTree H} {t : ForkTree H N V} {hash : H}

omit [LinearOrder N] in
theorem resultSpec_changed {found : V → Prop} {d₀ : V} (hfound : ∀ d, found d ↔ d = d₀) :
    ResultSpec B hash t found (.changed (some d₀)) := by
  refine ⟨fun d => ?_, iff_of_false (by simp) fun h => h.1 d₀ ((hfound d₀).mpr rfl)⟩
  rw [hfound, FinalizationResult.changed.injEq, Option.some.injEq, eq_comm]

omit [LinearOrder N] in
theorem resultSpec_none {found : V → Prop} (hfound : ∀ d, ¬ found d) (changed : Bool)
    (hchanged : changed = true ↔ ∃ x ∈ preorder t.roots, B.isDescendentOf hash x.hash = false) :
    ResultSpec B hash t found (finalizationResult none changed) := by
  refine ⟨fun d => iff_of_false (finalizationResult_none_ne changed d) (hfound d), ?_⟩
  cases changed
  · exact iff_of_false (by simp [finalizationResult]) fun h => absurd (hchanged.mpr h.2) (by simp)
  · exact iff_of_true rfl ⟨hfound, hchanged.mp rfl⟩

end Spec

/-! ## The closures, for a block tree -/

section Closures

variable [DecidableEq H] [LinearOrder N] {α E : Type} (B : BlockTree H) (hash : H) (number : N)

/-- A root `finalize` keeps: above the block's number, and below the block. -/
def descendantAbove (x : Node H N V) : Bool :=
  decide (number < x.number) && B.isDescendentOf hash x.hash

omit [DecidableEq H] in
theorem pastRoot_ok (root : Node H N V) :
    (if number > root.number then B.isDescendentOfM E root.hash hash else pure false :
      Except E Bool) = .ok (ancestorBelow B hash number root) := by
  by_cases h : root.number < number
  · simp [h, ancestorBelow, BlockTree.isDescendentOfM]
  · simp [h, ancestorBelow]
    rfl

omit [DecidableEq H] in
theorem keep_ok (root : Node H N V) :
    (if root.number > number then B.isDescendentOfM E hash root.hash else pure false :
      Except E Bool) = .ok (descendantAbove B hash number root) := by
  by_cases h : number < root.number
  · simp [h, descendantAbove, BlockTree.isDescendentOfM]
  · simp [h, descendantAbove]
    rfl

omit [DecidableEq H] [LinearOrder N] in
theorem retainM_ok_eq (p : α → Bool) (l : List α) : ∀ kept dropped : List α,
    retainM (fun a => (.ok (p a) : Except E Bool)) l kept dropped =
      (.ok (), kept ++ l.filter p, dropped ++ l.filter fun a => !p a) := by
  induction l with
  | nil => intro kept dropped; simp [retainM]
  | cons a l ih =>
    intro kept dropped
    cases hp : p a
    · simp [retainM, hp, ih]
    · simp [retainM, hp, ih]

end Closures

/-! ## Numbered forests -/

section Numbered

variable [DecidableEq H] [LinearOrder N] {B : BlockTree H} {num : H → N} {t : ForkTree H N V}
  {hash : H} {number : N}

omit [DecidableEq H] in
theorem Numbered.descendantAbove_eq (hnum : Numbered B num t.roots) (hnumber : number = num hash)
    {x : Node H N V} (hx : x ∈ preorder t.roots) :
    descendantAbove B hash number x = B.isDescendentOf hash x.hash := by
  cases hd : B.isDescendentOf hash x.hash
  · simp [descendantAbove, hd]
  · have hlt := hnum.lt_of_isDescendentOf _ _ hd
    simp [descendantAbove, hnum.number_eq x hx, hnumber, hlt, hd]

omit [DecidableEq H] in
theorem Numbered.ancestorBelow_eq (hnum : Numbered B num t.roots) (hnumber : number = num hash)
    {x : Node H N V} (hx : x ∈ preorder t.roots) :
    ancestorBelow B hash number x = B.isDescendentOf x.hash hash := by
  cases hd : B.isDescendentOf x.hash hash
  · simp [ancestorBelow, hd]
  · have hlt := hnum.lt_of_isDescendentOf _ _ hd
    simp [ancestorBelow, hnum.number_eq x hx, hnumber, hlt, hd]

omit [DecidableEq H] in
theorem reverts_eq_false (hbest : ∀ b ∈ t.bestFinalizedNumber, b < number) :
    t.reverts number = false := by
  unfold ForkTree.reverts
  cases hb : t.bestFinalizedNumber with
  | none => rfl
  | some b => simpa using hbest b hb

omit [DecidableEq H] in
/-- **Finalizing a node leaves its subtree below it.** -/
theorem finalized_of_entry (ht : Ancestry B t.roots) (hnum : Numbered B num t.roots)
    (hnumber : number = num hash) {er : List H × Node H N V} (her : er ∈ nodesOf t.roots)
    (hhash : er.2.hash = hash) : Finalized B hash number t ⟨er.2.children, some er.2.number⟩ := by
  refine ⟨?_, fun x => ⟨fun hx => ?_, fun hx => ?_⟩⟩
  · show some er.2.number = some number
    rw [hnum.number_eq er.2 (List.mem_map_of_mem her), hhash, hnumber]
  · have hxf := mem_preorder_of_below her hx
    rw [← hhash]
    exact ⟨hxf, (ht.mem_preorder_children_iff her hxf).mp hx⟩
  · rw [← hhash] at hx
    exact (ht.mem_preorder_children_iff her hx.1).mpr hx.2

theorem not_isAncestorOrEq_of_isDescendentOf {a b : H} (hab : B.isDescendentOf a b = true) :
    B.isAncestorOrEq b a = false := by
  cases hba : B.isAncestorOrEq b a
  · rfl
  · rcases Bool.or_eq_true_iff.mp hba with h | h
    · rw [beq_iff_eq.mp h, B.irrefl] at hab
      cases hab
    · have := B.trans hab h
      rw [B.irrefl] at this
      cases this

omit [LinearOrder N] in
theorem Ancestry.not_isAncestorOrEq_of_unrelated (ht : Ancestry B t.roots)
    {er : List H × Node H N V} (her : er ∈ nodesOf t.roots) {x : Node H N V}
    (hx : x ∈ preorder [er.2]) (hne : er.2.hash ≠ hash)
    (hanc : B.isDescendentOf er.2.hash hash = false)
    (hdesc : B.isDescendentOf hash er.2.hash = false) : B.isAncestorOrEq hash x.hash = false := by
  cases hx' : B.isAncestorOrEq hash x.hash
  · rfl
  · rcases B.isAncestorOrEq_total (ht.isAncestorOrEq_of_subtree her hx) hx' with h | h | h
    · exact absurd h hne
    · rw [hanc] at h
      cases h
    · rw [hdesc] at h
      cases h

end Numbered

/-! ## `finalize` -/

section Finalize

variable [DecidableEq H] [LinearOrder N] {E : Type} {B : BlockTree H} {t : ForkTree H N V}
  {hash : H} {number : N}

omit [LinearOrder N] in
theorem finalizeRoot_of_findIdx {i : ℕ} (hi : i < t.roots.length)
    (hfind : t.roots.findIdx? (·.hash == hash) = some i) :
    t.finalizeRoot hash =
      (some t.roots[i].data, ⟨t.roots[i].children, some t.roots[i].number⟩) := by
  unfold ForkTree.finalizeRoot
  split
  · next j hp =>
    rw [hfind, Option.some.injEq] at hp
    subst hp
    rfl
  · next hp =>
    rw [hfind] at hp
    cases hp

omit [LinearOrder N] in
theorem finalizeRoot_of_findIdx_none (hfind : t.roots.findIdx? (·.hash == hash) = none) :
    t.finalizeRoot hash = (none, t) := by
  unfold ForkTree.finalizeRoot
  split
  · next j hp =>
    rw [hfind] at hp
    cases hp
  · rfl

theorem finalize_of_findIdx_none (hrev : t.reverts number = false)
    (hfind : t.roots.findIdx? (·.hash == hash) = none) :
    t.finalize hash number (B.isDescendentOfM E) =
      if t.roots.any (ancestorBelow B hash number) then (.error .unfinalizedAncestor, t)
      else (.ok (finalizationResult none
          !(t.roots.filter fun r => !descendantAbove B hash number r).isEmpty),
        ⟨t.roots.filter (descendantAbove B hash number), some number⟩) := by
  unfold ForkTree.finalize
  rw [if_neg (by simp [hrev]), finalizeRoot_of_findIdx_none hfind]
  dsimp only
  simp only [pastRoot_ok, anyM_ok, keep_ok, retainM_ok_eq, List.nil_append]
  cases t.roots.any (ancestorBelow B hash number) <;> rfl

theorem finalize_of_findIdx (hrev : t.reverts number = false) {i : ℕ} (hi : i < t.roots.length)
    (hfind : t.roots.findIdx? (·.hash == hash) = some i) :
    t.finalize hash number (B.isDescendentOfM E) =
      (.ok (.changed (some t.roots[i].data)), ⟨t.roots[i].children, some t.roots[i].number⟩) := by
  unfold ForkTree.finalize
  rw [if_neg (by simp [hrev]), finalizeRoot_of_findIdx hi hfind]

variable {num : H → N}

omit [DecidableEq H] [LinearOrder N] in
theorem found_root_iff (ht : Ancestry B t.roots) {i : ℕ} (hi : i < t.roots.length)
    (hhash : t.roots[i].hash = hash) (d : V) :
    (∃ r ∈ t.roots, r.hash = hash ∧ r.data = d) ↔ d = t.roots[i].data := by
  constructor
  · rintro ⟨r, hr, hrh, rfl⟩
    have hr' : r = t.roots[i] := ht.eq_of_mem_preorder (root_mem_nodesOf (List.getElem_mem hi))
      (List.mem_map_of_mem (root_mem_nodesOf hr)) (hrh.trans hhash.symm)
    rw [hr']
  · rintro rfl
    exact ⟨_, List.getElem_mem hi, hhash, rfl⟩

omit [LinearOrder N] in
theorem Ancestry.isDescendentOf_root (ht : Ancestry B t.roots)
    (hnone : ∀ r ∈ t.roots, r.hash ≠ hash)
    (hanc : ∀ r ∈ t.roots, B.isDescendentOf r.hash hash = false) {r x : Node H N V}
    (hr : r ∈ t.roots) (hx : x ∈ preorder [r]) (hdesc : B.isDescendentOf hash x.hash = true) :
    B.isDescendentOf hash r.hash = true := by
  cases hr' : B.isDescendentOf hash r.hash
  · have := ht.not_isAncestorOrEq_of_unrelated (root_mem_nodesOf hr) hx (hnone r hr) (hanc r hr)
      hr'
    simp [BlockTree.isAncestorOrEq, hdesc] at this
  · rfl

/-- **What `finalize` leaves.** Where it returns `Ok`, the nodes that descend from the block stay,
and the result is the finalized root's data, or whether a node was dropped. -/
theorem finalize_spec_of_ok (ht : Ancestry B t.roots) (hnum : Numbered B num t.roots)
    (hnumber : number = num hash) (hrev : t.reverts number = false) {res : FinalizationResult V}
    (hres : (t.finalize hash number (B.isDescendentOfM E)).1 = .ok res) :
    Finalized B hash number t (t.finalize hash number (B.isDescendentOfM E)).2 ∧
      ResultSpec B hash t (fun d => ∃ r ∈ t.roots, r.hash = hash ∧ r.data = d) res := by
  cases hfind : t.roots.findIdx? (·.hash == hash) with
  | some i =>
    obtain ⟨hi, hhash, -⟩ := List.findIdx?_eq_some_iff_getElem.mp hfind
    have hhash : t.roots[i].hash = hash := beq_iff_eq.mp hhash
    rw [finalize_of_findIdx hrev hi hfind] at hres ⊢
    cases hres
    exact ⟨finalized_of_entry ht hnum hnumber (root_mem_nodesOf (List.getElem_mem hi)) hhash,
      resultSpec_changed (found_root_iff ht hi hhash)⟩
  | none =>
    have hnone : ∀ r ∈ t.roots, r.hash ≠ hash := fun r hr h =>
      absurd (beq_iff_eq.mpr h) (by simpa using List.findIdx?_eq_none_iff.mp hfind r hr)
    rw [finalize_of_findIdx_none hrev hfind] at hres ⊢
    by_cases hany : t.roots.any (ancestorBelow B hash number) = true
    · rw [if_pos hany] at hres
      cases hres
    · rw [if_neg hany] at hres ⊢
      cases hres
      -- no root is an ancestor of the block, and a root is kept iff it descends from it
      have hanc : ∀ r ∈ t.roots, B.isDescendentOf r.hash hash = false := fun r hr => by
        rw [← hnum.ancestorBelow_eq hnumber (List.mem_map_of_mem (root_mem_nodesOf hr))]
        simpa using List.any_eq_false.mp (Bool.eq_false_iff.mpr hany) r hr
      have hkeep : ∀ r ∈ t.roots,
          descendantAbove B hash number r = B.isDescendentOf hash r.hash := fun r hr =>
        hnum.descendantAbove_eq hnumber (List.mem_map_of_mem (root_mem_nodesOf hr))
      refine ⟨⟨rfl, fun x => ⟨fun hx => ?_, fun ⟨hx, hdesc⟩ => ?_⟩⟩,
        resultSpec_none (fun d ⟨r, hr, hrh, _⟩ => hnone r hr hrh) _ ⟨fun hdrop => ?_, ?_⟩⟩
      · rw [preorder_eq_flatMap] at hx
        obtain ⟨r, hr, hx⟩ := List.mem_flatMap.mp hx
        obtain ⟨hr, hkept⟩ := List.mem_filter.mp hr
        rw [hkeep r hr] at hkept
        exact ⟨preorder_subset_of_mem hr hx,
          ht.isDescendentOf_of_subtree (root_mem_nodesOf hr) hkept hx⟩
      · rw [preorder_eq_flatMap] at hx
        obtain ⟨r, hr, hx⟩ := List.mem_flatMap.mp hx
        refine preorder_subset_of_mem (List.mem_filter.mpr ⟨hr, ?_⟩) hx
        rw [hkeep r hr]
        exact ht.isDescendentOf_root hnone hanc hr hx hdesc
      · -- a dropped root is a node that does not descend from the block
        obtain ⟨r, hr, hdrop⟩ : ∃ r ∈ t.roots, descendantAbove B hash number r = false := by
          simpa [List.filter_eq_nil_iff] using hdrop
        exact ⟨r, List.mem_map_of_mem (root_mem_nodesOf hr), (hkeep r hr) ▸ hdrop⟩
      · rintro ⟨x, hx, hdesc⟩
        rw [preorder_eq_flatMap] at hx
        obtain ⟨r, hr, hx⟩ := List.mem_flatMap.mp hx
        have hdrop : descendantAbove B hash number r = false := by
          rw [hkeep r hr]
          cases hr' : B.isDescendentOf hash r.hash
          · rfl
          · rw [ht.isDescendentOf_of_subtree (root_mem_nodesOf hr) hr' hx] at hdesc
            cases hdesc
        simpa [List.filter_eq_nil_iff] using ⟨r, hr, hdrop⟩

/-- `finalize` fails with `UnfinalizedAncestor` exactly where no root is the block and one is its
ancestor. -/
theorem finalize_unfinalizedAncestor_iff (hnum : Numbered B num t.roots)
    (hnumber : number = num hash) (hrev : t.reverts number = false) :
    (t.finalize hash number (B.isDescendentOfM E)).1 = .error .unfinalizedAncestor ↔
      (∀ r ∈ t.roots, r.hash ≠ hash) ∧ ∃ r ∈ t.roots, B.isDescendentOf r.hash hash = true := by
  cases hfind : t.roots.findIdx? (·.hash == hash) with
  | some i =>
    obtain ⟨hi, hhash, -⟩ := List.findIdx?_eq_some_iff_getElem.mp hfind
    rw [finalize_of_findIdx hrev hi hfind]
    exact iff_of_false (by simp) fun h => h.1 _ (List.getElem_mem hi) (beq_iff_eq.mp hhash)
  | none =>
    have hnone : ∀ r ∈ t.roots, r.hash ≠ hash := fun r hr h =>
      absurd (beq_iff_eq.mpr h) (by simpa using List.findIdx?_eq_none_iff.mp hfind r hr)
    have hanc : ∀ r ∈ t.roots,
        ancestorBelow B hash number r = B.isDescendentOf r.hash hash := fun r hr =>
      hnum.ancestorBelow_eq hnumber (List.mem_map_of_mem (root_mem_nodesOf hr))
    rw [finalize_of_findIdx_none hrev hfind]
    cases hany : t.roots.any (ancestorBelow B hash number)
    · refine iff_of_false (by simp) fun ⟨_, r, hr, hdesc⟩ => ?_
      have := List.any_eq_false.mp hany r hr
      rw [hanc r hr, hdesc] at this
      exact this rfl
    · obtain ⟨r, hr, hpast⟩ := List.any_eq_true.mp hany
      exact iff_of_true rfl ⟨hnone, r, hr, (hanc r hr) ▸ hpast⟩

end Finalize

/-! ## `finalize_with_ancestors` -/

section SwapRemove

variable {α : Type}

theorem length_swapRemove (l : List α) (i : Fin l.length) :
    (swapRemove l i).2.length = l.length - 1 := by
  simp [swapRemove]

theorem mem_of_mem_swapRemove {l : List α} {i : Fin l.length} {a : α}
    (ha : a ∈ (swapRemove l i).2) : a ∈ l :=
  (swapRemove_perm l i).subset (List.mem_cons_of_mem _ ha)

theorem getElem_swapRemove_of_lt (l : List α) (i : Fin l.length) {j : ℕ} (hji : j < i)
    (hj : j < (swapRemove l i).2.length) (hjl : j < l.length) :
    (swapRemove l i).2[j] = l[j] := by
  simp only [swapRemove, List.getElem_dropLast]
  rw [List.getElem_set_ne (by omega)]

theorem mem_preorder_swapRemove {roots : List (Node H N V)} {i : Fin roots.length}
    {x : Node H N V} (hx : x ∈ preorder roots) :
    x ∈ preorder [roots[i]] ∨ x ∈ preorder (swapRemove roots i).2 := by
  have hperm := preorder_perm (swapRemove_perm roots i)
  rw [preorder_cons_eq] at hperm
  exact List.mem_append.mp (hperm.symm.subset hx)

end SwapRemove

section Loop

variable [DecidableEq H] [LinearOrder N] {E : Type} {B : BlockTree H} {num : H → N}
  {t : ForkTree H N V} {hash : H} {number : N}

theorem finalizeWithAncestorsLoop_of_le {roots : List (Node H N V)} {idx : ℕ} (changed : Bool)
    (hidx : roots.length ≤ idx) :
    ForkTree.finalizeWithAncestorsLoop hash number (B.isDescendentOfM E) roots idx changed =
      (.ok (.inl changed), roots) := by
  rw [ForkTree.finalizeWithAncestorsLoop, dif_neg (by omega)]

omit [DecidableEq H] [LinearOrder N] in
theorem isDescendentOfM_ite (c : Bool) (a b : H) :
    (if c = true then B.isDescendentOfM E a b else pure false) = .ok (c && B.isDescendentOf a b) := by
  cases c <;> rfl

/-- One turn of the loop of `finalize_with_ancestors`, with a closure that answers for `B`: the
block is found, or the root stays, is opened up, or is dropped. -/
theorem finalizeWithAncestorsLoop_of_lt {roots : List (Node H N V)} {idx : ℕ} (changed : Bool)
    (hidx : idx < roots.length) :
    ForkTree.finalizeWithAncestorsLoop hash number (B.isDescendentOfM E) roots idx changed =
      if roots[idx].hash = hash then
        (.ok (.inr (roots[idx].data, ⟨roots[idx].children, some roots[idx].number⟩)), roots)
      else if descendantAbove B hash number roots[idx] then
        ForkTree.finalizeWithAncestorsLoop hash number (B.isDescendentOfM E) roots (idx + 1) changed
      else if ancestorBelow B hash number roots[idx] then
        ForkTree.finalizeWithAncestorsLoop hash number (B.isDescendentOfM E)
          ((swapRemove roots ⟨idx, hidx⟩).2 ++ (swapRemove roots ⟨idx, hidx⟩).1.children) idx true
      else
        ForkTree.finalizeWithAncestorsLoop hash number (B.isDescendentOfM E)
          (swapRemove roots ⟨idx, hidx⟩).2 idx true := by
  rw [ForkTree.finalizeWithAncestorsLoop, dif_pos hidx]
  dsimp only
  simp only [isDescendentOfM_ite]
  by_cases hf : roots[idx].hash = hash
  · simp [hf]
  · have hbeq : (roots[idx].hash == hash) = false := beq_false_of_ne hf
    simp only [hbeq, if_neg hf, Bool.not_false, Bool.true_and, Bool.false_eq_true, if_false,
      Bool.and_assoc]
    -- the two tests are those of `descendantAbove` and `ancestorBelow`
    change (if descendantAbove B hash number roots[idx] = true then _
      else if (!descendantAbove B hash number roots[idx] && ancestorBelow B hash number roots[idx])
        = true then _ else _) = _
    cases descendantAbove B hash number roots[idx] <;> rfl

/-- What carries the loop of `finalize_with_ancestors` over the old roots `f`: the roots are nodes
of `f`, those before the index descend from the block, every node of `f` that is the block or
descends from it lies below a root, and the loop has changed the roots iff it dropped a node that
does not descend from the block. -/
structure LoopInv (B : BlockTree H) (hash : H) (f roots : List (Node H N V)) (idx : ℕ)
    (changed : Bool) : Prop where
  entry : ∀ r ∈ roots, ∃ er ∈ nodesOf f, er.2 = r
  done : ∀ (j : ℕ) (hj : j < roots.length), j < idx → B.isDescendentOf hash roots[j].hash = true
  covers : ∀ x ∈ preorder f, B.isAncestorOrEq hash x.hash = true → x ∈ preorder roots
  unchanged : changed = false → roots = f
  dropped : changed = true → ∃ x ∈ preorder f, B.isDescendentOf hash x.hash = false

variable {f roots : List (Node H N V)} {idx : ℕ} {changed : Bool}

omit [LinearOrder N] in
theorem LoopInv.init : LoopInv B hash f f 0 false where
  entry _ hr := ⟨_, root_mem_nodesOf hr, rfl⟩
  done _ _ hj := absurd hj (Nat.not_lt_zero _)
  covers _ hx _ := hx
  unchanged _ := rfl
  dropped h := absurd h Bool.false_ne_true

omit [LinearOrder N] in
theorem LoopInv.mem_preorder (hinv : LoopInv B hash f roots idx changed) {r : Node H N V}
    (hr : r ∈ roots) : r ∈ preorder f := by
  obtain ⟨er, her, rfl⟩ := hinv.entry r hr
  exact List.mem_map_of_mem her

omit [LinearOrder N] in
theorem LoopInv.descend (hinv : LoopInv B hash f roots idx changed) (hidx : idx < roots.length)
    (hd : B.isDescendentOf hash roots[idx].hash = true) :
    LoopInv B hash f roots (idx + 1) changed where
  entry := hinv.entry
  done j hj hji := by
    rcases Nat.lt_succ_iff_lt_or_eq.mp hji with hji | rfl
    · exact hinv.done j hj hji
    · exact hd
  covers := hinv.covers
  unchanged := hinv.unchanged
  dropped := hinv.dropped

omit [LinearOrder N] in
/-- A node at or below the block under a root that is neither the block nor below it lies below
the root's children, and the root is an ancestor of the block. -/
theorem LoopInv.below_removed (ht : Ancestry B f) (hinv : LoopInv B hash f roots idx changed)
    {r : Node H N V} (hr : r ∈ roots) (hne : r.hash ≠ hash)
    (hd : B.isDescendentOf hash r.hash = false) {x : Node H N V} (hx : x ∈ preorder [r])
    (hxa : B.isAncestorOrEq hash x.hash = true) :
    B.isDescendentOf r.hash hash = true ∧ x ∈ preorder r.children := by
  obtain ⟨er, her, rfl⟩ := hinv.entry r hr
  have hanc : B.isDescendentOf er.2.hash hash = true := by
    rcases B.isAncestorOrEq_total (ht.isAncestorOrEq_of_subtree her hx) hxa with h | h | h
    · exact absurd h hne
    · exact h
    · rw [hd] at h
      cases h
  refine ⟨hanc, ?_⟩
  rw [preorder_singleton_cons] at hx
  rcases List.mem_cons.mp hx with rfl | hx
  · rw [not_isAncestorOrEq_of_isDescendentOf hanc] at hxa
    cases hxa
  · exact hx

omit [LinearOrder N] in
theorem LoopInv.dropped_of_removed (hinv : LoopInv B hash f roots idx changed)
    (hidx : idx < roots.length) (hd : B.isDescendentOf hash roots[idx].hash = false) :
    ∃ x ∈ preorder f, B.isDescendentOf hash x.hash = false :=
  ⟨_, hinv.mem_preorder (List.getElem_mem hidx), hd⟩

omit [LinearOrder N] in
/-- A root that is an ancestor of the block is opened up: its children join the roots. -/
theorem LoopInv.openUp (ht : Ancestry B f) (hinv : LoopInv B hash f roots idx changed)
    (hidx : idx < roots.length) (hne : roots[idx].hash ≠ hash)
    (hd : B.isDescendentOf hash roots[idx].hash = false) :
    LoopInv B hash f ((swapRemove roots ⟨idx, hidx⟩).2 ++ (swapRemove roots ⟨idx, hidx⟩).1.children)
      idx true where
  entry r hr := by
    rcases List.mem_append.mp hr with hr | hr
    · exact hinv.entry r (mem_of_mem_swapRemove hr)
    · obtain ⟨er, her, he⟩ := hinv.entry _ (List.getElem_mem hidx)
      refine ⟨_, mem_nodesOf_child her (c := r) ?_, rfl⟩
      rw [he]
      exact hr
  done j hj hji := by
    have hlen := length_swapRemove roots ⟨idx, hidx⟩
    rw [List.getElem_append_left (by omega), getElem_swapRemove_of_lt _ _ hji _ (by omega)]
    exact hinv.done j (by omega) hji
  covers x hx hxa := by
    rw [preorder_append]
    rcases mem_preorder_swapRemove (i := ⟨idx, hidx⟩) (hinv.covers x hx hxa) with hx | hx
    · exact List.mem_append_right _
        (hinv.below_removed ht (List.getElem_mem hidx) hne hd hx hxa).2
    · exact List.mem_append_left _ hx
  unchanged h := by cases h
  dropped _ := hinv.dropped_of_removed hidx hd

omit [LinearOrder N] in
/-- A root that is neither the block, nor its ancestor, nor its descendant is dropped. -/
theorem LoopInv.drop (ht : Ancestry B f) (hinv : LoopInv B hash f roots idx changed)
    (hidx : idx < roots.length) (hne : roots[idx].hash ≠ hash)
    (hd : B.isDescendentOf hash roots[idx].hash = false)
    (ha : B.isDescendentOf roots[idx].hash hash = false) :
    LoopInv B hash f (swapRemove roots ⟨idx, hidx⟩).2 idx true where
  entry r hr := hinv.entry r (mem_of_mem_swapRemove hr)
  done j hj hji := by
    rw [getElem_swapRemove_of_lt _ _ hji _ (by omega)]
    exact hinv.done j (by omega) hji
  covers x hx hxa := by
    rcases mem_preorder_swapRemove (i := ⟨idx, hidx⟩) (hinv.covers x hx hxa) with hx | hx
    · -- nothing at or below the block lies under the dropped root
      have := (hinv.below_removed ht (List.getElem_mem hidx) hne hd hx hxa).1
      rw [ha] at this
      cases this
    · exact hx
  unchanged h := by cases h
  dropped _ := hinv.dropped_of_removed hidx hd

omit [LinearOrder N] in
theorem LoopInv.mem_preorder_iff (ht : Ancestry B f) (hinv : LoopInv B hash f roots idx changed)
    (hidx : roots.length ≤ idx) (x : Node H N V) :
    x ∈ preorder roots ↔ x ∈ preorder f ∧ B.isDescendentOf hash x.hash = true := by
  constructor
  · intro hx
    rw [preorder_eq_flatMap] at hx
    obtain ⟨r, hr, hx⟩ := List.mem_flatMap.mp hx
    obtain ⟨j, hj, rfl⟩ := List.mem_iff_getElem.mp hr
    obtain ⟨er, her, he⟩ := hinv.entry _ hr
    rw [← he] at hx
    have hdone := hinv.done j hj (by omega)
    rw [← he] at hdone
    exact ⟨preorder_subset_of_entry her hx, ht.isDescendentOf_of_subtree her hdone hx⟩
  · rintro ⟨hx, hdesc⟩
    exact hinv.covers x hx (by simp [BlockTree.isAncestorOrEq, hdesc])

omit [LinearOrder N] in
theorem LoopInv.hash_ne (ht : Ancestry B f) (hinv : LoopInv B hash f roots idx changed)
    (hidx : roots.length ≤ idx) {x : Node H N V} (hx : x ∈ preorder f) : x.hash ≠ hash := by
  intro hxh
  have hcov := hinv.covers x hx (by simp [BlockTree.isAncestorOrEq, hxh])
  have := ((hinv.mem_preorder_iff ht hidx x).mp hcov).2
  rw [hxh, B.irrefl] at this
  cases this

omit [LinearOrder N] in
theorem LoopInv.changed_iff (ht : Ancestry B f) (hinv : LoopInv B hash f roots idx changed)
    (hidx : roots.length ≤ idx) :
    changed = true ↔ ∃ x ∈ preorder f, B.isDescendentOf hash x.hash = false := by
  refine ⟨hinv.dropped, fun ⟨x, hx, hdesc⟩ => ?_⟩
  cases changed
  · -- unchanged roots all descend from the block, and with them every node
    have hx' : x ∈ preorder roots := by
      rw [hinv.unchanged rfl]
      exact hx
    rw [((hinv.mem_preorder_iff ht hidx x).mp hx').2] at hdesc
    cases hdesc
  · rfl

/-- **The loop of `finalize_with_ancestors`**: from a state that keeps `LoopInv`, it ends with
every root behind the index and the invariant kept, or finds the block among the nodes. -/
theorem finalizeWithAncestorsLoop_spec (ht : Ancestry B t.roots) (hnum : Numbered B num t.roots)
    (hnumber : number = num hash) (roots : List (Node H N V)) (idx : ℕ) (changed : Bool)
    (hinv : LoopInv B hash t.roots roots idx changed) :
    (∃ changed' roots' idx', ForkTree.finalizeWithAncestorsLoop hash number (B.isDescendentOfM E)
        roots idx changed = (.ok (.inl changed'), roots') ∧ roots'.length ≤ idx' ∧
        LoopInv B hash t.roots roots' idx' changed') ∨
      ∃ er ∈ nodesOf t.roots, er.2.hash = hash ∧ ∃ roots', ForkTree.finalizeWithAncestorsLoop hash
        number (B.isDescendentOfM E) roots idx changed =
          (.ok (.inr (er.2.data, ⟨er.2.children, some er.2.number⟩)), roots') := by
  by_cases hidx : idx < roots.length
  · rw [finalizeWithAncestorsLoop_of_lt changed hidx]
    have hr := hinv.mem_preorder (List.getElem_mem hidx)
    by_cases hf : roots[idx].hash = hash
    · rw [if_pos hf]
      obtain ⟨er, her, he⟩ := hinv.entry _ (List.getElem_mem hidx)
      exact .inr ⟨er, her, he ▸ hf, roots, by rw [he]⟩
    · rw [if_neg hf, hnum.descendantAbove_eq hnumber hr, hnum.ancestorBelow_eq hnumber hr]
      by_cases hd : B.isDescendentOf hash roots[idx].hash = true
      · rw [if_pos hd]
        exact finalizeWithAncestorsLoop_spec ht hnum hnumber roots (idx + 1) changed
          (hinv.descend hidx hd)
      · rw [if_neg hd]
        have hd : B.isDescendentOf hash roots[idx].hash = false := by simpa using hd
        by_cases ha : B.isDescendentOf roots[idx].hash hash = true
        · rw [if_pos ha]
          exact finalizeWithAncestorsLoop_spec ht hnum hnumber _ idx true
            (hinv.openUp ht hidx hf hd)
        · rw [if_neg ha]
          exact finalizeWithAncestorsLoop_spec ht hnum hnumber _ idx true
            (hinv.drop ht hidx hf hd (by simpa using ha))
  · rw [finalizeWithAncestorsLoop_of_le changed (not_lt.mp hidx)]
    exact .inl ⟨changed, roots, idx, rfl, not_lt.mp hidx, hinv⟩
termination_by (size roots, roots.length - idx)
decreasing_by
  · exact Prod.Lex.right _ (by omega)
  · refine Prod.Lex.left _ _ ?_
    rw [size_append, size_swapRemove roots ⟨idx, hidx⟩]
    omega
  · refine Prod.Lex.left _ _ ?_
    rw [size_swapRemove roots ⟨idx, hidx⟩]
    omega

omit [DecidableEq H] [LinearOrder N] in
theorem found_node_iff (ht : Ancestry B t.roots) {er : List H × Node H N V}
    (her : er ∈ nodesOf t.roots) (hhash : er.2.hash = hash) (d : V) :
    (∃ x ∈ preorder t.roots, x.hash = hash ∧ x.data = d) ↔ d = er.2.data := by
  constructor
  · rintro ⟨x, hx, hxh, rfl⟩
    rw [ht.eq_of_mem_preorder her hx (hxh.trans hhash.symm)]
  · rintro rfl
    exact ⟨er.2, List.mem_map_of_mem her, hhash, rfl⟩

/-- **What `finalize_with_ancestors` leaves.** It returns `Ok`, the nodes that descend from the
block stay, and the result is the block's data where it is a node, or whether a node was
dropped. -/
theorem finalizeWithAncestors_spec_ok (ht : Ancestry B t.roots) (hnum : Numbered B num t.roots)
    (hnumber : number = num hash) (hrev : t.reverts number = false) :
    ∃ res, (t.finalizeWithAncestors hash number (B.isDescendentOfM E)).1 = .ok res ∧
      Finalized B hash number t (t.finalizeWithAncestors hash number (B.isDescendentOfM E)).2 ∧
      ResultSpec B hash t (fun d => ∃ x ∈ preorder t.roots, x.hash = hash ∧ x.data = d) res := by
  unfold ForkTree.finalizeWithAncestors
  rw [if_neg (by simp [hrev])]
  cases hfind : t.roots.findIdx? (·.hash == hash) with
  | some i =>
    obtain ⟨hi, hhash, -⟩ := List.findIdx?_eq_some_iff_getElem.mp hfind
    have hhash : t.roots[i].hash = hash := beq_iff_eq.mp hhash
    have hroot := root_mem_nodesOf (List.getElem_mem hi)
    rw [finalizeRoot_of_findIdx hi hfind]
    exact ⟨_, rfl, finalized_of_entry ht hnum hnumber hroot hhash,
      resultSpec_changed (found_node_iff ht hroot hhash)⟩
  | none =>
    rw [finalizeRoot_of_findIdx_none hfind]
    dsimp only
    rcases finalizeWithAncestorsLoop_spec ht hnum hnumber t.roots 0 false LoopInv.init with
      ⟨changed, roots, idx, hloop, hidx, hinv⟩ | ⟨er, her, hhash, roots, hloop⟩
    · rw [hloop]
      exact ⟨_, rfl, ⟨rfl, hinv.mem_preorder_iff ht hidx⟩,
        resultSpec_none (fun d ⟨x, hx, hxh, _⟩ => hinv.hash_ne ht hidx hx hxh) changed
          (hinv.changed_iff ht hidx)⟩
    · rw [hloop]
      exact ⟨_, rfl, finalized_of_entry ht hnum hnumber her hhash,
        resultSpec_changed (found_node_iff ht her hhash)⟩

end Loop

/-- **Finalizing a block.** Over a tree that keeps `Ancestry` and whose numbers are its blocks',
finalizing a block above the best finalized number: where `finalize` returns `Ok`, and always for
`finalize_with_ancestors`, the best finalized number becomes the block's, the nodes that descend
from the block stay with their children and no other node does, and the result is the data of the
root (for `finalize`) or node (for `finalize_with_ancestors`) that is the block, else whether a node
was dropped; `finalize` fails with `UnfinalizedAncestor` exactly where no root is the block and one
is its ancestor. -/
theorem finalize_spec [DecidableEq H] [LinearOrder N] {E : Type} (B : BlockTree H) (num : H → N)
    (t : ForkTree H N V) (ht : Ancestry B t.roots) (hnum : Numbered B num t.roots) (hash : H)
    (number : N) (hnumber : number = num hash)
    (hbest : ∀ b ∈ t.bestFinalizedNumber, b < number) :
    (∀ res, (t.finalize hash number (B.isDescendentOfM E)).1 = .ok res →
      Finalized B hash number t (t.finalize hash number (B.isDescendentOfM E)).2 ∧
        ResultSpec B hash t (fun d => ∃ r ∈ t.roots, r.hash = hash ∧ r.data = d) res) ∧
    ((t.finalize hash number (B.isDescendentOfM E)).1 = .error .unfinalizedAncestor ↔
      (∀ r ∈ t.roots, r.hash ≠ hash) ∧ ∃ r ∈ t.roots, B.isDescendentOf r.hash hash = true) ∧
    ∃ res, (t.finalizeWithAncestors hash number (B.isDescendentOfM E)).1 = .ok res ∧
      Finalized B hash number t (t.finalizeWithAncestors hash number (B.isDescendentOfM E)).2 ∧
      ResultSpec B hash t (fun d => ∃ x ∈ preorder t.roots, x.hash = hash ∧ x.data = d) res := by
  have hrev := reverts_eq_false hbest
  exact ⟨fun _ hres => finalize_spec_of_ok ht hnum hnumber hrev hres,
    finalize_unfinalizedAncestor_iff hnum hnumber hrev,
    finalizeWithAncestors_spec_ok ht hnum hnumber hrev⟩

theorem numbered_chainTree : Numbered natChain id chainTree.roots where
  lt_of_isDescendentOf a b h := by simpa [natChain] using h
  number_eq x hx := by
    simp only [chainTree, preorder_singleton, preorder_nil, List.mem_cons] at hx
    rcases hx with rfl | rfl | hx
    · rfl
    · rfl
    · cases hx

theorem finalize_spec_chainTree :
    Ancestry natChain chainTree.roots ∧ Numbered natChain id chainTree.roots ∧ (1 : ℕ) = id 1 ∧
    (∀ b ∈ chainTree.bestFinalizedNumber, b < 1) ∧
    (∀ res, (chainTree.finalize 1 1 (natChain.isDescendentOfM Unit)).1 = .ok res →
      Finalized natChain 1 1 chainTree (chainTree.finalize 1 1 (natChain.isDescendentOfM Unit)).2 ∧
        ResultSpec natChain 1 chainTree
          (fun d => ∃ r ∈ chainTree.roots, r.hash = 1 ∧ r.data = d) res) ∧
    ((chainTree.finalize 1 1 (natChain.isDescendentOfM Unit)).1 = .error .unfinalizedAncestor ↔
      (∀ r ∈ chainTree.roots, r.hash ≠ 1) ∧
        ∃ r ∈ chainTree.roots, natChain.isDescendentOf r.hash 1 = true) ∧
    ∃ res, (chainTree.finalizeWithAncestors 1 1 (natChain.isDescendentOfM Unit)).1 = .ok res ∧
      Finalized natChain 1 1 chainTree
        (chainTree.finalizeWithAncestors 1 1 (natChain.isDescendentOfM Unit)).2 ∧
      ResultSpec natChain 1 chainTree
        (fun d => ∃ x ∈ preorder chainTree.roots, x.hash = 1 ∧ x.data = d) res := by
  have hbest : ∀ b ∈ chainTree.bestFinalizedNumber, b < 1 := by simp [chainTree]
  exact ⟨ancestry_chainTree, numbered_chainTree, rfl, hbest,
    finalize_spec natChain id chainTree ancestry_chainTree numbered_chainTree 1 1 rfl hbest⟩

/-- A root numbered below the block it descends from. -/
def misnumberedTree : ForkTree ℕ ℕ ℕ := ⟨[⟨3, 1, 0, []⟩], none⟩

/-- Where a node's number is not its block's, `finalize` drops a node that descends from the
block: the root `3` descends from the block `2` but is numbered below it. -/
theorem finalize_drops_misnumbered :
    Ancestry natChain misnumberedTree.roots ∧ natChain.isDescendentOf 2 3 = true ∧
      misnumberedTree.finalize 2 2 (natChain.isDescendentOfM Unit) =
        (.ok (.changed none), ⟨[], some 2⟩) := by
  refine ⟨⟨?_, ?_⟩, rfl, rfl⟩
  · rw [misnumberedTree, hashesOf_singleton]
    decide
  · simp [misnumberedTree, nodesOf_singleton, natChain]

end PolkadotSdk.ForkTree
