import PolkadotSdk.ForkTree.Iter

/-!
# Fork trees over a block tree

The closure `is_descendent_of` a fork tree is given answers questions about a tree of blocks.
`BlockTree` says what its answers mean: `isDescendentOf a b` says that `b` descends strictly from
`a`, so the relation is irreflexive and transitive, and the ancestors of a block form a chain.
Over it, `Ancestry` is the invariant the fork tree keeps: no hash is in it twice, and a node is an
ancestor of another in the fork tree exactly when its block is an ancestor of the other's.

Two facts carry the results over such trees: a node at or above a block lies below a root at or
above it (`Ancestry.root_le`), and no two roots are (`Ancestry.eq_of_roots_le`). So the first node
in pre-order that is at or above a block, among those a test accepts, is the root the test accepts
there (`Ancestry.find?_preorder`).
-/

namespace PolkadotSdk.ForkTree

open scoped List

variable {H N V : Type}

/-- What `is_descendent_of` answers about a tree of blocks: `isDescendentOf a b` when `b`
descends strictly from `a`. -/
structure BlockTree (H : Type) where
  isDescendentOf : H → H → Bool
  irrefl : ∀ a, isDescendentOf a a = false
  trans : ∀ {a b c}, isDescendentOf a b = true → isDescendentOf b c = true →
    isDescendentOf a c = true
  /-- The ancestors of a block form a chain. -/
  chain : ∀ {a b c}, isDescendentOf a c = true → isDescendentOf b c = true →
    a = b ∨ isDescendentOf a b = true ∨ isDescendentOf b a = true

namespace BlockTree

variable [DecidableEq H] (B : BlockTree H)

/-- The closure the fork tree is given, which never fails. -/
def isDescendentOfM (E : Type) (a b : H) : Except E Bool := .ok (B.isDescendentOf a b)

/-- `a == b || is_descendent_of(a, b)`: `a` is the block `b` or one of its ancestors. -/
def isAncestorOrEq (a b : H) : Bool := a == b || B.isDescendentOf a b

theorem isAncestorOrEq_trans {a b c : H} (hab : B.isDescendentOf a b = true)
    (hbc : B.isAncestorOrEq b c = true) : B.isDescendentOf a c = true := by
  rcases Bool.or_eq_true_iff.mp hbc with h | h
  · rwa [← beq_iff_eq.mp h]
  · exact B.trans hab h

theorem isAncestorOrEq_total {a b c : H} (ha : B.isAncestorOrEq a c = true)
    (hb : B.isAncestorOrEq b c = true) :
    a = b ∨ B.isDescendentOf a b = true ∨ B.isDescendentOf b a = true := by
  rcases Bool.or_eq_true_iff.mp ha with ha | ha <;> rcases Bool.or_eq_true_iff.mp hb with hb | hb
  · exact .inl ((beq_iff_eq.mp ha).trans (beq_iff_eq.mp hb).symm)
  · rw [beq_iff_eq.mp ha]
    exact .inr (.inr hb)
  · rw [beq_iff_eq.mp hb]
    exact .inr (.inl ha)
  · exact B.chain ha hb

end BlockTree

/-- The fork tree's invariant over a block tree: no hash twice, and a node is an ancestor of
another exactly when its block is an ancestor of the other's. -/
structure Ancestry (B : BlockTree H) (f : List (Node H N V)) : Prop where
  nodup : (hashesOf f).Nodup
  ancestor_iff : ∀ e ∈ nodesOf f, ∀ e' ∈ nodesOf f,
    e.2.hash ∈ e'.1 ↔ B.isDescendentOf e.2.hash e'.2.hash = true

theorem withAncs_root (t : Node H N V) :
    ∀ e ∈ t.withAncs [], e = ([], t) ∨ t.hash ∈ e.1 := by
  obtain ⟨h, n, d, cs⟩ := t
  intro e he
  rw [withAncs_mk] at he
  rcases List.mem_cons.mp he with he | he
  · exact .inl he
  obtain ⟨c, -, he⟩ := List.mem_flatMap.mp he
  rw [show [h] = [] ++ [h] from rfl, withAncs_append] at he
  obtain ⟨e', -, rfl⟩ := List.mem_map.mp he
  exact .inr (by simp)

theorem root_mem_nodesOf {f : List (Node H N V)} {t : Node H N V} (ht : t ∈ f) :
    ([], t) ∈ nodesOf f := by
  obtain ⟨h, n, d, cs⟩ := t
  exact List.mem_flatMap.mpr ⟨_, ht, by rw [withAncs_mk]; exact List.mem_cons_self⟩

theorem map_hash_sublist_hashesOf (f : List (Node H N V)) :
    (f.map (·.hash)).Sublist (hashesOf f) := by
  induction f with
  | nil => exact List.Sublist.slnil
  | cons t f ih =>
    obtain ⟨h, n, d, cs⟩ := t
    rw [hashesOf_cons, List.map_cons]
    exact (ih.trans (List.sublist_append_right _ _)).cons_cons _

section Ancestry

variable [DecidableEq H] {B : BlockTree H} {roots : List (Node H N V)}

omit [DecidableEq H] in
theorem Ancestry.eq_of_hash_eq (ht : Ancestry B roots) {e e' : List H × Node H N V}
    (he : e ∈ nodesOf roots) (he' : e' ∈ nodesOf roots) (h : e.2.hash = e'.2.hash) : e = e' :=
  List.inj_on_of_nodup_map ht.nodup he he' h

omit [DecidableEq H] in
theorem Ancestry.append_left {f₁ f₂ : List (Node H N V)} (ht : Ancestry B (f₁ ++ f₂)) :
    Ancestry B f₁ where
  nodup := by
    have := ht.nodup
    rw [hashesOf_append] at this
    exact this.sublist (List.sublist_append_left _ _)
  ancestor_iff e he e' he' := by
    have hmem := fun e (he : e ∈ nodesOf f₁) =>
      (nodesOf_append f₁ f₂ ▸ List.mem_append_left _ he : e ∈ nodesOf (f₁ ++ f₂))
    exact ht.ancestor_iff e (hmem e he) e' (hmem e' he')

omit [DecidableEq H] in
theorem Ancestry.append_right {f₁ f₂ : List (Node H N V)} (ht : Ancestry B (f₁ ++ f₂)) :
    Ancestry B f₂ where
  nodup := by
    have := ht.nodup
    rw [hashesOf_append] at this
    exact this.sublist (List.sublist_append_right _ _)
  ancestor_iff e he e' he' := by
    have hmem := fun e (he : e ∈ nodesOf f₂) =>
      (nodesOf_append f₁ f₂ ▸ List.mem_append_right _ he : e ∈ nodesOf (f₁ ++ f₂))
    exact ht.ancestor_iff e (hmem e he) e' (hmem e' he')

omit [DecidableEq H] in
theorem mem_nodesOf_singleton {h : H} {n : N} {d : V} {cs : List (Node H N V)}
    {e : List H × Node H N V} (he : e ∈ nodesOf cs) :
    (e.1 ++ [h], e.2) ∈ nodesOf [⟨h, n, d, cs⟩] := by
  rw [nodesOf_singleton]
  exact List.mem_cons_of_mem _ (List.mem_map_of_mem (f := fun e => (e.1 ++ [h], e.2)) he)

omit [DecidableEq H] in
theorem Ancestry.children {h : H} {n : N} {d : V} {cs : List (Node H N V)}
    (ht : Ancestry B [⟨h, n, d, cs⟩]) : Ancestry B cs where
  nodup := by
    have := ht.nodup
    rw [hashesOf_singleton] at this
    exact this.of_cons
  ancestor_iff e he e' he' := by
    have hne : e.2.hash ≠ h := by
      have hnodup := ht.nodup
      rw [hashesOf_singleton, List.nodup_cons] at hnodup
      rintro rfl
      exact hnodup.1 (List.mem_map_of_mem he)
    rw [← ht.ancestor_iff _ (mem_nodesOf_singleton he) _ (mem_nodesOf_singleton he')]
    simp [hne]

omit [DecidableEq H] in
theorem Ancestry.isDescendentOf_below {h : H} {n : N} {d : V} {cs : List (Node H N V)}
    (ht : Ancestry B [⟨h, n, d, cs⟩]) {x : Node H N V} (hx : x ∈ preorder cs) :
    B.isDescendentOf h x.hash = true := by
  obtain ⟨e, he, rfl⟩ := List.mem_map.mp hx
  have hroot : (([] : List H), (⟨h, n, d, cs⟩ : Node H N V)) ∈ nodesOf [⟨h, n, d, cs⟩] := by
    rw [nodesOf_singleton]
    exact List.mem_cons_self
  exact (ht.ancestor_iff _ hroot _ (mem_nodesOf_singleton he)).mp (by simp)

/-- No two sibling subtrees both hold a node at or above one block. -/
theorem Ancestry.not_le_of_cons {c : Node H N V} {cs : List (Node H N V)}
    (ht : Ancestry B (c :: cs)) {x y : Node H N V} (hx : x ∈ preorder [c]) (hy : y ∈ preorder cs)
    {z : H} (hxz : B.isAncestorOrEq x.hash z = true) (hyz : B.isAncestorOrEq y.hash z = true) :
    False := by
  obtain ⟨e, he, rfl⟩ := List.mem_map.mp hx
  obtain ⟨e', he', rfl⟩ := List.mem_map.mp hy
  have hdisj : (hashesOf [c]).Disjoint (hashesOf cs) := by
    have := ht.nodup
    rw [show c :: cs = [c] ++ cs from rfl, hashesOf_append] at this
    exact List.disjoint_of_nodup_append this
  have hmem : e ∈ nodesOf (c :: cs) := by
    rw [show c :: cs = [c] ++ cs from rfl, nodesOf_append]
    exact List.mem_append_left _ he
  have hmem' : e' ∈ nodesOf (c :: cs) := by
    rw [show c :: cs = [c] ++ cs from rfl, nodesOf_append]
    exact List.mem_append_right _ he'
  have hxh : e.2.hash ∈ hashesOf [c] := List.mem_map_of_mem he
  have hyh : e'.2.hash ∈ hashesOf cs := List.mem_map_of_mem he'
  rcases B.isAncestorOrEq_total hxz hyz with heq | hdesc | hdesc
  · exact hdisj hxh (heq ▸ hyh)
  · exact hdisj hxh (ancs_subset_hashesOf he' ((ht.ancestor_iff e hmem e' hmem').mpr hdesc))
  · exact hdisj (ancs_subset_hashesOf he ((ht.ancestor_iff e' hmem' e hmem).mpr hdesc)) hyh

theorem Ancestry.root_le (ht : Ancestry B roots) {r : Node H N V} (hr : r ∈ roots)
    {e : List H × Node H N V} (he : e ∈ r.withAncs []) {c : H}
    (hc : B.isAncestorOrEq e.2.hash c = true) : B.isAncestorOrEq r.hash c = true := by
  rcases withAncs_root r e he with rfl | hmem
  · exact hc
  · have hdesc := (ht.ancestor_iff _ (root_mem_nodesOf hr) e
      (List.mem_flatMap.mpr ⟨r, hr, he⟩)).mp hmem
    exact Bool.or_eq_true_iff.mpr (.inr (B.isAncestorOrEq_trans hdesc hc))

theorem Ancestry.eq_of_roots_le (ht : Ancestry B roots) {i j : ℕ} (hi : i < roots.length)
    (hj : j < roots.length) {c : H} (hic : B.isAncestorOrEq roots[i].hash c = true)
    (hjc : B.isAncestorOrEq roots[j].hash c = true) : i = j := by
  have hroot := fun k (hk : k < roots.length) => root_mem_nodesOf (List.getElem_mem hk)
  -- neither root is an ancestor of the other, which leaves them equal
  rcases B.isAncestorOrEq_total hic hjc with heq | hdesc | hdesc
  · have hnodup := (map_hash_sublist_hashesOf roots).nodup ht.nodup
    have hroots : roots[i] = roots[j] :=
      List.inj_on_of_nodup_map hnodup (List.getElem_mem hi) (List.getElem_mem hj) heq
    exact (hnodup.of_map _).getElem_inj_iff.mp hroots
  · exact absurd ((ht.ancestor_iff _ (hroot i hi) _ (hroot j hj)).mpr hdesc) List.not_mem_nil
  · exact absurd ((ht.ancestor_iff _ (hroot j hj) _ (hroot i hi)).mpr hdesc) List.not_mem_nil

/-- **The first node in pre-order that a test accepts is the root it accepts**, where the test
accepts only nodes at or above one block. -/
theorem Ancestry.find?_preorder (ht : Ancestry B roots) {M : Node H N V → Bool} {c : H}
    (hM : ∀ x, M x = true → B.isAncestorOrEq x.hash c = true) {i : ℕ} (hi : i < roots.length)
    (hMi : M roots[i] = true) : (preorder roots).find? M = some roots[i] := by
  -- the subtrees of the roots before the `i`-th hold no node the test accepts
  have hbefore : (preorder (roots.take i)).find? M = none := by
    refine List.find?_eq_none.mpr fun x hx hMx => ?_
    obtain ⟨e, he, rfl⟩ := List.mem_map.mp hx
    obtain ⟨r, hr, he⟩ := List.mem_flatMap.mp he
    obtain ⟨j, hj, rfl⟩ := List.mem_take_iff_getElem.mp hr
    have hj' : j < roots.length := by omega
    have := ht.eq_of_roots_le hj' hi
      (ht.root_le (List.getElem_mem hj') he (hM _ hMx)) (hM _ hMi)
    omega
  have hsplit : preorder roots =
      preorder (roots.take i) ++ preorder (roots[i] :: roots.drop (i + 1)) := by
    rw [← preorder_append, List.getElem_cons_drop hi, List.take_append_drop]
  rw [hsplit, preorder_cons, List.find?_append, hbefore, Option.none_or,
    List.find?_cons_of_pos hMi]

end Ancestry

end PolkadotSdk.ForkTree
