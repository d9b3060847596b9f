import PolkadotSdk.ForkTree.Finalize
import PolkadotSdk.Lib.IndexedList
import Mathlib.Data.List.Induction

/-!
# Importing blocks

`import` looks for the deepest node whose block is an ancestor of the new block below its number
(`find_node_where` with a predicate that accepts every node), refuses a block already among that
node's children, or among the roots when there is no such node, and appends the new block as the
last child there, rebalancing the tree when the list it joined was empty.

`Ancestry` and `Numbered` depend only on the shape of a forest: each node's label with the hashes
of its ancestors (`shapeOf`). Appending a leaf under a node adds one entry to the shape
(`shapeOf_modifyAtPath_append`), and rebalancing reorders it (`shapeOf_rebalance`). Over a tree that
keeps both invariants, a block already in the tree is always among the children the code checks,
and the node found is the block's nearest ancestor in the tree, so that the new leaf's ancestors
are exactly its block's ancestors there (`Ancestry.snoc`).

* `importNode_spec`: an import of a block none of whose descendants is in the tree never panics,
  refuses a block already in the tree and changes nothing, and otherwise adds exactly that block,
  keeps both invariants, and reports whether the block became a root;
* `importAll_spec`: blocks imported ancestor first into a new tree leave a tree that keeps both
  invariants and holds every imported block once, with the data of its first import.
-/

namespace PolkadotSdk.ForkTree

open scoped List
open PolkadotSdk.Lib.IndexedList

variable {H N V : Type}

/-! ## Shapes -/

/-- A node's label with the hashes of its ancestors. -/
def entryShape (e : List H × Node H N V) : List H × H × N × V := (e.1, e.2.label)

/-- The shape of a forest: every node's label with the hashes of its ancestors, in pre-order. -/
def shapeOf (f : List (Node H N V)) : List (List H × H × N × V) := (nodesOf f).map entryShape

theorem hashesOf_eq_shapeOf (f : List (Node H N V)) :
    hashesOf f = (shapeOf f).map (·.2.1) := by
  simp [hashesOf, shapeOf, entryShape, Node.label, Function.comp_def]

theorem map_label_preorder (f : List (Node H N V)) :
    (preorder f).map Node.label = (shapeOf f).map (·.2) := by
  simp [preorder, shapeOf, entryShape, Function.comp_def]

theorem mem_shapeOf {f : List (Node H N V)} {s : List H × H × N × V} :
    s ∈ shapeOf f ↔ ∃ e ∈ nodesOf f, entryShape e = s := List.mem_map

theorem entryShape_eq {e e' : List H × Node H N V} (h : entryShape e = entryShape e') :
    e.1 = e'.1 ∧ e.2.hash = e'.2.hash := by
  simp only [entryShape, Node.label, Prod.mk.injEq] at h
  exact ⟨h.1, h.2.1⟩

theorem entryShape_eq_mk {e : List H × Node H N V} {ancs : List H} {l : H × N × V}
    (h : entryShape e = (ancs, l)) : e.1 = ancs ∧ e.2.hash = l.1 :=
  ⟨congrArg Prod.fst h, congrArg (·.2.1) h⟩

/-- A new leaf as the last child of the node at the end of a path adds the leaf, below that node
and its ancestors, to the shape of the subtree. -/
theorem withAncs_modifyAt_append (h : H) (n : N) (d : V) :
    ∀ (path : List ℕ) (t : Node H N V) (ancs : List H) {p : Node H N V}, t.nodeAt path = some p →
      ∃ pancs, (pancs, p) ∈ t.withAncs ancs ∧
        ((t.modifyAt (· ++ [⟨h, n, d, []⟩]) path).withAncs ancs).map entryShape ~
          (t.withAncs ancs).map entryShape ++ [(p.hash :: pancs, (h, n, d))]
  | [], ⟨h', n', d', cs⟩, ancs, p, hp => by
    obtain rfl := Option.some.inj hp
    refine ⟨ancs, by rw [withAncs_mk]; exact List.mem_cons_self, ?_⟩
    rw [Node.modifyAt, withAncs_mk, withAncs_mk, List.flatMap_append, List.flatMap_singleton,
      withAncs_mk, List.flatMap_nil]
    simp [entryShape, Node.label]
  | i :: path, ⟨h', n', d', cs⟩, ancs, p, hp => by
    obtain ⟨c, hc, hp⟩ := Option.bind_eq_some_iff.mp hp
    obtain ⟨pancs, hmem, hperm⟩ := withAncs_modifyAt_append h n d path c (h' :: ancs) hp
    refine ⟨pancs, ?_, ?_⟩
    · rw [withAncs_mk]
      exact List.mem_cons_of_mem _ (List.mem_flatMap.mpr ⟨c, List.mem_of_getElem? hc, hmem⟩)
    · -- only the subtree of the `i`-th child changes, and it gains the leaf
      rw [Node.modifyAt, withAncs_mk, withAncs_mk, List.map_cons, List.map_cons, List.map_flatMap,
        List.map_flatMap, List.cons_append]
      exact (flatMap_modify_perm hc hperm).cons _

/-- **Appending a leaf at a path** adds one entry to the shape: the leaf, below the node at the
path and that node's ancestors. -/
theorem shapeOf_modifyAtPath_append (h : H) (n : N) (d : V) {roots : List (Node H N V)}
    {path : List ℕ} {p : Node H N V} (hp : nodeAtPath roots path = some p) :
    ∃ pancs, (pancs, p) ∈ nodesOf roots ∧
      shapeOf (modifyAtPath (· ++ [⟨h, n, d, []⟩]) roots path) ~
        shapeOf roots ++ [(p.hash :: pancs, (h, n, d))] := by
  cases path with
  | nil => cases hp
  | cons i path =>
    obtain ⟨c, hc, hp⟩ := Option.bind_eq_some_iff.mp hp
    obtain ⟨pancs, hmem, hperm⟩ := withAncs_modifyAt_append h n d path c [] hp
    refine ⟨pancs, List.mem_flatMap.mpr ⟨c, List.mem_of_getElem? hc, hmem⟩, ?_⟩
    rw [modifyAtPath, shapeOf, shapeOf, nodesOf, nodesOf, List.map_flatMap, List.map_flatMap]
    exact flatMap_modify_perm hc hperm

theorem shapeOf_append_root (roots : List (Node H N V)) (h : H) (n : N) (d : V) :
    shapeOf (roots ++ [⟨h, n, d, []⟩]) = shapeOf roots ++ [([], (h, n, d))] := by
  rw [shapeOf, shapeOf, nodesOf_append, List.map_append, nodesOf_singleton]
  simp [entryShape, Node.label]

/-- Rebalancing a subtree reorders its shape. -/
theorem withAncs_rebalance (t : Node H N V) :
    ∀ ancs, (t.rebalance.withAncs ancs).map entryShape ~ (t.withAncs ancs).map entryShape := by
  induction t with
  | mk h n d cs ih =>
    intro ancs
    rw [Node.rebalance, withAncs_mk, withAncs_mk, List.map_cons, List.map_cons, List.map_flatMap,
      List.map_flatMap]
    refine List.Perm.cons _ ?_
    -- sorting the rebalanced children reorders them, and each one's shape is reordered
    calc ((cs.map Node.rebalance).mergeSort Node.byDepth).flatMap
          (fun c => (c.withAncs (h :: ancs)).map entryShape)
        ~ (cs.map Node.rebalance).flatMap (fun c => (c.withAncs (h :: ancs)).map entryShape) :=
          (List.mergeSort_perm _ _).flatMap_right _
      _ = cs.flatMap (fun c => (c.rebalance.withAncs (h :: ancs)).map entryShape) :=
          List.flatMap_map ..
      _ ~ cs.flatMap (fun c => (c.withAncs (h :: ancs)).map entryShape) :=
          List.Perm.flatMap_left _ fun c hc => ih c hc (h :: ancs)

/-- **Rebalancing reorders the shape.** -/
theorem shapeOf_rebalance [LinearOrder N] [DecidableEq H] (t : ForkTree H N V) :
    shapeOf t.rebalance.roots ~ shapeOf t.roots := by
  rw [ForkTree.rebalance, shapeOf, shapeOf, nodesOf, nodesOf, List.map_flatMap, List.map_flatMap]
  calc ((t.roots.map Node.rebalance).mergeSort Node.byDepth).flatMap
        (fun c => (c.withAncs []).map entryShape)
      ~ (t.roots.map Node.rebalance).flatMap (fun c => (c.withAncs []).map entryShape) :=
        (List.mergeSort_perm _ _).flatMap_right _
    _ = t.roots.flatMap (fun c => (c.rebalance.withAncs []).map entryShape) := List.flatMap_map ..
    _ ~ t.roots.flatMap (fun c => (c.withAncs []).map entryShape) :=
        List.Perm.flatMap_left _ fun c _ => withAncs_rebalance c []

/-! ## The invariants through shapes -/

section Invariants

variable {B : BlockTree H} {f f' : List (Node H N V)}

theorem Ancestry.ancestor_iff_of_shape (ht : Ancestry B f) {e₀ e₀' e e' : List H × Node H N V}
    (he₀ : e₀ ∈ nodesOf f) (he₀' : e₀' ∈ nodesOf f) (hs : entryShape e₀ = entryShape e)
    (hs' : entryShape e₀' = entryShape e') :
    e.2.hash ∈ e'.1 ↔ B.isDescendentOf e.2.hash e'.2.hash = true := by
  obtain ⟨-, h₁⟩ := entryShape_eq hs
  obtain ⟨h₂, h₃⟩ := entryShape_eq hs'
  rw [← h₁, ← h₂, ← h₃]
  exact ht.ancestor_iff e₀ he₀ e₀' he₀'

/-- **A leaf added to the shape keeps the invariant**, when its block is new, none of the blocks
of the forest descends from it, and its ancestors are exactly its block's ancestors there. -/
theorem Ancestry.snoc (ht : Ancestry B f) {ancs : List H} {l : H × N × V}
    (hperm : shapeOf f' ~ shapeOf f ++ [(ancs, l)]) (hnew : l.1 ∉ hashesOf f)
    (hbelow : ∀ x ∈ preorder f, B.isDescendentOf l.1 x.hash = false)
    (habove : ∀ x ∈ preorder f, x.hash ∈ ancs ↔ B.isDescendentOf x.hash l.1 = true)
    (hancs : ancs ⊆ hashesOf f) : Ancestry B f' := by
  -- every entry of the new forest is an old one or the leaf
  have hcase : ∀ e ∈ nodesOf f', (∃ e₀ ∈ nodesOf f, entryShape e₀ = entryShape e) ∨
      entryShape e = (ancs, l) := by
    intro e he
    rcases List.mem_append.mp (hperm.subset (mem_shapeOf.mpr ⟨e, he, rfl⟩)) with hs | hs
    · exact .inl (mem_shapeOf.mp hs)
    · exact .inr (List.mem_singleton.mp hs)
  have hleaf : l.1 ∉ ancs := fun h => hnew (hancs h)
  refine ⟨?_, fun e he e' he' => ?_⟩
  · rw [hashesOf_eq_shapeOf, (hperm.map _).nodup_iff, List.map_append, ← hashesOf_eq_shapeOf]
    refine List.nodup_append.mpr ⟨ht.nodup, List.nodup_singleton _, ?_⟩
    intro a ha b hb hab
    rw [List.map_singleton, List.mem_singleton] at hb
    rw [hab, hb] at ha
    exact hnew ha
  rcases hcase e he with ⟨e₀, he₀, hs⟩ | hs <;> rcases hcase e' he' with ⟨e₀', he₀', hs'⟩ | hs'
  · exact ht.ancestor_iff_of_shape he₀ he₀' hs hs'
  · -- an old node above the leaf
    obtain ⟨-, h₁⟩ := entryShape_eq hs
    obtain ⟨h₂, h₃⟩ := entryShape_eq_mk hs'
    rw [← h₁, h₂, h₃]
    exact habove e₀.2 (List.mem_map_of_mem he₀)
  · -- the leaf above an old node: neither side holds
    obtain ⟨-, h₁⟩ := entryShape_eq_mk hs
    obtain ⟨h₂, h₃⟩ := entryShape_eq hs'
    rw [h₁, ← h₂, ← h₃, hbelow e₀'.2 (List.mem_map_of_mem he₀')]
    exact iff_of_false (fun h => hnew (ancs_subset_hashesOf he₀' h)) Bool.false_ne_true
  · obtain ⟨-, h₁⟩ := entryShape_eq_mk hs
    obtain ⟨h₂, h₃⟩ := entryShape_eq_mk hs'
    rw [h₁, h₂, h₃, B.irrefl]
    exact iff_of_false hleaf Bool.false_ne_true

variable [LinearOrder N] {num : H → N}

theorem Numbered.of_labels (hnum : Numbered B num f) {extra : List (H × N × V)}
    (hperm : (preorder f').map Node.label ~ (preorder f).map Node.label ++ extra)
    (hextra : ∀ l ∈ extra, l.2.1 = num l.1) : Numbered B num f' := by
  refine ⟨hnum.lt_of_isDescendentOf, fun x hx => ?_⟩
  rcases List.mem_append.mp (hperm.subset (List.mem_map_of_mem (f := Node.label) hx)) with hy | hy
  · obtain ⟨y, hy, hxy⟩ := List.mem_map.mp hy
    have h₁ : y.hash = x.hash := congrArg Prod.fst hxy
    have h₂ : y.number = x.number := congrArg (·.2.1) hxy
    rw [← h₁, ← h₂]
    exact hnum.number_eq y hy
  · exact hextra _ hy

end Invariants

/-! ## Parents -/

/-- A node of a subtree other than its root is a child of the node its nearest ancestor names. -/
theorem withAncs_parent (t : Node H N V) : ∀ {ancs₀ : List H} {e : List H × Node H N V},
    e ∈ t.withAncs ancs₀ → ∀ {p : H} {ancs : List H}, e.1 = p :: ancs →
      e = (ancs₀, t) ∨ ∃ q, (ancs, q) ∈ t.withAncs ancs₀ ∧ q.hash = p ∧ e.2 ∈ q.children := by
  induction t with
  | mk h n d cs ih =>
    intro ancs₀ e he p ancs hp
    rw [withAncs_mk] at he
    rcases List.mem_cons.mp he with rfl | he
    · exact .inl rfl
    obtain ⟨c, hc, he⟩ := List.mem_flatMap.mp he
    refine .inr ?_
    rcases ih c hc he hp with rfl | ⟨q, hq, hqp, hcq⟩
    · -- `e` is the child `c` itself: its parent is the root
      obtain ⟨rfl, rfl⟩ := List.cons.inj hp
      exact ⟨⟨h, n, d, cs⟩, by rw [withAncs_mk]; exact List.mem_cons_self, rfl, hc⟩
    · refine ⟨q, ?_, hqp, hcq⟩
      rw [withAncs_mk]
      exact List.mem_cons_of_mem _ (List.mem_flatMap.mpr ⟨c, hc, hq⟩)

theorem mem_nodesOf_parent {f : List (Node H N V)} {e : List H × Node H N V} (he : e ∈ nodesOf f)
    {p : H} {ancs : List H} (hp : e.1 = p :: ancs) :
    ∃ q, (ancs, q) ∈ nodesOf f ∧ q.hash = p ∧ e.2 ∈ q.children := by
  obtain ⟨t, ht, he⟩ := List.mem_flatMap.mp he
  rcases withAncs_parent t he hp with rfl | ⟨q, hq, hqp, hcq⟩
  · exact absurd hp (List.cons_ne_nil p ancs).symm
  · exact ⟨q, List.mem_flatMap.mpr ⟨t, ht, hq⟩, hqp, hcq⟩

theorem mem_of_nil_mem_nodesOf {f : List (Node H N V)} {x : Node H N V}
    (hx : ([], x) ∈ nodesOf f) : x ∈ f := by
  obtain ⟨t, ht, he⟩ := List.mem_flatMap.mp hx
  rcases withAncs_root t _ he with he | he
  · rw [(Prod.mk.inj he).2]
    exact ht
  · simp at he

section Parents

variable {B : BlockTree H} {f : List (Node H N V)}

theorem Ancestry.mem_roots_of_no_ancestor (ht : Ancestry B f) {ey : List H × Node H N V}
    (hey : ey ∈ nodesOf f) (hnone : ∀ x ∈ preorder f, B.isDescendentOf x.hash ey.2.hash = false) :
    ey.2 ∈ f := by
  cases hancs : ey.1 with
  | nil =>
    have hey' : ey = ([], ey.2) := Prod.ext hancs rfl
    exact mem_of_nil_mem_nodesOf (hey' ▸ hey)
  | cons p ancs =>
    -- the parent would be an ancestor in the forest
    obtain ⟨q, hq, hqp, -⟩ := mem_nodesOf_parent hey hancs
    have hd := (ht.ancestor_iff _ hq ey hey).mp (by rw [hancs, hqp]; exact List.mem_cons_self)
    rw [hnone q (List.mem_map_of_mem hq)] at hd
    cases hd

section Deepest

variable {hash : H} {e : List H × Node H N V}
  (hanc : B.isDescendentOf e.2.hash hash = true)
  (hdeep : ∀ e' ∈ nodesOf f, B.isDescendentOf e'.2.hash hash = true → e' = e ∨ e'.2.hash ∈ e.1)
include hanc hdeep

theorem Ancestry.ancestors_of_deepest (ht : Ancestry B f) (he : e ∈ nodesOf f) :
    ∀ x ∈ preorder f, x.hash ∈ e.2.hash :: e.1 ↔ B.isDescendentOf x.hash hash = true := by
  intro x hx
  obtain ⟨ex, hex, hxe⟩ := List.mem_map.mp hx
  rw [← hxe]
  constructor
  · intro hmem
    rcases List.mem_cons.mp hmem with h | h
    · rw [h]
      exact hanc
    · exact B.trans ((ht.ancestor_iff ex hex e he).mp h) hanc
  · intro hd
    rcases hdeep ex hex hd with rfl | h
    · exact List.mem_cons_self
    · exact List.mem_cons_of_mem _ h

/-- **The deepest ancestor's children.** A node of the forest with the block's hash is a child of
the block's deepest ancestor `e` there. -/
theorem Ancestry.mem_children_of_deepest (ht : Ancestry B f) (he : e ∈ nodesOf f)
    {ey : List H × Node H N V} (hey : ey ∈ nodesOf f) (hh : ey.2.hash = hash) :
    ey.2 ∈ e.2.children := by
  -- the ancestors of the node are the block's
  have hin : ∀ e' ∈ nodesOf f, e'.2.hash ∈ ey.1 ↔ B.isDescendentOf e'.2.hash hash = true := by
    intro e' he'
    rw [← hh]
    exact ht.ancestor_iff e' he' ey hey
  have hey₁ := (hin e he).mpr hanc
  obtain ⟨p, ancs, hp⟩ := List.exists_cons_of_ne_nil (List.ne_nil_of_mem hey₁)
  obtain ⟨q, hq, hqp, hcq⟩ := mem_nodesOf_parent hey hp
  rcases hdeep _ hq ((hin _ hq).mp (by rw [hp, hqp]; exact List.mem_cons_self)) with hqe | hqe
  · rw [← hqe]
    exact hcq
  rw [hp] at hey₁
  rcases List.mem_cons.mp hey₁ with hep | hea
  · rw [← ht.eq_of_hash_eq hq he (hqp.trans hep.symm)]
    exact hcq
  · -- otherwise `e` lies above the parent and the parent above `e`
    have h₁ := (ht.ancestor_iff e he _ hq).mp hea
    have h₂ := (ht.ancestor_iff _ hq e he).mp hqe
    have hcycle := B.trans h₁ h₂
    rw [B.irrefl] at hcycle
    cases hcycle

end Deepest

end Parents

/-! ## `import` -/

section Import

variable [DecidableEq H] [LinearOrder N] {E : Type} {B : BlockTree H} {num : H → N}
  {t : ForkTree H N V} {hash : H} {number : N} {data : V} {isDescendentOf : H → H → Except E Bool}

theorem importNode_of_none (hrev : t.reverts number = false)
    (hfind : findNodeIndexWhere hash number isDescendentOf (fun _ => true) t.roots = .ok none) :
    t.importNode hash number data isDescendentOf =
      some (if t.roots.any (·.hash == hash) then (.error .duplicate, t)
        else (.ok true,
          if t.roots.length + 1 = 1 then
            ({ t with roots := t.roots ++ [⟨hash, number, data, []⟩] } : ForkTree H N V).rebalance
          else { t with roots := t.roots ++ [⟨hash, number, data, []⟩] })) := by
  simp only [ForkTree.importNode, hrev, hfind, Bool.false_eq_true, if_false, Option.map_some,
    Option.isNone_none, Option.getD_none, modifyAtPath]

theorem importNode_of_some {path : List ℕ} {p : Node H N V} (hrev : t.reverts number = false)
    (hfind : findNodeIndexWhere hash number isDescendentOf (fun _ => true) t.roots = .ok (some path))
    (hp : nodeAtPath t.roots path = some p) :
    t.importNode hash number data isDescendentOf =
      some (if p.children.any (·.hash == hash) then (.error .duplicate, t)
        else (.ok false,
          if p.children.length + 1 = 1 then
            ({ t with roots := modifyAtPath (· ++ [⟨hash, number, data, []⟩]) t.roots path } :
              ForkTree H N V).rebalance
          else { t with roots := modifyAtPath (· ++ [⟨hash, number, data, []⟩]) t.roots path })) := by
  simp only [ForkTree.importNode, hrev, hfind, hp, Bool.false_eq_true, if_false, Option.map_some,
    Option.isNone_some, Option.getD_some]

theorem shapeOf_ite_rebalance (c : Prop) [Decidable c] (t : ForkTree H N V) :
    shapeOf (if c then t.rebalance else t).roots ~ shapeOf t.roots := by
  split
  · exact shapeOf_rebalance t
  · exact List.Perm.refl _

omit [DecidableEq H] in
theorem Numbered.candidate_eq (hnum : Numbered B num t.roots) {x : Node H N V}
    (hx : x ∈ preorder t.roots) :
    candidate B hash (num hash) (fun _ => true) x = B.isDescendentOf x.hash hash := by
  rw [candidate, hnum.ancestorBelow_eq rfl hx, Bool.and_true]

omit [DecidableEq H] in
/-- **A new leaf keeps both invariants**, numbered by its block, when its ancestors in the new
forest are exactly its block's ancestors in the old one. -/
theorem Ancestry.importFresh (ht : Ancestry B t.roots) (hnum : Numbered B num t.roots)
    (hnew : hash ∉ hashesOf t.roots)
    (hbelow : ∀ x ∈ preorder t.roots, B.isDescendentOf hash x.hash = false)
    {ancs : List H} (hancs : ancs ⊆ hashesOf t.roots)
    (habove : ∀ x ∈ preorder t.roots, x.hash ∈ ancs ↔ B.isDescendentOf x.hash hash = true)
    {f' : List (Node H N V)} (hperm : shapeOf f' ~ shapeOf t.roots ++ [(ancs, (hash, num hash, data))]) :
    Ancestry B f' ∧ Numbered B num f' ∧
      (preorder f').map Node.label ~ (preorder t.roots).map Node.label ++ [(hash, num hash, data)] := by
  have hlabels : (preorder f').map Node.label ~
      (preorder t.roots).map Node.label ++ [(hash, num hash, data)] := by
    rw [map_label_preorder, map_label_preorder]
    simpa using hperm.map (·.2)
  exact ⟨ht.snoc hperm hnew hbelow habove hancs, hnum.of_labels hlabels (by simp), hlabels⟩

omit [LinearOrder N] in
theorem any_hash_eq_false {f children : List (Node H N V)}
    (hsub : ∀ c ∈ children, c.hash ∈ hashesOf f) (hnew : hash ∉ hashesOf f) :
    children.any (·.hash == hash) = false := by
  rw [List.any_eq_false]
  intro c hc hch
  exact hnew (beq_iff_eq.mp hch ▸ hsub c hc)

/-- **`import`.** Over a tree that keeps `Ancestry` and `Numbered`, an import of a block above the
best finalized number none of whose descendants is in the tree never panics. A block already in
the tree is refused and nothing changes. Otherwise the block is added once, with its own number and
its data, both invariants are kept, the best finalized number stays, and `import` reports that the
block became a root exactly when none of its ancestors is in the tree. -/
theorem importNode_spec (ht : Ancestry B t.roots) (hnum : Numbered B num t.roots)
    (hbest : ∀ b ∈ t.bestFinalizedNumber, b < num hash)
    (hbelow : ∀ x ∈ preorder t.roots, B.isDescendentOf hash x.hash = false) (data : V) :
    ∃ r t', t.importNode hash (num hash) data (B.isDescendentOfM E) = some (r, t') ∧
      (hash ∈ hashesOf t.roots → r = .error .duplicate ∧ t' = t) ∧
      (hash ∉ hashesOf t.roots →
        (∃ isRoot, r = .ok isRoot ∧
          (isRoot = true ↔ ∀ x ∈ preorder t.roots, B.isDescendentOf x.hash hash = false)) ∧
        (preorder t'.roots).map Node.label ~
          (preorder t.roots).map Node.label ++ [(hash, num hash, data)] ∧
        Ancestry B t'.roots ∧ Numbered B num t'.roots ∧
        t'.bestFinalizedNumber = t.bestFinalizedNumber) := by
  have hrev : t.reverts (num hash) = false := reverts_eq_false hbest
  have hmono := ht.numbersMonotone num hnum.lt_of_isDescendentOf hnum.number_eq
  obtain ⟨r, hr, hsome, hpath⟩ :=
    findNodeIndexWhere_spec (E := E) B t.roots ht hmono hash (num hash) (fun _ => true)
  cases r with
  | none =>
    -- no ancestor of the block is in the tree: it joins the roots
    have hnone : ∀ x ∈ preorder t.roots, B.isDescendentOf x.hash hash = false := by
      intro x hx
      rw [← hnum.candidate_eq hx, ← Bool.not_eq_true]
      exact fun hc => Bool.false_ne_true (hsome.mpr ⟨x, hx, hc⟩)
    rw [importNode_of_none hrev hr]
    by_cases hdup : hash ∈ hashesOf t.roots
    · obtain ⟨ey, hey, hh⟩ := List.mem_map.mp hdup
      have hroot := ht.mem_roots_of_no_ancestor hey (by rw [hh]; exact hnone)
      have hany : t.roots.any (·.hash == hash) = true :=
        List.any_eq_true.mpr ⟨ey.2, hroot, beq_iff_eq.mpr hh⟩
      rw [if_pos hany]
      exact ⟨_, _, rfl, fun _ => ⟨rfl, rfl⟩, fun h => absurd hdup h⟩
    · have hany : t.roots.any (·.hash == hash) = false := any_hash_eq_false
        (fun c hc => (map_hash_sublist_hashesOf _).subset (List.mem_map_of_mem hc)) hdup
      rw [if_neg (by rw [hany]; exact Bool.false_ne_true)]
      have hperm := (shapeOf_ite_rebalance (t.roots.length + 1 = 1)
        { t with roots := t.roots ++ [⟨hash, num hash, data, []⟩] }).trans
          (List.Perm.of_eq (shapeOf_append_root t.roots hash (num hash) data))
      obtain ⟨hanc, hnum', hlabels⟩ := ht.importFresh hnum hdup hbelow (List.nil_subset _)
        (fun x hx => iff_of_false List.not_mem_nil (by rw [hnone x hx]; exact Bool.false_ne_true))
        hperm
      refine ⟨_, _, rfl, fun h => absurd h hdup, fun _ => ⟨⟨true, rfl, iff_of_true rfl hnone⟩,
        hlabels, hanc, hnum', ?_⟩⟩
      split <;> rfl
  | some path =>
    -- the deepest ancestor `e` of the block in the tree: the block joins its children
    obtain ⟨e, he, hp, hcand, hdeep⟩ := hpath path rfl
    have hanc : B.isDescendentOf e.2.hash hash = true := by
      rwa [← hnum.candidate_eq (List.mem_map_of_mem he)]
    have hdeep' : ∀ e' ∈ nodesOf t.roots, B.isDescendentOf e'.2.hash hash = true →
        e' = e ∨ e'.2.hash ∈ e.1 := fun e' he' hd =>
      hdeep e' he' (by rw [hnum.candidate_eq (List.mem_map_of_mem he')]; exact hd)
    rw [importNode_of_some hrev hr hp]
    by_cases hdup : hash ∈ hashesOf t.roots
    · obtain ⟨ey, hey, hh⟩ := List.mem_map.mp hdup
      have hany : e.2.children.any (·.hash == hash) = true := List.any_eq_true.mpr
        ⟨ey.2, ht.mem_children_of_deepest hanc hdeep' he hey hh, beq_iff_eq.mpr hh⟩
      rw [if_pos hany]
      exact ⟨_, _, rfl, fun _ => ⟨rfl, rfl⟩, fun h => absurd hdup h⟩
    · have hany : e.2.children.any (·.hash == hash) = false :=
        any_hash_eq_false (fun c hc => List.mem_map_of_mem (mem_nodesOf_child he hc)) hdup
      rw [if_neg (by rw [hany]; exact Bool.false_ne_true)]
      obtain ⟨pancs, hpm, hperm⟩ := shapeOf_modifyAtPath_append hash (num hash) data hp
      have hpancs : pancs = e.1 := (Prod.ext_iff.mp (ht.eq_of_hash_eq hpm he rfl)).1
      rw [hpancs] at hperm
      have hancs : e.2.hash :: e.1 ⊆ hashesOf t.roots :=
        List.cons_subset.mpr ⟨List.mem_map_of_mem he, ancs_subset_hashesOf he⟩
      obtain ⟨hanc', hnum', hlabels⟩ := ht.importFresh hnum hdup hbelow hancs
        (ht.ancestors_of_deepest hanc hdeep' he)
        ((shapeOf_ite_rebalance (e.2.children.length + 1 = 1)
          { t with roots := modifyAtPath (· ++ [⟨hash, num hash, data, []⟩]) t.roots path }).trans hperm)
      refine ⟨_, _, rfl, fun h => absurd h hdup, fun _ => ⟨⟨false, rfl, ?_⟩,
        hlabels, hanc', hnum', ?_⟩⟩
      · refine iff_of_false Bool.false_ne_true fun hall => ?_
        rw [hall e.2 (List.mem_map_of_mem he)] at hanc
        exact Bool.false_ne_true hanc
      · split <;> rfl

/-- Block 3 imported below the chain of blocks 1 and 2. -/
theorem importNode_spec_chainTree :
    Ancestry natChain chainTree.roots ∧ Numbered natChain id chainTree.roots ∧
    ∃ r t', chainTree.importNode 3 (id 3) 30 (natChain.isDescendentOfM Unit) = some (r, t') ∧
      (3 ∈ hashesOf chainTree.roots → r = .error .duplicate ∧ t' = chainTree) ∧
      (3 ∉ hashesOf chainTree.roots →
        (∃ isRoot, r = .ok isRoot ∧
          (isRoot = true ↔ ∀ x ∈ preorder chainTree.roots, natChain.isDescendentOf x.hash 3 = false)) ∧
        (preorder t'.roots).map Node.label ~
          (preorder chainTree.roots).map Node.label ++ [(3, id 3, 30)] ∧
        Ancestry natChain t'.roots ∧ Numbered natChain id t'.roots ∧
        t'.bestFinalizedNumber = chainTree.bestFinalizedNumber) :=
  ⟨ancestry_chainTree, numbered_chainTree,
    importNode_spec ancestry_chainTree numbered_chainTree (fun b hb => by simp [chainTree] at hb)
      (by simp [chainTree, preorder_singleton, natChain]) 30⟩

end Import

/-! ## Runs of imports -/

section Runs

variable [DecidableEq H] [LinearOrder N] {E : Type} {B : BlockTree H} {num : H → N}

/-- Blocks imported one after another, each at its block's number, the results dropped; `none`
where an import panics. -/
def importAll (num : H → N) (isDescendentOf : H → H → Except E Bool) (t : ForkTree H N V)
    (blocks : List (H × V)) : Option (ForkTree H N V) :=
  blocks.foldlM (fun t b => (t.importNode b.1 (num b.1) b.2 isDescendentOf).map (·.2)) t

/-- The blocks of a list, each once, with the data of its first occurrence. -/
def firstImports (blocks : List (H × V)) : List (H × V) :=
  blocks.foldl (fun acc b => if b.1 ∈ acc.map Prod.fst then acc else acc ++ [b]) []

omit [LinearOrder N] in
theorem firstImports_append_singleton (l : List (H × V)) (c : H × V) :
    firstImports (l ++ [c]) =
      if c.1 ∈ (firstImports l).map Prod.fst then firstImports l else firstImports l ++ [c] := by
  rw [firstImports, List.foldl_append, List.foldl_cons, List.foldl_nil]
  rfl

omit [LinearOrder N] in
theorem mem_of_mem_firstImports {l : List (H × V)} {b : H × V} (hb : b ∈ firstImports l) :
    b ∈ l := by
  induction l using List.reverseRecOn with
  | nil => simp [firstImports] at hb
  | append_singleton l c ih =>
    rw [firstImports_append_singleton] at hb
    split at hb
    · exact List.mem_append_left _ (ih hb)
    · rcases List.mem_append.mp hb with hb | hb
      · exact List.mem_append_left _ (ih hb)
      · exact List.mem_append_right _ hb

omit [DecidableEq H] [LinearOrder N] in
theorem hashesOf_eq_map_preorder (f : List (Node H N V)) :
    hashesOf f = (preorder f).map Node.hash := by
  simp [hashesOf, preorder, Function.comp_def]

/-- **Imports in order.** Blocks imported into a new tree, none of them an ancestor of a block
before it, never make an import panic, and leave a tree that keeps `Ancestry` and `Numbered`,
has no best finalized number, and holds each imported block once, with the data of its first
import. -/
theorem importAll_spec (hlt : ∀ a b, B.isDescendentOf a b = true → num a < num b)
    (blocks : List (H × V)) (horder : blocks.Pairwise fun a b => B.isDescendentOf b.1 a.1 = false) :
    ∃ t, importAll num (B.isDescendentOfM E) ForkTree.new blocks = some t ∧
      Ancestry B t.roots ∧ Numbered B num t.roots ∧ t.bestFinalizedNumber = none ∧
      (preorder t.roots).map (fun x => (x.hash, x.data)) ~ firstImports blocks := by
  induction blocks using List.reverseRecOn with
  | nil =>
    exact ⟨ForkTree.new, rfl, ⟨List.nodup_nil, fun e he => by simp [ForkTree.new] at he⟩,
      ⟨hlt, fun x hx => by simp [ForkTree.new] at hx⟩, rfl, List.Perm.nil⟩
  | append_singleton l c ih =>
    obtain ⟨hl, -, hc⟩ := List.pairwise_append.mp horder
    obtain ⟨t, hrun, hanc, hnum, hbest, hlab⟩ := ih hl
    -- every block of the tree came before `c`, so none descends from it
    have hbelow : ∀ x ∈ preorder t.roots, B.isDescendentOf c.1 x.hash = false := fun x hx =>
      hc _ (mem_of_mem_firstImports (hlab.subset (List.mem_map_of_mem hx))) c
        (List.mem_singleton_self c)
    obtain ⟨r, t', himp, hdup, hfresh⟩ :=
      importNode_spec (E := E) hanc hnum (by simp [hbest]) hbelow c.2
    have hrun' : importAll num (B.isDescendentOfM E) ForkTree.new (l ++ [c]) = some t' := by
      rw [importAll, List.foldlM_append, ← importAll, hrun]
      simp [himp]
    have hhashes : hashesOf t.roots ~ (firstImports l).map Prod.fst := by
      rw [hashesOf_eq_map_preorder]
      simpa [List.map_map, Function.comp_def] using hlab.map Prod.fst
    by_cases hc1 : c.1 ∈ hashesOf t.roots
    · -- a duplicate: the tree and the first imports stay
      obtain ⟨-, ht'⟩ := hdup hc1
      refine ⟨t, ht' ▸ hrun', hanc, hnum, hbest, ?_⟩
      rw [firstImports_append_singleton, if_pos (hhashes.subset hc1)]
      exact hlab
    · obtain ⟨-, hlabels, hanc', hnum', hbest'⟩ := hfresh hc1
      refine ⟨t', hrun', hanc', hnum', hbest'.trans hbest, ?_⟩
      rw [firstImports_append_singleton, if_neg fun h => hc1 (hhashes.symm.subset h)]
      calc (preorder t'.roots).map (fun x => (x.hash, x.data))
          = ((preorder t'.roots).map Node.label).map (fun l => (l.1, l.2.2)) := by
            rw [List.map_map]
            rfl
        _ ~ ((preorder t.roots).map Node.label ++ [(c.1, num c.1, c.2)]).map
              (fun l => (l.1, l.2.2)) := hlabels.map _
        _ = (preorder t.roots).map (fun x => (x.hash, x.data)) ++ [c] := by
            simp [List.map_map, Function.comp_def, Node.label]
        _ ~ firstImports l ++ [c] := hlab.append_right _

/-- Blocks 1, 2 and 3 of a chain imported in order, block 2 twice. -/
def chainImports : List (ℕ × ℕ) := [(1, 10), (2, 20), (2, 21), (3, 30)]

theorem importAll_spec_chainImports :
    (∀ a b, natChain.isDescendentOf a b = true → id a < id b) ∧
    chainImports.Pairwise (fun a b => natChain.isDescendentOf b.1 a.1 = false) ∧
    ∃ t, importAll id (natChain.isDescendentOfM Unit) (ForkTree.new : ForkTree ℕ ℕ ℕ) chainImports =
        some t ∧
      Ancestry natChain t.roots ∧ Numbered natChain id t.roots ∧ t.bestFinalizedNumber = none ∧
      (preorder t.roots).map (fun x => (x.hash, x.data)) ~ firstImports chainImports := by
  have hlt : ∀ a b, natChain.isDescendentOf a b = true → id a < id b := fun a b h => by
    simpa [natChain] using h
  have horder : chainImports.Pairwise (fun a b => natChain.isDescendentOf b.1 a.1 = false) := by
    decide
  exact ⟨hlt, horder, importAll_spec hlt chainImports horder⟩

end Runs

end PolkadotSdk.ForkTree
