import PolkadotSdk.ForkTree.LevelOrder

/-!
# What `drain_filter` keeps

A node survives `drain_filter` when the first node on its path from its root, itself included,
of which the filter does not say `KeepNode` is one it says `KeepTree` of, or when there is no such
node (`keptBy`): below a `KeepTree` the filter is not asked again.

`pathsOf` lists the nodes of a forest in pre-order, each with the labels of its ancestors. The
forest `drainNodes` keeps has exactly the kept paths of the old one, in order
(`pathsOf_drainNodes`): the kept nodes keep their labels, their parents and the order of
siblings. The subtrees it removes hold, in pre-order, exactly the other nodes
(`preorder_drainNodes_removed`). With the loops of `LevelOrder` this is what `drain_filter`
leaves in the tree, before the rebalancing it does when it removed something, and what its
`RemovedIterator` yields (`drainFilter_spec`).
-/

set_option linter.dupNamespace false

namespace PolkadotSdk.ForkTree

open scoped List

variable {H N V W : Type}

/-- Every node of a subtree in pre-order, with the labels of its ancestors, root first, after
`above`, and its own label. -/
def Node.paths (above : List (H × N × V)) : Node H N V → List (List (H × N × V) × (H × N × V))
  | ⟨h, n, d, cs⟩ => (above, (h, n, d)) :: cs.flatMap (Node.paths (above ++ [(h, n, d)]))

/-- Every node of a forest in pre-order, with the labels of its ancestors, root first. -/
def pathsOf (f : List (Node H N V)) : List (List (H × N × V) × (H × N × V)) :=
  f.flatMap (Node.paths [])

section Kept

variable (filter : H → N → V → FilterAction)

/-- Whether `drain_filter` keeps the last node of a path of labels from a root: the first answer
of `filter` along it that is not `KeepNode` decides. -/
def keptBy : List (H × N × V) → Bool
  | [] => true
  | (h, n, d) :: path =>
    match filter h n d with
    | .keepNode => keptBy path
    | .keepTree => true
    | .remove => false

/-- Whether `drain_filter` keeps a node, given the labels of its ancestors. -/
def keptAt (p : List (H × N × V) × (H × N × V)) : Bool := keptBy filter (p.1 ++ [p.2])

theorem keptBy_append {above : List (H × N × V)}
    (habove : ∀ x ∈ above, filter x.1 x.2.1 x.2.2 = .keepNode) (path : List (H × N × V)) :
    keptBy filter (above ++ path) = keptBy filter path := by
  induction above with
  | nil => rfl
  | cons x above ih =>
    obtain ⟨h, n, d⟩ := x
    rw [List.cons_append, keptBy, habove _ List.mem_cons_self]
    exact ih fun y hy => habove y (List.mem_cons_of_mem _ hy)

theorem paths_prefix (t : Node H N V) :
    ∀ above, ∀ p ∈ t.paths above, ∃ rest, p.1 ++ [p.2] = above ++ t.label :: rest := by
  induction t with
  | mk h n d cs ih =>
    intro above p hp
    rw [Node.paths, List.mem_cons, List.mem_flatMap] at hp
    rcases hp with rfl | ⟨c, hc, hp⟩
    · exact ⟨[], rfl⟩
    · obtain ⟨rest, hrest⟩ := ih c hc _ p hp
      exact ⟨c.label :: rest, by rw [hrest]; simp [Node.label]⟩

theorem keptAt_paths {above : List (H × N × V)}
    (habove : ∀ x ∈ above, filter x.1 x.2.1 x.2.2 = .keepNode) {t : Node H N V}
    (ht : filter t.hash t.number t.data ≠ .keepNode) :
    ∀ p ∈ t.paths above, keptAt filter p = (filter t.hash t.number t.data == .keepTree) := by
  intro p hp
  obtain ⟨rest, hrest⟩ := paths_prefix t above p hp
  rw [keptAt, hrest, keptBy_append filter habove, Node.label, keptBy]
  cases hf : filter t.hash t.number t.data <;> simp_all

theorem map_snd_paths (t : Node H N V) :
    ∀ above, (t.paths above).map (·.2) = (preorder [t]).map Node.label := by
  induction t with
  | mk h n d cs ih =>
    intro above
    rw [Node.paths, List.map_cons, List.map_flatMap, List.flatMap_congr fun c hc => ih c hc _,
      preorder_cons, preorder_nil, List.append_nil, List.map_cons, preorder_eq_flatMap,
      List.map_flatMap]
    rfl

theorem keptAt_of_keepNode {above : List (H × N × V)}
    (habove : ∀ x ∈ above, filter x.1 x.2.1 x.2.2 = .keepNode) {h : H} {n : N} {d : V}
    (hf : filter h n d = .keepNode) : keptAt filter (above, (h, n, d)) = true := by
  rw [keptAt, keptBy_append filter habove]
  simp [keptBy, hf]

theorem keepNode_append {above : List (H × N × V)}
    (habove : ∀ x ∈ above, filter x.1 x.2.1 x.2.2 = .keepNode) {h : H} {n : N} {d : V}
    (hf : filter h n d = .keepNode) :
    ∀ x ∈ above ++ [(h, n, d)], filter x.1 x.2.1 x.2.2 = .keepNode := by
  intro x hx
  rcases List.mem_append.mp hx with hx | hx
  · exact habove x hx
  · rw [List.mem_singleton.mp hx]
    exact hf

theorem paths_drainNodes_of {cs : List (Node H N V)} {above : List (H × N × V)}
    (hcs : ∀ c ∈ cs, (Node.drainNode filter c).1.flatMap (Node.paths above) =
      (c.paths above).filter (keptAt filter)) :
    (Node.drainNodes filter cs).1.flatMap (Node.paths above) =
      (cs.flatMap (Node.paths above)).filter (keptAt filter) := by
  rw [drainNodes_eq, List.flatMap_assoc, List.filter_flatMap]
  exact List.flatMap_congr hcs

/-- What `drainNode` keeps of a subtree below ancestors that all say `KeepNode` has exactly its
kept paths. -/
theorem paths_drainNode (t : Node H N V) :
    ∀ above, (∀ x ∈ above, filter x.1 x.2.1 x.2.2 = .keepNode) →
      (Node.drainNode filter t).1.flatMap (Node.paths above) =
        (t.paths above).filter (keptAt filter) := by
  induction t with
  | mk h n d cs ih =>
    intro above habove
    cases hf : filter h n d with
    | keepNode =>
      -- the node is kept, and its children are filtered below one more `KeepNode`
      have hkept := keptAt_of_keepNode filter habove hf
      simp only [Node.drainNode, hf, List.flatMap_cons, List.flatMap_nil, List.append_nil,
        Node.paths, List.filter_cons, hkept, if_true]
      rw [paths_drainNodes_of filter fun c hc => ih c hc _ (keepNode_append filter habove hf)]
    | keepTree =>
      have hall := keptAt_paths filter habove (t := ⟨h, n, d, cs⟩) (by simp [hf])
      simp only [Node.drainNode, hf, List.flatMap_cons, List.flatMap_nil, List.append_nil]
      refine (List.filter_eq_self.mpr fun p hp => ?_).symm
      simp [hall p hp, hf]
    | remove =>
      have hall := keptAt_paths filter habove (t := ⟨h, n, d, cs⟩) (by simp [hf])
      simp only [Node.drainNode, hf, List.flatMap_nil]
      refine (List.filter_eq_nil_iff.mpr fun p hp => ?_).symm
      simp [hall p hp, hf]

theorem preorder_drainNodes_of {cs : List (Node H N V)} {above : List (H × N × V)}
    (hcs : ∀ c ∈ cs, (preorder (Node.drainNode filter c).2).map Node.label =
      ((c.paths above).filter fun p => !keptAt filter p).map (·.2)) :
    (preorder (Node.drainNodes filter cs).2).map Node.label =
      ((cs.flatMap (Node.paths above)).filter fun p => !keptAt filter p).map (·.2) := by
  rw [drainNodes_eq, preorder_flatMap, List.map_flatMap, List.filter_flatMap, List.map_flatMap]
  exact List.flatMap_congr hcs

/-- The subtrees `drainNode` removes below ancestors that all say `KeepNode` hold, in pre-order,
exactly the nodes that are not kept. -/
theorem preorder_drainNode_removed (t : Node H N V) :
    ∀ above, (∀ x ∈ above, filter x.1 x.2.1 x.2.2 = .keepNode) →
      (preorder (Node.drainNode filter t).2).map Node.label =
        ((t.paths above).filter fun p => !keptAt filter p).map (·.2) := by
  induction t with
  | mk h n d cs ih =>
    intro above habove
    cases hf : filter h n d with
    | keepNode =>
      have hkept := keptAt_of_keepNode filter habove hf
      simp only [Node.drainNode, hf, Node.paths, List.filter_cons, hkept, Bool.not_true,
        Bool.false_eq_true, if_false]
      rw [preorder_drainNodes_of filter fun c hc => ih c hc _ (keepNode_append filter habove hf)]
    | keepTree =>
      have hall := keptAt_paths filter habove (t := ⟨h, n, d, cs⟩) (by simp [hf])
      simp only [Node.drainNode, hf, preorder_nil, List.map_nil]
      rw [List.filter_eq_nil_iff.mpr fun p hp => by simp [hall p hp, hf], List.map_nil]
    | remove =>
      have hall := keptAt_paths filter habove (t := ⟨h, n, d, cs⟩) (by simp [hf])
      simp only [Node.drainNode, hf]
      rw [List.filter_eq_self.mpr fun p hp => by simp [hall p hp, hf], map_snd_paths]

/-- **`drainNodes` keeps exactly the kept paths of a forest**, in order. -/
theorem pathsOf_drainNodes (roots : List (Node H N V)) :
    pathsOf (Node.drainNodes filter roots).1 = (pathsOf roots).filter (keptAt filter) :=
  paths_drainNodes_of filter fun c _ => paths_drainNode filter c [] (by simp)

/-- **The subtrees `drainNodes` removes hold exactly the other nodes.** -/
theorem preorder_drainNodes_removed (roots : List (Node H N V)) :
    (preorder (Node.drainNodes filter roots).2).map Node.label =
      ((pathsOf roots).filter fun p => !keptAt filter p).map (·.2) :=
  preorder_drainNodes_of filter fun c _ => preorder_drainNode_removed filter c [] (by simp)

end Kept

/-- **What `drain_filter` and `map` do.** The loops of `drain_filter` leave in the tree the forest
whose paths are the kept paths of the old one, in order, rebalanced when something was removed,
and the `RemovedIterator` they return yields every other node once; `map` applies `f` to the data
of every node and keeps everything else. -/
theorem drainFilter_spec (t : ForkTree H N V) (filter : H → N → V → FilterAction)
    (f : H → N → V → W) :
    (∃ removed kept, t.drainFilterQueue filter = some (removed,
          if removed.isEmpty then { t with roots := kept } else { t with roots := kept }.rebalance) ∧
        pathsOf kept = (pathsOf t.roots).filter (keptAt filter) ∧
        removedItems removed ~ ((pathsOf t.roots).filter fun p => !keptAt filter p).map (·.2)) ∧
      t.map f = some ⟨t.roots.map (Node.map f), t.bestFinalizedNumber⟩ := by
  refine ⟨?_, map_eq t f⟩
  obtain ⟨removed, hq, hperm⟩ := drainFilterQueue_eq filter t
  refine ⟨removed, (Node.drainNodes filter t.roots).1, ?_, pathsOf_drainNodes filter t.roots, ?_⟩
  · rw [hq, hperm.isEmpty_eq]
    rfl
  · -- the iterator yields its stack in pre-order, and the stack is the removed subtrees
    calc removedItems removed
        ~ (preorder removed).map Node.label := removedItems_perm removed
      _ ~ (preorder (t.drainFilter filter).1).map Node.label := (preorder_perm hperm).map _
      _ = _ := preorder_drainNodes_removed filter t.roots

/-- Three roots, the middle one with a child. -/
def threeRoots : ForkTree ℕ ℕ ℕ :=
  ⟨[⟨1, 1, 0, []⟩, ⟨2, 1, 0, [⟨3, 2, 0, []⟩]⟩, ⟨4, 1, 0, []⟩], none⟩

/-- A root that keeps its subtree, with a child. -/
def keptTree : ForkTree ℕ ℕ ℕ := ⟨[⟨1, 1, 0, [⟨2, 2, 0, []⟩]⟩], none⟩

/-- `drain_filter` reorders the siblings it keeps when it removes a node, and keeps the subtree of
a node the filter says `KeepTree` of, even where the filter would say `Remove` of a node in it. -/
theorem drainFilter_reorders_siblings :
    ((threeRoots.drainFilterQueue fun h _ _ => if h = 4 then .remove else .keepNode).map
        fun r => r.2.roots.map (·.hash)) = some [2, 1] ∧
      ((keptTree.drainFilterQueue fun h _ _ => if h = 1 then .keepTree else .remove).map
        fun r => (r.1.length, r.2.roots.flatMap fun root => root.children.map (·.hash))) =
        some (0, [2]) := by
  constructor
  · obtain ⟨removed, h, -⟩ := drainFilterQueue_eq (fun h _ _ => if h = 4 then .remove else .keepNode)
      threeRoots
    rw [h]
    simp [threeRoots, ForkTree.drainFilter, Node.drainNodes, Node.drainNode, ForkTree.rebalance,
      Node.rebalance, List.mergeSort, Node.byDepth, Node.maxDepth]
  · obtain ⟨removed, h, hperm⟩ := drainFilterQueue_eq
      (fun h _ _ => if h = 1 then .keepTree else .remove) keptTree
    rw [h, Option.map_some, hperm.length_eq]
    dsimp only
    decide

end PolkadotSdk.ForkTree
