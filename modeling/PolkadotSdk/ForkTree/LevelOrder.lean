import PolkadotSdk.ForkTree.Iter

/-!
# The breadth-first loops of `map` and `drain_filter`

Both methods put the roots in a queue of `(parent, node)` entries, last root first, and empty it
one level at a time (`visitQueue`): each node is removed, kept whole, or kept with a new label,
in which case its entry goes to `retained` and its children join the next level, last first, under
the index of that entry. Popping `retained` from the end then hangs every node below its parent
(`rebuild`).

The result is the forest the recursion `keepAll` keeps (`rebuild_visitQueue_roots`): every queue
holds its level right to left, so that the nodes are popped, and hung below their parents, left to
right. `map` is therefore `Node.map` on every root (`map_eq`), and the loops of `drain_filter`
give the forest of `drainNodes` (`drainFilterQueue_eq`).
-/

set_option linter.dupNamespace false

namespace PolkadotSdk.ForkTree

open scoped List

variable {H N V W : Type}

/-- What the loops do with a node they take from the queue. -/
inductive Visit (H N W : Type) where
  /-- Keep it with this label, and queue its children. -/
  | keepNode (hash : H) (number : N) (data : W)
  /-- Keep this node, with its subtree. -/
  | keepTree (node : Node H N W)
  /-- Remove it, with its subtree. -/
  | remove

/-- An entry of the queue or of `retained`: the index in `retained` of the parent's entry, `none`
for a root (`usize::MAX`), and the node. -/
abbrev Entry (H N V : Type) : Type := Option ℕ × Node H N V

/-- `retained[parent].1.children.push(node)`. -/
def pushChild (node : Node H N W) (e : Entry H N W) : Entry H N W :=
  (e.1, { e.2 with children := e.2.children ++ [node] })

section Loops

variable (visit : Node H N V → Visit H N W)

/-- `for (parent, node) in queue.drain(..)`: the entries of a level visited in order. -/
def visitLevel : List (Entry H N V) → List (Entry H N W) → List (Node H N V) →
    List (Entry H N V) → List (Entry H N W) × List (Node H N V) × List (Entry H N V)
  | [], retained, removed, next => (retained, removed, next)
  | (parent, node) :: queue, retained, removed, next =>
    match visit node with
    | .keepNode h n d =>
      visitLevel queue (retained ++ [(parent, ⟨h, n, d, []⟩)]) removed
        (next ++ node.children.reverse.map fun c => (some retained.length, c))
    | .keepTree t => visitLevel queue (retained ++ [(parent, t)]) removed next
    | .remove => visitLevel queue retained (removed ++ [node]) next

/-- A level queues at most the children of its nodes. -/
theorem size_visitLevel (queue : List (Entry H N V)) : ∀ retained removed next,
    size ((visitLevel visit queue retained removed next).2.2.map (·.2)) + queue.length ≤
      size (next.map (·.2)) + size (queue.map (·.2)) := by
  induction queue with
  | nil => intro _ _ _; simp [visitLevel]
  | cons e queue ih =>
    intro retained removed next
    obtain ⟨parent, ⟨h, n, d, cs⟩⟩ := e
    simp only [List.map_cons, List.length_cons, size]
    cases hv : visit ⟨h, n, d, cs⟩ with
    | keepNode h' n' d' =>
      have := ih (retained ++ [(parent, ⟨h', n', d', []⟩)]) removed
        (next ++ cs.reverse.map fun c => (some retained.length, c))
      rw [List.map_append, List.map_map, size_append] at this
      simp only [Function.comp_def, List.map_id', size_perm (List.reverse_perm cs)] at this
      simp only [visitLevel, hv]
      omega
    | keepTree t =>
      have := ih (retained ++ [(parent, t)]) removed next
      simp only [visitLevel, hv]
      omega
    | remove =>
      have := ih retained (removed ++ [⟨h, n, d, cs⟩]) next
      simp only [visitLevel, hv]
      omega

/-- `while !queue.is_empty()`: the levels one after the other. -/
def visitQueue : List (Entry H N V) → List (Entry H N W) → List (Node H N V) →
    List (Entry H N W) × List (Node H N V)
  | [], retained, removed => (retained, removed)
  | e :: queue, retained, removed =>
    let r := visitLevel visit (e :: queue) retained removed []
    visitQueue r.2.2 r.1 r.2.1
termination_by queue => size (queue.map (·.2))
decreasing_by
  have := size_visitLevel visit (e :: queue) retained removed []
  simp only [List.map_nil, size, List.length_cons] at this
  omega

end Loops

/-- `while let Some((parent, node)) = retained.pop()`: each node goes to the children of its
parent, or to the roots; `none` where the parent's index is out of bounds, which panics. -/
def rebuild (retained : List (Entry H N W)) (roots : List (Node H N W)) :
    Option (List (Node H N W)) :=
  match h : retained.reverse with
  | [] => some roots
  | (none, node) :: rest => rebuild rest.reverse (roots ++ [node])
  | (some i, node) :: rest =>
    if i < rest.length then rebuild (rest.reverse.modify i (pushChild node)) roots else none
termination_by retained.length
decreasing_by
  all_goals
    have := congrArg List.length h
    simp only [List.length_reverse, List.length_cons, List.length_modify] at this ⊢
    omega

section Keep

variable (visit : Node H N V → Visit H N W)

mutual
/-- What the loops keep of a subtree, as a recursion: none of it or one node, and the subtrees
they remove. -/
def keep : Node H N V → List (Node H N W) × List (Node H N V)
  | ⟨h, n, d, cs⟩ =>
    match visit ⟨h, n, d, cs⟩ with
    | .keepNode h' n' d' =>
      let r := keepAll cs
      ([⟨h', n', d', r.1⟩], r.2)
    | .keepTree t => ([t], [])
    | .remove => ([], [⟨h, n, d, cs⟩])

/-- What the loops keep of a forest, and the subtrees they remove. -/
def keepAll : List (Node H N V) → List (Node H N W) × List (Node H N V)
  | [] => ([], [])
  | c :: cs =>
    let r := keep c
    let rs := keepAll cs
    (r.1 ++ rs.1, r.2 ++ rs.2)
end

/-- The entries the loops end up with for the subtrees of a queue: what they keep of each, under
the same parent. -/
def completed (queue : List (Entry H N V)) : List (Entry H N W) :=
  queue.flatMap fun e => (keep visit e.2).1.map fun t => (e.1, t)

/-- The subtrees the loops remove below the entries of a queue. -/
def removedBelow (queue : List (Entry H N V)) : List (Node H N V) :=
  queue.flatMap fun e => (keep visit e.2).2

theorem keepAll_eq (f : List (Node H N V)) :
    keepAll visit f = (f.flatMap fun c => (keep visit c).1, f.flatMap fun c => (keep visit c).2) := by
  induction f with
  | nil => rfl
  | cons c f ih => rw [keepAll, ih]; rfl

theorem reverse_keep_fst (t : Node H N V) : (keep visit t).1.reverse = (keep visit t).1 := by
  obtain ⟨h, n, d, cs⟩ := t
  rw [keep]
  split <;> rfl

theorem completed_append (q₁ q₂ : List (Entry H N V)) :
    completed visit (q₁ ++ q₂) = completed visit q₁ ++ completed visit q₂ := List.flatMap_append

theorem removedBelow_append (q₁ q₂ : List (Entry H N V)) :
    removedBelow visit (q₁ ++ q₂) = removedBelow visit q₁ ++ removedBelow visit q₂ :=
  List.flatMap_append

theorem completed_reverse_map (parent : Option ℕ) (f : List (Node H N V)) :
    completed visit (f.reverse.map fun c => (parent, c)) =
      (keepAll visit f).1.reverse.map fun t => (parent, t) := by
  induction f with
  | nil => rfl
  | cons c f ih =>
    rw [List.reverse_cons, List.map_append, completed_append, ih, keepAll, List.reverse_append,
      List.map_append, reverse_keep_fst]
    simp [completed]

theorem removedBelow_reverse_map_perm (parent : Option ℕ) (f : List (Node H N V)) :
    removedBelow visit (f.reverse.map fun c => (parent, c)) ~ (keepAll visit f).2 := by
  rw [removedBelow, List.flatMap_map, keepAll_eq]
  exact (List.reverse_perm f).flatMap_right _

end Keep

/-! ## Popping `retained` -/

section Rebuild

theorem modify_append_of_lt {α : Type} (f : α → α) {l₁ : List α} (l₂ : List α) {i : ℕ}
    (h : i < l₁.length) : (l₁ ++ l₂).modify i f = l₁.modify i f ++ l₂ := by
  induction l₁ generalizing i with
  | nil => simp at h
  | cons a l₁ ih =>
    cases i with
    | zero => simp
    | succ i => simp [ih (Nat.lt_of_succ_lt_succ h)]

theorem modify_length_append {α : Type} (f : α → α) (l₁ : List α) (a : α) (l₂ : List α) :
    (l₁ ++ a :: l₂).modify l₁.length f = l₁ ++ f a :: l₂ := by
  induction l₁ with
  | nil => simp
  | cons b l₁ ih => simp [ih]

/-- What pushing each node of `ts` in turn does to the entry of their parent. -/
def appendChildren (ts : List (Node H N W)) (e : Entry H N W) : Entry H N W :=
  (e.1, { e.2 with children := e.2.children ++ ts })

theorem appendChildren_nil : appendChildren ([] : List (Node H N W)) = id := by
  funext e
  obtain ⟨parent, ⟨h, n, d, cs⟩⟩ := e
  simp [appendChildren]

theorem appendChildren_comp_pushChild (t : Node H N W) (ts : List (Node H N W)) :
    appendChildren ts ∘ pushChild t = appendChildren (t :: ts) := by
  funext e
  simp [appendChildren, pushChild]

theorem rebuild_nil (roots : List (Node H N W)) : rebuild [] roots = some roots := by
  rw [rebuild]
  rfl

theorem rebuild_concat_none (l : List (Entry H N W)) (node : Node H N W)
    (roots : List (Node H N W)) :
    rebuild (l ++ [(none, node)]) roots = rebuild l (roots ++ [node]) := by
  rw [rebuild]
  split
  · next h => simp at h
  · next node' rest h =>
    simp only [List.reverse_append, List.reverse_cons, List.reverse_nil, List.nil_append,
      List.singleton_append, List.cons.injEq, Prod.mk.injEq] at h
    obtain ⟨⟨-, rfl⟩, rfl⟩ := h
    rw [List.reverse_reverse]
  · next h => simp at h

theorem rebuild_concat_some {l : List (Entry H N W)} {i : ℕ} (hi : i < l.length)
    (node : Node H N W) (roots : List (Node H N W)) :
    rebuild (l ++ [(some i, node)]) roots = rebuild (l.modify i (pushChild node)) roots := by
  rw [rebuild]
  split
  · next h => simp at h
  · next h => simp at h
  · next i' node' rest h =>
    simp only [List.reverse_append, List.reverse_cons, List.reverse_nil, List.nil_append,
      List.singleton_append, List.cons.injEq, Prod.mk.injEq, Option.some.injEq] at h
    obtain ⟨⟨rfl, rfl⟩, rfl⟩ := h
    rw [List.length_reverse, if_pos hi, List.reverse_reverse]

theorem rebuild_append_children {k : ℕ} (ts : List (Node H N W)) :
    ∀ {l : List (Entry H N W)}, k < l.length → ∀ roots,
      rebuild (l ++ ts.reverse.map fun t => (some k, t)) roots =
        rebuild (l.modify k (appendChildren ts)) roots := by
  induction ts with
  | nil =>
    intro l _ roots
    rw [appendChildren_nil, List.modify_id]
    simp
  | cons t ts ih =>
    intro l hk roots
    have hk' : k < (l.modify k (pushChild t)).length := by rwa [List.length_modify]
    rw [List.reverse_cons, List.map_append, ← List.append_assoc, List.map_cons, List.map_nil,
      rebuild_concat_some (by simp; omega), modify_append_of_lt _ _ hk, ih hk',
      List.modify_modify_eq, appendChildren_comp_pushChild]

theorem rebuild_append_roots (ts : List (Node H N W)) :
    ∀ (l : List (Entry H N W)) roots,
      rebuild (l ++ ts.reverse.map fun t => (none, t)) roots = rebuild l (roots ++ ts) := by
  induction ts with
  | nil => intro l roots; simp
  | cons t ts ih =>
    intro l roots
    rw [List.reverse_cons, List.map_append, ← List.append_assoc]
    simp only [List.map_cons, List.map_nil]
    rw [rebuild_concat_none, ih, List.append_assoc, List.singleton_append]

end Rebuild

/-! ## The loops keep what the recursion keeps -/

section Invariant

variable (visit : Node H N V → Visit H N W)

/-- **A level keeps what `rebuild` builds**: with what the recursion keeps below each entry still
waiting, `retained` rebuilds, from any roots, the same forest after the level as before it. -/
theorem rebuild_visitLevel (queue : List (Entry H N V)) : ∀ retained removed next roots,
    rebuild ((visitLevel visit queue retained removed next).1 ++
        completed visit (visitLevel visit queue retained removed next).2.2) roots =
      rebuild (retained ++ completed visit queue ++ completed visit next) roots := by
  induction queue with
  | nil => intro retained removed next roots; simp [visitLevel, completed]
  | cons e queue ih =>
    intro retained removed next roots
    obtain ⟨parent, ⟨h, n, d, cs⟩⟩ := e
    cases hv : visit ⟨h, n, d, cs⟩ with
    | keepNode h' n' d' =>
      -- the children wait at the end of the next level, under the entry the node just got
      simp only [visitLevel, hv]
      let node' : Node H N W := ⟨h', n', d', []⟩
      have hk : retained.length < (retained ++ [(parent, node')] ++
          completed visit queue ++ completed visit next).length := by simp
      have hl : retained ++ [(parent, node')] ++ completed visit queue ++
          completed visit next = retained ++ (parent, node') ::
            (completed visit queue ++ completed visit next) := by simp
      rw [ih, completed_append, completed_reverse_map, ← List.append_assoc,
        rebuild_append_children _ hk, hl, modify_length_append]
      simp [completed, keep, hv, appendChildren, node']
    | keepTree t =>
      simp only [visitLevel, hv]
      rw [ih]
      simp [completed, keep, hv]
    | remove =>
      simp only [visitLevel, hv]
      rw [ih]
      simp [completed, keep, hv]

theorem rebuild_visitQueue (queue : List (Entry H N V)) (retained : List (Entry H N W))
    (removed : List (Node H N V)) (roots : List (Node H N W)) :
    rebuild (visitQueue visit queue retained removed).1 roots =
      rebuild (retained ++ completed visit queue) roots := by
  fun_induction visitQueue visit queue retained removed with
  | case1 retained removed => simp [completed]
  | case2 e queue retained removed r ih =>
    rw [ih, rebuild_visitLevel]
    simp [completed]

/-- A level removes, up to order, the subtrees the recursion removes below it. -/
theorem visitLevel_removed_perm (queue : List (Entry H N V)) : ∀ retained removed next,
    (visitLevel visit queue retained removed next).2.1 ++
        removedBelow visit (visitLevel visit queue retained removed next).2.2 ~
      removed ++ removedBelow visit queue ++ removedBelow visit next := by
  induction queue with
  | nil => intro retained removed next; simp [visitLevel, removedBelow]
  | cons e queue ih =>
    intro retained removed next
    obtain ⟨parent, ⟨h, n, d, cs⟩⟩ := e
    cases hv : visit ⟨h, n, d, cs⟩ with
    | keepNode h' n' d' =>
      simp only [visitLevel, hv]
      refine (ih _ _ _).trans ?_
      have hcs := removedBelow_reverse_map_perm visit (some retained.length) cs
      rw [removedBelow_append]
      calc removed ++ removedBelow visit queue ++ (removedBelow visit next ++
              removedBelow visit (cs.reverse.map fun c => (some retained.length, c)))
          ~ removed ++ removedBelow visit queue ++
              (removedBelow visit next ++ (keepAll visit cs).2) :=
            (hcs.append_left _).append_left _
        _ = removed ++ (removedBelow visit queue ++ removedBelow visit next ++
              (keepAll visit cs).2) := by simp
        _ ~ removed ++ ((keepAll visit cs).2 ++
              (removedBelow visit queue ++ removedBelow visit next)) :=
            List.perm_append_comm.append_left _
        _ = _ := by simp [removedBelow, keep, hv]
    | keepTree t =>
      simp only [visitLevel, hv]
      refine (ih _ _ _).trans ?_
      simp [removedBelow, keep, hv]
    | remove =>
      simp only [visitLevel, hv]
      refine (ih _ _ _).trans ?_
      simp [removedBelow, keep, hv]

theorem visitQueue_removed_perm (queue : List (Entry H N V)) (retained : List (Entry H N W))
    (removed : List (Node H N V)) :
    (visitQueue visit queue retained removed).2 ~ removed ++ removedBelow visit queue := by
  fun_induction visitQueue visit queue retained removed with
  | case1 retained removed => simp [removedBelow]
  | case2 e queue retained removed r ih =>
    have hlevel := visitLevel_removed_perm visit (e :: queue) retained removed []
    rw [show removedBelow visit ([] : List (Entry H N V)) = [] from rfl, List.append_nil] at hlevel
    exact ih.trans hlevel

/-- `self.roots.into_iter().rev().map(|node| (usize::MAX, node))`. -/
def rootQueue (roots : List (Node H N V)) : List (Entry H N V) :=
  roots.reverse.map fun node => (none, node)

/-- **The loops rebuild the forest the recursion keeps**, and never panic. -/
theorem rebuild_visitQueue_roots (roots : List (Node H N V)) :
    rebuild (visitQueue visit (rootQueue roots) [] []).1 [] = some (keepAll visit roots).1 := by
  rw [rebuild_visitQueue, List.nil_append, rootQueue, completed_reverse_map,
    ← List.nil_append (List.map _ _), rebuild_append_roots, rebuild_nil, List.nil_append]

theorem visitQueue_roots_removed_perm (roots : List (Node H N V)) :
    (visitQueue visit (rootQueue roots) [] []).2 ~ (keepAll visit roots).2 := by
  refine (visitQueue_removed_perm visit _ _ _).trans ?_
  rw [List.nil_append, rootQueue]
  exact removedBelow_reverse_map_perm visit none roots

theorem keepAll_of_keep {g : Node H N V → Node H N W} {f : List (Node H N V)}
    (h : ∀ c ∈ f, keep visit c = ([g c], [])) : keepAll visit f = (f.map g, []) := by
  rw [keepAll_eq, List.flatMap_congr fun c hc => congrArg Prod.fst (h c hc),
    List.flatMap_congr fun c hc => congrArg Prod.snd (h c hc), List.map_eq_flatMap]
  simp

end Invariant

/-! ## `map` -/

/-- The node with `f` applied to the data of every node of its subtree. -/
def Node.map (f : H → N → V → W) : Node H N V → Node H N W
  | ⟨h, n, d, cs⟩ => ⟨h, n, f h n d, cs.map (Node.map f)⟩

/-- What `map` does with a node: keep it with `f`'s data, and queue its children. -/
def mapVisit (f : H → N → V → W) (node : Node H N V) : Visit H N W :=
  .keepNode node.hash node.number (f node.hash node.number node.data)

/-- `map`, as its loops compute it; `none` where it would panic. -/
def ForkTree.map (t : ForkTree H N V) (f : H → N → V → W) : Option (ForkTree H N W) :=
  (rebuild (visitQueue (mapVisit f) (rootQueue t.roots) [] []).1 []).map
    fun roots => ⟨roots, t.bestFinalizedNumber⟩

theorem keep_mapVisit (f : H → N → V → W) (t : Node H N V) :
    keep (mapVisit f) t = ([t.map f], []) := by
  induction t with
  | mk h n d cs ih =>
    simp only [keep, mapVisit, keepAll_of_keep (mapVisit f) ih, Node.map]

/-- **`map` applies `f` to the data of every node**, and keeps the shape, the hashes, the
numbers, the order of siblings and the best finalized number. -/
theorem map_eq (t : ForkTree H N V) (f : H → N → V → W) :
    t.map f = some ⟨t.roots.map (Node.map f), t.bestFinalizedNumber⟩ := by
  rw [ForkTree.map, rebuild_visitQueue_roots,
    keepAll_of_keep (mapVisit f) fun c _ => keep_mapVisit f c]
  rfl

/-! ## `drain_filter` -/

section Drain

variable (filter : H → N → V → FilterAction)

/-- What `drain_filter` does with a node, by what `filter` says of it. -/
def drainVisit (node : Node H N V) : Visit H N V :=
  match filter node.hash node.number node.data with
  | .keepNode => .keepNode node.hash node.number node.data
  | .keepTree => .keepTree node
  | .remove => .remove

/-- `drain_filter`, as its loops compute it: the removed subtrees (the stack of the
`RemovedIterator` it returns) and the tree, rebalanced when something was removed; `none` where it
would panic. -/
def ForkTree.drainFilterQueue (t : ForkTree H N V) : Option (List (Node H N V) × ForkTree H N V) :=
  let r := visitQueue (drainVisit filter) (rootQueue t.roots) [] []
  (rebuild r.1 []).map fun roots =>
    let t' : ForkTree H N V := { t with roots := roots }
    (r.2, if r.2.isEmpty then t' else t'.rebalance)

theorem drainNodes_eq (f : List (Node H N V)) :
    Node.drainNodes filter f =
      (f.flatMap fun c => (Node.drainNode filter c).1,
        f.flatMap fun c => (Node.drainNode filter c).2) := by
  induction f with
  | nil => rfl
  | cons c f ih => rw [Node.drainNodes, ih]; rfl

theorem keep_drainVisit (t : Node H N V) :
    keep (drainVisit filter) t = Node.drainNode filter t := by
  induction t with
  | mk h n d cs ih =>
    have hcs : keepAll (drainVisit filter) cs = Node.drainNodes filter cs := by
      rw [keepAll_eq, drainNodes_eq, List.flatMap_congr fun c hc => congrArg Prod.fst (ih c hc),
        List.flatMap_congr fun c hc => congrArg Prod.snd (ih c hc)]
    simp only [keep, drainVisit, Node.drainNode]
    cases filter h n d <;> simp [hcs]

theorem keepAll_drainVisit (f : List (Node H N V)) :
    keepAll (drainVisit filter) f = Node.drainNodes filter f := by
  rw [keepAll_eq, drainNodes_eq]
  simp only [keep_drainVisit]

/-- **The loops of `drain_filter` compute its recursion**: the same tree, and the same removed
subtrees up to order. -/
theorem drainFilterQueue_eq (t : ForkTree H N V) :
    ∃ removed, t.drainFilterQueue filter = some (removed, (t.drainFilter filter).2) ∧
      removed ~ (t.drainFilter filter).1 := by
  have hperm := visitQueue_roots_removed_perm (drainVisit filter) t.roots
  rw [keepAll_drainVisit] at hperm
  refine ⟨_, ?_, hperm⟩
  simp only [ForkTree.drainFilterQueue, rebuild_visitQueue_roots, keepAll_drainVisit,
    Option.map_some, ForkTree.drainFilter, hperm.isEmpty_eq]

end Drain

end PolkadotSdk.ForkTree
