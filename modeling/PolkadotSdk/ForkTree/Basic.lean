import Mathlib.Data.List.Sort
import Mathlib.Data.List.Perm.Basic

/-!
# The fork tree

`utils/fork-tree`: a forest of blocks, each node with its hash, number, data and children, kept
so that a node's children are the blocks of the tree that descend from it most closely. Which block
descends from which is asked of the caller's `is_descendent_of(base, block)`.

* `importNode` (`import`) hangs a block below the deepest node that `findNodeIndexWhere` finds
  among its ancestors, or makes it a root.
* `finalizeRoot`, `finalize`, `finalizeWithAncestors` and `finalizeWithDescendentIf` move the roots
  down to a finalized block and drop the branches that do not descend from it; `prune` re-roots the
  tree at a node; `drainFilter` removes the subtrees a filter rejects; `rebalance` sorts every level
  by depth.

The caller's closure is `H → H → Except E Bool`, and its error stops an operation at the point the
source's `?` does, with the tree as the operation has left it so far. A panic of the source (an
index out of bounds) is `none`. Two loops of the source are written as recursions with the same
result: the stack search of `find_node_index_where` (`searchNode`), and the breadth-first rebuild
of `drain_filter` (`drainNodes`), whose filter is a pure function.
-/

set_option linter.dupNamespace false

namespace PolkadotSdk.ForkTree

open scoped List

/-- `Error`, with `Client` carrying the error of the caller's closure. -/
inductive Error (E : Type) where
  | duplicate
  | unfinalizedAncestor
  | revert
  | client (e : E)
  deriving DecidableEq, Repr

inductive FinalizationResult (V : Type) where
  | changed (data : Option V)
  | unchanged
  deriving DecidableEq, Repr

inductive FilterAction where
  | remove
  | keepNode
  | keepTree
  deriving DecidableEq, Repr

structure Node (H N V : Type) where
  hash : H
  number : N
  data : V
  children : List (Node H N V)

structure ForkTree (H N V : Type) where
  roots : List (Node H N V)
  bestFinalizedNumber : Option N

variable {H N V : Type}

/-- `Vec::swap_remove`: the element at `i`, and the list with the last element moved into its
place. -/
def swapRemove {α : Type} (l : List α) (i : Fin l.length) : α × List α :=
  (l[i], (l.set i (l.getLast (List.ne_nil_of_length_pos (by have := i.isLt; omega)))).dropLast)

theorem swapRemove_perm {α : Type} (l : List α) (i : Fin l.length) :
    ((swapRemove l i).1 :: (swapRemove l i).2).Perm l := by
  obtain ⟨i, hi⟩ := i
  have hne : l ≠ [] := List.ne_nil_of_length_pos (by omega)
  set last := l.getLast hne
  set m := l.set i last
  -- the list after `set` still ends with the last element
  have hlast : m.getLast (by simpa [m] using hne) = last := by
    simp only [m, last, List.getLast_eq_getElem, List.getElem_set, List.length_set]
    split_ifs <;> simp_all
  have hm : m.dropLast ++ [last] = m := by
    rw [← hlast]
    exact List.dropLast_concat_getLast _
  have key : ((l[i] :: m.dropLast) ++ [last]).Perm (l ++ [last]) := calc
    (l[i] :: m.dropLast) ++ [last] = l[i] :: m := by rw [List.cons_append, hm]
    _ ~ l[i] :: last :: l.eraseIdx i := (List.set_perm_cons_eraseIdx hi last).cons _
    _ ~ last :: l[i] :: l.eraseIdx i := List.Perm.swap _ _ _
    _ ~ last :: l := (List.getElem_cons_eraseIdx_perm hi).cons _
    _ ~ l ++ [last] := List.perm_append_singleton _ _ |>.symm
  exact List.perm_append_right_iff _ |>.mp key

namespace Node

@[induction_eliminator]
theorem induction {motive : Node H N V → Prop}
    (mk : ∀ hash number data children, (∀ c ∈ children, motive c) →
      motive ⟨hash, number, data, children⟩) :
    ∀ t, motive t
  | ⟨h, n, d, cs⟩ => mk h n d cs fun c _ => induction mk c

/-- `max_depth`: the longest path down from the node. -/
def maxDepth : Node H N V → ℕ
  | ⟨_, _, _, cs⟩ => (cs.map fun c => c.maxDepth + 1).foldr max 0

/-- The order of `sort_by_key(|n| Reverse(n.max_depth()))`: deeper first. -/
def byDepth (a b : Node H N V) : Bool := b.maxDepth ≤ a.maxDepth

/-- The children of every node sorted, stably, by depth; sorting a level does not change the depths
the level above is sorted by. -/
def rebalance : Node H N V → Node H N V
  | ⟨h, n, d, cs⟩ => ⟨h, n, d, (cs.map rebalance).mergeSort byDepth⟩

/-- The node a path of child indices leads to. -/
def nodeAt : List ℕ → Node H N V → Option (Node H N V)
  | [], t => some t
  | i :: path, t => t.children[i]? >>= nodeAt path

/-- The children of the node a path leads to, changed by `g`. -/
def modifyAt (g : List (Node H N V) → List (Node H N V)) :
    List ℕ → Node H N V → Node H N V
  | [], ⟨h, n, d, cs⟩ => ⟨h, n, d, g cs⟩
  | i :: path, ⟨h, n, d, cs⟩ => ⟨h, n, d, cs.modify i (modifyAt g path)⟩

/-- The node a path leads to taken out of the forest `cs` (`Vec::remove` on its siblings), with what
remains. -/
def detachAt : List ℕ → List (Node H N V) → Option (Node H N V × List (Node H N V))
  | [], _ => none
  | [i], cs => if h : i < cs.length then some (cs[i], cs.eraseIdx i) else none
  | i :: j :: path, cs =>
    match cs[i]? with
    | none => none
    | some c => (detachAt (j :: path) c.children).map fun r =>
      (r.1, cs.set i { c with children := r.2 })

end Node

/-! ## Loops with a fallible test -/

section Loops

variable {α E : Type}

/-- The index of the first element from `i` on that a fallible test accepts; the test's first
error stops the scan. -/
def findIndexM (test : α → Except E Bool) : List α → ℕ → Except E (Option ℕ)
  | [], _ => pure none
  | a :: as, i => do if ← test a then pure (some i) else findIndexM test as (i + 1)

theorem findIndexM_lt {test : α → Except E Bool} {l : List α} {i j : ℕ}
    (h : findIndexM test l i = .ok (some j)) : i ≤ j ∧ j < i + l.length := by
  induction l generalizing i with
  | nil => cases h
  | cons a as ih =>
    simp only [findIndexM, bind, Except.bind] at h
    split at h
    · cases h
    · split at h
      · cases h
        simp
      · have := ih h
        simp only [List.length_cons]
        omega

/-- A loop that moves each element its fallible test keeps onto `kept` and the others onto
`dropped`, in order; the test's first error stops it, with what it has moved so far. -/
def retainM (keep : α → Except E Bool) : List α → List α → List α →
    Except E Unit × List α × List α
  | [], kept, dropped => (.ok (), kept, dropped)
  | a :: as, kept, dropped =>
    match keep a with
    | .error e => (.error e, kept, dropped)
    | .ok true => retainM keep as (kept ++ [a]) dropped
    | .ok false => retainM keep as kept (dropped ++ [a])

end Loops

namespace Node

section Search

variable [DecidableEq H] [LinearOrder N] {E : Type} (hash : H) (number : N)
  (isDescendentOf : H → H → Except E Bool) (predicate : V → Bool)

/-- What the depth-first search of `find_node_index_where` knows after a subtree: no ancestor of
the block in it, an ancestor but none passing the predicate on the way up (`is_descendent` set and
not `found`), or the path to the deepest ancestor that passes. -/
inductive Search where
  | notFound
  | ancestorFailed
  | found (path : List ℕ)
  deriving DecidableEq, Repr

mutual
/-- The search below a node: its children first, then the node itself, which is an ancestor when a
child's subtree held one. -/
def searchNode : Node H N V → Except E Search
  | ⟨h, _, d, cs⟩ => do
    match ← searchChildren cs 0 with
    | .found path => pure (.found path)
    | .ancestorFailed => pure (if predicate d then .found [] else .ancestorFailed)
    | .notFound =>
      if ← isDescendentOf h hash then pure (if predicate d then .found [] else .ancestorFailed)
      else pure .notFound

/-- The search of the children from index `i`, skipping those not below the block's number, and
stopping at the first that holds an ancestor. -/
def searchChildren : List (Node H N V) → ℕ → Except E Search
  | [], _ => pure .notFound
  | c :: cs, i =>
    if c.number < number then do
      match ← searchNode c with
      | .found path => pure (.found (i :: path))
      | .ancestorFailed => pure .ancestorFailed
      | .notFound => searchChildren cs (i + 1)
    else searchChildren cs (i + 1)
end

/-- The descent of `prune` below its new root, with the node as it leaves it: the first child that
is an ancestor of the block is the only one kept, and below the block's parent only the block and
its descendants are kept; with the removed nodes in the order `prune` collects them. -/
def pruneChain : Node H N V → Except E (List (Node H N V)) × Node H N V
  | ⟨h, n, d, cs⟩ =>
    let isAncestor := fun c : Node H N V =>
      if c.number < number then isDescendentOf c.hash hash else pure false
    match hi : findIndexM isAncestor cs 0 with
    | .error e => (.error e, ⟨h, n, d, cs⟩)
    | .ok (some idx) =>
      have hidx : idx < cs.length := by have := (findIndexM_lt hi).2; omega
      let r := pruneChain cs[idx]
      (r.1.map (cs.eraseIdx idx ++ ·), ⟨h, n, d, [r.2]⟩)
    | .ok none =>
      let keep := fun c : Node H N V =>
        if c.number == number && c.hash == hash then pure true
        else if number < c.number then isDescendentOf hash c.hash else pure false
      let r := retainM keep cs [] []
      (r.1.map fun _ => r.2.2, ⟨h, n, d, r.2.1⟩)
termination_by t => sizeOf t
decreasing_by
  have := List.sizeOf_lt_of_mem (List.getElem_mem hidx)
  simp only [Node.mk.sizeOf_spec]
  omega

end Search

section Drain

variable (filter : H → N → V → FilterAction)

mutual
/-- The nodes `drain_filter` keeps of a subtree (none or its root) and those it removes. -/
def drainNode : Node H N V → List (Node H N V) × List (Node H N V)
  | ⟨h, n, d, cs⟩ =>
    match filter h n d with
    | .keepNode =>
      let r := drainNodes cs
      ([⟨h, n, d, r.1⟩], r.2)
    | .keepTree => ([⟨h, n, d, cs⟩], [])
    | .remove => ([], [⟨h, n, d, cs⟩])

def drainNodes : List (Node H N V) → List (Node H N V) × List (Node H N V)
  | [] => ([], [])
  | c :: cs =>
    let r := drainNode c
    let rs := drainNodes cs
    (r.1 ++ rs.1, r.2 ++ rs.2)
end

end Drain

end Node

/-! ## Paths from the roots -/

/-- The node at a path from the roots (`find_node_where`); the path is never empty. -/
def nodeAtPath (roots : List (Node H N V)) : List ℕ → Option (Node H N V)
  | [] => none
  | i :: path => roots[i]? >>= Node.nodeAt path

/-- The children of the node at a path, or the roots for the empty path, changed by `g`. -/
def modifyAtPath (g : List (Node H N V) → List (Node H N V)) (roots : List (Node H N V)) :
    List ℕ → List (Node H N V)
  | [] => g roots
  | i :: path => roots.modify i (Node.modifyAt g path)

section Find

variable [DecidableEq H] [LinearOrder N] {E : Type} (hash : H) (number : N)
  (isDescendentOf : H → H → Except E Bool) (predicate : V → Bool)

/-- The loop of `find_node_index_where` over the roots from `i`: a root not below the block's
number is skipped, and the search stops at the first root whose subtree holds an ancestor. -/
def findRoots : List (Node H N V) → ℕ → Except E (Option (List ℕ))
  | [], _ => pure none
  | r :: rs, i =>
    if number ≤ r.number then findRoots rs (i + 1)
    else do
      match ← r.searchNode hash number isDescendentOf predicate with
      | .found path => pure (some (i :: path))
      | .ancestorFailed => pure none
      | .notFound => findRoots rs (i + 1)

/-- `find_node_index_where`: the path to the deepest ancestor of the block passing the predicate. -/
def findNodeIndexWhere (roots : List (Node H N V)) : Except E (Option (List ℕ)) :=
  findRoots hash number isDescendentOf predicate roots 0

/-- `find_node_where`. -/
def findNodeWhere (roots : List (Node H N V)) : Except E (Option (Node H N V)) :=
  (findNodeIndexWhere hash number isDescendentOf predicate roots).map (· >>= nodeAtPath roots)

end Find

/-- The result of a finalization: the finalized root's data, or whether any root was dropped. -/
def finalizationResult : Option V → Bool → FinalizationResult V
  | some data, _ => .changed (some data)
  | none, true => .changed none
  | none, false => .unchanged

/-- The total number of nodes of a forest. -/
def size : List (Node H N V) → ℕ
  | [] => 0
  | ⟨_, _, _, cs⟩ :: rs => 1 + size cs + size rs

theorem size_append (l₁ l₂ : List (Node H N V)) : size (l₁ ++ l₂) = size l₁ + size l₂ := by
  induction l₁ with
  | nil => simp [size]
  | cons r rs ih =>
    obtain ⟨_, _, _, cs⟩ := r
    simp only [List.cons_append, size, ih]
    omega

theorem size_perm {l₁ l₂ : List (Node H N V)} (h : l₁ ~ l₂) : size l₁ = size l₂ := by
  induction h with
  | nil => rfl
  | cons r _ ih =>
    obtain ⟨_, _, _, cs⟩ := r
    simp only [size, ih]
  | swap r s l =>
    obtain ⟨_, _, _, cs⟩ := r
    obtain ⟨_, _, _, cs'⟩ := s
    simp only [size]
    omega
  | trans _ _ ih₁ ih₂ => exact ih₁.trans ih₂

theorem size_swapRemove (roots : List (Node H N V)) (i : Fin roots.length) :
    size roots = 1 + size (swapRemove roots i).1.children + size (swapRemove roots i).2 := by
  rw [← size_perm (swapRemove_perm roots i)]
  obtain ⟨_, _, _, cs⟩ := (swapRemove roots i).1
  simp only [size]

namespace ForkTree

variable [DecidableEq H] [LinearOrder N] {E : Type}

/-- `ForkTree::new`. -/
def new : ForkTree H N V := ⟨[], none⟩

/-- `rebalance`. -/
def rebalance (t : ForkTree H N V) : ForkTree H N V :=
  { t with roots := (t.roots.map Node.rebalance).mergeSort Node.byDepth }

/-- The `Error::Revert` check: the number is at or below the best finalized one. -/
def reverts (t : ForkTree H N V) (number : N) : Bool :=
  t.bestFinalizedNumber.any (number ≤ ·)

/-- `import`, with `none` where it panics. -/
def importNode (t : ForkTree H N V) (hash : H) (number : N) (data : V)
    (isDescendentOf : H → H → Except E Bool) :
    Option (Except (Error E) Bool × ForkTree H N V) :=
  if t.reverts number then some (.error .revert, t)
  else
    match findNodeIndexWhere hash number isDescendentOf (fun _ => true) t.roots with
    | .error e => some (.error (.client e), t)
    | .ok path =>
      let children : Option (List (Node H N V)) := match path with
        | some path => (nodeAtPath t.roots path).map (·.children)
        | none => some t.roots
      children.map fun children =>
        if children.any (·.hash == hash) then (.error .duplicate, t)
        else
          let roots := modifyAtPath (· ++ [⟨hash, number, data, []⟩]) t.roots (path.getD [])
          let t' := { t with roots := roots }
          -- the branch grew only when the new node is the only child
          (.ok path.isNone, if children.length + 1 = 1 then t'.rebalance else t')

/-- `finalize_root_at`. -/
def finalizeRootAt (t : ForkTree H N V) (position : Fin t.roots.length) : V × ForkTree H N V :=
  let node := (swapRemove t.roots position).1
  (node.data, ⟨node.children, some node.number⟩)

/-- `finalize_root`. -/
def finalizeRoot (t : ForkTree H N V) (hash : H) : Option V × ForkTree H N V :=
  match hp : t.roots.findIdx? (·.hash == hash) with
  | some position =>
    let r := t.finalizeRootAt ⟨position, (List.findIdx?_eq_some_iff_getElem.mp hp).1⟩
    (some r.1, r.2)
  | none => (none, t)

/-- `finalize`. -/
def finalize (t : ForkTree H N V) (hash : H) (number : N)
    (isDescendentOf : H → H → Except E Bool) :
    Except (Error E) (FinalizationResult V) × ForkTree H N V :=
  if t.reverts number then (.error .revert, t)
  else
    match t.finalizeRoot hash with
    | (some root, t') => (.ok (.changed (some root)), t')
    | (none, t) =>
      let pastRoot := fun root : Node H N V =>
        if number > root.number then isDescendentOf root.hash hash else pure false
      match t.roots.anyM pastRoot with
      | .error e => (.error (.client e), t)
      | .ok true => (.error .unfinalizedAncestor, t)
      | .ok false =>
        -- `std::mem::take(&mut self.roots)`: the roots are refilled with the ones kept
        let keep := fun root : Node H N V =>
          if root.number > number then isDescendentOf hash root.hash else pure false
        match retainM keep t.roots [] [] with
        | (.error e, kept, _) => (.error (.client e), { t with roots := kept })
        | (.ok (), kept, dropped) =>
          (.ok (finalizationResult none !dropped.isEmpty), ⟨kept, some number⟩)

/-- The loop of `finalize_with_ancestors` from `idx`, with the roots as it leaves them: whether it
changed them, or the finalized root's data and the tree `finalize_root_at` leaves when it meets the
block itself. A root that descends from the block stays, one that is its ancestor is opened up (its
children join the roots), and any other is dropped. -/
def finalizeWithAncestorsLoop (hash : H) (number : N) (isDescendentOf : H → H → Except E Bool)
    (roots : List (Node H N V)) (idx : ℕ) (changed : Bool) :
    Except E (Bool ⊕ (V × ForkTree H N V)) × List (Node H N V) :=
  if h : idx < roots.length then
    let root := roots[idx]
    let isFinalized := root.hash == hash
    let isDescendant : Except E Bool :=
      if !isFinalized && decide (root.number > number) then isDescendentOf hash root.hash
      else pure false
    match isDescendant with
    | .error e => (.error e, roots)
    | .ok isDescendant =>
      let isAncestor : Except E Bool :=
        if !isFinalized && !isDescendant && decide (root.number < number) then
          isDescendentOf root.hash hash
        else pure false
      match isAncestor with
      | .error e => (.error e, roots)
      | .ok isAncestor =>
        if isFinalized then (.ok (.inr (root.data, ⟨root.children, some root.number⟩)), roots)
        else if isDescendant then
          finalizeWithAncestorsLoop hash number isDescendentOf roots (idx + 1) changed
        else if isAncestor then
          let r := swapRemove roots ⟨idx, h⟩
          finalizeWithAncestorsLoop hash number isDescendentOf (r.2 ++ r.1.children) idx true
        else
          finalizeWithAncestorsLoop hash number isDescendentOf (swapRemove roots ⟨idx, h⟩).2 idx
            true
  else (.ok (.inl changed), roots)
termination_by (size roots, roots.length - idx)
decreasing_by
  · exact Prod.Lex.right _ (by omega)
  · refine Prod.Lex.left _ _ ?_
    rw [size_append, size_swapRemove roots ⟨idx, h⟩]
    omega
  · refine Prod.Lex.left _ _ ?_
    rw [size_swapRemove roots ⟨idx, h⟩]
    omega

/-- `finalize_with_ancestors`. -/
def finalizeWithAncestors (t : ForkTree H N V) (hash : H) (number : N)
    (isDescendentOf : H → H → Except E Bool) :
    Except (Error E) (FinalizationResult V) × ForkTree H N V :=
  if t.reverts number then (.error .revert, t)
  else
    match t.finalizeRoot hash with
    | (some root, t') => (.ok (.changed (some root)), t')
    | (none, t) =>
      match finalizeWithAncestorsLoop hash number isDescendentOf t.roots 0 false with
      | (.error e, roots) => (.error (.client e), { t with roots := roots })
      | (.ok (.inr (data, t')), _) => (.ok (.changed (some data)), t')
      | (.ok (.inl changed), roots) =>
        (.ok (finalizationResult none changed), ⟨roots, some number⟩)

/-- `finalize_with_descendent_if`. -/
def finalizeWithDescendentIf (t : ForkTree H N V) (hash : H) (number : N)
    (isDescendentOf : H → H → Except E Bool) (predicate : V → Bool) :
    Except (Error E) (FinalizationResult V) × ForkTree H N V :=
  if t.reverts number then (.error .revert, t)
  else
    let finalizes := fun node : Node H N V =>
      if predicate node.data then
        if node.hash == hash then pure true else isDescendentOf node.hash hash
      else pure false
    let pastChild := fun child : Node H N V =>
      if child.number ≤ number then
        if child.hash == hash then pure true else isDescendentOf child.hash hash
      else pure false
    let retain := fun root : Node H N V => do
      if ← (if root.number > number then isDescendentOf hash root.hash else pure false) then
        pure true
      else if root.number == number && root.hash == hash then pure true
      else isDescendentOf root.hash hash
    -- after the scan for the root to finalize, the roots are refilled with the ones retained
    let finish := fun (t : ForkTree H N V) (nodeData : Option V) =>
      match retainM retain t.roots [] [] with
      | (.error e, kept, _) => (.error (.client e), { t with roots := kept })
      | (.ok (), kept, dropped) =>
        (.ok (finalizationResult nodeData !dropped.isEmpty), ⟨kept, some number⟩)
    match hp : findIndexM finalizes t.roots 0 with
    | .error e => (.error (.client e), t)
    | .ok none => finish t none
    | .ok (some i) =>
      have hi : i < t.roots.length := by have := (findIndexM_lt hp).2; omega
      match t.roots[i].children.anyM pastChild with
      | .error e => (.error (.client e), t)
      | .ok true => (.error .unfinalizedAncestor, t)
      | .ok false =>
        let node := (swapRemove t.roots ⟨i, hi⟩).1
        finish ⟨node.children, some node.number⟩ (some node.data)

/-- `prune`, with the removed nodes (the stack of the returned iterator); `none` where it panics. -/
def prune (t : ForkTree H N V) (hash : H) (number : N) (isDescendentOf : H → H → Except E Bool)
    (predicate : V → Bool) : Option (Except (Error E) (List (Node H N V)) × ForkTree H N V) :=
  match findNodeIndexWhere hash number isDescendentOf predicate t.roots with
  | .error e => some (.error (.client e), t)
  | .ok none => some (.ok [], t)
  | .ok (some path) =>
    (Node.detachAt path t.roots).map fun r =>
      let c := r.1.pruneChain hash number isDescendentOf
      let t' : ForkTree H N V := { t with roots := [c.2] }
      match c.1 with
      | .error e => (.error (.client e), t')
      | .ok removed => (.ok (r.2 ++ removed), t'.rebalance)

/-- `drain_filter`, with the removed nodes. -/
def drainFilter (t : ForkTree H N V) (filter : H → N → V → FilterAction) :
    List (Node H N V) × ForkTree H N V :=
  let r := Node.drainNodes filter t.roots
  let t' := { t with roots := r.1 }
  (r.2, if r.2.isEmpty then t' else t'.rebalance)

end ForkTree

end PolkadotSdk.ForkTree
