import PolkadotSdk.ForkTree.Basic
import PolkadotSdk.ForkTree.Forest

/-!
# Walking a fork tree

`ForkTreeIterator` (behind `node_iter` and `iter`) and `RemovedIterator` (what `prune` and
`drain_filter` return) keep a stack of nodes: each step pops a node, yields it and pushes its
children last first, so that the first child comes next (`stackIter`). `node_iter` starts from the
roots pushed last first and walks the forest in pre-order (`nodeIter_eq`); a `RemovedIterator`
walks its subtrees from the last one pushed (`removedItems_eq`).
-/

namespace PolkadotSdk.ForkTree

open scoped List

variable {H N V : Type}

/-- The nodes of a forest in pre-order. -/
def preorder (f : List (Node H N V)) : List (Node H N V) := (nodesOf f).map (·.2)

/-- What `iter` and `RemovedIterator` yield of a node: its hash, number and data. -/
def Node.label (t : Node H N V) : H × N × V := (t.hash, t.number, t.data)

section Preorder

theorem map_snd_withAncs (ancs : List H) (t : Node H N V) :
    (t.withAncs ancs).map (·.2) = (t.withAncs []).map (·.2) := by
  rw [show ancs = [] ++ ancs from rfl, withAncs_append, List.map_map]
  rfl

@[simp] theorem preorder_nil : preorder ([] : List (Node H N V)) = [] := rfl

theorem preorder_append (f₁ f₂ : List (Node H N V)) :
    preorder (f₁ ++ f₂) = preorder f₁ ++ preorder f₂ := by
  rw [preorder, nodesOf_append, List.map_append]
  rfl

theorem preorder_cons (t : Node H N V) (f : List (Node H N V)) :
    preorder (t :: f) = t :: (preorder t.children ++ preorder f) := by
  obtain ⟨h, n, d, cs⟩ := t
  rw [preorder, nodesOf_cons, withAncs_mk, List.cons_append, List.map_cons, List.map_append,
    List.map_flatMap, ← preorder]
  congr 2
  rw [preorder, nodesOf, List.map_flatMap]
  exact List.flatMap_congr fun c _ => map_snd_withAncs _ c

theorem preorder_reverse_perm (f : List (Node H N V)) : preorder f.reverse ~ preorder f := by
  induction f with
  | nil => rfl
  | cons t f ih =>
    rw [List.reverse_cons, preorder_append, preorder_cons, preorder_cons, preorder_nil,
      List.append_nil]
    calc preorder f.reverse ++ t :: preorder t.children
        ~ t :: preorder t.children ++ preorder f.reverse := List.perm_append_comm
      _ ~ t :: (preorder t.children ++ preorder f) := by
        rw [List.cons_append]
        exact (ih.append_left _).cons _

theorem preorder_eq_flatMap (f : List (Node H N V)) :
    preorder f = f.flatMap fun t => preorder [t] := by
  simp [preorder, nodesOf, List.map_flatMap]

theorem preorder_flatMap {α : Type} (l : List α) (g : α → List (Node H N V)) :
    preorder (l.flatMap g) = l.flatMap fun x => preorder (g x) := by
  induction l with
  | nil => rfl
  | cons x l ih => rw [List.flatMap_cons, preorder_append, ih, List.flatMap_cons]

theorem preorder_perm {f₁ f₂ : List (Node H N V)} (h : f₁ ~ f₂) : preorder f₁ ~ preorder f₂ :=
  (h.flatMap_right _).map _

end Preorder

/-! ## The stack of an iterator -/

/-- The nodes an iterator over `stack` yields (`ForkTreeIterator::next`, `RemovedIterator::next`):
the node it pops, then what the stack with that node's children pushed, last first, yields. -/
def stackIter (stack : List (Node H N V)) : List (Node H N V) :=
  match h : stack.reverse with
  | [] => []
  | node :: rest => node :: stackIter (rest.reverse ++ node.children.reverse)
termination_by size stack
decreasing_by
  have hs : stack = rest.reverse ++ [node] := by
    rw [← List.reverse_reverse stack, h, List.reverse_cons]
  obtain ⟨_, _, _, cs⟩ := node
  rw [hs, size_append, size_append, size_perm (List.reverse_perm cs)]
  simp only [size]
  omega

/-- `node_iter`: the stack starts with the roots, last first. -/
def nodeIter (roots : List (Node H N V)) : List (Node H N V) := stackIter roots.reverse

/-- What a `RemovedIterator` over the stack `removed` yields. -/
def removedItems (removed : List (Node H N V)) : List (H × N × V) :=
  (stackIter removed).map Node.label

/-- **A stack iterator walks its stack in pre-order, from the top.** -/
theorem stackIter_eq (stack : List (Node H N V)) : stackIter stack = preorder stack.reverse := by
  fun_induction stackIter stack with
  | case1 stack h => rw [h]; rfl
  | case2 stack node rest h ih =>
    rw [h, ih, preorder_cons, List.reverse_append, List.reverse_reverse, List.reverse_reverse,
      preorder_append]

theorem nodeIter_eq (roots : List (Node H N V)) : nodeIter roots = preorder roots := by
  rw [nodeIter, stackIter_eq, List.reverse_reverse]

theorem removedItems_eq (removed : List (Node H N V)) :
    removedItems removed = (preorder removed.reverse).map Node.label := by
  rw [removedItems, stackIter_eq]

theorem removedItems_perm (removed : List (Node H N V)) :
    removedItems removed ~ (preorder removed).map Node.label := by
  rw [removedItems_eq]
  exact (preorder_reverse_perm removed).map _

end PolkadotSdk.ForkTree
