import PolkadotSdk.ForkTree.Basic

/-!
# Forests seen node by node

A forest of `Node`s seen as the list of its nodes, each with the hashes of its ancestors
(`nodesOf`), and the lemmas that take these lists apart along the forest. `Sub f' f` says that
`f'` keeps some nodes of `f`, each with the ancestors it had among the kept ones.
-/

set_option linter.dupNamespace false

namespace PolkadotSdk.ForkTree

open scoped List

variable {H N V : Type}

/-- Every node of a subtree with the hashes of its ancestors, nearest first, followed by `ancs`. -/
def Node.withAncs (ancs : List H) : Node H N V → List (List H × Node H N V)
  | ⟨h, n, d, cs⟩ => (ancs, ⟨h, n, d, cs⟩) :: cs.flatMap (Node.withAncs (h :: ancs))

/-- Every node of a forest with the hashes of its ancestors. -/
def nodesOf (f : List (Node H N V)) : List (List H × Node H N V) := f.flatMap (Node.withAncs [])

/-- The hashes of a forest. -/
def hashesOf (f : List (Node H N V)) : List H := (nodesOf f).map (·.2.hash)

/-- `f'` keeps some of the nodes of `f`, each with its number and with the ancestors it had in `f`
that `f'` keeps. -/
structure Sub (f' f : List (Node H N V)) : Prop where
  subperm : (hashesOf f').Subperm (hashesOf f)
  entry : ∀ e' ∈ nodesOf f', ∃ e ∈ nodesOf f, e'.2.hash = e.2.hash ∧ e'.2.number = e.2.number ∧
    e'.1 ⊆ e.1 ∧ ∀ a ∈ e.1, a ∈ hashesOf f' → a ∈ e'.1

/-! ## Nodes and their ancestors -/

section Views

theorem withAncs_mk (ancs : List H) (h : H) (n : N) (d : V) (cs : List (Node H N V)) :
    Node.withAncs ancs ⟨h, n, d, cs⟩ =
      (ancs, ⟨h, n, d, cs⟩) :: cs.flatMap (Node.withAncs (h :: ancs)) := by
  rw [Node.withAncs]

theorem withAncs_append (ancs extra : List H) (t : Node H N V) :
    t.withAncs (ancs ++ extra) = (t.withAncs ancs).map fun e => (e.1 ++ extra, e.2) := by
  induction t generalizing ancs with
  | mk h n d cs ih =>
    rw [withAncs_mk, withAncs_mk, List.map_cons, List.map_flatMap]
    congr 1
    refine List.flatMap_congr fun c hc => ?_
    exact ih c hc (h :: ancs)

@[simp] theorem nodesOf_nil : nodesOf ([] : List (Node H N V)) = [] := rfl

theorem nodesOf_cons (t : Node H N V) (f : List (Node H N V)) :
    nodesOf (t :: f) = t.withAncs [] ++ nodesOf f := rfl

theorem nodesOf_append (f₁ f₂ : List (Node H N V)) :
    nodesOf (f₁ ++ f₂) = nodesOf f₁ ++ nodesOf f₂ := List.flatMap_append

theorem hashesOf_append (f₁ f₂ : List (Node H N V)) :
    hashesOf (f₁ ++ f₂) = hashesOf f₁ ++ hashesOf f₂ := by
  rw [hashesOf, nodesOf_append, List.map_append]
  rfl

theorem nodesOf_singleton (h : H) (n : N) (d : V) (cs : List (Node H N V)) :
    nodesOf [⟨h, n, d, cs⟩] =
      ([], ⟨h, n, d, cs⟩) :: (nodesOf cs).map fun e => (e.1 ++ [h], e.2) := by
  rw [nodesOf, List.flatMap_singleton, withAncs_mk, nodesOf, List.map_flatMap]
  congr 1
  refine List.flatMap_congr fun c _ => ?_
  exact withAncs_append [] [h] c

theorem hashesOf_singleton (h : H) (n : N) (d : V) (cs : List (Node H N V)) :
    hashesOf [⟨h, n, d, cs⟩] = h :: hashesOf cs := by
  simp [hashesOf, nodesOf_singleton, Function.comp_def]

theorem hashesOf_cons (h : H) (n : N) (d : V) (cs f : List (Node H N V)) :
    hashesOf (⟨h, n, d, cs⟩ :: f) = h :: (hashesOf cs ++ hashesOf f) := by
  rw [show (⟨h, n, d, cs⟩ :: f : List (Node H N V)) = [⟨h, n, d, cs⟩] ++ f from rfl,
    hashesOf_append, hashesOf_singleton, List.cons_append]

/-- Every ancestor of a node of a subtree is a node of the subtree or one of the ancestors below
it. -/
theorem ancs_subset_withAncs (ancs : List H) (t : Node H N V) :
    ∀ e ∈ t.withAncs ancs, ∀ a ∈ e.1, a ∈ ancs ∨ a ∈ (t.withAncs ancs).map (·.2.hash) := by
  induction t generalizing ancs with
  | mk h n d cs ih =>
    intro e he a ha
    rw [withAncs_mk] at he ⊢
    rcases List.mem_cons.mp he with rfl | he
    · exact .inl ha
    obtain ⟨c, hc, he⟩ := List.mem_flatMap.mp he
    rcases ih c hc (h :: ancs) e he a ha with ha | ha
    · rcases List.mem_cons.mp ha with rfl | ha
      · exact .inr (List.mem_cons_self ..)
      · exact .inl ha
    · refine .inr (List.mem_cons_of_mem _ ?_)
      rw [List.map_flatMap]
      exact List.mem_flatMap.mpr ⟨c, hc, ha⟩

theorem ancs_subset_hashesOf {f : List (Node H N V)} {e : List H × Node H N V}
    (he : e ∈ nodesOf f) : e.1 ⊆ hashesOf f := by
  intro a ha
  obtain ⟨t, ht, he⟩ := List.mem_flatMap.mp he
  rcases ancs_subset_withAncs [] t e he a ha with ha | ha
  · simp at ha
  · rw [hashesOf, nodesOf, List.map_flatMap]
    exact List.mem_flatMap.mpr ⟨t, ht, ha⟩

end Views

end PolkadotSdk.ForkTree
