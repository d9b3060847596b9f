import PolkadotSdk.ForkTree.Basic

/-!
# What an error leaves of the fork tree

The operations of the fork tree return `Err` without touching the tree when they reject a call
(`Revert`, `Duplicate`, `UnfinalizedAncestor`), and `import` does the same for an error of the
caller's closure, which it only calls before changing anything. `finalize`, however, calls the
closure in the loop that refills the roots after `std::mem::take(&mut self.roots)`, so an error
there returns with the roots taken so far and drops the others (`finalize_client_error`).
-/

set_option linter.dupNamespace false

namespace PolkadotSdk.ForkTree

variable {H N V E : Type} [DecidableEq H] [LinearOrder N]

namespace ForkTree

/-- **An error of the closure in `finalize`'s retain loop drops the roots.** Below a tree whose
roots all lie above the finalized number and none of which is the finalized block, the first root
asks the closure whether it descends from the block; when that fails, `finalize` returns the
error with no root left. -/
theorem finalize_client_error (t : ForkTree H N V) (hash : H) (number : N)
    (isDescendentOf : H → H → Except E Bool) (r : Node H N V) (rest : List (Node H N V)) (e : E)
    (hroots : t.roots = r :: rest) (hrevert : t.reverts number = false)
    (hhash : ∀ root ∈ t.roots, root.hash ≠ hash) (habove : ∀ root ∈ t.roots, number < root.number)
    (herr : isDescendentOf hash r.hash = .error e) :
    t.finalize hash number isDescendentOf = (.error (.client e), { t with roots := [] }) := by
  -- no root is the block, so `finalize_root` leaves the tree alone
  have hroot : t.finalizeRoot hash = (none, t) := by
    unfold finalizeRoot
    split
    · next position hp =>
      obtain ⟨hlt, hpos, -⟩ := List.findIdx?_eq_some_iff_getElem.mp hp
      exact absurd (beq_iff_eq.mp hpos) (hhash _ (List.getElem_mem hlt))
    · rfl
  -- no root is below the number, so no root is an unfinalized ancestor
  have hpast : t.roots.anyM (m := Except E)
      (fun root => if number > root.number then isDescendentOf root.hash hash else pure false) =
        .ok false := by
    have : ∀ l : List (Node H N V), (∀ root ∈ l, number < root.number) →
        l.anyM (m := Except E)
          (fun root => if number > root.number then isDescendentOf root.hash hash else pure false) =
          .ok false := by
      intro l hl
      induction l with
      | nil => rfl
      | cons root l ih =>
        have hnot : ¬ number > root.number := not_lt.mpr (le_of_lt (hl root List.mem_cons_self))
        simp only [List.anyM, if_neg hnot]
        exact ih fun root' h => hl root' (List.mem_cons_of_mem _ h)
    exact this t.roots habove
  have hfirst : number < r.number := habove r (by rw [hroots]; exact List.mem_cons_self)
  simp only [finalize, hrevert, Bool.false_eq_true, ↓reduceIte, hroot, hpast]
  rw [hroots, retainM, if_pos hfirst, herr]

/-- One root above the finalized number, and a closure that always fails. -/
theorem finalize_client_error_one_root :
    (⟨[⟨1, 5, 0, []⟩], none⟩ : ForkTree ℕ ℕ ℕ).finalize 2 3 (fun _ _ => .error ()) =
      (.error (.client ()), ⟨[], none⟩) :=
  finalize_client_error _ 2 3 _ ⟨1, 5, 0, []⟩ [] () rfl rfl (by decide) (by decide) rfl

end ForkTree

end PolkadotSdk.ForkTree
