import PolkadotSdk.ForkTree.Ancestry

/-!
# Checking before finalizing

GRANDPA asks `finalizes_any_with_descendent_if` whether a block enacts a change before it calls
`finalize_with_descendent_if` to apply it. The first scans every node in the order of `node_iter`,
the second only the roots; both stop at the first node that passes the predicate and is at or
above the block, and fail if one of its children is at or above it too.

Over a tree that keeps `Ancestry` and a closure that answers for a block tree, the two agree
(`finalizesAny_agrees`): the first node the check meets is the root the finalization meets
(`Ancestry.find?_preorder`), so the check says `Some(true)` exactly when the finalization
finalizes a root, and fails with `UnfinalizedAncestor` whenever the finalization does.
-/

set_option linter.dupNamespace false

namespace PolkadotSdk.ForkTree

variable {H N V : Type}

section Pure

variable {α E : Type}

theorem findM?_ok (p : α → Bool) (l : List α) :
    l.findM? (fun a => (.ok (p a) : Except E Bool)) = .ok (l.find? p) := by
  induction l with
  | nil => rfl
  | cons a l ih =>
    simp only [List.findM?, List.find?_cons]
    cases p a
    · exact ih
    · rfl

theorem anyM_ok (p : α → Bool) (l : List α) :
    l.anyM (fun a => (.ok (p a) : Except E Bool)) = .ok (l.any p) := by
  induction l with
  | nil => rfl
  | cons a l ih =>
    simp only [List.anyM, List.any_cons]
    cases p a
    · exact ih
    · rfl

theorem findIndexM_ok (p : α → Bool) (l : List α) (i : ℕ) :
    findIndexM (fun a => (.ok (p a) : Except E Bool)) l i = .ok ((l.findIdx? p).map (· + i)) := by
  induction l generalizing i with
  | nil => rfl
  | cons a l ih =>
    simp only [findIndexM, List.findIdx?_cons, bind, Except.bind]
    cases p a
    · rw [if_neg Bool.false_ne_true, ih, if_neg Bool.false_ne_true, Option.map_map]
      simp [Function.comp_def, Nat.add_right_comm, Nat.add_assoc]
    · simp
      rfl

theorem retainM_fst_ok {keep : α → Except E Bool} (hkeep : ∀ a, ∃ b, keep a = .ok b)
    (l : List α) : ∀ kept dropped, (retainM keep l kept dropped).1 = .ok () := by
  induction l with
  | nil => intro kept dropped; rfl
  | cons a l ih =>
    intro kept dropped
    obtain ⟨b, hb⟩ := hkeep a
    cases b
    · rw [retainM, hb]
      exact ih _ _
    · rw [retainM, hb]
      exact ih _ _

end Pure

section Finalizes

variable [DecidableEq H] [LinearOrder N] {E : Type}

/-- `finalizes_any_with_descendent_if`. -/
def ForkTree.finalizesAnyWithDescendentIf (t : ForkTree H N V) (hash : H) (number : N)
    (isDescendentOf : H → H → Except E Bool) (predicate : V → Bool) :
    Except (Error E) (Option Bool) :=
  if t.reverts number then .error .revert
  else
    let finalizes := fun node : Node H N V =>
      if predicate node.data then
        if node.hash == hash then pure true else isDescendentOf node.hash hash
      else pure false
    let pastChild := fun child : Node H N V =>
      if child.number ≤ number then
        if child.hash == hash then pure true else isDescendentOf child.hash hash
      else pure false
    match (nodeIter t.roots).findM? finalizes with
    | .error e => .error (.client e)
    | .ok none => .ok none
    | .ok (some node) =>
      match node.children.anyM pastChild with
      | .error e => .error (.client e)
      | .ok true => .error .unfinalizedAncestor
      | .ok false => .ok (some (t.roots.any fun root => root.hash == node.hash))

variable (B : BlockTree H) (hash : H) (number : N) (predicate : V → Bool)

/-- The test both scans make of a node, with a closure that answers for `B`. -/
def finalizesTest (node : Node H N V) : Bool :=
  predicate node.data && B.isAncestorOrEq node.hash hash

/-- The test both make of the children of the node they stop at. -/
def pastChildTest (child : Node H N V) : Bool :=
  decide (child.number ≤ number) && B.isAncestorOrEq child.hash hash

omit [LinearOrder N] in
theorem ancestorTest_ok (a : H) :
    (if a == hash then pure true else B.isDescendentOfM E a hash : Except E Bool) =
      .ok (B.isAncestorOrEq a hash) := by
  unfold BlockTree.isAncestorOrEq BlockTree.isDescendentOfM
  cases a == hash <;> rfl

omit [LinearOrder N] in
theorem finalizes_ok (node : Node H N V) :
    (if predicate node.data then
        if node.hash == hash then pure true else B.isDescendentOfM E node.hash hash
      else pure false : Except E Bool) = .ok (finalizesTest B hash predicate node) := by
  rw [ancestorTest_ok, finalizesTest]
  cases predicate node.data <;> rfl

theorem pastChild_ok (child : Node H N V) :
    (if child.number ≤ number then
        if child.hash == hash then pure true else B.isDescendentOfM E child.hash hash
      else pure false : Except E Bool) = .ok (pastChildTest B hash number child) := by
  rw [ancestorTest_ok, pastChildTest]
  by_cases h : child.number ≤ number
  · simp [h]
  · simp [h]
    rfl

theorem retain_ok (root : Node H N V) :
    ∃ b, (do
      if ← (if root.number > number then B.isDescendentOfM E hash root.hash else pure false) then
        pure true
      else if root.number == number && root.hash == hash then pure true
      else B.isDescendentOfM E root.hash hash : Except E Bool) = .ok b := by
  unfold BlockTree.isDescendentOfM
  simp only [bind, Except.bind, pure, Except.pure]
  split
  · next h => split at h <;> cases h
  · split
    · exact ⟨_, rfl⟩
    · split <;> exact ⟨_, rfl⟩

variable {B} {t : ForkTree H N V}

/-- Where a root passes, `finalize_with_descendent_if` finalizes the first that does, unless one
of its children is past the block. -/
theorem finalizeWithDescendentIf_of_findIdx (hrev : t.reverts number = false) {i : ℕ}
    (hi : i < t.roots.length) (hfind : t.roots.findIdx? (finalizesTest B hash predicate) = some i) :
    (t.finalizeWithDescendentIf hash number (B.isDescendentOfM E) predicate).1 =
      if t.roots[i].children.any (pastChildTest B hash number) then .error .unfinalizedAncestor
      else .ok (.changed (some t.roots[i].data)) := by
  unfold ForkTree.finalizeWithDescendentIf
  rw [if_neg (by simp [hrev])]
  dsimp only
  split
  · next hp => simp only [finalizes_ok, findIndexM_ok, hfind] at hp; cases hp
  · next hp => simp only [finalizes_ok, findIndexM_ok, hfind] at hp; cases hp
  · next j hp =>
    simp only [finalizes_ok, findIndexM_ok, hfind, Option.map_some, Nat.add_zero,
      Except.ok.injEq, Option.some.injEq] at hp
    subst hp
    simp only [pastChild_ok, anyM_ok]
    split
    · next hany => cases hany
    · next hany =>
      rw [Except.ok.injEq] at hany
      rw [hany]
      rfl
    · next hany =>
      rw [Except.ok.injEq] at hany
      rw [if_neg (by simp [hany])]
      -- the children become the roots, and a loop whose closure never fails retains them
      split
      · next hret =>
        have := congrArg Prod.fst hret
        rw [retainM_fst_ok (retain_ok B hash number)] at this
        cases this
      · rfl

/-- Where no root passes, `finalize_with_descendent_if` finalizes none. -/
theorem finalizeWithDescendentIf_of_findIdx_none (hrev : t.reverts number = false)
    (hfind : t.roots.findIdx? (finalizesTest B hash predicate) = none) :
    ∃ changed, (t.finalizeWithDescendentIf hash number (B.isDescendentOfM E) predicate).1 =
      .ok (finalizationResult none changed) := by
  unfold ForkTree.finalizeWithDescendentIf
  rw [if_neg (by simp [hrev])]
  dsimp only
  split
  · next hp => simp only [finalizes_ok, findIndexM_ok, hfind] at hp; cases hp
  · split
    · next hret =>
      have := congrArg Prod.fst hret
      rw [retainM_fst_ok (retain_ok B hash number)] at this
      cases this
    · exact ⟨_, rfl⟩
  · next j hp => simp only [finalizes_ok, findIndexM_ok, hfind] at hp; cases hp

theorem finalizesAnyWithDescendentIf_of_find (hrev : t.reverts number = false)
    {node : Node H N V}
    (hfind : (preorder t.roots).find? (finalizesTest B hash predicate) = some node) :
    t.finalizesAnyWithDescendentIf hash number (B.isDescendentOfM E) predicate =
      if node.children.any (pastChildTest B hash number) then .error .unfinalizedAncestor
      else .ok (some (t.roots.any fun root => root.hash == node.hash)) := by
  unfold ForkTree.finalizesAnyWithDescendentIf
  rw [if_neg (by simp [hrev])]
  dsimp only
  simp only [finalizes_ok, findM?_ok, nodeIter_eq, hfind, pastChild_ok, anyM_ok]
  cases node.children.any (pastChildTest B hash number) <;> rfl

theorem finalizesAnyWithDescendentIf_of_find_none (hrev : t.reverts number = false)
    (hfind : (preorder t.roots).find? (finalizesTest B hash predicate) = none) :
    t.finalizesAnyWithDescendentIf hash number (B.isDescendentOfM E) predicate = .ok none := by
  unfold ForkTree.finalizesAnyWithDescendentIf
  rw [if_neg (by simp [hrev])]
  dsimp only
  simp only [finalizes_ok, findM?_ok, nodeIter_eq, hfind]

/-- Where no root passes, the node the check stops at is no root, so it never says
`Some(true)`. -/
theorem finalizesAny_ne_some_true (ht : Ancestry B t.roots) (hrev : t.reverts number = false)
    (hidx : t.roots.findIdx? (finalizesTest B hash predicate) = none) :
    t.finalizesAnyWithDescendentIf hash number (B.isDescendentOfM E) predicate ≠
      .ok (some true) := by
  cases hfind : (preorder t.roots).find? (finalizesTest B hash predicate) with
  | none =>
    rw [finalizesAnyWithDescendentIf_of_find_none hash number predicate hrev hfind]
    simp
  | some node =>
    rw [finalizesAnyWithDescendentIf_of_find hash number predicate hrev hfind]
    intro h
    split at h
    · cases h
    · -- a root with the node's hash is the node, which passes, unlike every root
      obtain ⟨root, hroot, hhash⟩ := List.any_eq_true.mp (Option.some.inj (Except.ok.inj h))
      obtain ⟨e, he, rfl⟩ := List.mem_map.mp (List.mem_of_find?_eq_some hfind)
      have hroot_e := ht.eq_of_hash_eq (root_mem_nodesOf hroot) he (beq_iff_eq.mp hhash)
      have hpass := List.find?_some hfind
      rw [← hroot_e] at hpass
      exact absurd hpass (by simp [List.findIdx?_eq_none_iff.mp hidx root hroot])

theorem finalizationResult_none_ne (changed : Bool) (d : V) :
    finalizationResult none changed ≠ .changed (some d) := by
  cases changed <;> simp [finalizationResult]

end Finalizes

/-- **The check agrees with the finalization.** Over a tree that keeps `Ancestry` and a closure
that answers for the block tree, `finalizes_any_with_descendent_if` says `Some(true)` exactly when
`finalize_with_descendent_if` finalizes a root, which passes the predicate and is at or above the
block, and fails with `UnfinalizedAncestor` whenever the finalization does. -/
theorem finalizesAny_agrees [DecidableEq H] [LinearOrder N] {E : Type} (B : BlockTree H)
    (t : ForkTree H N V) (ht : Ancestry B t.roots) (hash : H) (number : N)
    (predicate : V → Bool) :
    (t.finalizesAnyWithDescendentIf hash number (B.isDescendentOfM E) predicate =
        .ok (some true) ↔
      ∃ d, (t.finalizeWithDescendentIf hash number (B.isDescendentOfM E) predicate).1 =
        .ok (.changed (some d))) ∧
    (∀ d, (t.finalizeWithDescendentIf hash number (B.isDescendentOfM E) predicate).1 =
        .ok (.changed (some d)) →
      ∃ root ∈ t.roots, root.data = d ∧ predicate d = true ∧
        B.isAncestorOrEq root.hash hash = true) ∧
    ((t.finalizeWithDescendentIf hash number (B.isDescendentOfM E) predicate).1 =
        .error .unfinalizedAncestor →
      t.finalizesAnyWithDescendentIf hash number (B.isDescendentOfM E) predicate =
        .error .unfinalizedAncestor) := by
  by_cases hrev : t.reverts number = true
  · -- both refuse to go back
    have hA : t.finalizesAnyWithDescendentIf hash number (B.isDescendentOfM E) predicate =
        .error .revert := by
      unfold ForkTree.finalizesAnyWithDescendentIf
      rw [if_pos hrev]
    have hF : (t.finalizeWithDescendentIf hash number (B.isDescendentOfM E) predicate).1 =
        .error .revert := by
      unfold ForkTree.finalizeWithDescendentIf
      rw [if_pos hrev]
    rw [hA, hF]
    refine ⟨⟨fun h => ?_, fun ⟨d, h⟩ => ?_⟩, fun d h => ?_, fun h => ?_⟩ <;> cases h
  rw [Bool.not_eq_true] at hrev
  cases hidx : t.roots.findIdx? (finalizesTest B hash predicate) with
  | some i =>
    -- both stop at the same root
    obtain ⟨hi, hpass, -⟩ := List.findIdx?_eq_some_iff_getElem.mp hidx
    have hfind := ht.find?_preorder (M := finalizesTest B hash predicate)
      (fun x hx => (Bool.and_eq_true_iff.mp hx).2) hi hpass
    have hroot : (t.roots.any fun root => root.hash == t.roots[i].hash) = true :=
      List.any_eq_true.mpr ⟨_, List.getElem_mem hi, beq_self_eq_true _⟩
    rw [finalizeWithDescendentIf_of_findIdx hash number predicate hrev hi hidx,
      finalizesAnyWithDescendentIf_of_find hash number predicate hrev hfind, hroot]
    cases hpast : t.roots[i].children.any (pastChildTest B hash number)
    · refine ⟨⟨fun _ => ⟨_, rfl⟩, fun _ => rfl⟩, fun d hd => ?_, fun h => by cases h⟩
      obtain ⟨hpred, hanc⟩ := Bool.and_eq_true_iff.mp hpass
      have hd' : t.roots[i].data = d := by simpa using hd
      exact ⟨t.roots[i], List.getElem_mem hi, hd', hd' ▸ hpred, hanc⟩
    · refine ⟨⟨fun h => ?_, fun ⟨d, h⟩ => ?_⟩, fun d h => ?_, fun _ => rfl⟩ <;> cases h
  | none =>
    -- the finalization finalizes no root, and the check does not say `Some(true)`
    obtain ⟨changed, hF⟩ := finalizeWithDescendentIf_of_findIdx_none hash number predicate hrev hidx
    rw [hF]
    refine ⟨⟨fun h => absurd h (finalizesAny_ne_some_true hash number predicate ht hrev hidx),
      fun ⟨d, h⟩ => ?_⟩, fun d h => ?_, fun h => by cases h⟩
    · exact absurd (Except.ok.inj h) (finalizationResult_none_ne changed d)
    · exact absurd (Except.ok.inj h) (finalizationResult_none_ne changed d)

/-- The blocks `0, 1, 2, …` of one chain. -/
def natChain : BlockTree ℕ where
  isDescendentOf a b := decide (a < b)
  irrefl a := by simp
  trans := by
    intro a b c hab hbc
    simp only [decide_eq_true_eq] at *
    omega
  chain := by
    intro a b c hac hbc
    simp only [decide_eq_true_eq] at *
    omega

/-- A root with one child on the chain. -/
def chainTree : ForkTree ℕ ℕ ℕ := ⟨[⟨1, 1, 10, [⟨2, 2, 20, []⟩]⟩], none⟩

theorem ancestry_chainTree : Ancestry natChain chainTree.roots := by
  constructor
  · rw [chainTree, hashesOf_singleton, hashesOf_singleton]
    decide
  · simp [chainTree, nodesOf_singleton, natChain]

theorem finalizesAny_agrees_chainTree :
    Ancestry natChain chainTree.roots ∧
    ((chainTree.finalizesAnyWithDescendentIf 2 2 (natChain.isDescendentOfM Unit) fun _ => true) =
        .ok (some true) ↔
      ∃ d, (chainTree.finalizeWithDescendentIf 2 2 (natChain.isDescendentOfM Unit)
        fun _ => true).1 = .ok (.changed (some d))) ∧
    (∀ d, (chainTree.finalizeWithDescendentIf 2 2 (natChain.isDescendentOfM Unit)
        fun _ => true).1 = .ok (.changed (some d)) →
      ∃ root ∈ chainTree.roots, root.data = d ∧ (fun _ => true) d = true ∧
        natChain.isAncestorOrEq root.hash 2 = true) ∧
    ((chainTree.finalizeWithDescendentIf 2 2 (natChain.isDescendentOfM Unit)
        fun _ => true).1 = .error .unfinalizedAncestor →
      (chainTree.finalizesAnyWithDescendentIf 2 2 (natChain.isDescendentOfM Unit)
        fun _ => true) = .error .unfinalizedAncestor) :=
  ⟨ancestry_chainTree, finalizesAny_agrees natChain chainTree ancestry_chainTree 2 2 _⟩

end PolkadotSdk.ForkTree
