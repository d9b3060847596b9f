import PolkadotSdk.ApprovalVoting.PersistedEntries

/-!
# Approval checking

`approval_checking.rs`: `tranches_to_approve` walks the tranches of an `ApprovalEntry` from `0`,
the missing ones filled in empty, through the covering state machine `State`: first enough
assignments for `needed_approvals`, then, depth by depth, one non-empty tranche for each no-show
of the depth before.  It stops with `Exact` when all is covered, `All` when that would take every
validator, and otherwise answers `Pending` for the last tranche it could look at.
`check_approval` then compares the validators assigned up to the `Exact` tranche with the
approvals, letting `tolerated_missing` of them lack one.

The state machine counts assignment entries while `check_approval` counts distinct validators;
`import_assignment` of a validator already assigned in a tranche adds a second entry, and then one
approving validator passes a check that needs two (`checkApproval_duplicate_assignment`).
-/

namespace PolkadotSdk.ApprovalVoting

/-- `RequiredTranches`. -/
inductive RequiredTranches where
  /-- All validators appear to be required. -/
  | all
  /-- More tranches required: we are awaiting more assignments. -/
  | pending (considered : ℕ) (nextNoShow : Option ℕ)
      (maximumBroadcast : ℕ) (clockDrift : ℕ)
  /-- An exact number of required tranches and a number of no-shows. -/
  | exact (needed : ℕ) (toleratedMissing : ℕ) (nextNoShow : Option ℕ)
      (lastAssignmentTick : Option ℕ)
  deriving DecidableEq, Repr

/-- `TranchesToApproveResult`. -/
structure TranchesToApproveResult where
  requiredTranches : RequiredTranches
  totalObservedNoShows : ℕ
  deriving DecidableEq, Repr

/-- `Check`: the result of a check. -/
inductive Check where
  | unapproved
  | approved (noShows : ℕ) (lastAssignmentTick : Option ℕ)
  | approvedOneThird
  deriving DecidableEq, Repr

/-- `DelayTranche::max_value()`. -/
def maxDelayTranche : ℕ := 2 ^ 32 - 1

/-- `min_prefer_some`. -/
def minPreferSome : Option ℕ → Option ℕ → Option ℕ
  | none, none => none
  | none, some x => some x
  | some x, none => some x
  | some x, some y => some (min x y)

/-- `std::cmp::max` of two options, `None` being the least. -/
def maxOption : Option ℕ → Option ℕ → Option ℕ
  | none, b => b
  | a, none => a
  | some x, some y => some (max x y)

/-- `count_ones` of a bitfield. -/
def countOnes (a : List Bool) : ℕ := a.count true

/-- `a &= b` of bitfields: the bits of `a` past the end of `b` are cleared. -/
def bitAnd (a b : List Bool) : List Bool := a.mapIdx fun i x => x && b.getD i false

/-- `check_approval`, with `None` where `assignments_up_to` panics. -/
def checkApproval (approvals : List Bool) (approval : ApprovalEntry)
    (required : RequiredTranches) : Option Check :=
  -- any set of `f + 1` validators holds an honest one
  if 3 * countOnes approvals > approvals.length then some .approvedOneThird
  else
    match required with
    | .pending .. => some .unapproved
    | .all => some .unapproved
    | .exact needed toleratedMissing _ lastAssignmentTick =>
      (approval.assignmentsUpTo needed).map fun assignedMask =>
        let nAssigned := countOnes assignedMask
        let nApproved := countOnes (bitAnd assignedMask approvals)
        if nApproved + toleratedMissing ≥ nAssigned then .approved toleratedMissing lastAssignmentTick
        else .unapproved

/-! ## The covering state machine -/

/-- `State` of the walk over the tranches. -/
structure State where
  /-- The total number of assignments obtained. -/
  assignments : ℕ
  /-- The depth of no-shows being covered. -/
  depth : ℕ
  /-- The no-shows covered at the previous or current depths. -/
  covered : ℕ
  /-- The assignments being covered at this depth: the needed approvals at depth `0`. -/
  covering : ℕ
  /-- The uncovered no-shows met at this depth, to be covered at the next. -/
  uncovered : ℕ
  nextNoShow : Option ℕ
  lastAssignmentTick : Option ℕ
  totalObservedNoShows : ℕ
  deriving DecidableEq, Repr

namespace State

/-- `clock_drift`. -/
def clockDrift (s : State) (noShowDuration : ℕ) : ℕ := s.depth * noShowDuration

/-- `output`. -/
def output (s : State) (tranche : ℕ) (neededApprovals nValidators : ℕ)
    (noShowDuration : ℕ) : TranchesToApproveResult :=
  let covering := if s.depth = 0 then 0 else s.covering
  if s.depth ≠ 0 ∧ s.assignments + covering + s.uncovered ≥ nValidators then
    ⟨.all, s.totalObservedNoShows⟩
  else if s.assignments ≥ neededApprovals ∧ covering + s.uncovered = 0 then
    ⟨.exact tranche s.covered s.nextNoShow s.lastAssignmentTick, s.totalObservedNoShows⟩
  else
    let clockDrift := s.clockDrift noShowDuration
    if s.depth = 0 then
      ⟨.pending tranche s.nextNoShow maxDelayTranche clockDrift, s.totalObservedNoShows⟩
    else
      ⟨.pending tranche s.nextNoShow (tranche + (covering + s.uncovered)) clockDrift,
        s.totalObservedNoShows⟩

/-- `advance` by a tranche with `newAssignments` assignments and `newNoShows` no-shows. -/
def advance (s : State) (newAssignments newNoShows : ℕ) (nextNoShow lastAssignmentTick : Option ℕ) :
    State :=
  -- covering no-shows, a non-empty tranche covers one, whatever its size
  let newCovered := if s.depth = 0 then newAssignments else min newAssignments 1
  let assignments := s.assignments + newAssignments
  let covering := s.covering - newCovered
  let covered := if s.depth = 0 then 0 else s.covered + newCovered
  let uncovered := s.uncovered + newNoShows
  let nextNoShow := minPreferSome s.nextNoShow nextNoShow
  let lastAssignmentTick := maxOption s.lastAssignmentTick lastAssignmentTick
  let (depth, covering, uncovered) :=
    if covering = 0 then
      if uncovered = 0 then (s.depth, 0, uncovered) else (s.depth + 1, uncovered, 0)
    else (s.depth, covering, uncovered)
  ⟨assignments, depth, covered, covering, uncovered, nextNoShow, lastAssignmentTick,
    s.totalObservedNoShows + newNoShows⟩

end State

/-! ## The walk over the tranches -/

/-- `approval_entries_filled`: each entry, preceded by the empty tranches since the previous
one (`gap_end`). -/
def fillGaps : Option ℕ → List TrancheEntry →
    List (ℕ × List (ℕ × ℕ))
  | _, [] => []
  | gapEnd, t :: ts =>
    let gapStart := (gapEnd.map (· + 1)).getD t.tranche
    (List.range' gapStart (t.tranche - gapStart)).map (fun i => (i, [])) ++
      (t.tranche, t.assignments) :: fillGaps (some t.tranche) ts

/-- The finite part of `filled_tranche_iterator`: the empty tranches before the first entry, then
the entries with their gaps filled. -/
def filledPrefix (tranches : List TrancheEntry) : List (ℕ × List (ℕ × ℕ)) :=
  let pre := match tranches.head? with
    | some t => (List.range t.tranche).map fun i => (i, [])
    | none => []
  pre ++ fillGaps none tranches

/-- `post_start`: the tranche after the last entry. -/
def postStart (tranches : List TrancheEntry) : ℕ :=
  (tranches.getLast?.map (·.tranche + 1)).getD 0

/-- The `k`-th item of `filled_tranche_iterator`, which goes on with empty tranches forever. -/
def filledTrancheAt (tranches : List TrancheEntry) (k : ℕ) :
    ℕ × List (ℕ × ℕ) :=
  let pre := filledPrefix tranches
  if h : k < pre.length then pre[k] else (postStart tranches + (k - pre.length), [])

theorem sub_le_filledTrancheAt (tranches : List TrancheEntry) (k : ℕ) :
    k - (filledPrefix tranches).length ≤ (filledTrancheAt tranches k).1 := by
  unfold filledTrancheAt
  dsimp only
  split
  · omega
  · exact Nat.le_add_left _ _

/-- `count_no_shows`: the assignments of a tranche that are no-shows, and the tick of the next
possible one. -/
def countNoShows (assignments : List (ℕ × ℕ)) (approvals : List Bool)
    (clockDrift blockTick noShowDuration driftedTickNow : ℕ) : ℕ × Option ℕ :=
  assignments.foldl (fun (noShows, nextNoShow) (vIndex, tick) =>
    let noShowAt := max tick blockTick - clockDrift + noShowDuration
    match approvals[vIndex]? with
    | none => (noShows, nextNoShow)
    | some hasApproved =>
      let isNoShow := !hasApproved && decide (noShowAt ≤ driftedTickNow)
      let nextNoShow :=
        if !isNoShow && !hasApproved then minPreferSome nextNoShow (some (noShowAt + clockDrift))
        else nextNoShow
      (if isNoShow then noShows + 1 else noShows, nextNoShow)) (0, none)

/-- The `scan` of `tranches_to_approve` from the `k`-th item of the iterator, with the state `s`
and the last output so far, which `.last()` returns. -/
def tranchesToApproveLoop (e : ApprovalEntry) (approvals : List Bool)
    (tickNow blockTick noShowDuration : ℕ) (neededApprovals k : ℕ) (s : State)
    (last : Option TranchesToApproveResult) : Option TranchesToApproveResult :=
  let item := filledTrancheAt e.tranches k
  let clockDrift := s.clockDrift noShowDuration
  let driftedTickNow := tickNow - clockDrift
  let driftedTrancheNow := driftedTickNow - blockTick
  -- break the loop once enough tranches are taken
  if h : item.1 > driftedTrancheNow then last
  else
    let nAssignments := (item.2.filter fun va => va.1 < e.nValidators).length
    let lastAssignmentTick := (item.2.map (·.2)).max?
    let noShows := countNoShows item.2 approvals clockDrift blockTick noShowDuration driftedTickNow
    let s := s.advance nAssignments noShows.1 noShows.2 lastAssignmentTick
    let output := s.output item.1 neededApprovals e.nValidators noShowDuration
    match output.requiredTranches with
    | .exact .. => some output
    | .all => some output
    | .pending .. =>
      tranchesToApproveLoop e approvals tickNow blockTick noShowDuration neededApprovals (k + 1) s
        (some output)
termination_by (filledPrefix e.tranches).length + tickNow + 1 - k
decreasing_by
  have hk := sub_le_filledTrancheAt e.tranches k
  have hle : (filledTrancheAt e.tranches k).1 ≤ tickNow :=
    Nat.le_trans (Nat.not_lt.mp h) (by omega)
  omega

/-- `tranches_to_approve`, with `None` where its `expect` panics. -/
def tranchesToApprove (e : ApprovalEntry) (approvals : List Bool) (trancheNow : ℕ)
    (blockTick noShowDuration : ℕ) (neededApprovals : ℕ) : Option TranchesToApproveResult :=
  let tickNow := trancheNow + blockTick
  let initialState : State := ⟨0, 0, 0, neededApprovals, 0, none, none, 0⟩
  tranchesToApproveLoop e approvals tickNow blockTick noShowDuration neededApprovals 0
    initialState none

/-- **A duplicate assignment passes a check it should fail.** Validator `0` of three is assigned
twice in tranche `0` and approves, the others neither: with `needed_approvals = 2`,
`tranches_to_approve` counts two assignments and answers `Exact`, and `check_approval` approves,
though a single assigned validator has approved. -/
theorem checkApproval_duplicate_assignment :
    ∃ e, ((ApprovalEntry.empty 3).importAssignment 0 0 0 >>= fun e => e.importAssignment 0 0 0) =
        some e ∧
      tranchesToApprove e [true, false, false] 0 0 1 2 = some ⟨.exact 0 0 none (some 0), 0⟩ ∧
      checkApproval [true, false, false] e (.exact 0 0 none (some 0)) =
        some (.approved 0 (some 0)) ∧
      (e.assignmentsUpTo 0).map (fun m => countOnes (bitAnd m [true, false, false])) = some 1 := by
  refine ⟨⟨[⟨0, [(0, 0), (0, 0)]⟩], [true, false, false]⟩, by decide, ?_, by decide, by decide⟩
  unfold tranchesToApprove
  rw [tranchesToApproveLoop]
  decide

end PolkadotSdk.ApprovalVoting
