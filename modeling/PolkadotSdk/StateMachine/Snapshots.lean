import PolkadotSdk.StateMachine.Changeset

/-!
# Nested transactions as a stack of snapshots

What the transactional overlay is for, without versions or dirty sets: a stack of snapshots of the
changes, the newest first and the committed changes last.  A write changes the newest snapshot;
starting a transaction pushes a copy of it; a commit drops the snapshot under it, so that the newest
takes its place, and a rollback drops the newest.  The runtime may not close the
`numClientTransactions` oldest transactions, and leaving the runtime rolls back every transaction
above them.

A key's `column` is its value in each snapshot, the newest first.  Every operation acts on the
columns one key at a time (`column_set_self`, `column_startTransaction`, `column_close`, ...),
which is how `OverlayedMap`, which keeps the versions of each key, is compared with this model.
-/

namespace PolkadotSdk.StateMachine

/-- A stack of snapshots: `top` is the changes as the current transaction sees them, `below` the
snapshots of the enclosing transactions, the newest first, down to the committed changes.  A key
without a change has no value. -/
structure Snapshots (K V : Type) where
  top : K → Option V
  below : List (K → Option V)
  numClientTransactions : ℕ
  executionMode : ExecutionMode

/-- A call of the public interface of the change set of storage values. -/
inductive Call (K W : Type)
  | set (key : K) (value : Option W) (atExtrinsic : Option ℕ)
  | modify (key : K) (init : W) (atExtrinsic : Option ℕ) (write : Option W → Option W)
  | clearWhere (predicate : K → Bool) (atExtrinsic : Option ℕ)
  | startTransaction
  | commitTransaction
  | rollbackTransaction
  | enterRuntime
  | exitRuntime

namespace Snapshots

variable {K V : Type}

/-- No change and no transaction. -/
def empty : Snapshots K V := ⟨fun _ => none, [], 0, .client⟩

/-- The number of open transactions. -/
def depth (s : Snapshots K V) : ℕ := s.below.length

/-- The value of `key` in each snapshot, the newest first. -/
def column (s : Snapshots K V) (key : K) : List (Option V) := s.top key :: s.below.map (· key)

/-- Write `value` at `key` in the newest snapshot. -/
def set [DecidableEq K] (s : Snapshots K V) (key : K) (value : V) : Snapshots K V :=
  { s with top := Function.update s.top key (some value) }

/-- Open a transaction on a copy of the newest snapshot. -/
def startTransaction (s : Snapshots K V) : Snapshots K V := { s with below := s.top :: s.below }

/-- Are there transactions above the ones the client started? -/
def hasOpenRuntimeTransactions (s : Snapshots K V) : Bool :=
  decide (s.numClientTransactions < s.depth)

/-- Close the newest transaction: a rollback drops the newest snapshot, a commit the one below it.
There is nothing to close without a transaction, or in the runtime without one the runtime
started. -/
def closeTransaction (s : Snapshots K V) (rollback : Bool) :
    Except NoOpenTransaction (Snapshots K V) :=
  if s.executionMode = .runtime ∧ s.hasOpenRuntimeTransactions = false then .error ⟨⟩
  else
    match s.below with
    | [] => .error ⟨⟩
    | b :: bs => .ok (if rollback then { s with top := b, below := bs } else { s with below := bs })

/-- Protect every open transaction from the runtime. -/
def enterRuntime (s : Snapshots K V) : Except AlreadyInRuntime (Snapshots K V) :=
  match s.executionMode with
  | .runtime => .error ⟨⟩
  | .client => .ok { s with executionMode := .runtime, numClientTransactions := s.depth }

/-- Drop the `n` newest snapshots, or all but the committed changes. -/
def dropNewest : ℕ → Snapshots K V → Snapshots K V
  | 0, s => s
  | n + 1, s =>
    match s.below with
    | [] => s
    | b :: bs => dropNewest n { s with top := b, below := bs }

/-- Return to the client, rolling back the transactions above the client's. -/
def exitRuntime (s : Snapshots K V) : Except NotInRuntime (Snapshots K V) :=
  match s.executionMode with
  | .client => .error ⟨⟩
  | .runtime =>
    .ok (dropNewest (s.depth - s.numClientTransactions) { s with executionMode := .client })

section ChangeSet

variable {W : Type}

/-- Apply `write` to the value of `key`, which starts from `some init` for a key without a
change. -/
def modify [DecidableEq K] (s : Snapshots K (Option W)) (key : K) (init : W)
    (write : Option W → Option W) : Snapshots K (Option W) :=
  s.set key (write ((s.top key).getD (some init)))

/-- Delete the value of every changed key the predicate matches. -/
def clearWhere (s : Snapshots K (Option W)) (predicate : K → Bool) : Snapshots K (Option W) :=
  { s with top := fun k => if predicate k then (s.top k).map fun _ => none else s.top k }

/-- A call; one that returns an error leaves the snapshots as they were. -/
def call [DecidableEq K] (s : Snapshots K (Option W)) : Call K W → Snapshots K (Option W)
  | .set key value _ => s.set key value
  | .modify key init _ write => s.modify key init write
  | .clearWhere predicate _ => s.clearWhere predicate
  | .startTransaction => s.startTransaction
  | .commitTransaction => (s.closeTransaction false).toOption.getD s
  | .rollbackTransaction => (s.closeTransaction true).toOption.getD s
  | .enterRuntime => s.enterRuntime.toOption.getD s
  | .exitRuntime => s.exitRuntime.toOption.getD s

end ChangeSet

/-! ## What each operation does to a column -/

@[simp] theorem length_column (s : Snapshots K V) (key : K) :
    (s.column key).length = s.depth + 1 := by
  simp [column, depth]

@[simp] theorem column_set_self [DecidableEq K] (s : Snapshots K V) (key : K) (value : V) :
    (s.set key value).column key = some value :: (s.column key).tail := by
  simp [column, set]

theorem column_set_ne [DecidableEq K] (s : Snapshots K V) {key k : K} (value : V) (h : k ≠ key) :
    (s.set key value).column k = s.column k := by
  simp [column, set, Function.update_of_ne h]

@[simp] theorem column_startTransaction (s : Snapshots K V) (key : K) :
    s.startTransaction.column key = s.top key :: s.column key := rfl

theorem column_close (s : Snapshots K V) {b : K → Option V} {bs : List (K → Option V)}
    (h : s.below = b :: bs) (rollback : Bool) (key : K) :
    (if rollback then { s with top := b, below := bs } else { s with below := bs } :
      Snapshots K V).column key = (s.column key).eraseIdx (if rollback then 0 else 1) := by
  cases rollback <;> simp [column, h]

theorem column_clearWhere {W : Type} (s : Snapshots K (Option W)) (predicate : K → Bool)
    (key : K) :
    (s.clearWhere predicate).column key =
      (if predicate key then (s.top key).map fun _ => none else s.top key) ::
        (s.column key).tail := by
  simp [column, clearWhere]

end Snapshots

end PolkadotSdk.StateMachine
