import Mathlib.Data.List.AList
import Mathlib.Data.Finset.Basic

/-!
# The transactional overlay of the state machine

`OverlayedMap` (`overlayed_changes/changeset.rs`) keeps, for every key, one version of its value
per open transaction that wrote it (`OverlayedEntry`), and for every open transaction the set of
keys it wrote (`dirty_keys`), so that closing a transaction visits those keys only.

The model keeps the source's data with two changes of representation: a stack (the versions of
an entry, the dirty sets) is a list with its newest element first, and a set of keys is a list
without repetitions. A failed `expect` is `none`; an operation that cannot fail returns its
result directly.

* `OverlayedEntry.set`, `OverlayedMap.set`, `OverlayedMap.modify` and `OverlayedMap.clearWhere`
  write; `closeTransaction` commits or rolls back; `exitRuntime` rolls back what the runtime
  left open.
* `modify_extrinsics_of_written`: a `modify` that is not the key's first write in its transaction
  records no extrinsic index.
-/

namespace PolkadotSdk.StateMachine

/-- The extrinsic indices recorded for one version, in the order they were recorded. -/
structure Extrinsics where
  indices : List ℕ
  deriving DecidableEq, Repr

namespace Extrinsics

/-- Record an index, unless it is the one recorded last. -/
def insert (ext : ℕ) (e : Extrinsics) : Extrinsics :=
  if e.indices.getLast? = some ext then e else ⟨e.indices ++ [ext]⟩

/-- Append the indices of `other`. -/
def extend (e other : Extrinsics) : Extrinsics := ⟨e.indices ++ other.indices⟩

end Extrinsics

/-- Whether the client or the runtime drives the overlay. -/
inductive ExecutionMode
  | client
  | runtime
  deriving DecidableEq, Repr

/-- There is no transaction the caller may close. -/
structure NoOpenTransaction where
  deriving DecidableEq, Repr

/-- `enter_runtime` while in the runtime. -/
structure AlreadyInRuntime where
  deriving DecidableEq, Repr

/-- `exit_runtime` while in the client. -/
structure NotInRuntime where
  deriving DecidableEq, Repr

/-- One version of a value. -/
structure InnerValue (V : Type) where
  value : V
  extrinsics : Extrinsics
  deriving DecidableEq, Repr

/-- All versions of the value of one key, the newest first: one per transaction that wrote it,
and one more for a value written outside any transaction. -/
structure OverlayedEntry (V : Type) where
  transactions : List (InnerValue V)
  deriving DecidableEq, Repr

namespace OverlayedEntry

variable {V : Type}

/-- The value as the current transaction sees it; `none` where the source's `expect` fails. -/
def valueRef (e : OverlayedEntry V) : Option V := e.transactions.head?.map (·.value)

/-- Every extrinsic index recorded by any version. -/
def extrinsics (e : OverlayedEntry V) : Finset ℕ :=
  (e.transactions.flatMap (·.extrinsics.indices)).toFinset

/-- Remove the newest version and return it. -/
def popTransaction (e : OverlayedEntry V) : Option (InnerValue V × OverlayedEntry V) :=
  match e.transactions with
  | t :: ts => some (t, ⟨ts⟩)
  | [] => none

/-- Apply a write through the mutable reference to the newest version (`value_mut`). -/
def writeValue (e : OverlayedEntry V) (write : V → V) : OverlayedEntry V :=
  match e.transactions with
  | t :: ts => ⟨{ t with value := write t.value } :: ts⟩
  | [] => e

/-- Write a new version on the first write of a transaction (or when there is none), and
overwrite the newest one otherwise; then record the extrinsic index on the newest version. -/
def set (e : OverlayedEntry V) (value : V) (firstWriteInTx : Bool) (atExtrinsic : Option ℕ) :
    OverlayedEntry V :=
  let written : List (InnerValue V) :=
    match firstWriteInTx, e.transactions with
    | false, t :: ts => { t with value := value } :: ts
    | _, ts => ⟨value, ⟨[]⟩⟩ :: ts
  match atExtrinsic, written with
  | some ext, t :: ts => ⟨{ t with extrinsics := t.extrinsics.insert ext } :: ts⟩
  | _, ts => ⟨ts⟩

/-- The merge of a committed version into the one below it: the lower version takes the value
of `dropped` and its extrinsic indices; `none` if there is no version below. -/
def absorb (e : OverlayedEntry V) (dropped : InnerValue V) : Option (OverlayedEntry V) :=
  match e.transactions with
  | t :: ts =>
    some ⟨{ t with value := dropped.value, extrinsics := t.extrinsics.extend dropped.extrinsics } :: ts⟩
  | [] => none

end OverlayedEntry

/-- Mark `key` dirty in the newest transaction; true iff a transaction is open and this is its
first write to `key`. -/
def insertDirty {K : Type} [DecidableEq K] (set : List (List K)) (key : K) :
    Bool × List (List K) :=
  match set with
  | [] => (false, [])
  | dk :: rest => (decide (key ∉ dk), dk.insert key :: rest)

/-- A change set with nested transactions. -/
structure OverlayedMap (K V : Type) where
  changes : AList (fun _ : K => OverlayedEntry V)
  /-- The keys written by each open transaction, the newest first; its length is the depth. -/
  dirtyKeys : List (List K)
  /-- How many of the oldest transactions the client started; the runtime may not close them. -/
  numClientTransactions : ℕ
  executionMode : ExecutionMode

namespace OverlayedMap

variable {K V : Type} [DecidableEq K]

/-- The empty change set (`Default`). -/
def empty : OverlayedMap K V := ⟨∅, [], 0, .client⟩

/-- The current nesting depth of the transaction stack. -/
def transactionDepth (m : OverlayedMap K V) : ℕ := m.dirtyKeys.length

/-- An empty change set at the same transaction state. -/
def spawnChild (m : OverlayedMap K V) : OverlayedMap K V :=
  ⟨∅, List.replicate m.transactionDepth [], m.numClientTransactions, m.executionMode⟩

/-- True if no key has a change. -/
def isEmpty (m : OverlayedMap K V) : Bool := m.changes.entries.isEmpty

/-- The versions of a key. -/
def get (m : OverlayedMap K V) (key : K) : Option (OverlayedEntry V) := m.changes.lookup key

/-- The value of every changed key as the current transaction sees it. -/
def view (m : OverlayedMap K V) : Option (List (K × V)) :=
  m.changes.entries.mapM fun e => e.2.valueRef.map (e.1, ·)

/-- Set a value, as a new version on the first write of the current transaction. -/
def set (m : OverlayedMap K V) (key : K) (value : V) (atExtrinsic : Option ℕ) :
    OverlayedMap K V :=
  let overlayed := (m.changes.lookup key).getD ⟨[]⟩
  let (firstWriteInTx, dirtyKeys) := insertDirty m.dirtyKeys key
  { m with
    changes := m.changes.insert key (overlayed.set value firstWriteInTx atExtrinsic)
    dirtyKeys := dirtyKeys }

/-- The committed value of every key; `none` (the source's `assert!`) with a transaction open. -/
def drainCommitted (m : OverlayedMap K V) : Option (List (K × V)) :=
  if m.transactionDepth = 0 then
    m.changes.entries.mapM fun e => e.2.popTransaction.map fun p => (e.1, p.1.value)
  else none

/-- Are there transactions the runtime started and has not closed? -/
def hasOpenRuntimeTransactions (m : OverlayedMap K V) : Bool :=
  decide (m.numClientTransactions < m.transactionDepth)

/-- Protect every open transaction from the runtime. -/
def enterRuntime (m : OverlayedMap K V) : Except AlreadyInRuntime (OverlayedMap K V) :=
  match m.executionMode with
  | .runtime => .error ⟨⟩
  | .client => .ok { m with executionMode := .runtime, numClientTransactions := m.transactionDepth }

/-- Open a transaction. -/
def startTransaction (m : OverlayedMap K V) : OverlayedMap K V :=
  { m with dirtyKeys := [] :: m.dirtyKeys }

/-- What closing a transaction does to one of the keys it wrote; the transaction's dirty set
is already popped. A rollback drops the newest version, and the key with its last one. A commit
merges the newest version into the one below when that belongs to the enclosing transaction or
is committed, and otherwise hands the version to the enclosing transaction. -/
def closeKey (rollback : Bool) (m : OverlayedMap K V) (key : K) : Option (OverlayedMap K V) := do
  let overlayed ← m.changes.lookup key
  if rollback then
    let (_, rest) ← overlayed.popTransaction
    if rest.transactions.isEmpty then
      pure { m with changes := m.changes.erase key }
    else
      pure { m with changes := m.changes.insert key rest }
  else
    let (hasPredecessor, dirtyKeys) : Bool × List (List K) :=
      match m.dirtyKeys with
      | dk :: ds => (decide (key ∈ dk), dk.insert key :: ds)
      | [] => (decide (1 < overlayed.transactions.length), [])
    if hasPredecessor then
      let (dropped, rest) ← overlayed.popTransaction
      let merged ← rest.absorb dropped
      pure { m with changes := m.changes.insert key merged, dirtyKeys := dirtyKeys }
    else
      pure { m with dirtyKeys := dirtyKeys }

/-- Commit (`rollback = false`) or roll back the newest transaction. -/
def closeTransaction (m : OverlayedMap K V) (rollback : Bool) :
    Option (Except NoOpenTransaction (OverlayedMap K V)) :=
  -- the runtime may not close a transaction the client started
  if m.executionMode = .runtime ∧ m.hasOpenRuntimeTransactions = false then some (.error ⟨⟩)
  else
    match m.dirtyKeys with
    | [] => some (.error ⟨⟩)
    | dk :: rest => (dk.foldlM (closeKey rollback) { m with dirtyKeys := rest }).map .ok

/-- Roll back the newest transaction. -/
def rollbackTransaction (m : OverlayedMap K V) :
    Option (Except NoOpenTransaction (OverlayedMap K V)) :=
  m.closeTransaction true

/-- Commit the newest transaction. -/
def commitTransaction (m : OverlayedMap K V) :
    Option (Except NoOpenTransaction (OverlayedMap K V)) :=
  m.closeTransaction false

/-- The loop of `exit_runtime`: roll back while the runtime has transactions open, each
rollback `expect`ed to succeed. It runs on a budget of `fuel` iterations; a budget of the depth
is enough (`rollbackDangling_hasOpen`). -/
def rollbackDangling : ℕ → OverlayedMap K V → Option (OverlayedMap K V)
  | 0, m => some m
  | fuel + 1, m =>
    if m.hasOpenRuntimeTransactions then
      match m.rollbackTransaction with
      | some (.ok m') => rollbackDangling fuel m'
      | _ => none
    else some m

/-- Return to the client, rolling back every transaction the runtime left open. -/
def exitRuntime (m : OverlayedMap K V) : Option (Except NotInRuntime (OverlayedMap K V)) :=
  match m.executionMode with
  | .client => some (.error ⟨⟩)
  | .runtime => (rollbackDangling m.transactionDepth { m with executionMode := .client }).map .ok

/-! ## The change set of storage values -/

section ChangeSet

variable {W : Type}

/-- Register a write of `key` and apply the caller's `write` through the returned reference.
A key without versions starts from `some init`; the first write of a transaction copies the
value into a new version. -/
def modify (m : OverlayedMap K (Option W)) (key : K) (init : W) (atExtrinsic : Option ℕ)
    (write : Option W → Option W) : OverlayedMap K (Option W) :=
  let overlayed := (m.changes.lookup key).getD ⟨[]⟩
  let (firstWriteInTx, dirtyKeys) := insertDirty m.dirtyKeys key
  let cloneIntoNewTx : Option (Option W) :=
    match overlayed.transactions with
    | tx :: _ => if firstWriteInTx then some tx.value else none
    | [] => some (some init)
  let overlayed :=
    match cloneIntoNewTx with
    | some cloned => overlayed.set cloned firstWriteInTx atExtrinsic
    | none => overlayed
  { m with changes := m.changes.insert key (overlayed.writeValue write), dirtyKeys := dirtyKeys }

/-- One step of `clear_where`: delete the value of a matching key and count it if it had one. -/
def clearStep (predicate : K → OverlayedEntry (Option W) → Bool) (atExtrinsic : Option ℕ)
    (acc : OverlayedMap K (Option W) × ℕ) (e : Σ _ : K, OverlayedEntry (Option W)) :
    Option (OverlayedMap K (Option W) × ℕ) :=
  if predicate e.1 e.2 then do
    let value ← e.2.valueRef
    let (firstWriteInTx, dirtyKeys) := insertDirty acc.1.dirtyKeys e.1
    pure ({ acc.1 with
        changes := acc.1.changes.insert e.1 (e.2.set none firstWriteInTx atExtrinsic)
        dirtyKeys := dirtyKeys },
      if value.isSome then acc.2 + 1 else acc.2)
  else pure acc

/-- Delete the value of every key the predicate matches; returns how many had a value. -/
def clearWhere (m : OverlayedMap K (Option W)) (predicate : K → OverlayedEntry (Option W) → Bool)
    (atExtrinsic : Option ℕ) : Option (OverlayedMap K (Option W) × ℕ) :=
  m.changes.entries.foldlM (clearStep predicate atExtrinsic) (m, 0)

end ChangeSet

end OverlayedMap

/-! ## What a write records -/

namespace OverlayedEntry

variable {V : Type}

@[simp] theorem extrinsics_writeValue (e : OverlayedEntry V) (write : V → V) :
    (e.writeValue write).extrinsics = e.extrinsics := by
  unfold writeValue
  split
  · next t ts h => simp [extrinsics, h]
  · rfl

end OverlayedEntry

namespace OverlayedMap

variable {K V W : Type} [DecidableEq K]

/-- **A `modify` that is not the first write of its key in its transaction records no
extrinsic index.** `set` records the index of every write; `modify` records it only where it
copies the value into a new version, so a second `modify` of a key in one transaction, or any
`modify` of a changed key outside transactions, leaves the key's extrinsics as they were. -/
theorem modify_extrinsics_of_written (m : OverlayedMap K (Option W)) (key : K) (init : W)
    (atExtrinsic : Option ℕ) (write : Option W → Option W) (e : OverlayedEntry (Option W))
    (he : m.get key = some e) (hne : e.transactions ≠ [])
    (hfirst : (insertDirty m.dirtyKeys key).1 = false) :
    ((m.modify key init atExtrinsic write).get key).map OverlayedEntry.extrinsics =
      some e.extrinsics := by
  obtain ⟨t, ts, hts⟩ := List.exists_cons_of_ne_nil hne
  have hlook : m.changes.lookup key = some e := he
  rcases hd : insertDirty m.dirtyKeys key with ⟨first, dirtyKeys⟩
  obtain rfl : first = false := by rw [hd] at hfirst; exact hfirst
  simp only [modify, get, hlook, Option.getD_some, hd, hts, Bool.false_eq_true, ↓reduceIte,
    AList.lookup_insert, Option.map_some, OverlayedEntry.extrinsics_writeValue]

/-- Two `modify`s of one key outside transactions, at extrinsics `1` and `2`: only `1` is
recorded, though the second write changed the value. -/
theorem modify_extrinsics_of_written_twice :
    ((((empty : OverlayedMap ℕ (Option ℕ)).modify 0 7 (some 1) id).modify 0 7 (some 2)
        (fun _ => some 8)).get 0).map OverlayedEntry.extrinsics = some {1} := by
  rw [modify_extrinsics_of_written _ 0 7 (some 2) _ ⟨[⟨some 7, ⟨[1]⟩⟩]⟩ rfl (by simp) rfl]
  decide

end OverlayedMap

end PolkadotSdk.StateMachine
