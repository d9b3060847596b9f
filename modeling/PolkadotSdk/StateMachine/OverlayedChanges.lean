import PolkadotSdk.StateMachine.Changeset

/-!
# The overlay of a block's storage changes

`OverlayedChanges` (`overlayed_changes/mod.rs`) holds the change set of the top trie, one change
set per child trie, and the offchain overlay, which it opens, commits and rolls back together,
each `expect`ing the others to be at the same depth. It caches the storage root it computes
from a backend until a mutator calls `mark_dirty`.

The model leaves out what none of the modelled functions reads: the `ChildInfo` stored beside
each child change set (only default child tries exist, whose info is their storage key), the
statistics, the extensions and the transaction index operations. The backend and the hashing
it does are a parameter (`Backend`).

* `exitRuntime_storageTransactionCache`: `exit_runtime` rolls back without invalidating the
  cache, so a root cached before it is served after it (`storageRoot_cached_after_exitRuntime`).
* `commitTransaction_after_offchainDrainCommitted`: after `offchain_drain_committed` inside a
  transaction, committing that transaction panics.
-/

namespace PolkadotSdk.StateMachine

/-- The bytes of a storage key. -/
abbrev StorageKey := List UInt8

/-- The bytes of a storage value. -/
abbrev StorageValue := List UInt8

/-- The change set of a trie. -/
abbrev OverlayedChangeSet := OverlayedMap StorageKey (Option StorageValue)

/-- A change of the offchain database. -/
inductive OffchainOverlayedChange
  | remove
  | setValue (value : List UInt8)
  deriving DecidableEq, Repr

/-- The offchain changes, keyed by prefix and key. -/
structure OffchainOverlayedChanges where
  overlay : OverlayedMap (List UInt8 × List UInt8) OffchainOverlayedChange

/-- `well_known_keys::EXTRINSIC_INDEX`. -/
def extrinsicIndexKey : StorageKey := ":extrinsic_index".toList.map Char.toUInt8

/-- `well_known_keys::DEFAULT_CHILD_STORAGE_KEY_PREFIX`. -/
def defaultChildStorageKeyPrefix : StorageKey := ":child_storage:default:".toList.map Char.toUInt8

/-- `offchain::STORAGE_PREFIX`. -/
def storagePrefix : List UInt8 := "storage".toList.map Char.toUInt8

/-- `NO_EXTRINSIC_INDEX`. -/
def noExtrinsicIndex : ℕ := 0xffffffff

/-- The SCALE decoding of a `u32`: four bytes, least significant first. -/
def decodeU32 : List UInt8 → Option ℕ
  | b₀ :: b₁ :: b₂ :: b₃ :: _ =>
    some (b₀.toNat + 256 * b₁.toNat + 65536 * b₂.toNat + 16777216 * b₃.toNat)
  | _ => none

/-- The prefixed storage key of a default child trie, under which the top trie stores its root. -/
def prefixedStorageKey (storageKey : StorageKey) : StorageKey :=
  defaultChildStorageKeyPrefix ++ storageKey

/-- The backend the overlay computes roots against, with the codec of its roots. -/
structure Backend (E R T : Type) where
  /-- The root and the transaction of the backend's state under a top delta and child deltas. -/
  fullStorageRoot : List (StorageKey × Option StorageValue) →
    List (StorageKey × List (StorageKey × Option StorageValue)) → R × T
  /-- The root of a child trie under a delta, whether it is empty, and the transaction. -/
  childStorageRoot : StorageKey → List (StorageKey × Option StorageValue) → R × Bool × T
  storage : StorageKey → Except E (Option StorageValue)
  encodeRoot : R → StorageValue
  decodeRoot : StorageValue → Option R
  emptyChildTrieRoot : R

/-- The transaction and root computed by `storage_root`. -/
structure StorageTransactionCache (R T : Type) where
  transaction : T
  transactionStorageRoot : R

/-- The overlay: the top change set, the child change sets by storage key, the offchain changes
and the cached root. -/
structure OverlayedChanges (R T : Type) where
  top : OverlayedChangeSet
  children : List (StorageKey × OverlayedChangeSet)
  offchain : OffchainOverlayedChanges
  collectExtrinsics : Bool
  storageTransactionCache : Option (StorageTransactionCache R T)

/-- An `expect` on a result. -/
def expectOk {ε α : Type} : Except ε α → Option α
  | .ok a => some a
  | .error _ => none

/-- `HashMap::insert`: the new pair replaces any pair of the same key. -/
def putChild (children : List (StorageKey × OverlayedChangeSet)) (storageKey : StorageKey)
    (changeset : OverlayedChangeSet) : List (StorageKey × OverlayedChangeSet) :=
  (storageKey, changeset) :: children.filter fun c => c.1 != storageKey

namespace OverlayedChanges

variable {E R T : Type}

/-- The empty overlay (`Default`). -/
def new : OverlayedChanges R T := ⟨.empty, [], ⟨.empty⟩, false, none⟩

/-- Whether no top nor child change is held. -/
def isEmpty (o : OverlayedChanges R T) : Bool := o.top.isEmpty && o.children.isEmpty

/-- The value of a top key: `none` inside `some` if the overlay does not know the key, `some none`
inside `some` if it was deleted; the outer `none` is the `expect` of `value()`. -/
def storage (o : OverlayedChanges R T) (key : StorageKey) : Option (Option (Option StorageValue)) :=
  match o.top.get key with
  | none => some none
  | some entry => entry.valueRef.map some

/-- Drop the cached storage root. -/
def markDirty (o : OverlayedChanges R T) : OverlayedChanges R T :=
  { o with storageTransactionCache := none }

/-- The extrinsic index to record writes at, read from the overlay when extrinsics are
collected. -/
def extrinsicIndex (o : OverlayedChanges R T) : Option (Option ℕ) :=
  if o.collectExtrinsics then
    (o.storage extrinsicIndexKey).map fun stored =>
      some ((stored.bind fun idx => idx.bind decodeU32).getD noExtrinsicIndex)
  else some none

/-- The change set of a child trie, a fresh one at the top's depth if it has none. -/
def childChangeSet (o : OverlayedChanges R T) (storageKey : StorageKey) : OverlayedChangeSet :=
  (o.children.lookup storageKey).getD o.top.spawnChild

/-! ## Mutators -/

/-- Register a write of a top key and apply the caller's `write` to its value, an empty value
standing for a deleted one. -/
def valueMutOrInsertWith (o : OverlayedChanges R T) (key : StorageKey) (init : StorageValue)
    (write : StorageValue → StorageValue) : Option (OverlayedChanges R T) := do
  let o := o.markDirty
  let ext ← o.extrinsicIndex
  pure { o with top := o.top.modify key init ext fun value => some (write (value.getD [])) }

def setStorage (o : OverlayedChanges R T) (key : StorageKey) (val : Option StorageValue) :
    Option (OverlayedChanges R T) := do
  let o := o.markDirty
  let ext ← o.extrinsicIndex
  pure { o with top := o.top.set key val ext }

def setChildStorage (o : OverlayedChanges R T) (storageKey key : StorageKey)
    (val : Option StorageValue) : Option (OverlayedChanges R T) := do
  let o := o.markDirty
  let ext ← o.extrinsicIndex
  pure { o with
    children := putChild o.children storageKey ((o.childChangeSet storageKey).set key val ext) }

/-- Delete every key of a child trie; returns how many had a value. -/
def clearChildStorage (o : OverlayedChanges R T) (storageKey : StorageKey) :
    Option (OverlayedChanges R T × ℕ) := do
  let o := o.markDirty
  let ext ← o.extrinsicIndex
  let (changeset, count) ← (o.childChangeSet storageKey).clearWhere (fun _ _ => true) ext
  pure ({ o with children := putChild o.children storageKey changeset }, count)

/-- Delete every top key with the prefix; returns how many had a value. -/
def clearPrefix (o : OverlayedChanges R T) (pre : List UInt8) :
    Option (OverlayedChanges R T × ℕ) := do
  let o := o.markDirty
  let ext ← o.extrinsicIndex
  let (top, count) ← o.top.clearWhere (fun key _ => pre.isPrefixOf key) ext
  pure ({ o with top := top }, count)

/-- Delete every key of a child trie with the prefix; returns how many had a value. -/
def clearChildPrefix (o : OverlayedChanges R T) (storageKey : StorageKey) (pre : List UInt8) :
    Option (OverlayedChanges R T × ℕ) := do
  let o := o.markDirty
  let ext ← o.extrinsicIndex
  let (changeset, count) ←
    (o.childChangeSet storageKey).clearWhere (fun key _ => pre.isPrefixOf key) ext
  pure ({ o with children := putChild o.children storageKey changeset }, count)

/-- Write a key of the offchain database, or remove it. -/
def setOffchainStorage (o : OverlayedChanges R T) (key : List UInt8)
    (value : Option (List UInt8)) : OverlayedChanges R T :=
  match value with
  | some value =>
    { o with offchain := ⟨o.offchain.overlay.set (storagePrefix, key) (.setValue value) none⟩ }
  | none => { o with offchain := ⟨o.offchain.overlay.set (storagePrefix, key) .remove none⟩ }

/-! ## Transactions -/

/-- The depth of the top change set. -/
def transactionDepth (o : OverlayedChanges R T) : ℕ := o.top.transactionDepth

def startTransaction (o : OverlayedChanges R T) : OverlayedChanges R T :=
  { o with
    top := o.top.startTransaction
    children := o.children.map fun c => (c.1, c.2.startTransaction)
    offchain := ⟨o.offchain.overlay.startTransaction⟩ }

/-- Roll back the newest transaction of the top, then of every child, dropping the children left
empty, then of the offchain overlay; the cache is dropped first, even if the top has no
transaction to roll back. -/
def rollbackTransaction (o : OverlayedChanges R T) :
    Option (Except NoOpenTransaction Unit × OverlayedChanges R T) := do
  let o := o.markDirty
  match ← o.top.rollbackTransaction with
  | .error e => pure (.error e, o)
  | .ok top =>
    let children ← o.children.filterMapM fun c =>
      (c.2.rollbackTransaction >>= expectOk).map fun changeset =>
        if changeset.isEmpty then none else some (c.1, changeset)
    let offchain ← o.offchain.overlay.rollbackTransaction >>= expectOk
    pure (.ok (), { o with top := top, children := children, offchain := ⟨offchain⟩ })

def commitTransaction (o : OverlayedChanges R T) :
    Option (Except NoOpenTransaction Unit × OverlayedChanges R T) := do
  match ← o.top.commitTransaction with
  | .error e => pure (.error e, o)
  | .ok top =>
    let children ← o.children.mapM fun c =>
      (c.2.commitTransaction >>= expectOk).map (c.1, ·)
    let offchain ← o.offchain.overlay.commitTransaction >>= expectOk
    pure (.ok (), { o with top := top, children := children, offchain := ⟨offchain⟩ })

def enterRuntime (o : OverlayedChanges R T) :
    Option (Except AlreadyInRuntime Unit × OverlayedChanges R T) :=
  match o.top.enterRuntime with
  | .error e => some (.error e, o)
  | .ok top => do
    let children ← o.children.mapM fun c => (expectOk c.2.enterRuntime).map (c.1, ·)
    let offchain ← expectOk o.offchain.overlay.enterRuntime
    pure (.ok (), { o with top := top, children := children, offchain := ⟨offchain⟩ })

/-- Return to the client, rolling back in every change set the transactions the runtime left
open. -/
def exitRuntime (o : OverlayedChanges R T) :
    Option (Except NotInRuntime Unit × OverlayedChanges R T) := do
  match ← o.top.exitRuntime with
  | .error e => pure (.error e, o)
  | .ok top =>
    let children ← o.children.mapM fun c => (c.2.exitRuntime >>= expectOk).map (c.1, ·)
    let offchain ← o.offchain.overlay.exitRuntime >>= expectOk
    pure (.ok (), { o with top := top, children := children, offchain := ⟨offchain⟩ })

/-- Take the offchain changes, each with its newest value, and leave an empty offchain overlay. -/
def offchainDrainCommitted (o : OverlayedChanges R T) :
    Option (List ((List UInt8 × List UInt8) × OffchainOverlayedChange) × OverlayedChanges R T) := do
  let items ← o.offchain.overlay.changes.entries.mapM fun e =>
    e.2.popTransaction.map fun p => (e.1, p.1.value)
  pure (items, { o with offchain := ⟨.empty⟩ })

/-! ## Roots -/

/-- The values of every child trie's changes as the current transaction sees them. -/
def childViews (o : OverlayedChanges R T) :
    Option (List (StorageKey × List (StorageKey × Option StorageValue))) :=
  o.children.mapM fun c => c.2.view.map (c.1, ·)

/-- The storage root of the backend under the overlay's changes, and whether it came from the
cache; a computed root is cached. -/
def storageRoot (o : OverlayedChanges R T) (backend : Backend E R T) :
    Option ((R × Bool) × OverlayedChanges R T) :=
  match o.storageTransactionCache with
  | some cache => some ((cache.transactionStorageRoot, true), o)
  | none => do
    let delta ← o.top.view
    let childDelta ← o.childViews
    let (root, transaction) := backend.fullStorageRoot delta childDelta
    pure ((root, false), { o with storageTransactionCache := some ⟨transaction, root⟩ })

/-- The root of a child trie. With a cached storage root it is read from the top trie; otherwise
it is computed from the child's changes and written into the top trie, or read from the backend
if the child has no change set. -/
def childStorageRoot (o : OverlayedChanges R T) (storageKey : StorageKey)
    (backend : Backend E R T) : Option (Except E (R × Bool) × OverlayedChanges R T) :=
  let decodeOrEmpty : Option StorageValue → R := fun stored =>
    (stored.bind backend.decodeRoot).getD backend.emptyChildTrieRoot
  match o.storageTransactionCache with
  | some _ => do
    let stored ← o.storage (prefixedStorageKey storageKey)
    let fetched : Except E (Option StorageValue) :=
      match stored with
      | some value => .ok value
      | none => backend.storage (prefixedStorageKey storageKey)
    pure (fetched.map fun value => (decodeOrEmpty value, true), o)
  | none =>
    match o.children.lookup storageKey with
    | some changeset => do
      let delta ← changeset.view
      let (root, isEmpty, _) := backend.childStorageRoot storageKey delta
      let o ← o.setStorage (prefixedStorageKey storageKey)
        (if isEmpty then none else some (backend.encodeRoot root))
      pure (.ok (root, false), o.markDirty)
    | none =>
      pure ((backend.storage (prefixedStorageKey storageKey)).map fun value =>
        (decodeOrEmpty value, false), o)

/-! ## The cached root -/

theorem storageRoot_caches {o o' : OverlayedChanges R T} {backend : Backend E R T} {root : R}
    {cached : Bool} (h : o.storageRoot backend = some ((root, cached), o')) :
    ∃ transaction, o'.storageTransactionCache = some ⟨transaction, root⟩ := by
  unfold storageRoot at h
  split at h
  · next cache hcache =>
    obtain ⟨⟨rfl, -⟩, rfl⟩ := Prod.mk.inj (Option.some.inj h)
    exact ⟨cache.transaction, hcache⟩
  · obtain ⟨delta, -, h⟩ := Option.bind_eq_some_iff.mp h
    obtain ⟨childDelta, -, h⟩ := Option.bind_eq_some_iff.mp h
    obtain ⟨⟨rfl, -⟩, rfl⟩ := Prod.mk.inj (Option.some.inj h)
    exact ⟨_, rfl⟩

theorem exitRuntime_storageTransactionCache {o o' : OverlayedChanges R T}
    {res : Except NotInRuntime Unit} (h : o.exitRuntime = some (res, o')) :
    o'.storageTransactionCache = o.storageTransactionCache := by
  obtain ⟨top, -, h⟩ := Option.bind_eq_some_iff.mp h
  cases top with
  | error e =>
    obtain ⟨-, rfl⟩ := Prod.mk.inj (Option.some.inj h)
    rfl
  | ok top =>
    obtain ⟨children, -, h⟩ := Option.bind_eq_some_iff.mp h
    obtain ⟨offchain, -, h⟩ := Option.bind_eq_some_iff.mp h
    obtain ⟨-, rfl⟩ := Prod.mk.inj (Option.some.inj h)
    rfl

/-- **A root cached before `exit_runtime` is served after it.** `exit_runtime` rolls back the
transactions the runtime left open, which changes the view of the top and child tries, but it
does not call `mark_dirty`: whatever it rolled back, the next `storage_root` returns the root
computed before, marked as cached. -/
theorem storageRoot_cached_after_exitRuntime (o o₁ o₂ : OverlayedChanges R T)
    (backend : Backend E R T) (root : R) (res : Except NotInRuntime Unit)
    (h₁ : o.storageRoot backend = some ((root, false), o₁))
    (h₂ : o₁.exitRuntime = some (res, o₂)) :
    o₂.storageRoot backend = some ((root, true), o₂) := by
  obtain ⟨transaction, hcache⟩ := storageRoot_caches h₁
  have hcache₂ : o₂.storageTransactionCache = some ⟨transaction, root⟩ := by
    rw [exitRuntime_storageTransactionCache h₂, hcache]
  simp only [storageRoot, hcache₂]

/-- A root of the top and child deltas themselves: two views have the same root only if they
are equal. -/
abbrev DeltaRoot := List (StorageKey × Option StorageValue) ×
  List (StorageKey × List (StorageKey × Option StorageValue))

/-- The backend whose root of a delta is the delta. -/
def deltaBackend : Backend Unit DeltaRoot Unit where
  fullStorageRoot delta childDelta := ((delta, childDelta), ())
  childStorageRoot _ delta := ((delta, []), delta.isEmpty, ())
  storage _ := .ok none
  encodeRoot _ := []
  decodeRoot _ := none
  emptyChildTrieRoot := ([], [])

/-- The runtime writes a key in a transaction it leaves open, the root is computed, and the
client returns from the runtime: the rollback empties the overlay, whose root is now that of no
change, but `storage_root` returns the root with the key, as cached. -/
theorem storageRoot_cached_after_exitRuntime_dangling :
    ∃ o₀ o o₁ o₂ : OverlayedChanges DeltaRoot Unit,
      new.enterRuntime = some (.ok (), o₀) ∧
      o₀.startTransaction.setStorage [1] (some [2]) = some o ∧
      o.storageRoot deltaBackend = some ((([([1], some [2])], []), false), o₁) ∧
      o₁.exitRuntime = some (.ok (), o₂) ∧
      o₂.storageRoot deltaBackend = some ((([([1], some [2])], []), true), o₂) ∧
      (o₂.top.view.bind fun delta => o₂.childViews.map fun childDelta =>
        (deltaBackend.fullStorageRoot delta childDelta).1) = some ([], []) := by
  refine ⟨?o₀, ?o, ?o₁, ?o₂, ?enter, ?write, ?root, ?exit, ?_, ?_⟩
  case enter => rfl
  case write => rfl
  case root => rfl
  case exit => rfl
  · exact storageRoot_cached_after_exitRuntime ?o ?o₁ ?o₂ _ _ _ rfl rfl
  · rfl

/-! ## Lockstep -/

theorem offchainDrainCommitted_eq {o o' : OverlayedChanges R T}
    {items : List ((List UInt8 × List UInt8) × OffchainOverlayedChange)}
    (h : o.offchainDrainCommitted = some (items, o')) :
    o' = { o with offchain := ⟨.empty⟩ } := by
  obtain ⟨items', -, h⟩ := Option.bind_eq_some_iff.mp h
  exact (Prod.mk.inj (Option.some.inj h)).2.symm

/-- **Committing after `offchain_drain_committed` panics.** The drain replaces the offchain
overlay by an empty one, at depth zero whatever the depth of the others; so once the top has a
transaction to commit, `commit_transaction` commits it and then fails the `expect` that the
offchain overlay has one too. -/
theorem commitTransaction_after_offchainDrainCommitted (o o' : OverlayedChanges R T)
    (items : List ((List UInt8 × List UInt8) × OffchainOverlayedChange))
    (top : OverlayedChangeSet) (hdrain : o.offchainDrainCommitted = some (items, o'))
    (htop : o.top.commitTransaction = some (.ok top)) :
    o'.commitTransaction = none := by
  obtain rfl := offchainDrainCommitted_eq hdrain
  -- the empty offchain overlay has no transaction to commit
  have hoff : (OverlayedMap.empty.commitTransaction >>= expectOk :
      Option (OverlayedMap (List UInt8 × List UInt8) OffchainOverlayedChange)) = none := rfl
  simp only [commitTransaction, htop, hoff]
  cases o.children.mapM fun c => (c.2.commitTransaction >>= expectOk).map (c.1, ·) <;> rfl

/-- A transaction is opened and the offchain changes drained: the commit of the transaction
panics. -/
theorem commitTransaction_after_offchainDrainCommitted_open :
    ∃ (drained : OverlayedChanges Unit Unit)
      (items : List ((List UInt8 × List UInt8) × OffchainOverlayedChange))
      (top : OverlayedChangeSet),
      (new.startTransaction : OverlayedChanges Unit Unit).offchainDrainCommitted =
        some (items, drained) ∧
      (new.startTransaction : OverlayedChanges Unit Unit).top.commitTransaction =
        some (.ok top) ∧
      drained.commitTransaction = none := by
  refine ⟨?drained, ?items, ?top, ?drain, ?commitTop, ?_⟩
  case drain => rfl
  case commitTop => rfl
  exact commitTransaction_after_offchainDrainCommitted new.startTransaction ?drained ?items ?top
    rfl rfl

end OverlayedChanges

end PolkadotSdk.StateMachine
