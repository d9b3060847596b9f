import PolkadotSdk.StateMachine.Snapshots
import PolkadotSdk.Lib.KeyedFold
import PolkadotSdk.Lib.ForLoop

/-!
# The overlay refines the stack of snapshots

`OverlayedMap` keeps, for each key, the versions written by the open transactions that wrote it
and at most one committed version; the stack of snapshots (`Snapshots`) keeps a whole copy of the
changes per transaction.  Seen one key at a time the two agree: the key's versions, the newest
first, and whether each open transaction wrote it give its value in each snapshot (`layers`).
`Refines m s` says that they do at every key, that the depths, the client's transactions and the
modes are the same, and that `m` is `WellFormed`: each dirty set lists a key once, no entry is
left without a version, and a key has a version for each open transaction that wrote it and at
most one more (`Balanced`).  That invariant is what the source's `expect`s rely on.

Every call of the interface keeps the relation with the call of the model and never fails an
`expect` (`set_refines`, `modify_refines`, `clearWhere_refines`, `startTransaction_refines`,
`closeTransaction_refines`, `enterRuntime_refines`, `exitRuntime_refines`); closing a transaction
is a loop over its dirty keys in which each key is closed on its own (`closeKey_spec`), which
`KeyedFold.foldlM_keyed` runs.  By induction a whole run of calls from the empty overlay refines
the same run of the model.
-/

namespace PolkadotSdk.StateMachine

open PolkadotSdk.Lib.KeyedFold

/-! ## A key's versions and its snapshots -/

/-- The value of a key in each snapshot, the newest first, from the values of its versions, the
newest first, and whether each open transaction, the newest first, wrote it: a transaction that
wrote the key owns the newest of the versions left, and one that did not sees the same version
as the transaction below it. -/
def layers {V : Type} : List V → List Bool → List (Option V)
  | vs, [] => [vs.head?]
  | vs, w :: ws => vs.head? :: layers (if w then vs.tail else vs) ws

/-- A key has a version for each open transaction that wrote it, and at most one more: the
committed one. -/
def Balanced {V : Type} (vs : List V) (ws : List Bool) : Prop :=
  ws.count true ≤ vs.length ∧ vs.length ≤ ws.count true + 1

/-- The dirty flags after a write: the newest transaction, if there is one, wrote the key. -/
def markTop : List Bool → List Bool
  | [] => []
  | _ :: ws => true :: ws

section Layers

variable {V : Type}

theorem layers_eq_cons (vs : List V) (ws : List Bool) :
    layers vs ws = vs.head? :: (layers vs ws).tail := by
  cases ws <;> rfl

@[simp] theorem layers_cons_false (vs : List V) (ws : List Bool) :
    layers vs (false :: ws) = vs.head? :: layers vs ws := rfl

@[simp] theorem layers_cons_true (vs : List V) (ws : List Bool) :
    layers vs (true :: ws) = vs.head? :: layers vs.tail ws := rfl

theorem layers_close_false (vs : List V) (ws : List Bool) (rollback : Bool) :
    (layers vs (false :: ws)).eraseIdx (if rollback then 0 else 1) = layers vs ws := by
  cases rollback
  · rw [layers_cons_false, if_neg Bool.false_ne_true, layers_eq_cons vs ws]
    rfl
  · rfl

/-- **A write at the newest snapshot.** The value becomes the newest version: a new one if the
newest transaction had not written the key (or there is no version), and in place of the
newest otherwise. -/
theorem layers_write (v : V) (vs : List V) (ws : List Bool) (hb : Balanced vs ws) :
    layers (v :: if decide (ws.head? = some false) || vs.isEmpty then vs else vs.tail)
        (markTop ws) = some v :: (layers vs ws).tail := by
  rcases ws with _ | ⟨w, ws⟩
  · rfl
  · cases w with
    | false => simp [markTop]
    | true =>
      -- the newest transaction wrote the key, so it has a version to overwrite
      have hne : vs ≠ [] := by
        intro h
        have := hb.1
        simp [h] at this
      simp [markTop, hne]

theorem balanced_write (v : V) (vs : List V) (ws : List Bool) (hb : Balanced vs ws) :
    Balanced (v :: if decide (ws.head? = some false) || vs.isEmpty then vs else vs.tail)
      (markTop ws) := by
  obtain ⟨h1, h2⟩ := hb
  rcases ws with _ | ⟨w, ws⟩
  · cases vs <;> simp_all [Balanced, markTop]
  · cases w <;> cases vs <;> simp_all [Balanced, markTop]

end Layers

/-! ## The columns of the overlay -/

/-- The values of the versions, the newest first. -/
def OverlayedEntry.values {V : Type} (e : OverlayedEntry V) : List V :=
  e.transactions.map (·.value)

/-- The values of the versions of a key that may have no entry. -/
def entryValues {V : Type} (entry : Option (OverlayedEntry V)) : List V :=
  (entry.map OverlayedEntry.values).getD []

/-- Whether each open transaction, the newest first, wrote `key`. -/
def writers {K : Type} [DecidableEq K] (dirtyKeys : List (List K)) (key : K) : List Bool :=
  dirtyKeys.map fun dk => decide (key ∈ dk)

/-- A key's column of the overlay: its entry, and which open transactions wrote it. -/
abbrev Column (V : Type) := Option (OverlayedEntry V) × List Bool

/-- The value of the key in each snapshot, the newest first. -/
def Column.snapshots {V : Type} (c : Column V) : List (Option V) := layers (entryValues c.1) c.2

/-- The invariant of one key: an entry has a version, and the versions are balanced against the
transactions that wrote the key. -/
def Column.WellFormed {V : Type} (c : Column V) : Prop :=
  (∀ e, c.1 = some e → e.transactions ≠ []) ∧ Balanced (entryValues c.1) c.2

namespace OverlayedMap

variable {K V : Type} [DecidableEq K]

/-- The column of `key`. -/
def column (m : OverlayedMap K V) (key : K) : Column V :=
  (m.changes.lookup key, writers m.dirtyKeys key)

/-- The invariant the source's `expect`s rely on. -/
structure WellFormed (m : OverlayedMap K V) : Prop where
  nodup : ∀ dk ∈ m.dirtyKeys, dk.Nodup
  column : ∀ key, (m.column key).WellFormed

/-- `m` stands for the snapshots `s`. -/
structure Refines (m : OverlayedMap K V) (s : Snapshots K V) : Prop where
  wellFormed : m.WellFormed
  depth : m.transactionDepth = s.depth
  column : ∀ key, (m.column key).snapshots = s.column key
  numClientTransactions : m.numClientTransactions = s.numClientTransactions
  executionMode : m.executionMode = s.executionMode

end OverlayedMap

/-! ## Writes -/

section Writes

variable {V : Type}

theorem entryValues_eq_getD (entry : Option (OverlayedEntry V)) :
    entryValues entry = (entry.getD ⟨[]⟩).values := by
  cases entry <;> rfl

theorem OverlayedEntry.values_set (e : OverlayedEntry V) (value : V) (firstWriteInTx : Bool)
    (atExtrinsic : Option ℕ) :
    (e.set value firstWriteInTx atExtrinsic).values =
      value :: if firstWriteInTx || e.values.isEmpty then e.values else e.values.tail := by
  rcases e with ⟨_ | ⟨t, ts⟩⟩ <;> cases firstWriteInTx <;> cases atExtrinsic <;> rfl

/-- **What a write does to its key's column.** A column whose entry has the values that a write
of `v` leaves is well formed and sees `v` in its newest snapshot, the others unchanged. -/
theorem Column.write_spec {c : Column V} (hc : c.WellFormed) {e : OverlayedEntry V} (v : V)
    (he : e.values = v :: if decide (c.2.head? = some false) || (entryValues c.1).isEmpty
      then entryValues c.1 else (entryValues c.1).tail) :
    Column.WellFormed (some e, markTop c.2) ∧
      Column.snapshots (some e, markTop c.2) = some v :: c.snapshots.tail := by
  have hv : entryValues (some e) = e.values := rfl
  refine ⟨⟨fun e' he' => ?_, ?_⟩, ?_⟩
  · -- the entry has the version just written
    cases he'
    intro hnil
    simp [OverlayedEntry.values, hnil] at he
  · rw [hv, he]
    exact balanced_write v _ _ hc.2
  · rw [Column.snapshots, hv, he]
    exact layers_write v _ _ hc.2

end Writes

namespace OverlayedMap

variable {K V : Type} [DecidableEq K]

theorem insertDirty_fst (dirtyKeys : List (List K)) (key : K) :
    (insertDirty dirtyKeys key).1 = decide ((writers dirtyKeys key).head? = some false) := by
  cases dirtyKeys <;> simp [insertDirty, writers]

theorem writers_insertDirty (dirtyKeys : List (List K)) (key k : K) :
    writers (insertDirty dirtyKeys key).2 k =
      if k = key then markTop (writers dirtyKeys key) else writers dirtyKeys k := by
  rcases dirtyKeys with _ | ⟨dk, ds⟩
  · split_ifs <;> rfl
  · by_cases hk : k = key
    · subst hk
      simp [insertDirty, writers, markTop]
    · simp [insertDirty, writers, hk]

@[simp] theorem writers_nil (key : K) : writers ([] : List (List K)) key = [] := rfl

@[simp] theorem writers_cons (dk : List K) (ds : List (List K)) (key : K) :
    writers (dk :: ds) key = decide (key ∈ dk) :: writers ds key := rfl

theorem length_insertDirty (dirtyKeys : List (List K)) (key : K) :
    (insertDirty dirtyKeys key).2.length = dirtyKeys.length := by
  cases dirtyKeys <;> rfl

theorem nodup_insertDirty {dirtyKeys : List (List K)} (h : ∀ dk ∈ dirtyKeys, dk.Nodup) (key : K) :
    ∀ dk ∈ (insertDirty dirtyKeys key).2, dk.Nodup := by
  rcases dirtyKeys with _ | ⟨dk, ds⟩
  · simp [insertDirty]
  · intro d hd
    rcases List.mem_cons.mp hd with rfl | hd
    · exact (h dk List.mem_cons_self).insert
    · exact h d (List.mem_cons_of_mem dk hd)

/-- The state after a write of `key` whose new entry is `e`: the source's `set`, `modify` and a
turn of `clear_where` all end so. -/
def written (m : OverlayedMap K V) (key : K) (e : OverlayedEntry V) : OverlayedMap K V :=
  { m with changes := m.changes.insert key e, dirtyKeys := (insertDirty m.dirtyKeys key).2 }

theorem column_written_self (m : OverlayedMap K V) (key : K) (e : OverlayedEntry V) :
    (m.written key e).column key = (some e, markTop (writers m.dirtyKeys key)) := by
  simp [written, column, writers_insertDirty]

theorem column_written_ne (m : OverlayedMap K V) {key k : K} (e : OverlayedEntry V) (h : k ≠ key) :
    (m.written key e).column k = m.column k := by
  simp [written, column, writers_insertDirty, h, AList.lookup_insert_ne h]

/-- What a loop over keys keeps of the state `m₀` it starts from: the dirty sets list each key
once, there are as many, and the client's transactions and the mode stay. -/
def Frame (m₀ m : OverlayedMap K V) : Prop :=
  (∀ dk ∈ m.dirtyKeys, dk.Nodup) ∧ m.dirtyKeys.length = m₀.dirtyKeys.length ∧
    m.numClientTransactions = m₀.numClientTransactions ∧ m.executionMode = m₀.executionMode

theorem frame_written {m₀ m : OverlayedMap K V} (hf : Frame m₀ m) (key : K)
    (e : OverlayedEntry V) : Frame m₀ (m.written key e) :=
  ⟨nodup_insertDirty hf.1 key, (length_insertDirty _ key).trans hf.2.1, hf.2.2⟩

/-- **A write keeps the refinement**, given that the new entry has the values a write of `v`
leaves. -/
theorem written_refines {m : OverlayedMap K V} {s : Snapshots K V} (h : m.Refines s) (key : K)
    {e : OverlayedEntry V} (v : V)
    (he : e.values = v :: if decide ((writers m.dirtyKeys key).head? = some false) ||
      (entryValues (m.changes.lookup key)).isEmpty
      then entryValues (m.changes.lookup key) else (entryValues (m.changes.lookup key)).tail) :
    (m.written key e).Refines (s.set key v) := by
  obtain ⟨hwf, hc⟩ := Column.write_spec (h.wellFormed.column key) v he
  refine ⟨⟨nodup_insertDirty h.wellFormed.nodup key, fun k => ?_⟩, ?_, fun k => ?_,
    h.numClientTransactions, h.executionMode⟩
  · by_cases hk : k = key
    · subst hk
      rw [column_written_self]
      exact hwf
    · rw [column_written_ne m e hk]
      exact h.wellFormed.column k
  · exact (length_insertDirty m.dirtyKeys key).trans h.depth
  · by_cases hk : k = key
    · subst hk
      rw [column_written_self, Snapshots.column_set_self, ← h.column k]
      exact hc
    · rw [column_written_ne m e hk, Snapshots.column_set_ne s v hk]
      exact h.column k

theorem set_eq_written (m : OverlayedMap K V) (key : K) (value : V) (atExtrinsic : Option ℕ) :
    m.set key value atExtrinsic = m.written key
      (((m.changes.lookup key).getD ⟨[]⟩).set value (insertDirty m.dirtyKeys key).1 atExtrinsic) :=
  rfl

theorem set_refines {m : OverlayedMap K V} {s : Snapshots K V} (h : m.Refines s) (key : K)
    (value : V) (atExtrinsic : Option ℕ) :
    (m.set key value atExtrinsic).Refines (s.set key value) := by
  rw [set_eq_written]
  apply written_refines h key value
  rw [OverlayedEntry.values_set, insertDirty_fst, entryValues_eq_getD]

section ChangeSet

variable {W : Type}

theorem modify_eq_written (m : OverlayedMap K (Option W)) (key : K) (init : W)
    (atExtrinsic : Option ℕ) (write : Option W → Option W) :
    ∃ e, m.modify key init atExtrinsic write = m.written key e ∧
      e.values = write ((entryValues (m.changes.lookup key)).head?.getD (some init)) ::
        if decide ((writers m.dirtyKeys key).head? = some false) ||
          (entryValues (m.changes.lookup key)).isEmpty
        then entryValues (m.changes.lookup key) else (entryValues (m.changes.lookup key)).tail := by
  rw [← insertDirty_fst, entryValues_eq_getD]
  unfold modify written
  generalize (m.changes.lookup key).getD ⟨[]⟩ = o
  rcases hd : insertDirty m.dirtyKeys key with ⟨first, d⟩
  rcases o with ⟨_ | ⟨t, ts⟩⟩ <;> cases first <;> cases atExtrinsic <;> exact ⟨_, rfl, rfl⟩

theorem top_eq_head {m : OverlayedMap K V} {s : Snapshots K V} (h : m.Refines s) (key : K) :
    s.top key = (entryValues (m.changes.lookup key)).head? := by
  have hc := h.column key
  rw [Column.snapshots, layers_eq_cons] at hc
  exact (List.cons.inj hc).1.symm

theorem modify_refines {m : OverlayedMap K (Option W)} {s : Snapshots K (Option W)}
    (h : m.Refines s) (key : K) (init : W) (atExtrinsic : Option ℕ) (write : Option W → Option W) :
    (m.modify key init atExtrinsic write).Refines (s.modify key init write) := by
  obtain ⟨e, he, hv⟩ := modify_eq_written m key init atExtrinsic write
  rw [he, Snapshots.modify, top_eq_head h key]
  exact written_refines h key _ hv

theorem clearStep_eq (predicate : K → OverlayedEntry (Option W) → Bool) (atExtrinsic : Option ℕ)
    (acc : OverlayedMap K (Option W) × ℕ) (e : Σ _ : K, OverlayedEntry (Option W)) :
    clearStep predicate atExtrinsic acc e =
      if predicate e.1 e.2 then
        e.2.valueRef.map fun value =>
          (acc.1.written e.1 (e.2.set none (insertDirty acc.1.dirtyKeys e.1).1 atExtrinsic),
            if value.isSome then acc.2 + 1 else acc.2)
      else some acc := by
  unfold clearStep
  split_ifs
  · cases e.2.valueRef <;> rfl
  · rfl

theorem valueRef_eq_head (e : OverlayedEntry V) : e.valueRef = e.values.head? := by
  rcases e with ⟨_ | ⟨t, ts⟩⟩ <;> rfl

theorem valueRef_isSome {e : OverlayedEntry V} (h : e.transactions ≠ []) : e.valueRef.isSome := by
  obtain ⟨t, ts, hts⟩ := List.exists_cons_of_ne_nil h
  simp [OverlayedEntry.valueRef, hts]

/-- **`clear_where`** deletes the value of every changed key the predicate matches, as the model
does, and counts those that had a value; no `expect` fails.  Its loop visits each changed key
once (`foldlM_keyed`), and a turn is a write of `none` (`clearStep_eq`). -/
theorem clearWhere_refines {m : OverlayedMap K (Option W)} {s : Snapshots K (Option W)}
    (h : m.Refines s) (predicate : K → Bool) (atExtrinsic : Option ℕ) :
    ∃ m' count, m.clearWhere (fun k _ => predicate k) atExtrinsic = some (m', count) ∧
      m'.Refines (s.clearWhere predicate) ∧
      count = (m.changes.keys.filter fun k => predicate k && ((s.top k).bind id).isSome).length := by
  let step := clearStep (fun k (_ : OverlayedEntry (Option W)) => predicate k) atExtrinsic
  -- a turn changes the column of its own key only
  have hloc : Local (fun acc : OverlayedMap K (Option W) × ℕ => acc.1.column) Sigma.fst step := by
    intro acc e acc' hrun k hk
    simp only [step, clearStep_eq] at hrun
    split_ifs at hrun
    · obtain ⟨v, -, rfl⟩ := Option.map_eq_some_iff.mp hrun
      exact column_written_ne _ _ hk
    · cases hrun
      rfl
  -- a turn at a key with its entry still there clears it
  have hstep : ∀ acc (e : Σ _ : K, OverlayedEntry (Option W)),
      (acc.1.column e.1).1 = some e.2 ∧ (acc.1.column e.1).WellFormed →
      ∃ acc', step acc e = some acc' ∧ (acc'.1.column e.1).WellFormed ∧
        (acc'.1.column e.1).snapshots = if predicate e.1 then some none ::
          (acc.1.column e.1).snapshots.tail else (acc.1.column e.1).snapshots := by
    rintro acc e ⟨he, hwf⟩
    simp only [step, clearStep_eq]
    by_cases hp : predicate e.1 = true
    · obtain ⟨v, hv⟩ := Option.isSome_iff_exists.mp (valueRef_isSome (hwf.1 e.2 he))
      rw [if_pos hp, if_pos hp, hv, Option.map_some]
      refine ⟨_, rfl, ?_⟩
      rw [column_written_self]
      refine Column.write_spec hwf none ?_
      rw [OverlayedEntry.values_set, insertDirty_fst, he]
      rfl
    · rw [if_neg hp, if_neg hp]
      exact ⟨acc, rfl, hwf, rfl⟩
  have hentries : ∀ e ∈ m.changes.entries, m.changes.lookup e.1 = some e.2 := fun e he =>
    AList.mem_lookup_iff.mpr he
  obtain ⟨acc, hrun, hR, hout⟩ := foldlM_keyed hloc
    (fun e c => c.1 = some e.2 ∧ c.WellFormed)
    (fun e c c' => c'.WellFormed ∧
      c'.snapshots = if predicate e.1 then some none :: c.snapshots.tail else c.snapshots)
    hstep m.changes.entries (m, 0)
    m.changes.nodupKeys (fun e he => ⟨hentries e he, h.wellFormed.column e.1⟩)
  obtain ⟨hnd, hlen, hc, hmode⟩ := foldlM_inv (fun acc => Frame m acc.1)
    (fun acc e acc' hrun hf => by
      simp only [step, clearStep_eq] at hrun
      split_ifs at hrun
      · obtain ⟨v, -, rfl⟩ := Option.map_eq_some_iff.mp hrun
        exact frame_written hf _ _
      · cases hrun
        exact hf)
    _ _ acc hrun ⟨h.wellFormed.nodup, rfl, rfl, rfl⟩
  -- a turn counts its key when the predicate matches it and its value is not deleted
  have hcount := foldlM_countP Prod.snd
    (fun e : Σ _ : K, OverlayedEntry (Option W) => predicate e.1 && (e.2.valueRef.bind id).isSome)
    (fun acc e acc' hrun => by
      simp only [step, clearStep_eq] at hrun
      by_cases hp : predicate e.1 = true
      · rw [if_pos hp] at hrun
        obtain ⟨v, hv, rfl⟩ := Option.map_eq_some_iff.mp hrun
        cases hs : v.isSome <;> simp [hp, hv, hs]
      · rw [if_neg hp] at hrun
        cases hrun
        simp [hp])
    _ _ acc hrun
  -- the value the current transaction sees is the newest snapshot
  have htop : ∀ e ∈ m.changes.entries, e.2.valueRef = s.top e.1 := fun e he => by
    rw [valueRef_eq_head, top_eq_head h, hentries e he]
    rfl
  refine ⟨acc.1, acc.2, hrun, ⟨⟨hnd, fun k => ?_⟩, hlen.trans h.depth, fun k => ?_,
    hc.trans h.numClientTransactions, hmode.trans h.executionMode⟩, ?_⟩
  · by_cases hk : k ∈ m.changes.entries.map Sigma.fst
    · obtain ⟨e, he, rfl⟩ := List.mem_map.mp hk
      exact (hR e he).1
    · rw [hout k hk]
      exact h.wellFormed.column k
  · rw [Snapshots.column_clearWhere]
    by_cases hk : k ∈ m.changes.entries.map Sigma.fst
    · obtain ⟨e, he, rfl⟩ := List.mem_map.mp hk
      obtain ⟨v, hv⟩ : ∃ v, s.top e.1 = some v := by
        rw [← htop e he]
        exact Option.isSome_iff_exists.mp
          (valueRef_isSome (h.wellFormed.column e.1 |>.1 e.2 (hentries e he)))
      rw [(hR e he).2, h.column e.1, hv]
      cases predicate e.1 <;> simp [Snapshots.column, hv]
    · -- a key without a change has no value to delete
      have hnone : s.top k = none := by
        rw [top_eq_head h, AList.lookup_eq_none.mpr hk]
        rfl
      rw [hout k hk, h.column k, hnone, Snapshots.column, hnone]
      simp
  · rw [hcount, Nat.zero_add, ← List.countP_eq_length_filter, AList.keys, List.keys,
      List.countP_map]
    exact List.countP_congr fun e he => by simp [Function.comp, htop e he]

end ChangeSet

/-! ## Opening and closing transactions -/

theorem startTransaction_refines {m : OverlayedMap K V} {s : Snapshots K V} (h : m.Refines s) :
    m.startTransaction.Refines s.startTransaction := by
  refine ⟨⟨fun dk hdk => ?_, fun k => ?_⟩, congrArg (· + 1) h.depth, fun k => ?_,
    h.numClientTransactions, h.executionMode⟩
  · rcases List.mem_cons.mp hdk with rfl | hdk
    · exact List.nodup_nil
    · exact h.wellFormed.nodup dk hdk
  · obtain ⟨hne, hb⟩ := h.wellFormed.column k
    exact ⟨hne, by simpa [startTransaction, column, Balanced] using hb⟩
  · have hc := h.column k
    simp only [column, Column.snapshots] at hc
    simp [startTransaction, column, Column.snapshots, hc, top_eq_head h k]

theorem OverlayedEntry.popTransaction_of_cons {e : OverlayedEntry V} {t : InnerValue V}
    {ts : List (InnerValue V)} (h : e.transactions = t :: ts) :
    e.popTransaction = some (t, ⟨ts⟩) := by
  simp [OverlayedEntry.popTransaction, h]

/-- **Closing one key.** A key the closed transaction wrote has a version for it.  A rollback
drops that version, and the entry with it if it was the last; a commit merges it into the version
below when that belongs to the enclosing transaction or is the committed one, and hands it to the
enclosing transaction otherwise.  Either way the key's column stays well formed and loses the
snapshot the close drops. -/
theorem closeKey_spec (rollback : Bool) (m : OverlayedMap K V) (key : K)
    (hk : Column.WellFormed (m.changes.lookup key, true :: writers m.dirtyKeys key)) :
    ∃ m', m.closeKey rollback key = some m' ∧ (m'.column key).WellFormed ∧
      (m'.column key).snapshots =
        (Column.snapshots (m.changes.lookup key, true :: writers m.dirtyKeys key)).eraseIdx
          (if rollback then 0 else 1) := by
  obtain ⟨hne, hbal⟩ := hk
  -- the transaction wrote the key, so the key has an entry and the entry a version
  obtain ⟨e, he⟩ : ∃ e, m.changes.lookup key = some e := by
    cases hl : m.changes.lookup key with
    | none =>
      rw [hl] at hbal
      simp [Balanced, entryValues] at hbal
    | some e => exact ⟨e, rfl⟩
  obtain ⟨t, ts, hts⟩ := List.exists_cons_of_ne_nil (hne e he)
  have hpop := OverlayedEntry.popTransaction_of_cons hts
  have hvals : entryValues (some e) = t.value :: ts.map (·.value) := by
    simp [entryValues, OverlayedEntry.values, hts]
  rw [he, hvals] at hbal
  simp only [Column.snapshots, he, hvals]
  cases rollback with
  | true =>
    rcases ts with _ | ⟨t₁, ts⟩
    · -- the last version goes, and the entry with it
      have hrun : m.closeKey true key = some { m with changes := m.changes.erase key } := by
        simp [closeKey, he, hpop]
      refine ⟨_, hrun, ⟨by simp [column], ?_⟩, by simp [column, entryValues]⟩
      simpa [column, entryValues, Balanced] using hbal
    · have hrun : m.closeKey true key =
          some { m with changes := m.changes.insert key ⟨t₁ :: ts⟩ } := by
        simp [closeKey, he, hpop]
      refine ⟨_, hrun, ⟨by simp [column], ?_⟩, ?_⟩
      · simpa [column, entryValues, OverlayedEntry.values, Balanced] using hbal
      · simp [column, entryValues, OverlayedEntry.values]
  | false =>
    rcases hd : m.dirtyKeys with _ | ⟨dk, ds⟩
    · -- the closed transaction is the last: merge into the committed version, if there is one
      rw [hd] at hbal
      simp only [writers_nil] at hbal ⊢
      rcases ts with _ | ⟨t₁, _ | ⟨t₂, ts⟩⟩
      · have hrun : m.closeKey false key = some { m with dirtyKeys := [] } := by
          simp [closeKey, he, hd, hts]
        refine ⟨_, hrun, ⟨fun e' he' => ?_, ?_⟩, ?_⟩
        · exact hne e' (by simpa [column] using he')
        · simp [column, he, hvals, Balanced]
        · show layers (entryValues (m.changes.lookup key)) [] = _
          rw [he, hvals]
          rfl
      · have hrun : m.closeKey false key = some { m with
            changes := m.changes.insert key
              ⟨[{ t₁ with value := t.value, extrinsics := t₁.extrinsics.extend t.extrinsics }]⟩
            dirtyKeys := [] } := by
          simp [closeKey, he, hd, hts, hpop, OverlayedEntry.absorb]
        refine ⟨_, hrun, ⟨by simp [column], ?_⟩, ?_⟩
        · simp [column, entryValues, OverlayedEntry.values, Balanced]
        · simp only [column, AList.lookup_insert, writers_nil]
          rfl
      · -- a third version would be one no transaction owns
        simp [Balanced] at hbal
    · rw [hd] at hbal
      simp only [writers_cons] at hbal ⊢
      by_cases hmem : key ∈ dk
      · -- the enclosing transaction wrote the key: merge into its version
        rcases ts with _ | ⟨t₁, ts⟩
        · simp [Balanced, hmem] at hbal
        have hrun : m.closeKey false key = some { m with
            changes := m.changes.insert key
              ⟨{ t₁ with value := t.value, extrinsics := t₁.extrinsics.extend t.extrinsics } :: ts⟩
            dirtyKeys := dk.insert key :: ds } := by
          simp [closeKey, he, hd, hmem, hpop, OverlayedEntry.absorb]
        refine ⟨_, hrun, ⟨by simp [column], ?_⟩, ?_⟩
        · simp only [Balanced, hmem, decide_true, List.count_cons_self, List.length_cons,
            List.length_map] at hbal
          simp [column, entryValues, OverlayedEntry.values, Balanced]
          omega
        · simp [column, entryValues, OverlayedEntry.values, hmem]
      · -- hand the version to the enclosing transaction
        have hrun : m.closeKey false key = some { m with dirtyKeys := dk.insert key :: ds } := by
          simp [closeKey, he, hd, hmem]
        refine ⟨_, hrun, ⟨fun e' he' => ?_, ?_⟩, ?_⟩
        · exact hne e' (by simpa [column] using he')
        · simpa [column, he, hvals, Balanced, hmem] using hbal
        · simp [column, he, hvals, hmem]

/-- What closing a key can change: the entry of that key, and that key in the enclosing
transaction's dirty set. -/
theorem closeKey_inv {rollback : Bool} {m m' : OverlayedMap K V} {key : K}
    (h : m.closeKey rollback key = some m') :
    (∀ k, k ≠ key → m'.changes.lookup k = m.changes.lookup k) ∧
      (m'.dirtyKeys = m.dirtyKeys ∨ m'.dirtyKeys = (insertDirty m.dirtyKeys key).2) ∧
      m'.numClientTransactions = m.numClientTransactions ∧ m'.executionMode = m.executionMode := by
  simp only [closeKey, Option.bind_eq_bind, Option.bind_eq_some_iff] at h
  obtain ⟨e, -, h⟩ := h
  have hins : ∀ (x : OverlayedEntry V) k, k ≠ key →
      (m.changes.insert key x).lookup k = m.changes.lookup k := fun _ _ hk =>
    AList.lookup_insert_ne hk
  cases rollback with
  | true =>
    simp only [if_true, Option.bind_eq_some_iff] at h
    obtain ⟨p, -, h⟩ := h
    split at h <;> (simp only [Option.pure_def, Option.some.injEq] at h; subst h)
    · exact ⟨fun k hk => AList.lookup_erase_ne hk, Or.inl rfl, rfl, rfl⟩
    · exact ⟨hins _, Or.inl rfl, rfl, rfl⟩
  | false =>
    -- a commit changes the enclosing dirty set as a write does
    rcases hd : m.dirtyKeys with _ | ⟨dk, ds⟩ <;>
      simp only [hd, Bool.false_eq_true, if_false] at h <;>
      split at h <;>
      simp only [Option.bind_eq_some_iff, Option.pure_def, Option.some.injEq] at h
    · obtain ⟨_, -, _, -, rfl⟩ := h
      exact ⟨hins _, Or.inl rfl, rfl, rfl⟩
    · subst h
      exact ⟨fun _ _ => rfl, Or.inl rfl, rfl, rfl⟩
    · obtain ⟨_, -, _, -, rfl⟩ := h
      exact ⟨hins _, Or.inr rfl, rfl, rfl⟩
    · subst h
      exact ⟨fun _ _ => rfl, Or.inr rfl, rfl, rfl⟩

theorem closeKey_local (rollback : Bool) :
    Local (column (K := K) (V := V)) id fun m key => m.closeKey rollback key := by
  intro m key m' h k hk
  obtain ⟨hlook, hdirty, -⟩ := closeKey_inv h
  have hk : k ≠ key := hk
  have hw : writers m'.dirtyKeys k = writers m.dirtyKeys k := by
    rcases hdirty with hd | hd <;> rw [hd]
    rw [writers_insertDirty, if_neg hk]
  simp only [column, hlook k hk, hw]

theorem closeKey_frame {rollback : Bool} {m₀ m m' : OverlayedMap K V} {key : K}
    (h : m.closeKey rollback key = some m') (hf : Frame m₀ m) : Frame m₀ m' := by
  obtain ⟨-, hdirty, hc, hmode⟩ := closeKey_inv h
  obtain ⟨hnd, hlen, hc₀, hmode₀⟩ := hf
  refine ⟨?_, ?_, hc.trans hc₀, hmode.trans hmode₀⟩ <;> rcases hdirty with hd | hd <;> rw [hd]
  · exact hnd
  · exact nodup_insertDirty hnd key
  · exact hlen
  · exact (length_insertDirty _ key).trans hlen

/-- The results of a call that may fail: both an error, or states that refine. -/
def RefinesResult {ε : Type} : Except ε (OverlayedMap K V) → Except ε (Snapshots K V) → Prop
  | .ok m, .ok s => m.Refines s
  | .error _, .error _ => True
  | _, _ => False

theorem hasOpenRuntimeTransactions_eq {m : OverlayedMap K V} {s : Snapshots K V}
    (h : m.Refines s) : m.hasOpenRuntimeTransactions = s.hasOpenRuntimeTransactions := by
  simp only [hasOpenRuntimeTransactions, Snapshots.hasOpenRuntimeTransactions,
    h.numClientTransactions, ← h.depth]

theorem Column.wellFormed_of_cons_false {c : Option (OverlayedEntry V)} {ws : List Bool}
    (h : Column.WellFormed (c, false :: ws)) : Column.WellFormed (c, ws) := by
  simpa [Column.WellFormed, Balanced] using h

/-- **Closing a transaction** never fails an `expect`, fails exactly when the model's close does,
and otherwise drops the snapshot the model drops.  Its loop closes the transaction's dirty keys
one by one (`closeKey_spec`); the other keys keep their columns, whose newest snapshot was a copy
of the one below. -/
theorem closeTransaction_refines {m : OverlayedMap K V} {s : Snapshots K V} (h : m.Refines s)
    (rollback : Bool) :
    ∃ r, m.closeTransaction rollback = some r ∧ RefinesResult r (s.closeTransaction rollback) := by
  unfold closeTransaction Snapshots.closeTransaction
  have hg : (m.executionMode = .runtime ∧ m.hasOpenRuntimeTransactions = false) ↔
      (s.executionMode = .runtime ∧ s.hasOpenRuntimeTransactions = false) := by
    rw [hasOpenRuntimeTransactions_eq h, h.executionMode]
  by_cases hguard : m.executionMode = .runtime ∧ m.hasOpenRuntimeTransactions = false
  · rw [if_pos hguard, if_pos (hg.mp hguard)]
    exact ⟨_, rfl, trivial⟩
  rw [if_neg hguard, if_neg (mt hg.mpr hguard)]
  have hdepth := h.depth
  rcases hd : m.dirtyKeys with _ | ⟨dk, rest⟩ <;>
    rcases hb : s.below with _ | ⟨b, bs⟩ <;>
    simp only [transactionDepth, Snapshots.depth, hd, hb, List.length_nil, List.length_cons,
      Nat.add_right_cancel_iff] at hdepth
  · -- no transaction is open
    exact ⟨_, rfl, trivial⟩
  · exact absurd hdepth (Nat.zero_ne_add_one _)
  · exact absurd hdepth.symm (Nat.zero_ne_add_one _)
  -- the keys the transaction wrote, each closed on its own
  have hcol : ∀ k, m.column k = ((m.changes.lookup k), decide (k ∈ dk) :: writers rest k) := by
    intro k
    simp [column, hd]
  obtain ⟨m', hrun, hR, hout⟩ := foldlM_keyed (closeKey_local rollback)
    (fun _ c => Column.WellFormed (c.1, true :: c.2))
    (fun _ c c' => c'.WellFormed ∧
      c'.snapshots = (Column.snapshots (c.1, true :: c.2)).eraseIdx (if rollback then 0 else 1))
    (fun m k hk => closeKey_spec rollback m k hk) dk { m with dirtyKeys := rest }
    (by simpa using h.wellFormed.nodup dk (by simp [hd]))
    (fun k hk => by simpa [column, hd, hk] using h.wellFormed.column k)
  obtain ⟨hnd, hlen, hc, hmode⟩ := foldlM_inv (Frame { m with dirtyKeys := rest })
    (fun _ _ _ hk hf => closeKey_frame hk hf) dk _ m' hrun
    ⟨fun d hd' => h.wellFormed.nodup d (by simp [hd, hd']), rfl, rfl, rfl⟩
  refine ⟨.ok m', by simp [hrun], ?_⟩
  refine ⟨⟨hnd, fun k => ?_⟩, ?_, fun k => ?_, ?_, ?_⟩
  · by_cases hk : k ∈ dk
    · exact (hR k hk).1
    · rw [hout k (by simpa using hk)]
      exact Column.wellFormed_of_cons_false (by simpa [hcol, hk] using h.wellFormed.column k)
  · cases rollback <;> exact hlen.trans hdepth
  · rw [Snapshots.column_close s hb rollback k, ← h.column k, hcol k]
    by_cases hk : k ∈ dk
    · simpa [hk, column] using (hR k hk).2
    · rw [hout k (by simpa using hk)]
      simp only [hk, decide_false, Column.snapshots]
      exact (layers_close_false _ _ rollback).symm
  · cases rollback <;> exact hc.trans h.numClientTransactions
  · cases rollback <;> exact hmode.trans h.executionMode

/-- A close fails exactly with no transaction open, or in the runtime with none the runtime
opened. -/
theorem closeTransaction_error_iff {m : OverlayedMap K V} {s : Snapshots K V} (h : m.Refines s)
    {rollback : Bool} {r : Except NoOpenTransaction (OverlayedMap K V)}
    (hr : RefinesResult r (s.closeTransaction rollback)) :
    r = .error ⟨⟩ ↔ m.transactionDepth = 0 ∨
      m.executionMode = .runtime ∧ m.transactionDepth ≤ m.numClientTransactions := by
  rw [h.depth, h.executionMode, h.numClientTransactions]
  unfold Snapshots.closeTransaction at hr
  by_cases hguard : s.executionMode = .runtime ∧ s.hasOpenRuntimeTransactions = false
  · rw [if_pos hguard] at hr
    cases r with
    | ok => exact hr.elim
    | error =>
      simp only [Snapshots.hasOpenRuntimeTransactions, decide_eq_false_iff_not, not_lt] at hguard
      simp [hguard]
  · rw [if_neg hguard] at hr
    simp only [Snapshots.hasOpenRuntimeTransactions, decide_eq_false_iff_not, not_lt] at hguard
    rcases hb : s.below with _ | ⟨b, bs⟩ <;> rw [hb] at hr
    · cases r with
      | error => simp [Snapshots.depth, hb]
      | ok => exact hr.elim
    · cases r with
      | error => exact hr.elim
      | ok =>
        simp only [Snapshots.depth, hb, List.length_cons, reduceCtorEq, false_iff]
        rintro (h0 | ⟨hm, hle⟩)
        · exact h0
        · exact hguard ⟨hm, by simpa [Snapshots.depth, hb] using hle⟩

/-! ## Entering and leaving the runtime -/

theorem enterRuntime_refines {m : OverlayedMap K V} {s : Snapshots K V} (h : m.Refines s) :
    RefinesResult m.enterRuntime s.enterRuntime := by
  unfold enterRuntime Snapshots.enterRuntime
  rw [h.executionMode]
  cases s.executionMode with
  | runtime => trivial
  | client =>
    exact { h with wellFormed := ⟨h.wellFormed.nodup, h.wellFormed.column⟩,
                   numClientTransactions := h.depth, executionMode := rfl }

/-- The loop of `exit_runtime` rolls back `min fuel (depth - numClientTransactions)`
transactions, every rollback succeeding. -/
theorem rollbackDangling_refines (fuel : ℕ) {m : OverlayedMap K V} {s : Snapshots K V}
    (h : m.Refines s) (hmode : s.executionMode = .client) :
    ∃ m', m.rollbackDangling fuel = some m' ∧
      m'.Refines (s.dropNewest (min fuel (s.depth - s.numClientTransactions))) := by
  induction fuel generalizing m s with
  | zero => exact ⟨m, rfl, h⟩
  | succ n ih =>
    unfold rollbackDangling
    rw [hasOpenRuntimeTransactions_eq h]
    by_cases hopen : s.hasOpenRuntimeTransactions = true
    · rw [if_pos hopen]
      have hlt : s.numClientTransactions < s.depth := of_decide_eq_true hopen
      obtain ⟨b, bs, hb⟩ : ∃ b bs, s.below = b :: bs :=
        List.exists_cons_of_length_pos (Nat.lt_of_le_of_lt (Nat.zero_le _) hlt)
      -- in the client, a rollback with a transaction open succeeds
      obtain ⟨r, hr, hres⟩ := closeTransaction_refines h true
      have hclose : s.closeTransaction true = .ok { s with top := b, below := bs } := by
        simp [Snapshots.closeTransaction, hmode, hb]
      rw [hclose] at hres
      cases r with
      | error => exact hres.elim
      | ok m₁ =>
        obtain ⟨m', hrun, h'⟩ := ih hres hmode
        refine ⟨m', by rw [rollbackTransaction, hr]; exact hrun, ?_⟩
        have hd : s.depth = bs.length + 1 := by simp [Snapshots.depth, hb]
        have hmin : min (n + 1) (s.depth - s.numClientTransactions) =
            min n (bs.length - s.numClientTransactions) + 1 := by
          rw [hd] at hlt ⊢
          omega
        rw [hmin, Snapshots.dropNewest, hb]
        exact h'
    · rw [if_neg hopen]
      have hle : s.depth - s.numClientTransactions = 0 := by
        simp only [Snapshots.hasOpenRuntimeTransactions, decide_eq_true_eq] at hopen
        omega
      rw [hle, Nat.min_zero]
      exact ⟨m, rfl, h⟩

/-- Leaving the runtime rolls back every transaction above the client's, without failing an
`expect`. -/
theorem exitRuntime_refines {m : OverlayedMap K V} {s : Snapshots K V} (h : m.Refines s) :
    ∃ r, m.exitRuntime = some r ∧ RefinesResult r s.exitRuntime := by
  unfold exitRuntime Snapshots.exitRuntime
  rw [h.executionMode]
  cases s.executionMode with
  | client => exact ⟨_, rfl, trivial⟩
  | runtime =>
    have hc : ({ m with executionMode := .client } : OverlayedMap K V).Refines
        { s with executionMode := .client } :=
      { h with wellFormed := ⟨h.wellFormed.nodup, h.wellFormed.column⟩, executionMode := rfl }
    obtain ⟨m', hrun, h'⟩ := rollbackDangling_refines m.transactionDepth hc rfl
    refine ⟨.ok m', by rw [hrun]; rfl, ?_⟩
    have hmin : min m.transactionDepth (s.depth - s.numClientTransactions) =
        s.depth - s.numClientTransactions := by
      rw [h.depth]
      exact Nat.min_eq_right (Nat.sub_le _ _)
    change m'.Refines (Snapshots.dropNewest (min m.transactionDepth
      (s.depth - s.numClientTransactions)) _) at h'
    rw [hmin] at h'
    exact h'

/-! ## What a refining overlay shows -/

theorem get_valueRef {m : OverlayedMap K V} {s : Snapshots K V} (h : m.Refines s) (key : K) :
    (m.get key).bind OverlayedEntry.valueRef = s.top key ∧ (key ∈ m.changes ↔ (s.top key).isSome) := by
  rw [top_eq_head h, get]
  cases hl : m.changes.lookup key with
  | none => exact ⟨rfl, by simpa [entryValues] using AList.lookup_eq_none.mp hl⟩
  | some e =>
    have hne := (h.wellFormed.column key).1 e (by simp [column, hl])
    refine ⟨valueRef_eq_head e, ?_⟩
    rw [← AList.lookup_isSome, hl]
    simpa [entryValues, OverlayedEntry.values] using hne

/-- **Draining with no transaction open** never fails its `assert` or `expect`, and yields the
committed value of every changed key, in the order of the changes. -/
theorem drainCommitted_refines [Inhabited V] {m : OverlayedMap K V} {s : Snapshots K V}
    (h : m.Refines s) (h0 : s.depth = 0) :
    ∃ l, m.drainCommitted = some l ∧ l.map Prod.fst = m.changes.keys ∧
      ∀ k v, (k, v) ∈ l ↔ s.top k = some v := by
  have hentries : ∀ e ∈ m.changes.entries, m.changes.lookup e.1 = some e.2 := fun e he =>
    AList.mem_lookup_iff.mpr he
  -- every entry has a version, the newest snapshot's value
  have hhead : ∀ e ∈ m.changes.entries, ∃ t ts, e.2.transactions = t :: ts ∧
      s.top e.1 = some t.value := by
    intro e he
    obtain ⟨t, ts, hts⟩ := List.exists_cons_of_ne_nil
      ((h.wellFormed.column e.1).1 e.2 (hentries e he))
    refine ⟨t, ts, hts, ?_⟩
    rw [top_eq_head h, hentries e he]
    simp [entryValues, OverlayedEntry.values, hts]
  refine ⟨m.changes.entries.map fun e => (e.1, (e.2.values.head?).getD default), ?_, ?_, ?_⟩
  · rw [drainCommitted, if_pos (h.depth.trans h0)]
    refine Lib.ForLoop.mapM_of_forall fun e he => ?_
    obtain ⟨t, ts, hts, -⟩ := hhead e he
    simp [OverlayedEntry.popTransaction_of_cons hts, OverlayedEntry.values, hts]
  · simp [AList.keys, List.keys]
  · intro k v
    constructor
    · intro hmem
      obtain ⟨e, he, hkv⟩ := List.mem_map.mp hmem
      obtain ⟨t, ts, hts, htop⟩ := hhead e he
      obtain ⟨rfl, rfl⟩ := Prod.mk.inj hkv
      simp [htop, OverlayedEntry.values, hts]
    · intro hv
      obtain ⟨e, he⟩ : ∃ e, m.changes.lookup k = some e := by
        cases hl : m.changes.lookup k with
        | none =>
          rw [top_eq_head h, hl] at hv
          cases hv
        | some e => exact ⟨e, rfl⟩
      have hmem : (⟨k, e⟩ : Σ _ : K, OverlayedEntry V) ∈ m.changes.entries :=
        AList.mem_lookup_iff.mp he
      obtain ⟨t, ts, hts, htop⟩ := hhead _ hmem
      rw [hv, Option.some.injEq] at htop
      have hts : e.transactions = t :: ts := hts
      refine List.mem_map.mpr ⟨_, hmem, ?_⟩
      simp [htop, OverlayedEntry.values, hts]

/-! ## Runs of calls -/

section Run

variable {W : Type}

/-- A call of the interface; one that returns an error leaves the change set as it was, and
`none` is a failed `expect`. -/
def call (m : OverlayedMap K (Option W)) : Call K W → Option (OverlayedMap K (Option W))
  | .set key value atExtrinsic => some (m.set key value atExtrinsic)
  | .modify key init atExtrinsic write => some (m.modify key init atExtrinsic write)
  | .clearWhere predicate atExtrinsic => (m.clearWhere (fun k _ => predicate k) atExtrinsic).map (·.1)
  | .startTransaction => some m.startTransaction
  | .commitTransaction => m.commitTransaction.map fun r => r.toOption.getD m
  | .rollbackTransaction => m.rollbackTransaction.map fun r => r.toOption.getD m
  | .enterRuntime => some (m.enterRuntime.toOption.getD m)
  | .exitRuntime => m.exitRuntime.map fun r => r.toOption.getD m

theorem RefinesResult.getD {ε : Type} {r : Except ε (OverlayedMap K V)}
    {r' : Except ε (Snapshots K V)} (hr : RefinesResult r r') {m : OverlayedMap K V}
    {s : Snapshots K V} (h : m.Refines s) : (r.toOption.getD m).Refines (r'.toOption.getD s) := by
  cases r <;> cases r'
  · exact h
  · exact hr.elim
  · exact hr.elim
  · exact hr

/-- **Every call refines the model's call**, and none fails an `expect`. -/
theorem call_refines {m : OverlayedMap K (Option W)} {s : Snapshots K (Option W)} (h : m.Refines s)
    (c : Call K W) : ∃ m', m.call c = some m' ∧ m'.Refines (s.call c) := by
  cases c with
  | set key value atExtrinsic => exact ⟨_, rfl, set_refines h key value atExtrinsic⟩
  | modify key init atExtrinsic write => exact ⟨_, rfl, modify_refines h key init atExtrinsic write⟩
  | clearWhere predicate atExtrinsic =>
    obtain ⟨m', count, hrun, h', -⟩ := clearWhere_refines h predicate atExtrinsic
    exact ⟨m', by simp [call, hrun], h'⟩
  | startTransaction => exact ⟨_, rfl, startTransaction_refines h⟩
  | commitTransaction =>
    obtain ⟨r, hr, hres⟩ := closeTransaction_refines h false
    exact ⟨_, by simp [call, commitTransaction, hr], hres.getD h⟩
  | rollbackTransaction =>
    obtain ⟨r, hr, hres⟩ := closeTransaction_refines h true
    exact ⟨_, by simp [call, rollbackTransaction, hr], hres.getD h⟩
  | enterRuntime => exact ⟨_, rfl, (enterRuntime_refines h).getD h⟩
  | exitRuntime =>
    obtain ⟨r, hr, hres⟩ := exitRuntime_refines h
    exact ⟨_, by simp [call, hr], hres.getD h⟩

theorem empty_refines : (empty : OverlayedMap K V).Refines Snapshots.empty := by
  refine ⟨⟨fun dk hdk => (List.not_mem_nil hdk).elim, fun k => ⟨fun e he => ?_, ?_⟩⟩, rfl,
    fun k => rfl, rfl, rfl⟩
  · cases he
  · simp [Balanced, column, empty, entryValues]

/-- **Every run of calls from the empty overlay** runs without failing an `expect`, and refines the
same run of the model: at every key, each open transaction's snapshot and the committed changes
are those of the stack of snapshots.  In particular the changed keys are those with a value in the
newest snapshot, and the value a key's entry shows is that value. -/
theorem run_refines (calls : List (Call K W)) :
    ∃ m, calls.foldlM call (empty : OverlayedMap K (Option W)) = some m ∧
      m.Refines (calls.foldl Snapshots.call Snapshots.empty) ∧
      ∀ key, (m.get key).bind OverlayedEntry.valueRef =
          (calls.foldl Snapshots.call Snapshots.empty).top key ∧
        (key ∈ m.changes ↔ ((calls.foldl Snapshots.call Snapshots.empty).top key).isSome) := by
  obtain ⟨m, hrun, h⟩ := foldlM_simulation Refines (fun _ _ c h => call_refines h c) calls
    empty Snapshots.empty empty_refines
  exact ⟨m, hrun, h, get_valueRef h⟩

/-- **Closing a transaction from any reachable state** never fails an `expect`, and returns
`NoOpenTransaction` exactly when no transaction is open, or in the runtime when every open
transaction is the client's. -/
theorem run_closeTransaction (calls : List (Call K W)) (rollback : Bool) :
    ∃ m, calls.foldlM call (empty : OverlayedMap K (Option W)) = some m ∧
      ∃ r, m.closeTransaction rollback = some r ∧
        (r = .error ⟨⟩ ↔ m.transactionDepth = 0 ∨
          m.executionMode = .runtime ∧ m.transactionDepth ≤ m.numClientTransactions) := by
  obtain ⟨m, hrun, h⟩ := foldlM_simulation Refines (fun _ _ c h => call_refines h c) calls
    empty Snapshots.empty empty_refines
  obtain ⟨r, hr, hres⟩ := closeTransaction_refines h rollback
  exact ⟨m, hrun, r, hr, closeTransaction_error_iff h hres⟩

/-- **Draining after a run that leaves no transaction open** never fails, and yields, each changed
key once, the value the model commits. -/
theorem run_drainCommitted (calls : List (Call K W))
    (hdepth : (calls.foldl Snapshots.call Snapshots.empty).depth = 0) :
    ∃ m l, calls.foldlM call (empty : OverlayedMap K (Option W)) = some m ∧
      m.drainCommitted = some l ∧ l.map Prod.fst = m.changes.keys ∧
      ∀ k v, (k, v) ∈ l ↔ (calls.foldl Snapshots.call Snapshots.empty).top k = some v := by
  obtain ⟨m, hrun, h⟩ := foldlM_simulation Refines (fun _ _ c h => call_refines h c) calls
    empty Snapshots.empty empty_refines
  obtain ⟨l, hl, hkeys, hmem⟩ := drainCommitted_refines h hdepth
  exact ⟨m, l, hrun, hl, hkeys, hmem⟩

/-- A transaction that writes a key and commits: the drain has the written value. -/
theorem run_drainCommitted_commit :
    ((([.startTransaction, .set 0 (some 1) none, .commitTransaction] : List (Call ℕ ℕ)).foldl
      Snapshots.call Snapshots.empty).depth = 0) ∧
    ∃ m l, ([.startTransaction, .set 0 (some 1) none, .commitTransaction] : List (Call ℕ ℕ)).foldlM
        call (empty : OverlayedMap ℕ (Option ℕ)) = some m ∧
      m.drainCommitted = some l ∧ l.map Prod.fst = m.changes.keys ∧
      ∀ k v, (k, v) ∈ l ↔ (([.startTransaction, .set 0 (some 1) none, .commitTransaction] :
        List (Call ℕ ℕ)).foldl Snapshots.call Snapshots.empty).top k = some v :=
  ⟨rfl, run_drainCommitted _ rfl⟩

end Run

end OverlayedMap

end PolkadotSdk.StateMachine
