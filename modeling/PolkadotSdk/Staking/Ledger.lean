import PolkadotSdk.Arithmetic.PerThings

/-!
# The staking ledger

`StakingLedger` of `frame/staking` keeps a stash's `total` bonded balance as its `active` part
plus the `unlocking` chunks, each a value that becomes free at an era. Three methods move
balance between these parts:

* `consolidate_unlocked(current_era)` drops the chunks whose era has come and takes them off
  `total`;
* `rebond(value)` moves up to `value` from the newest chunks back to `active`;
* `slash(slash_amount, minimum_balance, slash_era)` takes `slash_amount` from `active` and the
  chunks. When a chunk unlocks at `slash_era + BondingDuration` or later, the slash is
  proportional: every target gives the same share, the `Perquintill` ratio of the slash to the
  balance of `active` and the chunks from the first such one on, rounded up. Otherwise `active`
  and then the chunks, newest first, are slashed in full. A target left below `minimum_balance`
  is wiped as dust.

Balances are a `BitVec` of an unsigned type `B` (`BalanceOf<T>`); eras are `u32`. The other
fields of the ledger (its stash, controller and claimed rewards) are read by none of these
methods, and the `on_slash` event is left out.
-/

namespace PolkadotSdk.Staking

open PolkadotSdk.Arithmetic PolkadotSdk.Lib.Unsigned Rational PerThings

/-- `UnlockChunk`: `value` becomes free at `era`. -/
structure UnlockChunk (B : UnsignedPrim) where
  value : BitVec B.bits
  era : BitVec 32
  deriving DecidableEq, Repr

/-- The balances of a `StakingLedger`. -/
structure StakingLedger (B : UnsignedPrim) where
  total : BitVec B.bits
  active : BitVec B.bits
  unlocking : List (UnlockChunk B)
  deriving DecidableEq, Repr

variable {B : UnsignedPrim}

/-- `Perquintill`, whose parts are a `u64`. -/
abbrev Perquintill : Type := BitVec PerThingType.perquintill.inner.bits

/-- The sum of the chunks' values. -/
def chunkSum (u : List (UnlockChunk B)) : ℕ := (u.map fun c => c.value.toNat).sum

namespace StakingLedger

/-! ## `consolidate_unlocked` and `rebond` -/

/-- The `filter` of `consolidate_unlocked`: a chunk whose era is past `currentEra` is kept, any
other is taken off `total`. -/
def consolidateLoop (currentEra : BitVec 32) :
    List (UnlockChunk B) → BitVec B.bits → List (UnlockChunk B) × BitVec B.bits
  | [], total => ([], total)
  | chunk :: rest, total =>
    if chunk.era > currentEra then
      let r := consolidateLoop currentEra rest total
      (chunk :: r.1, r.2)
    else consolidateLoop currentEra rest (saturatingSub total chunk.value)

/-- `consolidate_unlocked`. -/
def consolidateUnlocked (l : StakingLedger B) (currentEra : BitVec 32) : StakingLedger B :=
  let r := consolidateLoop currentEra l.unlocking l.total
  { l with total := r.2, unlocking := r.1 }

/-- The loop of `rebond` over the chunks, newest first: a chunk that fits in what is left to
rebond is popped whole, and the loop stops once `unlocking_balance` reaches `value`; otherwise the
chunk gives what is left. -/
def rebondLoop (value : BitVec B.bits) :
    List (UnlockChunk B) → BitVec B.bits → BitVec B.bits →
      List (UnlockChunk B) × BitVec B.bits × BitVec B.bits
  | [], unlockingBalance, active => ([], unlockingBalance, active)
  | last :: rest, unlockingBalance, active =>
    if saturatingAdd unlockingBalance last.value ≤ value then
      let unlockingBalance := unlockingBalance + last.value
      let active := active + last.value
      if unlockingBalance ≥ value then (rest, unlockingBalance, active)
      else rebondLoop value rest unlockingBalance active
    else
      let diff := saturatingSub value unlockingBalance
      -- here `unlocking_balance < value`, so `diff = value - unlocking_balance` exactly and
      -- `unlocking_balance + diff ≥ value` always holds: the source's `break` follows
      ({ last with value := last.value - diff } :: rest, unlockingBalance + diff, active + diff)

/-- `rebond`: the ledger and the amount rebonded. -/
def rebond (l : StakingLedger B) (value : BitVec B.bits) : StakingLedger B × BitVec B.bits :=
  let r := rebondLoop value l.unlocking.reverse 0 l.active
  ({ l with active := r.2.2, unlocking := r.1.reverse }, r.2.1)

/-! ## `slash` -/

section Slash

variable (maybeProportional : Option Perquintill) (minimumBalance : BitVec B.bits)

/-- What `slash_out_of` would take from a target before the caps: the target's share of a
proportional slash, or all that remains to slash. -/
def slashShare (target slashRemaining : BitVec B.bits) : BitVec B.bits :=
  match maybeProportional with
  | some ratio => PerThingType.perquintill.mulCeil B ratio target
  | none => slashRemaining

/-- The closure `slash_out_of`: the target, the remaining slash and the total after slashing the
target. -/
def slashOutOf (target slashRemaining total : BitVec B.bits) :
    BitVec B.bits × BitVec B.bits × BitVec B.bits :=
  let slashFromTarget := min (min (slashShare maybeProportional target slashRemaining) target)
    slashRemaining
  let target' := target - slashFromTarget
  -- a target left below the minimum balance is dust and is slashed whole
  let (target', slashFromTarget) :=
    if target' < minimumBalance then (0, saturatingAdd target' slashFromTarget)
    else (target', slashFromTarget)
  (target', saturatingSub slashRemaining slashFromTarget, saturatingSub total slashFromTarget)

/-- The loop of `slash` over the chunk indices in priority order, stopping once nothing remains
to slash. -/
def slashChunks : List ℕ → List (UnlockChunk B) → BitVec B.bits → BitVec B.bits →
    List (UnlockChunk B) × BitVec B.bits × BitVec B.bits
  | [], unlocking, remaining, total => (unlocking, remaining, total)
  | i :: is, unlocking, remaining, total =>
    if remaining = 0 then (unlocking, remaining, total)
    else
      match unlocking[i]? with
      | none => (unlocking, remaining, total)
      | some chunk =>
        let r := slashOutOf maybeProportional minimumBalance chunk.value remaining total
        slashChunks is (unlocking.set i { chunk with value := r.1 }) r.2.1 r.2.2

end Slash

/-- `unbonding_affected_balance`: the chunks from index `first` on, summed with saturation. -/
def unbondingAffectedBalance (l : StakingLedger B) (first : ℕ) : BitVec B.bits :=
  (List.range' first (l.unlocking.length - first)).foldl (fun sum i =>
    match l.unlocking[i]? with
    | some chunk => saturatingAdd sum chunk.value
    | none => sum) 0

/-- The ratio of a proportional slash: the slash over the affected balance, rounded up, or one
where that fails. -/
def proportionalRatio (slashAmount affectedBalance : BitVec B.bits) : Perquintill :=
  match PerThingType.perquintill.fromRationalWithRounding B slashAmount affectedBalance .up with
  | .ok ratio => ratio
  | .error () => PerThingType.perquintill.accuracyInner

/-- Where a slash of `slashAmount` for `slashEra` starts, and the order of the chunks it takes
from: proportional with the ratio when a chunk unlocks at `slashEra + bondingDuration` or later,
the chunks from the first such one on and then the earlier ones backwards; otherwise the chunks
newest first. -/
def slashPlan (bondingDuration : BitVec 32) (l : StakingLedger B) (slashAmount : BitVec B.bits)
    (slashEra : BitVec 32) : Option Perquintill × List ℕ :=
  let slashableChunksStart := saturatingAdd slashEra bondingDuration
  match l.unlocking.findIdx? (fun c => c.era ≥ slashableChunksStart) with
  | some firstSlashableIndex =>
    let affectedIndices :=
      List.range' firstSlashableIndex (l.unlocking.length - firstSlashableIndex)
    let affectedBalance :=
      saturatingAdd l.active (l.unbondingAffectedBalance firstSlashableIndex)
    (some (proportionalRatio slashAmount affectedBalance),
      affectedIndices ++ (List.range firstSlashableIndex).reverse)
  | none => (none, (List.range l.unlocking.length).reverse)

/-- `slash` up to the `retain`: `active`, the chunks with their slashed values, and `total`. -/
def slashParts (bondingDuration : BitVec 32) (l : StakingLedger B)
    (slashAmount minimumBalance : BitVec B.bits) (slashEra : BitVec 32) :
    BitVec B.bits × List (UnlockChunk B) × BitVec B.bits :=
  let plan := l.slashPlan bondingDuration slashAmount slashEra
  let a := slashOutOf plan.1 minimumBalance l.active slashAmount l.total
  let c := slashChunks plan.1 minimumBalance plan.2 l.unlocking a.2.1 a.2.2
  (a.1, c.1, c.2.2)

/-- `slash`: the ledger with the chunks slashed to zero removed, and the amount slashed. -/
def slash (bondingDuration : BitVec 32) (l : StakingLedger B)
    (slashAmount minimumBalance : BitVec B.bits) (slashEra : BitVec 32) :
    StakingLedger B × BitVec B.bits :=
  if slashAmount = 0 then (l, 0)
  else
    let p := l.slashParts bondingDuration slashAmount minimumBalance slashEra
    ({ total := p.2.2, active := p.1, unlocking := p.2.1.filter (·.value != 0) },
      saturatingSub l.total p.2.2)

end StakingLedger

/-! ## Sums of chunks -/

section ChunkSum

@[simp] theorem chunkSum_nil : chunkSum ([] : List (UnlockChunk B)) = 0 := rfl

@[simp] theorem chunkSum_cons (c : UnlockChunk B) (u : List (UnlockChunk B)) :
    chunkSum (c :: u) = c.value.toNat + chunkSum u := by
  simp [chunkSum]

theorem chunkSum_append (u v : List (UnlockChunk B)) :
    chunkSum (u ++ v) = chunkSum u + chunkSum v := by
  simp [chunkSum]

theorem chunkSum_reverse (u : List (UnlockChunk B)) : chunkSum u.reverse = chunkSum u := by
  simp [chunkSum]

theorem chunkSum_take_add_drop (u : List (UnlockChunk B)) (k : ℕ) :
    chunkSum (u.take k) + chunkSum (u.drop k) = chunkSum u := by
  rw [← chunkSum_append, List.take_append_drop]

theorem chunkSum_set (u : List (UnlockChunk B)) {i : ℕ} (hi : i < u.length) (c : UnlockChunk B) :
    chunkSum (u.set i c) + u[i].value.toNat = chunkSum u + c.value.toNat := by
  induction u generalizing i with
  | nil => cases hi
  | cons a u ih =>
    cases i with
    | zero => simp only [List.set_cons_zero, chunkSum_cons, List.getElem_cons_zero]; omega
    | succ i =>
      have := ih (Nat.lt_of_succ_lt_succ hi)
      simp only [List.set_cons_succ, chunkSum_cons, List.getElem_cons_succ]
      omega

theorem chunkSum_filter_ne_zero (u : List (UnlockChunk B)) :
    chunkSum (u.filter (·.value != 0)) = chunkSum u := by
  induction u with
  | nil => rfl
  | cons c u ih =>
    rw [List.filter_cons]
    split
    · rw [chunkSum_cons, chunkSum_cons, ih]
    · next h =>
      have hc : c.value = 0 := by simpa using h
      rw [chunkSum_cons, ih, hc]
      simp

theorem le_chunkSum_of_mem {u : List (UnlockChunk B)} {c : UnlockChunk B} (hc : c ∈ u) :
    c.value.toNat ≤ chunkSum u := by
  induction u with
  | nil => cases hc
  | cons a u ih =>
    rw [chunkSum_cons]
    rcases List.mem_cons.mp hc with rfl | hc
    · omega
    · have := ih hc; omega

end ChunkSum

namespace StakingLedger

/-! ## What `consolidate_unlocked` and `rebond` do -/

section Consolidate

variable (currentEra : BitVec 32)

/-- The filter keeps the chunks past `currentEra` and takes the others off `total`. -/
theorem consolidateLoop_eq (u : List (UnlockChunk B)) (total : BitVec B.bits) :
    (consolidateLoop currentEra u total).1 = u.filter (fun c => decide (c.era > currentEra)) ∧
      (consolidateLoop currentEra u total).2.toNat =
        total.toNat - chunkSum (u.filter fun c => !decide (c.era > currentEra)) := by
  induction u generalizing total with
  | nil => exact ⟨rfl, by simp [consolidateLoop]⟩
  | cons c u ih =>
    by_cases hc : c.era > currentEra
    · obtain ⟨h1, h2⟩ := ih total
      simp only [consolidateLoop, if_pos hc]
      simp [hc, h1, h2]
    · obtain ⟨h1, h2⟩ := ih (saturatingSub total c.value)
      simp only [consolidateLoop, if_neg hc]
      rw [toNat_saturatingSub] at h2
      refine ⟨by simp [hc, h1], ?_⟩
      simp only [h2, List.filter_cons, hc, decide_false, Bool.not_false, if_true, chunkSum_cons]
      omega

end Consolidate

section Rebond

variable (value : BitVec B.bits)

/-- The loop over the chunks newest first, from `unlocking_balance = ub`: it rebonds
`min(value, ub + Σ chunks) - ub`, and leaves the chunks after popping some and shrinking at most
the next one. -/
theorem rebondLoop_spec (rs : List (UnlockChunk B)) (ub active : BitVec B.bits)
    (hub : ub.toNat ≤ value.toNat) (hbound : ub.toNat + chunkSum rs < 2 ^ B.bits)
    (hactive : active.toNat + chunkSum rs < 2 ^ B.bits) :
    (rebondLoop value rs ub active).2.1.toNat = min value.toNat (ub.toNat + chunkSum rs) ∧
      (rebondLoop value rs ub active).2.2.toNat =
        active.toNat + ((rebondLoop value rs ub active).2.1.toNat - ub.toNat) ∧
      chunkSum (rebondLoop value rs ub active).1 +
        ((rebondLoop value rs ub active).2.1.toNat - ub.toNat) = chunkSum rs ∧
      ∃ k front, front.length ≤ 1 ∧ k + front.length ≤ rs.length ∧
        (rebondLoop value rs ub active).1 = front ++ rs.drop (k + front.length) ∧
        ∀ c' ∈ front, ∃ c, rs[k]? = some c ∧ c'.era = c.era ∧ c'.value.toNat ≤ c.value.toNat := by
  induction rs generalizing ub active with
  | nil =>
    refine ⟨by simp [rebondLoop]; omega, by simp [rebondLoop], by simp [rebondLoop], 0, [],
      by simp, by simp, by simp [rebondLoop], by simp⟩
  | cons last rest ih =>
    simp only [chunkSum_cons] at hbound hactive
    have hlast : (ub + last.value).toNat = ub.toNat + last.value.toNat := by
      rw [BitVec.toNat_add, Nat.mod_eq_of_lt (by omega)]
    have hlastA : (active + last.value).toNat = active.toNat + last.value.toNat := by
      rw [BitVec.toNat_add, Nat.mod_eq_of_lt (by omega)]
    by_cases hfit : saturatingAdd ub last.value ≤ value
    · -- the chunk is popped whole
      have hfit' : ub.toNat + last.value.toNat ≤ value.toNat := by
        rw [BitVec.le_def, toNat_saturatingAdd] at hfit
        omega
      by_cases hdone : ub + last.value ≥ value
      · have hdone' : value.toNat ≤ ub.toNat + last.value.toNat := by
          rw [ge_iff_le, BitVec.le_def, hlast] at hdone
          exact hdone
        simp only [rebondLoop, if_pos hfit, if_pos hdone, chunkSum_cons]
        refine ⟨by rw [hlast]; omega, by rw [hlastA, hlast]; omega, by rw [hlast]; omega,
          1, [], by simp, by simp, by simp, by simp⟩
      · have hlt : ub.toNat + last.value.toNat < value.toNat := by
          rw [ge_iff_le, BitVec.le_def, hlast] at hdone
          omega
        obtain ⟨h1, h2, h3, k, front, hfront, hk, hr, hc⟩ :=
          ih (ub + last.value) (active + last.value) (by omega) (by omega) (by omega)
        simp only [rebondLoop, if_pos hfit, if_neg hdone, chunkSum_cons]
        rw [hlast] at h1 h2 h3
        rw [hlastA] at h2
        refine ⟨by rw [h1]; omega, by rw [h2]; omega, by omega, k + 1, front, hfront,
          by simp only [List.length_cons]; omega, ?_, by simpa using hc⟩
        rw [hr, show k + 1 + front.length = k + front.length + 1 by omega, List.drop_succ_cons]
    · -- the chunk gives what is left to rebond, and the loop stops
      have hover : value.toNat < ub.toNat + last.value.toNat := by
        rw [BitVec.le_def, toNat_saturatingAdd] at hfit
        omega
      have hdiff : (saturatingSub value ub).toNat = value.toNat - ub.toNat := toNat_saturatingSub ..
      have hub' : (ub + saturatingSub value ub).toNat = value.toNat := by
        rw [BitVec.toNat_add, hdiff, Nat.mod_eq_of_lt (by omega)]
        omega
      have hact' : (active + saturatingSub value ub).toNat =
          active.toNat + (value.toNat - ub.toNat) := by
        rw [BitVec.toNat_add, hdiff, Nat.mod_eq_of_lt (by omega)]
      have hval : (last.value - saturatingSub value ub).toNat =
          last.value.toNat - (value.toNat - ub.toNat) := by
        rw [BitVec.toNat_sub_of_le (by rw [BitVec.le_def, hdiff]; omega), hdiff]
      simp only [rebondLoop, if_neg hfit, chunkSum_cons]
      refine ⟨by rw [hub']; omega, by rw [hact', hub'], by rw [hval, hub']; omega, 0,
        [{ last with value := last.value - saturatingSub value ub }], by simp, by simp, by simp,
        ?_⟩
      simp only [List.mem_singleton, forall_eq]
      exact ⟨last, rfl, rfl, by rw [hval]; omega⟩

/-- **`rebond`**: it rebonds `min(value, Σ unlocking)` into `active`, keeping `total`, by popping
the newest chunks and shrinking at most the chunk before them. -/
theorem rebond_spec (l : StakingLedger B)
    (hbound : l.active.toNat + chunkSum l.unlocking < 2 ^ B.bits) :
    (l.rebond value).1.total = l.total ∧
      (l.rebond value).2.toNat = min value.toNat (chunkSum l.unlocking) ∧
      (l.rebond value).1.active.toNat = l.active.toNat + (l.rebond value).2.toNat ∧
      chunkSum l.unlocking = chunkSum (l.rebond value).1.unlocking + (l.rebond value).2.toNat ∧
      ∃ k rest, rest.length ≤ 1 ∧ k + rest.length ≤ l.unlocking.length ∧
        (l.rebond value).1.unlocking = l.unlocking.take k ++ rest ∧
        ∀ c' ∈ rest, ∃ c, l.unlocking[k]? = some c ∧ c'.era = c.era ∧
          c'.value.toNat ≤ c.value.toNat := by
  have h0 : (0 : BitVec B.bits).toNat = 0 := rfl
  obtain ⟨h1, h2, h3, k, front, hfront, hk, hr, hc⟩ :=
    rebondLoop_spec value l.unlocking.reverse 0 l.active (by rw [h0]; omega)
      (by rw [h0, chunkSum_reverse]; omega) (by rw [chunkSum_reverse]; omega)
  rw [h0, chunkSum_reverse] at h1 h3
  rw [h0] at h2
  simp only [Nat.sub_zero, Nat.zero_add] at h1 h2 h3
  simp only [List.length_reverse] at hk
  refine ⟨rfl, h1, h2, ?_, l.unlocking.length - (k + front.length), front.reverse,
    by simpa using hfront, by simp only [List.length_reverse]; omega, ?_, ?_⟩
  · simp only [rebond, chunkSum_reverse]
    omega
  · simp only [rebond, hr, List.reverse_append, List.drop_reverse, List.reverse_reverse]
  · intro c' hc'
    obtain ⟨c, hck, hera, hval⟩ := hc c' (List.mem_reverse.mp hc')
    refine ⟨c, ?_, hera, hval⟩
    -- the shrunk chunk is the `k`-th newest, just before the popped ones
    have hlen : front.length = 1 := by
      have := List.length_pos_of_mem (List.mem_reverse.mp hc'); omega
    rw [List.getElem?_reverse (by omega)] at hck
    rw [← hck]
    congr 1
    omega

end Rebond

end StakingLedger

end PolkadotSdk.Staking
