import PolkadotSdk.Staking.Slash

/-!
# The accounting of the staking ledger

What `slash`, `rebond` and `consolidate_unlocked` promise, each as an outcome of the call
(`SlashOutcome`, `RebondOutcome`, `ConsolidateOutcome`), and that the three methods of the model
deliver them for every ledger with `total = active + Σ unlocking` (`ledger_accounting`).

The part of `slash` that keeps the chunks before the slashable era needs the chunks in era order,
as `unbond` leaves them: the plan of a proportional slash starts at the *first* slashable chunk and
takes from every chunk after it, and only in era order are those the slashable chunks.
-/

namespace PolkadotSdk.Staking

open PolkadotSdk.Arithmetic PolkadotSdk.Lib.Unsigned Rational PerThings

variable {B : UnsignedPrim}

/-- What `slash` returns, the ledger `l'` and the amount `s`, for a slash of `slashAmount` of the
ledger `l` with `minimumBalance`, where the chunks from era `slashableStart` on are slashable. -/
structure SlashOutcome (l : StakingLedger B) (slashAmount minimumBalance : BitVec B.bits)
    (slashableStart : ℕ) (l' : StakingLedger B) (s : BitVec B.bits) : Prop where
  /-- `total = active + Σ unlocking` still holds, -/
  balance : l'.total.toNat = l'.active.toNat + chunkSum l'.unlocking
  /-- and `s` is what `total` lost: -/
  slashed_eq : s.toNat = l.total.toNat - l'.total.toNat
  /-- at least the slash, or the whole ledger, -/
  lower : min slashAmount.toNat l.total.toNat ≤ s.toNat
  /-- and less than the slash and `max(minimum_balance, 1)`. -/
  upper : s.toNat < slashAmount.toNat + max minimumBalance.toNat 1
  /-- `active` only decreases. -/
  active_le : l'.active.toNat ≤ l.active.toNat
  /-- The chunks are lowered in place to `mid`, of which the zero chunks are dropped unless
  nothing is slashed; with the chunks in era order, a slash that `active` and the slashable
  chunks cover leaves every earlier chunk as it was. -/
  chunks : ∃ mid : List (UnlockChunk B), mid.length = l.unlocking.length ∧
    StakingLedger.Lowers l.unlocking mid ∧
    l'.unlocking = (if slashAmount = 0 then mid else mid.filter fun c => c.value != 0) ∧
    (l.unlocking.Pairwise (fun a b : UnlockChunk B => a.era ≤ b.era) →
      (∃ c ∈ l.unlocking, slashableStart ≤ c.era.toNat) →
      slashAmount.toNat ≤ l.active.toNat +
        chunkSum (l.unlocking.filter fun c => slashableStart ≤ c.era.toNat) →
      ∀ (j : ℕ) (c : UnlockChunk B), l.unlocking[j]? = some c → c.era.toNat < slashableStart →
        mid[j]? = some c)

/-- What `rebond(value)` returns, the ledger `l'` and the amount `r` rebonded. -/
structure RebondOutcome (l : StakingLedger B) (value : BitVec B.bits) (l' : StakingLedger B)
    (r : BitVec B.bits) : Prop where
  total_eq : l'.total = l.total
  balance : l'.total.toNat = l'.active.toNat + chunkSum l'.unlocking
  rebonded : r.toNat = min value.toNat (chunkSum l.unlocking)
  active_eq : l'.active.toNat = l.active.toNat + r.toNat
  taken : chunkSum l.unlocking = chunkSum l'.unlocking + r.toNat
  /-- `r` comes off the newest chunks: some are popped and at most the one before is shrunk. -/
  newest : ∃ k rest, rest.length ≤ 1 ∧ k + rest.length ≤ l.unlocking.length ∧
    l'.unlocking = l.unlocking.take k ++ rest ∧
    ∀ c' ∈ rest, ∃ c, l.unlocking[k]? = some c ∧ c'.era = c.era ∧ c'.value.toNat ≤ c.value.toNat

/-- What `consolidate_unlocked(currentEra)` returns: the chunks that unlock after `currentEra`
are kept, and the others come off `total`. -/
structure ConsolidateOutcome (l : StakingLedger B) (currentEra : BitVec 32)
    (l' : StakingLedger B) : Prop where
  unlocking_eq : l'.unlocking = l.unlocking.filter fun c => currentEra < c.era
  active_eq : l'.active = l.active
  total_eq : l'.total.toNat =
    l.total.toNat - chunkSum (l.unlocking.filter fun c => c.era ≤ currentEra)
  balance : l'.total.toNat = l'.active.toNat + chunkSum l'.unlocking

theorem chunkSum_filter_add_filter_not (p : UnlockChunk B → Bool) (u : List (UnlockChunk B)) :
    chunkSum (u.filter p) + chunkSum (u.filter fun c => !p c) = chunkSum u := by
  induction u with
  | nil => rfl
  | cons c u ih =>
    cases h : p c
    · simp only [List.filter_cons, h, Bool.not_false, Bool.false_eq_true, if_true, if_false,
        chunkSum_cons]
      omega
    · simp only [List.filter_cons, h, Bool.not_true, Bool.false_eq_true, if_true, if_false,
        chunkSum_cons]
      omega

namespace StakingLedger

variable (l : StakingLedger B) (hl : l.total.toNat = l.active.toNat + chunkSum l.unlocking)
include hl

/-- **`slash` delivers its outcome.** -/
theorem slash_outcome (hN : PerThingType.perquintill.inner.bits ≤ B.bits)
    (bondingDuration slashEra : BitVec 32) (slashAmount minimumBalance : BitVec B.bits) :
    SlashOutcome l slashAmount minimumBalance (slashEra.toNat + bondingDuration.toNat)
      (l.slash bondingDuration slashAmount minimumBalance slashEra).1
      (l.slash bondingDuration slashAmount minimumBalance slashEra).2 := by
  by_cases hz : slashAmount = 0
  · -- nothing to slash: the ledger comes back as it was
    subst hz
    have h0 : (0 : BitVec B.bits).toNat = 0 := BitVec.toNat_zero
    rw [slash, if_pos rfl]
    exact { balance := hl
            slashed_eq := by rw [h0, Nat.sub_self]
            lower := by rw [h0, Nat.zero_min]
            upper := by rw [h0]; omega
            active_le := le_rfl
            chunks := ⟨l.unlocking, rfl, Lowers.refl _, by rw [if_pos rfl],
              fun _ _ _ _ _ hc _ => hc⟩ }
  obtain ⟨⟨remaining', hs⟩, hact⟩ :=
    slashParts_slashed bondingDuration l slashAmount minimumBalance slashEra hl hz
  have hlow := slashParts_lower bondingDuration l slashAmount minimumBalance slashEra hN hl hz
  have hearly : ∀ first,
      l.unlocking.findIdx? (fun c => c.era ≥ saturatingAdd slashEra bondingDuration) =
        some first →
      slashAmount.toNat ≤ l.active.toNat + chunkSum (l.unlocking.drop first) → ∀ j < first,
      (l.slashParts bondingDuration slashAmount minimumBalance slashEra).2.1[j]? =
        l.unlocking[j]? := fun _ hf hcover _ hj =>
    slashParts_keeps_early bondingDuration l slashAmount minimumBalance slashEra hN hl hz hf hcover
      hj
  rw [slash, if_neg hz]
  generalize l.slashParts bondingDuration slashAmount minimumBalance slashEra = p
    at hs hact hlow hearly
  refine { balance := ?_, slashed_eq := toNat_saturatingSub .., lower := ?_, upper := ?_,
           active_le := hact, chunks := ⟨p.2.1, hs.length_eq, hs.lowers, by rw [if_neg hz], ?_⟩ }
  · rw [chunkSum_filter_ne_zero]
    exact hs.balance
  · rw [toNat_saturatingSub]
    exact hlow
  · rw [toNat_saturatingSub]
    exact hs.taken_lt
  · -- in era order the slashable chunks are those from the first one on
    intro hsorted hsome hcover j c hc hera
    have hpred := slashable_eq bondingDuration l slashEra hsome
    have hmono : ∀ a b : UnlockChunk B, a.era ≤ b.era →
        decide (slashEra.toNat + bondingDuration.toNat ≤ a.era.toNat) →
        decide (slashEra.toNat + bondingDuration.toNat ≤ b.era.toNat) := by
      intro a b hab ha
      rw [BitVec.le_def] at hab
      simp only [decide_eq_true_eq] at ha ⊢
      omega
    cases hf : l.unlocking.findIdx?
        (fun c => decide (slashEra.toNat + bondingDuration.toNat ≤ c.era.toNat)) with
    | none =>
      obtain ⟨c', hc', hera'⟩ := hsome
      have := List.findIdx?_eq_none_iff.mp hf c' hc'
      simp only [decide_eq_false_iff_not] at this
      exact absurd hera' this
    | some first =>
      have hj : j < l.unlocking.length := (List.getElem?_eq_some_iff.mp hc).1
      have hcj : l.unlocking[j] = c := (List.getElem?_eq_some_iff.mp hc).2
      have hbefore : j < first := by
        by_contra hge
        have := (findIdx?_pairwise_iff hsorted hmono hf hj).mpr (by omega)
        rw [hcj, decide_eq_true_eq] at this
        omega
      rw [filter_eq_drop_of_pairwise hsorted hmono hf] at hcover
      rw [hearly first (by rw [hpred]; exact hf) hcover j hbefore, hc]

/-- **`rebond` delivers its outcome.** -/
theorem rebond_outcome (value : BitVec B.bits) :
    RebondOutcome l value (l.rebond value).1 (l.rebond value).2 := by
  have hbound : l.active.toNat + chunkSum l.unlocking < 2 ^ B.bits := hl ▸ l.total.isLt
  obtain ⟨htotal, hr, hact, htaken, hnewest⟩ := rebond_spec value l hbound
  exact { total_eq := htotal, balance := by rw [htotal, hact]; omega, rebonded := hr,
          active_eq := hact, taken := htaken, newest := hnewest }

/-- **`consolidate_unlocked` delivers its outcome.** -/
theorem consolidate_outcome (currentEra : BitVec 32) :
    ConsolidateOutcome l currentEra (l.consolidateUnlocked currentEra) := by
  obtain ⟨hu, ht⟩ := consolidateLoop_eq currentEra l.unlocking l.total
  -- a chunk is dropped exactly when its era has come
  have hdropped : (l.unlocking.filter fun c => !decide (c.era > currentEra)) =
      l.unlocking.filter fun c => c.era ≤ currentEra :=
    List.filter_congr fun c _ => by
      rw [← decide_not]
      exact decide_eq_decide.mpr BitVec.not_lt
  have hsplit := chunkSum_filter_add_filter_not (fun c => decide (c.era > currentEra)) l.unlocking
  refine { unlocking_eq := hu, active_eq := rfl, total_eq := ?_, balance := ?_ }
  · rw [← hdropped]
    exact ht
  · show (consolidateLoop currentEra l.unlocking l.total).2.toNat =
      l.active.toNat + chunkSum (consolidateLoop currentEra l.unlocking l.total).1
    rw [ht, hu]
    omega

end StakingLedger

/-- **The accounting of the staking ledger.** For every ledger with `total = active + Σ unlocking`,
`slash`, `rebond` and `consolidate_unlocked` deliver their outcomes; `slash` makes the chunks
from `slash_era + bonding_duration` on slashable. -/
theorem ledger_accounting (hN : PerThingType.perquintill.inner.bits ≤ B.bits)
    (l : StakingLedger B) (hl : l.total.toNat = l.active.toNat + chunkSum l.unlocking)
    (bondingDuration slashEra currentEra : BitVec 32)
    (slashAmount minimumBalance value : BitVec B.bits) :
    SlashOutcome l slashAmount minimumBalance (slashEra.toNat + bondingDuration.toNat)
        (l.slash bondingDuration slashAmount minimumBalance slashEra).1
        (l.slash bondingDuration slashAmount minimumBalance slashEra).2 ∧
      RebondOutcome l value (l.rebond value).1 (l.rebond value).2 ∧
      ConsolidateOutcome l currentEra (l.consolidateUnlocked currentEra) :=
  ⟨l.slash_outcome hl hN bondingDuration slashEra slashAmount minimumBalance,
    l.rebond_outcome hl value, l.consolidate_outcome hl currentEra⟩

/-- A `u64` ledger with its chunks in era order, the second slashable from era 28 on. -/
def sortedLedger : StakingLedger .u64 := ⟨120, 100, [⟨10, 5⟩, ⟨10, 30⟩]⟩

theorem ledger_accounting_sorted :
    PerThingType.perquintill.inner.bits ≤ UnsignedPrim.u64.bits ∧
      sortedLedger.total.toNat = sortedLedger.active.toNat + chunkSum sortedLedger.unlocking ∧
      sortedLedger.unlocking.Pairwise (fun a b : UnlockChunk .u64 => a.era ≤ b.era) ∧
      (∃ c ∈ sortedLedger.unlocking, 0 + 28 ≤ c.era.toNat) ∧
      12 ≤ sortedLedger.active.toNat +
        chunkSum (sortedLedger.unlocking.filter fun c => 0 + 28 ≤ c.era.toNat) ∧
      (SlashOutcome sortedLedger 12 0 ((0 : BitVec 32).toNat + (28 : BitVec 32).toNat)
          (sortedLedger.slash 28 12 0 0).1 (sortedLedger.slash 28 12 0 0).2 ∧
        RebondOutcome sortedLedger 15 (sortedLedger.rebond 15).1 (sortedLedger.rebond 15).2 ∧
        ConsolidateOutcome sortedLedger 10 (sortedLedger.consolidateUnlocked 10)) :=
  ⟨by decide, by decide, by decide, by decide, by decide,
    ledger_accounting (by decide) sortedLedger (by decide) 28 0 10 12 0 15⟩

/-- Without era order a covered proportional slash takes from a chunk before the slashable era
(here the chunk of era 5, after the slashable one of era 30), and a slash of zero keeps a zero
chunk. -/
theorem slash_unsorted_takes_early :
    (StakingLedger.slash (B := .u64) 28 ⟨120, 100, [⟨10, 30⟩, ⟨10, 5⟩]⟩ 12 0 0).1.unlocking =
        [⟨9, 30⟩, ⟨9, 5⟩] ∧
      (StakingLedger.slash (B := .u64) 28 ⟨100, 100, [⟨0, 5⟩]⟩ 0 0 0).1.unlocking = [⟨0, 5⟩] := by
  decide

end PolkadotSdk.Staking
