import Mathlib.Data.Prod.Lex
import PolkadotSdk.NposElections.Pjr

/-!
# Election scores

`ElectionScore` of `npos-elections/src/lib.rs`, with `ThresholdOrd::tcmp` of `sp-arithmetic`
(`lib.rs`) that it compares its fields with.  The election provider keeps a queued solution until
a new one is `strict_threshold_better` than it.

* `Ord for ElectionScore` compares the slices `[minimal_stake, sum_stake, other.sum_stake_squared]`
  and `[other.minimal_stake, other.sum_stake, sum_stake_squared]`; `cmp_eq_compare_key` reads it as
  the lexicographic order on `(minimal_stake, sum_stake, sum_stake_squared)` with the last field
  reversed, and since that key is injective it is a total order.
* `tcmp(other, t)` is `Greater` exactly above `other + t` and `Less` exactly below `other - t`
  (`tcmp_eq`): the band saturates at `0` and `u128::MAX`, but a value beyond a saturated bound
  does not exist, and the defensive branch for an empty band is dead.
* `strict_threshold_better(other, t)` accepts on the first field that is `t.mul_ceil(that)` better,
  every earlier field being within its band and not worse (`strictThresholdBetter_iff`).

`strictThresholdBetter_spec`: being threshold-better implies being better, at threshold zero the
two agree, and a larger threshold only accepts less.
-/

namespace PolkadotSdk.NposElections

open PolkadotSdk.Arithmetic PolkadotSdk.Lib.Unsigned PerThings

/-! ## `ThresholdOrd` -/

section ThresholdOrd

variable {w : ℕ}

theorem compare_eq_ite (m n : ℕ) :
    compare m n = if n < m then .gt else if m < n then .lt else .eq := by
  split_ifs with h₁ h₂
  · exact compare_gt_iff_gt.mpr h₁
  · exact compare_lt_iff_lt.mpr h₂
  · exact compare_eq_iff_eq.mpr (by omega)

theorem compare_eq_toNat (a b : BitVec w) : compare a b = compare a.toNat b.toNat := by
  simp [compare, compareOfLessAndEq, BitVec.lt_def, BitVec.toNat_eq]

/-- `ThresholdOrd::tcmp` of an unsigned integer type: `Greater` if `self` is greater than
`other + threshold`, `Less` if it is less than `other - threshold`, `Equal` otherwise, with the
bounds saturating. -/
def tcmp (self other threshold : BitVec w) : Ordering :=
  if threshold = 0 then compare self other
  else
    let upperBound := saturatingAdd other threshold
    let lowerBound := saturatingSub other threshold
    -- defensive only in the source: the band is never empty for a non-zero threshold
    if upperBound ≤ lowerBound then compare self other
    else
      match compare self lowerBound, compare self upperBound with
      | .gt, .gt => .gt
      | .lt, .lt => .lt
      | _, _ => .eq

/-- **`tcmp` compares with the unsaturated band** `[other - t, other + t]`. -/
theorem tcmp_eq (a b t : BitVec w) :
    tcmp a b t = if b.toNat + t.toNat < a.toNat then .gt
      else if a.toNat + t.toNat < b.toNat then .lt else .eq := by
  unfold tcmp
  by_cases ht : t = 0
  · rw [if_pos ht, ht, compare_eq_toNat, compare_eq_ite]
    simp
  have htpos : 0 < t.toNat :=
    Nat.pos_of_ne_zero fun h => ht (BitVec.eq_of_toNat_eq (by simp [h]))
  have ha := a.isLt
  have hb := b.isLt
  -- `other + t` saturates at `MAX ≥ other` and `other - t` at `0 ≤ other`, so the band is wide
  have hband : ¬saturatingAdd b t ≤ saturatingSub b t := by
    rw [BitVec.le_def, toNat_saturatingAdd, toNat_saturatingSub]
    omega
  rw [if_neg ht]
  dsimp only
  rw [if_neg hband, compare_eq_toNat, compare_eq_toNat, compare_eq_ite, compare_eq_ite,
    toNat_saturatingAdd, toNat_saturatingSub]
  split_ifs <;> first | rfl | omega

theorem tcmp_eq_gt_iff {a b t : BitVec w} : tcmp a b t = .gt ↔ b.toNat + t.toNat < a.toNat := by
  rw [tcmp_eq]; split_ifs <;> simp_all

theorem tcmp_eq_lt_iff {a b t : BitVec w} : tcmp a b t = .lt ↔ a.toNat + t.toNat < b.toNat := by
  rw [tcmp_eq]
  split_ifs <;> simp_all
  omega

theorem tcmp_eq_eq_iff {a b t : BitVec w} :
    tcmp a b t = .eq ↔ a.toNat ≤ b.toNat + t.toNat ∧ b.toNat ≤ a.toNat + t.toNat := by
  rw [tcmp_eq]; split_ifs <;> simp_all

end ThresholdOrd

/-! ## `ElectionScore` -/

/-- `ElectionScore`: the three measures of a solution, by significance. -/
structure ElectionScore where
  /-- The minimal winner, in terms of total backing stake; to be maximized. -/
  minimalStake : ExtendedBalance
  /-- The sum of the total backing of all winners; to be maximized. -/
  sumStake : ExtendedBalance
  /-- The sum of the squared total backings, the variance; to be minimized. -/
  sumStakeSquared : ExtendedBalance
  deriving DecidableEq, Repr

namespace ElectionScore

/-- `iter_by_significance`: the fields, the most significant first. -/
def iterBySignificance (self : ElectionScore) : List ExtendedBalance :=
  [self.minimalStake, self.sumStake, self.sumStakeSquared]

/-- The slice pattern of `strict_threshold_better`, over the `(this >= that, tcmp)` pair of each
field by significance. -/
def acceptsBySignificance : List (Bool × Ordering) → Bool
  -- threshold better in `minimal_stake`
  | [(_, Ordering.gt), _, _] => true
  -- within the threshold in `minimal_stake`, threshold better in `sum_stake`
  | [(true, Ordering.eq), (_, Ordering.gt), _] => true
  -- within the threshold in both, threshold better (lower) in `sum_stake_squared`
  | [(true, Ordering.eq), (true, Ordering.eq), (_, Ordering.lt)] => true
  | _ => false

variable {P : PerThingType}

/-- `ElectionScore::strict_threshold_better`: whether `self` is strictly `threshold` better than
`other`, each field compared within a band of `threshold.mul_ceil(that)` around `other`'s. -/
def strictThresholdBetter (self other : ElectionScore) (threshold : PerThing P) : Bool :=
  acceptsBySignificance ((self.iterBySignificance.zip other.iterBySignificance).map
    fun (this, that) =>
      (decide (this ≥ that), tcmp this that (P.mulCeil .u128 threshold.parts that)))

/-- `Ord for ElectionScore`: the lexicographic order of slices, with the squared sums swapped so
that the smaller one wins. -/
def cmp (self other : ElectionScore) : Ordering :=
  compare [self.minimalStake, self.sumStake, other.sumStakeSquared]
    [other.minimalStake, other.sumStake, self.sumStakeSquared]

/-- The score as a key of the lexicographic order: `minimal_stake` and `sum_stake` ascending, then
`sum_stake_squared` descending. -/
def key (s : ElectionScore) : ℕ ×ₗ ℕ ×ₗ ℕᵒᵈ :=
  toLex (s.minimalStake.toNat, toLex (s.sumStake.toNat, OrderDual.toDual s.sumStakeSquared.toNat))

theorem key_injective : Function.Injective key := by
  rintro ⟨a, b, c⟩ ⟨d, e, f⟩ h
  simp only [key, toLex_inj, Prod.mk.injEq, OrderDual.toDual_inj] at h
  obtain ⟨had, hbe, hcf⟩ := h
  rw [BitVec.toNat_inj.mp had, BitVec.toNat_inj.mp hbe, BitVec.toNat_inj.mp hcf]

/-- **`Ord for ElectionScore` is the order of `key`.** -/
theorem cmp_eq_compare_key (s o : ElectionScore) : s.cmp o = compare s.key o.key := by
  rw [cmp, List.compare_cons_cons, List.compare_cons_cons, List.compare_cons_cons,
    List.compare_nil_nil, Ordering.then_eq, compare_eq_toNat, compare_eq_toNat, compare_eq_toNat]
  rfl

instance : Std.TransCmp cmp := by
  have h : cmp = compareOn key := funext fun s => funext fun o => cmp_eq_compare_key s o
  rw [h]
  infer_instance

instance : Std.LawfulEqCmp cmp where
  compare_self {s} := by rw [cmp_eq_compare_key, compare_eq_iff_eq]
  eq_of_compare {s o} h := key_injective (compare_eq_iff_eq.mp (cmp_eq_compare_key s o ▸ h))

theorem cmp_eq_gt_iff {s o : ElectionScore} :
    s.cmp o = .gt ↔ o.minimalStake.toNat < s.minimalStake.toNat ∨
      (o.minimalStake.toNat = s.minimalStake.toNat ∧ (o.sumStake.toNat < s.sumStake.toNat ∨
        (o.sumStake.toNat = s.sumStake.toNat ∧
          s.sumStakeSquared.toNat < o.sumStakeSquared.toNat))) := by
  rw [cmp_eq_compare_key, compare_gt_iff_gt]
  simp [key, Prod.Lex.toLex_lt_toLex]

/-! ## `strict_threshold_better` -/

theorem acceptsBySignificance_triple (b₁ b₂ b₃ : Bool) (c₁ c₂ c₃ : Ordering) :
    acceptsBySignificance [(b₁, c₁), (b₂, c₂), (b₃, c₃)] = true ↔
      c₁ = .gt ∨ (b₁ = true ∧ c₁ = .eq ∧ c₂ = .gt) ∨
        (b₁ = true ∧ c₁ = .eq ∧ b₂ = true ∧ c₂ = .eq ∧ c₃ = .lt) := by
  cases c₁ <;> cases b₁ <;> cases c₂ <;> cases b₂ <;> cases c₃ <;> simp [acceptsBySignificance]

/-- **What `strict_threshold_better` accepts**, on the naturals: `minimal_stake` beyond its band,
or within it and not lower while `sum_stake` is beyond its band, or both within their bands and
not lower while `sum_stake_squared` is below its band. -/
theorem strictThresholdBetter_iff (s o : ElectionScore) (t : PerThing P) :
    s.strictThresholdBetter o t = true ↔
      o.minimalStake.toNat + (P.mulCeil .u128 t.parts o.minimalStake).toNat <
        s.minimalStake.toNat ∨
      (o.minimalStake.toNat ≤ s.minimalStake.toNat ∧
        s.minimalStake.toNat ≤
          o.minimalStake.toNat + (P.mulCeil .u128 t.parts o.minimalStake).toNat ∧
        o.sumStake.toNat + (P.mulCeil .u128 t.parts o.sumStake).toNat < s.sumStake.toNat) ∨
      (o.minimalStake.toNat ≤ s.minimalStake.toNat ∧
        s.minimalStake.toNat ≤
          o.minimalStake.toNat + (P.mulCeil .u128 t.parts o.minimalStake).toNat ∧
        o.sumStake.toNat ≤ s.sumStake.toNat ∧
        s.sumStake.toNat ≤ o.sumStake.toNat + (P.mulCeil .u128 t.parts o.sumStake).toNat ∧
        s.sumStakeSquared.toNat + (P.mulCeil .u128 t.parts o.sumStakeSquared).toNat <
          o.sumStakeSquared.toNat) := by
  simp only [strictThresholdBetter, iterBySignificance, List.zip_cons_cons, List.zip_nil_right,
    List.map_cons, List.map_nil, acceptsBySignificance_triple, decide_eq_true_eq, ge_iff_le,
    BitVec.le_def, tcmp_eq_gt_iff, tcmp_eq_eq_iff, tcmp_eq_lt_iff]
  omega

theorem toNat_mulCeil_zero (that : ExtendedBalance) :
    (P.mulCeil .u128 (PerThing.zero P).parts that).toNat = 0 := by
  rw [PerThingType.mulCeil, PerThingType.toNat_overflowPruneMul P.inner_bits_le_u128 _ _
    (PerThing.zero P).le_accuracy, PerThing.parts_zero]
  simp [Rounding.divRound, Nat.div_eq_of_lt (Nat.sub_lt P.accuracy_pos Nat.one_pos)]

theorem mulCeil_mono {t₁ t₂ : PerThing P} (h : t₁.parts.toNat ≤ t₂.parts.toNat)
    (that : ExtendedBalance) :
    (P.mulCeil .u128 t₁.parts that).toNat ≤ (P.mulCeil .u128 t₂.parts that).toNat := by
  rw [PerThingType.mulCeil, PerThingType.mulCeil,
    PerThingType.toNat_overflowPruneMul P.inner_bits_le_u128 _ _ t₁.le_accuracy,
    PerThingType.toNat_overflowPruneMul P.inner_bits_le_u128 _ _ t₂.le_accuracy]
  exact Rounding.divRound_mono _ (Nat.mul_le_mul_left _ h) _

/-- **`strict_threshold_better` refines `Ord`.**  `ElectionScore`'s `Ord` is the lexicographic
order of `(minimal_stake, sum_stake, sum_stake_squared)`, the last field reversed, through an
injective key, hence a total order; for every per-thing threshold, a threshold-better score is
greater; at threshold zero the two agree; and a score threshold-better at `t₂` is threshold-better
at every `t₁ ≤ t₂`. -/
theorem strictThresholdBetter_spec (P : PerThingType) :
    ((∀ s o : ElectionScore, s.cmp o = compare s.key o.key) ∧ Function.Injective key ∧
      Std.TransCmp cmp ∧ Std.LawfulEqCmp cmp) ∧
    (∀ (s o : ElectionScore) (t : PerThing P),
      s.strictThresholdBetter o t = true → s.cmp o = .gt) ∧
    (∀ s o : ElectionScore, s.strictThresholdBetter o (PerThing.zero P) = true ↔ s.cmp o = .gt) ∧
    (∀ (s o : ElectionScore) (t₁ t₂ : PerThing P), t₁.parts.toNat ≤ t₂.parts.toNat →
      s.strictThresholdBetter o t₂ = true → s.strictThresholdBetter o t₁ = true) := by
  refine ⟨⟨cmp_eq_compare_key, key_injective, inferInstance, inferInstance⟩,
    fun s o t h => ?_, fun s o => ?_, fun s o t₁ t₂ ht h => ?_⟩
  · rw [strictThresholdBetter_iff] at h
    rw [cmp_eq_gt_iff]
    omega
  · rw [strictThresholdBetter_iff, cmp_eq_gt_iff, toNat_mulCeil_zero, toNat_mulCeil_zero,
      toNat_mulCeil_zero]
    omega
  · -- each band of `t₁` lies inside the band of `t₂`
    have h₁ := mulCeil_mono ht o.minimalStake
    have h₂ := mulCeil_mono ht o.sumStake
    have h₃ := mulCeil_mono ht o.sumStakeSquared
    rw [strictThresholdBetter_iff] at h ⊢
    omega

/-- A `minimal_stake` of `10` against `5` is more than ten percent better (the band is
`ceil(5 * 10%) = 1`), so it is better at five percent too, and greater. -/
theorem strictThresholdBetter_spec_perbill :
    (PerThing.fromParts (P := .perbill) 50000000).parts.toNat ≤
        (PerThing.fromParts (P := .perbill) 100000000).parts.toNat ∧
      (⟨10, 0, 0⟩ : ElectionScore).strictThresholdBetter ⟨5, 0, 0⟩
        (PerThing.fromParts (P := .perbill) 100000000) = true ∧
      (⟨10, 0, 0⟩ : ElectionScore).strictThresholdBetter ⟨5, 0, 0⟩
        (PerThing.fromParts (P := .perbill) 50000000) = true ∧
      (⟨10, 0, 0⟩ : ElectionScore).cmp ⟨5, 0, 0⟩ = .gt := by
  have hspec := strictThresholdBetter_spec .perbill
  have hbetter : (⟨10, 0, 0⟩ : ElectionScore).strictThresholdBetter ⟨5, 0, 0⟩
      (PerThing.fromParts (P := .perbill) 100000000) = true := by decide
  exact ⟨by decide, hbetter, hspec.2.2.2 _ _ _ _ (by decide) hbetter, hspec.2.1 _ _ _ hbetter⟩

end ElectionScore

end PolkadotSdk.NposElections
