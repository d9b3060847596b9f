import Mathlib.Algebra.Order.Field.Rat
import Mathlib.Tactic.Linarith
import PolkadotSdk.Lib.DivRound

/-!
# Rounding of unsigned quotients

`Rounding` of `sp-arithmetic` (`per_things.rs`) and the one test the code makes with it.
`multiply_by_rational_with_rounding`, the `MultiplyRational` impls of `rational.rs` and
`rational_mul_correction` of `per_things.rs` all compute a floor quotient `q` and a remainder
`rem` of a division by `d` and then bump `q` by one when

* `Up`: `rem > 0`;
* `NearestPrefUp`: `rem >= d / 2 + d % 2` (written so, since `(d + 1) / 2` may overflow);
* `NearestPrefDown`: `rem > d / 2`;
* `Down`: never.

`Rounding.divRound` is what that is meant to compute, on the naturals; `divRound_eq_roundsUp`
says the test achieves it, in any width that holds `d`, and `isRounded_divRound` that it is the
rational quotient rounded as `Rounding::*` documents.
-/

namespace PolkadotSdk.Arithmetic

open PolkadotSdk.Lib.DivRound

/-- The rounding method to use for unsigned quantities. -/
inductive Rounding where
  /-- Towards infinity. -/
  | up
  /-- Towards zero. -/
  | down
  /-- Nearest integer, rounding as `up` when equidistant. -/
  | nearestPrefUp
  /-- Nearest integer, rounding as `down` when equidistant. -/
  | nearestPrefDown
  deriving DecidableEq, Repr

namespace Rounding

/-- `n / d` rounded as prescribed, on the naturals: floor, ceiling, nearest with ties up and
nearest with ties down. -/
def divRound : Rounding → ℕ → ℕ → ℕ
  | up, n, d => (n + d - 1) / d
  | down, n, d => n / d
  | nearestPrefUp, n, d => (2 * n + d) / (2 * d)
  | nearestPrefDown, n, d => (2 * n + d - 1) / (2 * d)

/-- The code's test whether the floor quotient of a division by `d` with remainder `remainder` is
bumped by one, in `w`-bit arithmetic. -/
def roundsUp {w : ℕ} (r : Rounding) (remainder d : BitVec w) : Bool :=
  match r with
  | up => decide (remainder > 0)
  | nearestPrefUp => decide (remainder ≥ d / 2 + d % 2)
  | nearestPrefDown => decide (remainder > d / 2)
  | down => false

theorem divRound_down (n d : ℕ) : down.divRound n d = n / d := rfl

theorem divRound_le {r : Rounding} {n d A : ℕ} (hd : 0 < d) (h : n ≤ d * A) :
    r.divRound n d ≤ A := by
  have h1 : (A + 1) * d = d * A + d := by ring
  have h2 : (A + 1) * (2 * d) = 2 * (d * A) + 2 * d := by ring
  cases r <;> simp only [divRound] <;> apply Nat.lt_add_one_iff.mp <;>
    rw [Nat.div_lt_iff_lt_mul (by omega)] <;> omega

theorem divRound_mono (r : Rounding) {n n' : ℕ} (h : n ≤ n') (d : ℕ) :
    r.divRound n d ≤ r.divRound n' d := by
  cases r <;> simp only [divRound] <;> apply Nat.div_le_div_right <;> omega

theorem divRound_mul_add (r : Rounding) {d : ℕ} (hd : 0 < d) (k m : ℕ) :
    r.divRound (d * k + m) d = k + r.divRound m d := by
  cases r <;> simp only [divRound]
  · rw [show d * k + m + d - 1 = d * k + (m + d - 1) by omega, Nat.mul_add_div hd]
  · rw [Nat.mul_add_div hd]
  · rw [show 2 * (d * k + m) + d = 2 * d * k + (2 * m + d) by ring, Nat.mul_add_div (by omega)]
  · rw [show 2 * (d * k + m) + d - 1 = 2 * d * k + (2 * m + d - 1) by
      rw [Nat.mul_add, ← Nat.mul_assoc]; omega, Nat.mul_add_div (by omega)]

theorem divRound_mul (r : Rounding) {d : ℕ} (hd : 0 < d) (k : ℕ) : r.divRound (d * k) d = k := by
  have h := r.divRound_mul_add hd k 0
  rw [Nat.add_zero] at h
  rw [h, Nat.add_eq_left]
  cases r <;> simp only [divRound] <;> apply Nat.div_eq_of_lt <;> omega

/-! ## Rounding the rational quotient -/

/-- `k` is `q ≥ 0` rounded to a natural as prescribed: the ceiling, the floor, or the nearest
natural with ties broken up or down.  Each pins `k` to one half-open interval of length one. -/
def IsRounded : Rounding → ℚ → ℕ → Prop
  | up, q, k => q ≤ k ∧ (k : ℚ) < q + 1
  | down, q, k => (k : ℚ) ≤ q ∧ q < k + 1
  | nearestPrefUp, q, k => q - 1 / 2 < k ∧ (k : ℚ) ≤ q + 1 / 2
  | nearestPrefDown, q, k => q - 1 / 2 ≤ k ∧ (k : ℚ) < q + 1 / 2

/-- **`divRound` rounds the rational quotient** `n / d` as its `Rounding` says. -/
theorem isRounded_divRound (r : Rounding) (n : ℕ) {d : ℕ} (hd : 0 < d) :
    r.IsRounded ((n : ℚ) / d) (r.divRound n d) := by
  have hdq : (0 : ℚ) < d := by exact_mod_cast hd
  have hq : (n : ℚ) = n / d * d := (div_mul_cancel₀ _ hdq.ne').symm
  -- every closed form is a floor quotient `k = a / m`, so `k * m ≤ a < k * m + m`
  have hk (a m : ℕ) (hm : 0 < m) : a / m * m ≤ a ∧ a < a / m * m + m :=
    ⟨Nat.div_mul_le_self a m, Nat.lt_div_mul_add hm⟩
  cases r with
  | up =>
    obtain ⟨h1, h2⟩ := hk (n + d - 1) d hd
    simp only [IsRounded, divRound]
    generalize (n + d - 1) / d = k at h1 h2 ⊢
    have h1' : (k * d + 1 : ℚ) ≤ n + d := by exact_mod_cast (by omega : k * d + 1 ≤ n + d)
    have h2' : (n : ℚ) ≤ k * d := by exact_mod_cast (by omega : n ≤ k * d)
    constructor <;> nlinarith
  | down =>
    obtain ⟨h1, h2⟩ := hk n d hd
    simp only [IsRounded, divRound]
    generalize n / d = k at h1 h2 ⊢
    have h1' : (k * d : ℚ) ≤ n := by exact_mod_cast h1
    have h2' : (n : ℚ) < k * d + d := by exact_mod_cast h2
    constructor <;> nlinarith
  | nearestPrefUp =>
    obtain ⟨h1, h2⟩ := hk (2 * n + d) (2 * d) (by omega)
    simp only [IsRounded, divRound]
    generalize (2 * n + d) / (2 * d) = k at h1 h2 ⊢
    have h1' : (k * (2 * d) : ℚ) ≤ 2 * n + d := by exact_mod_cast h1
    have h2' : (2 * n + d : ℚ) < k * (2 * d) + 2 * d := by exact_mod_cast h2
    constructor <;> nlinarith
  | nearestPrefDown =>
    obtain ⟨h1, h2⟩ := hk (2 * n + d - 1) (2 * d) (by omega)
    simp only [IsRounded, divRound]
    generalize (2 * n + d - 1) / (2 * d) = k at h1 h2 ⊢
    have h1' : (k * (2 * d) + 1 : ℚ) ≤ 2 * n + d := by
      exact_mod_cast (by omega : k * (2 * d) + 1 ≤ 2 * n + d)
    have h2' : (2 * n + d : ℚ) ≤ k * (2 * d) + 2 * d := by
      exact_mod_cast (by omega : 2 * n + d ≤ k * (2 * d) + 2 * d)
    constructor <;> nlinarith

section Width

variable {w : ℕ} (hw : 2 ≤ w)
include hw

theorem toNat_two : (2 : BitVec w).toNat = 2 := by
  have : 2 < 2 ^ w := lt_of_lt_of_le (by decide) (Nat.pow_le_pow_right (by decide) hw)
  simp [Nat.mod_eq_of_lt this]

theorem toNat_half (d : BitVec w) : (d / 2).toNat = d.toNat / 2 := by
  rw [BitVec.toNat_udiv, toNat_two hw]

theorem toNat_half_add_mod (d : BitVec w) :
    (d / 2 + d % 2).toNat = d.toNat / 2 + d.toNat % 2 := by
  have hlt := d.isLt
  rw [BitVec.toNat_add, toNat_half hw, BitVec.toNat_umod, toNat_two hw]
  exact Nat.mod_eq_of_lt (by omega)

/-- **The rounding test is right.** With `rem` the remainder of `n` by `d > 0`, bumping the floor
quotient as the code decides gives `divRound`. -/
theorem divRound_eq_roundsUp (r : Rounding) {n : ℕ} {rem d : BitVec w} (hd : 0 < d.toNat)
    (hrem : rem.toNat = n % d.toNat) :
    r.divRound n d.toNat = n / d.toNat + if r.roundsUp rem d then 1 else 0 := by
  cases r with
  | up =>
    rw [divRound, ceil_div_eq hd]
    simp only [roundsUp, gt_iff_lt, BitVec.lt_def, hrem]
    split <;> simp <;> omega
  | down => simp [divRound, roundsUp]
  | nearestPrefUp =>
    rw [divRound, nearest_up_div_eq hd]
    simp only [roundsUp, ge_iff_le, BitVec.le_def, toNat_half_add_mod hw, hrem,
      half_add_mod_le_iff, decide_eq_true_eq]
  | nearestPrefDown =>
    rw [divRound, nearest_down_div_eq hd]
    simp only [roundsUp, gt_iff_lt, BitVec.lt_def, toNat_half hw, hrem, half_lt_iff,
      decide_eq_true_eq]

end Width

end Rounding

/-- The rounding method to use for signed quantities. -/
inductive SignedRounding where
  /-- Towards positive infinity. -/
  | high
  /-- Towards negative infinity. -/
  | low
  /-- Nearest integer, rounding as `high` when exactly equidistant. -/
  | nearestPrefHigh
  /-- Nearest integer, rounding as `low` when exactly equidistant. -/
  | nearestPrefLow
  /-- Away from zero. -/
  | major
  /-- Towards zero. -/
  | minor
  /-- Nearest integer, rounding as `major` when exactly equidistant. -/
  | nearestPrefMajor
  /-- Nearest integer, rounding as `minor` when exactly equidistant. -/
  | nearestPrefMinor
  deriving DecidableEq, Repr

/-- The unsigned rounding that gives the same result on the magnitude of a quantity of the given
sign (`Rounding::from_signed`). -/
def Rounding.fromSigned : SignedRounding → Bool → Rounding
  | .low, true | .major, _ | .high, false => .up
  | .high, true | .minor, _ | .low, false => .down
  | .nearestPrefMajor, _ | .nearestPrefHigh, false | .nearestPrefLow, true => .nearestPrefUp
  | .nearestPrefMinor, _ | .nearestPrefLow, false | .nearestPrefHigh, true => .nearestPrefDown

end PolkadotSdk.Arithmetic
