import PolkadotSdk.Arithmetic.FixedPoint

/-!
# Rounding fixed-point numbers to integers

`trunc`, `frac`, `ceil`, `floor` and `round` of `FixedPointNumber` (`fixed_point.rs`), on a value
`x = inner / DIV`.  All of them are `trunc` of `x`, `x + 1` or `x - 1`, where `trunc` rounds
`inner` towards zero to a multiple of `DIV`; `frac` is `x - trunc(x)`, made non-negative unless
the integer part is zero.

What they are meant to be is said on the integers, by the multiple of `DIV` each should give:
`IsCeilMul`, `IsFloorMul` and `IsRoundMul` (nearest, half-way cases away from zero).
`rounding_ops_spec` gives what the code does: `trunc` and `ceil` are right, and `frac` splits
`x` as documented; `floor` is right except on a negative integer `x`, where it subtracts one
before truncating and returns `x - 1`; and `round` is right except on `(-1, -1/2]`, where the
integer part is zero, `frac` keeps the sign, `10 * frac < 5` holds, and it returns `0`.
-/

namespace PolkadotSdk.Arithmetic.FixedPoint

open PolkadotSdk.Arithmetic PolkadotSdk.Lib.DivRound Integers

/-! ## Multiples of a positive `d` -/

section Multiples

variable {d : ℤ}

/-- `y` is the greatest multiple of `d` at most `x`: `x` rounded down. -/
def IsFloorMul (d x y : ℤ) : Prop := d ∣ y ∧ y ≤ x ∧ x < y + d

/-- `y` is the least multiple of `d` at least `x`: `x` rounded up. -/
def IsCeilMul (d x y : ℤ) : Prop := d ∣ y ∧ x ≤ y ∧ y < x + d

/-- `y` is the multiple of `d` nearest to `x`, a half-way case rounded away from zero. -/
def IsRoundMul (d x y : ℤ) : Prop :=
  d ∣ y ∧ (2 * |x - y| < d ∨ (2 * |x - y| = d ∧ |x| < |y|))

theorem eq_of_dvd_of_lt {a b : ℤ} (ha : d ∣ a) (hb : d ∣ b) (h₁ : a < b + d) (h₂ : b < a + d) :
    a = b := by
  have h := Int.eq_zero_of_abs_lt_dvd (Int.dvd_sub ha hb) (abs_lt.mpr ⟨by omega, by omega⟩)
  omega

/-- `x.tdiv d * d`, `x` rounded towards zero, is a multiple of `d` within `d` of `x`, between zero
and `x`. -/
theorem tdiv_mul_bounds (hd : 0 < d) (x : ℤ) :
    d ∣ x.tdiv d * d ∧ (0 ≤ x → 0 ≤ x.tdiv d * d ∧ x.tdiv d * d ≤ x ∧ x < x.tdiv d * d + d) ∧
      (x ≤ 0 → x.tdiv d * d ≤ 0 ∧ x ≤ x.tdiv d * d ∧ x.tdiv d * d < x + d) := by
  refine ⟨dvd_mul_left _ _, fun hx => ?_, fun hx => ?_⟩
  · rw [Int.tdiv_eq_ediv_of_nonneg hx]
    have h := Int.emod_add_ediv_mul x d
    have h₀ := Int.mul_nonneg (Int.ediv_nonneg hx hd.le) hd.le
    have h₁ := Int.emod_nonneg x hd.ne'
    have h₂ := Int.emod_lt_of_pos x hd
    omega
  · -- the truncation of a non-positive `x` is minus that of `-x`
    have hneg : x.tdiv d * d = -((-x) / d * d) := by
      have : x.tdiv d = -((-x).tdiv d) := by rw [Int.neg_tdiv, Int.neg_neg]
      rw [this, Int.tdiv_eq_ediv_of_nonneg (by omega), Int.neg_mul]
    have h := Int.emod_add_ediv_mul (-x) d
    have h₀ := Int.mul_nonneg (Int.ediv_nonneg (by omega : 0 ≤ -x) hd.le) hd.le
    have h₁ := Int.emod_nonneg (-x) hd.ne'
    have h₂ := Int.emod_lt_of_pos (-x) hd
    omega

theorem tdiv_mul_eq_of_nonneg (hd : 0 < d) {z y : ℤ} (hy : d ∣ y) (hz : 0 ≤ z) (h₁ : y ≤ z)
    (h₂ : z < y + d) : z.tdiv d * d = y := by
  obtain ⟨hdvd, hpos, -⟩ := tdiv_mul_bounds hd z
  have := hpos hz
  exact eq_of_dvd_of_lt hdvd hy (by omega) (by omega)

theorem tdiv_mul_eq_of_nonpos (hd : 0 < d) {z y : ℤ} (hy : d ∣ y) (hz : z ≤ 0) (h₁ : z ≤ y)
    (h₂ : y < z + d) : z.tdiv d * d = y := by
  obtain ⟨hdvd, -, hneg⟩ := tdiv_mul_bounds hd z
  have := hneg hz
  exact eq_of_dvd_of_lt hdvd hy (by omega) (by omega)

/-- The nearest multiple, half-way cases away from zero, on the integers: within `d / 2` of `x`,
the tie going up for `x ≥ 0` and down for `x < 0`. -/
theorem IsRoundMul.bounds (hd : 0 < d) {x y : ℤ} (h : IsRoundMul d x y) :
    (0 ≤ x → 2 * y - d ≤ 2 * x ∧ 2 * x < 2 * y + d) ∧
      (x < 0 → 2 * y - d < 2 * x ∧ 2 * x ≤ 2 * y + d) := by
  obtain ⟨⟨k, rfl⟩, h⟩ := h
  -- a non-zero multiple of `d` is at least `d` away from zero
  have hk : d * k = 0 ∨ d ≤ d * k ∨ d * k ≤ -d := by
    rcases lt_trichotomy k 0 with hk | rfl | hk
    · right; right; nlinarith
    · left; simp
    · right; left; nlinarith
  rcases h with h | ⟨h, hxy⟩
  · have h₁ := le_abs_self (x - d * k)
    have h₂ := neg_abs_le (x - d * k)
    constructor <;> intro <;> omega
  · -- a tie: the signs of `x` and `y` decide which side `y` is on
    rcases abs_cases x with ⟨hx, hx'⟩ | ⟨hx, hx'⟩ <;>
      rcases abs_cases (d * k) with ⟨hy, hy'⟩ | ⟨hy, hy'⟩ <;>
      rcases abs_cases (x - d * k) with ⟨hz, hz'⟩ | ⟨hz, hz'⟩ <;>
      constructor <;> intro <;> omega

end Multiples

namespace Fixed

variable {F : FixedType} {N : IntType}

/-! ## The operations -/

/-- `zero()`. -/
def zero (F : FixedType) : Fixed F := ⟨Value.zero F.inner⟩

/-- `one()`: `DIV`. -/
def one (F : FixedType) : Fixed F :=
  ⟨⟨F.div, by have := F.inner.min_le_zero; omega,
    by have := F.ten_mul_div_le_max; omega⟩⟩

/-- `is_negative`. -/
def isNegative (x : Fixed F) : Bool := decide (x.inner.toInt < 0)

/-- `is_positive`. -/
def isPositive (x : Fixed F) : Bool := decide (0 < x.inner.toInt)

/-- `Saturating::saturating_add`: that of `Inner`. -/
def saturatingAdd (a b : Fixed F) : Fixed F := ⟨a.inner.saturatingAdd b.inner⟩

/-- `Saturating::saturating_sub`: that of `Inner`. -/
def saturatingSub (a b : Fixed F) : Fixed F := ⟨a.inner.saturatingSub b.inner⟩

/-- `saturating_abs`: `max_value()` where `checked_neg` fails. -/
def saturatingAbs (x : Fixed F) : Fixed F :=
  if 0 ≤ x.inner.toInt then x
  else ⟨x.inner.checkedNeg.getD (Value.maxValue F.inner)⟩

/-- `saturating_from_integer`: `int * DIV` through `I129`, the magnitude multiplied saturating in
`u128`, and the bound of the sign of `int` when that does not fit. -/
def saturatingFromInteger (F : FixedType) (int : Value N) : Fixed F :=
  let n := I129.ofValue int
  let n : I129 := ⟨Lib.Unsigned.saturatingMul n.value (divU128 F), n.negative⟩
  ⟨(fromI129 F.inner n).getD (toBound F.inner int (Value.zero IntType.i32))⟩

/-- `trunc`: `into_inner().checked_div(DIV)` and then `checked_mul(DIV)`, rounding towards zero;
neither `expect` can fire, as the result lies between zero and `self`. -/
def trunc (x : Fixed F) : Fixed F :=
  ⟨⟨x.inner.toInt.tdiv F.div * F.div,
    by
      have h := tdiv_mul_bounds (d := F.div) (by have := F.div_pos; omega) x.inner.toInt
      have := x.inner.min_le
      have := F.inner.min_le_zero
      by_cases hx : 0 ≤ x.inner.toInt
      · have := (h.2.1 hx).1; omega
      · have := (h.2.2 (by omega)).2.1; omega,
    by
      have h := tdiv_mul_bounds (d := F.div) (by have := F.div_pos; omega) x.inner.toInt
      have := x.inner.le_max
      have := F.inner.zero_lt_max
      by_cases hx : 0 ≤ x.inner.toInt
      · have := (h.2.1 hx).2.1; omega
      · have := (h.2.2 (by omega)).1; omega⟩⟩

/-- `frac`: `self - trunc(self)`, its absolute value unless the integer part is zero. -/
def frac (x : Fixed F) : Fixed F :=
  let integer := x.trunc
  let fractional := x.saturatingSub integer
  if integer = zero F then fractional else fractional.saturatingAbs

/-- `ceil`. -/
def ceil (x : Fixed F) : Fixed F :=
  if x.isNegative then x.trunc
  else if x.frac = zero F then x
  else (x.saturatingAdd (one F)).trunc

/-- `floor`. -/
def floor (x : Fixed F) : Fixed F :=
  if x.isNegative then (x.saturatingSub (one F)).trunc
  else x.trunc

/-- `10`, a literal `i32`. -/
def i32Ten : Value IntType.i32 := ⟨10, by decide, by decide⟩

/-- `5`, a literal `i32`. -/
def i32Five : Value IntType.i32 := ⟨5, by decide, by decide⟩

/-- `round`: away from the integer part when `10 * frac` is at least `5`. -/
def round (x : Fixed F) : Fixed F :=
  let n := x.frac.saturatingMul (saturatingFromInteger F i32Ten)
  if n.inner.toInt < (saturatingFromInteger F i32Five).inner.toInt then x.trunc
  else if x.isPositive then (x.saturatingAdd (one F)).trunc
  else (x.saturatingSub (one F)).trunc

/-! ## Reading the operations on the inner values -/

theorem div_pos_int (F : FixedType) : (0 : ℤ) < F.div := by
  have := F.div_pos; omega

theorem min_le_neg_ten_div (F : FixedType) (h : F.inner.min < 0) :
    F.inner.min ≤ -(10 * F.div) := by
  obtain ⟨-, -, hs, hu⟩ := F.inner.bounds
  have := F.ten_mul_div_le_max
  cases hsigned : F.inner.signed
  · rw [hu hsigned] at h; omega
  · rw [(hs hsigned).1]; omega

theorem toInt_trunc (x : Fixed F) :
    x.trunc.inner.toInt = x.inner.toInt.tdiv F.div * F.div := rfl

theorem trunc_eq_zero_iff (x : Fixed F) :
    x.trunc = zero F ↔ x.inner.toInt.tdiv F.div * F.div = 0 := by
  rw [Fixed.ext_iff, Value.ext_iff]
  rfl

theorem toInt_saturatingAdd_one_of_le (x : Fixed F) (h : x.inner.toInt + F.div ≤ F.inner.max) :
    (x.saturatingAdd (one F)).inner.toInt = x.inner.toInt + F.div := by
  have := x.inner.min_le
  have := div_pos_int F
  simp only [saturatingAdd, Value.saturatingAdd, one]
  rw [Value.saturating_of_mem (by omega) h]

theorem toInt_saturatingAdd_one_of_gt (x : Fixed F) (h : F.inner.max < x.inner.toInt + F.div) :
    (x.saturatingAdd (one F)).inner.toInt = F.inner.max := by
  simp only [saturatingAdd, Value.saturatingAdd, one]
  rw [Value.toInt_saturating_of_gt h]

theorem toInt_saturatingSub_one_of_le (x : Fixed F) (h : F.inner.min ≤ x.inner.toInt - F.div) :
    (x.saturatingSub (one F)).inner.toInt = x.inner.toInt - F.div := by
  have := x.inner.le_max
  have := div_pos_int F
  simp only [saturatingSub, Value.saturatingSub, one]
  rw [Value.saturating_of_mem h (by omega)]

theorem toInt_saturatingSub_one_of_lt (x : Fixed F) (h : x.inner.toInt - F.div < F.inner.min) :
    (x.saturatingSub (one F)).inner.toInt = F.inner.min := by
  simp only [saturatingSub, Value.saturatingSub, one]
  rw [Value.toInt_saturating_of_lt h]

/-- `frac` is `x - trunc(x)`, its absolute value when the integer part is not zero. -/
theorem toInt_frac (x : Fixed F) :
    x.frac.inner.toInt = if x.inner.toInt.tdiv F.div * F.div = 0 then x.inner.toInt
      else |x.inner.toInt - x.inner.toInt.tdiv F.div * F.div| := by
  obtain ⟨-, hpos, hneg⟩ := tdiv_mul_bounds (div_pos_int F) x.inner.toInt
  have hmin := x.inner.min_le
  have hmax := x.inner.le_max
  have := F.inner.min_le_zero
  have := F.inner.zero_lt_max
  -- `self - trunc(self)` does not saturate: it lies between `self` and `0`, within `DIV`
  have hsub : (x.saturatingSub x.trunc).inner.toInt =
      x.inner.toInt - x.inner.toInt.tdiv F.div * F.div := by
    simp only [saturatingSub, Value.saturatingSub, toInt_trunc]
    by_cases hx : 0 ≤ x.inner.toInt
    · have := hpos hx
      rw [Value.saturating_of_mem (by omega) (by omega)]
    · have := hneg (by omega)
      rw [Value.saturating_of_mem (by omega) (by omega)]
  unfold frac
  dsimp only
  by_cases h0 : x.inner.toInt.tdiv F.div * F.div = 0
  · rw [if_pos ((trunc_eq_zero_iff x).mpr h0), if_pos h0, hsub, h0, Int.sub_zero]
  rw [if_neg (mt (trunc_eq_zero_iff x).mp h0), if_neg h0]
  unfold saturatingAbs
  split_ifs with habs
  · rw [hsub] at habs ⊢
    exact (abs_of_nonneg habs).symm
  · -- a negative fractional part: `checked_neg` succeeds, as it is above `-DIV`
    rw [hsub] at habs
    have hd := div_pos_int F
    have := F.ten_mul_div_le_max
    have hx : x.inner.toInt < 0 := by
      by_contra hx; have := hpos (by omega); omega
    have := hneg hx.le
    have h₁ : F.inner.min ≤ -(x.inner.toInt - x.inner.toInt.tdiv F.div * F.div) := by omega
    have h₂ : -(x.inner.toInt - x.inner.toInt.tdiv F.div * F.div) ≤ F.inner.max := by omega
    rw [Value.checkedNeg, hsub, Value.checked_eq_some h₁ h₂, Option.getD_some,
      abs_of_neg (by omega)]

theorem frac_bounds (x : Fixed F) :
    -(F.div : ℤ) < x.frac.inner.toInt ∧ x.frac.inner.toInt < F.div ∧
      (x.frac.inner.toInt < 0 → x.inner.toInt < 0) := by
  obtain ⟨-, hpos, hneg⟩ := tdiv_mul_bounds (div_pos_int F) x.inner.toInt
  rw [toInt_frac]
  by_cases hx : 0 ≤ x.inner.toInt
  · -- the integer part is at most `x`, so `frac` is `x - trunc(x) ≥ 0` either way
    have := hpos hx
    split_ifs with h0
    · omega
    · rw [abs_of_nonneg (by omega)]; omega
  · have := hneg (by omega)
    split_ifs with h0
    · omega
    · rw [abs_of_nonpos (by omega)]; omega

/-- `saturating_from_integer(n)` is `n * DIV` when that fits. -/
theorem toInt_saturatingFromInteger (n : Value N) (h₁ : F.inner.min ≤ n.toInt * F.div)
    (h₂ : n.toInt * F.div ≤ F.inner.max) :
    (saturatingFromInteger F n).inner.toInt = n.toInt * F.div := by
  have hd := div_pos_int F
  -- the magnitude `|n| * DIV` fits `u128`, so the saturating product is exact
  have habs : n.toInt.natAbs * F.div < 2 ^ 128 := by
    have := IntType.natAbs_lt h₁ h₂
    rwa [Int.natAbs_mul, Int.natAbs_natCast] at this
  have hmul : (Lib.Unsigned.saturatingMul (I129.ofValue n).value (divU128 F)).toNat =
      n.toInt.natAbs * F.div := by
    rw [Lib.Unsigned.toNat_saturatingMul, I129.toNat_value_ofValue, toNat_divU128,
      Int.natAbs_natCast]
    omega
  have hcast : ((n.toInt.natAbs * F.div : ℕ) : ℤ) = |n.toInt| * F.div := by
    push_cast [Int.natCast_natAbs]
    rfl
  have hint : (⟨Lib.Unsigned.saturatingMul (I129.ofValue n).value (divU128 F),
      (I129.ofValue n).negative⟩ : I129).toInt = n.toInt * F.div := by
    rw [I129.toInt, hmul, I129.negative_ofValue, signMag]
    split_ifs with hneg
    · rw [hcast, abs_of_neg (by simpa using hneg)]; ring
    · rw [hcast, abs_of_nonneg (by simpa using hneg)]
  unfold saturatingFromInteger
  dsimp only
  rw [fromI129_eq, hint, Value.checked_eq_some h₁ h₂, Option.getD_some]

theorem frac_eq_zero_iff (x : Fixed F) : x.frac = zero F ↔ x.frac.inner.toInt = 0 := by
  rw [Fixed.ext_iff, Value.ext_iff]
  rfl

theorem toInt_frac_of_nonneg (x : Fixed F) (hx : 0 ≤ x.inner.toInt) :
    x.frac.inner.toInt = x.inner.toInt - x.inner.toInt.tdiv F.div * F.div := by
  have := ((tdiv_mul_bounds (div_pos_int F) x.inner.toInt).2.1 hx).2.1
  rw [toInt_frac]
  split_ifs with h0
  · omega
  · exact abs_of_nonneg (by omega)

theorem toInt_frac_of_neg (x : Fixed F) (hx : x.inner.toInt < 0)
    (h0 : x.inner.toInt.tdiv F.div * F.div ≠ 0) :
    x.frac.inner.toInt = x.inner.toInt.tdiv F.div * F.div - x.inner.toInt := by
  have := ((tdiv_mul_bounds (div_pos_int F) x.inner.toInt).2.2 hx.le).2.1
  rw [toInt_frac, if_neg h0, abs_of_nonpos (by omega)]
  ring

theorem tdiv_mul_eq_zero (x : Fixed F) (h₁ : -(F.div : ℤ) < x.inner.toInt)
    (h₂ : x.inner.toInt ≤ 0) : x.inner.toInt.tdiv F.div * F.div = 0 :=
  tdiv_mul_eq_of_nonpos (div_pos_int F) (dvd_zero _) h₂ h₂ (by omega)

/-- `round` reads `frac`: `10 * frac` against `5`, that is `2 * frac` against `DIV` on the inner
values, then `trunc` of `x`, `x + 1` or `x - 1`. -/
theorem toInt_round (x : Fixed F) :
    x.round.inner.toInt =
      if 2 * x.frac.inner.toInt < F.div then x.inner.toInt.tdiv F.div * F.div
      else if 0 < x.inner.toInt then (x.saturatingAdd (one F)).trunc.inner.toInt
      else (x.saturatingSub (one F)).trunc.inner.toInt := by
  have hd := div_pos_int F
  have h10 := F.ten_mul_div_le_max
  have hmin := F.inner.min_le_zero
  obtain ⟨hf₁, hf₂, hf₃⟩ := frac_bounds x
  have hten : (saturatingFromInteger F i32Ten).inner.toInt = 10 * F.div :=
    toInt_saturatingFromInteger i32Ten (by simp only [i32Ten]; omega) (by simp only [i32Ten]; omega)
  have hfive : (saturatingFromInteger F i32Five).inner.toInt = 5 * F.div :=
    toInt_saturatingFromInteger i32Five (by simp only [i32Five]; omega)
      (by simp only [i32Five]; omega)
  -- `frac * 10` is exact: within `10 * DIV` of zero, and of the sign of `x` when negative
  have hrange : F.inner.min ≤ 10 * x.frac.inner.toInt ∧ 10 * x.frac.inner.toInt ≤ F.inner.max := by
    by_cases hf : 0 ≤ x.frac.inner.toInt
    · omega
    · have hx := hf₃ (by omega)
      have := x.inner.min_le
      have := min_le_neg_ten_div F (by omega)
      omega
  have hn : (x.frac.saturatingMul (saturatingFromInteger F i32Ten)).inner.toInt =
      10 * x.frac.inner.toInt := by
    rw [saturatingMul_eq, hten,
      show x.frac.inner.toInt * (10 * (F.div : ℤ)) = 10 * x.frac.inner.toInt * F.div by ring,
      Int.mul_tdiv_cancel _ hd.ne', Value.saturating_of_mem hrange.1 hrange.2]
  unfold round
  dsimp only
  rw [hn, hfive]
  by_cases hhalf : 2 * x.frac.inner.toInt < F.div
  · rw [if_pos (by omega), if_pos hhalf]
    rfl
  · rw [if_neg (by omega), if_neg hhalf]
    by_cases hpos : 0 < x.inner.toInt
    · rw [if_pos (by simpa [isPositive] using hpos), if_pos hpos]
    · rw [if_neg (by simpa [isPositive] using hpos), if_neg hpos]

/-! ## What `trunc`, `frac`, `ceil`, `floor` and `round` return -/

theorem trunc_isFloorMul_isCeilMul (x : Fixed F) :
    (0 ≤ x.inner.toInt → IsFloorMul F.div x.inner.toInt x.trunc.inner.toInt) ∧
    (x.inner.toInt ≤ 0 → IsCeilMul F.div x.inner.toInt x.trunc.inner.toInt) := by
  obtain ⟨hdvd, hpos, hneg⟩ := tdiv_mul_bounds (div_pos_int F) x.inner.toInt
  rw [toInt_trunc]
  exact ⟨fun hx => ⟨hdvd, (hpos hx).2⟩, fun hx => ⟨hdvd, (hneg hx).2⟩⟩

theorem trunc_add_frac (x : Fixed F) :
    (0 ≤ x.inner.toInt ∨ x.trunc.inner.toInt = 0 →
      x.inner.toInt = x.trunc.inner.toInt + x.frac.inner.toInt) ∧
    (x.inner.toInt < 0 → x.trunc.inner.toInt ≠ 0 →
      x.inner.toInt = x.trunc.inner.toInt - x.frac.inner.toInt) := by
  rw [toInt_trunc]
  constructor
  · rintro (hx | h0)
    · rw [toInt_frac_of_nonneg x hx]; ring
    · rw [toInt_frac, if_pos h0, h0, Int.zero_add]
  · intro hx h0
    rw [toInt_frac_of_neg x hx h0]; ring

/-- **`ceil` is right** wherever the ceiling is representable. -/
theorem ceil_eq (x : Fixed F) {y : ℤ} (hy : IsCeilMul F.div x.inner.toInt y)
    (h₂ : y ≤ F.inner.max) : x.ceil.inner.toInt = y := by
  obtain ⟨hdvd, hy₁, hy₂⟩ := hy
  have hd := div_pos_int F
  obtain ⟨htr, hpos, hneg⟩ := tdiv_mul_bounds hd x.inner.toInt
  unfold ceil
  by_cases hx : x.inner.toInt < 0
  · -- towards zero is up for a negative `x`
    rw [if_pos (by simpa [isNegative] using hx), toInt_trunc]
    exact tdiv_mul_eq_of_nonpos hd hdvd hx.le hy₁ hy₂
  rw [if_neg (by simpa [isNegative] using hx)]
  have hb := hpos (by omega)
  have hf := toInt_frac_of_nonneg x (by omega)
  by_cases hfrac : x.frac = zero F
  · -- a multiple of `DIV` is its own ceiling
    rw [if_pos hfrac]
    rw [frac_eq_zero_iff, hf] at hfrac
    have hxtr : x.inner.toInt = x.inner.toInt.tdiv F.div * F.div := by omega
    exact eq_of_dvd_of_lt (hxtr ▸ htr) hdvd (by omega) (by omega)
  rw [frac_eq_zero_iff, hf] at hfrac
  rw [if_neg (by rw [frac_eq_zero_iff, hf]; exact hfrac), toInt_trunc]
  -- otherwise the ceiling is the multiple above the truncation
  have hy' : y = x.inner.toInt.tdiv F.div * F.div + F.div :=
    eq_of_dvd_of_lt hdvd (Int.dvd_add htr (Int.dvd_refl _)) (by omega) (by omega)
  by_cases hroom : x.inner.toInt + F.div ≤ F.inner.max
  · rw [toInt_saturatingAdd_one_of_le x hroom]
    exact tdiv_mul_eq_of_nonneg hd hdvd (by omega) (by omega) (by omega)
  · -- `x + 1` saturates at `max_value()`, whose truncation is still the ceiling
    rw [toInt_saturatingAdd_one_of_gt x (by omega)]
    exact tdiv_mul_eq_of_nonneg hd hdvd (by omega) h₂ (by omega)

/-- **`floor` is right** wherever the floor is representable, but for a negative multiple of
`DIV`. -/
theorem floor_eq (x : Fixed F) {y : ℤ} (hy : IsFloorMul F.div x.inner.toInt y)
    (h₁ : F.inner.min ≤ y) (hx : ¬(x.inner.toInt < 0 ∧ (F.div : ℤ) ∣ x.inner.toInt)) :
    x.floor.inner.toInt = y := by
  obtain ⟨hdvd, hy₁, hy₂⟩ := hy
  have hd := div_pos_int F
  unfold floor
  by_cases hneg : x.inner.toInt < 0
  · rw [if_pos (by simpa [isNegative] using hneg), toInt_trunc]
    -- `x` is not a multiple, so its floor is strictly below it
    have hlt : y < x.inner.toInt := lt_of_le_of_ne hy₁ fun h => hx ⟨hneg, h ▸ hdvd⟩
    by_cases hroom : F.inner.min ≤ x.inner.toInt - F.div
    · rw [toInt_saturatingSub_one_of_le x hroom]
      exact tdiv_mul_eq_of_nonpos hd hdvd (by omega) (by omega) (by omega)
    · -- `x - 1` saturates at `min_value()`, whose truncation is still the floor
      rw [toInt_saturatingSub_one_of_lt x (by omega)]
      exact tdiv_mul_eq_of_nonpos hd hdvd F.inner.min_le_zero h₁ (by omega)
  · rw [if_neg (by simpa [isNegative] using hneg), toInt_trunc]
    exact tdiv_mul_eq_of_nonneg hd hdvd (by omega) hy₁ hy₂

/-- **`floor` of a negative integer `x` is `x - 1`** when `x - 1` is representable. -/
theorem floor_of_neg_dvd (x : Fixed F) (hx : x.inner.toInt < 0)
    (hdvd : (F.div : ℤ) ∣ x.inner.toInt) (hroom : F.inner.min ≤ x.inner.toInt - F.div) :
    x.floor.inner.toInt = x.inner.toInt - F.div := by
  have hd := div_pos_int F
  unfold floor
  rw [if_pos (by simpa [isNegative] using hx), toInt_trunc, toInt_saturatingSub_one_of_le x hroom]
  exact tdiv_mul_eq_of_nonpos hd (Int.dvd_sub hdvd (Int.dvd_refl _)) (by omega) le_rfl (by omega)

/-- **`round` is right** wherever the rounded value is representable, but for
`-1 < x ≤ -0.5`. -/
theorem round_eq (x : Fixed F) {y : ℤ} (hy : IsRoundMul F.div x.inner.toInt y)
    (h₁ : F.inner.min ≤ y) (h₂ : y ≤ F.inner.max)
    (hx : ¬(-(F.div : ℤ) < x.inner.toInt ∧ 2 * x.inner.toInt ≤ -F.div)) :
    x.round.inner.toInt = y := by
  have hd := div_pos_int F
  have hyb := hy.bounds hd
  obtain ⟨htr, hpos, hneg⟩ := tdiv_mul_bounds hd x.inner.toInt
  set t := x.inner.toInt.tdiv F.div * F.div with ht
  rw [toInt_round]
  by_cases hx0 : 0 ≤ x.inner.toInt
  · -- from above zero, `frac` is `x - trunc(x)`
    obtain ⟨-, htx, hxt⟩ := hpos hx0
    have hy' := hyb.1 hx0
    rw [toInt_frac_of_nonneg x hx0, ← ht]
    by_cases hhalf : 2 * (x.inner.toInt - t) < F.div
    · rw [if_pos hhalf]
      exact eq_of_dvd_of_lt htr hy.1 (by omega) (by omega)
    rw [if_neg hhalf, if_pos (by omega), toInt_trunc]
    have hyt : y = t + F.div := eq_of_dvd_of_lt hy.1 (Int.dvd_add htr (Int.dvd_refl _))
      (by omega) (by omega)
    by_cases hroom : x.inner.toInt + F.div ≤ F.inner.max
    · rw [toInt_saturatingAdd_one_of_le x hroom]
      exact tdiv_mul_eq_of_nonneg hd hy.1 (by omega) (by omega) (by omega)
    · rw [toInt_saturatingAdd_one_of_gt x (by omega)]
      exact tdiv_mul_eq_of_nonneg hd hy.1 (by omega) h₂ (by omega)
  obtain ⟨-, hxt, htx⟩ := hneg (by omega)
  have hy' := hyb.2 (by omega)
  by_cases ht0 : t = 0
  · -- strictly between `-1` and `0` the code keeps `trunc(x) = 0`, right for `x > -0.5`
    rw [toInt_frac, if_pos ht0, if_pos (by omega), ← ht, ht0]
    exact eq_of_dvd_of_lt (Int.dvd_zero _) hy.1 (by omega) (by omega)
  -- below `-1`, `frac` is `trunc(x) - x`
  rw [toInt_frac_of_neg x (by omega) ht0, ← ht]
  by_cases hhalf : 2 * (t - x.inner.toInt) < F.div
  · rw [if_pos hhalf]
    exact eq_of_dvd_of_lt htr hy.1 (by omega) (by omega)
  rw [if_neg hhalf, if_neg (by omega), toInt_trunc]
  have hyt : y = t - F.div := eq_of_dvd_of_lt hy.1 (Int.dvd_sub htr (Int.dvd_refl _))
    (by omega) (by omega)
  by_cases hroom : F.inner.min ≤ x.inner.toInt - F.div
  · rw [toInt_saturatingSub_one_of_le x hroom]
    exact tdiv_mul_eq_of_nonpos hd hy.1 (by omega) (by omega) (by omega)
  · rw [toInt_saturatingSub_one_of_lt x (by omega)]
    exact tdiv_mul_eq_of_nonpos hd hy.1 F.inner.min_le_zero h₁ (by omega)

/-- **`round` of `-1 < x ≤ -0.5` is `0`**, where rounding half away from zero gives `-1`. -/
theorem round_of_neg_half (x : Fixed F) (h₁ : -(F.div : ℤ) < x.inner.toInt)
    (h₂ : 2 * x.inner.toInt ≤ -F.div) : x.round.inner.toInt = 0 := by
  have ht0 := tdiv_mul_eq_zero x h₁ (by omega)
  rw [toInt_round, toInt_frac, if_pos ht0, if_pos (by omega), ht0]

/-- What the five roundings of a fixed-point `x` return, against the multiple of `DIV` each is
meant to give where that multiple is representable: `trunc`, `frac` and `ceil` as documented;
`floor` as documented but for a negative integer `x`, where it gives `x - 1`; `round` as
documented but on `(-1, -1/2]`, where it gives `0`. -/
theorem rounding_ops_spec (x : Fixed F) :
    ((0 ≤ x.inner.toInt → IsFloorMul F.div x.inner.toInt x.trunc.inner.toInt) ∧
      (x.inner.toInt ≤ 0 → IsCeilMul F.div x.inner.toInt x.trunc.inner.toInt)) ∧
    ((0 ≤ x.inner.toInt ∨ x.trunc.inner.toInt = 0 →
        x.inner.toInt = x.trunc.inner.toInt + x.frac.inner.toInt) ∧
      (x.inner.toInt < 0 → x.trunc.inner.toInt ≠ 0 →
        x.inner.toInt = x.trunc.inner.toInt - x.frac.inner.toInt)) ∧
    (∀ y, IsCeilMul F.div x.inner.toInt y → y ≤ F.inner.max → x.ceil.inner.toInt = y) ∧
    (∀ y, IsFloorMul F.div x.inner.toInt y → F.inner.min ≤ y →
      ¬(x.inner.toInt < 0 ∧ (F.div : ℤ) ∣ x.inner.toInt) → x.floor.inner.toInt = y) ∧
    (x.inner.toInt < 0 → (F.div : ℤ) ∣ x.inner.toInt → F.inner.min ≤ x.inner.toInt - F.div →
      x.floor.inner.toInt = x.inner.toInt - F.div) ∧
    (∀ y, IsRoundMul F.div x.inner.toInt y → F.inner.min ≤ y → y ≤ F.inner.max →
      ¬(-(F.div : ℤ) < x.inner.toInt ∧ 2 * x.inner.toInt ≤ -F.div) →
      x.round.inner.toInt = y) ∧
    (-(F.div : ℤ) < x.inner.toInt → 2 * x.inner.toInt ≤ -F.div → x.round.inner.toInt = 0) :=
  ⟨trunc_isFloorMul_isCeilMul x, trunc_add_frac x, fun _ hy h₂ => ceil_eq x hy h₂,
    fun _ hy h₁ hx => floor_eq x hy h₁ hx, floor_of_neg_dvd x,
    fun _ hy h₁ h₂ hx => round_eq x hy h₁ h₂ hx, round_of_neg_half x⟩

/-- At `FixedI64`: the floor of `-2` is `-2`, but `floor` returns `-3`; the nearest integer to
`-0.7` is `-1`, but `round` returns `0`. -/
theorem rounding_ops_spec_fixedI64 :
    IsFloorMul FixedType.fixedI64.div (-2000000000) (-2000000000) ∧
    (⟨⟨-2000000000, by decide, by decide⟩⟩ : Fixed .fixedI64).floor.inner.toInt = -3000000000 ∧
    IsRoundMul FixedType.fixedI64.div (-700000000) (-1000000000) ∧
    (⟨⟨-700000000, by decide, by decide⟩⟩ : Fixed .fixedI64).round.inner.toInt = 0 :=
  ⟨by unfold IsFloorMul; decide,
    (rounding_ops_spec _).2.2.2.2.1 (by decide) (by decide) (by decide),
    by unfold IsRoundMul; decide,
    (rounding_ops_spec _).2.2.2.2.2.2 (by decide) (by decide)⟩

end Fixed

end PolkadotSdk.Arithmetic.FixedPoint
