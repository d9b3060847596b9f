import PolkadotSdk.Arithmetic.Integers
import PolkadotSdk.Arithmetic.Helpers128Bit

/-!
# Fixed-point numbers

The four types of `implement_fixed!` (`fixed_point.rs`): `FixedI64`, `FixedU64`, `FixedI128` and
`FixedU128`, a value `inner` of `Inner` standing for `inner / DIV`.  Every multiplication and
division goes through `I129`: both operands become a magnitude and a sign, the magnitudes go
through `multiply_by_rational_with_rounding`, and `from_i129` puts the sign back.  The code has
this twice: the trait impls (`CheckedMul`, `CheckedDiv`, `checked_from_rational`,
`checked_mul_int`, …) use the generic `I129::from` and `from_i129`, while the `const fn`s
(`const_checked_mul_with_rounding`, `checked_rounding_div`) have their own `into_i129` and
`from_i129`, written with `as` casts.

* `mulMinor_fromI129`: through `I129`, with `SignedRounding::Minor`, the result is the exact
  quotient rounded towards zero, `None` when it does not fit;
* `checkedMul_eq`, `checkedDiv_eq`, `checkedFromRational_eq`, `checkedMulInt_eq`: so read the
  checked operations, and their saturating versions clamp the same quotient;
* `constIntoI129_eq`, `constFromI129_eq`: the `const` conversions are the generic ones, on every
  magnitude, `Inner::MIN` and the `as` casts that wrap included;
* `trySqrt_of_nonneg`: `try_sqrt` of a non-negative value is the root of `self * DIV`, or the
  product of two roots when that does not fit, and its `as` cast never wraps.
-/

namespace PolkadotSdk.Arithmetic.FixedPoint

open PolkadotSdk.Arithmetic PolkadotSdk.Lib.DivRound PolkadotSdk.Lib.Unsigned Integers Helpers128Bit

/-- The fixed-point types of `implement_fixed!`. -/
inductive FixedType where
  /-- `FixedI64`: `i64`, nine decimals. -/
  | fixedI64
  /-- `FixedU64`: `u64`, nine decimals. -/
  | fixedU64
  /-- `FixedI128`: `i128`, eighteen decimals. -/
  | fixedI128
  /-- `FixedU128`: `u128`, eighteen decimals. -/
  | fixedU128
  deriving DecidableEq, Repr

namespace FixedType

/-- `Self::Inner`. -/
def inner : FixedType → IntType
  | fixedI64 => .i64
  | fixedU64 => .u64
  | fixedI128 => .i128
  | fixedU128 => .u128

/-- `Self::DIV`. -/
def div : FixedType → ℕ
  | fixedI64 => 1000000000
  | fixedU64 => 1000000000
  | fixedI128 => 1000000000000000000
  | fixedU128 => 1000000000000000000

theorem div_pos (F : FixedType) : 0 < F.div := by
  cases F <;> decide

theorem ten_mul_div_le_max (F : FixedType) : 10 * (F.div : ℤ) ≤ F.inner.max := by
  cases F <;> decide

end FixedType

/-- A fixed-point number of type `F`: its inner value, standing for `inner / DIV`. -/
@[ext]
structure Fixed (F : FixedType) where
  /-- `into_inner()`; the constructor is `from_inner`. -/
  inner : Value F.inner
  deriving DecidableEq

namespace Fixed

variable {F : FixedType} {N D : IntType}

/-- `Self::DIV as u128`. -/
def divU128 (F : FixedType) : BitVec 128 := BitVec.ofNat 128 F.div

/-- `Bounded`: the bounds of `Inner`. -/
def minValue (F : FixedType) : Fixed F := ⟨Value.minValue F.inner⟩

/-- `Bounded`: the bounds of `Inner`. -/
def maxValue (F : FixedType) : Fixed F := ⟨Value.maxValue F.inner⟩

/-! ## The trait impls -/

/-- `impl CheckedMul`: the product of the magnitudes over `DIV`, rounded towards zero
(`SignedRounding::Minor`), with the sign put back. -/
def checkedMul (a b : Fixed F) : Option (Fixed F) :=
  let lhs := I129.ofValue a.inner
  let rhs := I129.ofValue b.inner
  let negative := lhs.negative != rhs.negative
  ((multiplyByRationalWithRounding lhs.value rhs.value (divU128 F)
      (Rounding.fromSigned .minor negative)).bind fun value =>
    fromI129 F.inner ⟨value, negative⟩).map Fixed.mk

/-- `impl CheckedDiv`: `None` on a zero divisor, otherwise the magnitude of `self` times `DIV`
over that of `other`, rounded towards zero, with the sign put back. -/
def checkedDiv (a b : Fixed F) : Option (Fixed F) :=
  if b.inner.toInt = 0 then none
  else
    let lhs := I129.ofValue a.inner
    let rhs := I129.ofValue b.inner
    let negative := lhs.negative != rhs.negative
    ((multiplyByRationalWithRounding lhs.value (divU128 F) rhs.value
        (Rounding.fromSigned .minor negative)).bind fun value =>
      fromI129 F.inner ⟨value, negative⟩).map Fixed.mk

/-- `FixedPointNumber::checked_from_rational`: `n / d`, `None` on `d = 0`. -/
def checkedFromRational (F : FixedType) (n : Value N) (d : Value D) : Option (Fixed F) :=
  if d.toInt = 0 then none
  else
    let n := I129.ofValue n
    let d := I129.ofValue d
    let negative := n.negative != d.negative
    ((multiplyByRationalWithRounding n.value (divU128 F) d.value
        (Rounding.fromSigned .minor negative)).bind fun value =>
      fromI129 F.inner ⟨value, negative⟩).map Fixed.mk

/-- `FixedPointNumber::checked_mul_int`: `self * n` in `N`. -/
def checkedMulInt (a : Fixed F) (n : Value N) : Option (Value N) :=
  let lhs := I129.ofValue a.inner
  let rhs := I129.ofValue n
  let negative := lhs.negative != rhs.negative
  (multiplyByRationalWithRounding lhs.value rhs.value (divU128 F)
      (Rounding.fromSigned .minor negative)).bind fun value =>
    fromI129 N ⟨value, negative⟩

/-- `checked_div` of `u128`: `None` on a zero divisor. -/
def checkedDivU128 (a b : BitVec 128) : Option (BitVec 128) :=
  if b = 0 then none else some (a / b)

/-- `FixedPointNumber::checked_div_int`: `self / d` in `N`, dividing the magnitudes by `d` and
then by `DIV`. -/
def checkedDivInt (a : Fixed F) (d : Value N) : Option (Value N) :=
  let lhs := I129.ofValue a.inner
  let rhs := I129.ofValue d
  let negative := lhs.negative != rhs.negative
  ((checkedDivU128 lhs.value rhs.value).bind fun n => checkedDivU128 n (divU128 F)).bind
    fun value => fromI129 N ⟨value, negative⟩

/-- `Saturating::saturating_mul`: `checked_mul`, or the bound of the sign of the product. -/
def saturatingMul (a b : Fixed F) : Fixed F :=
  match a.checkedMul b with
  | some v => v
  | none => ⟨toBound F.inner a.inner b.inner⟩

/-- `FixedPointNumber::saturating_from_rational`: `checked_from_rational`, or the bound of the
sign of `n / d`; it panics (`None` here) on `d = 0`. -/
def saturatingFromRational (F : FixedType) (n : Value N) (d : Value D) : Option (Fixed F) :=
  if d.toInt = 0 then none
  else
    match checkedFromRational F n d with
    | some v => some v
    | none => some ⟨toBound F.inner n d⟩

/-- `FixedPointNumber::saturating_mul_int`: `checked_mul_int`, or the bound of the sign of the
product. -/
def saturatingMulInt (a : Fixed F) (n : Value N) : Value N :=
  match a.checkedMulInt n with
  | some v => v
  | none => toBound N a.inner n

/-! ## The `const fn`s -/

/-- `into_i129` (`const`): the magnitude by `checked_neg` and an `as` cast, `max_value() + 1`
for `min_value()`. -/
def constIntoI129 (x : Fixed F) : I129 :=
  if x.inner.toInt < 0 then
    let value : BitVec 128 :=
      match x.inner.checkedNeg with
      | some n => n.asU128
      | none => Lib.Unsigned.saturatingAdd (Value.maxValue F.inner).asU128 1
    ⟨value, true⟩
  else ⟨x.inner.asU128, false⟩

/-- `from_i129` (`const`): the magnitude is cast to `Inner` with `as`, and refused unless it casts
back to itself with the same sign. -/
def constFromI129 (n : I129) : Option (Fixed F) :=
  let maxPlusOne := Lib.Unsigned.saturatingAdd (Value.maxValue F.inner).asU128 1
  if n.negative ∧ F.inner.min < 0 ∧ n.value = maxPlusOne then some (minValue F)
  else
    let unsignedInner := Value.ofU128As F.inner n.value
    if unsignedInner.asU128 ≠ n.value ∨
        decide (0 < unsignedInner.toInt) ≠ decide (0 < n.value.toNat) then none
    else if n.negative then unsignedInner.checkedNeg.map Fixed.mk
    else some ⟨unsignedInner⟩

/-- `const_checked_mul_with_rounding`. -/
def constCheckedMulWithRounding (a b : Fixed F) (rounding : SignedRounding) : Option (Fixed F) :=
  let lhs := constIntoI129 a
  let rhs := constIntoI129 b
  let negative := lhs.negative != rhs.negative
  match multiplyByRationalWithRounding lhs.value rhs.value (divU128 F)
      (Rounding.fromSigned rounding negative) with
  | some value => constFromI129 ⟨value, negative⟩
  | none => none

/-- `checked_rounding_div` (`const`). -/
def checkedRoundingDiv (a b : Fixed F) (rounding : SignedRounding) : Option (Fixed F) :=
  if b.inner.toInt = 0 then none
  else
    let lhs := constIntoI129 a
    let rhs := constIntoI129 b
    let negative := lhs.negative != rhs.negative
    match multiplyByRationalWithRounding lhs.value (divU128 F) rhs.value
        (Rounding.fromSigned rounding negative) with
    | some value => constFromI129 ⟨value, negative⟩
    | none => none

/-! ## Through `I129`, rounding towards zero -/

theorem fromSigned_minor (negative : Bool) : Rounding.fromSigned .minor negative = .down := by
  cases negative <;> rfl

/-- **The `I129` path with `SignedRounding::Minor` is the checked truncated quotient.**  The
magnitudes of `x`, `y` and `z` through `multiply_by_rational_with_rounding`, rounded down, and
`from_i129` with the sign of `x * y / z` give `(x * y).tdiv z` when that fits `T`, and `None`
when it does not or when `z = 0`. -/
theorem mulMinor_fromI129 (T : IntType) {x y z : ℤ} {a b c : BitVec 128} (ha : a.toNat = x.natAbs)
    (hb : b.toNat = y.natAbs) (hc : c.toNat = z.natAbs) {negative : Bool}
    (hneg : negative = ((decide (x < 0) != decide (y < 0)) != decide (z < 0))) :
    (multiplyByRationalWithRounding a b c (Rounding.fromSigned .minor negative)).bind
        (fun value => fromI129 T ⟨value, negative⟩) =
      if z = 0 then none else Value.checked T ((x * y).tdiv z) := by
  rw [multiplyByRationalWithRounding_eq_ite, fromSigned_minor, Rounding.divRound_down, ha, hb, hc]
  by_cases hz : z = 0
  · have hc0 : c = 0 := BitVec.eq_of_toNat_eq (by rw [hc, hz]; rfl)
    rw [if_pos (.inl hc0), if_pos hz]
    rfl
  rw [if_neg hz]
  have hc0 : c ≠ 0 := fun h => hz (by have := congrArg BitVec.toNat h; simp [hc] at this; omega)
  -- the truncated quotient, read on the magnitudes
  have htdiv : (x * y).tdiv z = signMag negative (x.natAbs * y.natAbs / z.natAbs) := by
    rw [tdiv_mul_eq_signMag, hneg]
  by_cases hbig : 2 ^ 128 ≤ x.natAbs * y.natAbs / z.natAbs
  · -- the magnitude overflows `u128`, and the quotient overflows `T`
    rw [if_pos (.inr hbig), Option.bind_none]
    refine (Value.checked_eq_none fun hfit => ?_).symm
    have hlt := IntType.natAbs_lt hfit.1 hfit.2
    rw [Int.natAbs_tdiv, Int.natAbs_mul] at hlt
    exact absurd hlt (Nat.not_lt.mpr hbig)
  · rw [if_neg (by rintro (h | h) <;> [exact hc0 h; exact hbig h]), Option.bind_some,
      fromI129_eq, I129.toInt, BitVec.toNat_ofNat, Nat.mod_eq_of_lt (by omega), htdiv]

theorem toNat_divU128 (F : FixedType) : (divU128 F).toNat = (F.div : ℤ).natAbs := by
  rw [divU128, BitVec.toNat_ofNat, Int.natAbs_natCast]
  cases F <;> decide

theorem decide_div_neg (F : FixedType) : decide ((F.div : ℤ) < 0) = false := by
  simp

/-! ## The trait impls, read -/

theorem checkedMul_eq (a b : Fixed F) :
    a.checkedMul b =
      (Value.checked F.inner ((a.inner.toInt * b.inner.toInt).tdiv F.div)).map Fixed.mk := by
  unfold checkedMul
  dsimp only
  rw [mulMinor_fromI129 F.inner (I129.toNat_value_ofValue a.inner)
      (I129.toNat_value_ofValue b.inner) (toNat_divU128 F)
      (by rw [I129.negative_ofValue, I129.negative_ofValue, decide_div_neg, Bool.bne_false]),
    if_neg (by have := F.div_pos; omega)]

theorem checkedDiv_eq (a b : Fixed F) :
    a.checkedDiv b = if b.inner.toInt = 0 then none
      else (Value.checked F.inner ((a.inner.toInt * F.div).tdiv b.inner.toInt)).map Fixed.mk := by
  unfold checkedDiv
  split_ifs with hb
  · rfl
  · dsimp only
    rw [mulMinor_fromI129 F.inner (I129.toNat_value_ofValue a.inner) (toNat_divU128 F)
        (I129.toNat_value_ofValue b.inner)
        (by rw [I129.negative_ofValue, I129.negative_ofValue, decide_div_neg, Bool.bne_false]),
      if_neg hb]

theorem checkedFromRational_eq (F : FixedType) (n : Value N) (d : Value D) :
    checkedFromRational F n d = if d.toInt = 0 then none
      else (Value.checked F.inner ((n.toInt * F.div).tdiv d.toInt)).map Fixed.mk := by
  unfold checkedFromRational
  split_ifs with hd
  · rfl
  · dsimp only
    rw [mulMinor_fromI129 F.inner (I129.toNat_value_ofValue n) (toNat_divU128 F)
        (I129.toNat_value_ofValue d)
        (by rw [I129.negative_ofValue, I129.negative_ofValue, decide_div_neg, Bool.bne_false]),
      if_neg hd]

theorem checkedMulInt_eq (a : Fixed F) (n : Value N) :
    a.checkedMulInt n = Value.checked N ((a.inner.toInt * n.toInt).tdiv F.div) := by
  unfold checkedMulInt
  dsimp only
  rw [mulMinor_fromI129 N (I129.toNat_value_ofValue a.inner) (I129.toNat_value_ofValue n)
      (toNat_divU128 F)
      (by rw [I129.negative_ofValue, I129.negative_ofValue, decide_div_neg, Bool.bne_false]),
    if_neg (by have := F.div_pos; omega)]

/-! ## The saturating versions -/

theorem tdiv_mul_div_neg_iff {x y : ℤ} (h : (x * y).tdiv F.div ≠ 0) :
    (x * y).tdiv F.div < 0 ↔ (decide (x < 0) != decide (y < 0)) = true := by
  rw [tdiv_mul_neg_iff h, decide_div_neg, Bool.bne_false]

theorem tdiv_div_mul_neg_iff {n d : ℤ} (h : (n * F.div).tdiv d ≠ 0) :
    (n * F.div).tdiv d < 0 ↔ (decide (n < 0) != decide (d < 0)) = true := by
  rw [tdiv_mul_neg_iff h, decide_div_neg, Bool.bne_false]

theorem saturatingMul_eq (a b : Fixed F) :
    a.saturatingMul b =
      ⟨Value.saturating F.inner ((a.inner.toInt * b.inner.toInt).tdiv F.div)⟩ := by
  unfold saturatingMul
  rw [checkedMul_eq]
  by_cases hfit : F.inner.min ≤ (a.inner.toInt * b.inner.toInt).tdiv F.div ∧
      (a.inner.toInt * b.inner.toInt).tdiv F.div ≤ F.inner.max
  · rw [Value.checked_eq_some hfit.1 hfit.2, Value.saturating_of_mem hfit.1 hfit.2]
    rfl
  · rw [Value.checked_eq_none hfit,
      toBound_eq_saturating hfit (tdiv_mul_div_neg_iff (Value.ne_zero_of_not_mem hfit))]
    rfl

theorem saturatingFromRational_eq (F : FixedType) (n : Value N) (d : Value D) :
    saturatingFromRational F n d = if d.toInt = 0 then none
      else some ⟨Value.saturating F.inner ((n.toInt * F.div).tdiv d.toInt)⟩ := by
  unfold saturatingFromRational
  rw [checkedFromRational_eq]
  split_ifs with hd
  · rfl
  by_cases hfit : F.inner.min ≤ (n.toInt * F.div).tdiv d.toInt ∧
      (n.toInt * F.div).tdiv d.toInt ≤ F.inner.max
  · rw [Value.checked_eq_some hfit.1 hfit.2, Value.saturating_of_mem hfit.1 hfit.2]
    rfl
  · rw [Value.checked_eq_none hfit,
      toBound_eq_saturating hfit (tdiv_div_mul_neg_iff (Value.ne_zero_of_not_mem hfit))]
    rfl

theorem saturatingMulInt_eq (a : Fixed F) (n : Value N) :
    a.saturatingMulInt n = Value.saturating N ((a.inner.toInt * n.toInt).tdiv F.div) := by
  unfold saturatingMulInt
  rw [checkedMulInt_eq]
  by_cases hfit : N.min ≤ (a.inner.toInt * n.toInt).tdiv F.div ∧
      (a.inner.toInt * n.toInt).tdiv F.div ≤ N.max
  · rw [Value.checked_eq_some hfit.1 hfit.2, Value.saturating_of_mem hfit.1 hfit.2]
  · rw [Value.checked_eq_none hfit,
      toBound_eq_saturating hfit (tdiv_mul_div_neg_iff (Value.ne_zero_of_not_mem hfit))]

/-- **The checked and saturating operations are the truncated quotient.**  For every fixed-point
type `F`, all `a`, `b` of `F` and all `n`, `d` of any primitive integer types: `checked_mul`,
`checked_div`, `checked_from_rational` and `checked_mul_int` return the exact quotient
(`a * b / DIV`, `a * DIV / b`, `n * DIV / d`, `a * n / DIV` on the inner values) rounded towards
zero exactly when it fits the target, `None` otherwise and on a zero divisor; and
`saturating_mul`, `saturating_from_rational` (for `d ≠ 0`) and `saturating_mul_int` return the
same quotient clamped to the target's range, that is the bound of the quotient's sign when it
does not fit. -/
theorem checked_fixed_spec (F : FixedType) (N D : IntType) (a b : Fixed F) (n : Value N)
    (d : Value D) :
    a.checkedMul b =
      (Value.checked F.inner ((a.inner.toInt * b.inner.toInt).tdiv F.div)).map Fixed.mk ∧
    a.checkedDiv b = (if b.inner.toInt = 0 then none
      else (Value.checked F.inner ((a.inner.toInt * F.div).tdiv b.inner.toInt)).map Fixed.mk) ∧
    checkedFromRational F n d = (if d.toInt = 0 then none
      else (Value.checked F.inner ((n.toInt * F.div).tdiv d.toInt)).map Fixed.mk) ∧
    a.checkedMulInt n = Value.checked N ((a.inner.toInt * n.toInt).tdiv F.div) ∧
    a.saturatingMul b =
      ⟨Value.saturating F.inner ((a.inner.toInt * b.inner.toInt).tdiv F.div)⟩ ∧
    saturatingFromRational F n d = (if d.toInt = 0 then none
      else some ⟨Value.saturating F.inner ((n.toInt * F.div).tdiv d.toInt)⟩) ∧
    a.saturatingMulInt n = Value.saturating N ((a.inner.toInt * n.toInt).tdiv F.div) :=
  ⟨checkedMul_eq a b, checkedDiv_eq a b, checkedFromRational_eq F n d, checkedMulInt_eq a n,
    saturatingMul_eq a b, saturatingFromRational_eq F n d, saturatingMulInt_eq a n⟩

/-! ## The `const fn`s, read -/

theorem castTest_iff (F : FixedType) (v : BitVec 128) :
    ((Value.ofU128As F.inner v).asU128 = v ∧
      decide (0 < (Value.ofU128As F.inner v).toInt) = decide (0 < v.toNat)) ↔
      (v.toNat : ℤ) ≤ F.inner.max := by
  have hv := v.isLt
  rw [← BitVec.toNat_inj]
  cases F <;>
    simp [Value.ofU128As, Value.asU128, FixedType.inner, IntType.i64, IntType.u64, IntType.i128,
      IntType.u128, IntType.bits, Rational.UnsignedPrim.bits, IntType.max, BitVec.toNat_ofInt,
      BitVec.toInt_eq_toNat_cond, BitVec.toNat_setWidth] <;> omega

theorem toInt_ofU128As_of_le (F : FixedType) {v : BitVec 128} (h : (v.toNat : ℤ) ≤ F.inner.max) :
    (Value.ofU128As F.inner v).toInt = v.toNat := by
  have hv := v.isLt
  revert h
  cases F <;>
    simp [Value.ofU128As, FixedType.inner, IntType.i64, IntType.u64, IntType.i128,
      IntType.u128, IntType.bits, Rational.UnsignedPrim.bits, IntType.max,
      BitVec.toInt_eq_toNat_cond, BitVec.toNat_setWidth] <;> omega

theorem constMaxPlusOne_eq (F : FixedType) :
    Lib.Unsigned.saturatingAdd (Value.maxValue F.inner).asU128 1 = I129.maxPlusOne F.inner := by
  rw [Value.asU128_of_nonneg F.inner.zero_lt_max.le]
  rfl

theorem constIntoI129_eq (x : Fixed F) : constIntoI129 x = I129.ofValue x.inner := by
  unfold constIntoI129 I129.ofValue
  by_cases hneg : x.inner.toInt < 0
  · rw [if_pos hneg, if_pos hneg]
    cases hc : x.inner.checkedNeg with
    | none => rw [constMaxPlusOne_eq]; rfl
    | some m =>
      have hm := Value.toInt_of_checked_eq_some hc
      dsimp only
      rw [Value.asU128_of_nonneg (by omega)]
  · rw [if_neg hneg, if_neg hneg, Value.asU128_of_nonneg (by omega)]

/-- The `const` `from_i129` is the generic `from_i129`. -/
theorem constFromI129_eq (n : I129) : constFromI129 n = (fromI129 F.inner n).map Fixed.mk := by
  unfold constFromI129 fromI129
  rw [constMaxPlusOne_eq]
  by_cases hmin : n.negative ∧ F.inner.min < 0 ∧ n.value = I129.maxPlusOne F.inner
  · rw [if_pos hmin, if_pos hmin]
    rfl
  rw [if_neg hmin, if_neg hmin]
  dsimp only
  have hmin0 := F.inner.min_le_zero
  by_cases hfit : (n.value.toNat : ℤ) ≤ F.inner.max
  · -- the cast is exact and passes the test; both put the sign back with `checked_neg`
    have hcast : Value.ofU128As F.inner n.value = ⟨n.value.toNat, by omega, hfit⟩ :=
      Value.ext (toInt_ofU128As_of_le F hfit)
    rw [if_neg (by rw [← not_and_or, not_not]; exact (castTest_iff F n.value).mpr hfit),
      Value.checked_eq_some (by omega) hfit, hcast]
    cases n.negative <;> rfl
  · rw [if_pos (by rw [← not_and_or]; exact fun h => hfit ((castTest_iff F n.value).mp h)),
      Value.checked_eq_none (by omega)]
    rfl

/-- **The `const` path is the trait path.**  For every fixed-point type, the `const` `into_i129`
and `from_i129` are `I129::from` and the generic `from_i129` on every value and every magnitude,
`Inner::MIN` included; hence `const_checked_mul_with_rounding(_, Minor)` is `checked_mul` and
`checked_rounding_div(_, Minor)` is `checked_div`, `None` in the same cases. -/
theorem const_path_spec (F : FixedType) :
    (∀ x : Fixed F, constIntoI129 x = I129.ofValue x.inner) ∧
    (∀ n : I129, constFromI129 n = (fromI129 F.inner n).map Fixed.mk) ∧
    ∀ a b : Fixed F, a.constCheckedMulWithRounding b .minor = a.checkedMul b ∧
      a.checkedRoundingDiv b .minor = a.checkedDiv b := by
  refine ⟨constIntoI129_eq, constFromI129_eq, fun a b => ⟨?_, ?_⟩⟩
  · unfold constCheckedMulWithRounding checkedMul
    rw [constIntoI129_eq, constIntoI129_eq]
    dsimp only
    cases multiplyByRationalWithRounding _ _ _ _ <;> simp [constFromI129_eq]
  · unfold checkedRoundingDiv checkedDiv
    split_ifs
    · rfl
    rw [constIntoI129_eq, constIntoI129_eq]
    dsimp only
    cases multiplyByRationalWithRounding _ _ _ _ <;> simp [constFromI129_eq]

/-! ## `try_sqrt` -/

/-- `try_sqrt` (`const`): `None` on a negative value; otherwise the square root of `self * DIV`,
or, when that product does not fit in `u128`, the product of the square roots of `self` and of
`DIV`, cast to `Inner` with `as`. -/
def trySqrt (x : Fixed F) : Option (Fixed F) :=
  if x.inner.toInt = 0 then some ⟨Value.zero F.inner⟩
  else if x.inner.toInt < 1 then none
  else
    let v := x.inner.asU128
    let r := match Lib.Unsigned.checkedMul v (divU128 F) with
      | some vd => sqrt vd
      | none => do Lib.Unsigned.checkedMul (← sqrt v) (← sqrt (divU128 F))
    r.map fun r => ⟨Value.ofU128As F.inner r⟩

theorem le_max_of_mul_self_le {r v : ℕ} (h : r * r ≤ v * F.div) (hv : (v : ℤ) ≤ F.inner.max) :
    (r : ℤ) ≤ F.inner.max := by
  by_contra hlt
  rw [not_le] at hlt
  have hD : (F.div : ℤ) ≤ F.inner.max := by have := F.ten_mul_div_le_max; omega
  have hprod : (v : ℤ) * F.div ≤ F.inner.max * F.inner.max :=
    Int.mul_le_mul hv hD (by positivity) (by omega)
  have hsq : F.inner.max * F.inner.max < (r : ℤ) * r :=
    Int.mul_self_lt_mul_self F.inner.zero_lt_max.le hlt
  have hcast : ((r * r : ℕ) : ℤ) ≤ ((v * F.div : ℕ) : ℤ) := by exact_mod_cast h
  push_cast at hcast
  omega

theorem toInt_ofU128As_root {r : BitVec 128} {v : ℕ} (h : r.toNat * r.toNat ≤ v * F.div)
    (hv : (v : ℤ) ≤ F.inner.max) : (Value.ofU128As F.inner r).toInt = r.toNat :=
  toInt_ofU128As_of_le F (le_max_of_mul_self_le h hv)

/-- **`try_sqrt` of a non-negative value.**  It returns the square root of `self * DIV` when that
product fits in `u128`, and otherwise the product of the roots of `self` and of `DIV`; no step
overflows and the `as` cast keeps the root. -/
theorem trySqrt_of_nonneg (x : Fixed F) (hx : 0 ≤ x.inner.toInt) :
    ∃ y, x.trySqrt = some y ∧ y.inner.toInt =
      if x.inner.toInt.toNat * F.div < 2 ^ 128 then Nat.sqrt (x.inner.toInt.toNat * F.div)
      else Nat.sqrt x.inner.toInt.toNat * Nat.sqrt F.div := by
  by_cases h0 : x.inner.toInt = 0
  · refine ⟨_, by rw [trySqrt, if_pos h0], ?_⟩
    rw [h0, if_pos (by simp)]
    simp [Value.zero]
  have hvmax : ((x.inner.toInt.toNat : ℕ) : ℤ) ≤ F.inner.max := by
    have := x.inner.le_max; omega
  set v := x.inner.toInt.toNat with hv
  have hvlt : v < 2 ^ 128 := by have := F.inner.bounds.2.1; omega
  have hasU128 : x.inner.asU128.toNat = v := by
    rw [Value.asU128_of_nonneg hx, toNat_ofNat_of_lt hvlt]
  have hdiv : (divU128 F).toNat = F.div := by rw [toNat_divU128]; rfl
  rw [trySqrt, if_neg h0, if_neg (by omega)]
  dsimp only
  by_cases hfit : v * F.div < 2 ^ 128
  · -- `self * DIV` fits: one root
    rw [if_pos hfit]
    obtain ⟨hmul, hmulval⟩ := checkedMul_of_lt (a := x.inner.asU128) (b := divU128 F)
      (by rw [hasU128, hdiv]; exact hfit)
    obtain ⟨r, hr, hrval⟩ := sqrt_eq_natSqrt (x.inner.asU128 * divU128 F)
    rw [hmulval, hasU128, hdiv] at hrval
    refine ⟨⟨Value.ofU128As F.inner r⟩, ?_, ?_⟩
    · rw [hmul]
      simp only [hr, Option.map_some]
    · rw [toInt_ofU128As_root (v := v) (by rw [hrval]; exact Nat.sqrt_le _) hvmax, hrval]
  · -- it does not: the product of two roots, which fits
    rw [if_neg hfit]
    have hnone : Lib.Unsigned.checkedMul x.inner.asU128 (divU128 F) = none := by
      rw [Lib.Unsigned.checkedMul_eq, if_pos (by rw [hasU128, hdiv]; omega)]
    obtain ⟨a, ha, haval⟩ := sqrt_eq_natSqrt x.inner.asU128
    obtain ⟨b, hb, hbval⟩ := sqrt_eq_natSqrt (divU128 F)
    rw [hasU128] at haval
    rw [hdiv] at hbval
    have hroots : a.toNat * b.toNat * (a.toNat * b.toNat) ≤ v * F.div := by
      rw [haval, hbval, Nat.mul_mul_mul_comm]
      exact Nat.mul_le_mul (Nat.sqrt_le v) (Nat.sqrt_le F.div)
    have hab := le_max_of_mul_self_le hroots hvmax
    obtain ⟨hprod, hprodval⟩ := checkedMul_of_lt (a := a) (b := b)
      (by have := F.inner.bounds.2.1; push_cast at hab; omega)
    refine ⟨⟨Value.ofU128As F.inner (a * b)⟩, ?_, ?_⟩
    · rw [hnone]
      simp only [ha, hb, hprod, Option.bind_eq_bind, Option.bind_some, Option.map_some]
    · rw [toInt_ofU128As_root (v := v) (by rw [hprodval]; exact hroots) hvmax, hprodval, haval,
        hbval]

/-- **Square roots.**  `helpers_128bit::sqrt` returns the integer square root of every `u128`, no
step of it overflowing; and `try_sqrt` of a non-negative fixed-point value returns the root of
`self * DIV` when that product fits in `u128`, and the product of the roots of `self` and of `DIV`
otherwise, the `as` cast keeping it. -/
theorem sqrt_trySqrt_spec (n : BitVec 128) (F : FixedType) (x : Fixed F)
    (hx : 0 ≤ x.inner.toInt) :
    (∃ r, sqrt n = some r ∧ r.toNat * r.toNat ≤ n.toNat ∧
      n.toNat < (r.toNat + 1) * (r.toNat + 1)) ∧
    ∃ y, x.trySqrt = some y ∧ y.inner.toInt =
      if x.inner.toInt.toNat * F.div < 2 ^ 128 then Nat.sqrt (x.inner.toInt.toNat * F.div)
      else Nat.sqrt x.inner.toInt.toNat * Nat.sqrt F.div := by
  obtain ⟨r, hr, hval⟩ := sqrt_eq_natSqrt n
  exact ⟨⟨r, hr, Nat.eq_sqrt.mp hval⟩, trySqrt_of_nonneg x hx⟩

theorem sqrt_trySqrt_spec_four :
    (0 : ℤ) ≤ 4 ∧
    ((∃ r, sqrt 17 = some r ∧ r.toNat * r.toNat ≤ (17 : BitVec 128).toNat ∧
      (17 : BitVec 128).toNat < (r.toNat + 1) * (r.toNat + 1)) ∧
    ∃ y, (Fixed.mk (Value.mk 4 (by decide) (by decide)) : Fixed .fixedU64).trySqrt = some y ∧
      y.inner.toInt =
        if (4 : ℤ).toNat * FixedType.fixedU64.div < 2 ^ 128 then
          Nat.sqrt ((4 : ℤ).toNat * FixedType.fixedU64.div)
        else Nat.sqrt (4 : ℤ).toNat * Nat.sqrt FixedType.fixedU64.div) :=
  ⟨by decide, sqrt_trySqrt_spec 17 .fixedU64 (Fixed.mk (Value.mk 4 (by decide) (by decide)))
    (by decide)⟩

end Fixed

end PolkadotSdk.Arithmetic.FixedPoint
