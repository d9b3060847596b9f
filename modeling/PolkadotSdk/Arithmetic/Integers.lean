import PolkadotSdk.Arithmetic.Rational

/-!
# Primitive integers and `I129`

The integer types the fixed-point numbers of `fixed_point.rs` work with: the
`FixedPointOperand`s `u8` … `u128` and `i8` … `i128`, each the range `[min_value, max_value]` of
`ℤ`.  A `Value` of a type is an integer with the range as two fields, so that no value outside it
can be built, and the runtime's operations are read off their exact integer result:

* `Value.checked`: the exact result when it lies in the range, and `None` otherwise;
* `Value.saturating`: the exact result clamped to the range;
* `asU128` and `ofU128As`: the `as` casts to and from `u128`, which wrap.

`I129` is a `u128` magnitude with a sign.  `From<N> for I129` and `from_i129` convert to and from
it, `Inner::MIN` (of magnitude `max_value + 1`) included: `fromI129_eq` says that `from_i129`
keeps the integer, and fails exactly when it does not fit.
-/

namespace PolkadotSdk.Arithmetic.Integers

open PolkadotSdk.Arithmetic PolkadotSdk.Lib.DivRound Rational

/-- A primitive integer type: its signedness and its width. -/
structure IntType where
  signed : Bool
  width : UnsignedPrim
  deriving DecidableEq, Repr

namespace IntType

/-- `i32`, the type of an integer literal. -/
def i32 : IntType := ⟨true, .u32⟩

/-- `i64`. -/
def i64 : IntType := ⟨true, .u64⟩

/-- `u64`. -/
def u64 : IntType := ⟨false, .u64⟩

/-- `i128`. -/
def i128 : IntType := ⟨true, .u128⟩

/-- `u128`. -/
def u128 : IntType := ⟨false, .u128⟩

/-- `Self::BITS`. -/
def bits (T : IntType) : ℕ := T.width.bits

/-- `min_value()`. -/
def min (T : IntType) : ℤ := if T.signed then -2 ^ (T.bits - 1) else 0

/-- `max_value()`. -/
def max (T : IntType) : ℤ := if T.signed then 2 ^ (T.bits - 1) - 1 else 2 ^ T.bits - 1

theorem bounds (T : IntType) :
    0 < T.max ∧ T.max < 2 ^ 128 ∧ (T.signed → T.min = -(T.max + 1) ∧ T.max < 2 ^ 127) ∧
      (T.signed = false → T.min = 0) := by
  obtain ⟨s, w⟩ := T
  cases s <;> cases w <;> simp [min, max, bits, UnsignedPrim.bits]

theorem min_le_zero (T : IntType) : T.min ≤ 0 := by
  obtain ⟨hpos, -, hs, hu⟩ := T.bounds
  cases h : T.signed
  · rw [hu h]
  · rw [(hs h).1]; omega

theorem zero_lt_max (T : IntType) : 0 < T.max := T.bounds.1

theorem natAbs_lt {T : IntType} {z : ℤ} (h₁ : T.min ≤ z) (h₂ : z ≤ T.max) :
    z.natAbs < 2 ^ 128 := by
  obtain ⟨hpos, hlt, hs, hu⟩ := T.bounds
  cases h : T.signed
  · rw [hu h] at h₁; omega
  · obtain ⟨hmin, hmax⟩ := hs h
    rw [hmin] at h₁; omega

theorem min_of_signed {T : IntType} (h : T.signed = true) : T.min = -2 ^ (T.bits - 1) := by
  simp [min, h]

theorem max_of_signed {T : IntType} (h : T.signed = true) : T.max = 2 ^ (T.bits - 1) - 1 := by
  simp [max, h]

theorem min_of_unsigned {T : IntType} (h : T.signed = false) : T.min = 0 := by
  simp [min, h]

theorem max_of_unsigned {T : IntType} (h : T.signed = false) : T.max = 2 ^ T.bits - 1 := by
  simp [max, h]

end IntType

/-- A value of the integer type `T`. -/
@[ext]
structure Value (T : IntType) where
  toInt : ℤ
  min_le : T.min ≤ toInt
  le_max : toInt ≤ T.max
  deriving DecidableEq

namespace Value

variable {T : IntType}

/-- `zero()`. -/
def zero (T : IntType) : Value T := ⟨0, T.min_le_zero, T.zero_lt_max.le⟩

/-- `min_value()`. -/
def minValue (T : IntType) : Value T :=
  ⟨T.min, le_rfl, T.min_le_zero.trans T.zero_lt_max.le⟩

/-- `max_value()`. -/
def maxValue (T : IntType) : Value T :=
  ⟨T.max, T.min_le_zero.trans T.zero_lt_max.le, le_rfl⟩

/-- The result of a `checked_*` operation whose exact result is `z`. -/
def checked (T : IntType) (z : ℤ) : Option (Value T) :=
  if h : T.min ≤ z ∧ z ≤ T.max then some ⟨z, h.1, h.2⟩ else none

/-- The result of a `saturating_*` operation whose exact result is `z`. -/
def saturating (T : IntType) (z : ℤ) : Value T :=
  if h₁ : z < T.min then minValue T
  else if h₂ : T.max < z then maxValue T
  else ⟨z, by omega, by omega⟩

/-- `checked_neg`. -/
def checkedNeg (n : Value T) : Option (Value T) := checked T (-n.toInt)

/-- `saturating_add`. -/
def saturatingAdd (a b : Value T) : Value T := saturating T (a.toInt + b.toInt)

/-- `saturating_sub`. -/
def saturatingSub (a b : Value T) : Value T := saturating T (a.toInt - b.toInt)

/-- `x as u128`: the bits of `x`, sign-extended. -/
def asU128 (x : Value T) : BitVec 128 := BitVec.ofInt 128 x.toInt

/-- `v as T` for a `u128` value `v`: its low `T::BITS` bits, read as `T` reads them. -/
def ofU128As (T : IntType) (v : BitVec 128) : Value T :=
  if h : T.signed then
    ⟨(v.setWidth T.bits).toInt, by rw [IntType.min_of_signed h]; exact BitVec.le_toInt _,
      by have := (v.setWidth T.bits).toInt_lt; rw [IntType.max_of_signed h]; omega⟩
  else
    ⟨(v.setWidth T.bits).toNat, by rw [IntType.min_of_unsigned (by simpa using h)]; omega,
      by
        have : ((v.setWidth T.bits).toNat : ℤ) < 2 ^ T.bits := by exact_mod_cast (v.setWidth _).isLt
        rw [IntType.max_of_unsigned (by simpa using h)]; omega⟩

theorem checked_eq_some {z : ℤ} (h₁ : T.min ≤ z) (h₂ : z ≤ T.max) :
    checked T z = some ⟨z, h₁, h₂⟩ := by
  rw [checked, dif_pos ⟨h₁, h₂⟩]

theorem checked_eq_none {z : ℤ} (h : ¬(T.min ≤ z ∧ z ≤ T.max)) : checked T z = none := by
  rw [checked, dif_neg h]

theorem toInt_of_checked_eq_some {z : ℤ} {v : Value T} (h : checked T z = some v) :
    v.toInt = z := by
  unfold checked at h
  split at h
  · cases h; rfl
  · cases h

theorem ne_zero_of_not_mem {z : ℤ} (h : ¬(T.min ≤ z ∧ z ≤ T.max)) : z ≠ 0 := fun h0 =>
  h ⟨h0 ▸ T.min_le_zero, h0 ▸ T.zero_lt_max.le⟩

theorem saturating_of_mem {z : ℤ} (h₁ : T.min ≤ z) (h₂ : z ≤ T.max) :
    saturating T z = ⟨z, h₁, h₂⟩ := by
  rw [saturating, dif_neg (by omega), dif_neg (by omega)]

theorem toInt_saturating_of_lt {z : ℤ} (h : z < T.min) : (saturating T z).toInt = T.min := by
  rw [saturating, dif_pos h]
  rfl

theorem toInt_saturating_of_gt {z : ℤ} (h : T.max < z) : (saturating T z).toInt = T.max := by
  have := T.min_le_zero
  have := T.zero_lt_max
  rw [saturating, dif_neg (by omega), dif_pos h]
  rfl

theorem asU128_of_nonneg {x : Value T} (h : 0 ≤ x.toInt) :
    x.asU128 = BitVec.ofNat 128 x.toInt.toNat := by
  apply BitVec.eq_of_toNat_eq
  rw [asU128, BitVec.toNat_ofInt, BitVec.toNat_ofNat]
  omega

@[simp] theorem toInt_saturating (z : ℤ) :
    (saturating T z).toInt = Max.max T.min (Min.min z T.max) := by
  have := T.min_le_zero
  have := T.zero_lt_max
  unfold saturating
  split_ifs <;> simp [minValue, maxValue] <;> omega

end Value

/-! ## `I129` -/

/-- `I129`: a `u128` magnitude and a sign, the intermediate of the fixed-point arithmetic. -/
structure I129 where
  value : BitVec 128
  negative : Bool
  deriving DecidableEq

namespace I129

variable {T : IntType}

/-- The integer an `I129` stands for. -/
def toInt (n : I129) : ℤ := signMag n.negative n.value.toNat

/-- `impl<N: FixedPointOperand> From<N> for I129`. -/
def ofValue (n : Value T) : I129 :=
  if n.toInt < 0 then
    let value : BitVec 128 :=
      match n.checkedNeg with
      -- `unique_saturated_into` of a non-negative value of at most 128 bits is exact
      | some m => BitVec.ofNat 128 m.toInt.toNat
      | none => Lib.Unsigned.saturatingAdd (BitVec.ofNat 128 T.max.toNat) 1
    ⟨value, true⟩
  else ⟨BitVec.ofNat 128 n.toInt.toNat, false⟩

/-- `max_value() + 1` in `u128`, saturating: the magnitude of `min_value()` for a signed type. -/
def maxPlusOne (T : IntType) : BitVec 128 :=
  Lib.Unsigned.saturatingAdd (BitVec.ofNat 128 T.max.toNat) 1

end I129

/-- `from_i129`: the value of a magnitude and a sign, if it fits `T`. -/
def fromI129 (T : IntType) (n : I129) : Option (Value T) :=
  if n.negative ∧ T.min < 0 ∧ n.value = I129.maxPlusOne T then some (Value.minValue T)
  else
    -- `n.value.try_into().ok()?`, then the sign
    match Value.checked T n.value.toNat with
    | none => none
    | some unsignedInner => if n.negative then unsignedInner.checkedNeg else some unsignedInner

/-- `to_bound::<N, D, R>(n, m)`: `R::min_value()` if `n` and `m` have opposite signs, and
`R::max_value()` otherwise. -/
def toBound {N D : IntType} (R : IntType) (n : Value N) (m : Value D) : Value R :=
  if decide (n.toInt < 0) ≠ decide (m.toInt < 0) then Value.minValue R else Value.maxValue R

/-! ## Reading the conversions -/

namespace I129

variable {T : IntType}

theorem toNat_maxPlusOne (hs : T.signed) : (maxPlusOne T).toNat = T.max.toNat + 1 := by
  have hlt := (T.bounds.2.2.1 hs).2
  rw [maxPlusOne, Lib.Unsigned.toNat_saturatingAdd, BitVec.toNat_ofNat,
    Lib.Unsigned.toNat_one_of_pos (by norm_num)]
  omega

/-- **`From<N> for I129` is the magnitude and the sign**, `min_value()` included. -/
theorem ofValue_eq (n : Value T) :
    ofValue n = ⟨BitVec.ofNat 128 n.toInt.natAbs, decide (n.toInt < 0)⟩ := by
  obtain ⟨hpos, hlt, hs, hu⟩ := T.bounds
  have hmin := n.min_le
  have hmax := n.le_max
  unfold ofValue
  by_cases hneg : n.toInt < 0
  · rw [if_pos hneg, decide_eq_true hneg, Value.checkedNeg]
    by_cases hfit : -n.toInt ≤ T.max
    · -- `checked_neg` succeeds: the magnitude is `-n`
      rw [Value.checked_eq_some (by omega) hfit]
      dsimp only
      congr 2
      omega
    · -- only `min_value()` of a signed type has no negation
      rw [Value.checked_eq_none (by omega)]
      dsimp only
      cases h : T.signed
      · rw [hu h] at hmin; omega
      · obtain ⟨hmin', hmax'⟩ := hs h
        have hn : n.toInt = -(T.max + 1) := by omega
        congr 1
        apply BitVec.eq_of_toNat_eq
        rw [← maxPlusOne, toNat_maxPlusOne h, BitVec.toNat_ofNat, hn]
        omega
  · rw [if_neg hneg, decide_eq_false hneg]
    congr 2
    omega

theorem toNat_value_ofValue (n : Value T) : (ofValue n).value.toNat = n.toInt.natAbs := by
  rw [ofValue_eq, BitVec.toNat_ofNat, Nat.mod_eq_of_lt (IntType.natAbs_lt n.min_le n.le_max)]

theorem negative_ofValue (n : Value T) : (ofValue n).negative = decide (n.toInt < 0) := by
  rw [ofValue_eq]

end I129

/-- **`from_i129` keeps the integer**: it is `None` exactly when the integer of the magnitude and
the sign does not fit `T`. -/
theorem fromI129_eq (T : IntType) (n : I129) : fromI129 T n = Value.checked T n.toInt := by
  obtain ⟨hpos, hlt, hs, hu⟩ := T.bounds
  unfold fromI129
  by_cases hmin : n.negative ∧ T.min < 0 ∧ n.value = I129.maxPlusOne T
  · -- the magnitude of `min_value()`
    rw [if_pos hmin]
    obtain ⟨hneg, hT, hval⟩ := hmin
    cases hsigned : T.signed
    · rw [hu hsigned] at hT; omega
    have hmin' := (hs hsigned).1
    have hval' := congrArg BitVec.toNat hval
    rw [I129.toNat_maxPlusOne hsigned] at hval'
    have hint : n.toInt = T.min := by
      rw [I129.toInt, hneg, signMag, if_pos rfl, hval']
      omega
    rw [hint, Value.checked_eq_some le_rfl (IntType.min_le_zero T |>.trans hpos.le)]
    rfl
  rw [if_neg hmin]
  by_cases hfit : T.min ≤ (n.value.toNat : ℤ) ∧ (n.value.toNat : ℤ) ≤ T.max
  · -- the magnitude fits: the sign is put back with `checked_neg`
    rw [Value.checked_eq_some hfit.1 hfit.2]
    dsimp only
    cases hneg : n.negative
    · rw [if_neg (by simp), I129.toInt, hneg, signMag, if_neg (by simp),
        Value.checked_eq_some hfit.1 hfit.2]
    · rw [if_pos rfl, Value.checkedNeg, I129.toInt, hneg, signMag, if_pos rfl]
  · -- the magnitude does not fit, and neither does the integer, but for `min_value()`
    rw [Value.checked_eq_none hfit]
    dsimp only
    refine (Value.checked_eq_none ?_).symm
    unfold I129.toInt signMag
    cases hneg : n.negative
    · simp only [Bool.false_eq_true, if_false]; omega
    · simp only [if_true]
      cases h : T.signed
      · rw [hu h] at hfit ⊢; omega
      · have hmin' := (hs h).1
        have hne : n.value.toNat ≠ T.max.toNat + 1 := fun he => hmin ⟨hneg, by omega,
          BitVec.eq_of_toNat_eq (by rw [I129.toNat_maxPlusOne h, he])⟩
        omega

/-- **`to_bound` saturates**: for a result `t` out of the range whose sign is that of `n * m`,
the bound `to_bound` picks is `t` clamped to the range. -/
theorem toBound_eq_saturating {N D R : IntType} {n : Value N} {m : Value D} {t : ℤ}
    (hout : ¬(R.min ≤ t ∧ t ≤ R.max))
    (hsign : t < 0 ↔ (decide (n.toInt < 0) != decide (m.toInt < 0)) = true) :
    toBound R n m = Value.saturating R t := by
  have := R.min_le_zero
  have := R.zero_lt_max
  unfold toBound Value.saturating
  by_cases hs : decide (n.toInt < 0) ≠ decide (m.toInt < 0)
  · -- opposite signs: `t` is negative, below the range
    have ht : t < 0 := hsign.mpr (by simpa using hs)
    rw [if_pos hs, dif_pos (by omega)]
  · have ht : ¬t < 0 := fun h => hs (by simpa using hsign.mp h)
    rw [if_neg hs, dif_neg (by omega), dif_pos (by omega)]

end PolkadotSdk.Arithmetic.Integers
