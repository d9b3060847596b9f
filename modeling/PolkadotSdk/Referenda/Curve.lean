import PolkadotSdk.Arithmetic.PerThings
import PolkadotSdk.Arithmetic.Helpers128Bit

/-!
# Referenda curves

A track of `pallet-referenda` (`frame/referenda/src/types.rs`) needs a share of approval and of
support that falls over its decision period, given by a `Curve` over `(Perbill, Perbill)`:
`threshold x` is the level needed at `x`, `passing x y` asks `y ≥ threshold x`, and `delay y` is
meant to be the least `x` at which `y` passes (or one when none does). `decision_time`
(`lib.rs`) sets the alarm of a referendum from the delays.

`Perbill` is modelled on its parts, with `from_rational_with_rounding` as the rounded quotient
(`fromRationalWithRounding_u32` relates it to the per-thing model of `PerThings`); `FixedI64` on
its `i64` inner value, wrapping as release builds do, with `checked_rounding_div` through
`multiply_by_rational_with_rounding` of `Helpers128Bit`.

A reciprocal curve `K / (x + S) - T` whose level `y` lies strictly above the curve already at
`x = 0` passes at once, but `delay` computes `x = K / (y + T) - S < 0`, which
`try_into_perthing` refuses, and falls back to one (`delay_reciprocal_of_above`).
-/

namespace PolkadotSdk.Referenda

open PolkadotSdk.Arithmetic PolkadotSdk.Arithmetic.PerThings PolkadotSdk.Arithmetic.Rational

/-- `Perbill::ACCURACY`. -/
def accuracy : ℕ := 1000000000

/-- A `Perbill`: its parts per billion. -/
@[ext]
structure Perbill where
  parts : ℕ
  parts_le : parts ≤ accuracy
  deriving DecidableEq

namespace Perbill

def zero : Perbill := ⟨0, Nat.zero_le _⟩

def one : Perbill := ⟨accuracy, le_rfl⟩

/-- `from_parts`: clamped at one. -/
def fromParts (n : ℕ) : Perbill := ⟨min n accuracy, Nat.min_le_right _ _⟩

instance : LE Perbill := ⟨fun a b => a.parts ≤ b.parts⟩

instance : LT Perbill := ⟨fun a b => a.parts < b.parts⟩

instance (a b : Perbill) : Decidable (a ≤ b) := inferInstanceAs (Decidable (a.parts ≤ b.parts))

instance (a b : Perbill) : Decidable (a < b) := inferInstanceAs (Decidable (a.parts < b.parts))

instance : Min Perbill := ⟨fun a b => if a.parts ≤ b.parts then a else b⟩

instance : Max Perbill := ⟨fun a b => if a.parts ≤ b.parts then b else a⟩

/-- `Sub`: `from_parts(self.0 - rhs.0)`; well-formed curves only subtract without underflow. -/
instance : Sub Perbill := ⟨fun a b => fromParts (a.parts - b.parts)⟩

/-- `Add`: `from_parts(self.0 + rhs.0)`. -/
instance : Add Perbill := ⟨fun a b => fromParts (a.parts + b.parts)⟩

/-- `Mul`: the product of the parts over `ACCURACY`, rounded down, in `u64`. -/
instance : Mul Perbill :=
  ⟨fun a b => ⟨a.parts * b.parts / accuracy, Nat.div_le_of_le_mul (Nat.mul_le_mul a.parts_le b.parts_le)⟩⟩

/-- `from_rational_with_rounding(p, q, r)`: `p / q` rounded as `r`; fails when `q = 0` or
`p > q`. -/
def fromRationalWithRounding (p q : ℕ) (r : Rounding) : Except Unit Perbill :=
  if h : q = 0 ∨ q < p then .error ()
  else .ok ⟨r.divRound (p * accuracy) q,
    Rounding.divRound_le (Nat.pos_of_ne_zero fun h0 => h (.inl h0))
      (Nat.mul_le_mul_right _ (Nat.not_lt.mp fun h1 => h (.inr h1)))⟩

/-- `from_rational(p, q)`: rounding down, and one where that fails. -/
def fromRational (p q : ℕ) : Perbill :=
  match fromRationalWithRounding p q .down with
  | .ok x => x
  | .error () => one

/-- `saturating_div`: `self / rhs`, one where that fails. -/
def saturatingDiv (a b : Perbill) (r : Rounding) : Perbill :=
  match fromRationalWithRounding a.parts b.parts r with
  | .ok x => x
  | .error () => one

/-- `int_mul`: the parts times `b`, saturating in `u32` and then at one. -/
def intMul (a : Perbill) (b : ℕ) : Perbill := fromParts (min (a.parts * b) (2 ^ 32 - 1))

/-- `int_div`: the quotient of the parts, rounding down. -/
def intDiv (a b : Perbill) : ℕ := a.parts / b.parts

/-- `less_epsilon`: one part less, or zero. -/
def lessEpsilon (a : Perbill) : Perbill :=
  if a.parts = 0 then a else ⟨a.parts - 1, le_trans (Nat.sub_le _ _) a.parts_le⟩

/-- `mul_ceil` of a block number: `b * self`, rounding up. -/
def mulCeil (a : Perbill) (b : ℕ) : ℕ := Rounding.up.divRound (b * a.parts) accuracy

/-! ### Reading the operations on the parts -/

@[simp] theorem parts_zero : zero.parts = 0 := rfl

@[simp] theorem parts_one : one.parts = accuracy := rfl

theorem le_def (a b : Perbill) : a ≤ b ↔ a.parts ≤ b.parts := Iff.rfl

theorem lt_def (a b : Perbill) : a < b ↔ a.parts < b.parts := Iff.rfl

@[simp] theorem parts_fromParts (n : ℕ) : (fromParts n).parts = min n accuracy := rfl

@[simp] theorem parts_sub (a b : Perbill) : (a - b).parts = a.parts - b.parts := by
  show min (a.parts - b.parts) accuracy = _
  have := a.parts_le
  omega

@[simp] theorem parts_mul (a b : Perbill) : (a * b).parts = a.parts * b.parts / accuracy := rfl

@[simp] theorem parts_min (a b : Perbill) : (min a b).parts = min a.parts b.parts := by
  show (if a.parts ≤ b.parts then a else b).parts = _
  split <;> omega

@[simp] theorem parts_max (a b : Perbill) : (max a b).parts = max a.parts b.parts := by
  show (if a.parts ≤ b.parts then b else a).parts = _
  split <;> omega

theorem fromRationalWithRounding_of_le {p q : ℕ} (hq : 0 < q) (hpq : p ≤ q) (r : Rounding) :
    ∃ x, fromRationalWithRounding p q r = .ok x ∧ x.parts = r.divRound (p * accuracy) q := by
  rw [fromRationalWithRounding, dif_neg (by omega)]
  exact ⟨_, rfl, rfl⟩

theorem parts_fromRational {p q : ℕ} (hq : 0 < q) (hpq : p ≤ q) :
    (fromRational p q).parts = p * accuracy / q := by
  obtain ⟨x, hx, hparts⟩ := fromRationalWithRounding_of_le hq hpq .down
  rw [fromRational, hx]
  exact hparts

end Perbill

/-! ## `FixedI64` -/

/-- `i64` arithmetic wraps to `[-2^63, 2^63)`. -/
def wrapI64 (z : ℤ) : ℤ := (z + 2 ^ 63) % 2 ^ 64 - 2 ^ 63

theorem wrapI64_bounds (z : ℤ) : -2 ^ 63 ≤ wrapI64 z ∧ wrapI64 z < 2 ^ 63 := by
  unfold wrapI64
  omega

theorem wrapI64_of_bounds {z : ℤ} (h₁ : -2 ^ 63 ≤ z) (h₂ : z < 2 ^ 63) : wrapI64 z = z := by
  unfold wrapI64
  omega

/-- A `FixedI64`: its inner `i64`, standing for `inner / DIV`. -/
@[ext]
structure FixedI64 where
  inner : ℤ
  le_inner : -2 ^ 63 ≤ inner
  inner_lt : inner < 2 ^ 63
  deriving DecidableEq

namespace FixedI64

/-- `FixedI64::DIV`. -/
def DIV : ℕ := 1000000000

/-- The value of an `i64` computation, wrapped. -/
def ofInt (z : ℤ) : FixedI64 :=
  -- the range is tested on the magnitude, so that reducing an open `z` stops at once
  if h : z.natAbs < 2 ^ 63 then ⟨z, by omega, by omega⟩
  else ⟨wrapI64 z, (wrapI64_bounds z).1, (wrapI64_bounds z).2⟩

instance : Add FixedI64 := ⟨fun a b => ofInt (a.inner + b.inner)⟩

instance : Sub FixedI64 := ⟨fun a b => ofInt (a.inner - b.inner)⟩

/-- `From<Perbill>`: `saturating_from_rational(parts, ACCURACY)`, which is `parts * DIV / ACCURACY`
rounded towards zero: `parts`, as `DIV = ACCURACY`. -/
def fromPerbill (p : Perbill) : FixedI64 :=
  ⟨p.parts, by omega, by have := p.parts_le; unfold accuracy at this; omega⟩

/-- `from_i129`: a magnitude and a sign, if they fit an `i64`. -/
def fromI129 (value : ℕ) (negative : Bool) : Option FixedI64 :=
  if negative ∧ value = 2 ^ 63 then some (ofInt (-2 ^ 63))
  else if value < 2 ^ 63 then some (ofInt (if negative then -(value : ℤ) else value))
  else none

/-- `checked_rounding_div`: `self / other`, rounded as `rounding`, through
`multiply_by_rational_with_rounding` of the magnitudes. -/
def checkedRoundingDiv (a b : FixedI64) (rounding : SignedRounding) : Option FixedI64 :=
  if b.inner = 0 then none
  else
    let negative := decide (a.inner < 0) != decide (b.inner < 0)
    match Helpers128Bit.multiplyByRationalWithRounding (BitVec.ofNat 128 a.inner.natAbs)
        (BitVec.ofNat 128 DIV) (BitVec.ofNat 128 b.inner.natAbs)
        (Rounding.fromSigned rounding negative) with
    | some value => fromI129 value.toNat negative
    | none => none

/-- `into_clamped_perthing`: zero below zero, one above one. -/
def intoClampedPerthing (x : FixedI64) : Perbill :=
  if x.inner < 0 then .zero
  else if (DIV : ℤ) < x.inner then .one
  else Perbill.fromRational x.inner.toNat DIV

/-- `try_into_perthing`: the clamped value as the error when out of `[0, 1]`. -/
def tryIntoPerthing (x : FixedI64) : Except Perbill Perbill :=
  if x.inner < 0 then .error .zero
  else if (DIV : ℤ) < x.inner then .error .one
  else .ok (Perbill.fromRational x.inner.toNat DIV)

end FixedI64

namespace FixedI64

/-! ### Reading the operations on the inner values -/

theorem inner_ofInt {z : ℤ} (h₁ : -2 ^ 63 ≤ z) (h₂ : z < 2 ^ 63) : (ofInt z).inner = z := by
  unfold ofInt
  split
  · rfl
  · exact wrapI64_of_bounds h₁ h₂

theorem inner_add (a b : FixedI64) (h₁ : -2 ^ 63 ≤ a.inner + b.inner)
    (h₂ : a.inner + b.inner < 2 ^ 63) : (a + b).inner = a.inner + b.inner :=
  inner_ofInt h₁ h₂

theorem inner_sub (a b : FixedI64) (h₁ : -2 ^ 63 ≤ a.inner - b.inner)
    (h₂ : a.inner - b.inner < 2 ^ 63) : (a - b).inner = a.inner - b.inner :=
  inner_ofInt h₁ h₂

theorem inner_ofInt_add {z : ℤ} (b : FixedI64) (h₁ : -2 ^ 63 ≤ z) (h₂ : z < 2 ^ 63)
    (h₃ : -2 ^ 63 ≤ z + b.inner) (h₄ : z + b.inner < 2 ^ 63) : (ofInt z + b).inner = z + b.inner := by
  have hz := inner_ofInt h₁ h₂
  rw [inner_add _ _ (by rw [hz]; exact h₃) (by rw [hz]; exact h₄), hz]

theorem inner_ofInt_sub {z : ℤ} (b : FixedI64) (h₁ : -2 ^ 63 ≤ z) (h₂ : z < 2 ^ 63)
    (h₃ : -2 ^ 63 ≤ z - b.inner) (h₄ : z - b.inner < 2 ^ 63) : (ofInt z - b).inner = z - b.inner := by
  have hz := inner_ofInt h₁ h₂
  rw [inner_sub _ _ (by rw [hz]; exact h₃) (by rw [hz]; exact h₄), hz]

@[simp] theorem inner_fromPerbill (p : Perbill) : (fromPerbill p).inner = p.parts := rfl

theorem fromI129_of_lt {value : ℕ} (h : value < 2 ^ 63) :
    fromI129 value false = some (ofInt value) := by
  rw [fromI129, if_neg (by simp), if_pos h]
  rfl

theorem fromI129_of_le {value : ℕ} (h : 2 ^ 63 ≤ value) : fromI129 value false = none := by
  rw [fromI129, if_neg (by simp), if_neg (Nat.not_lt.mpr h)]

/-- A quotient of a non-negative by a positive value: the rounded quotient of the magnitudes, if
it fits. -/
theorem checkedRoundingDiv_of_pos (a b : FixedI64) (rounding : SignedRounding)
    (ha : 0 ≤ a.inner) (hb : 0 < b.inner) :
    a.checkedRoundingDiv b rounding =
      fromI129 ((Rounding.fromSigned rounding false).divRound (a.inner.natAbs * DIV)
        b.inner.natAbs) false := by
  have hA : a.inner.natAbs < 2 ^ 128 := by have := a.inner_lt; omega
  have hB : b.inner.natAbs < 2 ^ 128 := by have := b.inner_lt; omega
  have hB0 : BitVec.ofNat 128 b.inner.natAbs ≠ 0 := by
    intro h0
    have := congrArg BitVec.toNat h0
    rw [BitVec.toNat_ofNat, Nat.mod_eq_of_lt hB] at this
    simp at this
    omega
  have hneg : (decide (a.inner < 0) != decide (b.inner < 0)) = false := by
    simp only [decide_eq_false (not_lt.mpr ha), decide_eq_false (not_lt.mpr hb.le)]
    rfl
  rw [checkedRoundingDiv, if_neg hb.ne']
  dsimp only
  rw [hneg, Helpers128Bit.multiplyByRationalWithRounding_eq_ite, BitVec.toNat_ofNat,
    BitVec.toNat_ofNat, BitVec.toNat_ofNat, Nat.mod_eq_of_lt hA, Nat.mod_eq_of_lt hB,
    Nat.mod_eq_of_lt (by decide : DIV < 2 ^ 128)]
  by_cases hbig : 2 ^ 128 ≤ (Rounding.fromSigned rounding false).divRound (a.inner.natAbs * DIV)
      b.inner.natAbs
  · rw [if_pos (.inr hbig), fromI129_of_le (le_trans (by decide) hbig)]
  · rw [if_neg (by rintro (h0 | h0) <;> [exact hB0 h0; exact hbig h0])]
    dsimp only
    rw [BitVec.toNat_ofNat, Nat.mod_eq_of_lt (Nat.lt_of_not_le hbig)]

theorem intoClampedPerthing_parts (x : FixedI64) (h₀ : 0 ≤ x.inner) (h₁ : x.inner ≤ DIV) :
    (intoClampedPerthing x).parts = x.inner.toNat := by
  have hle : x.inner.toNat ≤ DIV := by omega
  rw [intoClampedPerthing, if_neg (not_lt.mpr h₀), if_neg (not_lt.mpr h₁),
    Perbill.parts_fromRational (by decide) hle]
  exact Nat.mul_div_cancel _ (by decide)

theorem intoClampedPerthing_of_neg (x : FixedI64) (h : x.inner < 0) :
    intoClampedPerthing x = .zero := by
  rw [intoClampedPerthing, if_pos h]

theorem intoClampedPerthing_mono {a b : FixedI64} (h : a.inner ≤ b.inner) :
    a.intoClampedPerthing ≤ b.intoClampedPerthing := by
  by_cases ha : a.inner < 0
  · rw [intoClampedPerthing_of_neg a ha]
    exact Nat.zero_le _
  by_cases hb : (DIV : ℤ) < b.inner
  · rw [show b.intoClampedPerthing = .one by rw [intoClampedPerthing, if_neg (by omega), if_pos hb]]
    exact a.intoClampedPerthing.parts_le
  · rw [Perbill.le_def, intoClampedPerthing_parts a (by omega) (by omega),
      intoClampedPerthing_parts b (by omega) (by omega)]
    omega

theorem tryIntoPerthing_of_neg (x : FixedI64) (h : x.inner < 0) :
    tryIntoPerthing x = .error .zero := by
  rw [tryIntoPerthing, if_pos h]

end FixedI64

/-! ## Curves -/

/-- A curve over `(Perbill, Perbill)`. -/
inductive Curve
  /-- From `(0, ceil)` linearly down to `(length, floor)`, then at `floor`. -/
  | linearDecreasing (length floor ceil : Perbill)
  /-- From `begin`, down by `step` every `period`, not below `end`. -/
  | steppedDecreasing (begin end_ step period : Perbill)
  /-- `factor / (x + x_offset) + y_offset`. -/
  | reciprocal (factor xOffset yOffset : FixedI64)

namespace Curve

/-- The `y` value of the curve at `x`. -/
def threshold : Curve → Perbill → Perbill
  | linearDecreasing length floor ceil, x =>
    ceil - (min x length).saturatingDiv length .down * (ceil - floor)
  | steppedDecreasing begin end_ step period, x =>
    max (begin - min (step.intMul (x.intDiv period)) begin) end_
  | reciprocal factor xOffset yOffset, x =>
    match factor.checkedRoundingDiv (FixedI64.fromPerbill x + xOffset) .low with
    | some yp => (yp + yOffset).intoClampedPerthing
    | none => .one

/-- The least `x` at which `y` passes, meant to be; one when there is none. -/
def delay : Curve → Perbill → Perbill
  | linearDecreasing length floor ceil, y =>
    if y < floor then .one
    else if ceil < y then .zero
    else (ceil - y).saturatingDiv (ceil - floor) .up * length
  | steppedDecreasing begin end_ step period, y =>
    if y < end_ then .one
    else period.intMul ((begin - min y begin + step.lessEpsilon).intDiv step)
  | reciprocal factor xOffset yOffset, y =>
    match factor.checkedRoundingDiv (FixedI64.fromPerbill y - yOffset) .high with
    | some term =>
      match (term - xOffset).tryIntoPerthing with
      | .ok x => x
      | .error _ => .one
    | none => .one

/-- Whether `y` is at least the curve at `x`. -/
def passing (c : Curve) (x y : Perbill) : Bool := decide (c.threshold x ≤ y)

section Reciprocal

variable (factor xOffset yOffset : FixedI64)

/-- With a positive factor and offset, and a `y_offset` in `[-2^62, 0]`, the reciprocal curve is
non-increasing: a quotient too large for an `i64` is one, and the others fall as `x` grows. -/
theorem threshold_reciprocal_antitone (hfactor : 0 < factor.inner) (hx : 0 < xOffset.inner)
    (hxb : xOffset.inner + FixedI64.DIV < 2 ^ 63) (hyo : -2 ^ 62 ≤ yOffset.inner)
    (hyo0 : yOffset.inner ≤ 0) {x x' : Perbill} (hxx : x ≤ x') :
    (reciprocal factor xOffset yOffset).threshold x' ≤
      (reciprocal factor xOffset yOffset).threshold x := by
  obtain ⟨F, hF⟩ : ∃ F : ℕ, factor.inner = F := ⟨factor.inner.toNat, by omega⟩
  obtain ⟨X, hX⟩ : ∃ X : ℕ, xOffset.inner = X := ⟨xOffset.inner.toNat, by omega⟩
  have hDIV : FixedI64.DIV = 1000000000 := rfl
  have hxle : x.parts ≤ FixedI64.DIV := x.parts_le
  have hxle' : x'.parts ≤ FixedI64.DIV := x'.parts_le
  have hxx' : x.parts ≤ x'.parts := hxx
  have hden (p : Perbill) (hp : p.parts ≤ FixedI64.DIV) :
      (FixedI64.fromPerbill p + xOffset).inner = (p.parts + X : ℕ) := by
    rw [FixedI64.inner_add _ _ (by simp; omega) (by simp; omega), FixedI64.inner_fromPerbill, hX]
    push_cast
    rfl
  -- the quotients at `x'` and at `x`, rounded down
  obtain ⟨Q', hQ'⟩ : ∃ Q', F * FixedI64.DIV / (x'.parts + X) = Q' := ⟨_, rfl⟩
  obtain ⟨Q, hQ⟩ : ∃ Q, F * FixedI64.DIV / (x.parts + X) = Q := ⟨_, rfl⟩
  have hQle : Q' ≤ Q := by
    rw [← hQ', ← hQ]
    exact Nat.div_le_div_left (by omega) (by omega)
  rw [threshold, threshold, FixedI64.checkedRoundingDiv_of_pos _ _ _ (by omega) (by rw [hden x' hxle']; omega),
    FixedI64.checkedRoundingDiv_of_pos _ _ _ (by omega) (by rw [hden x hxle]; omega),
    hden x' hxle', hden x hxle, hF, Int.natAbs_natCast, Int.natAbs_natCast, Int.natAbs_natCast,
    show (Rounding.fromSigned .low false).divRound (F * FixedI64.DIV) (x'.parts + X) = Q' from hQ',
    show (Rounding.fromSigned .low false).divRound (F * FixedI64.DIV) (x.parts + X) = Q from hQ]
  by_cases hfit : Q < 2 ^ 63
  · rw [FixedI64.fromI129_of_lt (lt_of_le_of_lt hQle hfit), FixedI64.fromI129_of_lt hfit]
    dsimp only
    apply FixedI64.intoClampedPerthing_mono
    rw [FixedI64.inner_ofInt_add _ (by omega) (by omega) (by omega) (by omega),
      FixedI64.inner_ofInt_add _ (by omega) (by omega) (by omega) (by omega)]
    omega
  · -- the quotient at `x` does not fit: the curve is one there
    rw [FixedI64.fromI129_of_le (Nat.le_of_not_lt hfit)]
    exact Perbill.parts_le _

/-- A reciprocal curve with `y` strictly above it at `x = 0`, by a margin that survives the
rounding (`factor ≤ (x_offset - 1) * (y - y_offset)`): `y` passes at once, and `delay y` is one. -/
theorem delay_reciprocal_of_above (y : Perbill)
    (hfactor : 0 < factor.inner) (hx : 0 < xOffset.inner)
    (hyo : -(FixedI64.DIV : ℤ) ≤ yOffset.inner) (hy : yOffset.inner < y.parts)
    (habove : factor.inner * FixedI64.DIV ≤ (xOffset.inner - 1) * (y.parts - yOffset.inner)) :
    (reciprocal factor xOffset yOffset).passing .zero y = true ∧
      (reciprocal factor xOffset yOffset).delay y = .one := by
  obtain ⟨F, hF⟩ : ∃ F : ℕ, factor.inner = F := ⟨factor.inner.toNat, by omega⟩
  obtain ⟨X, hX⟩ : ∃ X : ℕ, xOffset.inner = X := ⟨xOffset.inner.toNat, by omega⟩
  obtain ⟨Y, hY⟩ : ∃ Y : ℕ, y.parts - yOffset.inner = Y := ⟨(y.parts - yOffset.inner).toNat, by omega⟩
  have hDIV : FixedI64.DIV = 1000000000 := rfl
  have hyle : y.parts ≤ FixedI64.DIV := y.parts_le
  have hXlt := xOffset.inner_lt
  have hFlt := factor.inner_lt
  have hYpos : 0 < Y := by omega
  -- the margin, cleared of the subtraction: `F * DIV + Y ≤ X * Y`
  have hmargin : F * FixedI64.DIV + Y ≤ X * Y := by
    have : ((F * FixedI64.DIV + Y : ℕ) : ℤ) ≤ ((X * Y : ℕ) : ℤ) := by
      push_cast
      rw [hF, hX, hY] at habove
      linarith
    exact_mod_cast this
  -- the curve at `0` is `F * DIV / X`, rounded down, plus `y_offset`: below `y`
  obtain ⟨D, hDdef⟩ : ∃ D, F * FixedI64.DIV / X = D := ⟨_, rfl⟩
  have hD : D < Y := by
    rw [← hDdef]
    exact (Nat.div_lt_iff_lt_mul (by omega)).mpr (by rw [Nat.mul_comm Y]; omega)
  -- `delay` computes `F * DIV / (y - y_offset)`, rounded up: below `x_offset`
  obtain ⟨T, hTdef⟩ : ∃ T, (F * FixedI64.DIV + Y - 1) / Y = T := ⟨_, rfl⟩
  have hT : T < X := by
    rw [← hTdef]
    exact (Nat.div_lt_iff_lt_mul hYpos).mpr (by omega)
  constructor
  · have hsum : (FixedI64.fromPerbill .zero + xOffset).inner = X := by
      rw [FixedI64.inner_add _ _ (by simp; omega) (by simp; omega), FixedI64.inner_fromPerbill,
        Perbill.parts_zero, hX]
      simp
    have hq : factor.checkedRoundingDiv (FixedI64.fromPerbill .zero + xOffset) .low =
        some (FixedI64.ofInt D) := by
      rw [FixedI64.checkedRoundingDiv_of_pos _ _ _ (by omega) (by omega), hsum, hF,
        Int.natAbs_natCast, Int.natAbs_natCast, ← hDdef]
      exact FixedI64.fromI129_of_lt (show F * FixedI64.DIV / X < 2 ^ 63 by omega)
    have hv : (FixedI64.ofInt D + yOffset).inner = D + yOffset.inner :=
      FixedI64.inner_ofInt_add _ (by omega) (by omega) (by omega) (by omega)
    rw [passing, decide_eq_true_iff, threshold, hq]
    dsimp only
    by_cases hneg : (FixedI64.ofInt D + yOffset).inner < 0
    · rw [FixedI64.intoClampedPerthing_of_neg _ hneg]
      exact Nat.zero_le _
    · rw [Perbill.le_def, FixedI64.intoClampedPerthing_parts _ (by omega) (by omega)]
      omega
  · have hdiff : (FixedI64.fromPerbill y - yOffset).inner = Y := by
      rw [FixedI64.inner_sub _ _ (by simp; omega) (by simp; omega), FixedI64.inner_fromPerbill, hY]
    rw [delay, FixedI64.checkedRoundingDiv_of_pos _ _ _ (by omega) (by omega), hdiff, hF,
      Int.natAbs_natCast, Int.natAbs_natCast,
      show (Rounding.fromSigned .high false).divRound (F * FixedI64.DIV) Y = T from hTdef]
    by_cases hfit : T < 2 ^ 63
    · have hdelay : (FixedI64.ofInt T - xOffset).inner = T - xOffset.inner :=
        FixedI64.inner_ofInt_sub _ (by omega) (by omega) (by omega) (by omega)
      rw [FixedI64.fromI129_of_lt hfit]
      dsimp only
      rw [FixedI64.tryIntoPerthing_of_neg _ (by rw [hdelay]; omega)]
    · rw [FixedI64.fromI129_of_le (Nat.le_of_not_lt hfit)]

end Reciprocal

end Curve

/-! ## Deciding -/

/-- `is_passing`: both curves pass at `elapsed` blocks into a decision `period`. -/
def isPassing (support approval : Perbill) (elapsed period : ℕ)
    (supportNeeded approvalNeeded : Curve) : Bool :=
  let x := Perbill.fromRational (min elapsed period) period
  supportNeeded.passing x support && approvalNeeded.passing x approval

/-- `decision_time`: the block of a confirmation under way, or else the block at which the current
tally passes both curves, by their delays. -/
def decisionTime (confirming : Option ℕ) (since : ℕ) (approval support : Perbill)
    (minApproval minSupport : Curve) (decisionPeriod : ℕ) : ℕ :=
  match confirming with
  | some b => b
  | none =>
    let untilApproval := minApproval.delay approval
    let untilSupport := minSupport.delay support
    since + (max untilSupport untilApproval).mulCeil decisionPeriod

/-- `1 / (x + 2)`: one half at `x = 0`, a third at `x = 1`. -/
def halfReciprocal : Curve :=
  .reciprocal (FixedI64.ofInt 1000000000) (FixedI64.ofInt 2000000000) (FixedI64.ofInt 0)

/-- Sixty percent. -/
def sixtyPercent : Perbill := ⟨600000000, by decide⟩

theorem delay_halfReciprocal_sixty :
    (∀ x x' : Perbill, x ≤ x' → halfReciprocal.threshold x' ≤ halfReciprocal.threshold x) ∧
      halfReciprocal.passing .zero sixtyPercent = true ∧ halfReciprocal.delay sixtyPercent = .one ∧
      isPassing sixtyPercent sixtyPercent 0 100 halfReciprocal halfReciprocal = true ∧
      decisionTime none 0 sixtyPercent sixtyPercent halfReciprocal halfReciprocal 100 = 100 := by
  obtain ⟨hpass, hdelay⟩ := Curve.delay_reciprocal_of_above (FixedI64.ofInt 1000000000)
    (FixedI64.ofInt 2000000000) (FixedI64.ofInt 0) sixtyPercent (by decide) (by decide)
    (by decide) (by decide) (by decide)
  have hzero : Perbill.fromRational (min 0 100) 100 = .zero := by decide
  refine ⟨fun x x' hxx => Curve.threshold_reciprocal_antitone _ _ _ (by decide) (by decide)
    (by decide) (by decide) (by decide) hxx, hpass, hdelay, ?_, ?_⟩
  · simp only [isPassing, halfReciprocal, hzero, hpass, Bool.and_self]
  · simp only [decisionTime, halfReciprocal, hdelay]
    decide

end PolkadotSdk.Referenda
