import PolkadotSdk.Arithmetic.Rational

/-!
# Per-things

The five types of `implement_per_thing!` (`per_things.rs`): a number of parts of some `ACCURACY`,
stored in `Inner`, with `Upper` wide enough for `ACCURACY^2`.  Modelled here, for an unsigned `N`
that `Inner` converts into:

* `from_rational_with_rounding::<N>(p, q, r)` (and `from_rational`), which computes
  `ACCURACY * p / q` with `MultiplyRational` of `N` and converts the result back to `Inner`;
* `rational_mul_correction`, `overflow_prune_mul` (the `Mul<N>` impl) and
  `saturating_reciprocal_mul` (behind `saturating_reciprocal_mul_floor`), which split
  `x * numer / denom` as `x / denom * numer` plus the rounded correction of the remainder, so as
  never to overflow `N`.

`fromRationalWithRounding_spec`: the result is `round_r(p * ACCURACY / q)`, never above `ACCURACY`;
and the round trips the fuzzer of `per_thing_mult_fraction.rs` checks hold for every input.
-/

namespace PolkadotSdk.Arithmetic.PerThings

open PolkadotSdk.Arithmetic PolkadotSdk.Lib.Unsigned Rational

/-- The per-thing types of `per_things.rs`. -/
inductive PerThingType where
  /-- `Percent`: parts per hundred, in `u8`. -/
  | percent
  /-- `PerU16`: parts per `65535`, in `u16`. -/
  | perU16
  /-- `Permill`: parts per million, in `u32`. -/
  | permill
  /-- `Perbill`: parts per billion, in `u32`. -/
  | perbill
  /-- `Perquintill`: parts per quintillion, in `u64`. -/
  | perquintill
  deriving DecidableEq, Repr

namespace PerThingType

/-- `Self::Inner`, the type of the parts. -/
def inner : PerThingType → UnsignedPrim
  | percent => .u8
  | perU16 => .u16
  | permill => .u32
  | perbill => .u32
  | perquintill => .u64

/-- `Self::Upper`, a type larger than `Self::Inner`. -/
def upper : PerThingType → UnsignedPrim
  | percent => .u16
  | perU16 => .u32
  | permill => .u64
  | perbill => .u64
  | perquintill => .u128

/-- `Self::ACCURACY`. -/
def accuracy : PerThingType → ℕ
  | percent => 100
  | perU16 => 65535
  | permill => 1000000
  | perbill => 1000000000
  | perquintill => 1000000000000000000

theorem upper_bits (P : PerThingType) : P.upper.bits = 2 * P.inner.bits := by
  cases P <;> rfl

theorem accuracy_pos (P : PerThingType) : 0 < P.accuracy := by
  cases P <;> decide

theorem accuracy_lt (P : PerThingType) : P.accuracy < 2 ^ P.inner.bits := by
  cases P <;> decide

theorem inner_bits_le_u128 (P : PerThingType) : P.inner.bits ≤ UnsignedPrim.u128.bits := by
  cases P <;> decide

theorem hundred_lt (P : PerThingType) : 100 < 2 ^ P.inner.bits := by
  cases P <;> decide

theorem hundred_le_accuracy (P : PerThingType) : 100 ≤ P.accuracy := by
  cases P <;> decide

variable (P : PerThingType) (N : UnsignedPrim)

/-- `Self::ACCURACY` as a value of `Self::Inner`; also `one()`. -/
def accuracyInner : BitVec P.inner.bits := BitVec.ofNat _ P.accuracy

/-- `PerThing::from_rational_with_rounding::<N>`. -/
def fromRationalWithRounding (p q : BitVec N.bits) (r : Rounding) :
    Except Unit (BitVec P.inner.bits) :=
  if q = 0 then .error ()
  else if p > q then .error ()
  else
    let max : BitVec N.bits := P.accuracyInner.setWidth N.bits
    match N.multiplyRational max p q r with
    | none => .error ()
    | some x => tryInto P.inner.bits x

/-- `PerThing::from_rational`: rounding down, and `one()` where that fails. -/
def fromRational (p q : BitVec N.bits) : BitVec P.inner.bits :=
  match P.fromRationalWithRounding N p q .down with
  | .ok x => x
  | .error _ => P.accuracyInner

/-- `rational_mul_correction::<N, Self>`: the error of `x / denom * numer`, that is
`x % denom * numer / denom` rounded, computed in `Self::Upper`. -/
def rationalMulCorrection (x : BitVec N.bits) (numer denom : BitVec P.inner.bits)
    (rounding : Rounding) : BitVec N.bits :=
  let numerUpper : BitVec P.upper.bits := numer.setWidth _
  let denomN : BitVec N.bits := denom.setWidth _
  let denomUpper : BitVec P.upper.bits := denom.setWidth _
  let rem := x % denomN
  let remInner : BitVec P.inner.bits := saturatedInto _ rem
  let remMulUpper := remInner.setWidth P.upper.bits * numerUpper
  let remMulDivInner : BitVec P.inner.bits := saturatedInto _ (remMulUpper / denomUpper)
  let remMulDivInner :=
    if rounding.roundsUp (remMulUpper % denomUpper) denomUpper then remMulDivInner + 1
    else remMulDivInner
  remMulDivInner.setWidth N.bits

/-- `overflow_prune_mul::<N, Self>`: `x * part / ACCURACY` without overflowing. -/
def overflowPruneMul (x : BitVec N.bits) (part : BitVec P.inner.bits) (rounding : Rounding) :
    BitVec N.bits :=
  let maximum : BitVec N.bits := P.accuracyInner.setWidth N.bits
  let partN : BitVec N.bits := part.setWidth N.bits
  let c := P.rationalMulCorrection N x part P.accuracyInner rounding
  x / maximum * partN + c

/-- `saturating_reciprocal_mul::<N, Self>`: `x * ACCURACY / part`, saturating. -/
def saturatingReciprocalMul (x : BitVec N.bits) (part : BitVec P.inner.bits)
    (rounding : Rounding) : BitVec N.bits :=
  let maximum : BitVec N.bits := P.accuracyInner.setWidth N.bits
  let c := P.rationalMulCorrection N x P.accuracyInner part rounding
  saturatingAdd (saturatingMul (x / part.setWidth N.bits) maximum) c

/-- `impl Mul<N> for $name`: `self * b`, rounding to the nearest, ties down. -/
def mul (self : BitVec P.inner.bits) (b : BitVec N.bits) : BitVec N.bits :=
  P.overflowPruneMul N b self .nearestPrefDown

/-- `PerThing::mul_floor`: `self * b`, rounding down. -/
def mulFloor (self : BitVec P.inner.bits) (b : BitVec N.bits) : BitVec N.bits :=
  P.overflowPruneMul N b self .down

/-- `PerThing::mul_ceil`: `self * b`, rounding up. -/
def mulCeil (self : BitVec P.inner.bits) (b : BitVec N.bits) : BitVec N.bits :=
  P.overflowPruneMul N b self .up

/-- `PerThing::saturating_reciprocal_mul_floor`: `b / self`, rounding down. -/
def saturatingReciprocalMulFloor (self : BitVec P.inner.bits) (b : BitVec N.bits) :
    BitVec N.bits :=
  P.saturatingReciprocalMul N b self .down

/-- `PerThing::saturating_reciprocal_mul_ceil`: `b / self`, rounding up. -/
def saturatingReciprocalMulCeil (self : BitVec P.inner.bits) (b : BitVec N.bits) :
    BitVec N.bits :=
  P.saturatingReciprocalMul N b self .up

/-! ## Reading the operations on the naturals -/

theorem toNat_accuracyInner : P.accuracyInner.toNat = P.accuracy :=
  toNat_ofNat_of_lt P.accuracy_lt

theorem toNat_setWidth_upper (a : BitVec P.inner.bits) : (a.setWidth P.upper.bits).toNat = a.toNat :=
  BitVec.toNat_setWidth_of_le (by rw [upper_bits]; omega)

theorem divRound_mul_le (r : Rounding) (x : ℕ) {part : ℕ} (hpart : part ≤ P.accuracy) :
    r.divRound (x * part) P.accuracy ≤ x :=
  Rounding.divRound_le P.accuracy_pos
    (by rw [Nat.mul_comm P.accuracy]; exact Nat.mul_le_mul_left _ hpart)

section Into

variable {P N} (hN : P.inner.bits ≤ N.bits)
include hN

theorem toNat_setWidth_into (a : BitVec P.inner.bits) : (a.setWidth N.bits).toNat = a.toNat :=
  BitVec.toNat_setWidth_of_le hN

/-- **`rational_mul_correction` is the rounded correction** `round_r(x % denom * numer / denom)`:
none of its conversions saturates and its `+ 1` does not overflow. -/
theorem toNat_rationalMulCorrection (x : BitVec N.bits) (numer denom : BitVec P.inner.bits)
    (hd : 0 < denom.toNat) (r : Rounding) :
    (P.rationalMulCorrection N x numer denom r).toNat =
      r.divRound (x.toNat % denom.toNat * numer.toNat) denom.toNat := by
  have hnum := numer.isLt
  have hpow : 2 ^ P.upper.bits = 2 ^ P.inner.bits * 2 ^ P.inner.bits := by
    rw [upper_bits, Nat.two_mul, Nat.pow_add]
  have hremlt : x.toNat % denom.toNat < denom.toNat := Nat.mod_lt _ hd
  have hrem : (saturatedInto P.inner.bits (x % denom.setWidth N.bits)).toNat =
      x.toNat % denom.toNat := by
    rw [toNat_saturatedInto, BitVec.toNat_umod, toNat_setWidth_into hN]
    have := denom.isLt
    omega
  -- `rem * numer` is exact in `Upper`
  have hmul : ((saturatedInto P.inner.bits (x % denom.setWidth N.bits)).setWidth P.upper.bits *
      numer.setWidth P.upper.bits).toNat = x.toNat % denom.toNat * numer.toNat := by
    rw [BitVec.toNat_mul, toNat_setWidth_upper, toNat_setWidth_upper, hrem, hpow]
    exact Nat.mod_eq_of_lt (Nat.mul_lt_mul'' (by have := denom.isLt; omega) hnum)
  -- and the rounded quotient is at most `numer`, so it fits back in `Inner`
  have hle : r.divRound (x.toNat % denom.toNat * numer.toNat) denom.toNat ≤ numer.toNat :=
    Rounding.divRound_le hd (Nat.mul_le_mul_right _ hremlt.le)
  have hremU : ((saturatedInto P.inner.bits (x % denom.setWidth N.bits)).setWidth P.upper.bits *
      numer.setWidth P.upper.bits % denom.setWidth P.upper.bits).toNat =
      x.toNat % denom.toNat * numer.toNat % (denom.setWidth P.upper.bits).toNat := by
    rw [BitVec.toNat_umod, hmul]
  have hround := r.divRound_eq_roundsUp P.upper.two_le_bits
    (by rw [toNat_setWidth_upper]; exact hd) hremU
  rw [toNat_setWidth_upper] at hround
  have hq : (saturatedInto P.inner.bits
      ((saturatedInto P.inner.bits (x % denom.setWidth N.bits)).setWidth P.upper.bits *
        numer.setWidth P.upper.bits / denom.setWidth P.upper.bits)).toNat =
      x.toNat % denom.toNat * numer.toNat / denom.toNat := by
    rw [toNat_saturatedInto_of_lt] <;> rw [BitVec.toNat_udiv, hmul, toNat_setWidth_upper]
    omega
  unfold rationalMulCorrection
  dsimp only
  rw [toNat_setWidth_into hN, hround]
  split_ifs with hup
  · rw [if_pos hup] at hround
    rw [BitVec.toNat_add, hq, toNat_one_of_pos (by have := P.inner.two_le_bits; omega)]
    exact Nat.mod_eq_of_lt (by omega)
  · rw [hq, Nat.add_zero]

/-- **The `Mul<N>` kernel is `round_r(x * part / ACCURACY)`** for a `part` of at most `ACCURACY`:
`x / ACCURACY * part` plus the correction never overflows `N`. -/
theorem toNat_overflowPruneMul (x : BitVec N.bits) (part : BitVec P.inner.bits)
    (hpart : part.toNat ≤ P.accuracy) (r : Rounding) :
    (P.overflowPruneMul N x part r).toNat = r.divRound (x.toNat * part.toNat) P.accuracy := by
  have hA := P.accuracy_pos
  have hx := x.isLt
  have hmax : (P.accuracyInner.setWidth N.bits).toNat = P.accuracy := by
    rw [toNat_setWidth_into hN, toNat_accuracyInner]
  have hc := toNat_rationalMulCorrection hN x part P.accuracyInner
    (by rw [toNat_accuracyInner]; exact hA) r
  rw [toNat_accuracyInner] at hc
  -- split `x * part` at `ACCURACY`: `x * part = ACCURACY * (x / ACCURACY * part) + x % ACCURACY * part`
  have hsplit : r.divRound (x.toNat * part.toNat) P.accuracy =
      x.toNat / P.accuracy * part.toNat + r.divRound (x.toNat % P.accuracy * part.toNat) P.accuracy := by
    rw [← r.divRound_mul_add hA, ← Nat.mul_assoc, ← Nat.add_mul, Nat.div_add_mod]
  have htotal := P.divRound_mul_le r x.toNat hpart
  have hprod : (x / P.accuracyInner.setWidth N.bits * part.setWidth N.bits).toNat =
      x.toNat / P.accuracy * part.toNat := by
    rw [BitVec.toNat_mul, BitVec.toNat_udiv, hmax, toNat_setWidth_into hN]
    exact Nat.mod_eq_of_lt (by omega)
  unfold overflowPruneMul
  dsimp only
  rw [BitVec.toNat_add, hprod, hc, hsplit]
  exact Nat.mod_eq_of_lt (by omega)

/-- **The reciprocal kernel is `min(round_r(x * ACCURACY / part), N::MAX)`** for a non-zero
`part`: the saturating product and sum saturate exactly when the true value does not fit. -/
theorem toNat_saturatingReciprocalMul (x : BitVec N.bits) (part : BitVec P.inner.bits)
    (hpart : 0 < part.toNat) (r : Rounding) :
    (P.saturatingReciprocalMul N x part r).toNat =
      min (r.divRound (x.toNat * P.accuracy) part.toNat) (2 ^ N.bits - 1) := by
  have hc := toNat_rationalMulCorrection hN x P.accuracyInner part hpart r
  rw [toNat_accuracyInner] at hc
  have hsplit : r.divRound (x.toNat * P.accuracy) part.toNat =
      x.toNat / part.toNat * P.accuracy + r.divRound (x.toNat % part.toNat * P.accuracy) part.toNat := by
    rw [← r.divRound_mul_add hpart, ← Nat.mul_assoc, ← Nat.add_mul, Nat.div_add_mod]
  unfold saturatingReciprocalMul
  dsimp only
  rw [toNat_saturatingAdd, toNat_saturatingMul, BitVec.toNat_udiv, toNat_setWidth_into hN,
    toNat_setWidth_into hN, toNat_accuracyInner, hc, hsplit]
  omega

end Into

/-! ## `from_rational_with_rounding` -/

section FromRational

variable {P N} (hN : P.inner.bits ≤ N.bits)
include hN

/-- `from_rational_with_rounding::<N>` fails exactly on `q = 0` and on `p > q`; otherwise it is
`round_r(p * ACCURACY / q)` parts. -/
theorem fromRationalWithRounding_eq (p q : BitVec N.bits) (r : Rounding) :
    P.fromRationalWithRounding N p q r =
      if q = 0 ∨ q < p then .error ()
      else .ok (BitVec.ofNat _ (r.divRound (p.toNat * P.accuracy) q.toNat)) := by
  unfold fromRationalWithRounding
  by_cases hq : q = 0
  · rw [if_pos hq, if_pos (Or.inl hq)]
  by_cases hpq : p > q
  · rw [if_neg hq, if_pos hpq, if_pos (Or.inr hpq)]
  have hqpos : 0 < q.toNat :=
    Nat.pos_of_ne_zero fun h => hq (BitVec.eq_of_toNat_eq (by rw [h]; rfl))
  have hle : p.toNat ≤ q.toNat := Nat.not_lt.mp hpq
  -- the rounded value is at most `ACCURACY`, below `2 ^ Inner::BITS ≤ 2 ^ N::BITS`
  have hbound : r.divRound (p.toNat * P.accuracy) q.toNat ≤ P.accuracy :=
    Rounding.divRound_le hqpos (Nat.mul_le_mul_right _ hle)
  have hinner : r.divRound (p.toNat * P.accuracy) q.toNat < 2 ^ P.inner.bits :=
    lt_of_le_of_lt hbound P.accuracy_lt
  have hN' : 2 ^ P.inner.bits ≤ 2 ^ N.bits := Nat.pow_le_pow_right (by decide) hN
  rw [if_neg hq, if_neg hpq, if_neg (by rintro (h | h) <;> contradiction)]
  dsimp only
  rw [Rational.multiplyRational_eq, toNat_setWidth_into hN, toNat_accuracyInner,
    Nat.mul_comm P.accuracy, if_neg (by rintro (h | h) <;> [exact hq h; omega])]
  dsimp only
  rw [tryInto_of_lt (by rw [toNat_ofNat_of_lt (by omega)]; exact hinner),
    toNat_ofNat_of_lt (by omega)]

theorem fromRationalWithRounding_ok {p q : BitVec N.bits} (hq : q ≠ 0) (hpq : p ≤ q)
    (r : Rounding) :
    ∃ x, P.fromRationalWithRounding N p q r = .ok x ∧
      x.toNat = r.divRound (p.toNat * P.accuracy) q.toNat ∧ x.toNat ≤ P.accuracy := by
  have hqpos : 0 < q.toNat :=
    Nat.pos_of_ne_zero fun h => hq (BitVec.eq_of_toNat_eq (by rw [h]; rfl))
  have hbound : r.divRound (p.toNat * P.accuracy) q.toNat ≤ P.accuracy :=
    Rounding.divRound_le hqpos (Nat.mul_le_mul_right _ (BitVec.le_def.mp hpq))
  refine ⟨_, ?_, toNat_ofNat_of_lt (lt_of_le_of_lt hbound P.accuracy_lt), ?_⟩
  · rw [fromRationalWithRounding_eq hN, if_neg]
    rintro (h | h)
    · exact hq h
    · exact absurd hpq (BitVec.not_le.mpr h)
  · rwa [toNat_ofNat_of_lt (lt_of_le_of_lt hbound P.accuracy_lt)]

theorem toNat_fromRational {p q : BitVec N.bits} (hq : q ≠ 0) (hpq : p ≤ q) :
    (P.fromRational N p q).toNat = p.toNat * P.accuracy / q.toNat := by
  obtain ⟨x, hx, hval, -⟩ := fromRationalWithRounding_ok hN hq hpq .down
  rw [fromRational, hx]
  exact hval

theorem fromRational_eq (p q : BitVec N.bits) :
    P.fromRational N p q =
      if q = 0 ∨ q < p then P.accuracyInner
      else BitVec.ofNat _ (p.toNat * P.accuracy / q.toNat) := by
  rw [fromRational, fromRationalWithRounding_eq hN]
  split_ifs <;> rfl

theorem toNat_fromRational_le (p q : BitVec N.bits) : (P.fromRational N p q).toNat ≤ P.accuracy := by
  rw [fromRational_eq hN]
  split_ifs with h
  · exact (toNat_accuracyInner P).le
  · have hpq : p ≤ q := BitVec.not_lt.mp fun hlt => h (.inr hlt)
    have hle : p.toNat * P.accuracy / q.toNat ≤ P.accuracy :=
      Nat.div_le_of_le_mul (Nat.mul_le_mul_right _ (BitVec.le_def.mp hpq))
    rw [toNat_ofNat_of_lt (lt_of_le_of_lt hle P.accuracy_lt)]
    exact hle

theorem fromRational_mono {p p' : BitVec N.bits} (h : p.toNat ≤ p'.toNat) (q : BitVec N.bits) :
    (P.fromRational N p q).toNat ≤ (P.fromRational N p' q).toNat := by
  by_cases hfail : q = 0 ∨ q < p'
  · -- the larger numerator fails, and `from_rational` is one
    rw [fromRational_eq hN p' q, if_pos hfail, toNat_accuracyInner]
    exact toNat_fromRational_le hN p q
  · have hq : q ≠ 0 := fun h0 => hfail (.inl h0)
    have hpq' : p' ≤ q := BitVec.not_lt.mp fun hlt => hfail (.inr hlt)
    have hpq : p ≤ q := BitVec.le_def.mpr (h.trans (BitVec.le_def.mp hpq'))
    rw [toNat_fromRational hN hq hpq, toNat_fromRational hN hq hpq']
    exact Nat.div_le_div_right (Nat.mul_le_mul_right _ h)

theorem mul_fromRational_le {n d : BitVec N.bits} {x : BitVec P.inner.bits}
    (hx : x.toNat = n.toNat * P.accuracy / d.toNat) (hxA : x.toNat ≤ P.accuracy) :
    P.mul N x d ≤ n := by
  rw [BitVec.le_def, mul, toNat_overflowPruneMul hN d x hxA]
  apply Rounding.divRound_le P.accuracy_pos
  rw [hx, Nat.mul_comm P.accuracy]
  exact Nat.mul_div_le _ _

theorem le_saturatingReciprocalMulFloor_fromRational {n d : BitVec N.bits}
    {x : BitVec P.inner.bits} (hx : x.toNat = n.toNat * P.accuracy / d.toNat) (hx0 : x ≠ 0) :
    d ≤ P.saturatingReciprocalMulFloor N x n := by
  have hxpos : 0 < x.toNat :=
    Nat.pos_of_ne_zero fun h => hx0 (BitVec.eq_of_toNat_eq (by rw [h]; rfl))
  have hd := d.isLt
  have hle : d.toNat ≤ n.toNat * P.accuracy / x.toNat := by
    rw [Nat.le_div_iff_mul_le hxpos, hx]
    exact Nat.mul_div_le _ _
  rw [BitVec.le_def, saturatingReciprocalMulFloor, toNat_saturatingReciprocalMul hN n x hxpos,
    Rounding.divRound_down]
  omega

end FromRational

/-- **`from_rational_with_rounding` is exact, and the fuzzer's round trips hold.** For a per-thing
`P` and an unsigned `N` with `P::Inner: Into<N>`: `MultiplyRational` is exact for every unsigned
primitive; the conversion fails exactly when `q = 0` or `p > q` and otherwise gives
`round_r(p * ACCURACY / q) ≤ ACCURACY` parts; `from_rational` rounds down; and for `n ≤ d ≠ 0`,
`(n / d) * d ≤ n` and `n / (n / d) ≥ d` (`check_mul`, `check_reciprocal_mul`). -/
theorem fromRationalWithRounding_spec (P : PerThingType) (N : UnsignedPrim)
    (hN : P.inner.bits ≤ N.bits) :
    (∀ (M : UnsignedPrim) (self n d : BitVec M.bits) (r : Rounding),
      M.multiplyRational self n d r =
        if d = 0 ∨ 2 ^ M.bits ≤ r.divRound (self.toNat * n.toNat) d.toNat then none
        else some (BitVec.ofNat M.bits (r.divRound (self.toNat * n.toNat) d.toNat))) ∧
    (∀ (p q : BitVec N.bits) (r : Rounding),
      (P.fromRationalWithRounding N p q r = .error () ↔ q = 0 ∨ q < p) ∧
      (¬(q = 0 ∨ q < p) → ∃ x, P.fromRationalWithRounding N p q r = .ok x ∧
        x.toNat = r.divRound (p.toNat * P.accuracy) q.toNat ∧ x.toNat ≤ P.accuracy)) ∧
    (∀ p q : BitVec N.bits, q ≠ 0 → p ≤ q →
      (P.fromRational N p q).toNat = p.toNat * P.accuracy / q.toNat) ∧
    (∀ n d : BitVec N.bits, n ≤ d → d ≠ 0 → ∃ x,
      P.fromRationalWithRounding N n d .down = .ok x ∧
        P.mul N x d ≤ n ∧ (x ≠ 0 → d ≤ P.saturatingReciprocalMulFloor N x n)) := by
  refine ⟨Rational.multiplyRational_eq, fun p q r => ⟨?_, fun h => ?_⟩,
    fun p q hq hpq => toNat_fromRational hN hq hpq, fun n d hnd hd => ?_⟩
  · rw [fromRationalWithRounding_eq hN]
    split_ifs with h
    · exact iff_of_true rfl h
    · exact iff_of_false (fun h' => by cases h') h
  · have hq : q ≠ 0 := fun h0 => h (Or.inl h0)
    have hpq : p ≤ q := BitVec.not_lt.mp fun hlt => h (Or.inr hlt)
    exact fromRationalWithRounding_ok hN hq hpq r
  · obtain ⟨x, hx, hval, hxA⟩ := fromRationalWithRounding_ok hN hd hnd .down
    exact ⟨x, hx, mul_fromRational_le hN hval hxA,
      le_saturatingReciprocalMulFloor_fromRational hN hval⟩

/-- `Percent::from_rational_with_rounding(985u64, 1000, NearestPrefUp)` is `99` parts. -/
theorem fromRationalWithRounding_percent_nearestPrefUp :
    ∃ x, percent.fromRationalWithRounding .u64 985 1000 .nearestPrefUp = .ok x ∧ x.toNat = 99 := by
  obtain ⟨-, hconv, -⟩ := fromRationalWithRounding_spec percent .u64 (by decide)
  obtain ⟨x, hx, hval, -⟩ := (hconv 985 1000 .nearestPrefUp).2 (by decide)
  exact ⟨x, hx, by rw [hval]; rfl⟩

end PerThingType

/-! ## Per-thing values -/

/-- A value of the per-thing type `P`: its parts, never above `ACCURACY`.  `from_parts` clamps to
`ACCURACY`, so no other value can be built. -/
structure PerThing (P : PerThingType) where
  /-- `deconstruct()`. -/
  parts : BitVec P.inner.bits
  le_accuracy : parts.toNat ≤ P.accuracy
  deriving DecidableEq

namespace PerThing

open PerThingType

variable {P : PerThingType}

/-- `from_parts`: the parts, clamped to `ACCURACY`. -/
def fromParts (parts : BitVec P.inner.bits) : PerThing P :=
  if h : parts > P.accuracyInner then ⟨P.accuracyInner, (P.toNat_accuracyInner).le⟩
  else ⟨parts, by rw [← P.toNat_accuracyInner]; exact BitVec.le_def.mp (BitVec.not_lt.mp h)⟩

/-- `zero()`. -/
def zero (P : PerThingType) : PerThing P := fromParts 0

/-- `PerThing::saturating_reciprocal_mul`: `b / self`, rounding to the nearest, ties up. -/
def saturatingReciprocalMul (self : PerThing P) (N : UnsignedPrim) (b : BitVec N.bits) :
    BitVec N.bits :=
  P.saturatingReciprocalMul N b self.parts .nearestPrefUp

/-- `PerThing::from_rational::<N>`: `from_rational_with_rounding(p, q, Down)`, or `one()` where
that fails. -/
def fromRational (N : UnsignedPrim) (hN : P.inner.bits ≤ N.bits) (p q : BitVec N.bits) :
    PerThing P :=
  ⟨P.fromRational N p q, toNat_fromRational_le hN p q⟩

@[simp] theorem parts_fromRational (N : UnsignedPrim) (hN : P.inner.bits ≤ N.bits)
    (p q : BitVec N.bits) : (PerThing.fromRational N hN p q).parts = P.fromRational N p q := rfl

/-- `PerThing::from_percent`: `from_rational::<Self::Inner>(min(x, 100), 100)`. -/
def fromPercent (x : BitVec P.inner.bits) : PerThing P :=
  PerThing.fromRational P.inner le_rfl (min x (BitVec.ofNat _ 100)) (BitVec.ofNat _ 100)

/-- `Div`: `from_rational(self.0, rhs.0)`. -/
def div (self rhs : PerThing P) : PerThing P :=
  PerThing.fromRational P.inner le_rfl self.parts rhs.parts

theorem parts_fromParts_of_le {parts : BitVec P.inner.bits} (h : parts.toNat ≤ P.accuracy) :
    (fromParts parts).parts = parts := by
  have hle : ¬parts > P.accuracyInner :=
    BitVec.not_lt.mpr (BitVec.le_def.mpr (by rw [P.toNat_accuracyInner]; exact h))
  simp only [fromParts, dif_neg hle]

@[simp] theorem parts_zero : (zero P).parts = 0 := by
  have h : ¬(0 : BitVec P.inner.bits) > P.accuracyInner := BitVec.not_lt.mpr (BitVec.le_def.mpr (Nat.zero_le _))
  simp only [zero, fromParts, dif_neg h]

theorem toNat_fromPercent (x : BitVec P.inner.bits) :
    (fromPercent x).parts.toNat = min x.toNat 100 * P.accuracy / 100 := by
  have h100 : (BitVec.ofNat P.inner.bits 100).toNat = 100 := toNat_ofNat_of_lt P.hundred_lt
  have hq : BitVec.ofNat P.inner.bits 100 ≠ 0 := fun h => by rw [h] at h100; cases h100
  have hle : min x (BitVec.ofNat P.inner.bits 100) ≤ BitVec.ofNat P.inner.bits 100 :=
    BitVec.le_def.mpr (by rw [toNat_min]; exact Nat.min_le_right _ _)
  rw [fromPercent, parts_fromRational, toNat_fromRational le_rfl hq hle, toNat_min, h100]

theorem toNat_fromPercent_one :
    (fromPercent (BitVec.ofNat P.inner.bits 1)).parts.toNat = P.accuracy / 100 := by
  have hone : (BitVec.ofNat P.inner.bits 1).toNat = 1 :=
    toNat_ofNat_of_lt (lt_trans (by norm_num) P.hundred_lt)
  rw [toNat_fromPercent, hone, Nat.min_eq_left (by norm_num), Nat.one_mul]

theorem toNat_div {self rhs : PerThing P} (hle : self.parts ≤ rhs.parts) (hrhs : rhs.parts ≠ 0) :
    (self.div rhs).parts.toNat = self.parts.toNat * P.accuracy / rhs.parts.toNat :=
  toNat_fromRational le_rfl hrhs hle

/-- **`mul_floor`, `mul_ceil` and `Mul<N>` are exact.**  For a per-thing `P` and an unsigned `N`
with `P::Inner: Into<N>`, `overflow_prune_mul` gives `round_r(x * p / ACCURACY)` on the naturals
for every rounding `r`, so it never overflows; `p.mul_floor(x)`, `p.mul_ceil(x)` and `p * x` are
the rational `x * p / ACCURACY` rounded down, up and to the nearest with ties down; and none of
them exceeds `x`. -/
theorem mul_rounding_spec (P : PerThingType) (N : UnsignedPrim) (hN : P.inner.bits ≤ N.bits)
    (p : PerThing P) (x : BitVec N.bits) :
    (∀ r : Rounding, (P.overflowPruneMul N x p.parts r).toNat =
      r.divRound (x.toNat * p.parts.toNat) P.accuracy) ∧
    Rounding.down.IsRounded (((x.toNat * p.parts.toNat : ℕ) : ℚ) / P.accuracy)
      (P.mulFloor N p.parts x).toNat ∧
    Rounding.up.IsRounded (((x.toNat * p.parts.toNat : ℕ) : ℚ) / P.accuracy)
      (P.mulCeil N p.parts x).toNat ∧
    Rounding.nearestPrefDown.IsRounded (((x.toNat * p.parts.toNat : ℕ) : ℚ) / P.accuracy)
      (P.mul N p.parts x).toNat ∧
    P.mulFloor N p.parts x ≤ x ∧ P.mulCeil N p.parts x ≤ x ∧ P.mul N p.parts x ≤ x := by
  have hexact (r : Rounding) := toNat_overflowPruneMul hN x p.parts p.le_accuracy r
  have hround (r : Rounding) := r.isRounded_divRound (x.toNat * p.parts.toNat) P.accuracy_pos
  have hle (r : Rounding) : P.overflowPruneMul N x p.parts r ≤ x := by
    rw [BitVec.le_def, hexact r]
    exact P.divRound_mul_le r x.toNat p.le_accuracy
  refine ⟨hexact, ?_, ?_, ?_, hle .down, hle .up, hle .nearestPrefDown⟩
  · rw [mulFloor, hexact]; exact hround .down
  · rw [mulCeil, hexact]; exact hround .up
  · rw [PerThingType.mul, hexact]; exact hround .nearestPrefDown

/-- `Percent::from_parts(34).mul_floor(10u64)`, `mul_ceil` and `*`. -/
theorem mul_rounding_spec_percent :
    percent.inner.bits ≤ UnsignedPrim.u64.bits ∧
    ((∀ r : Rounding, (percent.overflowPruneMul .u64 10 (fromParts 34).parts r).toNat =
      r.divRound (10 * 34) 100) ∧
    Rounding.down.IsRounded (((10 * 34 : ℕ) : ℚ) / 100)
      (percent.mulFloor .u64 (fromParts 34).parts 10).toNat ∧
    Rounding.up.IsRounded (((10 * 34 : ℕ) : ℚ) / 100)
      (percent.mulCeil .u64 (fromParts 34).parts 10).toNat ∧
    Rounding.nearestPrefDown.IsRounded (((10 * 34 : ℕ) : ℚ) / 100)
      (percent.mul .u64 (fromParts 34).parts 10).toNat ∧
    percent.mulFloor .u64 (fromParts 34).parts 10 ≤ 10 ∧
    percent.mulCeil .u64 (fromParts 34).parts 10 ≤ 10 ∧
    percent.mul .u64 (fromParts 34).parts 10 ≤ 10) :=
  ⟨by decide, mul_rounding_spec percent .u64 (by decide) (fromParts 34) 10⟩

/-- **The reciprocal multiplications saturate exactly.**  For a per-thing `P`, an unsigned `N`
with `P::Inner: Into<N>` and a non-zero `p`, `saturating_reciprocal_mul`,
`saturating_reciprocal_mul_floor` and `saturating_reciprocal_mul_ceil` of `x` are
`min(round_r(x * ACCURACY / p), N::MAX)`, rounding to the nearest with ties up, down and up, where
`round_r` rounds the rational quotient. -/
theorem saturatingReciprocalMul_spec (P : PerThingType) (N : UnsignedPrim)
    (hN : P.inner.bits ≤ N.bits) (p : PerThing P) (hp : 0 < p.parts.toNat) (x : BitVec N.bits) :
    (p.saturatingReciprocalMul N x).toNat =
      min (Rounding.nearestPrefUp.divRound (x.toNat * P.accuracy) p.parts.toNat)
        (2 ^ N.bits - 1) ∧
    (P.saturatingReciprocalMulFloor N p.parts x).toNat =
      min (Rounding.down.divRound (x.toNat * P.accuracy) p.parts.toNat) (2 ^ N.bits - 1) ∧
    (P.saturatingReciprocalMulCeil N p.parts x).toNat =
      min (Rounding.up.divRound (x.toNat * P.accuracy) p.parts.toNat) (2 ^ N.bits - 1) ∧
    ∀ r : Rounding, r.IsRounded (((x.toNat * P.accuracy : ℕ) : ℚ) / p.parts.toNat)
      (r.divRound (x.toNat * P.accuracy) p.parts.toNat) := by
  have hexact (r : Rounding) := toNat_saturatingReciprocalMul hN x p.parts hp r
  exact ⟨hexact .nearestPrefUp, hexact .down, hexact .up,
    fun r => r.isRounded_divRound _ hp⟩

/-- `Percent::from_percent(50).saturating_reciprocal_mul(10u64)` and its floor and ceiling. -/
theorem saturatingReciprocalMul_spec_percent :
    percent.inner.bits ≤ UnsignedPrim.u64.bits ∧ 0 < (fromParts 50 : PerThing percent).parts.toNat ∧
    ((fromParts 50 : PerThing percent).saturatingReciprocalMul .u64 10).toNat =
      min (Rounding.nearestPrefUp.divRound (10 * 100) 50) (2 ^ 64 - 1) ∧
    (percent.saturatingReciprocalMulFloor .u64 (fromParts 50).parts 10).toNat =
      min (Rounding.down.divRound (10 * 100) 50) (2 ^ 64 - 1) ∧
    (percent.saturatingReciprocalMulCeil .u64 (fromParts 50).parts 10).toNat =
      min (Rounding.up.divRound (10 * 100) 50) (2 ^ 64 - 1) ∧
    ∀ r : Rounding, r.IsRounded (((10 * 100 : ℕ) : ℚ) / 50) (r.divRound (10 * 100) 50) :=
  ⟨by decide, by decide,
    saturatingReciprocalMul_spec percent .u64 (by decide) (fromParts 50) (by decide) 10⟩

end PerThing

end PolkadotSdk.Arithmetic.PerThings
