import PolkadotSdk.Arithmetic.Helpers128Bit

/-!
# `MultiplyRational`

`self * n / d`, rounded, for each unsigned primitive (`rational.rs`).  The `impl_rrm!($ulow, $uhi)`
macro gives `u8`, `u16`, `u32` and `u64` one body, computed in the type of twice the width; `u128`
goes through `multiply_by_rational_with_rounding` of `helpers_128bit.rs`.

`multiplyRational_eq`: every one of them returns `None` exactly when `d = 0` or the rounded quotient
does not fit, and that quotient otherwise.
-/

namespace PolkadotSdk.Arithmetic.Rational

open PolkadotSdk.Arithmetic PolkadotSdk.Lib.Unsigned Helpers128Bit

/-- `impl_rrm!($ulow, $uhi)`, with `$ulow` of `w` bits and `$uhi` of `2 * w`. -/
def implRrm {w : ℕ} (self n d : BitVec w) (r : Rounding) : Option (BitVec w) :=
  if d = 0 then none
  else
    let sn := self.setWidth (2 * w) * n.setWidth (2 * w)
    let result := sn / d.setWidth (2 * w)
    let remainder := (sn % d.setWidth (2 * w)).setWidth w
    let rounded := if r.roundsUp remainder d then checkedAdd result 1 else some result
    match rounded with
    | none => none
    | some result =>
      if result > (BitVec.allOnes w).setWidth (2 * w) then none else some (result.setWidth w)

/-- The unsigned primitives that implement `MultiplyRational`. -/
inductive UnsignedPrim where
  | u8
  | u16
  | u32
  | u64
  | u128
  deriving DecidableEq, Repr

namespace UnsignedPrim

/-- The width of the type. -/
def bits : UnsignedPrim → ℕ
  | u8 => 8
  | u16 => 16
  | u32 => 32
  | u64 => 64
  | u128 => 128

/-- `MultiplyRational::multiply_rational`: `impl_rrm!(u8, u16)`, `impl_rrm!(u16, u32)`,
`impl_rrm!(u32, u64)`, `impl_rrm!(u64, u128)` and the `u128` impl. -/
def multiplyRational : (N : UnsignedPrim) → BitVec N.bits → BitVec N.bits → BitVec N.bits →
    Rounding → Option (BitVec N.bits)
  | u8 => implRrm
  | u16 => implRrm
  | u32 => implRrm
  | u64 => implRrm
  | u128 => multiplyByRationalWithRounding

theorem two_le_bits (N : UnsignedPrim) : 2 ≤ N.bits := by
  cases N <;> decide

end UnsignedPrim

section Width

variable {w : ℕ}

theorem toNat_setWidth_double (a : BitVec w) : (a.setWidth (2 * w)).toNat = a.toNat :=
  BitVec.toNat_setWidth_of_le (by omega)

theorem narrow_eq (result : BitVec (2 * w)) :
    (if result > (BitVec.allOnes w).setWidth (2 * w) then none else some (result.setWidth w)) =
      if 2 ^ w ≤ result.toNat then none else some (BitVec.ofNat w result.toNat) := by
  have hmax : ((BitVec.allOnes w).setWidth (2 * w)).toNat = 2 ^ w - 1 := by
    rw [toNat_setWidth_double, BitVec.toNat_allOnes]
  have hpos : 0 < 2 ^ w := Nat.two_pow_pos w
  by_cases h : 2 ^ w ≤ result.toNat
  · rw [if_pos (by rw [gt_iff_lt, BitVec.lt_def, hmax]; omega), if_pos h]
  · rw [if_neg (by rw [gt_iff_lt, BitVec.lt_def, hmax]; omega), if_neg h]
    exact congrArg some (BitVec.eq_of_toNat_eq (by
      rw [BitVec.toNat_setWidth, BitVec.toNat_ofNat]))

/-- **`impl_rrm!` is exact**: no step of the double-width computation overflows. -/
theorem implRrm_eq (hw : 2 ≤ w) (self n d : BitVec w) (r : Rounding) :
    implRrm self n d r =
      if d = 0 ∨ 2 ^ w ≤ r.divRound (self.toNat * n.toNat) d.toNat then none
      else some (BitVec.ofNat w (r.divRound (self.toNat * n.toNat) d.toNat)) := by
  by_cases hd : d = 0
  · simp [implRrm, hd]
  have hdpos : 0 < d.toNat :=
    Nat.pos_of_ne_zero fun h => hd (BitVec.eq_of_toNat_eq (by rw [h]; rfl))
  have hs := self.isLt; have hn := n.isLt
  have hpow : 2 ^ (2 * w) = 2 ^ w * 2 ^ w := by rw [Nat.two_mul, Nat.pow_add]
  -- the product `sn` is exact in `2w` bits
  have hsn : (self.setWidth (2 * w) * n.setWidth (2 * w)).toNat = self.toNat * n.toNat := by
    rw [BitVec.toNat_mul, toNat_setWidth_double, toNat_setWidth_double, hpow]
    exact Nat.mod_eq_of_lt (Nat.mul_lt_mul'' hs hn)
  have hq : (self.setWidth (2 * w) * n.setWidth (2 * w) / d.setWidth (2 * w)).toNat =
      self.toNat * n.toNat / d.toNat := by
    rw [BitVec.toNat_udiv, hsn, toNat_setWidth_double]
  have hrem : ((self.setWidth (2 * w) * n.setWidth (2 * w) % d.setWidth (2 * w)).setWidth w).toNat =
      self.toNat * n.toNat % d.toNat := by
    rw [BitVec.toNat_setWidth, BitVec.toNat_umod, hsn, toNat_setWidth_double]
    exact Nat.mod_eq_of_lt (lt_trans (Nat.mod_lt _ hdpos) d.isLt)
  -- and the quotient plus one still fits there
  have hq1 : self.toNat * n.toNat / d.toNat + 1 < 2 ^ (2 * w) := by
    have h1 : self.toNat * n.toNat / d.toNat ≤ self.toNat * n.toNat := Nat.div_le_self _ _
    have h2 : self.toNat * n.toNat < 2 ^ w * 2 ^ w := Nat.mul_lt_mul'' hs hn
    have h3 : self.toNat * n.toNat ≤ (2 ^ w - 1) * (2 ^ w - 1) := Nat.mul_le_mul (by omega) (by omega)
    have h4 : (2 ^ w - 1) * (2 ^ w - 1) + 2 ≤ 2 ^ w * 2 ^ w := by
      have : 2 ≤ 2 ^ w := le_trans (by norm_num) (Nat.pow_le_pow_right (by norm_num) hw)
      obtain ⟨k, hk⟩ : ∃ k, 2 ^ w = k + 2 := ⟨2 ^ w - 2, by omega⟩
      rw [hk, show k + 2 - 1 = k + 1 by omega]
      nlinarith
    omega
  have hround := r.divRound_eq_roundsUp hw (n := self.toNat * n.toNat) hdpos hrem
  rw [implRrm, if_neg hd]
  simp only [hd, false_or]
  by_cases hb : r.roundsUp ((self.setWidth (2 * w) * n.setWidth (2 * w) %
      d.setWidth (2 * w)).setWidth w) d = true
  · rw [if_pos hb, checkedAdd_eq, hq, toNat_one_of_pos (by omega), if_neg (by omega)]
    dsimp only
    rw [narrow_eq, hround, if_pos hb, toNat_ofNat_of_lt hq1]
  · rw [if_neg hb]
    dsimp only
    rw [narrow_eq, hq, hround, if_neg hb, Nat.add_zero]

end Width

/-- **`MultiplyRational` is exact for every unsigned primitive.** -/
theorem multiplyRational_eq (N : UnsignedPrim) (self n d : BitVec N.bits) (r : Rounding) :
    N.multiplyRational self n d r =
      if d = 0 ∨ 2 ^ N.bits ≤ r.divRound (self.toNat * n.toNat) d.toNat then none
      else some (BitVec.ofNat N.bits (r.divRound (self.toNat * n.toNat) d.toNat)) := by
  cases N with
  | u128 => exact multiplyByRationalWithRounding_eq_ite self n d r
  | _ => exact implRrm_eq (UnsignedPrim.two_le_bits _) self n d r

end PolkadotSdk.Arithmetic.Rational
