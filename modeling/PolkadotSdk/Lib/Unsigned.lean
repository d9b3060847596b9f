import Mathlib.Tactic.Linarith

/-!
# Checked and saturating unsigned arithmetic

The operations of Rust's unsigned integers that the arithmetic of the runtime relies on, on
`BitVec w`, and what each computes on the naturals:

* `checkedAdd` (`checked_add`) is `none` exactly on overflow;
* `saturatingAdd`, `saturatingMul` (`saturating_add`, `saturating_mul`) cap at `2^w - 1`, and
  `saturatingSub` (`saturating_sub`) at `0`;
* `saturatedInto v` (`UniqueSaturatedInto`) converts to `v` bits, capping at `2^v - 1`.

Widening casts (`as` to a larger type, `From`, `Into`) are `BitVec.setWidth` to a larger width,
which keeps the value (`toNat_setWidth_of_le`); narrowing ones truncate.
-/

namespace PolkadotSdk.Lib.Unsigned

variable {w : ℕ}

/-- `Ord::min` of the unsigned integers: the smaller value. -/
instance minBitVec : Min (BitVec w) := minOfLe

/-- `Ord::max` of the unsigned integers: the larger value. -/
instance maxBitVec : Max (BitVec w) := maxOfLe

/-- `checked_add`: `None` when the sum overflows. -/
def checkedAdd (a b : BitVec w) : Option (BitVec w) :=
  if BitVec.uaddOverflow a b then none else some (a + b)

/-- `checked_sub`: `None` when the difference would be negative.  It is also the `-` of a build
with overflow checks, which panics where this is `None`. -/
def checkedSub (a b : BitVec w) : Option (BitVec w) :=
  if a < b then none else some (a - b)

/-- `checked_mul`: `None` when the product overflows; also the `*` of a build with overflow
checks. -/
def checkedMul (a b : BitVec w) : Option (BitVec w) :=
  if BitVec.umulOverflow a b then none else some (a * b)

/-- `<<` of a build with overflow checks: `None` when the shift is not below the width. -/
def checkedShl (a : BitVec w) (s : ℕ) : Option (BitVec w) :=
  if s < w then some (a <<< s) else none

/-- `>>` of a build with overflow checks: `None` when the shift is not below the width. -/
def checkedShr (a : BitVec w) (s : ℕ) : Option (BitVec w) :=
  if s < w then some (a >>> s) else none

/-- `overflowing_shl(s)`: the shift by `s` modulo the width, and whether `s` was at least the
width. -/
def overflowingShl (a : BitVec w) (s : ℕ) : BitVec w × Bool :=
  (a <<< (s % w), decide (w ≤ s))

/-- `pow` of a build with overflow checks: `None` when the power does not fit. -/
def checkedPow (a : BitVec w) (e : ℕ) : Option (BitVec w) :=
  if a.toNat ^ e < 2 ^ w then some (BitVec.ofNat w (a.toNat ^ e)) else none

/-- `checked_next_power_of_two`: the least power of two at least `a`, `None` when it does not
fit. -/
def checkedNextPowerOfTwo (a : BitVec w) : Option (BitVec w) :=
  if a.toNat.nextPowerOfTwo < 2 ^ w then some (BitVec.ofNat w a.toNat.nextPowerOfTwo) else none

/-- `Ord::clamp(self, min, max)`; its assertion `min <= max` holds at every call modelled. -/
def clamp (a lo hi : BitVec w) : BitVec w :=
  if a < lo then lo else if a > hi then hi else a

/-- `saturating_add`: the sum, or the maximum when it overflows. -/
def saturatingAdd (a b : BitVec w) : BitVec w :=
  if BitVec.uaddOverflow a b then BitVec.allOnes w else a + b

/-- `saturating_sub`: the difference, or zero when it would be negative. -/
def saturatingSub (a b : BitVec w) : BitVec w :=
  if a < b then 0 else a - b

/-- `saturating_mul`: the product, or the maximum when it overflows. -/
def saturatingMul (a b : BitVec w) : BitVec w :=
  if BitVec.umulOverflow a b then BitVec.allOnes w else a * b

/-- `saturated_into` a `v`-bit type: the value, or the maximum of the target when it does not
fit. -/
def saturatedInto (v : ℕ) (a : BitVec w) : BitVec v :=
  if a.toNat < 2 ^ v then a.setWidth v else BitVec.allOnes v

/-- `try_into` a `v`-bit type: the value when it fits. -/
def tryInto (v : ℕ) (a : BitVec w) : Except Unit (BitVec v) :=
  if a.toNat < 2 ^ v then .ok (a.setWidth v) else .error ()

theorem checkedAdd_eq (a b : BitVec w) :
    checkedAdd a b = if 2 ^ w ≤ a.toNat + b.toNat then none
      else some (BitVec.ofNat w (a.toNat + b.toNat)) := by
  simp only [checkedAdd, BitVec.uaddOverflow, ge_iff_le, decide_eq_true_eq]
  split
  · rfl
  · exact congrArg some (BitVec.eq_of_toNat_eq (by simp))

theorem checkedAdd_of_lt {a b : BitVec w} (h : a.toNat + b.toNat < 2 ^ w) :
    checkedAdd a b = some (a + b) ∧ (a + b).toNat = a.toNat + b.toNat := by
  have hsum : (a + b).toNat = a.toNat + b.toNat := by rw [BitVec.toNat_add, Nat.mod_eq_of_lt h]
  refine ⟨?_, hsum⟩
  rw [checkedAdd_eq, if_neg (by omega)]
  exact congrArg some (BitVec.eq_of_toNat_eq (by rw [hsum, BitVec.toNat_ofNat, Nat.mod_eq_of_lt h]))

theorem checkedSub_of_le {a b : BitVec w} (h : b.toNat ≤ a.toNat) :
    checkedSub a b = some (a - b) ∧ (a - b).toNat = a.toNat - b.toNat := by
  have hle : b ≤ a := BitVec.le_def.mpr h
  exact ⟨if_neg (BitVec.not_lt.mpr hle), BitVec.toNat_sub_of_le hle⟩

theorem checkedSub_of_lt {a b : BitVec w} (h : a.toNat < b.toNat) : checkedSub a b = none :=
  if_pos (BitVec.lt_def.mpr h)

theorem checkedMul_eq (a b : BitVec w) :
    checkedMul a b = if 2 ^ w ≤ a.toNat * b.toNat then none
      else some (BitVec.ofNat w (a.toNat * b.toNat)) := by
  simp only [checkedMul, BitVec.umulOverflow, ge_iff_le, decide_eq_true_eq]
  split
  · rfl
  · exact congrArg some (BitVec.eq_of_toNat_eq (by simp))

theorem checkedMul_of_lt {a b : BitVec w} (h : a.toNat * b.toNat < 2 ^ w) :
    checkedMul a b = some (a * b) ∧ (a * b).toNat = a.toNat * b.toNat := by
  have hprod : (a * b).toNat = a.toNat * b.toNat := by rw [BitVec.toNat_mul, Nat.mod_eq_of_lt h]
  refine ⟨?_, hprod⟩
  rw [checkedMul_eq, if_neg (by omega)]
  exact congrArg some (BitVec.eq_of_toNat_eq (by rw [hprod, BitVec.toNat_ofNat, Nat.mod_eq_of_lt h]))

theorem toNat_saturatingAdd (a b : BitVec w) :
    (saturatingAdd a b).toNat = min (a.toNat + b.toNat) (2 ^ w - 1) := by
  have := a.isLt; have := b.isLt
  simp only [saturatingAdd, BitVec.uaddOverflow, ge_iff_le, decide_eq_true_eq]
  split
  · rw [BitVec.toNat_allOnes]; omega
  · rw [BitVec.toNat_add, Nat.mod_eq_of_lt (by omega)]; omega

theorem saturatingAdd_mono {a a' b b' : BitVec w} (ha : a.toNat ≤ a'.toNat)
    (hb : b.toNat ≤ b'.toNat) : (saturatingAdd a b).toNat ≤ (saturatingAdd a' b').toNat := by
  rw [toNat_saturatingAdd, toNat_saturatingAdd]
  omega

theorem toNat_saturatingSub (a b : BitVec w) :
    (saturatingSub a b).toNat = a.toNat - b.toNat := by
  simp only [saturatingSub]
  split
  · next h =>
    rw [BitVec.lt_def] at h
    simp only [BitVec.ofNat_eq_ofNat, BitVec.toNat_ofNat, Nat.zero_mod]
    omega
  · next h => rw [BitVec.toNat_sub_of_le (BitVec.not_lt.mp h)]

theorem toNat_saturatingMul (a b : BitVec w) :
    (saturatingMul a b).toNat = min (a.toNat * b.toNat) (2 ^ w - 1) := by
  simp only [saturatingMul, BitVec.umulOverflow, ge_iff_le, decide_eq_true_eq]
  split
  · rw [BitVec.toNat_allOnes]; omega
  · rw [BitVec.toNat_mul, Nat.mod_eq_of_lt (by omega)]; omega

theorem toNat_saturatedInto (v : ℕ) (a : BitVec w) :
    (saturatedInto v a).toNat = min a.toNat (2 ^ v - 1) := by
  simp only [saturatedInto]
  split
  · rw [BitVec.toNat_setWidth, Nat.mod_eq_of_lt (by assumption)]; omega
  · rw [BitVec.toNat_allOnes]; omega

theorem toNat_saturatedInto_of_lt {v : ℕ} {a : BitVec w} (h : a.toNat < 2 ^ v) :
    (saturatedInto v a).toNat = a.toNat := by
  rw [toNat_saturatedInto]; omega

theorem toNat_one_of_pos (hw : 0 < w) : (1 : BitVec w).toNat = 1 :=
  BitVec.toNat_one hw

theorem tryInto_of_lt {v : ℕ} {a : BitVec w} (h : a.toNat < 2 ^ v) :
    tryInto v a = .ok (BitVec.ofNat v a.toNat) := by
  rw [tryInto, if_pos h, BitVec.ofNat_toNat]

theorem toNat_min (a b : BitVec w) : (min a b).toNat = min a.toNat b.toNat := by
  show (if a ≤ b then a else b).toNat = _
  split
  · next h => rw [BitVec.le_def] at h; omega
  · next h => rw [BitVec.le_def] at h; omega

theorem toNat_max (a b : BitVec w) : (max a b).toNat = max a.toNat b.toNat := by
  show (if a ≤ b then b else a).toNat = _
  split
  · next h => rw [BitVec.le_def] at h; omega
  · next h => rw [BitVec.le_def] at h; omega

theorem toNat_and_one (hw : 0 < w) (a : BitVec w) : (a &&& 1).toNat = a.toNat % 2 := by
  rw [BitVec.toNat_and, toNat_one_of_pos hw, Nat.and_one_is_mod]

theorem and_one_eq_zero_or_one (hw : 0 < w) (a : BitVec w) : a &&& 1 = 0 ∨ a &&& 1 = 1 := by
  have hbit := toNat_and_one hw a
  rcases Nat.mod_two_eq_zero_or_one a.toNat with h | h
  · exact .inl (BitVec.eq_of_toNat_eq (by rw [hbit, h]; rfl))
  · exact .inr (BitVec.eq_of_toNat_eq (by rw [hbit, h, toNat_one_of_pos hw]))

theorem toNat_and_not_one (a : BitVec w) : (a &&& ~~~(1 : BitVec w)).toNat = 2 * (a.toNat / 2) := by
  have hclear : a &&& ~~~(1 : BitVec w) = (a >>> 1) <<< 1 := by
    ext i hi
    by_cases h : i = 0
    · simp [h]
    · simp [h, BitVec.getLsbD_eq_getElem hi, show 1 + (i - 1) = i by omega]
  have hlt := a.isLt
  rw [hclear, BitVec.toNat_shiftLeft, BitVec.toNat_ushiftRight, Nat.shiftLeft_eq,
    Nat.shiftRight_one, Nat.mod_eq_of_lt (by omega)]
  omega

theorem toNat_clamp (a lo hi : BitVec w) (h : lo.toNat ≤ hi.toNat) :
    (clamp a lo hi).toNat = max lo.toNat (min a.toNat hi.toNat) := by
  unfold clamp
  split_ifs with hlo hhi <;> simp only [gt_iff_lt, BitVec.lt_def] at * <;> omega

theorem toNat_ofNat_of_lt {n : ℕ} (h : n < 2 ^ w) : (BitVec.ofNat w n).toNat = n := by
  rw [BitVec.toNat_ofNat, Nat.mod_eq_of_lt h]

theorem checkedNextPowerOfTwo_isPowerOfTwo {a r : BitVec w} (h : checkedNextPowerOfTwo a = some r) :
    r.toNat.isPowerOfTwo := by
  unfold checkedNextPowerOfTwo at h
  split at h
  · next hlt =>
    rw [← Option.some_inj.mp h, toNat_ofNat_of_lt hlt]
    exact Nat.isPowerOfTwo_nextPowerOfTwo _
  · cases h

theorem shr_and_shl_eq_zero (x y : BitVec w) {k : ℕ} (hk : k ≤ w) :
    (x >>> k) &&& (y <<< (w - k)) = 0#w := by
  ext i hi
  simp only [BitVec.getElem_and, BitVec.getElem_ushiftRight, BitVec.getElem_shiftLeft,
    BitVec.getElem_zero]
  by_cases h : i < w - k
  · simp [h]
  · simp [h, BitVec.getLsbD_of_ge x (k + i) (by omega)]

theorem toNat_shr_or_shl (x y : BitVec w) {k : ℕ} (hk : k ≤ w) :
    ((x >>> k) ||| (y <<< (w - k))).toNat = (x.toNat / 2 ^ k + y.toNat * 2 ^ (w - k) % 2 ^ w) % 2 ^ w := by
  rw [← BitVec.add_eq_or_of_and_eq_zero _ _ (shr_and_shl_eq_zero x y hk), BitVec.toNat_add,
    BitVec.toNat_ushiftRight, BitVec.toNat_shiftLeft, Nat.shiftRight_eq_div_pow, Nat.shiftLeft_eq]

/-- The trailing zeros of `2^j` are `j`. -/
theorem toNat_ctz_two_pow {j : ℕ} (hj : j < w) : (BitVec.ofNat w (2 ^ j)).ctz.toNat = j := by
  have hx : (BitVec.ofNat w (2 ^ j)).toNat = 2 ^ j :=
    toNat_ofNat_of_lt (Nat.pow_lt_pow_right (by norm_num) hj)
  have hbit (i : ℕ) : (BitVec.ofNat w (2 ^ j)).getLsbD i = decide (j = i) := by
    rw [BitVec.getLsbD, hx, Nat.testBit_two_pow]
  have hne : BitVec.ofNat w (2 ^ j) ≠ 0#w := fun h0 => by
    have := congrArg BitVec.toNat h0
    rw [hx, BitVec.toNat_ofNat, Nat.zero_mod] at this
    exact absurd this (Nat.pos_iff_ne_zero.mp (Nat.two_pow_pos j))
  -- bit `j` is the only bit set: below the trailing zeros it would be clear
  have hle : (BitVec.ofNat w (2 ^ j)).ctz.toNat ≤ j := by
    by_contra hlt
    have := BitVec.getLsbD_false_of_lt_ctz (x := BitVec.ofNat w (2 ^ j)) (i := j) (by omega)
    rw [hbit] at this
    simp at this
  have htrue := BitVec.getLsbD_true_ctz_of_ne_zero hne
  rw [hbit] at htrue
  exact (of_decide_eq_true htrue).symm

end PolkadotSdk.Lib.Unsigned
