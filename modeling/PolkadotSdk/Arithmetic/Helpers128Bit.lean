import Mathlib.Data.Nat.Size
import Mathlib.Data.Nat.Sqrt
import Mathlib.Tactic.Linarith
import PolkadotSdk.Arithmetic.Rounding
import PolkadotSdk.Lib.Unsigned

/-!
# `helpers_128bit`: binary gcd, and `a * b / c` through a 256-bit intermediate

`gcd` is Stein's binary gcd, recursive on the arms of a `match`; every call lowers the total bit
length of its pair, so it terminates within `256` nested calls and returns `Nat.gcd`
(`gcd_eq_natGcd`).

`multiply_by_rational_with_rounding (a, b, c, r)` of `helpers_128bit.rs` forms the 256-bit product
`a * b` as a `Double128` out of four 64-bit partial products (`product_of`), divides it by `c`
(`Double128::div`) and rounds the quotient with the remainder as `r` prescribes.

`Double128::div` never divides a 256-bit number.  With `q = 2^128 / c` and `r = 2^128 % c`
(`div128`, `mod128`, written with two's complement so as to stay in 128 bits) it replaces the
value `high * 2^128 + low` by `high * r + low`, adding `high * q` to the quotient, until `high` is
zero.  The invariant is `x * c + self = a * b` (`divLoop_spec`), and the loop terminates because
`r < 2^128` makes the value drop at every turn: that is the measure of `divLoop`.

* `gcdArm_sound`: each arm of `gcd` returns the gcd or calls itself on a pair with the same gcd;
* `val_productOf`: `product_of` is the exact product;
* `div_spec`: `div` returns the exact quotient and remainder;
* `multiplyByRationalWithRounding_eq`: the function returns `None` exactly when `c = 0` or the
  rounded quotient does not fit in 128 bits, and the rounded quotient otherwise;
* `sqrt_eq_natSqrt`: `sqrt`, digit by digit, returns `Nat.sqrt` with no step overflowing.
-/

namespace PolkadotSdk.Arithmetic.Helpers128Bit

open PolkadotSdk.Arithmetic PolkadotSdk.Lib.Unsigned

/-! ## `gcd`: binary gcd

The arms of the `match` of `gcd` are `gcdArm`; `gcd` runs them, calling itself where an arm
does. Every call is on a pair of smaller total bit length (`gcdArm_recurse_size_lt`), which is the
measure of the recursion and bounds its depth by `256` (`gcdDepth_le`). -/

/-- What an arm of the `match` of `gcd` does: return `r`, or call `gcd x y` and shift the result
left by `shl` bits. -/
inductive GcdCall where
  | ret (r : BitVec 128)
  | recurse (x y : BitVec 128) (shl : ℕ)

/-- The arms of the `match` of `gcd`, in their order; `none` is a panic, the `unreachable!()` arm
or an underflow of `y - x`. -/
def gcdArm (a b : BitVec 128) : Option GcdCall :=
  if a = b then some (.ret b)
  else if a = 0 then some (.ret b)
  else if b = 0 then some (.ret a)
  else if a &&& 1 = 0 ∧ b &&& 1 = 1 then some (.recurse (a >>> 1) b 0)
  else if a &&& 1 = 1 ∧ b &&& 1 = 0 then some (.recurse (b >>> 1) a 0)
  else if a &&& 1 = 0 ∧ b &&& 1 = 0 then some (.recurse (a >>> 1) (b >>> 1) 1)
  else if a &&& 1 = 1 ∧ b &&& 1 = 1 then
    (checkedSub (max a b) (min a b)).map fun (d : BitVec 128) => .recurse (d >>> 1) (min a b) 0
  else none

/-- An arm is sound for `a` and `b` when a returned value is their gcd, and a call is on a pair of
smaller total bit length whose gcd, shifted back, is theirs. -/
def GcdCall.Sound (a b : BitVec 128) : GcdCall → Prop
  | .ret r => r.toNat = Nat.gcd a.toNat b.toNat
  | .recurse x y shl => Nat.gcd x.toNat y.toNat * 2 ^ shl = Nat.gcd a.toNat b.toNat ∧
      x.toNat.size + y.toNat.size < a.toNat.size + b.toNat.size

theorem size_div_two_lt {n : ℕ} (h : 0 < n) : (n / 2).size < n.size := by
  have hpos : 0 < n.size := Nat.size_pos.mpr h
  have hlt : n < 2 ^ n.size := Nat.lt_size_self n
  have hpow : 2 ^ n.size = 2 * 2 ^ (n.size - 1) := by
    rw [← pow_succ']; congr 1; omega
  have : (n / 2).size ≤ n.size - 1 := Nat.size_le.mpr (by omega)
  omega

theorem gcd_half_left {m n : ℕ} (hm : m % 2 = 0) (hn : n % 2 = 1) :
    Nat.gcd (m / 2) n = Nat.gcd m n := by
  have hodd : Nat.Coprime 2 n := by rw [Nat.Coprime, Nat.gcd_rec, hn]; rfl
  rw [← hodd.gcd_mul_left_cancel (m / 2), Nat.mul_div_cancel' (Nat.dvd_of_mod_eq_zero hm)]

theorem gcd_half_half {m n : ℕ} (hm : m % 2 = 0) (hn : n % 2 = 0) :
    Nat.gcd (m / 2) (n / 2) * 2 = Nat.gcd m n := by
  rw [Nat.mul_comm, ← Nat.gcd_mul_left, Nat.mul_div_cancel' (Nat.dvd_of_mod_eq_zero hm),
    Nat.mul_div_cancel' (Nat.dvd_of_mod_eq_zero hn)]

theorem gcd_half_sub {m n : ℕ} (hm : m % 2 = 1) (hn : n % 2 = 1) (hle : m ≤ n) :
    Nat.gcd ((n - m) / 2) m = Nat.gcd m n := by
  rw [gcd_half_left (by omega) hm, Nat.gcd_sub_self_left hle, Nat.gcd_comm]

theorem and_one_eq_iff {a c : BitVec 128} : a &&& 1 = c ↔ a.toNat % 2 = c.toNat := by
  rw [← BitVec.toNat_inj, toNat_and_one (by decide)]

theorem toNat_shiftRight_one (a : BitVec 128) : (a >>> 1).toNat = a.toNat / 2 := by
  rw [BitVec.toNat_ushiftRight, Nat.shiftRight_one]

theorem gcdArm_sound (a b : BitVec 128) : ∃ c, gcdArm a b = some c ∧ c.Sound a b := by
  have hpos {x : BitVec 128} (hx : ¬x = 0) : 0 < x.toNat :=
    Nat.pos_of_ne_zero fun h => hx (BitVec.eq_of_toNat_eq h)
  unfold gcdArm
  split_ifs with hab ha hb h01 h10 h00 h11
  · refine ⟨_, rfl, ?_⟩
    rw [GcdCall.Sound, hab, Nat.gcd_self]
  · refine ⟨_, rfl, ?_⟩
    rw [GcdCall.Sound, ha]; simp
  · refine ⟨_, rfl, ?_⟩
    rw [GcdCall.Sound, hb]; simp
  · -- `a` even, `b` odd
    rw [and_one_eq_iff, and_one_eq_iff] at h01
    refine ⟨_, rfl, ?_, ?_⟩
    · rw [toNat_shiftRight_one, pow_zero, Nat.mul_one, gcd_half_left h01.1 h01.2]
    · rw [toNat_shiftRight_one]
      have := size_div_two_lt (hpos ha)
      omega
  · -- `a` odd, `b` even: the arm names them the other way round
    rw [and_one_eq_iff, and_one_eq_iff] at h10
    refine ⟨_, rfl, ?_, ?_⟩
    · rw [toNat_shiftRight_one, pow_zero, Nat.mul_one, gcd_half_left h10.2 h10.1, Nat.gcd_comm]
    · rw [toNat_shiftRight_one]
      have := size_div_two_lt (hpos hb)
      omega
  · rw [and_one_eq_iff, and_one_eq_iff] at h00
    refine ⟨_, rfl, ?_, ?_⟩
    · rw [toNat_shiftRight_one, toNat_shiftRight_one, pow_one, gcd_half_half h00.1 h00.2]
    · rw [toNat_shiftRight_one, toNat_shiftRight_one]
      have := size_div_two_lt (hpos ha)
      have := size_div_two_lt (hpos hb)
      omega
  · -- both odd: `y - x` is `max - min`, which does not underflow
    rw [and_one_eq_iff, and_one_eq_iff] at h11
    have hne : a.toNat ≠ b.toNat := fun h => hab (BitVec.eq_of_toNat_eq h)
    have hsub := checkedSub_of_le (a := max a b) (b := min a b)
      (by rw [toNat_max, toNat_min]; omega)
    rw [hsub.1]
    refine ⟨_, rfl, ?_, ?_⟩
    · rw [toNat_shiftRight_one, hsub.2, toNat_max, toNat_min, pow_zero, Nat.mul_one]
      rcases Nat.le_total a.toNat b.toNat with hle | hle
      · rw [max_eq_right hle, min_eq_left hle, gcd_half_sub h11.1 h11.2 hle]
      · rw [max_eq_left hle, min_eq_right hle, gcd_half_sub h11.2 h11.1 hle, Nat.gcd_comm]
    · rw [toNat_shiftRight_one, hsub.2, toNat_max, toNat_min]
      have hdiff := size_div_two_lt (n := max a.toNat b.toNat - min a.toNat b.toNat) (by omega)
      have hmono := Nat.size_le_size (Nat.sub_le (max a.toNat b.toNat) (min a.toNat b.toNat))
      rcases Nat.le_total a.toNat b.toNat with hle | hle
      · rw [max_eq_right hle, min_eq_left hle] at hdiff hmono ⊢; omega
      · rw [max_eq_left hle, min_eq_right hle] at hdiff hmono ⊢; omega
  · -- the parities are `0` or `1`, so the arms above are all the cases
    rcases and_one_eq_zero_or_one (by decide) a with ha1 | ha1 <;>
      rcases and_one_eq_zero_or_one (by decide) b with hb1 | hb1 <;> simp_all

theorem gcdArm_ne_none (a b : BitVec 128) : gcdArm a b ≠ none := by
  obtain ⟨c, hc, -⟩ := gcdArm_sound a b
  rw [hc]
  exact Option.some_ne_none c

theorem GcdCall.sound_of_gcdArm {a b : BitVec 128} {c : GcdCall} (h : gcdArm a b = some c) :
    c.Sound a b := by
  obtain ⟨c', hc', hs⟩ := gcdArm_sound a b
  rw [h, Option.some_inj] at hc'
  exact hc' ▸ hs

theorem gcdArm_recurse_size_lt {a b x y : BitVec 128} {shl : ℕ}
    (h : gcdArm a b = some (.recurse x y shl)) :
    x.toNat.size + y.toNat.size < a.toNat.size + b.toNat.size :=
  (GcdCall.sound_of_gcdArm h).2

/-- `gcd` of `helpers_128bit.rs`; `none` is a panic. -/
def gcd (a b : BitVec 128) : Option (BitVec 128) :=
  match h : gcdArm a b with
  | none => none
  | some (.ret r) => some r
  | some (.recurse x y shl) => (gcd x y).map fun (r : BitVec 128) => r <<< shl
termination_by a.toNat.size + b.toNat.size
decreasing_by exact gcdArm_recurse_size_lt h

/-- How deep the calls of `gcd` nest. -/
def gcdDepth (a b : BitVec 128) : ℕ :=
  match h : gcdArm a b with
  | some (.recurse x y _) => gcdDepth x y + 1
  | _ => 0
termination_by a.toNat.size + b.toNat.size
decreasing_by exact gcdArm_recurse_size_lt h

theorem natGcd_lt (a b : BitVec 128) : Nat.gcd a.toNat b.toNat < 2 ^ 128 := by
  rcases Nat.eq_zero_or_pos a.toNat with ha | ha
  · rw [ha, Nat.gcd_zero_left]; exact b.isLt
  · exact lt_of_le_of_lt (Nat.gcd_le_left _ ha) a.isLt

theorem gcd_returns (a b : BitVec 128) :
    ∃ r, gcd a b = some r ∧ r.toNat = Nat.gcd a.toNat b.toNat := by
  fun_induction gcd a b with
  | case1 a b h => exact absurd h (gcdArm_ne_none a b)
  | case2 a b r h => exact ⟨r, rfl, GcdCall.sound_of_gcdArm h⟩
  | case3 a b x y shl h ih =>
    -- the result of the call, shifted back, loses no bit: it is a gcd of two `u128`s
    obtain ⟨r, hr, hval⟩ := ih
    refine ⟨r <<< shl, by rw [hr]; rfl, ?_⟩
    rw [BitVec.toNat_shiftLeft, Nat.shiftLeft_eq, hval, (GcdCall.sound_of_gcdArm h).1]
    exact Nat.mod_eq_of_lt (natGcd_lt a b)

theorem gcdDepth_le (a b : BitVec 128) : gcdDepth a b ≤ a.toNat.size + b.toNat.size := by
  fun_induction gcdDepth a b with
  | case1 a b x y shl h ih =>
    have := gcdArm_recurse_size_lt h
    omega
  | case2 => omega

/-- `gcd` returns the gcd of its arguments (`0` for `0` and `0`) and never panics; each call is on
a pair of smaller total bit length, so calls nest at most `256` deep. -/
theorem gcd_eq_natGcd (a b : BitVec 128) :
    (∃ r, gcd a b = some r ∧ r.toNat = Nat.gcd a.toNat b.toNat) ∧ gcdDepth a b ≤ 256 ∧
      ∀ x y shl, gcdArm a b = some (.recurse x y shl) →
        x.toNat.size + y.toNat.size < a.toNat.size + b.toNat.size := by
  refine ⟨gcd_returns a b, ?_, fun x y shl h => gcdArm_recurse_size_lt h⟩
  have hdepth := gcdDepth_le a b
  have ha : a.toNat.size ≤ 128 := Nat.size_le.mpr a.isLt
  have hb : b.toNat.size ≤ 128 := Nat.size_le.mpr b.isLt
  omega

/-! ## The `u128` helpers of `mod double128` -/

/-- Returns the least significant 64 bits of `a`. -/
def low64 (a : BitVec 128) : BitVec 128 := a &&& (((1 : BitVec 128) <<< 64) - 1)

/-- Returns the most significant 64 bits of `a`. -/
def high64 (a : BitVec 128) : BitVec 128 := a >>> 64

/-- Returns `2^128 - a` (two's complement). -/
def neg128 (a : BitVec 128) : BitVec 128 := ~~~a + 1

/-- Returns `2^128 / a`. -/
def div128 (a : BitVec 128) : BitVec 128 := neg128 a / a + 1

/-- Returns `2^128 % a`. -/
def mod128 (a : BitVec 128) : BitVec 128 := neg128 a % a

theorem toNat_low64 (a : BitVec 128) : (low64 a).toNat = a.toNat % 2 ^ 64 := by
  have hmask : ((1 : BitVec 128) <<< 64 - 1) = BitVec.ofNat 128 (2 ^ 64 - 1) := by decide
  rw [low64, hmask, BitVec.toNat_and, BitVec.toNat_ofNat,
    Nat.mod_eq_of_lt (by norm_num : 2 ^ 64 - 1 < 2 ^ 128), Nat.and_two_pow_sub_one_eq_mod]

theorem toNat_high64 (a : BitVec 128) : (high64 a).toNat = a.toNat / 2 ^ 64 := by
  rw [high64, BitVec.toNat_ushiftRight, Nat.shiftRight_eq_div_pow]

theorem toNat_one : (1 : BitVec 128).toNat = 1 := rfl

theorem toNat_neg128 {a : BitVec 128} (ha : 0 < a.toNat) : (neg128 a).toNat = 2 ^ 128 - a.toNat := by
  have := a.isLt
  rw [neg128, BitVec.toNat_add, BitVec.toNat_not, toNat_one]
  omega

theorem toNat_div128 {a : BitVec 128} (ha : 2 ≤ a.toNat) : (div128 a).toNat = 2 ^ 128 / a.toNat := by
  have := a.isLt
  have h1 : 1 ≤ 2 ^ 128 / a.toNat := (Nat.one_le_div_iff (by omega)).mpr (by omega)
  have h2 : 2 ^ 128 / a.toNat < 2 ^ 128 := Nat.div_lt_self (by norm_num) (by omega)
  have hsub := Nat.sub_mul_div (2 ^ 128) a.toNat 1
  rw [Nat.mul_one] at hsub
  rw [div128, BitVec.toNat_add, BitVec.toNat_udiv, toNat_neg128 (by omega), hsub, toNat_one]
  omega

theorem toNat_mod128 {a : BitVec 128} (ha : 0 < a.toNat) : (mod128 a).toNat = 2 ^ 128 % a.toNat := by
  have := a.isLt
  rw [mod128, BitVec.toNat_umod, toNat_neg128 ha]
  conv_rhs => rw [show 2 ^ 128 = 2 ^ 128 - a.toNat + a.toNat by omega]
  rw [Nat.add_mod_right]

/-! ## `Double128` -/

/-- A 256-bit number as two `u128` halves. -/
structure Double128 where
  high : BitVec 128
  low : BitVec 128
  deriving DecidableEq, Repr

namespace Double128

/-- The number a `Double128` stands for. -/
def val (x : Double128) : ℕ := x.high.toNat * 2 ^ 128 + x.low.toNat

def tryIntoU128 (self : Double128) : Except Unit (BitVec 128) :=
  if self.high = 0 then .ok self.low else .error ()

def zero : Double128 := ⟨0, 0⟩

/-- Return a `Double128` value representing the `scaled_value << 64`. -/
def leftShift64 (scaledValue : BitVec 128) : Double128 := ⟨scaledValue >>> 64, scaledValue <<< 64⟩

/-- Construct a value from the lower 128 bits only, with the upper being zeroed. -/
def fromLow (low : BitVec 128) : Double128 := ⟨0, low⟩

/-- Returns the same value ignoring anything in the high 128-bits. -/
def lowPart (self : Double128) : Double128 := { self with high := 0 }

/-- Wrapping 256-bit addition: `overflowing_add` of the low halves, the carry added to the high. -/
def add (self b : Double128) : Double128 :=
  let (low, overflow) := (self.low + b.low, BitVec.uaddOverflow self.low b.low)
  let carry : BitVec 128 := if overflow then 1 else 0
  let high := self.high + b.high + carry
  ⟨high, low⟩

/-- Returns `a * b` (in 256 bits), from the four 64-bit partial products. -/
def productOf (a b : BitVec 128) : Double128 :=
  let (aLow, aHigh) := (low64 a, high64 a)
  let (bLow, bHigh) := (low64 b, high64 b)
  let (f, o, i, l) := (aLow * bLow, aLow * bHigh, aHigh * bLow, aHigh * bHigh)
  let fl : Double128 := ⟨l, f⟩
  let i := leftShift64 i
  let o := leftShift64 o
  (fl.add i).add o

/-! ### Values -/

theorem val_lt (x : Double128) : x.val < 2 ^ 256 := by
  have := x.high.isLt; have := x.low.isLt
  rw [val]; omega

@[simp] theorem val_zero : zero.val = 0 := rfl

@[simp] theorem val_fromLow (low : BitVec 128) : (fromLow low).val = low.toNat := by
  simp [fromLow, val]

@[simp] theorem val_lowPart (x : Double128) : x.lowPart.val = x.low.toNat := by
  simp [lowPart, val]

theorem high_eq_zero_iff (x : Double128) : x.high = 0 ↔ x.val < 2 ^ 128 := by
  have := x.low.isLt
  rw [val, ← BitVec.toNat_inj, show (0 : BitVec 128).toNat = 0 from rfl]
  constructor
  · intro h; rw [h]; omega
  · intro h
    by_contra hne
    have : 1 ≤ x.high.toNat := Nat.one_le_iff_ne_zero.mpr hne
    omega

theorem val_of_high_eq_zero {x : Double128} (h : x.high = 0) : x.val = x.low.toNat := by
  simp [val, h]

/-- **Addition** is addition modulo `2^256`: the carry out of the low halves is the carry into the
high ones. -/
theorem val_add (x y : Double128) : (x.add y).val = (x.val + y.val) % 2 ^ 256 := by
  have hxl := x.low.isLt; have hyl := y.low.isLt
  have hcarry : (if BitVec.uaddOverflow x.low y.low then (1 : BitVec 128) else 0).toNat =
      (x.low.toNat + y.low.toNat) / 2 ^ 128 := by
    by_cases hc : x.low.toNat + y.low.toNat ≥ 2 ^ 128
    · simp only [BitVec.uaddOverflow, hc, decide_true, if_true, toNat_one]
      omega
    · simp only [BitVec.uaddOverflow, hc, decide_false, Bool.false_eq_true, if_false]
      show 0 = _
      omega
  simp only [add, val, BitVec.toNat_add, hcarry]
  omega

theorem val_add_of_lt {x y : Double128} (h : x.val + y.val < 2 ^ 256) :
    (x.add y).val = x.val + y.val := by
  rw [val_add, Nat.mod_eq_of_lt h]

theorem val_leftShift64 (s : BitVec 128) : (leftShift64 s).val = s.toNat * 2 ^ 64 := by
  have := s.isLt
  simp only [leftShift64, val, BitVec.toNat_ushiftRight, Nat.shiftRight_eq_div_pow,
    BitVec.toNat_shiftLeft, Nat.shiftLeft_eq]
  omega

/-- **`product_of` is the exact product.** -/
theorem val_productOf (a b : BitVec 128) : (productOf a b).val = a.toNat * b.toNat := by
  have ha := a.isLt; have hb := b.isLt
  have hal : a.toNat % 2 ^ 64 < 2 ^ 64 := Nat.mod_lt _ (by norm_num)
  have hbl : b.toNat % 2 ^ 64 < 2 ^ 64 := Nat.mod_lt _ (by norm_num)
  have hah : a.toNat / 2 ^ 64 < 2 ^ 64 := by omega
  have hbh : b.toNat / 2 ^ 64 < 2 ^ 64 := by omega
  -- every partial product fits in 128 bits
  have hmul : ∀ {x y : ℕ}, x < 2 ^ 64 → y < 2 ^ 64 → x * y % 2 ^ 128 = x * y := fun hx hy =>
    Nat.mod_eq_of_lt (lt_of_lt_of_eq (Nat.mul_lt_mul'' hx hy) (by norm_num))
  have hprod : a.toNat * b.toNat < 2 ^ 256 :=
    lt_of_lt_of_eq (Nat.mul_lt_mul'' ha hb) (by norm_num)
  have hsplit : a.toNat * b.toNat =
      (a.toNat / 2 ^ 64 * (b.toNat / 2 ^ 64)) * 2 ^ 128 + a.toNat % 2 ^ 64 * (b.toNat % 2 ^ 64) +
      (a.toNat / 2 ^ 64 * (b.toNat % 2 ^ 64)) * 2 ^ 64 +
      (a.toNat % 2 ^ 64 * (b.toNat / 2 ^ 64)) * 2 ^ 64 := by
    conv_lhs => rw [← Nat.div_add_mod a.toNat (2 ^ 64), ← Nat.div_add_mod b.toNat (2 ^ 64)]
    ring
  have hfl : (⟨high64 a * high64 b, low64 a * low64 b⟩ : Double128).val =
      (a.toNat / 2 ^ 64 * (b.toNat / 2 ^ 64)) * 2 ^ 128 + a.toNat % 2 ^ 64 * (b.toNat % 2 ^ 64) := by
    simp only [val, BitVec.toNat_mul, toNat_low64, toNat_high64, hmul hah hbh, hmul hal hbl]
  have hi : (high64 a * low64 b).toNat = a.toNat / 2 ^ 64 * (b.toNat % 2 ^ 64) := by
    rw [BitVec.toNat_mul, toNat_low64, toNat_high64, hmul hah hbl]
  have ho : (low64 a * high64 b).toNat = a.toNat % 2 ^ 64 * (b.toNat / 2 ^ 64) := by
    rw [BitVec.toNat_mul, toNat_low64, toNat_high64, hmul hal hbh]
  simp only [productOf, val_add, val_leftShift64, hfl, hi, ho]
  rw [Nat.mod_add_mod, ← hsplit, Nat.mod_eq_of_lt hprod]

/-! ### `div` -/

theorem val_step_lt {self : Double128} (h : ¬self.high = 0) (r : BitVec 128) :
    ((productOf self.high r).add self.lowPart).val < self.val := by
  have hr := r.isLt
  have hpos : 0 < self.high.toNat := by
    rw [Nat.pos_iff_ne_zero]; intro h0; exact h (BitVec.eq_of_toNat_eq h0)
  rw [val_add, val_productOf, val_lowPart, val]
  calc (self.high.toNat * r.toNat + self.low.toNat) % 2 ^ 256
      ≤ self.high.toNat * r.toNat + self.low.toNat := Nat.mod_le _ _
    _ < self.high.toNat * 2 ^ 128 + self.low.toNat :=
      Nat.add_lt_add_right (Nat.mul_lt_mul_of_pos_left hr hpos) _

/-- The `while self.high != 0` loop of `div`, with `q = 2^128 / rhs` and `r = 2^128 % rhs`:
`x += high * q` and `self = high * r + low`.  It terminates since `self` drops. -/
def divLoop (q r : BitVec 128) (x self : Double128) : Double128 × Double128 :=
  if h : self.high = 0 then (x, self)
  else divLoop q r (x.add (productOf self.high q)) ((productOf self.high r).add self.lowPart)
termination_by self.val
decreasing_by exact val_step_lt h r

def div (self : Double128) (rhs : BitVec 128) : Double128 × BitVec 128 :=
  if rhs = 1 then (self, 0)
  else
    let q := div128 rhs
    let r := mod128 rhs
    -- `x` and the reduced `self` after the loop
    let xs := divLoop q r zero self
    (xs.1.add (fromLow (xs.2.low / rhs)), xs.2.low % rhs)

section Loop

variable {c : BitVec 128} (hc : 2 ≤ c.toNat)
include hc

/-- **The step of the loop keeps `x * c + self`**, and adds no overflow on the way. -/
theorem divLoop_step {x self : Double128} (hbound : x.val * c.toNat + self.val < 2 ^ 256) :
    (x.add (productOf self.high (div128 c))).val * c.toNat +
      ((productOf self.high (mod128 c)).add self.lowPart).val = x.val * c.toNat + self.val := by
  have hH := self.high.isLt; have hL := self.low.isLt; have hC := c.isLt
  set H := self.high.toNat; set L := self.low.toNat; set C := c.toNat; set X := x.val
  have hR : 2 ^ 128 % C < 2 ^ 128 := lt_trans (Nat.mod_lt _ (by omega)) hC
  have hQR : 2 ^ 128 / C * C + 2 ^ 128 % C = 2 ^ 128 := Nat.div_add_mod' _ _
  have hself : self.val = H * 2 ^ 128 + L := rfl
  -- the new remainder `high * r + low` fits in 256 bits
  have hHR : H * (2 ^ 128 % C) + L < 2 ^ 256 := by
    have : H * (2 ^ 128 % C) ≤ (2 ^ 128 - 1) * (2 ^ 128 - 1) := Nat.mul_le_mul (by omega) (by omega)
    omega
  -- and so does the new quotient `x + high * q`, since `(x + high * q) * c ≤ x * c + self`
  have hXQ : X + H * (2 ^ 128 / C) < 2 ^ 256 := by
    have h1 : (X + H * (2 ^ 128 / C)) * C ≤ X * C + H * 2 ^ 128 := by
      calc (X + H * (2 ^ 128 / C)) * C = X * C + H * (2 ^ 128 / C * C) := by ring
        _ ≤ X * C + H * 2 ^ 128 := Nat.add_le_add_left (Nat.mul_le_mul_left _ (by omega)) _
    have h2 : X + H * (2 ^ 128 / C) ≤ (X + H * (2 ^ 128 / C)) * C := Nat.le_mul_of_pos_right _ (by omega)
    omega
  rw [val_add_of_lt (by rw [val_productOf, toNat_div128 hc]; exact hXQ),
    val_add_of_lt (by rw [val_productOf, val_lowPart, toNat_mod128 (by omega)]; exact hHR),
    val_productOf, val_productOf, val_lowPart, toNat_div128 hc, toNat_mod128 (by omega), hself]
  calc (X + H * (2 ^ 128 / C)) * C + (H * (2 ^ 128 % C) + L)
      = X * C + H * (2 ^ 128 / C * C + 2 ^ 128 % C) + L := by ring
    _ = X * C + (H * 2 ^ 128 + L) := by rw [hQR]; ring

/-- **The invariant of the loop.** From any `x`, `self` with `x * c + self < 2^256`, the loop ends
with `high = 0` and the same `x * c + self`. -/
theorem divLoop_spec (x self : Double128) (hbound : x.val * c.toNat + self.val < 2 ^ 256) :
    (divLoop (div128 c) (mod128 c) x self).2.high = 0 ∧
      (divLoop (div128 c) (mod128 c) x self).1.val * c.toNat +
        (divLoop (div128 c) (mod128 c) x self).2.val = x.val * c.toNat + self.val := by
  fun_induction divLoop (div128 c) (mod128 c) x self with
  | case1 x self h => exact ⟨h, rfl⟩
  | case2 x self h ih =>
    have hstep := divLoop_step hc hbound
    rw [← hstep] at hbound ⊢
    exact ih hbound

end Loop

theorem tryIntoU128_eq (x : Double128) :
    x.tryIntoU128 = if x.val < 2 ^ 128 then .ok (BitVec.ofNat 128 x.val) else .error () := by
  by_cases h : x.high = 0
  · rw [tryIntoU128, if_pos h, if_pos ((high_eq_zero_iff x).mp h), val_of_high_eq_zero h,
      BitVec.ofNat_toNat, BitVec.setWidth_eq]
  · rw [tryIntoU128, if_neg h, if_neg (mt (high_eq_zero_iff x).mpr h)]

theorem div_of_ne_one (self : Double128) {c : BitVec 128} (h1 : ¬c = 1) :
    self.div c = ((divLoop (div128 c) (mod128 c) zero self).1.add
      (fromLow ((divLoop (div128 c) (mod128 c) zero self).2.low / c)),
      (divLoop (div128 c) (mod128 c) zero self).2.low % c) := by
  rw [div, if_neg h1]

/-- **`div` returns the exact quotient and remainder** of the 256-bit value by `rhs > 0`. -/
theorem div_spec (self : Double128) {c : BitVec 128} (hc : 0 < c.toNat) :
    (self.div c).1.val = self.val / c.toNat ∧ (self.div c).2.toNat = self.val % c.toNat := by
  suffices h : self.val / c.toNat = (self.div c).1.val ∧ self.val % c.toNat = (self.div c).2.toNat from
    ⟨h.1.symm, h.2.symm⟩
  rw [Nat.div_mod_unique hc]
  by_cases h1 : c = 1
  · subst h1
    rw [show self.div 1 = (self, 0) from if_pos rfl, toNat_one]
    exact ⟨by simp, Nat.one_pos⟩
  · have hc2 : 2 ≤ c.toNat := by
      have : c.toNat ≠ 1 := fun h => h1 (BitVec.eq_of_toNat_eq (by rw [h, toNat_one]))
      omega
    have hb : zero.val * c.toNat + self.val < 2 ^ 256 := by
      rw [val_zero, Nat.zero_mul, Nat.zero_add]; exact val_lt self
    obtain ⟨hhigh, hinv⟩ := divLoop_spec hc2 zero self hb
    rw [val_zero, Nat.zero_mul, Nat.zero_add, val_of_high_eq_zero hhigh] at hinv
    rw [div_of_ne_one self h1]
    generalize divLoop (div128 c) (mod128 c) zero self = p at hhigh hinv ⊢
    -- the final `x + low / c` does not overflow: `(x + low / c) * c ≤ x * c + low`
    have hq : p.1.val + p.2.low.toNat / c.toNat < 2 ^ 256 := by
      have h1 : (p.1.val + p.2.low.toNat / c.toNat) * c.toNat ≤ p.1.val * c.toNat + p.2.low.toNat := by
        rw [Nat.add_mul]; exact Nat.add_le_add_left (Nat.div_mul_le_self _ _) _
      have h2 := Nat.le_mul_of_pos_right (p.1.val + p.2.low.toNat / c.toNat) hc
      have := val_lt self
      omega
    rw [val_add_of_lt (by rwa [val_fromLow, BitVec.toNat_udiv]), val_fromLow,
      BitVec.toNat_udiv, BitVec.toNat_umod]
    refine ⟨?_, Nat.mod_lt _ hc⟩
    rw [← hinv, Nat.mul_add, Nat.mul_comm c.toNat p.1.val]
    have := Nat.mod_add_div p.2.low.toNat c.toNat
    omega

end Double128

/-! ## `multiply_by_rational_with_rounding` -/

/-- Returns `a * b / c` (wrapping to 128 bits) or `None` in the case of overflow. -/
def multiplyByRationalWithRounding (a b c : BitVec 128) (r : Rounding) : Option (BitVec 128) :=
  if c = 0 then none
  else
    -- `(result, remainder)`
    let qr := (Double128.productOf a b).div c
    match qr.1.tryIntoU128 with
    | .error _ => none
    | .ok result => if r.roundsUp qr.2 c then checkedAdd result 1 else some result

theorem pos_of_ne_zero {c : BitVec 128} (hc : c ≠ 0) : 0 < c.toNat :=
  Nat.pos_of_ne_zero fun h => hc (BitVec.eq_of_toNat_eq (by rw [h]; rfl))

/-- The result of `multiply_by_rational_with_rounding`: `None` exactly when `c = 0` or the rounded
quotient exceeds `u128::MAX`. -/
theorem multiplyByRationalWithRounding_eq_ite (a b c : BitVec 128) (r : Rounding) :
    multiplyByRationalWithRounding a b c r =
      if c = 0 ∨ 2 ^ 128 ≤ r.divRound (a.toNat * b.toNat) c.toNat then none
      else some (BitVec.ofNat 128 (r.divRound (a.toNat * b.toNat) c.toNat)) := by
  by_cases hc : c = 0
  · simp [multiplyByRationalWithRounding, hc]
  obtain ⟨hq, hrem⟩ := (Double128.productOf a b).div_spec (pos_of_ne_zero hc)
  rw [Double128.val_productOf] at hq hrem
  have hround := r.divRound_eq_roundsUp (by norm_num) (n := a.toNat * b.toNat)
    (pos_of_ne_zero hc) hrem
  rw [multiplyByRationalWithRounding, if_neg hc]
  dsimp only
  rw [Double128.tryIntoU128_eq, hq]
  by_cases hfit : a.toNat * b.toNat / c.toNat < 2 ^ 128
  · have hq' : (BitVec.ofNat 128 (a.toNat * b.toNat / c.toNat)).toNat = a.toNat * b.toNat / c.toNat := by
      rw [BitVec.toNat_ofNat, Nat.mod_eq_of_lt hfit]
    rw [if_pos hfit]
    dsimp only
    by_cases hb : r.roundsUp ((Double128.productOf a b).div c).2 c = true
    · rw [if_pos hb, checkedAdd_eq, hq', toNat_one, hround, if_pos hb]
      simp only [hc, false_or]
    · rw [if_neg hb, hround, if_neg hb]
      simp only [hc, false_or, Nat.add_zero]
      rw [if_neg (Nat.not_le.mpr hfit)]
  · rw [if_neg hfit, hround]
    exact (if_pos (Or.inr (le_trans (Nat.not_lt.mp hfit) (Nat.le_add_right _ _)))).symm

/-- **`multiply_by_rational_with_rounding` is exact.** The 256-bit path yields the exact quotient
and remainder of `a * b` by `c ≠ 0`, and the function returns `None` exactly when `c = 0` or the
rounded quotient `round_r(a * b / c)` exceeds `u128::MAX`, and that quotient otherwise. -/
theorem multiplyByRationalWithRounding_eq (a b c : BitVec 128) (r : Rounding) :
    (c ≠ 0 → ((Double128.productOf a b).div c).1.val = a.toNat * b.toNat / c.toNat ∧
        ((Double128.productOf a b).div c).2.toNat = a.toNat * b.toNat % c.toNat) ∧
      multiplyByRationalWithRounding a b c r =
        if c = 0 ∨ 2 ^ 128 ≤ r.divRound (a.toNat * b.toNat) c.toNat then none
        else some (BitVec.ofNat 128 (r.divRound (a.toNat * b.toNat) c.toNat)) := by
  refine ⟨fun hc => ?_, multiplyByRationalWithRounding_eq_ite a b c r⟩
  rw [← Double128.val_productOf]
  exact (Double128.productOf a b).div_spec (pos_of_ne_zero hc)

/-! ## `sqrt`: the integer square root, digit by digit

With `bit = 4^k` at the head of the loop, `result` is `y * 4^(k+1)` and `n` is what is left of the
input `n0` after `y^2 * 4^(k+1)`, for `y` the square root of `n0` with its lowest `2(k+1)` bits
dropped (`SqrtInv n0 (k+1)`).  One turn decides the next binary digit of the root and keeps that
with `k - 1` (`SqrtInv.step`); `result + bit` stays below `2^128` (`SqrtInv.add_lt`), and at the
exit `result` is the square root of `n0`. -/

/-- The state of the loop of `sqrt` at the head with `bit = 4^(e-1)`, or at the exit for `e = 0`. -/
def SqrtInv (n0 e n result : ℕ) : Prop :=
  result = Nat.sqrt (n0 / 4 ^ e) * 4 ^ e ∧ n + Nat.sqrt (n0 / 4 ^ e) ^ 2 * 4 ^ e = n0

theorem sqrt_eq_of_div_four (m : ℕ) :
    Nat.sqrt m = if (2 * Nat.sqrt (m / 4) + 1) ^ 2 ≤ m then 2 * Nat.sqrt (m / 4) + 1
      else 2 * Nat.sqrt (m / 4) := by
  set y := Nat.sqrt (m / 4)
  have hlow : y ^ 2 ≤ m / 4 := Nat.sqrt_le' _
  have hhigh : m / 4 < (y + 1) ^ 2 := Nat.lt_succ_sqrt' _
  have e0 : (2 * y) ^ 2 = 4 * y ^ 2 := by ring
  have e2 : (2 * y + 1 + 1) ^ 2 = 4 * (y + 1) ^ 2 := by ring
  split_ifs with hdigit
  · exact (Nat.eq_sqrt'.mpr ⟨hdigit, by omega⟩).symm
  · exact (Nat.eq_sqrt'.mpr ⟨by omega, by omega⟩).symm

namespace SqrtInv

variable {n0 k n result : ℕ}

/-- One turn of the loop, in both of its branches. -/
theorem step (h : SqrtInv n0 (k + 1) n result) :
    (result + 4 ^ k ≤ n → SqrtInv n0 k (n - (result + 4 ^ k)) (result / 2 + 4 ^ k)) ∧
      (¬result + 4 ^ k ≤ n → SqrtInv n0 k n (result / 2)) := by
  obtain ⟨hresult, hn⟩ := h
  unfold SqrtInv
  have hP : 0 < 4 ^ k := by positivity
  rw [pow_succ 4 k, ← Nat.div_div_eq_div_mul] at hresult hn
  have hroot := sqrt_eq_of_div_four (n0 / 4 ^ k)
  generalize 4 ^ k = P at *
  generalize Nat.sqrt (n0 / P / 4) = y at *
  -- `result + bit` is `(4y + 1) P` and `n` is `n0 - 4 y^2 P`: the test asks whether the next
  -- digit of the root is `1`
  have hsq : (2 * y + 1) ^ 2 * P = 4 * (y ^ 2 * P) + 4 * (y * P) + P := by ring
  have hres : result = 4 * (y * P) := by rw [hresult]; ring
  have hrem : n + 4 * (y ^ 2 * P) = n0 := by rw [← hn]; ring
  have htest : result + P ≤ n ↔ (2 * y + 1) ^ 2 ≤ n0 / P := by
    rw [Nat.le_div_iff_mul_le hP]; omega
  refine ⟨fun hle => ?_, fun hlt => ?_⟩
  · rw [if_pos (htest.mp hle)] at hroot
    have hnext : (2 * y + 1) * P = 2 * (y * P) + P := by ring
    rw [hroot]
    omega
  · rw [if_neg (mt htest.mpr hlt)] at hroot
    have hnext : 2 * y * P = 2 * (y * P) := by ring
    have hsq0 : (2 * y) ^ 2 * P = 4 * (y ^ 2 * P) := by ring
    rw [hroot]
    omega

/-- `result + bit` does not overflow. -/
theorem add_lt (h : SqrtInv n0 (k + 1) n result) (hn0 : n0 < 2 ^ 128) (hk : 4 ^ k < 2 ^ 128) :
    result + 4 ^ k < 2 ^ 128 := by
  obtain ⟨hresult, hn⟩ := h
  generalize Nat.sqrt (n0 / 4 ^ (k + 1)) = y at hresult hn
  rcases Nat.eq_zero_or_pos y with hy | hy
  · rw [hresult, hy, Nat.zero_mul, Nat.zero_add]
    exact hk
  -- with a digit `1` decided, `4^(k+1) ≤ n0`, so `2^(k+1) ≤ 2^63`; and `y 2^(k+1)`, at most the
  -- root of `n0`, is below `2^64`
  have hfour : 4 ^ (k + 1) ≤ n0 := by
    have : 4 ^ (k + 1) ≤ y ^ 2 * 4 ^ (k + 1) := Nat.le_mul_of_pos_left _ (by positivity)
    omega
  have hk63 : k + 1 < 64 :=
    (Nat.pow_lt_pow_iff_right (by norm_num)).mp (show 4 ^ (k + 1) < 4 ^ 64 by omega)
  have ht63 : 2 ^ (k + 1) ≤ 2 ^ 63 := Nat.pow_le_pow_right (by norm_num) (by omega)
  have h4 : 4 ^ (k + 1) = 2 ^ (k + 1) * 2 ^ (k + 1) := by rw [← mul_pow]; rfl
  have hquarter : 4 ^ k * 4 = 2 ^ (k + 1) * 2 ^ (k + 1) := by rw [← pow_succ, h4]
  rw [h4] at hresult hn
  generalize 2 ^ (k + 1) = t at hresult hn ht63 hquarter
  have hroot : y * t * (y * t) < 2 ^ 64 * 2 ^ 64 := by
    have : y * t * (y * t) = y ^ 2 * (t * t) := by ring
    omega
  have hY : y * t < 2 ^ 64 := Nat.mul_self_lt_mul_self_iff.mp hroot
  have hprod : y * t * t < 2 ^ 64 * 2 ^ 63 := Nat.mul_lt_mul_of_lt_of_le hY ht63 (by positivity)
  have htt : t * t ≤ 2 ^ 63 * 2 ^ 63 := Nat.mul_le_mul ht63 ht63
  have : result = y * t * t := by rw [hresult, Nat.mul_assoc]
  omega

theorem start (hlt : n0 < 4 ^ (k + 1)) : SqrtInv n0 (k + 1) n0 0 := by
  have h0 : n0 / 4 ^ (k + 1) = 0 := Nat.div_eq_of_lt hlt
  simp [SqrtInv, h0]

theorem exit (h : SqrtInv n0 0 n result) : result = Nat.sqrt n0 := by
  simpa [SqrtInv] using h.1

end SqrtInv

/-- The body of the `while` loop of `sqrt`: the next `n` and `result`; `none` is an overflow. -/
def sqrtStep (n result bit : BitVec 128) : Option (BitVec 128 × BitVec 128) := do
  let s ← checkedAdd result bit
  if s ≤ n then
    let n' ← checkedSub n s
    let result' ← checkedAdd (result >>> 1) bit
    return (n', result')
  else return (n, result >>> 1)

theorem toNat_shiftRight_two_lt {bit : BitVec 128} (h : ¬bit = 0) :
    (bit >>> 2).toNat < bit.toNat := by
  have hpos : 0 < bit.toNat := Nat.pos_of_ne_zero fun h0 => h (BitVec.eq_of_toNat_eq h0)
  rw [BitVec.toNat_ushiftRight, Nat.shiftRight_eq_div_pow]
  omega

/-- The `while bit != 0` loop of `sqrt`, from its head. -/
def sqrtLoop (n result bit : BitVec 128) : Option (BitVec 128) :=
  if h : bit = 0 then some result
  else (sqrtStep n result bit).bind fun s => sqrtLoop s.1 s.2 (bit >>> 2)
termination_by bit.toNat
decreasing_by exact toNat_shiftRight_two_lt h

/-- `sqrt` of `helpers_128bit.rs`; `none` is an overflow or underflow. -/
def sqrt (n : BitVec 128) : Option (BitVec 128) :=
  if n = 0 then some 0
  else do
    -- `leading_zeros` is a `u32`
    let maxShift ← checkedSub ((0 : BitVec 128).clz.setWidth 32) 1
    let shift := (← checkedSub maxShift (n.clz.setWidth 32)) &&& ~~~(1 : BitVec 32)
    let bit ← checkedShl (1 : BitVec 128) shift.toNat
    sqrtLoop n 0 bit

theorem sqrtStep_spec {n0 k : ℕ} {n result bit : BitVec 128} (hn0 : n0 < 2 ^ 128)
    (hbit : bit.toNat = 4 ^ k) (h : SqrtInv n0 (k + 1) n.toNat result.toNat) :
    ∃ n' result', sqrtStep n result bit = some (n', result') ∧
      SqrtInv n0 k n'.toNat result'.toNat := by
  have hsum : result.toNat + bit.toNat < 2 ^ 128 := hbit ▸ h.add_lt hn0 (hbit ▸ bit.isLt)
  obtain ⟨hs, hsval⟩ := checkedAdd_of_lt hsum
  have hhalf : (result >>> 1).toNat = result.toNat / 2 := toNat_shiftRight_one result
  obtain ⟨hdigit, hkeep⟩ := h.step
  rw [← hbit] at hdigit hkeep
  by_cases htest : result + bit ≤ n
  · have hle : result.toNat + bit.toNat ≤ n.toNat := by rw [← hsval]; exact BitVec.le_def.mp htest
    obtain ⟨hsub, hsubval⟩ := checkedSub_of_le (a := n) (b := result + bit) (by omega)
    obtain ⟨hadd, haddval⟩ := checkedAdd_of_lt (a := result >>> 1) (b := bit) (by omega)
    refine ⟨_, _, ?_, hsubval ▸ haddval ▸ hhalf ▸ hsval ▸ hdigit hle⟩
    simp only [sqrtStep, hs, hsub, hadd, Option.bind_eq_bind, Option.bind_some, if_pos htest]
    rfl
  · have hlt : ¬result.toNat + bit.toNat ≤ n.toNat := by
      rw [← hsval]; exact fun h => htest (BitVec.le_def.mpr h)
    refine ⟨_, _, ?_, hhalf ▸ hkeep hlt⟩
    simp only [sqrtStep, hs, Option.bind_eq_bind, Option.bind_some, if_neg htest]
    rfl

theorem sqrtLoop_of_ne_zero {n result bit : BitVec 128} (h : ¬bit = 0) :
    sqrtLoop n result bit = (sqrtStep n result bit).bind fun s => sqrtLoop s.1 s.2 (bit >>> 2) := by
  rw [sqrtLoop, dif_neg h]

/-- From a head with `bit = 4^k`, the loop runs its `k + 1` turns and ends with the square root.
The induction is on `k`; `SqrtInv` carries it. -/
theorem sqrtLoop_spec {n0 : ℕ} (hn0 : n0 < 2 ^ 128) (k : ℕ) {n result bit : BitVec 128}
    (hbit : bit.toNat = 4 ^ k) (h : SqrtInv n0 (k + 1) n.toNat result.toNat) :
    ∃ r, sqrtLoop n result bit = some r ∧ r.toNat = Nat.sqrt n0 := by
  have hne : ¬bit = 0 := fun h0 => by
    rw [h0] at hbit
    exact absurd hbit.symm (Nat.pos_iff_ne_zero.mp (by positivity))
  have hquarter : (bit >>> 2).toNat = 4 ^ k / 4 := by
    rw [BitVec.toNat_ushiftRight, Nat.shiftRight_eq_div_pow, hbit]
  obtain ⟨n', result', hstep, h'⟩ := sqrtStep_spec hn0 hbit h
  rw [sqrtLoop_of_ne_zero hne, hstep, Option.bind_some]
  cases k with
  | zero =>
    -- `bit = 1` was the last digit
    have hlast : bit >>> 2 = 0 := BitVec.eq_of_toNat_eq hquarter
    rw [sqrtLoop, dif_pos hlast]
    exact ⟨result', rfl, h'.exit⟩
  | succ k =>
    have hnext : (bit >>> 2).toNat = 4 ^ k := by
      rw [hquarter, pow_succ, Nat.mul_div_cancel _ (by norm_num)]
    exact sqrtLoop_spec hn0 k hnext h'

/-- `sqrt` returns the integer square root and never overflows. -/
theorem sqrt_eq_natSqrt (n : BitVec 128) : ∃ r, sqrt n = some r ∧ r.toNat = Nat.sqrt n.toNat := by
  by_cases hn : n = 0
  · refine ⟨0, by rw [sqrt, if_pos hn], ?_⟩
    rw [hn]; rfl
  -- `bit` starts at `4^K`, the largest power of four up to `n`, read off the leading zeros
  set c := n.clz.toNat with hc
  have hc127 : c < 128 := BitVec.lt_def.mp (BitVec.clz_lt_iff_ne_zero.mpr hn)
  have hupper : n.toNat < 2 ^ (128 - c) := BitVec.toNat_lt_two_pow_sub_clz
  have hzero : ((0 : BitVec 128).clz.setWidth 32).toNat = 128 := by decide
  have hclz : (n.clz.setWidth 32).toNat = c := by
    rw [BitVec.toNat_setWidth, Nat.mod_eq_of_lt (by omega)]
  obtain ⟨hmax, hmaxval⟩ := checkedSub_of_le (a := (0 : BitVec 128).clz.setWidth 32) (b := 1)
    (by rw [hzero]; decide)
  have hmaxval' : ((0 : BitVec 128).clz.setWidth 32 - 1).toNat = 127 := by rw [hmaxval, hzero]; rfl
  obtain ⟨hshift, hshiftval⟩ := checkedSub_of_le
    (a := (0 : BitVec 128).clz.setWidth 32 - 1) (b := n.clz.setWidth 32) (by omega)
  set K := (127 - c) / 2
  have heven : ((((0 : BitVec 128).clz.setWidth 32 - 1) - n.clz.setWidth 32) &&&
      ~~~(1 : BitVec 32)).toNat = 2 * K := by
    rw [toNat_and_not_one, hshiftval, hmaxval', hclz]
  have hbitv : ((1 : BitVec 128) <<< (2 * K)).toNat = 4 ^ K := by
    have hlt : 2 ^ (2 * K) < 2 ^ 128 := Nat.pow_lt_pow_right (by norm_num) (by omega)
    rw [BitVec.toNat_shiftLeft, toNat_one, Nat.shiftLeft_eq, Nat.one_mul, Nat.mod_eq_of_lt hlt,
      pow_mul]
    rfl
  have hstart : SqrtInv n.toNat (K + 1) n.toNat (0 : BitVec 128).toNat := by
    apply SqrtInv.start
    calc n.toNat < 2 ^ (128 - c) := hupper
      _ ≤ 2 ^ (2 * (K + 1)) := Nat.pow_le_pow_right (by norm_num) (by omega)
      _ = 4 ^ (K + 1) := by rw [pow_mul]; rfl
  obtain ⟨r, hr, hval⟩ := sqrtLoop_spec n.isLt K hbitv hstart
  refine ⟨r, ?_, hval⟩
  rw [sqrt, if_neg hn]
  simp only [hmax, hshift, Option.bind_eq_bind, Option.bind_some]
  rw [heven, checkedShl, if_pos (by omega)]
  exact hr

end PolkadotSdk.Arithmetic.Helpers128Bit
