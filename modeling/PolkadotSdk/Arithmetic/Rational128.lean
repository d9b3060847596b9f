import Mathlib.Algebra.Order.Field.Rat
import PolkadotSdk.Arithmetic.BigUint
import PolkadotSdk.Arithmetic.Helpers128Bit

/-!
# `Rational128`: a `u128` numerator over a `u128` denominator

`rational.rs`, and the helpers `split` and `to_big_uint` of `helpers_128bit.rs`.  The order and the
equality cross-multiply through `BigUint`, after the cases of equal and of zero denominators.  The
sum and the difference rescale both operands to the least common denominator, computed as
`d1 * d2 / gcd(d1, d2)` by `multiply_by_rational_with_rounding` with `NearestPrefDown`, and then
rescale each numerator the same way; neither quotient is ever rounded, since both are exact.

* `cmp_eq_compare`, `eq_eq_decide`: the order of the rationals, and equality of the cross
  products;
* `checkedOp_eq`: `checked_add` and `checked_sub` reach their last step exactly when the least
  common denominator and both rescaled numerators fit `u128`.
-/

namespace PolkadotSdk.Arithmetic

/-! ## `split` and `to_big_uint` of `helpers_128bit` -/

namespace Helpers128Bit

/-- `split`: the high and the low `u64` halves. -/
def split (a : BitVec 128) : BitVec 64 × BitVec 64 := ((a >>> 64).setWidth 64, a.setWidth 64)

/-- `to_big_uint`: the four `u32` limbs of `x`, stripped. -/
def toBigUint (x : BitVec 128) : BigUint :=
  let (xh, xl) := split x
  let (xhh, xhl) := BigUint.split xh
  let (xlh, xll) := BigUint.split xl
  (BigUint.fromLimbs [xhh, xhl, xlh, xll]).lstrip

theorem val_toBigUint (x : BitVec 128) : (toBigUint x).val = x.toNat := by
  have hx := x.isLt
  rw [toBigUint, BigUint.val_lstrip, BigUint.fromLimbs, if_pos (List.cons_ne_nil _ _)]
  simp only [BigUint.val_cons, List.length_cons, List.length_nil, split, BigUint.split,
    BitVec.toNat_setWidth, BitVec.toNat_ushiftRight, Nat.shiftRight_eq_div_pow]
  change _ + (_ + (_ + (_ + 0))) = _
  omega

theorem mul_toBigUint (a b : BitVec 128) :
    ∃ w, (toBigUint a).mul (toBigUint b) = some w ∧ w.val = a.toNat * b.toNat := by
  obtain ⟨w, hw, hval, -⟩ := BigUint.mul_spec (toBigUint a) (toBigUint b)
  exact ⟨w, hw, by rw [hval, val_toBigUint, val_toBigUint]⟩

end Helpers128Bit

open Helpers128Bit

/-- `Rational128(n, d)`; `from_unchecked` and `Default` build a zero denominator. -/
structure Rational128 where
  n : BitVec 128
  d : BitVec 128
  deriving DecidableEq, Repr

namespace Rational128

/-- `Option::ok_or`. -/
def okOr {α : Type} (o : Option α) (e : String) : Except String α :=
  match o with
  | some a => .ok a
  | none => .error e

@[simp] theorem okOr_some {α : Type} (a : α) (e : String) : okOr (some a) e = .ok a := rfl

@[simp] theorem okOr_none {α : Type} (e : String) : okOr (none : Option α) e = .error e := rfl

/-- `to_den(den)`: `self` over the denominator `den`, the numerator `NearestPrefDown`-rounded. -/
def toDen (self : Rational128) (den : BitVec 128) : Option Rational128 :=
  if den = self.d then some self
  else (multiplyByRationalWithRounding self.n den self.d .nearestPrefDown).map fun n => ⟨n, den⟩

/-- `lcm(other)`: `d1 * d2 / gcd(d1, d2)`, `NearestPrefDown`-rounded. -/
def lcm (self other : Rational128) : Option (BitVec 128) :=
  if self.d = other.d then some self.d
  else do
    let g ← gcd self.d other.d
    multiplyByRationalWithRounding self.d other.d g .nearestPrefDown

/-- `checked_add` and `checked_sub`: both over the least common denominator, then `op` on the
numerators, with `msg` on its overflow. -/
def checkedOp (op : BitVec 128 → BitVec 128 → Option (BitVec 128)) (msg : String)
    (self other : Rational128) : Except String Rational128 := do
  let lcm ← okOr (self.lcm other) "failed to scale to denominator"
  let selfScaled ← okOr (self.toDen lcm) "failed to scale to denominator"
  let otherScaled ← okOr (other.toDen lcm) "failed to scale to denominator"
  let n ← okOr (op selfScaled.n otherScaled.n) msg
  return ⟨n, selfScaled.d⟩

/-- `checked_add`. -/
def checkedAdd (self other : Rational128) : Except String Rational128 :=
  checkedOp Lib.Unsigned.checkedAdd "overflow while adding numerators" self other

/-- `checked_sub`. -/
def checkedSub (self other : Rational128) : Except String Rational128 :=
  checkedOp Lib.Unsigned.checkedSub "overflow while subtracting numerators" self other

/-- `Ord for Rational128`: the numerators over one denominator, a zero denominator above all,
and otherwise the cross products, in `BigUint`. -/
def cmp (self other : Rational128) : Option Ordering :=
  if self.d = other.d then some (compare self.n.toNat other.n.toNat)
  else if self.d = 0 then some .gt
  else if other.d = 0 then some .lt
  else do
    let selfN ← (toBigUint self.n).mul (toBigUint other.d)
    let otherN ← (toBigUint other.n).mul (toBigUint self.d)
    return selfN.cmp otherN

/-- `PartialEq for Rational128`: the numerators over one denominator, otherwise the cross products,
in `BigUint`. -/
def eq (self other : Rational128) : Option Bool :=
  if self.d = other.d then some (self.n == other.n)
  else do
    let selfN ← (toBigUint self.n).mul (toBigUint other.d)
    let otherN ← (toBigUint other.n).mul (toBigUint self.d)
    return selfN.eq otherN

/-! ## What a `Rational128` denotes -/

/-- The rational `n / d`. -/
def val (x : Rational128) : ℚ := (x.n.toNat : ℚ) / x.d.toNat

/-- The least common denominator of `x` and `y`, on the naturals. -/
def lcd (x y : Rational128) : ℕ := Nat.lcm x.d.toNat y.d.toNat

/-- The numerator of `x` over the denominator `L`, on the naturals. -/
def scaledNum (x : Rational128) (L : ℕ) : ℕ := x.n.toNat * (L / x.d.toNat)

theorem compare_congr {α β : Type*} [LinearOrder α] [LinearOrder β] {a b : α} {c e : β}
    (hlt : a < b ↔ c < e) (heq : a = b ↔ c = e) : compare a b = compare c e := by
  rcases lt_trichotomy a b with h | h | h
  · rw [compare_lt_iff_lt.mpr h, compare_lt_iff_lt.mpr (hlt.mp h)]
  · rw [compare_eq_iff_eq.mpr h, compare_eq_iff_eq.mpr (heq.mp h)]
  · have hce : e < c := lt_of_le_of_ne (not_lt.mp fun h' => (lt_asymm h) (hlt.mpr h'))
      fun h' => (ne_of_gt h) (heq.mpr h'.symm)
    rw [compare_gt_iff_gt.mpr h, compare_gt_iff_gt.mpr hce]

theorem compare_div_div {a b c e : ℕ} (hb : 0 < b) (he : 0 < e) :
    compare ((a : ℚ) / b) ((c : ℚ) / e) = compare (a * e) (c * b) := by
  have hb' : (0 : ℚ) < b := by exact_mod_cast hb
  have he' : (0 : ℚ) < e := by exact_mod_cast he
  refine compare_congr ?_ ?_
  · rw [div_lt_div_iff₀ hb' he']
    exact_mod_cast Iff.rfl
  · rw [div_eq_div_iff hb'.ne' he'.ne']
    exact_mod_cast Iff.rfl

theorem scaledNum_div {x : Rational128} (hx : 0 < x.d.toNat) {L : ℕ} (hdvd : x.d.toNat ∣ L)
    (hL : 0 < L) : (x.scaledNum L : ℚ) / L = x.val := by
  obtain ⟨c, rfl⟩ := hdvd
  have hc : (c : ℚ) ≠ 0 := by
    have : 0 < c := Nat.pos_of_mul_pos_left hL
    exact_mod_cast this.ne'
  rw [scaledNum, Nat.mul_div_cancel_left _ hx, val]
  push_cast
  exact mul_div_mul_right _ _ hc

/-! ## The least common denominator, and rescaling -/

section Scale

variable {x y : Rational128}

theorem ne_zero_of_pos {a : BitVec 128} (h : 0 < a.toNat) : a ≠ 0 :=
  fun h0 => by rw [h0] at h; exact absurd h (by decide)

theorem lcm_eq (hx : 0 < x.d.toNat) :
    x.lcm y = if x.lcd y < 2 ^ 128 then some (BitVec.ofNat 128 (x.lcd y)) else none := by
  unfold lcm
  by_cases hd : x.d = y.d
  · rw [if_pos hd, lcd, hd, Nat.lcm_self, if_pos y.d.isLt, BitVec.ofNat_toNat, BitVec.setWidth_eq]
  · obtain ⟨g, hg, hgv⟩ := gcd_returns x.d y.d
    have hgpos : 0 < g.toNat := hgv ▸ Nat.gcd_pos_of_pos_left _ hx
    have hprod : x.d.toNat * y.d.toNat = g.toNat * x.lcd y := by
      rw [hgv, lcd, Nat.gcd_mul_lcm]
    rw [if_neg hd, hg, Option.bind_eq_bind, Option.bind_some, multiplyByRationalWithRounding_eq_ite,
      hprod, Rounding.divRound_mul _ hgpos]
    by_cases hL : x.lcd y < 2 ^ 128
    · rw [if_neg (not_or.mpr ⟨ne_zero_of_pos hgpos, Nat.not_le.mpr hL⟩), if_pos hL]
    · rw [if_pos (Or.inr (Nat.not_lt.mp hL)), if_neg hL]

/-- `to_den` to a multiple `L` of the denominator rescales the numerator exactly, or gives none
when that exceeds `u128::MAX`. -/
theorem toDen_eq (hx : 0 < x.d.toNat) {L : ℕ} (hdvd : x.d.toNat ∣ L) (hL : L < 2 ^ 128) :
    x.toDen (BitVec.ofNat 128 L) =
      if x.scaledNum L < 2 ^ 128 then some ⟨BitVec.ofNat 128 (x.scaledNum L), BitVec.ofNat 128 L⟩
      else none := by
  have hLval : (BitVec.ofNat 128 L).toNat = L := by rw [BitVec.toNat_ofNat, Nat.mod_eq_of_lt hL]
  unfold toDen
  by_cases hden : BitVec.ofNat 128 L = x.d
  · -- the denominator is already `L`
    have hLd : L = x.d.toNat := by rw [← hden, hLval]
    have hscaled : x.scaledNum L = x.n.toNat := by rw [scaledNum, hLd, Nat.div_self hx, Nat.mul_one]
    rw [if_pos hden, hscaled, if_pos x.n.isLt, BitVec.ofNat_toNat, BitVec.setWidth_eq, hden]
  · have hexact : x.n.toNat * (BitVec.ofNat 128 L).toNat = x.d.toNat * x.scaledNum L := by
      obtain ⟨c, rfl⟩ := hdvd
      rw [hLval, scaledNum, Nat.mul_div_cancel_left _ hx]
      ring
    rw [if_neg hden, multiplyByRationalWithRounding_eq_ite, hexact, Rounding.divRound_mul _ hx]
    by_cases hfit : x.scaledNum L < 2 ^ 128
    · rw [if_neg (not_or.mpr ⟨ne_zero_of_pos hx, Nat.not_le.mpr hfit⟩), if_pos hfit]
      rfl
    · rw [if_pos (Or.inr (Nat.not_lt.mp hfit)), if_neg hfit]
      rfl

/-- `checked_add` and `checked_sub` reach `op` exactly when the least common denominator and both
rescaled numerators fit `u128`, and apply it to the rescaled numerators. -/
theorem checkedOp_eq (op : BitVec 128 → BitVec 128 → Option (BitVec 128)) (msg : String)
    (hx : 0 < x.d.toNat) (hy : 0 < y.d.toNat) :
    checkedOp op msg x y =
      if x.lcd y < 2 ^ 128 ∧ x.scaledNum (x.lcd y) < 2 ^ 128 ∧ y.scaledNum (x.lcd y) < 2 ^ 128 then
        okOr ((op (BitVec.ofNat 128 (x.scaledNum (x.lcd y)))
          (BitVec.ofNat 128 (y.scaledNum (x.lcd y)))).map fun n => ⟨n, BitVec.ofNat 128 (x.lcd y)⟩)
          msg
      else .error "failed to scale to denominator" := by
  unfold checkedOp
  rw [lcm_eq hx]
  by_cases hL : x.lcd y < 2 ^ 128
  · rw [if_pos hL, okOr_some]
    simp only [bind, Except.bind]
    rw [toDen_eq (L := x.lcd y) hx (Nat.dvd_lcm_left _ _) hL,
      toDen_eq (L := x.lcd y) hy (Nat.dvd_lcm_right _ _) hL]
    -- the conditions of the two rescalings, against the one of the statement
    split_ifs with h₁ h₂ h₃ <;> try omega
    · simp only [okOr_some]
      cases op (BitVec.ofNat 128 (x.scaledNum (x.lcd y))) (BitVec.ofNat 128 (y.scaledNum (x.lcd y)))
        <;> rfl
    all_goals rfl
  · rw [if_neg hL, if_neg (by omega)]
    rfl

/-- `checked_add`: the sum over the least common denominator when that, the rescaled numerators and
their sum fit `u128`. -/
theorem checkedAdd_eq (hx : 0 < x.d.toNat) (hy : 0 < y.d.toNat) :
    x.checkedAdd y =
      if x.lcd y < 2 ^ 128 ∧ x.scaledNum (x.lcd y) < 2 ^ 128 ∧ y.scaledNum (x.lcd y) < 2 ^ 128 then
        if x.scaledNum (x.lcd y) + y.scaledNum (x.lcd y) < 2 ^ 128 then
          .ok ⟨BitVec.ofNat 128 (x.scaledNum (x.lcd y) + y.scaledNum (x.lcd y)),
            BitVec.ofNat 128 (x.lcd y)⟩
        else .error "overflow while adding numerators"
      else .error "failed to scale to denominator" := by
  rw [checkedAdd, checkedOp_eq _ _ hx hy]
  split_ifs with h hs
  · rw [Lib.Unsigned.checkedAdd_eq, Lib.Unsigned.toNat_ofNat_of_lt h.2.1,
      Lib.Unsigned.toNat_ofNat_of_lt h.2.2, if_neg (by omega)]
    rfl
  · rw [Lib.Unsigned.checkedAdd_eq, Lib.Unsigned.toNat_ofNat_of_lt h.2.1,
      Lib.Unsigned.toNat_ofNat_of_lt h.2.2, if_pos (by omega)]
    rfl
  · rfl

/-- `checked_sub`: the difference over the least common denominator when that and the rescaled
numerators fit `u128` and the difference is not negative. -/
theorem checkedSub_eq (hx : 0 < x.d.toNat) (hy : 0 < y.d.toNat) :
    x.checkedSub y =
      if x.lcd y < 2 ^ 128 ∧ x.scaledNum (x.lcd y) < 2 ^ 128 ∧ y.scaledNum (x.lcd y) < 2 ^ 128 then
        if y.scaledNum (x.lcd y) ≤ x.scaledNum (x.lcd y) then
          .ok ⟨BitVec.ofNat 128 (x.scaledNum (x.lcd y) - y.scaledNum (x.lcd y)),
            BitVec.ofNat 128 (x.lcd y)⟩
        else .error "overflow while subtracting numerators"
      else .error "failed to scale to denominator" := by
  rw [checkedSub, checkedOp_eq _ _ hx hy]
  split_ifs with h hs
  · have h₁ := Lib.Unsigned.toNat_ofNat_of_lt h.2.1
    have h₂ := Lib.Unsigned.toNat_ofNat_of_lt h.2.2
    obtain ⟨hsub, hsubval⟩ := Lib.Unsigned.checkedSub_of_le (a := BitVec.ofNat 128 (x.scaledNum (x.lcd y)))
      (b := BitVec.ofNat 128 (y.scaledNum (x.lcd y))) (by omega)
    have hdiff : BitVec.ofNat 128 (x.scaledNum (x.lcd y)) - BitVec.ofNat 128 (y.scaledNum (x.lcd y)) =
        BitVec.ofNat 128 (x.scaledNum (x.lcd y) - y.scaledNum (x.lcd y)) := by
      apply BitVec.eq_of_toNat_eq
      rw [hsubval, h₁, h₂, Lib.Unsigned.toNat_ofNat_of_lt (by omega)]
    rw [hsub, hdiff]
    rfl
  · rw [Lib.Unsigned.checkedSub_of_lt (by rw [Lib.Unsigned.toNat_ofNat_of_lt h.2.1,
      Lib.Unsigned.toNat_ofNat_of_lt h.2.2]; omega)]
    rfl
  · rfl

theorem lcd_pos (hx : 0 < x.d.toNat) (hy : 0 < y.d.toNat) : 0 < x.lcd y := Nat.lcm_pos hx hy

theorem val_add_scaled (hx : 0 < x.d.toNat) (hy : 0 < y.d.toNat) (hL : x.lcd y < 2 ^ 128)
    (hs : x.scaledNum (x.lcd y) + y.scaledNum (x.lcd y) < 2 ^ 128) :
    (⟨BitVec.ofNat 128 (x.scaledNum (x.lcd y) + y.scaledNum (x.lcd y)),
      BitVec.ofNat 128 (x.lcd y)⟩ : Rational128).val = x.val + y.val := by
  rw [val, Lib.Unsigned.toNat_ofNat_of_lt hs, Lib.Unsigned.toNat_ofNat_of_lt hL, Nat.cast_add,
    add_div, scaledNum_div (L := x.lcd y) hx (Nat.dvd_lcm_left _ _) (lcd_pos hx hy),
    scaledNum_div (L := x.lcd y) hy (Nat.dvd_lcm_right _ _) (lcd_pos hx hy)]

theorem val_sub_scaled (hx : 0 < x.d.toNat) (hy : 0 < y.d.toNat) (hL : x.lcd y < 2 ^ 128)
    (h₁ : x.scaledNum (x.lcd y) < 2 ^ 128) (hle : y.scaledNum (x.lcd y) ≤ x.scaledNum (x.lcd y)) :
    (⟨BitVec.ofNat 128 (x.scaledNum (x.lcd y) - y.scaledNum (x.lcd y)),
      BitVec.ofNat 128 (x.lcd y)⟩ : Rational128).val = x.val - y.val := by
  rw [val, Lib.Unsigned.toNat_ofNat_of_lt (by omega), Lib.Unsigned.toNat_ofNat_of_lt hL,
    Nat.cast_sub hle, sub_div, scaledNum_div (L := x.lcd y) hx (Nat.dvd_lcm_left _ _) (lcd_pos hx hy),
    scaledNum_div (L := x.lcd y) hy (Nat.dvd_lcm_right _ _) (lcd_pos hx hy)]

/-! ## The order and the equality -/

theorem cmp_eq_compare (hx : 0 < x.d.toNat) (hy : 0 < y.d.toNat) :
    x.cmp y = some (compare x.val y.val) := by
  rw [val, val, compare_div_div hx hy]
  unfold cmp
  by_cases hd : x.d = y.d
  · rw [if_pos hd, hd]
    exact congrArg some (compare_congr (Nat.mul_lt_mul_right hy).symm (Nat.mul_left_inj hy.ne').symm)
  · obtain ⟨w₁, hw₁, hv₁⟩ := mul_toBigUint x.n y.d
    obtain ⟨w₂, hw₂, hv₂⟩ := mul_toBigUint y.n x.d
    rw [if_neg hd, if_neg (ne_zero_of_pos hx), if_neg (ne_zero_of_pos hy)]
    simp only [hw₁, hw₂, Option.bind_eq_bind, Option.bind_some, Option.pure_def]
    rw [BigUint.cmp_eq_compare, hv₁, hv₂]

theorem eq_eq_decide (hy : 0 < y.d.toNat) :
    x.eq y = some (decide (x.n.toNat * y.d.toNat = y.n.toNat * x.d.toNat)) := by
  unfold eq
  by_cases hd : x.d = y.d
  · rw [if_pos hd, hd]
    congr 1
    rw [Bool.eq_iff_iff, beq_iff_eq, decide_eq_true_iff, Nat.mul_left_inj hy.ne', BitVec.toNat_inj]
  · obtain ⟨w₁, hw₁, hv₁⟩ := mul_toBigUint x.n y.d
    obtain ⟨w₂, hw₂, hv₂⟩ := mul_toBigUint y.n x.d
    rw [if_neg hd]
    simp only [hw₁, hw₂, Option.bind_eq_bind, Option.bind_some, Option.pure_def]
    rw [BigUint.eq_eq_decide, hv₁, hv₂]

end Scale

/-- `Rational128` over positive denominators: `cmp` is the order of the rationals and `==` the
equality of the cross products; an `Ok` of `checked_add` or `checked_sub` is the exact sum or
difference over the least common denominator, and an `Err` comes only from that denominator, a
rescaled numerator or the result not fitting `u128`, or from a negative difference. -/
theorem rational128_sound (x y : Rational128) (hx : 0 < x.d.toNat) (hy : 0 < y.d.toNat) :
    x.cmp y = some (compare x.val y.val) ∧
    x.eq y = some (decide (x.n.toNat * y.d.toNat = y.n.toNat * x.d.toNat)) ∧
    (∀ z, x.checkedAdd y = .ok z → z.d.toNat = x.lcd y ∧ z.val = x.val + y.val) ∧
    (∀ e, x.checkedAdd y = .error e → 2 ^ 128 ≤ x.lcd y ∨ 2 ^ 128 ≤ x.scaledNum (x.lcd y) ∨
      2 ^ 128 ≤ y.scaledNum (x.lcd y) ∨ 2 ^ 128 ≤ x.scaledNum (x.lcd y) + y.scaledNum (x.lcd y)) ∧
    (∀ z, x.checkedSub y = .ok z → z.d.toNat = x.lcd y ∧ z.val = x.val - y.val) ∧
    (∀ e, x.checkedSub y = .error e → 2 ^ 128 ≤ x.lcd y ∨ 2 ^ 128 ≤ x.scaledNum (x.lcd y) ∨
      2 ^ 128 ≤ y.scaledNum (x.lcd y) ∨ x.scaledNum (x.lcd y) < y.scaledNum (x.lcd y)) := by
  refine ⟨cmp_eq_compare hx hy, eq_eq_decide hy, fun z hz => ?_, fun e he => ?_,
    fun z hz => ?_, fun e he => ?_⟩
  · rw [checkedAdd_eq hx hy] at hz
    split_ifs at hz with h hs
    cases hz
    exact ⟨Lib.Unsigned.toNat_ofNat_of_lt h.1, val_add_scaled hx hy h.1 hs⟩
  · rw [checkedAdd_eq hx hy] at he
    split_ifs at he with h hs <;> omega
  · rw [checkedSub_eq hx hy] at hz
    split_ifs at hz with h hs
    cases hz
    exact ⟨Lib.Unsigned.toNat_ofNat_of_lt h.1, val_sub_scaled hx hy h.1 h.2.1 hs⟩
  · rw [checkedSub_eq hx hy] at he
    split_ifs at he with h hs <;> omega

theorem rational128_sound_half_third :
    0 < (2 : BitVec 128).toNat ∧ 0 < (3 : BitVec 128).toNat ∧
    (⟨1, 2⟩ : Rational128).cmp ⟨1, 3⟩ = some (compare (⟨1, 2⟩ : Rational128).val (⟨1, 3⟩ : Rational128).val) ∧
    (⟨1, 2⟩ : Rational128).eq ⟨1, 3⟩ = some (decide ((1 : BitVec 128).toNat * (3 : BitVec 128).toNat =
      (1 : BitVec 128).toNat * (2 : BitVec 128).toNat)) ∧
    (∀ z, (⟨1, 2⟩ : Rational128).checkedAdd ⟨1, 3⟩ = .ok z →
      z.d.toNat = (⟨1, 2⟩ : Rational128).lcd ⟨1, 3⟩ ∧
      z.val = (⟨1, 2⟩ : Rational128).val + (⟨1, 3⟩ : Rational128).val) ∧
    (∀ e, (⟨1, 2⟩ : Rational128).checkedAdd ⟨1, 3⟩ = .error e →
      2 ^ 128 ≤ (⟨1, 2⟩ : Rational128).lcd ⟨1, 3⟩ ∨
      2 ^ 128 ≤ (⟨1, 2⟩ : Rational128).scaledNum ((⟨1, 2⟩ : Rational128).lcd ⟨1, 3⟩) ∨
      2 ^ 128 ≤ (⟨1, 3⟩ : Rational128).scaledNum ((⟨1, 2⟩ : Rational128).lcd ⟨1, 3⟩) ∨
      2 ^ 128 ≤ (⟨1, 2⟩ : Rational128).scaledNum ((⟨1, 2⟩ : Rational128).lcd ⟨1, 3⟩) +
        (⟨1, 3⟩ : Rational128).scaledNum ((⟨1, 2⟩ : Rational128).lcd ⟨1, 3⟩)) ∧
    (∀ z, (⟨1, 2⟩ : Rational128).checkedSub ⟨1, 3⟩ = .ok z →
      z.d.toNat = (⟨1, 2⟩ : Rational128).lcd ⟨1, 3⟩ ∧
      z.val = (⟨1, 2⟩ : Rational128).val - (⟨1, 3⟩ : Rational128).val) ∧
    (∀ e, (⟨1, 2⟩ : Rational128).checkedSub ⟨1, 3⟩ = .error e →
      2 ^ 128 ≤ (⟨1, 2⟩ : Rational128).lcd ⟨1, 3⟩ ∨
      2 ^ 128 ≤ (⟨1, 2⟩ : Rational128).scaledNum ((⟨1, 2⟩ : Rational128).lcd ⟨1, 3⟩) ∨
      2 ^ 128 ≤ (⟨1, 3⟩ : Rational128).scaledNum ((⟨1, 2⟩ : Rational128).lcd ⟨1, 3⟩) ∨
      (⟨1, 2⟩ : Rational128).scaledNum ((⟨1, 2⟩ : Rational128).lcd ⟨1, 3⟩) <
        (⟨1, 3⟩ : Rational128).scaledNum ((⟨1, 2⟩ : Rational128).lcd ⟨1, 3⟩)) :=
  ⟨by decide, by decide, rational128_sound ⟨1, 2⟩ ⟨1, 3⟩ (by decide) (by decide)⟩

/-! ## Constructors and the lazy operations -/

/-- `zero()`. -/
def zero : Rational128 := ⟨0, 1⟩

/-- `Bounded::max_value()`: `u128::MAX` over one. -/
def maxValue : Rational128 := ⟨BitVec.allOnes 128, 1⟩

/-- `from(n, d)`: a zero denominator becomes one. -/
def «from» (n d : BitVec 128) : Rational128 := ⟨n, max d 1⟩

/-- `is_zero()`: a zero numerator. -/
def isZero (self : Rational128) : Bool := self.n == 0

/-- `lazy_saturating_add`: the numerators added with saturation over `self`'s denominator, as if
the denominators were the same. -/
def lazySaturatingAdd (self other : Rational128) : Rational128 :=
  if other.isZero then self else ⟨Lib.Unsigned.saturatingAdd self.n other.n, self.d⟩

/-- `lazy_saturating_sub`, the same with a saturating subtraction. -/
def lazySaturatingSub (self other : Rational128) : Rational128 :=
  if other.isZero then self else ⟨Lib.Unsigned.saturatingSub self.n other.n, self.d⟩

theorem from_d_pos (n d : BitVec 128) : 0 < (Rational128.from n d).d.toNat := by
  show 0 < (max d 1).toNat
  rw [Lib.Unsigned.toNat_max]
  exact lt_max_of_lt_right (by decide)

@[simp] theorem lazySaturatingAdd_d (self other : Rational128) :
    (self.lazySaturatingAdd other).d = self.d := by
  unfold lazySaturatingAdd
  split_ifs <;> rfl

end Rational128

end PolkadotSdk.Arithmetic
