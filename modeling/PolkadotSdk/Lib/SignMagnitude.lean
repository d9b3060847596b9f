import Mathlib.Algebra.Ring.Parity
import Mathlib.Tactic.Ring

/-!
# Integers as a sign and a magnitude

Code without a signed big integer keeps a signed sum as a flag, whether it is positive, and a
magnitude.  `toInt` is the integer such a pair stands for (`-0` is `0`), and `add` adds a signed
term the way such code does: the magnitudes add under equal signs; otherwise the smaller comes off
the larger, whose sign the result takes.

* `toInt_add`: `add` is the addition of the integers;
* `toNat_toInt`: clamping at zero keeps a positive magnitude and drops a negative one;
* `toInt_even`: the term `(-1)^k * t` is the sign "`k` is even" and the magnitude `t`.
-/

namespace PolkadotSdk.Lib.SignMagnitude

/-- The integer a sign and a magnitude stand for. -/
def toInt (positive : Bool) (m : ℕ) : ℤ := if positive then m else -m

/-- A term of sign `tp` and magnitude `t` added to the sign `p` and the magnitude `m`. -/
def add (p : Bool) (m : ℕ) (tp : Bool) (t : ℕ) : Bool × ℕ :=
  if p == tp then (p, m + t) else if t ≤ m then (p, m - t) else (!p, t - m)

theorem eq_not_of_beq_false {p tp : Bool} (h : ¬(p == tp) = true) : tp = !p := by
  cases p <;> cases tp <;> simp_all

theorem toInt_add (p : Bool) (m : ℕ) (tp : Bool) (t : ℕ) :
    toInt (add p m tp t).1 (add p m tp t).2 = toInt p m + toInt tp t := by
  unfold add
  split_ifs with hs ht
  · -- equal signs: the magnitudes add
    rw [beq_iff_eq] at hs
    subst hs
    cases p with
    | false =>
      simp only [toInt, Bool.false_eq_true, if_false, Nat.cast_add]
      ring
    | true => simp only [toInt, if_true, Nat.cast_add]
  · -- the term is the smaller: it comes off, the sign stays
    obtain rfl := eq_not_of_beq_false hs
    cases p <;>
      simp only [toInt, if_true, Bool.false_eq_true, if_false, Bool.not_true, Bool.not_false,
        Nat.cast_sub ht] <;> ring
  · -- the term is the larger: the sum takes its sign
    obtain rfl := eq_not_of_beq_false hs
    have hmt : m ≤ t := Nat.le_of_lt (Nat.lt_of_not_le ht)
    cases p <;>
      simp only [toInt, if_true, Bool.false_eq_true, if_false, Bool.not_true, Bool.not_false,
        Nat.cast_sub hmt] <;> ring

theorem toNat_toInt (p : Bool) (m : ℕ) : (toInt p m).toNat = if p then m else 0 := by
  cases p
  · rw [toInt, if_neg Bool.false_ne_true, if_neg Bool.false_ne_true]
    exact Int.toNat_of_nonpos (Int.neg_nonpos_of_nonneg (Int.natCast_nonneg m))
  · rw [toInt, if_pos rfl, if_pos rfl, Int.toNat_natCast]

theorem toInt_even (k t : ℕ) : toInt (k % 2 == 0) t = (-1) ^ k * (t : ℤ) := by
  rw [neg_one_pow_eq_ite]
  by_cases hk : k % 2 = 0
  · rw [if_pos (Nat.even_iff.mpr hk), toInt, if_pos (beq_iff_eq.mpr hk), one_mul]
  · rw [if_neg (fun h => hk (Nat.even_iff.mp h)), toInt, if_neg (fun h => hk (beq_iff_eq.mp h)),
      neg_one_mul]

end PolkadotSdk.Lib.SignMagnitude
