import Mathlib.Tactic.Ring

/-!
# Rounded division on the naturals

The three closed forms of a rounded quotient `n / d` (`d > 0`) that the arithmetic of the
runtime is specified against, and how each is obtained from the floor quotient and the remainder:

* `⌈n / d⌉ = (n + d - 1) / d` adds one exactly when the remainder is non-zero;
* nearest, ties up, `(2n + d) / 2d`, adds one when `d ≤ 2 (n % d)`;
* nearest, ties down, `(2n + d - 1) / 2d`, adds one when `d < 2 (n % d)`.

The code computes a floor quotient and a remainder and then decides whether to add one; these
lemmas are what lets the proofs compare that decision with the closed forms.

Signed code divides magnitudes and puts the sign back: `tdiv_eq_signMag` reads `Int.tdiv`, the
quotient rounded towards zero, that way.
-/

namespace PolkadotSdk.Lib.DivRound

theorem div_eq_ite_of_lt_two_mul {m d : ℕ} (h : m < 2 * d) : m / d = if d ≤ m then 1 else 0 := by
  split
  · exact Nat.div_eq_of_lt_le (by omega) (by omega)
  · exact Nat.div_eq_of_lt (by omega)

theorem exists_eq_mul_add (n : ℕ) {d : ℕ} (hd : 0 < d) : ∃ q r, r < d ∧ n = d * q + r :=
  ⟨n / d, n % d, Nat.mod_lt n hd, (Nat.div_add_mod n d).symm⟩

/-- **Ceiling division** from the floor quotient and the remainder. -/
theorem ceil_div_eq {n d : ℕ} (hd : 0 < d) :
    (n + d - 1) / d = n / d + if n % d = 0 then 0 else 1 := by
  obtain ⟨q, r, hr, rfl⟩ := exists_eq_mul_add n hd
  rw [show d * q + r + d - 1 = d * q + (r + d - 1) by omega, Nat.mul_add_div hd, Nat.mul_add_div hd,
    Nat.mul_add_mod, Nat.div_eq_of_lt hr, Nat.mod_eq_of_lt hr, div_eq_ite_of_lt_two_mul (by omega)]
  split <;> split <;> omega

/-- **Nearest, ties up** from the floor quotient and the remainder. -/
theorem nearest_up_div_eq {n d : ℕ} (hd : 0 < d) :
    (2 * n + d) / (2 * d) = n / d + if d ≤ 2 * (n % d) then 1 else 0 := by
  obtain ⟨q, r, hr, rfl⟩ := exists_eq_mul_add n hd
  rw [show 2 * (d * q + r) + d = 2 * d * q + (2 * r + d) by ring, Nat.mul_add_div (by omega),
    Nat.mul_add_div hd, Nat.mul_add_mod, Nat.div_eq_of_lt hr, Nat.mod_eq_of_lt hr,
    div_eq_ite_of_lt_two_mul (by omega)]
  split <;> split <;> omega

/-- **Nearest, ties down** from the floor quotient and the remainder. -/
theorem nearest_down_div_eq {n d : ℕ} (hd : 0 < d) :
    (2 * n + d - 1) / (2 * d) = n / d + if d < 2 * (n % d) then 1 else 0 := by
  obtain ⟨q, r, hr, rfl⟩ := exists_eq_mul_add n hd
  rw [show 2 * (d * q + r) + d - 1 = 2 * d * q + (2 * r + d - 1) by
      rw [Nat.mul_add, ← Nat.mul_assoc]; omega, Nat.mul_add_div (by omega),
    Nat.mul_add_div hd, Nat.mul_add_mod, Nat.div_eq_of_lt hr, Nat.mod_eq_of_lt hr,
    div_eq_ite_of_lt_two_mul (by omega)]
  split <;> split <;> omega

theorem half_add_mod_le_iff {m d : ℕ} : d / 2 + d % 2 ≤ m ↔ d ≤ 2 * m := by
  omega

theorem half_lt_iff {m d : ℕ} : d / 2 < m ↔ d < 2 * m := by
  omega

/-! ## Truncated division of integers on sign and magnitude -/

/-- The integer of a sign and a magnitude. -/
def signMag (negative : Bool) (m : ℕ) : ℤ := if negative then -(m : ℤ) else m

theorem signMag_zero (negative : Bool) : signMag negative 0 = 0 := by
  cases negative <;> rfl

theorem signMag_neg_iff {negative : Bool} {m : ℕ} (hm : m ≠ 0) :
    signMag negative m < 0 ↔ negative = true := by
  cases negative
  · simp [signMag]
  · simp [signMag]; omega

theorem signMag_congr {s s' : Bool} {m : ℕ} (h : m ≠ 0 → s = s') :
    signMag s m = signMag s' m := by
  by_cases hm : m = 0
  · rw [hm, signMag_zero, signMag_zero]
  · rw [h hm]

/-- **Truncated division on magnitudes**: `x.tdiv y` is `|x| / |y|` with the sign of `x * y`. -/
theorem tdiv_eq_signMag (x y : ℤ) :
    x.tdiv y = signMag (decide (x < 0) != decide (y < 0)) (x.natAbs / y.natAbs) := by
  cases x <;> cases y <;>
    simp [Int.tdiv, signMag, Int.negSucc_lt_zero, Int.natCast_nonneg, not_lt.mpr]

theorem decide_mul_neg {x y : ℤ} (hx : x ≠ 0) (hy : y ≠ 0) :
    decide (x * y < 0) = (decide (x < 0) != decide (y < 0)) := by
  rcases lt_or_gt_of_ne hx with hx | hx <;> rcases lt_or_gt_of_ne hy with hy | hy
  · simp [hx, hy, (Int.mul_pos_of_neg_of_neg hx hy).le, not_lt.mpr]
  · simp [hx, Int.mul_neg_of_neg_of_pos hx hy, not_lt.mpr hy.le]
  · simp [hy, Int.mul_neg_of_pos_of_neg hx hy, not_lt.mpr hx.le]
  · simp [not_lt.mpr hx.le, not_lt.mpr hy.le, not_lt.mpr (Int.mul_pos hx hy).le]

theorem tdiv_mul_eq_signMag (x y z : ℤ) :
    (x * y).tdiv z = signMag ((decide (x < 0) != decide (y < 0)) != decide (z < 0))
      (x.natAbs * y.natAbs / z.natAbs) := by
  rw [tdiv_eq_signMag, Int.natAbs_mul]
  apply signMag_congr
  intro hm
  have hx : x ≠ 0 := by rintro rfl; simp at hm
  have hy : y ≠ 0 := by rintro rfl; simp at hm
  rw [decide_mul_neg hx hy]

theorem tdiv_mul_neg_iff {x y z : ℤ} (h : (x * y).tdiv z ≠ 0) :
    (x * y).tdiv z < 0 ↔ ((decide (x < 0) != decide (y < 0)) != decide (z < 0)) = true := by
  rw [tdiv_mul_eq_signMag] at h ⊢
  exact signMag_neg_iff fun hm => h (by rw [hm, signMag_zero])

end PolkadotSdk.Lib.DivRound
