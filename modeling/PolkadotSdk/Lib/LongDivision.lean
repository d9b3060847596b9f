import Mathlib.Algebra.BigOperators.Group.Finset.Basic
import Mathlib.Tactic.Linarith
import Mathlib.Tactic.Ring

/-!
# Long division by a multi-digit divisor, one quotient digit at a time

Knuth's Algorithm D (The Art of Computer Programming, vol. 2, §4.3.1) divides a window `W` of
`n + 1` digits in base `b` by a divisor `V` of `n` digits, with `W < V * b`, so that the quotient
digit `q = W / V` is below `b`.  It guesses `q` from the top digits alone: `qhat = t / v₁` for the
top two digits `t` of `W` and the top digit `v₁` of `V`, with remainder `rhat`; then it lowers
`qhat` while it is at least `b` or too large for the next digits, `qhat * v₂ > rhat * b + u₂`.
Here, over the naturals and for any base:

* `div_le_estimate`: the guess is never below `q`; `div_lt_of_test`: a firing test means the
  guess is above `q`; `le_div_succ_of_not_test`: a silent test means the guess is at most `q + 1`;
* `estimate_le`, `lt_base_of_le_rhat`: with a normalized divisor the first guess is at most
  `b + 1`, and a guess whose `rhat` has reached `b` is already below `b`; `corrected_bounds`: where
  the correction stops, the guess is the quotient digit or one above it;
* `sub_add_back`, `sub_of_le`: the window less `qhat * V`, taken modulo `b^(n+1)` with one
  add-back of `V` when it went below zero, is `W - q * V`;
* `mod_add_div_step`: replacing the window of a remainder by `W - q * V` keeps
  `R = q * V * b^d + R'` with `R' < V * b^d`, the invariant of the whole division;
* `sum_digits_eq_mod`, `div_pow_eq`: the digits `Y / b^t % b` of a number, which a vector of limbs
  holds;
* `div_two_pow_digit`: at a base `2^w`, digit `d` of `Y / 2^k` is built from digits `d` and `d + 1`
  of `Y`, shifted right and left; this is how the normalization is undone.

The positions are values: the window of `R` at digit `d` is `R / b^d`, its top digits are
`W / (b * P)` and `W / P % b` for `P = b^(n-2)`, and those of `V` are `V / (b * P)` and `V / P % b`.
-/

namespace PolkadotSdk.Lib.LongDivision

variable {b P W V : ℕ}

/-! ## Digits -/

theorem sum_digits_eq_mod (b Y L : ℕ) :
    ∑ t ∈ Finset.range L, Y / b ^ t % b * b ^ t = Y % b ^ L := by
  induction L with
  | zero => simp [Nat.mod_one]
  | succ L ih => rw [Finset.sum_range_succ, ih, Nat.mod_pow_succ, Nat.mul_comm (b ^ L)]

theorem div_pow_eq (b Y i : ℕ) : Y / b ^ i = Y / b ^ (i + 1) * b + Y / b ^ i % b := by
  rw [pow_succ, ← Nat.div_div_eq_div_mul, Nat.mul_comm, Nat.div_add_mod]

/-! ## The guess of a quotient digit -/

theorem div_le_estimate {v₁ : ℕ} (hv₁ : 0 < v₁) (hP : 0 < b * P) (hV : v₁ * (b * P) ≤ V) :
    W / V ≤ W / (b * P) / v₁ := by
  rw [Nat.div_div_eq_div_mul, Nat.mul_comm (b * P) v₁]
  exact Nat.div_le_div_left hV (Nat.mul_pos hv₁ hP)

/-- **A firing test is right.**  With `qhat * v₁ + rhat` the top two digits `t` of the window,
`qhat * v₂ > rhat * b + u₂` puts `qhat` times the top two digits of `V` above the top three of
`W`, so `qhat` is above the quotient digit. -/
theorem div_lt_of_test {t u₂ v₁ v₂ qhat rhat : ℕ} (hP : 0 < P) (hW : W / P = t * b + u₂)
    (hq : qhat * v₁ + rhat = t) (hV : (v₁ * b + v₂) * P ≤ V) (htest : rhat * b + u₂ < qhat * v₂) :
    W / V < qhat := by
  have htop : W / P + 1 ≤ qhat * (v₁ * b + v₂) := by
    rw [hW, ← hq]
    nlinarith
  have hlt : W < qhat * V :=
    calc W < (W / P + 1) * P := by rw [Nat.mul_comm]; exact Nat.lt_mul_div_succ W hP
      _ ≤ qhat * (v₁ * b + v₂) * P := Nat.mul_le_mul_right P htop
      _ ≤ qhat * V := by rw [Nat.mul_assoc]; exact Nat.mul_le_mul_left qhat hV
  exact Nat.div_lt_of_lt_mul (by rw [Nat.mul_comm]; exact hlt)

/-- **A silent test leaves at most one too many.**  If `qhat * v₂ ≤ rhat * b + u₂`, then
`qhat` times the top two digits of `V` is at most the top three of `W`; a `qhat` two above the
quotient digit would make those two digits of `V` at most that digit, below `b`. -/
theorem le_div_succ_of_not_test {t u₂ v₁ v₂ qhat rhat : ℕ} (hW : W / P = t * b + u₂)
    (hq : qhat * v₁ + rhat = t) (hV : V < (v₁ * b + v₂ + 1) * P) (hv₁ : 0 < v₁)
    (hWV : W < V * b) (hntest : qhat * v₂ ≤ rhat * b + u₂) : qhat ≤ W / V + 1 := by
  by_contra hgt
  have hVpos : 0 < V := Nat.pos_of_ne_zero fun h => by rw [h, Nat.zero_mul] at hWV; omega
  set q := W / V
  -- `qhat * (v₁ * b + v₂)` is at most the top three digits `W / P`
  have hle : qhat * (v₁ * b + v₂) ≤ W / P := by
    rw [hW, ← hq]
    nlinarith
  -- and those are below `(q + 1) * (v₁ * b + v₂ + 1)`, as `W < (q + 1) * V`
  have hW3 : W / P < (q + 1) * (v₁ * b + v₂ + 1) := by
    have hPpos : 0 < P := Nat.pos_of_ne_zero fun h => by rw [h, Nat.mul_zero] at hV; omega
    have h1 : W / P * P ≤ W := Nat.div_mul_le_self W P
    have h2 : W < (q + 1) * V := by
      rw [Nat.mul_comm]
      exact Nat.lt_mul_div_succ W hVpos
    have h3 : (q + 1) * V ≤ (q + 1) * ((v₁ * b + v₂ + 1) * P) :=
      Nat.mul_le_mul_left _ hV.le
    rw [← Nat.mul_assoc] at h3
    exact Nat.lt_of_mul_lt_mul_right (lt_of_le_of_lt h1 (lt_of_lt_of_le h2 h3))
  have hqb : q < b := Nat.div_lt_of_lt_mul hWV
  have hq2 : (q + 2) * (v₁ * b + v₂) ≤ qhat * (v₁ * b + v₂) :=
    Nat.mul_le_mul_right _ (by omega)
  nlinarith

theorem estimate_le {t v₁ : ℕ} (hnorm : b ≤ 2 * v₁) (ht : t < (v₁ + 1) * b) : t / v₁ ≤ b + 1 := by
  have hv₁ : 0 < v₁ := Nat.pos_of_ne_zero fun h => by rw [h] at ht hnorm; omega
  have : t < (b + 2) * v₁ := by nlinarith
  exact Nat.le_of_lt_succ (Nat.div_lt_of_lt_mul (by rw [Nat.mul_comm v₁]; exact this))

theorem lt_base_of_le_rhat {t v₁ qhat rhat : ℕ} (hq : qhat * v₁ + rhat = t) (hr : b ≤ rhat)
    (ht : t < (v₁ + 1) * b) : qhat < b := by
  by_contra hqb
  have : b * v₁ ≤ qhat * v₁ := Nat.mul_le_mul_right v₁ (Nat.le_of_not_lt hqb)
  nlinarith

theorem top_lt {v₁ v₂ : ℕ} (hV : V < (v₁ * b + v₂ + 1) * P) (hv₂ : v₂ < b) (hWV : W < V * b) :
    W / (b * P) < (v₁ + 1) * b := by
  apply Nat.div_lt_of_lt_mul
  calc W < V * b := hWV
    _ ≤ (v₁ * b + v₂ + 1) * P * b := Nat.mul_le_mul_right b hV.le
    _ ≤ (v₁ * b + b) * P * b := by
      apply Nat.mul_le_mul_right b
      exact Nat.mul_le_mul_right P (by omega)
    _ = b * P * ((v₁ + 1) * b) := by ring

theorem div_lt_of_fires {t u₂ v₁ v₂ qhat rhat : ℕ} (hP : 0 < P) (hW : W / P = t * b + u₂)
    (hq : qhat * v₁ + rhat = t) (hV : (v₁ * b + v₂) * P ≤ V) (hWV : W < V * b)
    (hfire : b ≤ qhat ∨ rhat * b + u₂ < qhat * v₂) : W / V < qhat := by
  rcases hfire with hb | htest
  · exact lt_of_lt_of_le (Nat.div_lt_of_lt_mul hWV) hb
  · exact div_lt_of_test hP hW hq hV htest

/-- **Where the correction stops.**  Once `rhat` has reached `b`, or the test is silent with the
guess below `b`, the guess is below `b` and at most one above the quotient digit. -/
theorem corrected_bounds {t u₂ v₁ v₂ qhat rhat : ℕ} (hW : W / P = t * b + u₂)
    (hq : qhat * v₁ + rhat = t) (hV : V < (v₁ * b + v₂ + 1) * P) (hv₁ : 0 < v₁) (hv₂ : v₂ < b)
    (hWV : W < V * b) (ht : t < (v₁ + 1) * b)
    (hdone : b ≤ rhat ∨ qhat < b ∧ qhat * v₂ ≤ rhat * b + u₂) : qhat < b ∧ qhat ≤ W / V + 1 := by
  rcases hdone with hr | ⟨hqb, hsilent⟩
  · -- the test cannot fire any more: `qhat * v₂ < b * b ≤ rhat * b`
    have hqb := lt_base_of_le_rhat hq hr ht
    have hsilent : qhat * v₂ ≤ rhat * b + u₂ :=
      calc qhat * v₂ ≤ b * b := Nat.mul_le_mul hqb.le hv₂.le
        _ ≤ rhat * b := Nat.mul_le_mul_right b hr
        _ ≤ rhat * b + u₂ := Nat.le_add_right _ _
    exact ⟨hqb, le_div_succ_of_not_test hW hq hV hv₁ hWV hsilent⟩
  · exact ⟨hqb, le_div_succ_of_not_test hW hq hV hv₁ hWV hsilent⟩

/-! ## Subtracting the guess times the divisor -/

theorem sub_of_le {qhat : ℕ} (hVpos : 0 < V) (hle : qhat * V ≤ W) (hq : W / V ≤ qhat) :
    qhat = W / V ∧ W - qhat * V < V := by
  have heq : qhat = W / V := Nat.le_antisymm ((Nat.le_div_iff_mul_le hVpos).mpr hle) hq
  refine ⟨heq, ?_⟩
  rw [heq, Nat.mul_comm, ← Nat.mod_eq_sub_mul_div]
  exact Nat.mod_lt W hVpos

/-- **The add-back.**  The guess times `V` went past the window by at most `V`: the difference
taken modulo `M` (with a borrow out of `M * b`), plus `V` modulo `M`, is `W - (qhat - 1) * V`,
and `qhat - 1` is the quotient digit. -/
theorem sub_add_back {qhat M : ℕ} (hb : 0 < b) (hlt : W < qhat * V) (hq : qhat ≤ W / V + 1)
    (hVM : V ≤ M) :
    qhat - 1 = W / V ∧ ((M * b + W - qhat * V) % M + V) % M = W - (qhat - 1) * V := by
  have hVpos : 0 < V := Nat.pos_of_ne_zero fun h => by rw [h, Nat.mul_zero] at hlt; omega
  have hqlt : W / V < qhat := (Nat.div_lt_iff_lt_mul hVpos).mpr hlt
  have hqeq : qhat - 1 = W / V := by
    generalize W / V = q at hq hqlt
    omega
  refine ⟨hqeq, ?_⟩
  -- `k = qhat * V - W` is in `(0, V]`
  have hlow : W / V * V ≤ W := Nat.div_mul_le_self W V
  have hsucc : qhat * V = W / V * V + V := by
    rw [show qhat = W / V + 1 by omega, Nat.succ_mul]
  set k := qhat * V - W with hk
  have hk0 : 0 < k := by omega
  have hkV : k ≤ V := by omega
  have hMb : M ≤ M * b := Nat.le_mul_of_pos_right M hb
  have hfirst : (M * b + W - qhat * V) % M = M - k := by
    have : M * b + W - qhat * V = (M - k) + M * (b - 1) := by
      have : M * b = M * (b - 1) + M := by
        rw [← Nat.mul_succ, Nat.succ_eq_add_one, Nat.sub_add_cancel hb]
      omega
    rw [this, Nat.add_mul_mod_self_left, Nat.mod_eq_of_lt (by omega)]
  rw [hfirst, show M - k + V = (V - k) + M by omega, Nat.add_mod_right,
    Nat.mod_eq_of_lt (by omega), hqeq]
  omega

/-! ## One digit of the whole division -/

/-- **A step of long division.**  Replacing the window `R / b^d` of the remainder by its
remainder modulo `V` takes `q * V * b^d` off `R`, for the quotient digit `q = R / b^d / V`, and
leaves a remainder below `V * b^d`. -/
theorem mod_add_div_step (R d : ℕ) (hb : 0 < b) (hV : 0 < V) :
    R % b ^ d + R / b ^ d % V * b ^ d + R / b ^ d / V * V * b ^ d = R ∧
      R % b ^ d + R / b ^ d % V * b ^ d < V * b ^ d := by
  have hsplit := Nat.mod_add_div R (b ^ d)
  have hwin := Nat.mod_add_div (R / b ^ d) V
  have hlt : R / b ^ d % V + 1 ≤ V := Nat.mod_lt _ hV
  have hm : R % b ^ d < b ^ d := Nat.mod_lt R (Nat.pow_pos hb)
  constructor
  · calc R % b ^ d + R / b ^ d % V * b ^ d + R / b ^ d / V * V * b ^ d
        = R % b ^ d + b ^ d * (R / b ^ d % V + V * (R / b ^ d / V)) := by ring
      _ = R := by rw [hwin, hsplit]
  · calc R % b ^ d + R / b ^ d % V * b ^ d < b ^ d + R / b ^ d % V * b ^ d := by omega
      _ = (R / b ^ d % V + 1) * b ^ d := by ring
      _ ≤ V * b ^ d := Nat.mul_le_mul_right _ hlt

/-! ## Undoing the normalization -/

theorem mul_add_mod_of_lt {a b c e : ℕ} (hb : b < c) : (c * a + b) % (c * e) = c * (a % e) + b := by
  rcases Nat.eq_zero_or_pos e with rfl | he
  · simp only [Nat.mul_zero, Nat.mod_zero]
  · have hlt : c * (a % e) + b < c * e :=
      calc c * (a % e) + b < c * (a % e) + c := by omega
        _ = c * (a % e + 1) := by ring
        _ ≤ c * e := Nat.mul_le_mul_left c (Nat.mod_lt a he)
    calc (c * a + b) % (c * e) = (c * e * (a / e) + (c * (a % e) + b)) % (c * e) := by
          congr 1
          conv_lhs => rw [← Nat.div_add_mod a e]
          ring
      _ = c * (a % e) + b := by rw [Nat.mul_add_mod, Nat.mod_eq_of_lt hlt]

/-- **Digit `d` of `Y / 2^k`** in base `2^w`, for `k ≤ w`: digit `d` of `Y` shifted down by `k`
bits, with the low bits of digit `d + 1` shifted in above them. -/
theorem div_two_pow_digit {w k : ℕ} (hk : k ≤ w) (Y d : ℕ) :
    Y / 2 ^ k / (2 ^ w) ^ d % 2 ^ w =
      Y / (2 ^ w) ^ d % 2 ^ w / 2 ^ k + Y / (2 ^ w) ^ (d + 1) % 2 ^ w * 2 ^ (w - k) % 2 ^ w := by
  have hB : 2 ^ w = 2 ^ (w - k) * 2 ^ k := by rw [← pow_add, Nat.sub_add_cancel hk]
  have hZ : Y / 2 ^ k / (2 ^ w) ^ d = Y / (2 ^ w) ^ d / 2 ^ k := by
    rw [Nat.div_div_eq_div_mul, Nat.div_div_eq_div_mul, Nat.mul_comm]
  have hZ₁ : Y / (2 ^ w) ^ (d + 1) = Y / (2 ^ w) ^ d / 2 ^ w := by
    rw [pow_succ, ← Nat.div_div_eq_div_mul]
  rw [hZ, hZ₁]
  generalize Y / (2 ^ w) ^ d = Z
  -- `Z / 2^k` is the digits of `Z` above `2^w`, moved up by `w - k` bits, over the top bits of
  -- its low digit
  have hdiv : Z / 2 ^ k = 2 ^ (w - k) * (Z / 2 ^ w) + Z % 2 ^ w / 2 ^ k :=
    calc Z / 2 ^ k = (2 ^ k * (2 ^ (w - k) * (Z / 2 ^ w)) + Z % 2 ^ w) / 2 ^ k := by
          rw [← Nat.mul_assoc, Nat.mul_comm (2 ^ k), ← hB, Nat.div_add_mod]
      _ = 2 ^ (w - k) * (Z / 2 ^ w) + Z % 2 ^ w / 2 ^ k :=
          Nat.mul_add_div (Nat.pow_pos (by norm_num)) _ _
  have hlow : Z % 2 ^ w / 2 ^ k < 2 ^ (w - k) :=
    Nat.div_lt_of_lt_mul (by rw [Nat.mul_comm, ← hB]; exact Nat.mod_lt _ (Nat.pow_pos (by norm_num)))
  rw [hdiv]
  generalize Z / 2 ^ w = a
  generalize Z % 2 ^ w / 2 ^ k = b at hlow ⊢
  rw [hB, mul_add_mod_of_lt hlow, Nat.mul_comm (a % _), Nat.mul_mod_mul_left, Nat.mod_mul_left_mod,
    Nat.add_comm]

end PolkadotSdk.Lib.LongDivision
