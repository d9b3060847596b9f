import Mathlib.Algebra.BigOperators.Ring.Finset
import Mathlib.Tactic.Linarith
import Mathlib.Tactic.Ring
import PolkadotSdk.Arithmetic.BigUint
import PolkadotSdk.Lib.LongDivision

/-!
# `BigUint::div`: Knuth's Algorithm D

`biguint.rs`, `div`.  An `n + m` limb `self` is divided by an `n` limb `other` one quotient limb
at a time, from the top: both are first multiplied by the power of two that sets the top bit of
`other` (step D1); each limb `j` of the quotient is then guessed from the top two limbs of the
window `j ..= j + n` of the remainder and the top limb of the divisor (D3), lowered by the test
`qhat * v₂ > B * rhat + u₂` (D3.1), multiplied back and subtracted from the window (D4), and, in
the rare case where the guess was still one too many, added back (D6).  The remainder is the last
window shifted back down.

The arithmetic of every step is that of `Lib.LongDivision`, at base `B = 2^32`; what this module
adds is that the limbs read and written are the digits that arithmetic speaks of, and that no
`u64` operation on the way overflows.

* `divStep_spec`: one turn of the loop keeps `self * N = q * V + s` with `s < V * B^j`;
* `div_quotient_remainder`: with its preconditions met, `div` gives the quotient and the
  remainder of the values, and never panics.
-/

namespace PolkadotSdk.Arithmetic

open PolkadotSdk.Lib.Unsigned PolkadotSdk.Lib.ForLoop PolkadotSdk.Lib.LongDivision

namespace BigUint

/-! ## 1. The model -/

/-- The closure `test` of step D3.1: it lowers `qhat` by one and raises `rhat` by the divisor's
top limb when `qhat` is at least `B`, or when `qhat` times the divisor's second limb is above
`B * rhat` plus the third limb of the window, and says whether it did.  Both predicates are
computed before the `||`, with the overflow checks of their arithmetic. -/
def test (selfNorm otherNorm : BigUint) (n j : ℕ) (qhat rhat : BitVec 64) :
    Option (Bool × BitVec 64 × BitVec 64) := do
  let predicate1 := decide (qhat ≥ B)
  let lhs ← checkedMul qhat (BitVec.setWidth 64 (← otherNorm.get (n - 2)))
  let rhs ← checkedAdd (← checkedMul B rhat) (BitVec.setWidth 64 (← selfNorm.get (j + n - 2)))
  let predicate2 := decide (lhs > rhs)
  if predicate1 || predicate2 then
    let qhat ← checkedSub qhat 1
    let rhat ← checkedAdd rhat (BitVec.setWidth 64 (← otherNorm.get (n - 1)))
    return (true, qhat, rhat)
  else return (false, qhat, rhat)

theorem checkedSub_one_lt {x y : BitVec 64} (h : checkedSub x 1 = some y) : y.toNat < x.toNat := by
  unfold checkedSub at h
  split at h
  · cases h
  · next hle =>
    cases h
    have hpos : 1 ≤ x.toNat := by simpa [BitVec.le_def] using BitVec.not_lt.mp hle
    rw [BitVec.toNat_sub_of_le (BitVec.not_lt.mp hle)]
    have hone : (1 : BitVec 64).toNat = 1 := rfl
    omega

theorem test_lt {selfNorm otherNorm : BigUint} {n j : ℕ} {qhat rhat qhat' rhat' : BitVec 64}
    (h : test selfNorm otherNorm n j qhat rhat = some (true, qhat', rhat')) :
    qhat'.toNat < qhat.toNat := by
  simp only [test, Option.bind_eq_bind, Option.bind_eq_some_iff] at h
  obtain ⟨_, -, _, -, _, -, _, -, _, -, h⟩ := h
  split at h
  · simp only [Option.bind_eq_some_iff, Option.pure_def, Option.some.injEq, Prod.mk.injEq] at h
    obtain ⟨q, hq, _, -, _, -, -, rfl, -⟩ := h
    exact checkedSub_one_lt hq
  · simp at h

/-- `test(); while rhat < B { if !test() { break } }`, after the first `test`. -/
def testLoop (selfNorm otherNorm : BigUint) (n j : ℕ) (qhat rhat : BitVec 64) :
    Option (BitVec 64 × BitVec 64) :=
  if rhat < B then
    match _h : test selfNorm otherNorm n j qhat rhat with
    | some (true, qhat', rhat') => testLoop selfNorm otherNorm n j qhat' rhat'
    | some (false, qhat', rhat') => some (qhat', rhat')
    | none => none
  else some (qhat, rhat)
termination_by qhat.toNat
decreasing_by exact test_lt _h

/-- `Self { digits: (j..=j + n).rev().map(|d| x.get(d)).collect() }`: the window of `n + 1`
limbs from limb `j` up. -/
def window (x : BigUint) (j n : ℕ) : Option BigUint := do
  return ⟨← (List.range' j (n + 1)).reverse.mapM x.get⟩

/-- `self_norm.set(d, x.get(d - j))`: a turn of the loops that write a window back. -/
def setWindow (x : BigUint) (j : ℕ) (selfNorm : BigUint) (d : ℕ) : Option BigUint := do
  selfNorm.set d (← x.get (d - j))

/-- Step D3: the estimate of quotient limb `j` from the top two limbs of the window and the top
limb of the divisor, corrected by `test()` and then by the loop. -/
def estimate (selfNorm otherNorm : BigUint) (n j : ℕ) : Option (BitVec 64) := do
  let dividend ← checkedAdd (← checkedMul (BitVec.setWidth 64 (← selfNorm.get (j + n))) B)
    (BitVec.setWidth 64 (← selfNorm.get (j + n - 1)))
  let divisor ← otherNorm.get (n - 1)
  let (qhat, rhat) ← divSingle dividend divisor
  let (_, qhat, rhat) ← test selfNorm otherNorm n j qhat (rhat.setWidth 64)
  let (qhat, _) ← testLoop selfNorm otherNorm n j qhat rhat
  return qhat

/-- Step D4: `qhat` times the divisor subtracted from the window, the difference written back from
its low limb up, and whether it went below zero (`sub` gave `Err`). -/
def mulSub (selfNorm otherNorm : BigUint) (n j : ℕ) (qhat : BitVec 64) :
    Option (Bool × BigUint) := do
  let lhs ← window selfNorm j n
  let rhs ← otherNorm.mul (ofU64 qhat)
  let (negative, sub) := match ← lhs.sub rhs with
    | .ok t => (false, t)
    | .error t => (true, t)
  let selfNorm ← (List.range' j (n + 1)).foldlM (setWindow sub j) selfNorm
  return (negative, selfNorm)

/-- Step D6 on the remainder: the divisor added back to the window, the sum written back from its
top limb down. -/
def addBack (selfNorm otherNorm : BigUint) (n j : ℕ) : Option BigUint := do
  let u ← window selfNorm j n
  let r ← otherNorm.add u
  (List.range' j (n + 1)).reverse.foldlM (setWindow r j) selfNorm

/-- Steps D3 to D6 for the quotient limb `j`, on the quotient `q` and the normalized remainder
`self_norm`. -/
def divStep (otherNorm : BigUint) (n : ℕ) (state : BigUint × BigUint) (j : ℕ) :
    Option (BigUint × BigUint) := do
  let (q, selfNorm) := state
  let qhat ← estimate selfNorm otherNorm n j
  let (negative, selfNorm) ← mulSub selfNorm otherNorm n j qhat
  -- D5
  let q ← q.set j (qhat.setWidth 32)
  -- D6
  if negative then
    let q ← q.set j (← checkedSub (← q.get j) 1)
    let selfNorm ← addBack selfNorm otherNorm n j
    return (q, selfNorm)
  else return (q, selfNorm)

/-- A turn of the loop that undoes the normalization: limb `d` of the remainder is limb `d`
shifted down by `nb` bits, with the low bits of limb `d + 1` shifted in. -/
def unnormalizeStep (selfNorm : BigUint) (nb : BitVec 32) (r : BigUint) (d : ℕ) :
    Option BigUint := do
  let s : BitVec 32 := 32
  let v := (← checkedShr (← selfNorm.get d) nb.toNat) |||
    (overflowingShl (← selfNorm.get (d + 1)) (← checkedSub s nb).toNat).1
  r.set d v

/-- The remainder, if requested: the last window shifted back down by the normalizer's bits. -/
def unnormalize (selfNorm r : BigUint) (n : ℕ) (normalizerBits : BitVec 32) : Option BigUint := do
  if normalizerBits > 0 then
    let r ← (List.range (n - 1)).foldlM (unnormalizeStep selfNorm normalizerBits) r
    r.set (n - 1) (← checkedShr (← selfNorm.get (n - 1)) normalizerBits.toNat)
  else return selfNorm

/-- `div`: `none` is a panic, and `some none` the `None` it returns when a precondition fails.
The preconditions are checked in the order of the source, and `||` short-circuits: `self.msb()`
runs only when `other` has passed, and panics on no limbs. -/
def div (self other : BigUint) (rem : Bool) : Option (Option (BigUint × BigUint)) := do
  if other.len ≤ 1 then return none
  let otherMsb ← other.msb
  if otherMsb = 0 then return none
  let selfMsb ← self.msb
  if selfMsb = 0 then return none
  if self.len ≤ other.len then return none
  let n := other.len
  let m := self.len - n
  let q := withCapacity (m + 1)
  let r := withCapacity n
  let normalizerBits := BitVec.clz otherMsb
  let normalizer ← checkedPow (2 : BitVec 32) normalizerBits.toNat
  -- D1
  let selfNorm := (← self.mul (ofU32 normalizer)).lpad (n + m + 1)
  let otherNorm := (← other.mul (ofU32 normalizer)).lstrip
  -- D2
  let (q, selfNorm) ← (List.range (m + 1)).reverse.foldlM (divStep otherNorm n) (q, selfNorm)
  let r ← if rem then unnormalize selfNorm r n normalizerBits else pure r
  return some (q, r)

/-! ## 2. Limbs as the digits of the value -/

/-- Limb `i` is digit `i` of the value in base `2^32`. -/
theorem limb_eq_digit (x : BigUint) (i : ℕ) : x.limb i = x.val / (2 ^ 32) ^ i % 2 ^ 32 := by
  obtain ⟨l⟩ := x
  induction l generalizing i with
  | nil =>
    rw [limb_of_le (Nat.zero_le i), show (⟨[]⟩ : BigUint).val = 0 from rfl, Nat.zero_div,
      Nat.zero_mod]
  | cons d l ih =>
    have hl : (⟨l⟩ : BigUint).val < (2 ^ 32) ^ l.length := val_lt _
    rw [limb_cons, val_cons]
    rcases Nat.lt_trichotomy i l.length with hi | rfl | hi
    · -- below the top limb, which is a multiple of `B^(i + 1)`
      obtain ⟨k, hk⟩ := Nat.exists_eq_add_of_lt hi
      have htop : d.toNat * (2 ^ 32) ^ l.length = d.toNat * (2 ^ 32) ^ k * 2 ^ 32 * (2 ^ 32) ^ i := by
        rw [hk]; ring
      rw [if_neg hi.ne, ih i, htop, Nat.add_comm, Nat.add_mul_div_right _ _ (Nat.pow_pos (by norm_num)),
        Nat.add_mul_mod_self_right]
    · -- the top limb: the limbs below it weigh less
      rw [if_pos rfl, Nat.add_comm, Nat.add_mul_div_right _ _ (Nat.pow_pos (by norm_num)),
        Nat.div_eq_of_lt hl, Nat.zero_add, Nat.mod_eq_of_lt d.isLt]
    · -- above the top limb: both are zero
      have hval : (⟨d :: l⟩ : BigUint).val < (2 ^ 32) ^ i :=
        lt_of_lt_of_le (val_lt _)
          (Nat.pow_le_pow_right (by norm_num) (by simp only [len_mk, List.length_cons]; omega))
      rw [val_cons] at hval
      rw [if_neg hi.ne', limb_of_le (by simpa using hi.le), Nat.div_eq_of_lt hval, Nat.zero_mod]

theorem sum_limb_eq_mod (x : BigUint) (L : ℕ) :
    ∑ i ∈ Finset.range L, x.limb i * (2 ^ 32) ^ i = x.val % (2 ^ 32) ^ L := by
  simp only [limb_eq_digit]
  exact sum_digits_eq_mod (2 ^ 32) x.val L

theorem val_div_pow (x : BigUint) (i : ℕ) :
    x.val / (2 ^ 32) ^ i = x.val / (2 ^ 32) ^ (i + 1) * 2 ^ 32 + x.limb i := by
  rw [limb_eq_digit, ← div_pow_eq]

theorem val_div_pow_of_lt {x : BigUint} {i : ℕ} (h : x.val < (2 ^ 32) ^ (i + 2)) :
    x.val / (2 ^ 32) ^ i = x.limb (i + 1) * 2 ^ 32 + x.limb i := by
  rw [val_div_pow x i, val_div_pow x (i + 1), Nat.div_eq_of_lt h, Nat.zero_mul, Nat.zero_add]

theorem limb_eq_zero_of_val_lt {x : BigUint} {N : ℕ} (h : x.val < (2 ^ 32) ^ N) {t : ℕ}
    (ht : N ≤ t) : x.limb t = 0 := by
  rw [limb_eq_digit, Nat.div_eq_of_lt (lt_of_lt_of_le h (Nat.pow_le_pow_right (by norm_num) ht)),
    Nat.zero_mod]

/-! ## 3. Windows of limbs -/

theorem get_eq_some {x : BigUint} {i : ℕ} (h : i < x.len) : x.get i = some ((x.get i).getD 0) := by
  obtain ⟨d, hd, -⟩ := get_of_lt h
  rw [hd]
  rfl

theorem toNat_getD_get (x : BigUint) (i : ℕ) : ((x.get i).getD 0).toNat = x.limb i := by
  rw [get_eq_checkedGet, toNat_getD_checkedGet]

/-- The window of `n + 1` limbs from limb `j` holds digits `j ..= j + n` of the value. -/
theorem window_spec {x : BigUint} {j n : ℕ} (h : j + n < x.len) :
    ∃ w, x.window j n = some w ∧ w.len = n + 1 ∧
      w.val = x.val / (2 ^ 32) ^ j % (2 ^ 32) ^ (n + 1) := by
  have hget : ∀ d ∈ (List.range' j (n + 1)).reverse, x.get d = some ((x.get d).getD 0) := by
    intro d hd
    rw [List.mem_reverse, List.mem_range'_1] at hd
    exact get_eq_some (by omega)
  set w : BigUint := ⟨(List.range' j (n + 1)).reverse.map fun d => (x.get d).getD 0⟩
  have hlen : w.len = n + 1 := by simp [w, len]
  -- limb `i` of the window is limb `j + i` of `x`
  have hlimb : ∀ i ∈ Finset.range (n + 1), w.limb i * (2 ^ 32) ^ i =
      x.val / (2 ^ 32) ^ j / (2 ^ 32) ^ i % 2 ^ 32 * (2 ^ 32) ^ i := by
    intro i hi
    rw [Finset.mem_range] at hi
    have hw : w.limb i = x.limb (j + i) := by
      rw [limb_eq]
      dsimp only [w]
      rw [List.map_reverse, List.reverse_reverse, List.getElem?_map, List.getElem?_range' hi,
        Option.map_some, Option.map_some, Option.getD_some, toNat_getD_get, Nat.one_mul]
    rw [hw, limb_eq_digit, Nat.div_div_eq_div_mul, ← pow_add]
  refine ⟨w, by simp only [window, mapM_of_forall hget, Option.bind_eq_bind, Option.bind_some,
    Option.pure_def]; rfl, hlen, ?_⟩
  rw [val_eq_sum, hlen, Finset.sum_congr rfl hlimb, sum_digits_eq_mod]

theorem setWindow_spec {x s : BigUint} {j d : ℕ} (hd : d < s.len) (hx : d - j < x.len) :
    ∃ s', setWindow x j s d = some s' ∧ s'.len = s.len ∧
      ∀ t, s'.limb t = if t = d then x.limb (d - j) else s.limb t := by
  obtain ⟨e, he, he'⟩ := get_of_lt hx
  obtain ⟨s', hs', hlen, hlimb⟩ := set_of_lt hd e
  refine ⟨s', by simp only [setWindow, he, Option.bind_eq_bind, Option.bind_some, hs'], hlen,
    fun t => ?_⟩
  rw [hlimb, he']

/-- `s'` is `s` with its limbs `j + lo ≤ t < j + hi` taken from the window of `x`. -/
def WindowWritten (x s : BigUint) (j lo hi : ℕ) (s' : BigUint) : Prop :=
  s'.len = s.len ∧ ∀ t, s'.limb t = if j + lo ≤ t ∧ t < j + hi then x.limb (t - j) else s.limb t

/-- The write-back of step D4, from limb `j` up. -/
theorem writeBack_spec {x s : BigUint} {j n : ℕ} (hs : j + n < s.len) (hx : n < x.len) :
    ∃ s', (List.range' j (n + 1)).foldlM (setWindow x j) s = some s' ∧
      WindowWritten x s j 0 (n + 1) s' := by
  rw [List.range'_eq_map_range, List.foldlM_map]
  refine foldlM_range_inv (fun i s' => WindowWritten x s j 0 i s')
    ⟨rfl, fun t => by rw [if_neg (by omega)]⟩ fun i s' hi ⟨hlen, hlimb⟩ => ?_
  obtain ⟨s'', hrun, hlen', hlimb'⟩ := setWindow_spec (x := x) (s := s') (j := j) (d := j + i)
    (by omega) (by omega)
  refine ⟨s'', hrun, hlen'.trans hlen, fun t => ?_⟩
  rw [hlimb', hlimb]
  by_cases ht : t = j + i
  · rw [if_pos ht, if_pos (by omega), ht]
  · rw [if_neg ht]
    by_cases hw : j + 0 ≤ t ∧ t < j + i
    · rw [if_pos hw, if_pos (by omega)]
    · rw [if_neg hw, if_neg (by omega)]

/-- The write-back of step D6, from limb `j + n` down. -/
theorem writeBack_reverse_spec {x s : BigUint} {j n : ℕ} (hs : j + n < s.len) (hx : n < x.len) :
    ∃ s', (List.range' j (n + 1)).reverse.foldlM (setWindow x j) s = some s' ∧
      WindowWritten x s j 0 (n + 1) s' := by
  rw [List.range'_eq_map_range, ← List.map_reverse, List.foldlM_map]
  refine foldlM_range_reverse_inv (fun i s' => WindowWritten x s j i (n + 1) s')
    ⟨rfl, fun t => by rw [if_neg (by omega)]⟩ fun i s' hi ⟨hlen, hlimb⟩ => ?_
  obtain ⟨s'', hrun, hlen', hlimb'⟩ := setWindow_spec (x := x) (s := s') (j := j) (d := j + i)
    (by omega) (by omega)
  refine ⟨s'', hrun, hlen'.trans hlen, fun t => ?_⟩
  rw [hlimb', hlimb]
  by_cases ht : t = j + i
  · rw [if_pos ht, if_pos (by omega), ht]
  · rw [if_neg ht]
    by_cases hw : j + (i + 1) ≤ t ∧ t < j + (n + 1)
    · rw [if_pos hw, if_pos (by omega)]
    · rw [if_neg hw, if_neg (by omega)]

/-- **The value of a written window.**  With nothing above the window, the limbs below `j` keep
their value and the window weighs `x` modulo `B^(n+1)` times `B^j`. -/
theorem val_windowWritten {x s s' : BigUint} {j n : ℕ} (hs : s.val < (2 ^ 32) ^ (j + n + 1))
    (h : WindowWritten x s j 0 (n + 1) s') :
    s'.val = s.val % (2 ^ 32) ^ j + x.val % (2 ^ 32) ^ (n + 1) * (2 ^ 32) ^ j := by
  obtain ⟨-, hlimb⟩ := h
  have hzero : ∀ t, j + (n + 1) ≤ t → s'.limb t = 0 := fun t ht => by
    rw [hlimb, if_neg (by omega), limb_eq_zero_of_val_lt hs (by omega)]
  have hlow : ∑ t ∈ Finset.range j, s'.limb t * (2 ^ 32) ^ t =
      ∑ t ∈ Finset.range j, s.limb t * (2 ^ 32) ^ t :=
    Finset.sum_congr rfl fun t ht => by
      rw [hlimb, if_neg (by rw [Finset.mem_range] at ht; omega)]
  have hhigh : ∑ i ∈ Finset.range (n + 1), s'.limb (j + i) * (2 ^ 32) ^ (j + i) =
      (∑ i ∈ Finset.range (n + 1), x.limb i * (2 ^ 32) ^ i) * (2 ^ 32) ^ j := by
    rw [Finset.sum_mul]
    refine Finset.sum_congr rfl fun i hi => ?_
    rw [hlimb, if_pos (by rw [Finset.mem_range] at hi; omega), Nat.add_sub_cancel_left, pow_add]
    ring
  rw [val_eq_sum_of_zero_above hzero, Finset.sum_range_add, hlow, hhigh, sum_limb_eq_mod,
    sum_limb_eq_mod]

/-! ## 4. Step D3: the estimate -/

section Estimate

variable {s o : BigUint} {n j : ℕ}

theorem test_of_fires {qhat rhat lhs m rhs qhat' rhat' : BitVec 64} {u₂ v₁ v₂ : BitVec 32}
    (hv₂ : o.get (n - 2) = some v₂) (hu₂ : s.get (j + n - 2) = some u₂)
    (h₁ : checkedMul qhat (v₂.setWidth 64) = some lhs) (h₂ : checkedMul B rhat = some m)
    (h₃ : checkedAdd m (u₂.setWidth 64) = some rhs) (hfire : qhat ≥ B ∨ lhs > rhs)
    (h₄ : checkedSub qhat 1 = some qhat') (hv₁ : o.get (n - 1) = some v₁)
    (h₅ : checkedAdd rhat (v₁.setWidth 64) = some rhat') :
    test s o n j qhat rhat = some (true, qhat', rhat') := by
  have hp : (decide (qhat ≥ B) || decide (lhs > rhs)) = true := by simpa using hfire
  simp only [test, hv₂, hu₂, h₁, h₂, h₃, hp, if_true, h₄, hv₁, h₅, Option.bind_eq_bind,
    Option.bind_some, Option.pure_def]

theorem test_of_silent {qhat rhat lhs m rhs : BitVec 64} {u₂ v₂ : BitVec 32}
    (hv₂ : o.get (n - 2) = some v₂) (hu₂ : s.get (j + n - 2) = some u₂)
    (h₁ : checkedMul qhat (v₂.setWidth 64) = some lhs) (h₂ : checkedMul B rhat = some m)
    (h₃ : checkedAdd m (u₂.setWidth 64) = some rhs) (hsilent : ¬(qhat ≥ B ∨ lhs > rhs)) :
    test s o n j qhat rhat = some (false, qhat, rhat) := by
  have hp : (decide (qhat ≥ B) || decide (lhs > rhs)) = false := by simpa using hsilent
  simp only [test, hv₂, hu₂, h₁, h₂, h₃, hp, Bool.false_eq_true, if_false, Option.bind_eq_bind,
    Option.bind_some, Option.pure_def]

/-- **`test` on the naturals.**  With `qhat ≤ B + 1` and `rhat < B` none of its arithmetic
overflows; it fires when `qhat ≥ B` or `qhat * v₂ > rhat * B + u₂`, and then lowers `qhat` by one
and raises `rhat` by `v₁`. -/
theorem test_spec (hv₂ : n - 2 < o.len) (hu₂ : j + n - 2 < s.len) (hv₁ : n - 1 < o.len)
    {qhat rhat : BitVec 64} (hq : qhat.toNat ≤ 2 ^ 32 + 1) (hr : rhat.toNat < 2 ^ 32) :
    ∃ res, test s o n j qhat rhat = some res ∧
      ((2 ^ 32 ≤ qhat.toNat ∨
          rhat.toNat * 2 ^ 32 + s.limb (j + n - 2) < qhat.toNat * o.limb (n - 2)) →
        res.1 = true ∧ res.2.1.toNat + 1 = qhat.toNat ∧
          res.2.2.toNat = rhat.toNat + o.limb (n - 1)) ∧
      (¬(2 ^ 32 ≤ qhat.toNat ∨
          rhat.toNat * 2 ^ 32 + s.limb (j + n - 2) < qhat.toNat * o.limb (n - 2)) →
        res = (false, qhat, rhat)) := by
  obtain ⟨e₂, he₂, he₂'⟩ := get_of_lt hv₂
  obtain ⟨f₂, hf₂, hf₂'⟩ := get_of_lt hu₂
  obtain ⟨e₁, he₁, he₁'⟩ := get_of_lt hv₁
  rw [← he₂', ← hf₂', ← he₁']
  have he₂B := e₂.isLt
  have hf₂B := f₂.isLt
  have he₁B := e₁.isLt
  -- `qhat * v₂ ≤ (B + 1) (B - 1)`, `B * rhat + u₂ ≤ B (B - 1) + B - 1`: no overflow
  have hlhs : qhat.toNat * e₂.toNat ≤ (2 ^ 32 + 1) * (2 ^ 32 - 1) :=
    Nat.mul_le_mul hq (Nat.le_sub_one_of_lt he₂B)
  obtain ⟨h₁, h₁'⟩ := checkedMul_of_lt (a := qhat) (b := e₂.setWidth 64)
    (by rw [toNat_setWidth64]; omega)
  obtain ⟨h₂, h₂'⟩ := checkedMul_of_lt (a := B) (b := rhat) (by rw [toNat_B]; omega)
  rw [toNat_B] at h₂'
  obtain ⟨h₃, h₃'⟩ := checkedAdd_of_lt (a := B * rhat) (b := f₂.setWidth 64)
    (by rw [h₂', toNat_setWidth64]; omega)
  rw [toNat_setWidth64] at h₁'
  rw [h₂', toNat_setWidth64] at h₃'
  have hiff : (qhat ≥ B ∨ qhat * e₂.setWidth 64 > B * rhat + f₂.setWidth 64) ↔
      (2 ^ 32 ≤ qhat.toNat ∨ rhat.toNat * 2 ^ 32 + f₂.toNat < qhat.toNat * e₂.toNat) := by
    rw [ge_iff_le, gt_iff_lt, BitVec.le_def, BitVec.lt_def, toNat_B, h₁', h₃', Nat.mul_comm]
  by_cases hfire : 2 ^ 32 ≤ qhat.toNat ∨ rhat.toNat * 2 ^ 32 + f₂.toNat < qhat.toNat * e₂.toNat
  · -- a firing test leaves `qhat ≥ 1` to take one from
    have hq1 : 1 ≤ qhat.toNat := by
      rcases hfire with h | h
      · omega
      · exact Nat.pos_of_ne_zero fun h0 => by rw [h0, Nat.zero_mul] at h; omega
    have hone : (1 : BitVec 64).toNat = 1 := rfl
    obtain ⟨h₄, h₄'⟩ := checkedSub_of_le (a := qhat) (b := 1) (by rw [hone]; omega)
    obtain ⟨h₅, h₅'⟩ := checkedAdd_of_lt (a := rhat) (b := e₁.setWidth 64)
      (by rw [toNat_setWidth64]; omega)
    refine ⟨_, test_of_fires he₂ hf₂ h₁ h₂ h₃ (hiff.mpr hfire) h₄ he₁ h₅,
      fun _ => ⟨rfl, ?_, ?_⟩, fun h => absurd hfire h⟩
    · rw [h₄', hone]
      omega
    · rw [h₅', toNat_setWidth64]
  · exact ⟨_, test_of_silent he₂ hf₂ h₁ h₂ h₃ (mt hiff.mp hfire), fun h => absurd h hfire,
      fun _ => rfl⟩

/-- **The rule for the correction loop.**  An invariant that a firing `test` keeps, where a silent
`test` or `rhat ≥ B` gives `Done`, holds with `Done` once the loop ends; and the loop ends, `qhat`
going down at every turn. -/
theorem testLoop_inv (Inv Done : BitVec 64 → BitVec 64 → Prop)
    (hstep : ∀ qhat rhat, Inv qhat rhat → rhat < B →
      ∃ res, test s o n j qhat rhat = some res ∧ (res.1 = true → Inv res.2.1 res.2.2) ∧
        (res.1 = false → res.2 = (qhat, rhat) ∧ Done qhat rhat))
    (hexit : ∀ qhat rhat, Inv qhat rhat → ¬rhat < B → Done qhat rhat) (qhat rhat : BitVec 64)
    (hinv : Inv qhat rhat) :
    ∃ qhat' rhat', testLoop s o n j qhat rhat = some (qhat', rhat') ∧ Inv qhat' rhat' ∧
      Done qhat' rhat' := by
  -- by induction on `qhat`, which every firing `test` lowers
  induction hk : qhat.toNat using Nat.strong_induction_on generalizing qhat rhat with
  | _ k ih =>
  rw [testLoop]
  by_cases hr : rhat < B
  · rw [if_pos hr]
    obtain ⟨res, htest, hfired, hsilent⟩ := hstep qhat rhat hinv hr
    split
    · next qhat₁ rhat₁ heq =>
      -- `test` fired: the loop goes on from a lower `qhat`
      rw [htest] at heq
      cases heq
      exact ih _ (hk ▸ test_lt htest) qhat₁ rhat₁ (hfired rfl) rfl
    · next qhat₁ rhat₁ heq =>
      -- `test` was silent: `break`
      rw [htest] at heq
      cases heq
      obtain ⟨heq, hdone⟩ := hsilent rfl
      obtain ⟨rfl, rfl⟩ := Prod.mk.inj heq
      exact ⟨qhat₁, rhat₁, rfl, hinv, hdone⟩
    · next heq =>
      rw [htest] at heq
      cases heq
  · rw [if_neg hr]
    exact ⟨qhat, rhat, rfl, hinv, hexit qhat rhat hinv hr⟩

/-- The invariant of the correction: `qhat * v₁ + rhat` stays the top two limbs `t` of the window,
and `qhat` stays between the quotient limb `q` and `B + 1`. -/
def EstimateInv (v₁ t q : ℕ) (qhat rhat : BitVec 64) : Prop :=
  qhat.toNat * v₁ + rhat.toNat = t ∧ q ≤ qhat.toNat ∧ qhat.toNat ≤ 2 ^ 32 + 1

/-- A `test` keeps the invariant, and a silent one leaves the guess below `B` with the test on the
next limbs false. -/
theorem test_inv {W V P t : ℕ} (hv₂ : n - 2 < o.len) (hu₂ : j + n - 2 < s.len)
    (hv₁ : n - 1 < o.len) (hP : 0 < P) (hW : W / P = t * 2 ^ 32 + s.limb (j + n - 2))
    (hV : (o.limb (n - 1) * 2 ^ 32 + o.limb (n - 2)) * P ≤ V) (hWV : W < V * 2 ^ 32)
    (qhat rhat : BitVec 64) (hinv : EstimateInv (o.limb (n - 1)) t (W / V) qhat rhat)
    (hr : rhat.toNat < 2 ^ 32) :
    ∃ res, test s o n j qhat rhat = some res ∧
      EstimateInv (o.limb (n - 1)) t (W / V) res.2.1 res.2.2 ∧
      (res.1 = false → res.2 = (qhat, rhat) ∧ qhat.toNat < 2 ^ 32 ∧
        qhat.toNat * o.limb (n - 2) ≤ rhat.toNat * 2 ^ 32 + s.limb (j + n - 2)) := by
  obtain ⟨ht, hq, hqB⟩ := hinv
  obtain ⟨res, htest, hfire, hsilent⟩ := test_spec hv₂ hu₂ hv₁ hqB hr
  by_cases hf : 2 ^ 32 ≤ qhat.toNat ∨
      rhat.toNat * 2 ^ 32 + s.limb (j + n - 2) < qhat.toNat * o.limb (n - 2)
  · -- a firing test was right: the quotient limb is below `qhat`
    obtain ⟨h1, hq', hr'⟩ := hfire hf
    have hlt : W / V < qhat.toNat := div_lt_of_fires hP hW ht hV hWV hf
    refine ⟨res, htest, ⟨?_, by omega, by omega⟩, fun h => absurd h1 (by rw [h]; decide)⟩
    rw [hr', ← ht, ← hq']
    ring
  · obtain rfl := hsilent hf
    exact ⟨_, htest, ⟨ht, hq, hqB⟩, fun _ => ⟨rfl, by omega, by omega⟩⟩

theorem divisor_top (hn : 2 ≤ n) (ho : o.len = n) :
    (o.limb (n - 1) * 2 ^ 32 + o.limb (n - 2)) * (2 ^ 32) ^ (n - 2) ≤ o.val ∧
      o.val < (o.limb (n - 1) * 2 ^ 32 + o.limb (n - 2) + 1) * (2 ^ 32) ^ (n - 2) := by
  have hVP : o.val / (2 ^ 32) ^ (n - 2) = o.limb (n - 1) * 2 ^ 32 + o.limb (n - 2) := by
    have h := val_div_pow_of_lt (x := o) (i := n - 2)
      (by rw [show n - 2 + 2 = n by omega, ← ho]; exact val_lt o)
    rwa [show n - 2 + 1 = n - 1 by omega] at h
  rw [← hVP]
  exact ⟨Nat.div_mul_le_self _ _, by
    rw [Nat.mul_comm]; exact Nat.lt_mul_div_succ _ (Nat.pow_pos (by norm_num))⟩

theorem window_top (hn : 2 ≤ n) (hs : s.val < (2 ^ 32) ^ (j + n + 1)) :
    s.val / (2 ^ 32) ^ (j + n - 1) = s.limb (j + n) * 2 ^ 32 + s.limb (j + n - 1) ∧
      s.val / (2 ^ 32) ^ j / (2 ^ 32) ^ (n - 2) =
        s.val / (2 ^ 32) ^ (j + n - 1) * 2 ^ 32 + s.limb (j + n - 2) := by
  constructor
  · have h := val_div_pow_of_lt (x := s) (i := j + n - 1)
      (by rw [show j + n - 1 + 2 = j + n + 1 by omega]; exact hs)
    rwa [show j + n - 1 + 1 = j + n by omega] at h
  · rw [Nat.div_div_eq_div_mul, ← pow_add, show j + (n - 2) = j + n - 2 by omega, val_div_pow,
      show j + n - 2 + 1 = j + n - 1 by omega]

/-- **Step D3.1.**  From a first guess in the invariant, `test()` and the loop after it stop at a
guess below `B` that is the quotient limb or one above it. -/
theorem correction_spec {W V P t : ℕ} (hv₂ : n - 2 < o.len) (hu₂ : j + n - 2 < s.len)
    (hv₁ : n - 1 < o.len) (hP : 0 < P) (hW : W / P = t * 2 ^ 32 + s.limb (j + n - 2))
    (hV : (o.limb (n - 1) * 2 ^ 32 + o.limb (n - 2)) * P ≤ V)
    (hV' : V < (o.limb (n - 1) * 2 ^ 32 + o.limb (n - 2) + 1) * P) (hv₁pos : 0 < o.limb (n - 1))
    (hWV : W < V * 2 ^ 32) (ht : t < (o.limb (n - 1) + 1) * 2 ^ 32) {qhat rhat : BitVec 64}
    (hinv : EstimateInv (o.limb (n - 1)) t (W / V) qhat rhat) (hr : rhat.toNat < 2 ^ 32) :
    ∃ fired qhat₁ rhat₁ qhat' rhat', test s o n j qhat rhat = some (fired, qhat₁, rhat₁) ∧
      testLoop s o n j qhat₁ rhat₁ = some (qhat', rhat') ∧ qhat'.toNat < 2 ^ 32 ∧
      W / V ≤ qhat'.toNat ∧ qhat'.toNat ≤ W / V + 1 := by
  -- the loop stops where `rhat ≥ B` or the test is silent
  let Done : BitVec 64 → BitVec 64 → Prop := fun qhat rhat => 2 ^ 32 ≤ rhat.toNat ∨
    qhat.toNat < 2 ^ 32 ∧ qhat.toNat * o.limb (n - 2) ≤ rhat.toNat * 2 ^ 32 + s.limb (j + n - 2)
  have hstep : ∀ qhat rhat, EstimateInv (o.limb (n - 1)) t (W / V) qhat rhat → rhat < B →
      ∃ res, test s o n j qhat rhat = some res ∧
        (res.1 = true → EstimateInv (o.limb (n - 1)) t (W / V) res.2.1 res.2.2) ∧
        (res.1 = false → res.2 = (qhat, rhat) ∧ Done qhat rhat) := by
    intro qhat rhat hinv hr
    rw [BitVec.lt_def, toNat_B] at hr
    obtain ⟨res, htest, hinv', hsilent⟩ := test_inv hv₂ hu₂ hv₁ hP hW hV hWV qhat rhat hinv hr
    exact ⟨res, htest, fun _ => hinv', fun h => ⟨(hsilent h).1, .inr (hsilent h).2⟩⟩
  have hexit : ∀ qhat rhat, EstimateInv (o.limb (n - 1)) t (W / V) qhat rhat → ¬rhat < B →
      Done qhat rhat := fun _ rhat _ hr => .inl (by rwa [BitVec.lt_def, toNat_B, Nat.not_lt] at hr)
  obtain ⟨⟨fired, qhat₁, rhat₁⟩, htest, hinv₁, -⟩ :=
    test_inv hv₂ hu₂ hv₁ hP hW hV hWV qhat rhat hinv hr
  obtain ⟨qhat', rhat', hloop, ⟨hq, hlow, -⟩, hdone⟩ :=
    testLoop_inv _ Done hstep hexit qhat₁ rhat₁ hinv₁
  obtain ⟨hqb, hhigh⟩ := corrected_bounds hW hq hV' hv₁pos (limb_lt o _) hWV ht hdone
  exact ⟨fired, qhat₁, rhat₁, qhat', rhat', htest, hloop, hqb, hlow, hhigh⟩

theorem window_bounds (ho : o.len = n) (hsV : s.val < o.val * (2 ^ 32) ^ (j + 1)) :
    s.val < (2 ^ 32) ^ (j + n + 1) ∧ s.val / (2 ^ 32) ^ j < o.val * 2 ^ 32 := by
  constructor
  · calc s.val < o.val * (2 ^ 32) ^ (j + 1) := hsV
      _ ≤ (2 ^ 32) ^ n * (2 ^ 32) ^ (j + 1) := Nat.mul_le_mul_right _ (ho ▸ val_lt o).le
      _ = (2 ^ 32) ^ (j + n + 1) := by rw [← pow_add]; ring_nf
  · exact Nat.div_lt_of_lt_mul (by rw [Nat.mul_comm, Nat.mul_assoc, ← pow_succ']; exact hsV)

theorem estimate_of {e₀ e₁ d₁ : BitVec 32} {m dividend : BitVec 64} {fired : Bool}
    {qhat₁ rhat₁ qhat rhat : BitVec 64} (he₀ : s.get (j + n) = some e₀)
    (he₁ : s.get (j + n - 1) = some e₁) (h₁ : checkedMul (e₀.setWidth 64) B = some m)
    (h₂ : checkedAdd m (e₁.setWidth 64) = some dividend) (hd₁ : o.get (n - 1) = some d₁)
    (hd₁0 : d₁ ≠ 0)
    (htest : test s o n j (dividend / d₁.setWidth 64)
      (((dividend % d₁.setWidth 64).setWidth 32).setWidth 64) = some (fired, qhat₁, rhat₁))
    (hloop : testLoop s o n j qhat₁ rhat₁ = some (qhat, rhat)) :
    estimate s o n j = some qhat := by
  simp only [estimate, Option.bind_eq_bind, Option.bind_eq_some_iff, Option.pure_def,
    Option.some.injEq]
  exact ⟨e₀, he₀, m, h₁, e₁, he₁, dividend, h₂, d₁, hd₁, _, if_neg hd₁0, _, htest, _, hloop,
    rfl⟩

/-- **Step D3.**  With a normalized divisor of `n ≥ 2` limbs and a remainder below `V B^(j+1)`, the
estimate of quotient limb `j` is the quotient of the window `W` by `V`, or one above it, and below
`B`; no `u64` arithmetic on the way overflows. -/
theorem estimate_spec (hn : 2 ≤ n) (ho : o.len = n) (hnorm : 2 ^ 31 ≤ o.limb (n - 1))
    (hs : j + n < s.len) (hsV : s.val < o.val * (2 ^ 32) ^ (j + 1)) :
    ∃ qhat, estimate s o n j = some qhat ∧ qhat.toNat < 2 ^ 32 ∧
      s.val / (2 ^ 32) ^ j / o.val ≤ qhat.toNat ∧
      qhat.toNat ≤ s.val / (2 ^ 32) ^ j / o.val + 1 := by
  have hPpos : 0 < (2 ^ 32) ^ (n - 2) := Nat.pow_pos (by norm_num)
  have hv₁pos : 0 < o.limb (n - 1) := by omega
  obtain ⟨hV, hV'⟩ := divisor_top hn ho
  obtain ⟨hsB, hWV⟩ := window_bounds ho hsV
  obtain ⟨htop, hW⟩ := window_top hn hsB
  set t := s.val / (2 ^ 32) ^ (j + n - 1)
  have hWt : s.val / (2 ^ 32) ^ j / (2 ^ 32 * (2 ^ 32) ^ (n - 2)) = t := by
    rw [Nat.mul_comm, ← Nat.div_div_eq_div_mul, hW, Nat.add_comm,
      Nat.add_mul_div_right _ _ (by norm_num),
      Nat.div_eq_of_lt (limb_lt s _), Nat.zero_add]
  have ht : t < (o.limb (n - 1) + 1) * 2 ^ 32 := hWt ▸ top_lt hV' (limb_lt o _) hWV
  -- D3.0: `u₀ B + u₁` never overflows, and the divisor's top limb is not zero
  obtain ⟨e₀, he₀, he₀'⟩ := get_of_lt hs
  obtain ⟨e₁, he₁, he₁'⟩ := get_of_lt (x := s) (i := j + n - 1) (by omega)
  obtain ⟨d₁, hd₁, hd₁'⟩ := get_of_lt (x := o) (i := n - 1) (by omega)
  have he₀B := e₀.isLt
  have he₁B := e₁.isLt
  obtain ⟨h₁, h₁'⟩ := checkedMul_of_lt (a := e₀.setWidth 64) (b := B)
    (by rw [toNat_setWidth64, toNat_B]; omega)
  rw [toNat_setWidth64, toNat_B] at h₁'
  obtain ⟨h₂, h₂'⟩ := checkedAdd_of_lt (a := e₀.setWidth 64 * B) (b := e₁.setWidth 64)
    (by rw [h₁', toNat_setWidth64]; omega)
  have hdividend : (e₀.setWidth 64 * B + e₁.setWidth 64).toNat = t := by
    rw [h₂', h₁', toNat_setWidth64, htop, he₀', he₁', Nat.mul_comm]
  generalize e₀.setWidth 64 * B + e₁.setWidth 64 = dividend at h₂ hdividend
  have hd₁0 : d₁ ≠ 0 := fun h => by rw [h] at hd₁'; simp at hd₁'; omega
  have hq₀ : (dividend / d₁.setWidth 64).toNat = t / o.limb (n - 1) := by
    rw [BitVec.toNat_udiv, hdividend, toNat_setWidth64, hd₁']
  have hr₀ : (((dividend % d₁.setWidth 64).setWidth 32).setWidth 64).toNat = t % o.limb (n - 1) := by
    rw [toNat_setWidth64, BitVec.toNat_setWidth, BitVec.toNat_umod, hdividend, toNat_setWidth64, hd₁',
      Nat.mod_eq_of_lt (lt_trans (Nat.mod_lt _ hv₁pos) (limb_lt o _))]
  -- the first guess `t / v₁` is in the invariant
  have hinv : EstimateInv (o.limb (n - 1)) t (s.val / (2 ^ 32) ^ j / o.val)
      (dividend / d₁.setWidth 64) (((dividend % d₁.setWidth 64).setWidth 32).setWidth 64) := by
    refine ⟨by rw [hq₀, hr₀]; exact Nat.div_add_mod' t _, ?_, ?_⟩
    · rw [hq₀, ← hWt]
      exact div_le_estimate hv₁pos (Nat.mul_pos (by norm_num) hPpos)
        (le_trans (by nlinarith) hV)
    · rw [hq₀]
      exact estimate_le (by omega) ht
  obtain ⟨fired, qhat₁, rhat₁, qhat, rhat, htest, hloop, hqb, hlow, hhigh⟩ :=
    correction_spec (by omega) (by omega) (by omega) hPpos hW hV hV' hv₁pos hWV ht hinv
      (by rw [hr₀]; exact lt_trans (Nat.mod_lt _ hv₁pos) (limb_lt o _))
  exact ⟨qhat, estimate_of he₀ he₁ h₁ h₂ hd₁ hd₁0 htest hloop, hqb, hlow, hhigh⟩

end Estimate




/-! ## 5. Steps D4 to D6: multiply, subtract, add back -/

theorem ofU64_spec (a : BitVec 64) : (ofU64 a).len = 2 ∧ (ofU64 a).val = a.toNat := by
  refine ⟨rfl, ?_⟩
  have hhi : ((a >>> 32).setWidth 32).toNat = a.toNat / 2 ^ 32 := by
    rw [BitVec.toNat_setWidth, BitVec.toNat_ushiftRight, Nat.shiftRight_eq_div_pow,
      Nat.mod_eq_of_lt (Nat.div_lt_of_lt_mul (by have := a.isLt; omega))]
  have hlo : (a.setWidth 32).toNat = a.toNat % 2 ^ 32 := by rw [BitVec.toNat_setWidth]
  rw [ofU64, split, val_cons, val_cons, hhi, hlo]
  show a.toNat / 2 ^ 32 * (2 ^ 32) ^ 1 + (a.toNat % 2 ^ 32 * (2 ^ 32) ^ 0 + 0) = a.toNat
  rw [pow_one, pow_zero, Nat.mul_one, Nat.add_zero, Nat.div_add_mod']

theorem sub_len (a b : BigUint) : ∃ r, a.sub b = some r ∧
    (match r with | .ok w => w.len | .error w => w.len) = max (max a.len b.len) 1 := by
  have h0 : SubInv a b (max a.len b.len) 0 (0, withCapacity (max a.len b.len)) :=
    ⟨by simp, by simp, fun t _ => limb_withCapacity _ t, by simp⟩
  obtain ⟨⟨k, w⟩, hrun, hlen, -⟩ :=
    foldlM_range_inv (SubInv a b (max a.len b.len)) h0 fun j s hj => subStep_spec a b _ hj s
  refine ⟨if k = 0 then .ok w else .error w, ?_, ?_⟩
  · simp only [sub, hrun, Option.bind_eq_bind, Option.bind_some, Option.pure_def]
  · split_ifs <;> exact hlen

section Step

variable {s o : BigUint} {n j : ℕ}

/-- **Step D4.**  The window `W` less `qhat` times the divisor, for a `qhat` at least the quotient
limb: when it does not go below zero, `qhat` is the quotient limb and the window
becomes `W mod V`; when it does, `qhat` is one above and the window becomes the difference plus
`B^(n+2)`, modulo `B^(n+1)`. -/
theorem mulSub_spec (ho : o.len = n) (hs : j + n < s.len) (hsB : s.val < (2 ^ 32) ^ (j + n + 1))
    (hWV : s.val / (2 ^ 32) ^ j < o.val * 2 ^ 32) {qhat : BitVec 64}
    (hlow : s.val / (2 ^ 32) ^ j / o.val ≤ qhat.toNat) :
    ∃ negative s', mulSub s o n j qhat = some (negative, s') ∧ s'.len = s.len ∧
      (negative = false → qhat.toNat = s.val / (2 ^ 32) ^ j / o.val ∧
        s'.val = s.val % (2 ^ 32) ^ j + s.val / (2 ^ 32) ^ j % o.val * (2 ^ 32) ^ j) ∧
      (negative = true → s.val / (2 ^ 32) ^ j < qhat.toNat * o.val ∧
        s'.val = s.val % (2 ^ 32) ^ j + ((2 ^ 32) ^ (n + 1) * 2 ^ 32 + s.val / (2 ^ 32) ^ j -
          qhat.toNat * o.val) % (2 ^ 32) ^ (n + 1) * (2 ^ 32) ^ j) := by
  set W := s.val / (2 ^ 32) ^ j
  have hVpos : 0 < o.val :=
    Nat.pos_of_ne_zero fun h => by rw [h, Nat.zero_mul] at hWV; exact Nat.not_lt_zero _ hWV
  have hVn : o.val < (2 ^ 32) ^ n := ho ▸ val_lt o
  have hWM : W < (2 ^ 32) ^ (n + 1) :=
    lt_of_lt_of_le hWV (by rw [pow_succ]; exact Nat.mul_le_mul_right _ hVn.le)
  -- the window and `qhat` times the divisor
  obtain ⟨lhs, hlhs, hlhslen, hlhsval⟩ := window_spec hs
  rw [Nat.mod_eq_of_lt hWM] at hlhsval
  obtain ⟨rhs, hrhs, hrhsval, hrhslen⟩ := mul_spec o (ofU64 qhat)
  obtain ⟨hq2, hqval⟩ := ofU64_spec qhat
  rw [hqval, Nat.mul_comm] at hrhsval
  rw [ho, hq2] at hrhslen
  obtain ⟨r, hsub, hr⟩ := sub_spec lhs rhs
  obtain ⟨r', hsub', hrlen⟩ := sub_len lhs rhs
  obtain rfl : r = r' := Option.some_inj.mp (hsub.symm.trans hsub')
  rw [hlhslen, hrhslen] at hrlen
  cases r with
  | ok w =>
    obtain ⟨hle, hwval⟩ := hr
    rw [hlhsval, hrhsval] at hle hwval
    obtain ⟨hq, hlt⟩ := sub_of_le hVpos hle hlow
    have hwlen : w.len = max (max (n + 1) (n + 2)) 1 := hrlen
    obtain ⟨s', hrun, hlen', hlimb'⟩ := writeBack_spec (x := w) hs (by omega)
    refine ⟨false, s', ?_, hlen', fun _ => ⟨hq, ?_⟩, fun h => absurd h (by decide)⟩
    · simp only [mulSub, Option.bind_eq_bind, Option.bind_eq_some_iff, Option.pure_def]
      exact ⟨lhs, hlhs, rhs, hrhs, .ok w, hsub, s', hrun, rfl⟩
    · rw [val_windowWritten hsB ⟨hlen', hlimb'⟩, hwval,
        Nat.mod_eq_of_lt (lt_of_le_of_lt (Nat.sub_le _ _) hWM), hq, ← Nat.mod_eq_sub_div_mul]
  | error w =>
    obtain ⟨hlt, hwval⟩ := hr
    have hmax : max lhs.len rhs.len = n + 1 + 1 := by rw [hlhslen, hrhslen]; omega
    rw [hlhsval, hrhsval, hmax, pow_mul, pow_succ _ (n + 1)] at hwval
    rw [hlhsval, hrhsval] at hlt
    have hwlen : w.len = max (max (n + 1) (n + 2)) 1 := hrlen
    obtain ⟨s', hrun, hlen', hlimb'⟩ := writeBack_spec (x := w) hs (by omega)
    refine ⟨true, s', ?_, hlen', fun h => absurd h (by decide), fun _ => ⟨hlt, ?_⟩⟩
    · simp only [mulSub, Option.bind_eq_bind, Option.bind_eq_some_iff, Option.pure_def]
      exact ⟨lhs, hlhs, rhs, hrhs, .error w, hsub, s', hrun, rfl⟩
    · rw [val_windowWritten hsB ⟨hlen', hlimb'⟩, hwval]

/-- **Step D6 on the remainder.**  A window `x` below `B^(n+1)` over the limbs of `s` below `j`
becomes `x + V` modulo `B^(n+1)`. -/
theorem addBack_spec (ho : o.len = n) {s₁ : BigUint} {x : ℕ} (hlen : j + n < s₁.len)
    (hx : x < (2 ^ 32) ^ (n + 1)) (hs₁ : s₁.val = s.val % (2 ^ 32) ^ j + x * (2 ^ 32) ^ j) :
    ∃ s₂, addBack s₁ o n j = some s₂ ∧ s₂.len = s₁.len ∧
      s₂.val = s.val % (2 ^ 32) ^ j + (x + o.val) % (2 ^ 32) ^ (n + 1) * (2 ^ 32) ^ j := by
  have hBj : 0 < (2 ^ 32) ^ j := Nat.pow_pos (by norm_num)
  have hlow : s.val % (2 ^ 32) ^ j < (2 ^ 32) ^ j := Nat.mod_lt _ hBj
  have hs₁B : s₁.val < (2 ^ 32) ^ (j + n + 1) :=
    calc s₁.val < (x + 1) * (2 ^ 32) ^ j := by rw [hs₁, Nat.succ_mul]; omega
      _ ≤ (2 ^ 32) ^ (n + 1) * (2 ^ 32) ^ j := Nat.mul_le_mul_right _ hx
      _ = (2 ^ 32) ^ (j + n + 1) := by rw [← pow_add]; ring_nf
  -- the window read back is `x`
  have hwin : s₁.val / (2 ^ 32) ^ j = x := by
    rw [hs₁, Nat.add_mul_div_right _ _ hBj, Nat.div_eq_of_lt hlow, Nat.zero_add]
  obtain ⟨u, hu, hulen, huval⟩ := window_spec hlen
  rw [hwin, Nat.mod_eq_of_lt hx] at huval
  obtain ⟨r, hr, hrval, hrlen⟩ := add_spec o u
  obtain ⟨s₂, hrun, hlen₂, hlimb₂⟩ := writeBack_reverse_spec (x := r) hlen
    (by rw [hrlen, ho, hulen]; omega)
  refine ⟨s₂, ?_, hlen₂, ?_⟩
  · simp only [addBack, Option.bind_eq_bind, Option.bind_eq_some_iff]
    exact ⟨u, hu, r, hr, hrun⟩
  · rw [val_windowWritten hs₁B ⟨hlen₂, hlimb₂⟩, hrval, huval, hs₁, Nat.add_mul_mod_self_right,
      Nat.mod_mod_of_dvd _ (dvd_refl _), Nat.add_comm o.val x]

theorem divStep_of_nonneg {q s₁ q₁ : BigUint} {qhat : BitVec 64}
    (hest : estimate s o n j = some qhat) (hms : mulSub s o n j qhat = some (false, s₁))
    (hset : q.set j (qhat.setWidth 32) = some q₁) : divStep o n (q, s) j = some (q₁, s₁) := by
  simp only [divStep, hest, hms, hset, Option.bind_eq_bind, Option.bind_some, Bool.false_eq_true,
    if_false, Option.pure_def]

theorem divStep_of_negative {q s₁ s₂ q₁ q₂ : BigUint} {qhat : BitVec 64} {e e' : BitVec 32}
    (hest : estimate s o n j = some qhat) (hms : mulSub s o n j qhat = some (true, s₁))
    (hset : q.set j (qhat.setWidth 32) = some q₁) (hget : q₁.get j = some e)
    (hsub : checkedSub e 1 = some e') (hset₂ : q₁.set j e' = some q₂)
    (hab : addBack s₁ o n j = some s₂) : divStep o n (q, s) j = some (q₂, s₂) := by
  simp only [divStep, hest, hms, hset, hget, hsub, hset₂, hab, Option.bind_eq_bind, Option.bind_some,
    if_true, Option.pure_def]

/-- What one turn of step D2 does, whichever way it goes: limb `j` of the quotient becomes the
quotient limb `W / V` and the window becomes `W mod V`. -/
theorem divStep_limb (hn : 2 ≤ n) (ho : o.len = n) (hnorm : 2 ^ 31 ≤ o.limb (n - 1)) {q : BigUint}
    (hq : j < q.len) (hs : j + n < s.len) (hsV : s.val < o.val * (2 ^ 32) ^ (j + 1)) :
    ∃ q' s', divStep o n (q, s) j = some (q', s') ∧ q'.len = q.len ∧ s'.len = s.len ∧
      (∀ t, t ≠ j → q'.limb t = q.limb t) ∧
      q'.val + q.limb j * (2 ^ 32) ^ j = q.val + s.val / (2 ^ 32) ^ j / o.val * (2 ^ 32) ^ j ∧
      s'.val = s.val % (2 ^ 32) ^ j + s.val / (2 ^ 32) ^ j % o.val * (2 ^ 32) ^ j := by
  obtain ⟨hsB, hWV⟩ := window_bounds ho hsV
  obtain ⟨qhat, hest, hqb, hlow, hhigh⟩ := estimate_spec hn ho hnorm hs hsV
  obtain ⟨negative, s₁, hms, hlen₁, hnonneg, hneg⟩ := mulSub_spec ho hs hsB hWV hlow
  -- D5: limb `j` of the quotient is `qhat`, below `B`
  have hq32 : (qhat.setWidth 32).toNat = qhat.toNat := by
    rw [BitVec.toNat_setWidth, Nat.mod_eq_of_lt hqb]
  obtain ⟨q₁, hset₁, hlen₁', hother₁, hval₁⟩ := set_spec hq (qhat.setWidth 32)
  rw [hq32] at hval₁
  cases negative with
  | false =>
    obtain ⟨hqW, hs₁⟩ := hnonneg rfl
    refine ⟨q₁, s₁, divStep_of_nonneg hest hms hset₁, hlen₁', hlen₁, hother₁, ?_, hs₁⟩
    rw [hval₁, hqW]
  | true =>
    -- D6: one too many; the quotient limb is `qhat - 1` and the window is added back
    obtain ⟨hlt, hs₁⟩ := hneg rfl
    have hVM : o.val ≤ (2 ^ 32) ^ (n + 1) :=
      (ho ▸ val_lt o).le.trans (Nat.pow_le_pow_right (by norm_num) (Nat.le_succ n))
    obtain ⟨hqW, hadd⟩ := sub_add_back (b := 2 ^ 32) (by norm_num) hlt hhigh hVM
    have hq1 : 1 ≤ qhat.toNat :=
      Nat.pos_of_ne_zero fun h0 => by rw [h0, Nat.zero_mul] at hlt; exact Nat.not_lt_zero _ hlt
    obtain ⟨q₁', hset₁', -, hlimb₁⟩ := set_of_lt hq (qhat.setWidth 32)
    obtain rfl : q₁ = q₁' := Option.some_inj.mp (hset₁.symm.trans hset₁')
    obtain ⟨e, hget, he⟩ := get_of_lt (x := q₁) (i := j) (by omega)
    rw [hlimb₁, if_pos rfl, hq32] at he
    have hone : (1 : BitVec 32).toNat = 1 := rfl
    obtain ⟨hsub, hsub'⟩ := checkedSub_of_le (a := e) (b := 1) (by rw [hone]; omega)
    obtain ⟨q₂, hset₂, hlen₂, hother₂, hval₂⟩ :=
      set_spec (x := q₁) (i := j) (by omega) (e - 1)
    obtain ⟨s₂, hab, hlen₂', hs₂⟩ := addBack_spec ho (show j + n < s₁.len by omega)
      (Nat.mod_lt _ (Nat.pow_pos (by norm_num))) hs₁
    refine ⟨q₂, s₂, divStep_of_negative hest hms hset₁ hget hsub hset₂ hab,
      by rw [hlen₂, hlen₁'], by rw [hlen₂', hlen₁],
      fun t ht => by rw [hother₂ t ht, hother₁ t ht],
      ?_, ?_⟩
    · rw [hlimb₁, if_pos rfl, hq32, hsub', hone, he, hqW] at hval₂
      have hback : s.val / (2 ^ 32) ^ j / o.val * (2 ^ 32) ^ j + (2 ^ 32) ^ j =
          qhat.toNat * (2 ^ 32) ^ j := by
        rw [← hqW, ← Nat.succ_mul, Nat.succ_eq_add_one, Nat.sub_add_cancel hq1]
      linarith
    · rw [hs₂, hadd, hqW, ← Nat.mod_eq_sub_div_mul]

theorem val_pos_of_limb {x : BigUint} {i : ℕ} (h : 0 < x.limb i) : 0 < x.val :=
  Nat.pos_of_ne_zero fun h0 => by rw [limb_eq_digit, h0, Nat.zero_div, Nat.zero_mod] at h; omega

/-! ## 6. Step D2: the loop over the quotient limbs -/

/-- The invariant of the loop of step D2 once the quotient limbs from `d` up are computed: the
normalized dividend `U` is `q V + s`, with `s < V B^d` and the quotient's limbs below `d` still
zero. -/
def KnuthInv (U V n m d : ℕ) (state : BigUint × BigUint) : Prop :=
  state.1.len = m + 1 ∧ state.2.len = n + m + 1 ∧ (∀ t, t < d → state.1.limb t = 0) ∧
    state.2.val < V * (2 ^ 32) ^ d ∧ U = state.1.val * V + state.2.val

/-- A turn of step D2 keeps the invariant: the quotient limb `W / V` goes in at weight `B^j`, and
`W / V` times `V B^j` comes off the remainder. -/
theorem divStep_spec (hn : 2 ≤ n) (ho : o.len = n) (hnorm : 2 ^ 31 ≤ o.limb (n - 1)) {U m : ℕ}
    (hj : j < m + 1) (st : BigUint × BigUint) (h : KnuthInv U o.val n m (j + 1) st) :
    ∃ st', divStep o n st j = some st' ∧ KnuthInv U o.val n m j st' := by
  obtain ⟨q, s⟩ := st
  obtain ⟨hqlen, hslen, hzero, hsV, hU⟩ := h
  dsimp only at hqlen hslen hzero hsV hU
  obtain ⟨q', s', hstep, hqlen', hslen', hother, hqval, hsval⟩ :=
    divStep_limb (q := q) (s := s) hn ho hnorm (by omega) (by omega) hsV
  obtain ⟨hsplit, hlt⟩ := mod_add_div_step (b := 2 ^ 32) s.val j (by norm_num)
    (val_pos_of_limb (x := o) (i := n - 1) (by omega))
  refine ⟨(q', s'), hstep, hqlen'.trans hqlen, hslen'.trans hslen, fun t ht => ?_, ?_, ?_⟩
  · rw [hother t (by omega)]
    exact hzero t (by omega)
  · rw [hsval]
    exact hlt
  · -- `q' = q + (W / V) B^j`, and `s = s' + (W / V) V B^j`
    rw [hzero j (by omega), Nat.zero_mul, Nat.add_zero] at hqval
    calc U = q.val * o.val + s.val := hU
      _ = q.val * o.val + (s.val % (2 ^ 32) ^ j + s.val / (2 ^ 32) ^ j % o.val * (2 ^ 32) ^ j +
          s.val / (2 ^ 32) ^ j / o.val * o.val * (2 ^ 32) ^ j) := by rw [hsplit]
      _ = q'.val * o.val + s'.val := by rw [hqval, hsval]; ring

/-- **Step D2.**  The loop over the quotient limbs from `m` down to `0` keeps the invariant, and
ends with the remainder below `V`. -/
theorem divLoop_spec (hn : 2 ≤ n) (ho : o.len = n) (hnorm : 2 ^ 31 ≤ o.limb (n - 1)) {U m : ℕ}
    (st : BigUint × BigUint) (h : KnuthInv U o.val n m (m + 1) st) :
    ∃ st', (List.range (m + 1)).reverse.foldlM (divStep o n) st = some st' ∧
      KnuthInv U o.val n m 0 st' :=
  foldlM_range_reverse_inv (KnuthInv U o.val n m) h fun _ st hj h =>
    divStep_spec hn ho hnorm hj st h

end Step

/-! ## 7. Step D1: normalization -/

theorem val_ofU32 (a : BitVec 32) : (ofU32 a).val = a.toNat := by
  rw [ofU32, val_cons, List.length_nil, pow_zero, Nat.mul_one]
  rfl

/-- `lstrip` of a non-zero value starts at its first non-zero limb. -/
theorem lstrip_eq_cons {x : BigUint} (h : x.val ≠ 0) :
    ∃ d r, x.lstrip = ⟨d :: r⟩ ∧ d ≠ 0 ∧ x.val = (⟨d :: r⟩ : BigUint).val := by
  obtain ⟨l⟩ := x
  cases hi : l.findIdx? (· != 0) with
  | none => exact absurd (val_eq_zero_of_findIdx?_none hi) h
  | some i =>
    obtain ⟨d, r, hdrop, hd, hval⟩ := val_drop_of_findIdx? hi
    refine ⟨d, r, ?_, hd, hval⟩
    -- `lstrip` drops the leading zeros, up to the first non-zero limb `d`
    have hl : l ≠ [] := fun h => by rw [h] at hi; cases hi
    unfold lstrip
    rw [if_neg (by simpa [len] using hl)]
    dsimp only
    rw [hi, Option.getD_some]
    split_ifs with hpos
    · rw [hdrop]
    · rw [show i = 0 by omega, List.drop_zero] at hdrop
      rw [hdrop]

theorem msb_lstrip {x : BigUint} (h : x.val ≠ 0) : ∃ d, x.lstrip.msb = some d ∧ d ≠ 0 := by
  obtain ⟨d, r, hstrip, hd, -⟩ := lstrip_eq_cons h
  exact ⟨d, by rw [hstrip]; rfl, hd⟩

/-- `lstrip` of a zero value leaves at most one limb. -/
theorem len_lstrip_of_val_eq_zero {x : BigUint} (h : x.val = 0) : x.lstrip.len ≤ 1 := by
  obtain ⟨l⟩ := x
  have hnone : l.findIdx? (· != 0) = none := by
    rw [List.findIdx?_eq_none_iff]
    intro d hd
    simpa using List.all_eq_true.mp ((isZero_iff ⟨l⟩).mpr h) d hd
  unfold lstrip
  dsimp only
  rw [hnone, Option.getD_none]
  split_ifs with h0 hpos
  · rw [len_mk] at h0 ⊢
    omega
  · rw [len_mk, List.length_drop, len_mk]
    omega
  · rw [len_mk] at hpos ⊢
    omega

theorem pow_le_val_of_msb {x : BigUint} {d : BitVec 32} (h : x.msb = some d) (hd : d ≠ 0) :
    (2 ^ 32) ^ (x.len - 1) ≤ x.val := by
  obtain ⟨l⟩ := x
  cases l with
  | nil => cases h
  | cons e rest =>
    cases h
    exact pow_le_val_cons hd rest

theorem len_lstrip {x : BigUint} {k : ℕ} (h₁ : (2 ^ 32) ^ k ≤ x.val)
    (h₂ : x.val < (2 ^ 32) ^ (k + 1)) : x.lstrip.len = k + 1 := by
  obtain ⟨d, r, hstrip, hd, hval⟩ :=
    lstrip_eq_cons (Nat.pos_iff_ne_zero.mp (lt_of_lt_of_le (Nat.pow_pos (by norm_num)) h₁))
  have hlow := pow_le_val_cons hd r
  have hhigh := val_lt ⟨d :: r⟩
  rw [← hval] at hlow hhigh
  rw [len_mk, List.length_cons] at hhigh
  have hrk : r.length < k + 1 :=
    (Nat.pow_lt_pow_iff_right (by norm_num)).mp (lt_of_le_of_lt hlow h₂)
  have hkr : k < r.length + 1 :=
    (Nat.pow_lt_pow_iff_right (by norm_num)).mp (lt_of_le_of_lt h₁ hhigh)
  rw [hstrip, len_mk, List.length_cons]
  omega

theorem len_lstrip_le {x : BigUint} {k : ℕ} (hk : 1 ≤ k) (h : x.val < (2 ^ 32) ^ k) :
    x.lstrip.len ≤ k := by
  by_cases h0 : x.val = 0
  · exact (len_lstrip_of_val_eq_zero h0).trans hk
  · obtain ⟨d, r, hstrip, hd, hval⟩ := lstrip_eq_cons h0
    have hlow := pow_le_val_cons hd r
    rw [← hval] at hlow
    have hrk : r.length < k := (Nat.pow_lt_pow_iff_right (by norm_num)).mp (lt_of_le_of_lt hlow h)
    rw [hstrip, len_mk, List.length_cons]
    omega

/-- `2^clz(msb)` of a non-zero top limb: it fits in a limb, and puts the top bit of the limb at
`2^31`. -/
theorem normalizer_spec {msb : BitVec 32} (h0 : msb ≠ 0) :
    ∃ N, checkedPow (2 : BitVec 32) (BitVec.clz msb).toNat = some N ∧
      N.toNat = 2 ^ (BitVec.clz msb).toNat ∧ 2 ^ 31 ≤ msb.toNat * N.toNat ∧
      (msb.toNat + 1) * N.toNat ≤ 2 ^ 32 := by
  have hclz : (BitVec.clz msb).toNat < 32 := by
    have := BitVec.clz_lt_iff_ne_zero.mpr h0
    rwa [BitVec.lt_def] at this
  set nb := (BitVec.clz msb).toNat
  have hlow : 2 ^ (31 - nb) ≤ msb.toNat := BitVec.two_pow_sub_clz_le_toNat_of_ne_zero (by norm_num) h0
  have hhigh : msb.toNat < 2 ^ (32 - nb) := BitVec.toNat_lt_two_pow_sub_clz
  have hpow : 2 ^ nb < 2 ^ 32 := Nat.pow_lt_pow_right (by norm_num) hclz
  have hN : (BitVec.ofNat 32 (2 ^ nb)).toNat = 2 ^ nb := toNat_ofNat_of_lt hpow
  refine ⟨BitVec.ofNat 32 (2 ^ nb), by
    rw [checkedPow, if_pos (by rwa [show (2 : BitVec 32).toNat = 2 from rfl])]; rfl, hN, ?_, ?_⟩
  · rw [hN]
    calc 2 ^ 31 = 2 ^ (31 - nb) * 2 ^ nb := by rw [← pow_add, Nat.sub_add_cancel (by omega)]
      _ ≤ msb.toNat * 2 ^ nb := Nat.mul_le_mul_right _ hlow
  · rw [hN]
    calc (msb.toNat + 1) * 2 ^ nb ≤ 2 ^ (32 - nb) * 2 ^ nb := Nat.mul_le_mul_right _ hhigh
      _ = 2 ^ 32 := by rw [← pow_add, Nat.sub_add_cancel hclz.le]

/-- **Step D1 on the divisor.**  An `n ≥ 2` limb divisor with a non-zero top limb, times the
normalizer and stripped, keeps `n` limbs and has its top limb at least `2^31`. -/
theorem otherNorm_spec {other : BigUint} {msb : BitVec 32} (hmsb : other.msb = some msb)
    (hn : 2 ≤ other.len) {N : BitVec 32} (hlow : 2 ^ 31 ≤ msb.toNat * N.toNat)
    (hhigh : (msb.toNat + 1) * N.toNat ≤ 2 ^ 32) :
    ∃ w, other.mul (ofU32 N) = some w ∧ w.lstrip.len = other.len ∧
      w.lstrip.val = other.val * N.toNat ∧ 2 ^ 31 ≤ w.lstrip.limb (other.len - 1) := by
  obtain ⟨w, hw, hval, -⟩ := mul_spec other (ofU32 N)
  rw [val_ofU32] at hval
  obtain ⟨l⟩ := other
  obtain ⟨rest, rfl⟩ : ∃ rest, l = msb :: rest := by
    cases l with
    | nil => cases hmsb
    | cons d rest => cases hmsb; exact ⟨rest, rfl⟩
  rw [val_cons] at hval
  rw [len_mk, List.length_cons] at hn ⊢
  have hrest := val_lt ⟨rest⟩
  rw [len_mk] at hrest
  -- `2^31 B^(n-1) ≤ V N < B^n`
  have hV₁ : 2 ^ 31 * (2 ^ 32) ^ rest.length ≤ w.val := by
    rw [hval]
    nlinarith
  have hNpos : 0 < N.toNat := Nat.pos_of_ne_zero fun h => by rw [h, Nat.mul_zero] at hlow; omega
  have hV₂ : w.val < (2 ^ 32) ^ (rest.length + 1) := by
    rw [hval, pow_succ (2 ^ 32) rest.length]
    calc (msb.toNat * (2 ^ 32) ^ rest.length + (⟨rest⟩ : BigUint).val) * N.toNat
        < (msb.toNat * (2 ^ 32) ^ rest.length + (2 ^ 32) ^ rest.length) * N.toNat :=
          Nat.mul_lt_mul_of_pos_right (by omega) hNpos
      _ = (msb.toNat + 1) * N.toNat * (2 ^ 32) ^ rest.length := by ring
      _ ≤ 2 ^ 32 * (2 ^ 32) ^ rest.length := Nat.mul_le_mul_right _ hhigh
      _ = (2 ^ 32) ^ rest.length * 2 ^ 32 := Nat.mul_comm _ _
  have hlen : w.lstrip.len = rest.length + 1 :=
    len_lstrip (le_trans (Nat.le_mul_of_pos_left _ (by norm_num)) hV₁) hV₂
  refine ⟨w, hw, hlen, by rw [val_lstrip, hval, val_cons], ?_⟩
  rw [show rest.length + 1 - 1 = rest.length by omega, limb_eq_digit, val_lstrip,
    Nat.mod_eq_of_lt (Nat.div_lt_of_lt_mul (by rw [Nat.mul_comm, ← pow_succ']; exact hV₂))]
  exact (Nat.le_div_iff_mul_le (Nat.pow_pos (by norm_num))).mpr hV₁


/-! ## 8. The remainder: the normalization undone -/

section Unnormalize

variable {s : BigUint} {nb : BitVec 32}

/-- A turn of the loop that undoes the normalization writes digit `d` of `s / 2^nb`. -/
theorem unnormalizeStep_spec (hnb : 0 < nb.toNat) (hnb' : nb.toNat < 32) {r : BigUint} {d : ℕ}
    (hd : d + 1 < s.len) (hr : d < r.len) :
    ∃ r', unnormalizeStep s nb r d = some r' ∧ r'.len = r.len ∧
      ∀ t, r'.limb t = if t = d then s.val / 2 ^ nb.toNat / (2 ^ 32) ^ d % 2 ^ 32 else r.limb t := by
  obtain ⟨x, hx, hx'⟩ := get_of_lt (x := s) (i := d) (by omega)
  obtain ⟨y, hy, hy'⟩ := get_of_lt hd
  have h32 : (32 : BitVec 32).toNat = 32 := rfl
  obtain ⟨hsub, hsub'⟩ := checkedSub_of_le (a := (32 : BitVec 32)) (b := nb) (by rw [h32]; omega)
  have hshr : checkedShr x nb.toNat = some (x >>> nb.toNat) := if_pos hnb'
  have hshift : ((32 : BitVec 32) - nb).toNat % 32 = 32 - nb.toNat := by
    rw [hsub', h32, Nat.mod_eq_of_lt (by omega)]
  -- `x >> nb | y << (32 - nb)` is digit `d` of `s / 2^nb`
  have hv : ((x >>> nb.toNat) ||| (overflowingShl y ((32 : BitVec 32) - nb).toNat).1).toNat =
      s.val / 2 ^ nb.toNat / (2 ^ 32) ^ d % 2 ^ 32 := by
    rw [overflowingShl, hshift, toNat_shr_or_shl x y (by omega), hx', hy', limb_eq_digit,
      limb_eq_digit, ← div_two_pow_digit (w := 32) (by omega) s.val d, Nat.mod_mod]
  obtain ⟨r', hset, hlen, hlimb⟩ := set_of_lt hr
    ((x >>> nb.toNat) ||| (overflowingShl y ((32 : BitVec 32) - nb).toNat).1)
  refine ⟨r', ?_, hlen, fun t => by rw [hlimb, hv]⟩
  simp only [unnormalizeStep, Option.bind_eq_bind, Option.bind_eq_some_iff]
  exact ⟨x, hx, _, hshr, y, hy, _, hsub, hset⟩

/-- The invariant of that loop before turn `i`: the limbs below `i` are those of `s / 2^nb`, the
others still zero. -/
def UnnormalizeInv (s : BigUint) (nb : BitVec 32) (n i : ℕ) (r : BigUint) : Prop :=
  r.len = n ∧ ∀ t, r.limb t = if t < i then s.val / 2 ^ nb.toNat / (2 ^ 32) ^ t % 2 ^ 32 else 0

/-- **The remainder.**  The last remainder `s < B^n`, shifted back down by the normalizer's
`nb < 32` bits into `n` zero limbs, is `s / 2^nb`. -/
theorem unnormalize_spec {r : BigUint} {n : ℕ} (hn : 2 ≤ n) (hs : n ≤ s.len) (hr : r.len = n)
    (hzero : ∀ t, r.limb t = 0) (hsB : s.val < (2 ^ 32) ^ n) (hnb : nb.toNat < 32) :
    ∃ r', unnormalize s r n nb = some r' ∧ r'.val = s.val / 2 ^ nb.toNat := by
  by_cases hpos : nb > 0
  · have hnb₀ : 0 < nb.toNat := by
      rw [gt_iff_lt, BitVec.lt_def] at hpos
      exact hpos
    -- limbs `0 .. n - 2`, each from two limbs of `s`
    obtain ⟨r₁, hrun, hlen₁, hlimb₁⟩ :=
      foldlM_range_inv (f := unnormalizeStep s nb) (n := n - 1)
      (UnnormalizeInv s nb n)
      ⟨hr, fun t => by rw [hzero, if_neg (by omega)]⟩ fun d r' hd ⟨hlen', hlimb'⟩ => by
        obtain ⟨r'', hstep, hlen'', hlimb''⟩ :=
          unnormalizeStep_spec (s := s) hnb₀ hnb (r := r') (d := d) (by omega) (by omega)
        refine ⟨r'', hstep, hlen''.trans hlen', fun t => ?_⟩
        rw [hlimb'', hlimb']
        by_cases ht : t = d
        · rw [if_pos ht, if_pos (by omega), ht]
        · rw [if_neg ht]
          by_cases htd : t < d
          · rw [if_pos htd, if_pos (by omega)]
          · rw [if_neg htd, if_neg (by omega)]
    -- the top limb `n - 1`: the limb above it is zero
    obtain ⟨x, hx, hx'⟩ := get_of_lt (x := s) (i := n - 1) (by omega)
    have hshr : checkedShr x nb.toNat = some (x >>> nb.toNat) := if_pos hnb
    obtain ⟨r₂, hset, hlen₂, hlimb₂⟩ :=
      set_of_lt (x := r₁) (i := n - 1) (by omega) (x >>> nb.toNat)
    have htop : (x >>> nb.toNat).toNat = s.val / 2 ^ nb.toNat / (2 ^ 32) ^ (n - 1) % 2 ^ 32 := by
      rw [BitVec.toNat_ushiftRight, Nat.shiftRight_eq_div_pow, hx', limb_eq_digit,
        div_two_pow_digit (w := 32) (by omega) s.val (n - 1), show n - 1 + 1 = n by omega,
        Nat.div_eq_of_lt hsB, Nat.zero_mod, Nat.zero_mul, Nat.zero_mod, Nat.add_zero]
    refine ⟨r₂, ?_, ?_⟩
    · simp only [unnormalize, if_pos hpos, Option.bind_eq_bind, Option.bind_eq_some_iff]
      exact ⟨r₁, hrun, x, hx, _, hshr, hset⟩
    · -- every limb below `n` is the digit of `s / 2^nb`, and `s / 2^nb < B^n`
      have hdigit : ∀ t, t < n → r₂.limb t = s.val / 2 ^ nb.toNat / (2 ^ 32) ^ t % 2 ^ 32 := by
        intro t ht
        rw [hlimb₂]
        split_ifs with htn
        · rw [htn, htop]
        · rw [hlimb₁, if_pos (by omega)]
      rw [val_eq_sum_of_le (le_of_eq (hlen₂.trans hlen₁)),
        Finset.sum_congr rfl fun t ht => by rw [hdigit t (Finset.mem_range.mp ht)],
        sum_digits_eq_mod, Nat.mod_eq_of_lt (lt_of_le_of_lt (Nat.div_le_self _ _) hsB)]
  · -- no normalization: the remainder is `self_norm` itself
    have hnb₀ : nb.toNat = 0 := by
      rw [gt_iff_lt, BitVec.lt_def, Nat.not_lt] at hpos
      exact Nat.le_zero.mp hpos
    refine ⟨s, by simp only [unnormalize, if_neg hpos]; rfl, by rw [hnb₀, pow_zero, Nat.div_one]⟩

end Unnormalize

/-! ## 9. `div` -/

theorem val_lt_mul_pow {self other : BigUint} {msb : BitVec 32} (hmsb : other.msb = some msb)
    (h0 : msb ≠ 0) (hlen : other.len ≤ self.len) :
    self.val < other.val * (2 ^ 32) ^ (self.len - other.len + 1) := by
  obtain ⟨l⟩ := other
  obtain ⟨rest, rfl⟩ : ∃ rest, l = msb :: rest := by
    cases l with
    | nil => cases hmsb
    | cons d rest => cases hmsb; exact ⟨rest, rfl⟩
  have hol : (⟨msb :: rest⟩ : BigUint).len = rest.length + 1 := rfl
  rw [hol] at hlen ⊢
  calc self.val < (2 ^ 32) ^ self.len := val_lt self
    _ = (2 ^ 32) ^ rest.length * (2 ^ 32) ^ (self.len - (rest.length + 1) + 1) := by
      rw [← pow_add]; congr 1; omega
    _ ≤ _ := Nat.mul_le_mul_right _ (pow_le_val_cons h0 rest)

/-- Steps D1 and D2 of `div` under its preconditions: the loop ends with the quotient `q` of the
values and a last remainder `s` of at least `n` limbs, below `B^n`, that is the remainder times the
normalizer `2^clz(msb)`; `div` returns `q` with `s` shifted back down, or with zero limbs. -/
theorem div_run (self other : BigUint) (rem : Bool) (hn : 2 ≤ other.len)
    (hlen : other.len < self.len) {msb : BitVec 32} (hmsb : other.msb = some msb) (h0 : msb ≠ 0)
    (hself : ∃ d, self.msb = some d ∧ d ≠ 0) :
    ∃ q s : BigUint, self.div other rem = (if rem = true then
        (s.unnormalize (withCapacity other.len) other.len msb.clz).bind fun r => some (some (q, r))
        else some (some (q, withCapacity other.len))) ∧
      q.len = self.len - other.len + 1 ∧ q.val = self.val / other.val ∧
      s.val = self.val % other.val * 2 ^ (BitVec.clz msb).toNat ∧ other.len ≤ s.len ∧
      s.val < (2 ^ 32) ^ other.len := by
  obtain ⟨smsb, hsmsb, hs0⟩ := hself
  -- D1
  obtain ⟨N, hpow, hN, hNlow, hNhigh⟩ := normalizer_spec h0
  have hNpos : 0 < N.toNat := Nat.pos_of_ne_zero fun h => by rw [h, Nat.mul_zero] at hNlow; omega
  obtain ⟨w, hw, hwlen, hwval, hv₁⟩ := otherNorm_spec hmsb hn hNlow hNhigh
  obtain ⟨u, hu, huval, hulen⟩ := mul_spec self (ofU32 N)
  rw [val_ofU32] at huval
  rw [show (ofU32 N).len = 1 from rfl] at hulen
  have hlpad : u.lpad (other.len + (self.len - other.len) + 1) = u := by
    rw [lpad, if_pos (by rw [hulen]; omega)]
  -- D2
  have hinit : KnuthInv (self.val * N.toNat) w.lstrip.val other.len (self.len - other.len)
      (self.len - other.len + 1) (withCapacity (self.len - other.len + 1), u) := by
    refine ⟨by rw [len_withCapacity]; omega, by dsimp only; rw [hulen]; omega,
      fun t _ => limb_withCapacity _ t, ?_,
      by rw [val_withCapacity, Nat.zero_mul, Nat.zero_add, huval]⟩
    dsimp only
    rw [huval, hwval, Nat.mul_right_comm]
    exact Nat.mul_lt_mul_of_pos_right (val_lt_mul_pow hmsb h0 hlen.le) hNpos
  obtain ⟨⟨q, s⟩, hloop, hqlen, hslen, -, hsV, hU⟩ := divLoop_spec hn hwlen hv₁ _ hinit
  dsimp only at hqlen hslen hsV hU
  rw [pow_zero, Nat.mul_one] at hsV
  have hsB : s.val < (2 ^ 32) ^ other.len :=
    lt_of_lt_of_le hsV (by rw [← hwlen]; exact (val_lt _).le)
  rw [hwval] at hsV hU
  -- `q V + s = U N` with `s < V N`: the quotient, and the remainder times `N`
  have hVN : 0 < other.val * N.toNat := lt_of_le_of_lt (Nat.zero_le _) hsV
  have hq : q.val = self.val / other.val := by
    rw [← Nat.mul_div_mul_right self.val other.val hNpos, hU, Nat.add_comm,
      Nat.add_mul_div_right _ _ hVN, Nat.div_eq_of_lt hsV, Nat.zero_add]
  have hs : s.val = self.val % other.val * N.toNat := by
    rw [← Nat.mul_mod_mul_right, hU, Nat.add_comm, Nat.add_mul_mod_self_right, Nat.mod_eq_of_lt hsV]
  refine ⟨q, s, ?_, hqlen, hq, by rw [hs, hN], by omega, hsB⟩
  simp only [div, Option.bind_eq_bind, if_neg (show ¬other.len ≤ 1 by omega), hmsb,
    Option.bind_some, if_neg h0, hsmsb, if_neg hs0, if_neg (show ¬self.len ≤ other.len by omega),
    hpow, hu, hw, hlpad, hloop, Option.pure_def]

theorem div_of_msb_eq_zero (self : BigUint) {other : BigUint} (rem : Bool) (h1 : ¬other.len ≤ 1)
    (h : other.msb = some 0) : self.div other rem = some none := by
  simp only [div, if_neg h1, h, Option.bind_eq_bind, Option.bind_some, if_true, Option.pure_def]

/-- `div` under its preconditions, the top limb of `other` given: the quotient, and the remainder
when asked for. -/
theorem div_eq_some (self other : BigUint) (rem : Bool) (hn : 2 ≤ other.len)
    (hlen : other.len < self.len) {msb : BitVec 32} (hmsb : other.msb = some msb) (h0 : msb ≠ 0)
    (hself : ∃ d, self.msb = some d ∧ d ≠ 0) :
    ∃ q r, self.div other rem = some (some (q, r)) ∧ q.len = self.len - other.len + 1 ∧
      q.val = self.val / other.val ∧ r.val = if rem then self.val % other.val else 0 := by
  obtain ⟨q, s, hrun, hqlen, hq, hs, hslen, hsB⟩ := div_run self other rem hn hlen hmsb h0 hself
  cases rem with
  | false =>
    refine ⟨q, withCapacity other.len, by rw [hrun]; rfl, hqlen, hq, ?_⟩
    rw [val_withCapacity]
    rfl
  | true =>
    -- the remainder, shifted back down by the normalizer's bits
    have hclz : (BitVec.clz msb).toNat < 32 := by
      have := BitVec.clz_lt_iff_ne_zero.mpr h0
      rwa [BitVec.lt_def] at this
    obtain ⟨r, hr, hrval⟩ := unnormalize_spec (s := s)
      (r := withCapacity other.len) (n := other.len) hn hslen
      (by rw [len_withCapacity]; omega) (limb_withCapacity _) hsB hclz
    refine ⟨q, r, by rw [hrun, if_pos rfl, hr]; rfl, hqlen, hq, ?_⟩
    rw [if_pos rfl, hrval, hs, Nat.mul_div_cancel _ (Nat.pow_pos (by norm_num))]

/-- **`BigUint::div`.**  For an `other` of at least two limbs and a longer `self`, neither with a
zero top limb, `div` never panics: it gives the quotient of the values, in
`len(self) - len(other) + 1` limbs, and the remainder when asked for it (zero otherwise). -/
theorem div_quotient_remainder (self other : BigUint) (rem : Bool) (hn : 2 ≤ other.len)
    (hlen : other.len < self.len) (hother : ∃ d, other.msb = some d ∧ d ≠ 0)
    (hself : ∃ d, self.msb = some d ∧ d ≠ 0) :
    ∃ q r, self.div other rem = some (some (q, r)) ∧ q.len = self.len - other.len + 1 ∧
      q.val = self.val / other.val ∧ r.val = if rem then self.val % other.val else 0 := by
  obtain ⟨msb, hmsb, h0⟩ := hother
  exact div_eq_some self other rem hn hlen hmsb h0 hself

/-- `div_quotient_remainder` at `[1, 2, 3] / [1, 0]`, every check passing. -/
theorem div_quotient_remainder_three_by_two :
    2 ≤ (⟨[1, 0]⟩ : BigUint).len ∧ (⟨[1, 0]⟩ : BigUint).len < (⟨[1, 2, 3]⟩ : BigUint).len ∧
      (∃ d, (⟨[1, 0]⟩ : BigUint).msb = some d ∧ d ≠ 0) ∧
      (∃ d, (⟨[1, 2, 3]⟩ : BigUint).msb = some d ∧ d ≠ 0) ∧
      ∃ q r, (⟨[1, 2, 3]⟩ : BigUint).div ⟨[1, 0]⟩ true = some (some (q, r)) ∧
        q.len = (⟨[1, 2, 3]⟩ : BigUint).len - (⟨[1, 0]⟩ : BigUint).len + 1 ∧
        q.val = (⟨[1, 2, 3]⟩ : BigUint).val / (⟨[1, 0]⟩ : BigUint).val ∧
        r.val = if true then (⟨[1, 2, 3]⟩ : BigUint).val % (⟨[1, 0]⟩ : BigUint).val else 0 :=
  ⟨by decide, by decide, ⟨1, rfl, by decide⟩, ⟨1, rfl, by decide⟩,
    div_quotient_remainder ⟨[1, 2, 3]⟩ ⟨[1, 0]⟩ true (by decide) (by decide) ⟨1, rfl, by decide⟩
      ⟨1, rfl, by decide⟩⟩

end BigUint

end PolkadotSdk.Arithmetic
