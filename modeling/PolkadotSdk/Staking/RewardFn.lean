import PolkadotSdk.Arithmetic.BigUintDiv
import PolkadotSdk.Arithmetic.PerThings
import PolkadotSdk.Arithmetic.Rational128
import PolkadotSdk.Lib.SignMagnitude

/-!
# `reward-fn`: the inflation curve of nominated proof of stake

`staking/reward-fn/src/lib.rs`.  `compute_inflation` gives `x / x_ideal` below the ideal stake and
`2^((x_ideal - x) / d)` above it, the latter as the series of `e^(-y)` for
`y = (x - x_ideal) ln 2 / d`, summed in `BigUint` in parts of `ACCURACY`: each term is computed from
the one before (`compute_taylor_term`) and rounded down, the loop stops at the first zero term, and
the sum is kept as a sign and a magnitude.  The terms on the values are `taylorTerm`, their
alternating sum `taylorSum`.

* `divByStripped_spec`: `div_by_stripped(a, b)` on every divisor: `a / b` for a `b` with a non-zero
  top limb, on each of its four paths, and the edge cases of the others;
* `tryFrom_spec`: `TryFrom<BigUint>` for `u128` and `u64`, and its round trip with `From`;
* `computeTaylorSeriePart_spec`: the loop, with its `break` and its sign and magnitude, gives the
  alternating sum of the first 300 terms, cut at zero;
* `computeInflation_spec`: `compute_inflation` never panics, and its parts are given by a formula
  on the parts of its arguments alone; `computeInflation_at_ideal`: at the ideal stake it is one.
-/

namespace PolkadotSdk.Staking.RewardFn

open PolkadotSdk.Arithmetic PolkadotSdk.Arithmetic.BigUint PolkadotSdk.Arithmetic.PerThings
open PolkadotSdk.Arithmetic.Helpers128Bit PolkadotSdk.Lib PolkadotSdk.Lib.Unsigned PolkadotSdk.Lib.ForLoop

/-! ## 1. The model -/

/-- `Result::unwrap_or_else(f)`: the value of `Ok`, or `f` of the error. -/
def unwrapOrElse {ε α : Type} (r : Except ε α) (f : ε → α) : α :=
  match r with
  | .ok a => a
  | .error e => f e

@[simp] theorem unwrapOrElse_ok {ε α : Type} (a : α) (f : ε → α) :
    unwrapOrElse (.ok a) f = a := rfl

@[simp] theorem unwrapOrElse_error {ε α : Type} (e : ε) (f : ε → α) :
    unwrapOrElse (.error e) f = f e := rfl

/-- `div_by_stripped`: `a / b`, for a `b` stripped of its leading zeros.  A `b` of one limb divides
by that limb; one of as many limbs as `a` first scales `a` by `100_000^2` so that `div` gets a longer
dividend, and divides the quotient back down. -/
def divByStripped (a b : BigUint) : Option BigUint :=
  let a := a.lstrip
  -- `log::error!`: an invalid division
  if b.len = 0 then some zero
  else if b.len = 1 then a.divUnit ((b.checkedGet 0).getD 1)
  else if b.len > a.len then some zero
  else if b.len = a.len then do
    -- `100_000^2` is more than `2^32 - 1`, so `new_a` has more limbs than `b`
    let newA := (← a.mul (ofU64 (← checkedPow (100000 : BitVec 64) 2))).lstrip
    -- `debug_assert!`
    if newA.len ≤ b.len then none
    let q := ((← newA.div b false).map (·.1)).getD zero
    (← q.divUnit 100000).divUnit 100000
  else do
    return ((← a.div b false).map (·.1)).getD zero

/-- `INPoSParam`: the parameters of the series, all in parts of `accuracy`. -/
structure INPoSParam where
  ln2DivD : BigUint
  xIdeal : BigUint
  x : BigUint
  /-- Must be stripped and have no leading zeros. -/
  accuracy : BigUint

/-- `compute_taylor_term`: the `k`-th term of the series from the one before,
`previous * (x - x_ideal) * ln2_div_d / k`, brought back to parts of `accuracy` twice. -/
def computeTaylorTerm (k : BitVec 32) (previousTaylorTerm : BigUint) (p : INPoSParam) :
    Option BigUint := do
  -- never the error, `x` being more than `x_ideal`
  let xMinusXIdeal := unwrapOrElse (← p.x.sub p.xIdeal) fun _ => zero
  let res ← (← (← previousTaylorTerm.mul xMinusXIdeal).mul p.ln2DivD).divUnit k
  let res ← divByStripped res p.accuracy
  let res ← divByStripped res p.accuracy
  return res.lstrip

/-- The variables of the loop of `compute_taylor_serie_part`. -/
structure TaylorState where
  lastTaylorTerm : BigUint
  taylorSumPositive : Bool
  taylorSum : BigUint

/-- Turn `k` of the loop of `compute_taylor_serie_part`: the next term, which ends the loop when it
is zero, and otherwise goes into the sum with the sign of `(-1)^k`. -/
def taylorStep (p : INPoSParam) (k : ℕ) (st : TaylorState) : Option (ForInStep TaylorState) := do
  -- `k < 300` is a `u32`
  let lastTaylorTerm ← computeTaylorTerm (BitVec.ofNat 32 k) st.lastTaylorTerm p
  if lastTaylorTerm.isZero then
    return .done { st with lastTaylorTerm := lastTaylorTerm }
  let lastTaylorTermPositive := k % 2 == 0
  if st.taylorSumPositive == lastTaylorTermPositive then
    return .yield
      { st with lastTaylorTerm := lastTaylorTerm, taylorSum := ← st.taylorSum.add lastTaylorTerm }
  else if (st.taylorSum.cmp lastTaylorTerm).isGE then
    -- never the error, as checked above
    let taylorSum := unwrapOrElse (← st.taylorSum.sub lastTaylorTerm) fun e => e
    return .yield { st with lastTaylorTerm := lastTaylorTerm, taylorSum := taylorSum }
  else
    let taylorSum := unwrapOrElse (← lastTaylorTerm.sub st.taylorSum) fun e => e
    return .yield ⟨lastTaylorTerm, !st.taylorSumPositive, taylorSum⟩

/-- `compute_taylor_serie_part`: `2^((x_ideal - x) / d)` in parts of `accuracy`, the signed sum of
the terms for `k` from `0` to `299`, or zero where that sum is negative. -/
def computeTaylorSeriePart (p : INPoSParam) : Option BigUint := do
  let st ← forIn (List.range' 1 299) ⟨p.accuracy, true, p.accuracy⟩ (taylorStep p)
  if !st.taylorSumPositive then return zero
  return st.taylorSum.lstrip

/-- `LN2`: `ln(2)` in parts per quintillion. -/
def LN2 : BitVec 64 := 693147180559945309

/-- `compute_inflation`: `stake / ideal_stake` below the ideal stake; above it, zero for a falloff
below one percent and otherwise the series of `compute_taylor_serie_part`, or zero where that is
beyond one.  Each per-thing goes into a `BigUint` through `u128`. -/
def computeInflation (P : PerThingType) (stake idealStake falloff : PerThing P) :
    Option (PerThing P) := do
  -- the derived order of a per-thing compares the parts
  if stake.parts < idealStake.parts then
    return stake.div idealStake
  if falloff.parts < (PerThing.fromPercent (BitVec.ofNat _ 1) : PerThing P).parts then
    -- `log::error!`: a falloff below 1% is not supported
    return PerThing.zero P
  let accuracy := (toBigUint (P.accuracyInner.setWidth 128)).lstrip
  let falloff := (toBigUint (falloff.parts.setWidth 128)).lstrip
  let ln2 := toBigUint ((PerThing.fromRational .u128 P.inner_bits_le_u128 (LN2.setWidth 128)
    (PerThingType.perquintill.accuracyInner.setWidth 128) : PerThing P).parts.setWidth 128)
  -- `falloff` is stripped above
  let ln2DivD ← divByStripped (← ln2.mul accuracy) falloff
  let res ← computeTaylorSeriePart ⟨ln2DivD, toBigUint (idealStake.parts.setWidth 128),
    toBigUint (stake.parts.setWidth 128), accuracy⟩
  match ← res.tryIntoU128 with
  | .ok res =>
    if res ≤ P.accuracyInner.setWidth 128 then return PerThing.fromParts (saturatedInto _ res)
    -- beyond bounds, `log::error!`
    else return PerThing.zero P
  | .error _ => return PerThing.zero P

/-! ## 2. `BigUint` out to `u128` and `u64` -/

theorem val_append_singleton (l : List (BitVec 32)) (d : BitVec 32) :
    (⟨l ++ [d]⟩ : BigUint).val = (⟨l⟩ : BigUint).val * 2 ^ 32 + d.toNat := by
  rw [val, val, List.foldl_append, List.foldl_cons, List.foldl_nil]

section TryFrom

/-! `TryFrom<BigUint>` for a type of `32 c` bits. -/

variable {c : ℕ}

/-- The loop of `try_from` over limbs `rs`, the least significant first, from place `n`: it adds
each limb in at its place, and never overflows while the sum fits. -/
theorem foldlM_tryFromStep {l : List (BitVec 32)} {n : ℕ} {a : BitVec (32 * c)}
    (hn : n + l.length ≤ c)
    (hfit : a.toNat + (⟨l.reverse⟩ : BigUint).val * 2 ^ (32 * n) < 2 ^ (32 * c)) :
    ∃ v, (l.zipIdx n).foldlM (tryFromStep (32 * c)) a = some v ∧
      v.toNat = a.toNat + (⟨l.reverse⟩ : BigUint).val * 2 ^ (32 * n) := by
  induction l generalizing n a with
  | nil => exact ⟨a, rfl, by rw [show (⟨[].reverse⟩ : BigUint).val = 0 from rfl]; simp⟩
  | cons d l ih =>
    rw [List.length_cons] at hn
    rw [List.reverse_cons, val_append_singleton] at hfit ⊢
    -- limb `d` at place `n`, and the limbs above it from place `n + 1`
    have hsplit : ((⟨l.reverse⟩ : BigUint).val * 2 ^ 32 + d.toNat) * 2 ^ (32 * n) =
        (⟨l.reverse⟩ : BigUint).val * 2 ^ (32 * (n + 1)) + d.toNat * 2 ^ (32 * n) := by
      rw [Nat.mul_succ, pow_add]
      ring
    have hwide : d.toNat % 2 ^ (32 * c) = d.toNat :=
      Nat.mod_eq_of_lt (lt_of_lt_of_le d.isLt (Nat.pow_le_pow_right (by norm_num) (by omega)))
    have hshl : (d.setWidth (32 * c) <<< (32 * n)).toNat = d.toNat * 2 ^ (32 * n) := by
      rw [BitVec.toNat_shiftLeft, BitVec.toNat_setWidth, hwide, Nat.shiftLeft_eq,
        Nat.mod_eq_of_lt (by omega)]
    obtain ⟨hadd, hsum⟩ := checkedAdd_of_lt (a := a) (b := d.setWidth (32 * c) <<< (32 * n))
      (by rw [hshl]; omega)
    obtain ⟨v, hv, hval⟩ := ih (n := n + 1) (a := a + d.setWidth (32 * c) <<< (32 * n))
      (by omega) (by rw [hsum, hshl]; omega)
    refine ⟨v, ?_, by rw [hval, hsum, hshl]; omega⟩
    rw [List.zipIdx_cons, List.foldlM_cons]
    simp only [tryFromStep, checkedShl, if_pos (show 32 * n < 32 * c by omega),
      Option.bind_eq_bind, Option.bind_some, hadd]
    exact hv

/-- `TryFrom<BigUint>` for a type of `32 c` bits: the value when it fits, the error naming the type
otherwise, and no panic. -/
theorem tryFrom_eq (typeName : String) (hc : 1 ≤ c) (x : BigUint) :
    x.tryFrom typeName (32 * c) = some (if x.val < 2 ^ (32 * c) then .ok (BitVec.ofNat _ x.val)
      else .error ("cannot fit a number into " ++ typeName)) := by
  have hpow : (2 ^ 32) ^ c = 2 ^ (32 * c) := (pow_mul 2 32 c).symm
  by_cases hlen : x.lstrip.len * 32 > 32 * c
  · -- more than `c` limbs once stripped: too large
    have hbig : ¬x.val < 2 ^ (32 * c) := fun hx => by
      have := len_lstrip_le hc (lt_of_lt_of_eq hx hpow.symm)
      omega
    rw [tryFrom, if_pos hlen, if_neg hbig]
  · -- at most `c` limbs: the loop adds them all in
    have hc' : x.lstrip.digits.length ≤ c := by
      have : x.lstrip.len = x.lstrip.digits.length := rfl
      omega
    have hfit : x.val < 2 ^ (32 * c) := by
      rw [← val_lstrip x, ← hpow]
      exact lt_of_lt_of_le (val_lt _) (Nat.pow_le_pow_right (by norm_num) (by omega))
    have hrev : (⟨x.lstrip.digits.reverse.reverse⟩ : BigUint).val = x.val := by
      rw [List.reverse_reverse, show (⟨x.lstrip.digits⟩ : BigUint) = x.lstrip from rfl, val_lstrip]
    obtain ⟨v, hv, hval⟩ := foldlM_tryFromStep (c := c) (l := x.lstrip.digits.reverse) (n := 0)
      (a := 0) (by rw [List.length_reverse]; omega) (by rw [hrev]; simpa using hfit)
    rw [hrev] at hval
    have hvx : v = BitVec.ofNat _ x.val :=
      BitVec.eq_of_toNat_eq (by rw [hval, toNat_ofNat_of_lt hfit]; simp)
    simp only [tryFrom, if_neg hlen, hv, if_pos hfit, hvx]
    rfl

end TryFrom

/-- **`TryFrom<BigUint>` for `u128` and `u64`.**  For every `BigUint` `try_from` never panics: it
gives the value exactly when that is below `2^128` (`2^64`), and the error "cannot fit a number into
u128" ("u64") otherwise, however many leading zero limbs there are; and it takes
`BigUint::from(x)` back to `x`. -/
theorem tryFrom_spec (value : BigUint) (x : BitVec 128) (y : BitVec 64) :
    value.tryIntoU128 = some (if value.val < 2 ^ 128 then .ok (BitVec.ofNat 128 value.val)
      else .error "cannot fit a number into u128") ∧
    value.tryIntoU64 = some (if value.val < 2 ^ 64 then .ok (BitVec.ofNat 64 value.val)
      else .error "cannot fit a number into u64") ∧
    (toBigUint x).tryIntoU128 = some (.ok x) ∧ (ofU64 y).tryIntoU64 = some (.ok y) := by
  have h128 (v : BigUint) : v.tryIntoU128 = some (if v.val < 2 ^ 128 then .ok (BitVec.ofNat 128 v.val)
      else .error "cannot fit a number into u128") := tryFrom_eq "u128" (c := 4) (by norm_num) v
  have h64 (v : BigUint) : v.tryIntoU64 = some (if v.val < 2 ^ 64 then .ok (BitVec.ofNat 64 v.val)
      else .error "cannot fit a number into u64") := tryFrom_eq "u64" (c := 2) (by norm_num) v
  refine ⟨h128 value, h64 value, ?_, ?_⟩
  · -- `From<u128>`: the value of `x`
    rw [h128, val_toBigUint, if_pos x.isLt, BitVec.ofNat_toNat, BitVec.setWidth_eq]
  · -- `From<u64>`: the two limbs of `y`
    rw [h64, (ofU64_spec y).2, if_pos y.isLt, BitVec.ofNat_toNat, BitVec.setWidth_eq]

/-! ## 3. `div_by_stripped` -/

theorem checkedGet_zero_of_len_one {b : BigUint} {d : BitVec 32} (hmsb : b.msb = some d)
    (h1 : b.len = 1) : b.checkedGet 0 = some d ∧ b.val = d.toNat := by
  obtain ⟨l⟩ := b
  obtain ⟨e, rfl⟩ := List.length_eq_one_iff.mp h1
  obtain rfl : e = d := by simpa [msb] using hmsb
  refine ⟨rfl, ?_⟩
  rw [val_cons, List.length_nil, pow_zero, Nat.mul_one]
  rfl

theorem checkedPow_scale : checkedPow (100000 : BitVec 64) 2 = some 10000000000 := by decide

/-- The path of equal lengths scales `a`, with a non-zero top limb, by `10^10`: the product
stripped has more limbs than `a`, so the `debug_assert!` holds, and a non-zero top limb. -/
theorem scaled_spec {a : BigUint} {e : BitVec 32} (hmsb : a.msb = some e) (he : e ≠ 0) :
    ∃ w, a.mul (ofU64 10000000000) = some w ∧ w.lstrip.val = a.val * 10000000000 ∧
      a.len < w.lstrip.len ∧ ∃ e', w.lstrip.msb = some e' ∧ e' ≠ 0 := by
  have h10 : (ofU64 10000000000).val = 10000000000 := (ofU64_spec _).2
  obtain ⟨w, hw, hwval, -⟩ := mul_spec a (ofU64 10000000000)
  rw [h10] at hwval
  have hlow := pow_le_val_of_msb hmsb he
  have ha1 : 1 ≤ a.len := Nat.pos_of_ne_zero fun h => by
    rw [msb, List.length_eq_zero_iff.mp h] at hmsb
    cases hmsb
  -- `B^(len - 1) ≤ a`, so `B^len ≤ a * 10^10`
  have hbig : (2 ^ 32) ^ a.len ≤ w.lstrip.val :=
    calc (2 ^ 32) ^ a.len = (2 ^ 32) ^ (a.len - 1) * 2 ^ 32 := by
          rw [← pow_succ, Nat.sub_add_cancel ha1]
      _ ≤ a.val * 2 ^ 32 := Nat.mul_le_mul_right _ hlow
      _ ≤ a.val * 10000000000 := Nat.mul_le_mul_left _ (by norm_num)
      _ = w.lstrip.val := by rw [val_lstrip, hwval]
  have hw0 : w.val ≠ 0 := by
    rw [← val_lstrip]
    exact Nat.pos_iff_ne_zero.mp (lt_of_lt_of_le (Nat.pow_pos (by norm_num)) hbig)
  refine ⟨w, hw, by rw [val_lstrip, hwval], ?_, msb_lstrip hw0⟩
  exact (Nat.pow_lt_pow_iff_right (by norm_num)).mp (lt_of_le_of_lt hbig (val_lt _))

/-- `div_by_stripped(a, b)` is `a / b` for a `b` with a non-zero top limb, and never panics: by
`div_unit` for one limb, zero for a shorter `a`, `div` for a longer one, and for an `a` of as many
limbs `div` of `a * 10^10`, which has more, divided twice by `100_000`. -/
theorem divByStripped_of_msb (a b : BigUint) (hb : ∃ d, b.msb = some d ∧ d ≠ 0) :
    ∃ q, divByStripped a b = some q ∧ q.val = a.val / b.val := by
  obtain ⟨d, hmsb, hd⟩ := hb
  have hb0 : b.len ≠ 0 := fun h => by
    rw [msb, List.length_eq_zero_iff.mp h] at hmsb
    cases hmsb
  have hbval := pow_le_val_of_msb hmsb hd
  have ha := val_lstrip a
  rw [divByStripped]
  dsimp only
  rw [if_neg hb0]
  by_cases h1 : b.len = 1
  · -- one limb: `div_unit`
    rw [if_pos h1]
    obtain ⟨hget, hbd⟩ := checkedGet_zero_of_len_one hmsb h1
    obtain ⟨w, hw, hwval⟩ := divUnit_spec a.lstrip d
    have hd1 : 1 ≤ d.toNat := Nat.one_le_iff_ne_zero.mpr fun h => hd (BitVec.eq_of_toNat_eq h)
    refine ⟨w, by rw [hget, Option.getD_some, hw], ?_⟩
    rw [hwval, ha, hbd, max_eq_left hd1]
  rw [if_neg h1]
  by_cases h2 : b.len > a.lstrip.len
  · -- fewer limbs than `b`: below it
    rw [if_pos h2]
    have hlt : a.val < b.val :=
      calc a.val = a.lstrip.val := ha.symm
        _ < (2 ^ 32) ^ a.lstrip.len := val_lt _
        _ ≤ (2 ^ 32) ^ (b.len - 1) := Nat.pow_le_pow_right (by norm_num) (by omega)
        _ ≤ b.val := hbval
    exact ⟨zero, rfl, by rw [Nat.div_eq_of_lt hlt]; rfl⟩
  rw [if_neg h2]
  -- from here `a` has at least two limbs, so a non-zero top limb
  have ha0 : a.val ≠ 0 := fun h0 => by have := len_lstrip_of_val_eq_zero h0; omega
  obtain ⟨e, hamsb, he⟩ := msb_lstrip ha0
  by_cases h3 : b.len = a.lstrip.len
  · -- as many limbs: `a * 10^10` has more
    rw [if_pos h3]
    obtain ⟨w, hw, hwval, hlong, e', hmsb', he'⟩ := scaled_spec hamsb he
    rw [ha] at hwval
    obtain ⟨q, s, hrun, -, hq, -⟩ :=
      div_run w.lstrip b false (by omega) (by omega) hmsb hd ⟨e', hmsb', he'⟩
    obtain ⟨q₁, hq₁, hq₁val⟩ := divUnit_spec q 100000
    obtain ⟨q₂, hq₂, hq₂val⟩ := divUnit_spec q₁ 100000
    refine ⟨q₂, ?_, ?_⟩
    · simp only [checkedPow_scale, hw, Option.bind_eq_bind, Option.bind_some,
        if_neg (show ¬w.lstrip.len ≤ b.len by omega), hrun, if_neg Bool.false_ne_true,
        Option.map_some, Option.getD_some, hq₁, hq₂]
    · -- `a 10^10 / b / 10^5 / 10^5 = a / b`
      have h5 : max (100000 : BitVec 32).toNat 1 = 100000 := rfl
      rw [hq₂val, hq₁val, h5, hq, hwval, Nat.div_div_eq_div_mul, Nat.div_div_eq_div_mul,
        show (100000 * 100000 : ℕ) = 10000000000 from rfl, Nat.mul_div_mul_right _ _ (by norm_num)]
  · -- more limbs: `div`
    rw [if_neg h3]
    obtain ⟨q, s, hrun, -, hq, -⟩ :=
      div_run a.lstrip b false (by omega) (by omega) hmsb hd ⟨e, hamsb, he⟩
    refine ⟨q, ?_, by rw [hq, ha]⟩
    simp only [hrun, if_neg Bool.false_ne_true, Option.bind_eq_bind, Option.bind_some,
      Option.map_some, Option.getD_some, Option.pure_def]

/-- `div_by_stripped(a, b)` for a `b` of two limbs or more with a zero top limb: `div` refuses such
a divisor, so the quotient is zero, and there is no panic. -/
theorem divByStripped_of_msb_eq_zero (a : BigUint) {b : BigUint} (h2 : 2 ≤ b.len)
    (hmsb : b.msb = some 0) : ∃ q, divByStripped a b = some q ∧ q.val = 0 := by
  rw [divByStripped]
  dsimp only
  rw [if_neg (show b.len ≠ 0 by omega), if_neg (show b.len ≠ 1 by omega)]
  by_cases h3 : b.len > a.lstrip.len
  · exact ⟨zero, by rw [if_pos h3], rfl⟩
  rw [if_neg h3]
  have hb1 : ¬b.len ≤ 1 := by omega
  by_cases h4 : b.len = a.lstrip.len
  · -- as many limbs: the scaled `a` passes the `debug_assert!`, and `div` gives `None`
    rw [if_pos h4]
    have ha0 : a.val ≠ 0 := fun h0 => by have := len_lstrip_of_val_eq_zero h0; omega
    obtain ⟨e, hamsb, he⟩ := msb_lstrip ha0
    obtain ⟨w, hw, -, hlong, -⟩ := scaled_spec hamsb he
    obtain ⟨q₁, hq₁, hq₁val⟩ := divUnit_spec zero 100000
    obtain ⟨q₂, hq₂, hq₂val⟩ := divUnit_spec q₁ 100000
    refine ⟨q₂, ?_, by rw [hq₂val, hq₁val]; rfl⟩
    simp only [checkedPow_scale, hw, Option.bind_eq_bind, Option.bind_some,
      if_neg (show ¬w.lstrip.len ≤ b.len by omega), div_of_msb_eq_zero _ false hb1 hmsb,
      Option.map_none, Option.getD_none, hq₁, hq₂]
  · rw [if_neg h4]
    exact ⟨zero, by simp only [div_of_msb_eq_zero _ false hb1 hmsb, Option.bind_eq_bind,
      Option.bind_some, Option.map_none, Option.getD_none, Option.pure_def], rfl⟩

/-- **`div_by_stripped` on every divisor.**  It never panics: for a `b` whose top limb is not zero
it is `a / b`; for the single limb `0` it is `a`, `div_unit` reading `0` as `1`; and for a `b` of no
limbs, or of two limbs or more with a zero top limb, it is zero. -/
theorem divByStripped_spec (a b : BigUint) :
    ∃ q, divByStripped a b = some q ∧
      q.val = if b.len = 0 ∨ 2 ≤ b.len ∧ b.msb = some 0 then 0 else a.val / max b.val 1 := by
  by_cases h0 : b.len = 0
  · -- no limbs: `log::error!`, and zero
    refine ⟨zero, by rw [divByStripped]; dsimp only; rw [if_pos h0], ?_⟩
    rw [if_pos (.inl h0)]
    rfl
  obtain ⟨d, hmsb⟩ : ∃ d, b.msb = some d := by
    obtain ⟨l⟩ := b
    cases l with
    | nil => exact absurd rfl h0
    | cons d rest => exact ⟨d, rfl⟩
  by_cases hd : d = 0
  · subst hd
    by_cases h1 : b.len = 1
    · -- the single limb `0`: `div_unit` reads it as `1`
      obtain ⟨hget, hbd⟩ := checkedGet_zero_of_len_one hmsb h1
      obtain ⟨w, hw, hwval⟩ := divUnit_spec a.lstrip 0
      refine ⟨w, ?_, ?_⟩
      · rw [divByStripped]
        dsimp only
        rw [if_neg h0, if_pos h1, hget, Option.getD_some, hw]
      · rw [if_neg (by omega), hwval, val_lstrip, hbd]
    · -- a zero top limb above other limbs
      rw [if_pos (.inr ⟨by omega, hmsb⟩)]
      exact divByStripped_of_msb_eq_zero a (by omega) hmsb
  · -- a non-zero top limb
    obtain ⟨q, hq, hqval⟩ := divByStripped_of_msb a b ⟨d, hmsb, hd⟩
    have hb1 : 1 ≤ b.val := le_trans (Nat.one_le_pow _ _ (by norm_num)) (pow_le_val_of_msb hmsb hd)
    refine ⟨q, hq, ?_⟩
    rw [if_neg, hqval, max_eq_left hb1]
    rintro (h | ⟨-, h⟩)
    · exact h0 h
    · rw [hmsb] at h
      exact hd (Option.some_inj.mp h)

/-! ## 4. `compute_taylor_term` -/

theorem sub_unwrapOrElse_zero (a b : BigUint) :
    ∃ r, a.sub b = some r ∧ (unwrapOrElse r fun _ => zero).val = a.val - b.val := by
  obtain ⟨r, hr, hspec⟩ := sub_spec a b
  refine ⟨r, hr, ?_⟩
  cases r with
  | ok w => exact hspec.2
  | error w =>
    rw [unwrapOrElse_error, Nat.sub_eq_zero_of_le hspec.1.le]
    rfl

theorem computeTaylorTerm_spec {p : INPoSParam} (hacc : ∃ d, p.accuracy.msb = some d ∧ d ≠ 0)
    (k : BitVec 32) (prev : BigUint) :
    ∃ t, computeTaylorTerm k prev p = some t ∧
      t.val = prev.val * (p.x.val - p.xIdeal.val) * p.ln2DivD.val / max k.toNat 1 /
        p.accuracy.val / p.accuracy.val := by
  obtain ⟨r, hr, hxm⟩ := sub_unwrapOrElse_zero p.x p.xIdeal
  obtain ⟨m₁, hm₁, hm₁val, -⟩ := mul_spec prev (unwrapOrElse r fun _ => zero)
  obtain ⟨m₂, hm₂, hm₂val, -⟩ := mul_spec m₁ p.ln2DivD
  obtain ⟨u, hu, huval⟩ := divUnit_spec m₂ k
  obtain ⟨v₁, hv₁, hv₁val⟩ := divByStripped_of_msb u p.accuracy hacc
  obtain ⟨v₂, hv₂, hv₂val⟩ := divByStripped_of_msb v₁ p.accuracy hacc
  refine ⟨v₂.lstrip, ?_, ?_⟩
  · simp only [computeTaylorTerm, hr, Option.bind_eq_bind, Option.bind_some, hm₁, hm₂, hu, hv₁,
      hv₂, Option.pure_def]
  · rw [val_lstrip, hv₂val, hv₁val, huval, hm₂val, hm₁val, hxm]

/-! ## 5. The series on the values -/

/-- The terms of the series as `compute_taylor_term` computes them, on the values: term `0` is
`accuracy`, and term `k + 1` is term `k` times `(x - x_ideal) * ln2_div_d`, divided by `k + 1` and
twice by `accuracy`, each division rounded down. -/
def taylorTerm (accuracy xMinusXIdeal ln2DivD : ℕ) : ℕ → ℕ
  | 0 => accuracy
  | k + 1 => taylorTerm accuracy xMinusXIdeal ln2DivD k * xMinusXIdeal * ln2DivD / (k + 1) /
      accuracy / accuracy

/-- The alternating sum of the first `n` terms. -/
def taylorSum (accuracy xMinusXIdeal ln2DivD n : ℕ) : ℤ :=
  ∑ i ∈ Finset.range n, (-1) ^ i * (taylorTerm accuracy xMinusXIdeal ln2DivD i : ℤ)

section Series

variable {A X L : ℕ}

theorem taylorSum_succ (n : ℕ) :
    taylorSum A X L (n + 1) = taylorSum A X L n + (-1) ^ n * (taylorTerm A X L n : ℤ) :=
  Finset.sum_range_succ _ n

theorem taylorTerm_eq_zero_of_le {k j : ℕ} (hk : taylorTerm A X L k = 0) (hj : k ≤ j) :
    taylorTerm A X L j = 0 := by
  induction j, hj using Nat.le_induction with
  | base => exact hk
  | succ j _ ih =>
    rw [taylorTerm, ih, Nat.zero_mul, Nat.zero_mul, Nat.zero_div, Nat.zero_div, Nat.zero_div]

theorem taylorSum_eq_of_eq_zero {k n : ℕ} (hk : taylorTerm A X L k = 0) (hn : k ≤ n) :
    taylorSum A X L n = taylorSum A X L k := by
  induction n, hn using Nat.le_induction with
  | base => rfl
  | succ n hkn ih =>
    rw [taylorSum_succ, ih, taylorTerm_eq_zero_of_le hk hkn, Nat.cast_zero, mul_zero, add_zero]

end Series

/-! ## 6. The loop of `compute_taylor_serie_part` -/

section Loop

variable {p : INPoSParam} {k : ℕ} {st : TaylorState} {t : BigUint}

theorem taylorStep_of_zero
    (ht : computeTaylorTerm (BitVec.ofNat 32 k) st.lastTaylorTerm p = some t) (h0 : t.val = 0) :
    taylorStep p k st = some (.done { st with lastTaylorTerm := t }) := by
  simp only [taylorStep, ht, Option.bind_eq_bind, Option.bind_some, (isZero_iff t).mpr h0, if_true,
    Option.pure_def]

/-- Turn `k` on a term `t` that is not zero: `t` goes into the sign and the magnitude of the sum
with the sign of `(-1)^k`, whichever of the three branches the code takes. -/
theorem taylorStep_of_ne_zero
    (ht : computeTaylorTerm (BitVec.ofNat 32 k) st.lastTaylorTerm p = some t) (h0 : t.val ≠ 0) :
    ∃ st', taylorStep p k st = some (.yield st') ∧ st'.lastTaylorTerm = t ∧
      (st'.taylorSumPositive, st'.taylorSum.val) =
        SignMagnitude.add st.taylorSumPositive st.taylorSum.val (k % 2 == 0) t.val := by
  have hz : t.isZero = false := Bool.eq_false_iff.mpr fun h => h0 ((isZero_iff t).mp h)
  by_cases hs : (st.taylorSumPositive == (k % 2 == 0)) = true
  · -- the same sign: the magnitudes add
    obtain ⟨w, hw, hwval, -⟩ := add_spec st.taylorSum t
    refine ⟨{ st with lastTaylorTerm := t, taylorSum := w }, ?_, rfl, ?_⟩
    · simp only [taylorStep, ht, hz, hs, hw, Option.bind_eq_bind, Option.bind_some,
        Bool.false_eq_true, if_false, if_true, Option.pure_def]
    · rw [SignMagnitude.add, if_pos hs, hwval]
  · by_cases hge : t.val ≤ st.taylorSum.val
    · -- the term is the smaller: it comes off
      have hcmp : (st.taylorSum.cmp t).isGE = true := by
        rw [BigUint.cmp_eq_compare]
        exact Nat.isGE_compare.mpr hge
      obtain ⟨r, hr, hspec⟩ := sub_spec st.taylorSum t
      cases r with
      | error w => exact absurd hspec.1 (Nat.not_lt.mpr hge)
      | ok w =>
        refine ⟨{ st with lastTaylorTerm := t, taylorSum := w }, ?_, rfl, ?_⟩
        · simp only [taylorStep, ht, hz, hs, hcmp, hr, Option.bind_eq_bind, Option.bind_some,
            Bool.false_eq_true, if_false, if_true, unwrapOrElse_ok, Option.pure_def]
        · rw [SignMagnitude.add, if_neg hs, if_pos hge, hspec.2]
    · -- the term is the larger: the sum takes its sign
      have hcmp : (st.taylorSum.cmp t).isGE = false := by
        rw [BigUint.cmp_eq_compare]
        exact Bool.eq_false_iff.mpr fun h => hge (Nat.isGE_compare.mp h)
      obtain ⟨r, hr, hspec⟩ := sub_spec t st.taylorSum
      cases r with
      | error w => exact absurd hspec.1 (Nat.not_lt.mpr (Nat.le_of_lt (Nat.lt_of_not_le hge)))
      | ok w =>
        refine ⟨⟨t, !st.taylorSumPositive, w⟩, ?_, rfl, ?_⟩
        · simp only [taylorStep, ht, hz, hs, hcmp, hr, Option.bind_eq_bind, Option.bind_some,
            Bool.false_eq_true, if_false, unwrapOrElse_ok, Option.pure_def]
        · rw [SignMagnitude.add, if_neg hs, if_neg hge, hspec.2]

/-- The invariant of the loop before turn `k`: the last term is term `k - 1`, and the sign and the
magnitude of the sum stand for the alternating sum of the terms before `k`. -/
def TaylorInv (p : INPoSParam) (k : ℕ) (st : TaylorState) : Prop :=
  st.lastTaylorTerm.val = taylorTerm p.accuracy.val (p.x.val - p.xIdeal.val) p.ln2DivD.val (k - 1) ∧
    SignMagnitude.toInt st.taylorSumPositive st.taylorSum.val =
      taylorSum p.accuracy.val (p.x.val - p.xIdeal.val) p.ln2DivD.val k

/-- **The loop of `compute_taylor_serie_part`.**  For an `accuracy` with a non-zero top limb the loop
never panics, and whether it breaks on a zero term or runs all its turns, its sign and magnitude
end as the alternating sum of the first 300 terms. -/
theorem taylorLoop_spec (hacc : ∃ d, p.accuracy.msb = some d ∧ d ≠ 0) :
    ∃ st, forIn (List.range' 1 299) ⟨p.accuracy, true, p.accuracy⟩ (taylorStep p) = some st ∧
      SignMagnitude.toInt st.taylorSumPositive st.taylorSum.val =
        taylorSum p.accuracy.val (p.x.val - p.xIdeal.val) p.ln2DivD.val 300 := by
  apply forIn_range'_inv (TaylorInv p) (fun st => SignMagnitude.toInt st.taylorSumPositive
    st.taylorSum.val = taylorSum p.accuracy.val (p.x.val - p.xIdeal.val) p.ln2DivD.val 300)
  · -- before the first turn the sum is term `0`, `accuracy`
    refine ⟨rfl, ?_⟩
    rw [show (1 : ℕ) = 0 + 1 from rfl, taylorSum_succ]
    simp [SignMagnitude.toInt, taylorSum, taylorTerm]
  · exact fun st h => h.2
  · intro k st hk hk' hinv
    obtain ⟨hlast, hsum⟩ := hinv
    obtain ⟨t, ht, htval⟩ := computeTaylorTerm_spec hacc (BitVec.ofNat 32 k) st.lastTaylorTerm
    -- the new term is term `k`
    have hterm : t.val = taylorTerm p.accuracy.val (p.x.val - p.xIdeal.val) p.ln2DivD.val k := by
      obtain ⟨j, rfl⟩ : ∃ j, k = j + 1 := ⟨k - 1, by omega⟩
      rw [htval, hlast, toNat_ofNat_of_lt (by omega), max_eq_left hk, Nat.add_sub_cancel]
      rfl
    by_cases h0 : t.val = 0
    · -- a zero term: every later term is zero too, and the `break` loses nothing
      refine ⟨_, taylorStep_of_zero ht h0, ?_⟩
      show SignMagnitude.toInt st.taylorSumPositive st.taylorSum.val = _
      rw [hsum, taylorSum_eq_of_eq_zero (n := 300) (hterm ▸ h0) (by omega)]
    · obtain ⟨st', hstep, hlast', hpair⟩ := taylorStep_of_ne_zero ht h0
      refine ⟨_, hstep, by rw [hlast', hterm, Nat.add_sub_cancel], ?_⟩
      calc SignMagnitude.toInt st'.taylorSumPositive st'.taylorSum.val
          = SignMagnitude.toInt
              (SignMagnitude.add st.taylorSumPositive st.taylorSum.val (k % 2 == 0) t.val).1
              (SignMagnitude.add st.taylorSumPositive st.taylorSum.val (k % 2 == 0) t.val).2 := by
            rw [← hpair]
        _ = SignMagnitude.toInt st.taylorSumPositive st.taylorSum.val +
              SignMagnitude.toInt (k % 2 == 0) t.val := SignMagnitude.toInt_add _ _ _ _
        _ = _ := by rw [hsum, SignMagnitude.toInt_even, hterm, taylorSum_succ]

end Loop

/-! ## 7. `compute_taylor_serie_part` -/

theorem computeTaylorSeriePart_of_loop {p : INPoSParam} {st : TaylorState}
    (h : forIn (List.range' 1 299) ⟨p.accuracy, true, p.accuracy⟩ (taylorStep p) = some st) :
    ∃ r, computeTaylorSeriePart p = some r ∧
      r.val = (SignMagnitude.toInt st.taylorSumPositive st.taylorSum.val).toNat := by
  rw [SignMagnitude.toNat_toInt]
  cases hpos : st.taylorSumPositive with
  | false =>
    refine ⟨zero, ?_, rfl⟩
    simp only [computeTaylorSeriePart, h, hpos, Option.bind_eq_bind, Option.bind_some,
      Bool.not_false, if_true, Option.pure_def]
  | true =>
    refine ⟨st.taylorSum.lstrip, ?_, by rw [if_pos rfl, val_lstrip]⟩
    simp only [computeTaylorSeriePart, h, hpos, Option.bind_eq_bind, Option.bind_some,
      Bool.not_true, Bool.false_eq_true, if_false, Option.pure_def]

/-- **`compute_taylor_serie_part`.**  For an `accuracy` with a non-zero top limb the series never
panics, and it is the alternating sum of the first 300 terms of `taylorTerm`, or zero where that sum
is negative: neither the `break` on a zero term nor the sum kept as a sign and a magnitude changes
it. -/
theorem computeTaylorSeriePart_spec (p : INPoSParam) (hacc : ∃ d, p.accuracy.msb = some d ∧ d ≠ 0) :
    ∃ r, computeTaylorSeriePart p = some r ∧
      r.val = (taylorSum p.accuracy.val (p.x.val - p.xIdeal.val) p.ln2DivD.val 300).toNat := by
  obtain ⟨st, hloop, hsum⟩ := taylorLoop_spec hacc
  obtain ⟨r, hr, hval⟩ := computeTaylorSeriePart_of_loop hloop
  exact ⟨r, hr, by rw [hval, hsum]⟩

/-- `computeTaylorSeriePart_spec` at `x - x_ideal = 1`, `ln2_div_d = 5`, `accuracy = 10`. -/
theorem computeTaylorSeriePart_spec_ten :
    (∃ d, (⟨[10]⟩ : BigUint).msb = some d ∧ d ≠ 0) ∧
      ∃ r, computeTaylorSeriePart ⟨⟨[5]⟩, ⟨[1]⟩, ⟨[2]⟩, ⟨[10]⟩⟩ = some r ∧
        r.val = (taylorSum (⟨[10]⟩ : BigUint).val ((⟨[2]⟩ : BigUint).val - (⟨[1]⟩ : BigUint).val)
          (⟨[5]⟩ : BigUint).val 300).toNat :=
  ⟨⟨10, rfl, by decide⟩, computeTaylorSeriePart_spec ⟨⟨[5]⟩, ⟨[1]⟩, ⟨[2]⟩, ⟨[10]⟩⟩ ⟨10, rfl, by decide⟩⟩

/-! ## 8. `compute_inflation` -/

/-- The curve above the ideal stake, on the parts: the series `R` of `2^((x_ideal - x) / d)` as the
code sums it, with `ln2_div_d = (LN2 * ACCURACY / 10^18) * ACCURACY / d`, or zero where `R` is
beyond `ACCURACY`. -/
def inflationAbove (P : PerThingType) (x xIdeal d : ℕ) : ℕ :=
  let ln2DivD := LN2.toNat * P.accuracy / 10 ^ 18 * P.accuracy / d
  let R := (taylorSum P.accuracy (x - xIdeal) ln2DivD 300).toNat
  if R ≤ P.accuracy then R else 0

section Inflation

variable {P : PerThingType}

theorem val_toBigUint_parts (a : BitVec P.inner.bits) :
    (toBigUint (a.setWidth 128)).val = a.toNat := by
  rw [val_toBigUint]
  exact PerThingType.toNat_setWidth_into P.inner_bits_le_u128 a

theorem val_ln2 :
    (toBigUint ((PerThing.fromRational .u128 P.inner_bits_le_u128 (LN2.setWidth 128)
      (PerThingType.perquintill.accuracyInner.setWidth 128) : PerThing P).parts.setWidth 128)).val =
      LN2.toNat * P.accuracy / 10 ^ 18 := by
  have hp : (LN2.setWidth 128).toNat = LN2.toNat := by
    rw [BitVec.toNat_setWidth, Nat.mod_eq_of_lt (lt_trans LN2.isLt (by norm_num))]
  have hq : (PerThingType.perquintill.accuracyInner.setWidth 128).toNat = 10 ^ 18 := by decide
  have hq0 : PerThingType.perquintill.accuracyInner.setWidth 128 ≠ 0 := fun h => by
    rw [h] at hq
    cases hq
  have hpq : LN2.setWidth 128 ≤ PerThingType.perquintill.accuracyInner.setWidth 128 :=
    BitVec.le_def.mpr (by rw [hp, hq]; decide)
  rw [val_toBigUint_parts]
  exact (PerThingType.toNat_fromRational P.inner_bits_le_u128 hq0 hpq).trans
    (congrArg₂ (fun a b => a * P.accuracy / b) hp hq)

/-- `compute_inflation` at or above the ideal stake, with a falloff of one percent or more: the
series of `compute_taylor_serie_part` in parts of `ACCURACY`, or zero where it is beyond one; and no
panic. -/
theorem computeInflation_of_ge (stake idealStake falloff : PerThing P)
    (hge : idealStake.parts.toNat ≤ stake.parts.toNat)
    (hf : P.accuracy / 100 ≤ falloff.parts.toNat) :
    ∃ r, computeInflation P stake idealStake falloff = some r ∧
      r.parts.toNat =
        inflationAbove P stake.parts.toNat idealStake.parts.toNat falloff.parts.toNat := by
  -- the two checks pass
  have hlt : ¬stake.parts < idealStake.parts := fun h => by
    have := BitVec.lt_def.mp h
    omega
  have hfp : ¬falloff.parts < (PerThing.fromPercent (BitVec.ofNat _ 1) : PerThing P).parts :=
    fun h => by
      have := BitVec.lt_def.mp h
      rw [PerThing.toNat_fromPercent_one] at this
      omega
  -- `accuracy` and `falloff`, stripped, have a non-zero top limb
  have hacc : (toBigUint (P.accuracyInner.setWidth 128)).lstrip.val = P.accuracy := by
    rw [val_lstrip, val_toBigUint_parts, P.toNat_accuracyInner]
  have haccmsb := msb_lstrip (x := toBigUint (P.accuracyInner.setWidth 128))
    (by rw [val_toBigUint_parts, P.toNat_accuracyInner]; exact P.accuracy_pos.ne')
  have hfal : (toBigUint (falloff.parts.setWidth 128)).lstrip.val = falloff.parts.toNat := by
    rw [val_lstrip, val_toBigUint_parts]
  have hfalmsb := msb_lstrip (x := toBigUint (falloff.parts.setWidth 128))
    (by
      rw [val_toBigUint_parts]
      have := P.hundred_le_accuracy
      have : 1 ≤ P.accuracy / 100 := (Nat.le_div_iff_mul_le (by norm_num)).mpr (by omega)
      omega)
  -- `ln2_div_d`, then the series
  obtain ⟨m, hm, hmval, -⟩ := mul_spec (toBigUint ((PerThing.fromRational .u128
    P.inner_bits_le_u128 (LN2.setWidth 128) (PerThingType.perquintill.accuracyInner.setWidth 128) :
      PerThing P).parts.setWidth 128)) (toBigUint (P.accuracyInner.setWidth 128)).lstrip
  rw [val_ln2, hacc] at hmval
  obtain ⟨l, hl, hlval⟩ := divByStripped_of_msb m _ hfalmsb
  rw [hmval, hfal] at hlval
  obtain ⟨st, hloop, hsum⟩ := taylorLoop_spec (p := ⟨l, toBigUint (idealStake.parts.setWidth 128),
    toBigUint (stake.parts.setWidth 128), (toBigUint (P.accuracyInner.setWidth 128)).lstrip⟩)
    haccmsb
  obtain ⟨res, hres, hresval⟩ := computeTaylorSeriePart_of_loop hloop
  dsimp only at hsum
  rw [hacc, val_toBigUint_parts, val_toBigUint_parts, hlval] at hsum
  rw [hsum] at hresval
  -- `u128::try_from` of the series, and the bound `ACCURACY`
  have htry : res.tryIntoU128 = some (if res.val < 2 ^ 128 then .ok (BitVec.ofNat 128 res.val)
      else .error ("cannot fit a number into " ++ "u128")) := tryFrom_eq "u128" (c := 4) (by norm_num) res
  have hA := P.accuracy_lt
  have hacc128 : (P.accuracyInner.setWidth 128).toNat = P.accuracy :=
    (PerThingType.toNat_setWidth_into P.inner_bits_le_u128 _).trans P.toNat_accuracyInner
  -- the curve on the parts is the series cut at `ACCURACY`
  have habove : inflationAbove P stake.parts.toNat idealStake.parts.toNat falloff.parts.toNat =
      if res.val ≤ P.accuracy then res.val else 0 := by
    rw [inflationAbove, hresval]
  rw [habove]
  by_cases hbig : res.val < 2 ^ 128
  · -- `Ok(res)`, compared with `ACCURACY`
    rw [if_pos hbig] at htry
    have hle : BitVec.ofNat 128 res.val ≤ P.accuracyInner.setWidth 128 ↔ res.val ≤ P.accuracy := by
      rw [BitVec.le_def, toNat_ofNat_of_lt hbig, hacc128]
    by_cases hR : res.val ≤ P.accuracy
    · have hfit : (BitVec.ofNat 128 res.val).toNat < 2 ^ P.inner.bits := by
        rw [toNat_ofNat_of_lt hbig]
        omega
      have hsat : (saturatedInto P.inner.bits (BitVec.ofNat 128 res.val)).toNat = res.val := by
        rw [toNat_saturatedInto_of_lt hfit, toNat_ofNat_of_lt hbig]
      refine ⟨PerThing.fromParts (saturatedInto _ (BitVec.ofNat 128 res.val)), ?_, ?_⟩
      · simp only [computeInflation, if_neg hlt, if_neg hfp, hm, hl, Option.bind_eq_bind,
          Option.bind_some, hres, htry, if_pos (hle.mpr hR), Option.pure_def]
      · rw [PerThing.parts_fromParts_of_le (by rw [hsat]; exact hR), hsat, if_pos hR]
    · refine ⟨PerThing.zero P, ?_, by rw [PerThing.parts_zero, if_neg hR]; rfl⟩
      simp only [computeInflation, if_neg hlt, if_neg hfp, hm, hl, Option.bind_eq_bind,
        Option.bind_some, hres, htry, if_neg (fun h => hR (hle.mp h)), Option.pure_def]
  · -- `Err`: beyond `u128`, so beyond one
    rw [if_neg hbig] at htry
    have hR : ¬res.val ≤ P.accuracy := by
      have : P.accuracy < 2 ^ 128 :=
        lt_of_lt_of_le hA (Nat.pow_le_pow_right (by norm_num) P.inner_bits_le_u128)
      omega
    refine ⟨PerThing.zero P, ?_, by rw [PerThing.parts_zero, if_neg hR]; rfl⟩
    simp only [computeInflation, if_neg hlt, if_neg hfp, hm, hl, Option.bind_eq_bind,
      Option.bind_some, hres, htry, Option.pure_def]

theorem taylorSum_of_sub_eq_zero {A L n : ℕ} (hn : 1 ≤ n) : taylorSum A 0 L n = A := by
  have h1 : taylorTerm A 0 L 1 = 0 := by
    simp only [taylorTerm, Nat.mul_zero, Nat.zero_mul, Nat.zero_div]
  rw [taylorSum_eq_of_eq_zero h1 hn, show (1 : ℕ) = 0 + 1 from rfl, taylorSum_succ]
  simp [taylorSum, taylorTerm]

/-- **`compute_inflation`.**  For every per-thing type and all its arguments `compute_inflation`
never panics, and its parts are: `stake * ACCURACY / ideal_stake`, rounded down, below the ideal
stake; zero for a falloff below one percent, `ACCURACY / 100` parts; and otherwise the series of
`inflationAbove`, cut to zero beyond one. -/
theorem computeInflation_spec (P : PerThingType) (stake idealStake falloff : PerThing P) :
    ∃ r, computeInflation P stake idealStake falloff = some r ∧
      r.parts.toNat =
        if stake.parts.toNat < idealStake.parts.toNat then
          stake.parts.toNat * P.accuracy / idealStake.parts.toNat
        else if falloff.parts.toNat < P.accuracy / 100 then 0
        else inflationAbove P stake.parts.toNat idealStake.parts.toNat falloff.parts.toNat := by
  by_cases hlt : stake.parts.toNat < idealStake.parts.toNat
  · -- below the ideal stake: `stake / ideal_stake`, the ideal stake being above zero
    have hlt' : stake.parts < idealStake.parts := BitVec.lt_def.mpr hlt
    have hideal : idealStake.parts ≠ 0 := fun h => by
      rw [h] at hlt
      exact Nat.not_lt_zero _ hlt
    refine ⟨stake.div idealStake, by simp only [computeInflation, if_pos hlt', Option.pure_def], ?_⟩
    rw [if_pos hlt, PerThing.toNat_div (BitVec.le_of_lt hlt') hideal]
  · rw [if_neg hlt]
    by_cases hf : falloff.parts.toNat < P.accuracy / 100
    · -- a falloff below one percent
      have hfp : falloff.parts < (PerThing.fromPercent (BitVec.ofNat _ 1) : PerThing P).parts :=
        BitVec.lt_def.mpr (by rw [PerThing.toNat_fromPercent_one]; exact hf)
      refine ⟨PerThing.zero P, ?_, by rw [if_pos hf, PerThing.parts_zero]; rfl⟩
      simp only [computeInflation, if_neg (fun h => hlt (BitVec.lt_def.mp h)), if_pos hfp,
        Option.pure_def]
    · rw [if_neg hf]
      exact computeInflation_of_ge stake idealStake falloff (by omega) (by omega)

/-- **At the ideal stake the inflation is one.**  For every per-thing type, every ideal stake and
every falloff of one percent or more, `compute_inflation(ideal_stake, ideal_stake, falloff)` is
`ACCURACY` parts, where the curve `x / x_ideal` below the ideal stake tends: the terms of the series
past the first are all zero. -/
theorem computeInflation_at_ideal (P : PerThingType) (idealStake falloff : PerThing P)
    (hf : P.accuracy / 100 ≤ falloff.parts.toNat) :
    ∃ r, computeInflation P idealStake idealStake falloff = some r ∧
      r.parts.toNat = P.accuracy := by
  obtain ⟨r, hr, hval⟩ := computeInflation_of_ge idealStake idealStake falloff le_rfl hf
  refine ⟨r, hr, ?_⟩
  rw [hval, inflationAbove, Nat.sub_self, taylorSum_of_sub_eq_zero (by norm_num), Int.toNat_natCast, if_pos le_rfl]

/-- `computeInflation_at_ideal` for `Percent`, at an ideal stake of 50% and a falloff of 5%. -/
theorem computeInflation_at_ideal_percent :
    PerThingType.percent.accuracy / 100 ≤ (PerThing.fromParts 5 : PerThing .percent).parts.toNat ∧
      ∃ r, computeInflation .percent (PerThing.fromParts 50) (PerThing.fromParts 50)
        (PerThing.fromParts 5) = some r ∧ r.parts.toNat = PerThingType.percent.accuracy :=
  ⟨by decide, computeInflation_at_ideal .percent (PerThing.fromParts 50) (PerThing.fromParts 5)
    (by decide)⟩

end Inflation

end PolkadotSdk.Staking.RewardFn
