import PolkadotSdk.Arithmetic.PerThings
import PolkadotSdk.Lib.ForLoop
import PolkadotSdk.Lib.IndexedList
import PolkadotSdk.Lib.Unsigned

/-!
# `normalize`: moving the values of a vector to a targeted sum

`normalize` of `lib.rs`, for an unsigned `T` of `w` bits, and `Normalizable for Vec<P: PerThing>`
through `P`'s `Upper` type.  The values are tagged with their positions and sorted; the
difference `diff` to the target is spread as `per_round = diff / count` over `count` turns and then
`leftover = diff % count` turns of one.  An increase goes onto the least values, moving to the next
once a value reaches `targeted_sum / count`; a decrease comes off the greatest, saturating at zero
and adding the shortfall to `leftover`, and skips zeros.  A last sort on the tags puts the values
back in place.

The decreasing `while` loop need not end from an arbitrary state, so it runs on a budget of
turns (`fuel`); `none` is a panic or the budget run out.  `debug_assert_eq!` of the sum is not
modelled: its condition is `sum_normalize` below.

* `normalize_bump`, `normalize_trim`: the increasing and the decreasing branches never panic, the
  decreasing one ends within `leftover * count` turns, and both reach the target with every value
  moved only towards it.
-/

namespace PolkadotSdk.Arithmetic.Normalize

open PolkadotSdk.Lib.Unsigned PolkadotSdk.Lib.IndexedList PolkadotSdk.Lib.ForLoop
open PolkadotSdk.Arithmetic.PerThings

variable {w : ℕ}

/-- `sum` of the first loop, by `checked_add`; none when it overflows `T`. -/
def checkedSum (input : List (BitVec w)) : Option (BitVec w) :=
  input.foldlM (fun sum t => checkedAdd sum t) 0

/-- A turn of the increasing loops: `amount` onto the element at `min_index`, which moves on,
wrapping, once the element reaches `threshold`; the `expect` panics on an overflow. -/
def bumpStep (count : ℕ) (threshold amount : BitVec w) (state : List (ℕ × BitVec w) × ℕ) :
    Option (List (ℕ × BitVec w) × ℕ) := do
  let (out, minIndex) := state
  let (i, v) ← out[minIndex]?
  let v ← checkedAdd v amount
  return (out.set minIndex (i, v), if v ≥ threshold then (minIndex + 1) % count else minIndex)

theorem width_pos {a : BitVec w} (h : a ≠ 0) : 0 < w := by
  rcases Nat.eq_zero_or_pos w with rfl | hw
  · exact absurd BitVec.of_length_zero h
  · exact hw

theorem toNat_ne_zero {a : BitVec w} (h : a ≠ 0) : a.toNat ≠ 0 :=
  fun h0 => h (BitVec.eq_of_toNat_eq (by simpa using h0))

theorem toNat_sub_one {a : BitVec w} (h : a ≠ 0) : (a - 1).toNat = a.toNat - 1 := by
  have hone := toNat_one_of_pos (width_pos h)
  rw [BitVec.toNat_sub_of_le (BitVec.le_def.mpr (by have := toNat_ne_zero h; omega)), hone]

theorem toNat_sub_one_lt {a : BitVec w} (h : a ≠ 0) : (a - 1).toNat < a.toNat := by
  have := toNat_ne_zero h
  rw [toNat_sub_one h]
  omega

/-- `while !leftover.is_zero()` of the increasing branch: one more onto the element at
`min_index` per turn. -/
def bumpLeftover (count : ℕ) (threshold : BitVec w) (state : List (ℕ × BitVec w) × ℕ)
    (leftover : BitVec w) : Option (List (ℕ × BitVec w)) :=
  if h : leftover = 0 then some state.1
  else (bumpStep count threshold 1 state).bind fun state =>
    bumpLeftover count threshold state (leftover - 1)
termination_by leftover.toNat
decreasing_by exact toNat_sub_one_lt h

/-- `checked_sub(&per_round).unwrap_or_else(..)` of the decreasing loop: the element less
`per_round`, or zero with the shortfall `per_round - v` added to `leftover`; the subtraction and
the `+=` panic on an overflow. -/
def subOrSaturate (v perRound leftover : BitVec w) : Option (BitVec w × BitVec w) :=
  match checkedSub v perRound with
  | some v => some (v, leftover)
  | none => do
    let remainder ← checkedSub perRound v
    let leftover ← checkedAdd leftover remainder
    return (saturatingSub v perRound, leftover)

/-- A turn of the decreasing `for` loop: `per_round` off the element at `max_index`, which steps
down, wrapping (`max_index.checked_sub(1).unwrap_or(count - 1)`), once the element is at most
`threshold`. -/
def trimStep (count : ℕ) (threshold perRound : BitVec w)
    (state : List (ℕ × BitVec w) × ℕ × BitVec w) : Option (List (ℕ × BitVec w) × ℕ × BitVec w) := do
  let (out, maxIndex, leftover) := state
  let (i, v) ← out[maxIndex]?
  let (v, leftover) ← subOrSaturate v perRound leftover
  return (out.set maxIndex (i, v), if v ≤ threshold then cyclicPred count maxIndex else maxIndex,
    leftover)

/-- `while !leftover.is_zero()` of the decreasing branch: one off the element at `max_index`, or, at
a zero element, a step down to the next index.  From an arbitrary state it need not end, so it runs
on `fuel` turns and gives `none` when they run out. -/
def trimLeftover (count : ℕ) (threshold : BitVec w) :
    ℕ → List (ℕ × BitVec w) → ℕ → BitVec w → Option (List (ℕ × BitVec w))
  | fuel, out, maxIndex, leftover =>
    if leftover = 0 then some out
    else match fuel with
      | 0 => none
      | fuel + 1 => (out[maxIndex]?).bind fun (i, v) =>
        match checkedSub v 1 with
        | some next => trimLeftover count threshold fuel (out.set maxIndex (i, next))
            (if next ≤ threshold then cyclicPred count maxIndex else maxIndex) (leftover - 1)
        | none => trimLeftover count threshold fuel out (cyclicPred count maxIndex) leftover

/-- The increasing branch: `per_round` onto `count` elements from the least, then one onto each of
`leftover` more. -/
def bump (count : ℕ) (threshold perRound leftover : BitVec w) (sorted : List (ℕ × BitVec w)) :
    Option (List (ℕ × BitVec w)) := do
  let state ← if perRound = 0 then some (sorted, 0)
    else ((List.range count).foldlM (fun state _ => bumpStep count threshold perRound state)
      (sorted, 0))
  bumpLeftover count threshold state leftover

/-- The decreasing branch: `per_round` off `count` elements from the greatest, then one off each of
`leftover` more. -/
def trim (fuel count : ℕ) (threshold perRound leftover : BitVec w)
    (sorted : List (ℕ × BitVec w)) : Option (List (ℕ × BitVec w)) := do
  let (out, maxIndex, leftover) ← if perRound = 0 then some (sorted, count - 1, leftover)
    else ((List.range count).foldlM (fun state _ => trimStep count threshold perRound state)
      (sorted, count - 1, leftover))
  trimLeftover count threshold fuel out maxIndex leftover

/-- `normalize(input, targeted_sum)`. -/
def normalize (fuel : ℕ) (input : List (BitVec w)) (targetedSum : BitVec w) :
    Option (Except String (List (BitVec w))) :=
  match checkedSum input with
  | none => some (.error "sum of input cannot fit in `T`")
  | some sum =>
    let count := input.length
    -- `count.try_into()`
    if 2 ^ w ≤ count then some (.error "length of `inputs` cannot fit in `T`")
    else
      let countT : BitVec w := BitVec.ofNat w count
      if count = 0 then some (.ok [])
      else
        let diff := max targetedSum sum - min targetedSum sum
        if diff = 0 then some (.ok input)
        else
          let perRound := diff / countT
          let leftover := diff % countT
          let sorted := (tagged input).mergeSort fun a b => decide (a.2 ≤ b.2)
          let out :=
            if targetedSum > sum then bump count (targetedSum / countT) perRound leftover sorted
            else sorted.head?.bind fun first => trim fuel count first.2 perRound leftover sorted
          out.map fun out => .ok ((out.mergeSort fun a b => decide (a.1 ≤ b.1)).map Prod.snd)

/-- `Normalizable for Vec<P: PerThing>`: the parts, widened to `Upper`, normalized there, and
brought back by `from_parts(saturated_into)`. -/
def normalizePerThing {P : PerThingType} (fuel : ℕ) (input : List (PerThing P))
    (targetedSum : PerThing P) : Option (Except String (List (PerThing P))) :=
  (normalize fuel (input.map fun p => p.parts.setWidth P.upper.bits)
      (targetedSum.parts.setWidth P.upper.bits)).map fun r =>
    r.map fun normalized => normalized.map fun i => PerThing.fromParts (saturatedInto P.inner.bits i)

/-! ## The values of a tagged list -/

/-- The sum of the values of a tagged list, on the naturals. -/
def vals (l : List (ℕ × BitVec w)) : ℕ := (l.map fun p => p.2.toNat).sum

theorem vals_set (l : List (ℕ × BitVec w)) {i : ℕ} (hi : i < l.length) (b : BitVec w) :
    vals (l.set i (l[i].1, b)) + l[i].2.toNat = vals l + b.toNat :=
  sum_map_set_add (fun p => p.2.toNat) l hi _

theorem toNat_le_vals (l : List (ℕ × BitVec w)) {i : ℕ} (hi : i < l.length) :
    l[i].2.toNat ≤ vals l :=
  List.le_sum_of_mem (List.mem_map_of_mem (List.getElem_mem hi))

theorem vals_perm {l₁ l₂ : List (ℕ × BitVec w)} (h : l₁.Perm l₂) : vals l₁ = vals l₂ :=
  (h.map _).sum_eq

theorem vals_tagged (input : List (BitVec w)) :
    vals (tagged input) = (input.map BitVec.toNat).sum := by
  show ((tagged input).map (BitVec.toNat ∘ Prod.snd)).sum = _
  rw [← List.map_map, map_snd_tagged]

theorem sum_map_snd (W : List (ℕ × BitVec w)) (le : ℕ × BitVec w → ℕ × BitVec w → Bool) :
    (((W.mergeSort le).map Prod.snd).map BitVec.toNat).sum = vals W := by
  rw [List.map_map]
  exact vals_perm (List.mergeSort_perm W le)

theorem mul_sub_succ (p : ℕ) {j n : ℕ} (hj : j < n) : p * (n - j) = p * (n - (j + 1)) + p := by
  rw [show n - j = n - (j + 1) + 1 by omega, Nat.mul_succ]

/-! ## The sum of the input -/

theorem foldlM_checkedAdd (input : List (BitVec w)) (acc : BitVec w) :
    input.foldlM (fun sum t => checkedAdd sum t) acc =
      if acc.toNat + (input.map BitVec.toNat).sum < 2 ^ w then
        some (BitVec.ofNat w (acc.toNat + (input.map BitVec.toNat).sum))
      else none := by
  induction input generalizing acc with
  | nil =>
    rw [if_pos (by simpa using acc.isLt), List.foldlM_nil, List.map_nil, List.sum_nil, Nat.add_zero,
      BitVec.ofNat_toNat, BitVec.setWidth_eq]
    rfl
  | cons a l ih =>
    rw [List.foldlM_cons, checkedAdd_eq]
    by_cases h : 2 ^ w ≤ acc.toNat + a.toNat
    · rw [if_pos h, if_neg (by simp only [List.map_cons, List.sum_cons]; omega)]
      rfl
    · rw [if_neg h, Option.bind_eq_bind, Option.bind_some, ih, toNat_ofNat_of_lt (by omega)]
      simp only [List.map_cons, List.sum_cons, Nat.add_assoc]

theorem checkedSum_eq (input : List (BitVec w)) :
    checkedSum input = if (input.map BitVec.toNat).sum < 2 ^ w then
      some (BitVec.ofNat w (input.map BitVec.toNat).sum) else none := by
  have hzero : (0 : BitVec w).toNat = 0 := BitVec.toNat_zero
  rw [checkedSum, foldlM_checkedAdd, hzero, Nat.zero_add]

/-! ## The increasing branch -/

theorem bumpStep_eq {count : ℕ} {threshold amount : BitVec w} {W : List (ℕ × BitVec w)} {m : ℕ}
    (hm : m < W.length) {v : BitVec w} (hv : checkedAdd W[m].2 amount = some v) :
    bumpStep count threshold amount (W, m) =
      some (W.set m (W[m].1, v), if v ≥ threshold then (m + 1) % count else m) := by
  simp only [bumpStep, List.getElem?_eq_getElem hm, Option.bind_eq_bind, Option.bind_some, hv,
    Option.pure_def]

section Bump

variable (sorted : List (ℕ × BitVec w)) (n t : ℕ)

/-- The increasing branch's invariant, with `R` still to be added: the index is in range, every
value only grew, and what is still to come brings the sum to `t`. -/
def BumpInv (R : ℕ) (state : List (ℕ × BitVec w) × ℕ) : Prop :=
  state.2 < n ∧ state.1.length = n ∧
    List.Forall₂ (SameTag fun a b => a.toNat ≤ b.toNat) sorted state.1 ∧ vals state.1 + R = t

variable {sorted n t}

/-- A turn adds `amount` to one value: no value reaches past `t`, so none overflows. -/
theorem bumpStep_spec (ht : t < 2 ^ w) (threshold amount : BitVec w) {R : ℕ}
    (hR : amount.toNat ≤ R) {state : List (ℕ × BitVec w) × ℕ} (h : BumpInv sorted n t R state) :
    ∃ state', bumpStep n threshold amount state = some state' ∧
      BumpInv sorted n t (R - amount.toNat) state' := by
  obtain ⟨W, m⟩ := state
  dsimp only [BumpInv] at h
  obtain ⟨hm, hlen, hrel, hsum⟩ := h
  have hmW : m < W.length := by omega
  have hle := toNat_le_vals W hmW
  obtain ⟨hadd, hval⟩ := checkedAdd_of_lt (a := W[m].2) (b := amount) (by omega)
  have hset := vals_set W hmW (W[m].2 + amount)
  refine ⟨_, bumpStep_eq hmW hadd, ?_⟩
  dsimp only [BumpInv]
  refine ⟨?_, by rw [List.length_set, hlen], forall₂_set hrel hmW fun a ha => by omega, by omega⟩
  split
  · exact Nat.mod_lt _ (by omega)
  · exact hm

/-- The `while` loop of the increasing branch adds the last `leftover`. -/
theorem bumpLeftover_spec (ht : t < 2 ^ w) (threshold : BitVec w)
    (state : List (ℕ × BitVec w) × ℕ) (leftover : BitVec w)
    (h : BumpInv sorted n t leftover.toNat state) :
    ∃ out, bumpLeftover n threshold state leftover = some out ∧
      List.Forall₂ (SameTag fun a b => a.toNat ≤ b.toNat) sorted out ∧ vals out = t := by
  fun_induction bumpLeftover n threshold state leftover with
  | case1 state =>
    dsimp only [BumpInv] at h
    exact ⟨state.1, rfl, h.2.2.1, by simpa using h.2.2.2⟩
  | case2 state leftover hzero ih =>
    have hone := toNat_one_of_pos (width_pos hzero)
    have hR : (1 : BitVec w).toNat ≤ leftover.toNat := by
      have := toNat_ne_zero hzero
      omega
    obtain ⟨state', hstep, h'⟩ := bumpStep_spec ht threshold 1 hR h
    rw [hstep, Option.bind_some]
    exact ih state' (by rwa [toNat_sub_one hzero, ← hone])

/-- **The increasing branch.**  `per_round` onto `n` values and then `leftover` ones, from a sum
that falls short of `t` by `per_round * n + leftover`, never overflows and reaches `t`. -/
theorem bump_spec (ht : t < 2 ^ w) (hn : 0 < n) (hlen : sorted.length = n)
    (threshold perRound leftover : BitVec w)
    (hsum : vals sorted + perRound.toNat * n + leftover.toNat = t) :
    ∃ out, bump n threshold perRound leftover sorted = some out ∧
      List.Forall₂ (SameTag fun a b => a.toNat ≤ b.toNat) sorted out ∧ vals out = t := by
  have h0 : BumpInv sorted n t (perRound.toNat * (n - 0) + leftover.toNat) (sorted, 0) :=
    ⟨hn, hlen, List.forall₂_same.mpr fun _ _ => ⟨rfl, le_rfl⟩, by dsimp only; rw [Nat.sub_zero]; omega⟩
  have hleft (state) (h : BumpInv sorted n t leftover.toNat state) :=
    bumpLeftover_spec ht threshold state leftover h
  rw [bump]
  split_ifs with hzero
  · -- no `for` loop when `per_round` is zero
    exact bind_inv _ ⟨_, rfl, by simpa [hzero] using h0⟩ hleft
  · refine bind_inv _ ?_ hleft
    refine foldlM_range_inv (fun j s => BumpInv sorted n t (perRound.toNat * (n - j) +
      leftover.toNat) s) h0 (fun j s hj hs => ?_) |>.imp fun _ h => ⟨h.1, by simpa using h.2⟩
    have hsplit := mul_sub_succ perRound.toNat hj
    obtain ⟨s', hstep, h'⟩ := bumpStep_spec ht threshold perRound (by omega) hs
    exact ⟨s', hstep, by rwa [hsplit, Nat.add_right_comm, Nat.add_sub_cancel] at h'⟩

end Bump

/-! ## The decreasing branch -/

theorem subOrSaturate_spec (v perRound leftover : BitVec w)
    (h : leftover.toNat + perRound.toNat < 2 ^ w) :
    ∃ v' L, subOrSaturate v perRound leftover = some (v', L) ∧
      v'.toNat = v.toNat - perRound.toNat ∧ L.toNat = leftover.toNat + (perRound.toNat - v.toNat) := by
  by_cases hv : perRound.toNat ≤ v.toNat
  · obtain ⟨hsub, hval⟩ := checkedSub_of_le hv
    exact ⟨_, _, by rw [subOrSaturate, hsub], hval, by omega⟩
  · -- the value saturates at zero, and the shortfall goes to `leftover`
    obtain ⟨hsub, hval⟩ := checkedSub_of_le (a := perRound) (b := v) (by omega)
    obtain ⟨hadd, hsum⟩ := checkedAdd_of_lt (a := leftover) (b := perRound - v) (by omega)
    refine ⟨_, _, ?_, toNat_saturatingSub v perRound, by rw [hsum, hval]⟩
    simp only [subOrSaturate, checkedSub_of_lt (Nat.lt_of_not_le hv), hsub, hadd,
      Option.bind_eq_bind, Option.bind_some, Option.pure_def]

theorem trimStep_eq {count : ℕ} {threshold perRound leftover : BitVec w}
    {W : List (ℕ × BitVec w)} {m : ℕ} (hm : m < W.length) {v L : BitVec w}
    (hv : subOrSaturate W[m].2 perRound leftover = some (v, L)) :
    trimStep count threshold perRound (W, m, leftover) =
      some (W.set m (W[m].1, v), if v ≤ threshold then cyclicPred count m else m, L) := by
  simp only [trimStep, List.getElem?_eq_getElem hm, Option.bind_eq_bind, Option.bind_some, hv,
    Option.pure_def]

theorem trimLeftover_of_leftover_zero {count : ℕ} (threshold : BitVec w) (fuel : ℕ)
    (W : List (ℕ × BitVec w)) (m : ℕ) : trimLeftover count threshold fuel W m 0 = some W := by
  cases fuel <;> rw [trimLeftover, if_pos rfl]

section Turn

variable {count fuel m : ℕ} {threshold leftover : BitVec w} {W : List (ℕ × BitVec w)}

theorem trimLeftover_succ_of_zero (hL : leftover ≠ 0) (hm : m < W.length)
    (hz : W[m].2.toNat = 0) :
    trimLeftover count threshold (fuel + 1) W m leftover =
      trimLeftover count threshold fuel W (cyclicPred count m) leftover := by
  have hone := toNat_one_of_pos (width_pos hL)
  rw [trimLeftover, if_neg hL]
  simp only [List.getElem?_eq_getElem hm, Option.bind_some,
    checkedSub_of_lt (by omega : W[m].2.toNat < (1 : BitVec w).toNat)]

theorem trimLeftover_succ_of_pos (hL : leftover ≠ 0) (hm : m < W.length)
    (hv : W[m].2.toNat ≠ 0) :
    trimLeftover count threshold (fuel + 1) W m leftover =
      trimLeftover count threshold fuel (W.set m (W[m].1, W[m].2 - 1))
        (if W[m].2 - 1 ≤ threshold then cyclicPred count m else m) (leftover - 1) := by
  have hone := toNat_one_of_pos (width_pos hL)
  rw [trimLeftover, if_neg hL]
  simp only [List.getElem?_eq_getElem hm, Option.bind_some,
    (checkedSub_of_le (a := W[m].2) (b := 1) (by omega)).1]

theorem trimLeftover_skip (hL : leftover ≠ 0) (fuel k : ℕ) :
    ∀ m, (∀ i < k, ∃ h : (cyclicPred count)^[i] m < W.length,
        W[(cyclicPred count)^[i] m].2.toNat = 0) →
      trimLeftover count threshold (fuel + k) W m leftover =
        trimLeftover count threshold fuel W ((cyclicPred count)^[k] m) leftover := by
  induction k with
  | zero => intro m _; rfl
  | succ k ih =>
    intro m hzeros
    obtain ⟨hm, hz⟩ : ∃ h : m < W.length, W[m].2.toNat = 0 := hzeros 0 (Nat.succ_pos k)
    rw [← Nat.add_assoc, trimLeftover_succ_of_zero hL hm hz]
    exact ih (cyclicPred count m) fun i hi => hzeros (i + 1) (by omega)

end Turn

/-- Walking down from `m`, a list of `n` values whose sum is not zero shows a non-zero value within
`n` steps. -/
theorem exists_first_nonzero {n m : ℕ} {W : List (ℕ × BitVec w)} (hlen : W.length = n)
    (hm : m < n) (hpos : vals W ≠ 0) :
    ∃ k < n, (∀ i < k, ∃ h : (cyclicPred n)^[i] m < W.length,
        W[(cyclicPred n)^[i] m].2.toNat = 0) ∧
      ∃ h : (cyclicPred n)^[k] m < W.length, W[(cyclicPred n)^[k] m].2.toNat ≠ 0 := by
  classical
  have hex : ∃ k, k < n ∧ ∃ h : (cyclicPred n)^[k] m < W.length,
      W[(cyclicPred n)^[k] m].2.toNat ≠ 0 := by
    obtain ⟨x, hx, hx0⟩ := List.exists_mem_ne_zero_of_sum_ne_zero hpos
    obtain ⟨p, hp, rfl⟩ := List.mem_map.mp hx
    obtain ⟨j, hj, rfl⟩ := List.mem_iff_getElem.mp hp
    obtain ⟨k, hk, hkj⟩ := exists_iterate_cyclicPred_eq hm (hlen ▸ hj)
    subst hkj
    exact ⟨k, hk, hj, hx0⟩
  -- the first such step: every value before it on the walk is zero
  refine ⟨Nat.find hex, (Nat.find_spec hex).1, fun i hi => ?_, (Nat.find_spec hex).2⟩
  have hi' : (cyclicPred n)^[i] m < W.length := hlen ▸ iterate_cyclicPred_lt hm i
  exact ⟨hi', Decidable.byContradiction fun h0 =>
    Nat.find_min hex hi ⟨lt_trans hi (Nat.find_spec hex).1, hi', h0⟩⟩

section Trim

variable (sorted : List (ℕ × BitVec w)) (n t : ℕ)

/-- The decreasing branch's invariant, with `R` still to be taken off by the `for` loop: the index
is in range, every value only shrank, and the sum exceeds `t` by `leftover` and what is still to
be taken off. -/
def TrimInv (R : ℕ) (state : List (ℕ × BitVec w) × ℕ × BitVec w) : Prop :=
  state.2.1 < n ∧ state.1.length = n ∧
    List.Forall₂ (SameTag fun a b => b.toNat ≤ a.toNat) sorted state.1 ∧
    vals state.1 ≤ vals sorted ∧ vals state.1 = t + state.2.2.toNat + R

variable {sorted n t}

/-- A turn takes `per_round` off one value; what it cannot take goes to `leftover`, which stays
below the sum and so fits in `T`. -/
theorem trimStep_spec (hlt : vals sorted < 2 ^ w) (threshold perRound : BitVec w) {R : ℕ}
    (hR : perRound.toNat ≤ R) {state : List (ℕ × BitVec w) × ℕ × BitVec w}
    (h : TrimInv sorted n t R state) :
    ∃ state', trimStep n threshold perRound state = some state' ∧
      TrimInv sorted n t (R - perRound.toNat) state' := by
  obtain ⟨W, m, L⟩ := state
  dsimp only [TrimInv] at h
  obtain ⟨hm, hlen, hrel, hle, hsum⟩ := h
  have hmW : m < W.length := by omega
  obtain ⟨v', L', hsub, hv', hL'⟩ :=
    subOrSaturate_spec W[m].2 perRound L (by omega)
  have hset := vals_set W hmW v'
  refine ⟨_, trimStep_eq hmW hsub, ?_⟩
  dsimp only [TrimInv]
  refine ⟨?_, by rw [List.length_set, hlen], forall₂_set hrel hmW fun a ha => by omega, by omega,
    by omega⟩
  split
  · exact cyclicPred_lt hm
  · exact hm

theorem trimInv_decrement {W : List (ℕ × BitVec w)} {m : ℕ} {L : BitVec w}
    (h : TrimInv sorted n t 0 (W, m, L)) (hL : L ≠ 0) {j : ℕ} (hj : j < W.length)
    (hv : W[j].2.toNat ≠ 0) {m' : ℕ} (hm' : m' < n) :
    TrimInv sorted n t 0 (W.set j (W[j].1, W[j].2 - 1), m', L - 1) := by
  dsimp only [TrimInv] at h ⊢
  obtain ⟨-, hlen, hrel, hle, hsum⟩ := h
  have hset := vals_set W hj (W[j].2 - 1)
  have hdec := toNat_sub_one (a := W[j].2) fun h0 => hv (by rw [h0]; rfl)
  have hLdec := toNat_sub_one hL
  have hLpos := toNat_ne_zero hL
  refine ⟨hm', by rw [List.length_set, hlen], forall₂_set hrel hj fun a ha => by omega, by omega,
    by omega⟩

/-- **The `while` loop of the decreasing branch ends.**  Each of the last `leftover` takes at most
`n` turns: the steps down over zero values, and the one that takes one off. -/
theorem trimLeftover_spec (threshold : BitVec w) (ℓ : ℕ) :
    ∀ {W : List (ℕ × BitVec w)} {m : ℕ} {L : BitVec w}, L.toNat = ℓ →
      TrimInv sorted n t 0 (W, m, L) → ∀ fuel, ℓ * n ≤ fuel →
        ∃ out, trimLeftover n threshold fuel W m L = some out ∧
          List.Forall₂ (SameTag fun a b => b.toNat ≤ a.toNat) sorted out ∧ vals out = t := by
  induction ℓ with
  | zero =>
    intro W m L hL h fuel _
    obtain rfl : L = 0 := BitVec.eq_of_toNat_eq (by rw [hL]; rfl)
    dsimp only [TrimInv] at h
    exact ⟨W, trimLeftover_of_leftover_zero _ _ _ _, h.2.2.1, by simpa using h.2.2.2.2⟩
  | succ ℓ ih =>
    intro W m L hL h fuel hfuel
    have hL0 : L ≠ 0 := fun h0 => by simp [h0] at hL
    have hinv := h
    dsimp only [TrimInv] at hinv
    obtain ⟨hm, hlen, -, -, hsum⟩ := hinv
    obtain ⟨k, hk, hzeros, hj, hv⟩ := exists_first_nonzero hlen hm (by omega)
    -- `(ℓ + 1) * n` turns cover the `k` steps down, the turn that takes one off, and `ℓ * n` more
    have hmul : (ℓ + 1) * n = ℓ * n + n := Nat.succ_mul ℓ n
    obtain ⟨f, rfl⟩ : ∃ f, fuel = f + 1 + k := ⟨fuel - (k + 1), by omega⟩
    rw [trimLeftover_skip hL0 (f + 1) k m hzeros, trimLeftover_succ_of_pos hL0 hj hv]
    refine ih (by rw [toNat_sub_one hL0, hL, Nat.add_sub_cancel]) (trimInv_decrement h hL0 hj hv ?_)
      f (by omega)
    split
    · exact cyclicPred_lt (iterate_cyclicPred_lt hm k)
    · exact iterate_cyclicPred_lt hm k

/-- **The decreasing branch.**  `per_round` off `n` values and then `leftover` ones, from a sum that
exceeds `t` by `per_round * n + leftover`, never panics, ends within `sum * n` turns of its `while`
loop, and reaches `t`. -/
theorem trim_spec (hlt : vals sorted < 2 ^ w) (hn : 0 < n) (hlen : sorted.length = n)
    (threshold perRound leftover : BitVec w)
    (hsum : vals sorted = t + leftover.toNat + perRound.toNat * n) {fuel : ℕ}
    (hfuel : vals sorted * n ≤ fuel) :
    ∃ out, trim fuel n threshold perRound leftover sorted = some out ∧
      List.Forall₂ (SameTag fun a b => b.toNat ≤ a.toNat) sorted out ∧ vals out = t := by
  have h0 : TrimInv sorted n t (perRound.toNat * (n - 0)) (sorted, n - 1, leftover) :=
    ⟨by dsimp only; omega, hlen, List.forall₂_same.mpr fun _ _ => ⟨rfl, le_rfl⟩, le_rfl,
      by dsimp only; rw [Nat.sub_zero]; omega⟩
  -- what is left after the `for` loop is at most the sum, so `sum * n` turns are enough
  have hleft : ∀ state : List (ℕ × BitVec w) × ℕ × BitVec w, TrimInv sorted n t 0 state →
      ∃ out, trimLeftover n threshold fuel state.1 state.2.1 state.2.2 = some out ∧
        List.Forall₂ (SameTag fun a b => b.toNat ≤ a.toNat) sorted out ∧ vals out = t := by
    rintro ⟨W, m, L⟩ h
    have hinv := h
    dsimp only [TrimInv] at hinv
    exact trimLeftover_spec threshold L.toNat rfl h fuel
      (le_trans (Nat.mul_le_mul_right n (by omega)) hfuel)
  rw [trim]
  split_ifs with hzero
  · exact bind_inv _ ⟨_, rfl, by simpa [hzero] using h0⟩ hleft
  · refine bind_inv _ ?_ hleft
    refine foldlM_range_inv (fun j s => TrimInv sorted n t (perRound.toNat * (n - j)) s) h0
      (fun j s hj hs => ?_) |>.imp fun _ h => ⟨h.1, by simpa using h.2⟩
    have hsplit := mul_sub_succ perRound.toNat hj
    obtain ⟨s', hstep, h'⟩ := trimStep_spec hlt threshold perRound (by omega) hs
    exact ⟨s', hstep, by rwa [hsplit, Nat.add_sub_cancel] at h'⟩

end Trim

/-! ## `normalize` -/

/-- What `normalize` promises, on the values as naturals: the input's length, the target as the sum
when there is a value to carry it, and every value moved only towards the target. -/
def Normalized (input : List ℕ) (target : ℕ) (out : List ℕ) : Prop :=
  out.length = input.length ∧ (input ≠ [] → out.sum = target) ∧
    (input.sum < target → List.Forall₂ (fun a b => a ≤ b) input out) ∧
    (target ≤ input.sum → List.Forall₂ (fun a b => b ≤ a) input out)

theorem le_of_forall₂_ge {l₁ l₂ : List ℕ} {c : ℕ} (h : List.Forall₂ (fun a b => b ≤ a) l₁ l₂)
    (hc : ∀ a ∈ l₁, a ≤ c) : ∀ b ∈ l₂, b ≤ c := by
  induction h with
  | nil => intro b hb; cases hb
  | cons hab _ ih =>
    intro b hb
    rcases List.mem_cons.mp hb with rfl | hb
    · exact le_trans hab (hc _ List.mem_cons_self)
    · exact ih (fun a ha => hc a (List.mem_cons_of_mem _ ha)) b hb

theorem Normalized.le_bound {input out : List ℕ} {target c : ℕ}
    (h : Normalized input target out) (ht : target ≤ c) (hc : ∀ a ∈ input, a ≤ c) :
    ∀ b ∈ out, b ≤ c := by
  obtain ⟨hlen, hsum, hup, hdown⟩ := h
  intro b hb
  rcases eq_or_ne input [] with rfl | hne
  · rw [List.length_nil, List.length_eq_zero_iff] at hlen
    subst hlen
    cases hb
  by_cases hlt : input.sum < target
  · -- an increase: no value exceeds the sum, which is the target
    exact le_trans (List.le_sum_of_mem hb) (hsum hne ▸ ht)
  · exact le_of_forall₂_ge (hdown (Nat.le_of_not_lt hlt)) hc b hb

theorem toNat_max_sub_min (a b : BitVec w) :
    (max a b - min a b).toNat = max a.toNat b.toNat - min a.toNat b.toNat := by
  have hle : min a b ≤ max a b := BitVec.le_def.mpr (by rw [toNat_min, toNat_max]; omega)
  rw [BitVec.toNat_sub_of_le hle, toNat_max, toNat_min]

section Sorted

variable (input : List (BitVec w))

/-- The input tagged with its positions and sorted on the values, as `normalize` sorts it. -/
abbrev sortedInput : List (ℕ × BitVec w) := (tagged input).mergeSort fun a b => decide (a.2 ≤ b.2)

theorem length_sortedInput : (sortedInput input).length = input.length := by
  rw [List.length_mergeSort, length_tagged]

theorem vals_sortedInput : vals (sortedInput input) = (input.map BitVec.toNat).sum := by
  rw [vals_perm (List.mergeSort_perm _ _), vals_tagged]

variable {input}

theorem sortBack_spec {R : ℕ → ℕ → Prop} {W : List (ℕ × BitVec w)}
    (h : List.Forall₂ (SameTag fun a b => R a.toNat b.toNat) (sortedInput input) W) :
    List.Forall₂ R (input.map BitVec.toNat)
        (((W.mergeSort fun a b => decide (a.1 ≤ b.1)).map Prod.snd).map BitVec.toNat) ∧
      (((W.mergeSort fun a b => decide (a.1 ≤ b.1)).map Prod.snd).map BitVec.toNat).sum = vals W :=
  ⟨List.forall₂_map_left_iff.mpr (List.forall₂_map_right_iff.mpr
    (forall₂_of_sort_tags (List.mergeSort_perm _ _) h)), sum_map_snd W _⟩

theorem normalized_of_bump {targetedSum : BitVec w} {W : List (ℕ × BitVec w)}
    (hlt : (input.map BitVec.toNat).sum < targetedSum.toNat)
    (hrel : List.Forall₂ (SameTag fun a b => a.toNat ≤ b.toNat) (sortedInput input) W)
    (hvals : vals W = targetedSum.toNat) :
    Normalized (input.map BitVec.toNat) targetedSum.toNat
      (((W.mergeSort fun a b => decide (a.1 ≤ b.1)).map Prod.snd).map BitVec.toNat) := by
  obtain ⟨hback, hsum⟩ := sortBack_spec hrel
  exact ⟨hback.length_eq.symm, fun _ => hsum.trans hvals, fun _ => hback, fun hle => by omega⟩

theorem normalized_of_trim {targetedSum : BitVec w} {W : List (ℕ × BitVec w)}
    (hrel : List.Forall₂ (SameTag fun a b => b.toNat ≤ a.toNat) (sortedInput input) W)
    (hvals : vals W = targetedSum.toNat) (hle : targetedSum.toNat ≤ (input.map BitVec.toNat).sum) :
    Normalized (input.map BitVec.toNat) targetedSum.toNat
      (((W.mergeSort fun a b => decide (a.1 ≤ b.1)).map Prod.snd).map BitVec.toNat) := by
  obtain ⟨hback, hsum⟩ := sortBack_spec (R := fun a b => b ≤ a) hrel
  exact ⟨hback.length_eq.symm, fun _ => hsum.trans hvals, fun hlt => by omega, fun _ => hback⟩

end Sorted

theorem normalized_self {input : List ℕ} {target : ℕ} (h : input.sum = target) :
    Normalized input target input :=
  ⟨rfl, fun _ => h, fun _ => List.forall₂_same.mpr fun _ _ => le_rfl,
    fun _ => List.forall₂_same.mpr fun _ _ => le_rfl⟩

/-- What `normalize` returns for values of `bits` bits, on the naturals: an error exactly when the
sum or the length of the input does not fit, and a normalized output otherwise. -/
def NormalizeResult (bits : ℕ) (input : List ℕ) (target : ℕ) : Except String (List ℕ) → Prop
  | .error _ => 2 ^ bits ≤ input.sum ∨ 2 ^ bits ≤ input.length
  | .ok out => input.sum < 2 ^ bits ∧ input.length < 2 ^ bits ∧ Normalized input target out

/-- `normalize` for a `T` of any width, every input and every target, with a budget of `sum * len`
turns for the decreasing `while` loop: an error exactly when the sum of the input or its length
does not fit in `T`, and otherwise no panic and a normalized output. -/
theorem normalize_spec (input : List (BitVec w)) (targetedSum : BitVec w) (fuel : ℕ)
    (hfuel : (input.map BitVec.toNat).sum * input.length ≤ fuel) :
    ∃ r, normalize fuel input targetedSum = some r ∧
      NormalizeResult w (input.map BitVec.toNat) targetedSum.toNat
        (r.map fun out => out.map BitVec.toNat) := by
  have hmaplen : (input.map BitVec.toNat).length = input.length := by rw [List.length_map]
  by_cases hS : 2 ^ w ≤ (input.map BitVec.toNat).sum
  · refine ⟨.error "sum of input cannot fit in `T`", ?_, Or.inl hS⟩
    rw [normalize, checkedSum_eq, if_neg (by omega)]
  have hsum : checkedSum input = some (BitVec.ofNat w (input.map BitVec.toNat).sum) := by
    rw [checkedSum_eq, if_pos (by omega)]
  have hsumv := toNat_ofNat_of_lt (Nat.lt_of_not_le hS)
  by_cases hn : 2 ^ w ≤ input.length
  · exact ⟨.error "length of `inputs` cannot fit in `T`", by simp only [normalize, hsum, if_pos hn],
      Or.inr (by omega)⟩
  obtain rfl | h0 := eq_or_ne input []
  · have hpow : ¬2 ^ w ≤ 0 := Nat.not_le.mpr (Nat.two_pow_pos w)
    exact ⟨.ok [], by simp only [normalize, hsum, List.length_nil, if_neg hpow, if_pos],
      by omega, by omega, rfl, fun h => absurd rfl h, fun _ => .nil, fun _ => .nil⟩
  have hlen0 : input.length ≠ 0 := fun h => h0 (List.eq_nil_of_length_eq_zero h)
  have hd := toNat_max_sub_min targetedSum (BitVec.ofNat w (input.map BitVec.toNat).sum)
  rw [hsumv] at hd
  by_cases hdiff : max targetedSum (BitVec.ofNat w (input.map BitVec.toNat).sum) -
      min targetedSum (BitVec.ofNat w (input.map BitVec.toNat).sum) = 0
  · -- the sum is already the target
    simp only [hdiff, BitVec.ofNat_eq_ofNat, BitVec.toNat_zero] at hd
    exact ⟨.ok input, by simp only [normalize, hsum, if_neg hn, if_neg hlen0, hdiff, if_pos],
      by omega, by omega, normalized_self (by omega)⟩
  have hcount : (BitVec.ofNat w input.length).toNat = input.length := toNat_ofNat_of_lt (by omega)
  have hpos : 0 < (sortedInput input).length := by
    rw [length_sortedInput]
    exact Nat.pos_of_ne_zero hlen0
  simp only [normalize, hsum, if_neg hn, if_neg hlen0, if_neg hdiff]
  set sum := BitVec.ofNat w (input.map BitVec.toNat).sum
  set count := BitVec.ofNat w input.length
  set diff := max targetedSum sum - min targetedSum sum
  -- `diff` is `per_round * count + leftover`
  have hsplit : (diff / count).toNat * input.length + (diff % count).toNat = diff.toNat := by
    rw [BitVec.toNat_udiv, BitVec.toNat_umod, hcount]
    exact Nat.div_add_mod' _ _
  split_ifs with hlt
  · -- the increasing branch
    rw [GT.gt, BitVec.lt_def, hsumv] at hlt
    have hbump : vals (sortedInput input) + (diff / count).toNat * input.length +
        (diff % count).toNat = targetedSum.toNat := by
      rw [vals_sortedInput]
      omega
    obtain ⟨W, hW, hrel, hvals⟩ := bump_spec targetedSum.isLt (Nat.pos_of_ne_zero hlen0)
      (length_sortedInput input) (targetedSum / count) (diff / count) (diff % count) hbump
    rw [hW]
    exact ⟨_, rfl, by omega, by omega, normalized_of_bump hlt hrel hvals⟩
  · -- the decreasing branch, with the least value as its threshold
    rw [GT.gt, BitVec.lt_def, hsumv] at hlt
    have hhead : (sortedInput input).head? = some (sortedInput input)[0] := by
      rw [List.head?_eq_getElem?, List.getElem?_eq_getElem hpos]
    have htrim : vals (sortedInput input) =
        targetedSum.toNat + (diff % count).toNat + (diff / count).toNat * input.length := by
      rw [vals_sortedInput]
      omega
    have hbudget : vals (sortedInput input) * input.length ≤ fuel := by
      rw [vals_sortedInput]
      exact hfuel
    obtain ⟨W, hW, hrel, hvals⟩ := trim_spec (by rw [vals_sortedInput]; omega)
      (Nat.pos_of_ne_zero hlen0) (length_sortedInput input) (sortedInput input)[0].2 (diff / count)
      (diff % count) htrim hbudget
    rw [hhead, Option.bind_some, hW]
    exact ⟨_, rfl, by omega, by omega, normalized_of_trim hrel hvals (by omega)⟩

theorem toNat_parts_fromParts {P : PerThingType} {i : BitVec P.upper.bits}
    (h : i.toNat ≤ P.accuracy) :
    (PerThing.fromParts (saturatedInto P.inner.bits i)).parts.toNat = i.toNat := by
  have hsat := toNat_saturatedInto_of_lt (v := P.inner.bits) (lt_of_le_of_lt h P.accuracy_lt)
  rw [PerThing.parts_fromParts_of_le (by rw [hsat]; exact h), hsat]

/-- `Normalizable for Vec<P: PerThing>`: `normalize` on the parts widened to `Upper`, and its
output, never above `ACCURACY`, brought back exactly. -/
theorem normalizePerThing_spec {P : PerThingType} (input : List (PerThing P))
    (targetedSum : PerThing P) (fuel : ℕ)
    (hfuel : (input.map fun p => p.parts.toNat).sum * input.length ≤ fuel) :
    ∃ r, normalizePerThing fuel input targetedSum = some r ∧
      NormalizeResult P.upper.bits (input.map fun p => p.parts.toNat) targetedSum.parts.toNat
        (r.map fun out => out.map fun p => p.parts.toNat) := by
  have hup : (input.map fun p => p.parts.setWidth P.upper.bits).map BitVec.toNat =
      input.map fun p => p.parts.toNat := by
    rw [List.map_map]
    exact List.map_congr_left fun p _ => P.toNat_setWidth_upper p.parts
  obtain ⟨r, hr, hspec⟩ := normalize_spec (input.map fun p => p.parts.setWidth P.upper.bits)
    (targetedSum.parts.setWidth P.upper.bits) fuel (by rw [hup, List.length_map]; exact hfuel)
  rw [hup, PerThingType.toNat_setWidth_upper] at hspec
  rw [normalizePerThing, hr, Option.map_some]
  cases r with
  | error e => exact ⟨_, rfl, hspec⟩
  | ok out =>
    obtain ⟨hS, hn, hnorm⟩ := hspec
    -- no value of the output exceeds `ACCURACY`, which bounds the target and every input
    have hle := hnorm.le_bound targetedSum.le_accuracy fun a ha => by
      obtain ⟨p, _, rfl⟩ := List.mem_map.mp ha
      exact p.le_accuracy
    have hout : (out.map fun i => PerThing.fromParts (saturatedInto P.inner.bits i)).map
        (fun p => p.parts.toNat) = out.map BitVec.toNat := by
      rw [List.map_map]
      exact List.map_congr_left fun i hi => toNat_parts_fromParts (hle _ (List.mem_map_of_mem hi))
    exact ⟨_, rfl, hS, hn, by beta_reduce; rw [hout]; exact hnorm⟩

/-- **`normalize` and `Normalizable for Vec<P: PerThing>`.**  For every width of `T`, every input
and every target, and for every per-thing type through its `Upper`, with a budget of `sum * len`
turns for the decreasing `while` loop: an error exactly when the sum or the length does not fit;
otherwise no panic, and values of the input's length that sum to the target (for a non-empty
input), each moved only towards it. -/
theorem normalize_correct (fuel : ℕ) :
    (∀ {w : ℕ} (input : List (BitVec w)) (targetedSum : BitVec w),
      (input.map BitVec.toNat).sum * input.length ≤ fuel →
      ∃ r, normalize fuel input targetedSum = some r ∧
        NormalizeResult w (input.map BitVec.toNat) targetedSum.toNat
          (r.map fun out => out.map BitVec.toNat)) ∧
    (∀ {P : PerThingType} (input : List (PerThing P)) (targetedSum : PerThing P),
      (input.map fun p => p.parts.toNat).sum * input.length ≤ fuel →
      ∃ r, normalizePerThing fuel input targetedSum = some r ∧
        NormalizeResult P.upper.bits (input.map fun p => p.parts.toNat) targetedSum.parts.toNat
          (r.map fun out => out.map fun p => p.parts.toNat)) :=
  ⟨fun input targetedSum => normalize_spec input targetedSum fuel,
    fun input targetedSum => normalizePerThing_spec input targetedSum fuel⟩

/-- `normalize(&[1u8, 8, 9], 1)` of the tests, and two per-cents normalized to one, within a budget
of `60` turns. -/
theorem normalize_correct_tests :
    (([1, 8, 9] : List (BitVec 8)).map BitVec.toNat).sum * 3 ≤ 60 ∧
    (∃ r, normalize 60 ([1, 8, 9] : List (BitVec 8)) 1 = some r ∧
      NormalizeResult 8 [1, 8, 9] 1 (r.map fun out => out.map BitVec.toNat)) ∧
    (([.fromParts 10, .fromParts 20] : List (PerThing .percent)).map fun p => p.parts.toNat).sum *
      2 ≤ 60 ∧
    (∃ r, normalizePerThing 60 ([.fromParts 10, .fromParts 20] : List (PerThing .percent))
        (.fromParts 100) = some r ∧
      NormalizeResult 16 [10, 20] 100 (r.map fun out => out.map fun p => p.parts.toNat)) :=
  ⟨by decide, (normalize_correct 60).1 (w := 8) [1, 8, 9] 1 (by decide), by decide,
    (normalize_correct 60).2 (P := .percent) [.fromParts 10, .fromParts 20] (.fromParts 100)
      (by decide)⟩

end PolkadotSdk.Arithmetic.Normalize
