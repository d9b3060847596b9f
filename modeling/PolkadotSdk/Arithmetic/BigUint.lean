import Mathlib.Algebra.BigOperators.Group.Finset.Basic
import Mathlib.Tactic.Linarith
import Mathlib.Tactic.Ring
import PolkadotSdk.Lib.ForLoop
import PolkadotSdk.Lib.Unsigned

/-!
# `BigUint`: unsigned integers of any size, in limbs of 32 bits

`biguint.rs`.  A `BigUint` is a vector of `u32` limbs, the most significant first; its loops index
the limbs from the least significant through `get`, `checked_get` and `set`, which panic (or give
`None`) out of range, and compute in `u64`, where an overflow panics.  Every operation here
returns `None` where the code panics.

* `add_spec`, `sub_spec`, `mul_spec`, `divUnit_spec`: Knuth's schoolbook algorithms compute the
  sum, the difference (or its complement on a borrow), the product and the quotient by a limb of
  the values, and never panic;
* `cmp_eq_compare`: the order compares the values, leading zero limbs and all.
-/

namespace PolkadotSdk.Arithmetic

open PolkadotSdk.Lib.Unsigned PolkadotSdk.Lib.ForLoop

/-- `BigUint`: its limbs, the most significant first. -/
structure BigUint where
  digits : List (BitVec 32)
  deriving DecidableEq, Repr

namespace BigUint

/-- `B`: the base, `Single::max_value() as Double + 1`. -/
def B : BitVec 64 := (BitVec.allOnes 32).setWidth 64 + 1

/-- `split`: the high and the low limb of a `Double`. -/
def split (a : BitVec 64) : BitVec 32 × BitVec 32 := ((a >>> 32).setWidth 32, a.setWidth 32)

/-- `mul_single`: the product of two limbs, as a `Double`. -/
def mulSingle (a b : BitVec 32) : Option (BitVec 64) := checkedMul (a.setWidth 64) (b.setWidth 64)

/-- `div_single`: the quotient and the remainder of a `Double` by a limb; a zero divisor
panics. -/
def divSingle (a : BitVec 64) (b : BitVec 32) : Option (BitVec 64 × BitVec 32) :=
  if b = 0 then none else some (a / b.setWidth 64, (a % b.setWidth 64).setWidth 32)

/-- `with_capacity(size)`: `size` zero limbs, and never none. -/
def withCapacity (size : ℕ) : BigUint := ⟨List.replicate (max size 1) 0⟩

/-- `Zero::zero()`. -/
def zero : BigUint := ⟨[0]⟩

/-- `from_limbs`: the limbs, or zero for none. -/
def fromLimbs (limbs : List (BitVec 32)) : BigUint := if limbs ≠ [] then ⟨limbs⟩ else zero

/-- `From<u32>`. -/
def ofU32 (a : BitVec 32) : BigUint := ⟨[a]⟩

/-- `From<u64>`: the two limbs of `split`. -/
def ofU64 (a : BitVec 64) : BigUint := ⟨[(split a).1, (split a).2]⟩

/-- `len()`. -/
def len (self : BigUint) : ℕ := self.digits.length

/-- `get(index)`, the limb `index` from the least significant; `len - 1 - index` underflows, a
panic, unless `index < len`. -/
def get (self : BigUint) (index : ℕ) : Option (BitVec 32) :=
  if index < self.len then self.digits[self.len - 1 - index]? else none

/-- `checked_get(index)`. -/
def checkedGet (self : BigUint) (index : ℕ) : Option (BitVec 32) := do
  let i ← if 1 ≤ self.len then some (self.len - 1) else none
  let j ← if index ≤ i then some (i - index) else none
  self.digits[j]?

/-- `set(index, value)`; out of range it panics. -/
def set (self : BigUint) (index : ℕ) (value : BitVec 32) : Option BigUint :=
  if index < self.len then some ⟨self.digits.set (self.len - 1 - index) value⟩ else none

/-- `msb()`; it panics on no limbs. -/
def msb (self : BigUint) : Option (BitVec 32) := self.digits[0]?

/-- `lstrip()`: the leading zero limbs dropped, all but the last. -/
def lstrip (self : BigUint) : BigUint :=
  if self.len = 0 then self
  else
    let index := (self.digits.findIdx? (· != 0)).getD (self.len - 1)
    if index > 0 then ⟨self.digits.drop index⟩ else self

/-- `lpad(size)`: zero limbs put in front up to `size` limbs. -/
def lpad (self : BigUint) (size : ℕ) : BigUint :=
  if self.len ≥ size then self else ⟨List.replicate (size - self.len) 0 ++ self.digits⟩

/-! ## Addition, subtraction, multiplication, division by a limb -/

/-- A turn of the loop of `add`: limb `j` of the sum, and the carry `k` out of it. -/
def addStep (self other : BigUint) (state : BitVec 64 × BigUint) (j : ℕ) :
    Option (BitVec 64 × BigUint) := do
  let (k, w) := state
  let u := ((self.checkedGet j).getD 0).setWidth 64
  let v := ((other.checkedGet j).getD 0).setWidth 64
  let s ← checkedAdd (← checkedAdd u v) k
  let w ← w.set j ((s % B).setWidth 32)
  return (s / B, w)

/-- `add`: the sum, in `max(len) + 1` limbs. -/
def add (self other : BigUint) : Option BigUint := do
  let n := max self.len other.len
  let (k, w) ← (List.range n).foldlM (addStep self other) (0, withCapacity (n + 1))
  w.set n (k.setWidth 32)

/-- The limb of `sub` and the borrow out of it: `u - v - k` when that does not underflow, and
`u + B - v - k` with a borrow otherwise, in that order of operations. -/
def subLimb (u v k : BitVec 64) : Option (BitVec 64 × BitVec 64) :=
  match (checkedSub u v).bind fun v1 => checkedSub v1 k with
  | some v2 => some (v2, 0)
  | none => do
    let t ← checkedSub (← checkedSub (← checkedAdd u B) v) k
    return (t, 1)

/-- A turn of the loop of `sub`: limb `j` of the difference, and the borrow `k` out of it. -/
def subStep (self other : BigUint) (state : BitVec 64 × BigUint) (j : ℕ) :
    Option (BitVec 64 × BigUint) := do
  let (k, w) := state
  let u := ((self.checkedGet j).getD 0).setWidth 64
  let v := ((other.checkedGet j).getD 0).setWidth 64
  let (s, k) ← subLimb u v k
  let w ← w.set j (s.setWidth 32)
  return (k, w)

/-- `sub`: `Ok` with the difference when there is no borrow out of the top limb, `Err` with
`B^n` plus the difference otherwise. -/
def sub (self other : BigUint) : Option (Except BigUint BigUint) := do
  let n := max self.len other.len
  let (k, w) ← (List.range n).foldlM (subStep self other) (0, withCapacity n)
  return if k = 0 then .ok w else .error w

/-- A turn of the inner loop of `mul`: limb `i + j` of the product so far, and the carry `k`. -/
def mulInnerStep (self other : BigUint) (j : ℕ) (state : BitVec 32 × BigUint) (i : ℕ) :
    Option (BitVec 32 × BigUint) := do
  let (k, w) := state
  let t ← checkedAdd (← checkedAdd (← mulSingle (← self.get j) (← other.get i))
    (BitVec.setWidth 64 (← w.get (i + j)))) (k.setWidth 64)
  let w ← w.set (i + j) ((t % B).setWidth 32)
  return ((t / B).setWidth 32, w)

/-- A turn of the outer loop of `mul`: limb `j` of `self` times `other`, added in at limb `j`;
a zero limb is skipped. -/
def mulStep (self other : BigUint) (w : BigUint) (j : ℕ) : Option BigUint := do
  let a ← self.get j
  if a = 0 then return w
  else
    let (k, w) ← (List.range other.len).foldlM (mulInnerStep self other j) (0, w)
    w.set (j + other.len) k

/-- `mul`: the product, in `len + len` limbs. -/
def mul (self other : BigUint) : Option BigUint :=
  (List.range self.len).foldlM (mulStep self other) (withCapacity (other.len + self.len))

/-- A turn of the loop of `div_unit`: limb `d` of the quotient, and the remainder `r`. -/
def divUnitStep (self : BigUint) (other : BitVec 32) (state : BitVec 32 × BigUint) (d : ℕ) :
    Option (BitVec 32 × BigUint) := do
  let (r, out) := state
  -- `with_r(x, r)`
  let t ← checkedAdd (← checkedMul (r.setWidth 64) B) (BitVec.setWidth 64 (← self.get d))
  let (q, rr) ← divSingle t other
  let out ← out.set d (q.setWidth 32)
  return (rr, out)

/-- `div_unit`: the quotient by a limb, `0` read as `1`. -/
def divUnit (self : BigUint) (other : BitVec 32) : Option BigUint := do
  let other := max other 1
  let n := self.len
  let (_, out) ← (List.range n).reverse.foldlM (divUnitStep self other) (0, withCapacity n)
  return out

/-! ## The order -/

/-- `Ord for [Single]`: lexicographic, a proper prefix first. -/
def cmpSlice : List (BitVec 32) → List (BitVec 32) → Ordering
  | [], [] => .eq
  | [], _ :: _ => .lt
  | _ :: _, [] => .gt
  | a :: as, b :: bs => (compare a.toNat b.toNat).then (cmpSlice as bs)

/-- `Ord for BigUint`: the limbs from the first non-zero one on, compared by their number and then
lexicographically. -/
def cmp (self other : BigUint) : Ordering :=
  match self.digits.findIdx? (· != 0), other.digits.findIdx? (· != 0) with
  | none, none => .eq
  | some _, none => .gt
  | none, some _ => .lt
  | some lhsIdx, some rhsIdx =>
    let lhs := self.digits.drop lhsIdx
    let rhs := other.digits.drop rhsIdx
    match compare lhs.length rhs.length with
    | .eq => cmpSlice lhs rhs
    | lenCmp => lenCmp

/-- `PartialEq for BigUint`: `cmp` is `Equal`. -/
def eq (self other : BigUint) : Bool := self.cmp other == .eq

/-! ## Conversions -/

/-- `Zero::is_zero`: every limb is zero. -/
def isZero (self : BigUint) : Bool := self.digits.all (· == 0)

/-- A turn of the loop of `TryFrom<BigUint>` for a type of `len` bits: `acc += d << (SHIFT * i)`. -/
def tryFromStep (len : ℕ) (acc : BitVec len) (di : BitVec 32 × ℕ) : Option (BitVec len) := do
  checkedAdd acc (← checkedShl (di.1.setWidth len) (32 * di.2))

/-- `impl_try_from_number_for!`: `TryFrom<BigUint>` for the unsigned type `typeName` of `len`
bits.  The limbs of the stripped value, when they fit, each shifted to its place and added in, the
least significant first. -/
def tryFrom (typeName : String) (len : ℕ) (value : BigUint) : Option (Except String (BitVec len)) :=
  let value := value.lstrip
  if value.len * 32 > len then some (.error ("cannot fit a number into " ++ typeName))
  else Except.ok <$> value.digits.reverse.zipIdx.foldlM (tryFromStep len) 0

/-- `TryFrom<BigUint> for u128`. -/
def tryIntoU128 (value : BigUint) : Option (Except String (BitVec 128)) := tryFrom "u128" 128 value

/-- `TryFrom<BigUint> for u64`. -/
def tryIntoU64 (value : BigUint) : Option (Except String (BitVec 64)) := tryFrom "u64" 64 value

/-! ## The value -/

/-- The number the limbs denote, the most significant first, in base `2^32`. -/
def val (x : BigUint) : ℕ := x.digits.foldl (fun acc d => acc * 2 ^ 32 + d.toNat) 0

/-- Limb `i` from the least significant, on the naturals; zero above the top. -/
def limb (x : BigUint) (i : ℕ) : ℕ := ((x.checkedGet i).map BitVec.toNat).getD 0

/-! ## Limbs from the least significant -/

theorem toNat_B : B.toNat = 2 ^ 32 := rfl

theorem checkedGet_eq (x : BigUint) (i : ℕ) : x.checkedGet i = x.digits.reverse[i]? := by
  simp only [checkedGet, Option.bind_eq_bind]
  by_cases hi : i < x.len
  · rw [if_pos (by omega), Option.bind_some, if_pos (by omega), Option.bind_some,
      List.getElem?_reverse hi]
    rfl
  · rw [List.getElem?_eq_none (by rw [List.length_reverse]; exact Nat.le_of_not_lt hi)]
    by_cases h1 : 1 ≤ x.len
    · rw [if_pos h1, Option.bind_some, if_neg (by omega), Option.bind_none]
    · rw [if_neg h1, Option.bind_none]

theorem get_eq_checkedGet (x : BigUint) (i : ℕ) : x.get i = x.checkedGet i := by
  rw [checkedGet_eq, get]
  split
  · next hi => rw [List.getElem?_reverse hi]; rfl
  · next hi => rw [List.getElem?_eq_none (by rw [List.length_reverse]; exact Nat.le_of_not_lt hi)]

theorem limb_eq (x : BigUint) (i : ℕ) : x.limb i = (x.digits.reverse[i]?.map BitVec.toNat).getD 0 := by
  rw [limb, checkedGet_eq]

theorem limb_lt (x : BigUint) (i : ℕ) : x.limb i < 2 ^ 32 := by
  rw [limb_eq]
  cases x.digits.reverse[i]? with
  | none => exact Nat.two_pow_pos 32
  | some d => exact d.isLt

theorem limb_of_le {x : BigUint} {i : ℕ} (h : x.len ≤ i) : x.limb i = 0 := by
  rw [limb_eq, List.getElem?_eq_none (by rw [List.length_reverse]; exact h)]
  rfl

theorem get_of_lt {x : BigUint} {i : ℕ} (h : i < x.len) :
    ∃ d, x.get i = some d ∧ d.toNat = x.limb i := by
  rw [get_eq_checkedGet, limb, checkedGet_eq, List.getElem?_eq_getElem (by simpa [len] using h)]
  exact ⟨_, rfl, rfl⟩

theorem toNat_getD_checkedGet (x : BigUint) (i : ℕ) : ((x.checkedGet i).getD 0).toNat = x.limb i := by
  rw [limb]
  cases x.checkedGet i <;> rfl

theorem reverse_set_getElem? {l : List (BitVec 32)} {i : ℕ} (hi : i < l.length) (a : BitVec 32)
    (t : ℕ) : (l.set (l.length - 1 - i) a).reverse[t]? = if t = i then some a else l.reverse[t]? := by
  by_cases ht : t < l.length
  · rw [List.getElem?_reverse (by rw [List.length_set]; exact ht), List.length_set,
      List.getElem?_set, List.getElem?_reverse ht]
    by_cases hti : t = i
    · rw [if_pos (by omega), if_pos (by omega), if_pos hti]
    · rw [if_neg (by omega), if_neg hti]
  · rw [List.getElem?_eq_none (by simp only [List.length_reverse, List.length_set]; omega),
      List.getElem?_eq_none (by rw [List.length_reverse]; omega), if_neg (by omega)]

theorem set_of_lt {x : BigUint} {i : ℕ} (h : i < x.len) (d : BitVec 32) :
    ∃ w, x.set i d = some w ∧ w.len = x.len ∧
      ∀ t, w.limb t = if t = i then d.toNat else x.limb t := by
  refine ⟨_, by rw [set, if_pos h], List.length_set, fun t => ?_⟩
  rw [limb_eq, limb_eq, len, reverse_set_getElem? h]
  split <;> rfl

@[simp] theorem len_withCapacity (size : ℕ) : (withCapacity size).len = max size 1 := by
  simp [withCapacity, len]

@[simp] theorem limb_withCapacity (size i : ℕ) : (withCapacity size).limb i = 0 := by
  rw [limb_eq, withCapacity, List.reverse_replicate]
  by_cases h : i < max size 1
  · rw [List.getElem?_replicate_of_lt h]; rfl
  · rw [List.getElem?_eq_none (by simp only [List.length_replicate]; omega)]; rfl

@[simp] theorem len_mk (l : List (BitVec 32)) : (⟨l⟩ : BigUint).len = l.length := rfl

/-! ## The value as a sum of limbs -/

theorem foldl_horner (l : List (BitVec 32)) (acc : ℕ) :
    l.foldl (fun acc d => acc * 2 ^ 32 + d.toNat) acc =
      acc * (2 ^ 32) ^ l.length + l.foldl (fun acc d => acc * 2 ^ 32 + d.toNat) 0 := by
  induction l generalizing acc with
  | nil => simp
  | cons d l ih =>
    simp only [List.foldl_cons, List.length_cons]
    rw [ih, ih (0 * 2 ^ 32 + d.toNat)]
    ring

theorem val_cons (d : BitVec 32) (l : List (BitVec 32)) :
    (⟨d :: l⟩ : BigUint).val = d.toNat * (2 ^ 32) ^ l.length + (⟨l⟩ : BigUint).val := by
  rw [val, val, List.foldl_cons, foldl_horner, Nat.zero_mul, Nat.zero_add]

theorem limb_cons (d : BitVec 32) (l : List (BitVec 32)) (i : ℕ) :
    (⟨d :: l⟩ : BigUint).limb i = if i = l.length then d.toNat else (⟨l⟩ : BigUint).limb i := by
  rw [limb_eq, limb_eq, List.reverse_cons, List.getElem?_append, List.length_reverse]
  by_cases hi : i < l.length
  · rw [if_pos hi, if_neg (Nat.ne_of_lt hi)]
  · rw [if_neg hi]
    by_cases he : i = l.length
    · subst he
      simp
    · rw [if_neg he, List.getElem?_eq_none (by simp only [List.length_singleton]; omega),
        List.getElem?_eq_none (by simp only [List.length_reverse]; omega)]

theorem val_eq_sum (x : BigUint) : x.val = ∑ i ∈ Finset.range x.len, x.limb i * (2 ^ 32) ^ i := by
  obtain ⟨l⟩ := x
  induction l with
  | nil => rfl
  | cons d l ih =>
    have hlow : ∑ i ∈ Finset.range l.length, (⟨d :: l⟩ : BigUint).limb i * (2 ^ 32) ^ i =
        ∑ i ∈ Finset.range l.length, (⟨l⟩ : BigUint).limb i * (2 ^ 32) ^ i :=
      Finset.sum_congr rfl fun i hi => by rw [limb_cons, if_neg (Finset.mem_range.mp hi).ne]
    rw [val_cons, ih, len_mk, len_mk, List.length_cons, Finset.sum_range_succ, hlow, limb_cons,
      if_pos rfl, Nat.add_comm]

theorem sum_range_of_zero_above {f : ℕ → ℕ} {N M : ℕ} (hNM : N ≤ M) (hz : ∀ t, N ≤ t → f t = 0) :
    ∑ i ∈ Finset.range M, f i * (2 ^ 32) ^ i = ∑ i ∈ Finset.range N, f i * (2 ^ 32) ^ i :=
  (Finset.sum_subset (Finset.range_subset_range.mpr hNM) fun i _ hi => by
    rw [hz i (by simpa using hi), Nat.zero_mul]).symm

theorem sum_lt_pow {f : ℕ → ℕ} (hf : ∀ i, f i < 2 ^ 32) (N : ℕ) :
    ∑ i ∈ Finset.range N, f i * (2 ^ 32) ^ i < (2 ^ 32) ^ N := by
  induction N with
  | zero => simp
  | succ N ih =>
    have htop : f N * (2 ^ 32) ^ N ≤ (2 ^ 32 - 1) * (2 ^ 32) ^ N :=
      Nat.mul_le_mul_right _ (Nat.le_sub_one_of_lt (hf N))
    rw [Finset.sum_range_succ, pow_succ (2 ^ 32) N]
    generalize (2 ^ 32) ^ N = Q at *
    omega

theorem sum_update {f g : ℕ → ℕ} {p L : ℕ} (hp : p < L) (hfg : ∀ t, t ≠ p → g t = f t) :
    ∑ i ∈ Finset.range L, g i * (2 ^ 32) ^ i + f p * (2 ^ 32) ^ p =
      ∑ i ∈ Finset.range L, f i * (2 ^ 32) ^ i + g p * (2 ^ 32) ^ p := by
  have hmem : p ∈ Finset.range L := Finset.mem_range.mpr hp
  have hrest : ∑ i ∈ (Finset.range L).erase p, g i * (2 ^ 32) ^ i =
      ∑ i ∈ (Finset.range L).erase p, f i * (2 ^ 32) ^ i :=
    Finset.sum_congr rfl fun t ht => by rw [hfg t (Finset.ne_of_mem_erase ht)]
  rw [← Finset.add_sum_erase (Finset.range L) (fun i => g i * (2 ^ 32) ^ i) hmem,
    ← Finset.add_sum_erase (Finset.range L) (fun i => f i * (2 ^ 32) ^ i) hmem, hrest]
  ring

theorem val_lt (x : BigUint) : x.val < (2 ^ 32) ^ x.len :=
  val_eq_sum x ▸ sum_lt_pow (limb_lt x) x.len

theorem val_eq_sum_of_zero_above {x : BigUint} {N : ℕ} (hz : ∀ t, N ≤ t → x.limb t = 0) :
    x.val = ∑ i ∈ Finset.range N, x.limb i * (2 ^ 32) ^ i := by
  rw [val_eq_sum, ← sum_range_of_zero_above (le_max_left x.len N) fun t ht => limb_of_le ht,
    sum_range_of_zero_above (le_max_right x.len N) hz]

theorem val_eq_sum_of_le {x : BigUint} {N : ℕ} (h : x.len ≤ N) :
    x.val = ∑ i ∈ Finset.range N, x.limb i * (2 ^ 32) ^ i :=
  val_eq_sum_of_zero_above fun _ ht => limb_of_le (h.trans ht)

theorem val_lt_of_zero_above {x : BigUint} {N : ℕ} (hz : ∀ t, N ≤ t → x.limb t = 0) :
    x.val < (2 ^ 32) ^ N :=
  val_eq_sum_of_zero_above hz ▸ sum_lt_pow (limb_lt x) N

@[simp] theorem val_withCapacity (size : ℕ) : (withCapacity size).val = 0 := by
  rw [val_eq_sum]
  exact Finset.sum_eq_zero fun i _ => by rw [limb_withCapacity, Nat.zero_mul]

theorem set_spec {x : BigUint} {i : ℕ} (h : i < x.len) (d : BitVec 32) :
    ∃ w, x.set i d = some w ∧ w.len = x.len ∧ (∀ t, t ≠ i → w.limb t = x.limb t) ∧
      w.val + x.limb i * (2 ^ 32) ^ i = x.val + d.toNat * (2 ^ 32) ^ i := by
  obtain ⟨w, hw, hlen, hlimb⟩ := set_of_lt h d
  have hval := sum_update h (f := x.limb) (g := w.limb) fun t ht => by rw [hlimb, if_neg ht]
  rw [hlimb i, if_pos rfl] at hval
  refine ⟨w, hw, hlen, fun t ht => by rw [hlimb, if_neg ht], ?_⟩
  rw [val_eq_sum w, val_eq_sum x, hlen]
  exact hval

/-! ## Limbs widened to `u64` -/

theorem toNat_limb64 (x : BigUint) (j : ℕ) :
    (((x.checkedGet j).getD 0).setWidth 64).toNat = x.limb j := by
  rw [BitVec.toNat_setWidth, toNat_getD_checkedGet,
    Nat.mod_eq_of_lt (lt_trans (limb_lt x j) (by norm_num))]

theorem toNat_lowLimb (s : BitVec 64) : ((s % B).setWidth 32).toNat = s.toNat % 2 ^ 32 := by
  rw [BitVec.toNat_setWidth, BitVec.toNat_umod, toNat_B, Nat.mod_mod]

theorem toNat_div_B (s : BitVec 64) : (s / B).toNat = s.toNat / 2 ^ 32 := by
  rw [BitVec.toNat_udiv, toNat_B]

theorem lowLimb_add_carry (s Q : ℕ) : s % 2 ^ 32 * Q + s / 2 ^ 32 * (Q * 2 ^ 32) = s * Q := by
  calc _ = (s % 2 ^ 32 + 2 ^ 32 * (s / 2 ^ 32)) * Q := by ring
    _ = s * Q := by rw [Nat.mod_add_div]

/-! ## `add` -/

section Add

variable (a b : BigUint) (n : ℕ)

/-- The invariant of the loop of `add` before turn `j`: the limbs written and the carry make up
the sum of the limbs below `j`, nothing is written from `j` on, and the carry is a bit. -/
def AddInv (j : ℕ) (state : BitVec 64 × BigUint) : Prop :=
  state.2.len = n + 1 ∧ state.1.toNat ≤ 1 ∧ (∀ t, j ≤ t → state.2.limb t = 0) ∧
    state.2.val + state.1.toNat * (2 ^ 32) ^ j =
      ∑ i ∈ Finset.range j, (a.limb i + b.limb i) * (2 ^ 32) ^ i

theorem addStep_spec {j : ℕ} (hj : j < n) (s : BitVec 64 × BigUint) (h : AddInv a b n j s) :
    ∃ s', addStep a b s j = some s' ∧ AddInv a b n (j + 1) s' := by
  obtain ⟨k, w⟩ := s
  dsimp only [AddInv] at h
  obtain ⟨hlen, hk, hzero, hval⟩ := h
  have hu := toNat_limb64 a j
  have hv := toNat_limb64 b j
  have hau := limb_lt a j
  have hbv := limb_lt b j
  obtain ⟨huv, huv'⟩ := checkedAdd_of_lt (a := ((a.checkedGet j).getD 0).setWidth 64)
    (b := ((b.checkedGet j).getD 0).setWidth 64) (by omega)
  obtain ⟨hs, hs'⟩ := checkedAdd_of_lt (a := ((a.checkedGet j).getD 0).setWidth 64 +
    ((b.checkedGet j).getD 0).setWidth 64) (b := k) (by omega)
  generalize ((a.checkedGet j).getD 0).setWidth 64 + ((b.checkedGet j).getD 0).setWidth 64 + k = s
    at hs hs'
  obtain ⟨w', hset, hlen', hother, hval'⟩ := set_spec (x := w) (i := j) (by omega) ((s % B).setWidth 32)
  refine ⟨(s / B, w'), ?_, hlen'.trans hlen, ?_, fun t ht => ?_, ?_⟩
  · simp only [addStep, huv, hs, hset, Option.bind_eq_bind, Option.bind_some]
    rfl
  · -- `s ≤ 2 (2^32 - 1) + 1`
    change (s / B).toNat ≤ 1
    rw [toNat_div_B]
    omega
  · change w'.limb t = 0
    rw [hother t (by omega), hzero t (by omega)]
  · change w'.val + (s / B).toNat * (2 ^ 32) ^ (j + 1) = _
    have hcarry := lowLimb_add_carry s.toNat ((2 ^ 32) ^ j)
    rw [hzero j le_rfl, toNat_lowLimb, hs', huv', hu, hv] at hval'
    rw [hs', huv', hu, hv] at hcarry
    rw [toNat_div_B, hs', huv', hu, hv, Finset.sum_range_succ, ← hval, pow_succ (2 ^ 32) j]
    linarith

/-- `add`: the value of the sum, in `max(len) + 1` limbs, and no panic. -/
theorem add_spec : ∃ w, a.add b = some w ∧ w.val = a.val + b.val ∧ w.len = max a.len b.len + 1 := by
  have h0 : AddInv a b (max a.len b.len) 0 (0, withCapacity (max a.len b.len + 1)) :=
    ⟨by simp, by simp, fun t _ => limb_withCapacity _ t, by simp⟩
  obtain ⟨⟨k, w⟩, hrun, hinv⟩ :=
    foldlM_range_inv (AddInv a b (max a.len b.len)) h0 fun j s hj => addStep_spec a b _ hj s
  dsimp only [AddInv] at hinv
  obtain ⟨hlen, hk, hzero, hval⟩ := hinv
  obtain ⟨w', hset, hlen', -, hval'⟩ := set_spec (x := w) (i := max a.len b.len) (by omega)
    (k.setWidth 32)
  refine ⟨w', ?_, ?_, hlen'.trans hlen⟩
  · simp only [add, hrun, Option.bind_eq_bind, Option.bind_some]
    exact hset
  · have hk32 : (k.setWidth 32).toNat = k.toNat := by
      rw [BitVec.toNat_setWidth, Nat.mod_eq_of_lt (by omega)]
    simp only [Nat.add_mul, Finset.sum_add_distrib] at hval
    rw [← val_eq_sum_of_le (le_max_left a.len b.len),
      ← val_eq_sum_of_le (le_max_right a.len b.len)] at hval
    rw [hzero _ le_rfl, hk32] at hval'
    omega

end Add

/-! ## `sub` -/

section Sub

variable (a b : BigUint) (n : ℕ)

theorem checkedSub_bind_checkedSub (u v k : BitVec 64) :
    ((checkedSub u v).bind fun v1 => checkedSub v1 k) =
      if v.toNat + k.toNat ≤ u.toNat then some (u - v - k) else none := by
  by_cases huv : v.toNat ≤ u.toNat
  · obtain ⟨h1, h1'⟩ := checkedSub_of_le huv
    rw [h1, Option.bind_some]
    split
    · exact (checkedSub_of_le (by omega)).1
    · exact checkedSub_of_lt (by omega)
  · rw [checkedSub_of_lt (by omega), Option.bind_none, if_neg (by omega)]

theorem subLimb_of_borrow {u v k x y t : BitVec 64} (hle : ¬v.toNat + k.toNat ≤ u.toNat)
    (h1 : checkedAdd u B = some x) (h2 : checkedSub x v = some y) (h3 : checkedSub y k = some t) :
    subLimb u v k = some (t, 1) := by
  simp only [subLimb, checkedSub_bind_checkedSub, if_neg hle, h1, h2, h3, Option.bind_eq_bind,
    Option.bind_some, Option.pure_def]

/-- One limb of `sub`: the limb and the borrow out of it make up `u` less `v` and the borrow in. -/
theorem subLimb_spec {u v k : BitVec 64} (hu : u.toNat < 2 ^ 32) (hv : v.toNat < 2 ^ 32)
    (hk : k.toNat ≤ 1) :
    ∃ t k', subLimb u v k = some (t, k') ∧ t.toNat < 2 ^ 32 ∧ k'.toNat ≤ 1 ∧
      t.toNat + v.toNat + k.toNat = u.toNat + k'.toNat * 2 ^ 32 := by
  have hzero : (0 : BitVec 64).toNat = 0 := rfl
  have hone : (1 : BitVec 64).toNat = 1 := rfl
  by_cases hle : v.toNat + k.toNat ≤ u.toNat
  · have h1 := (checkedSub_of_le (a := u) (b := v) (by omega)).2
    have h2 := (checkedSub_of_le (a := u - v) (b := k) (by omega)).2
    refine ⟨_, 0, by rw [subLimb, checkedSub_bind_checkedSub, if_pos hle], by omega, by omega, ?_⟩
    omega
  · -- the borrow: `u + B - v - k`, in that order so that nothing underflows
    obtain ⟨h1, h1'⟩ := checkedAdd_of_lt (a := u) (b := B) (by rw [toNat_B]; omega)
    rw [toNat_B] at h1'
    obtain ⟨h2, h2'⟩ := checkedSub_of_le (a := u + B) (b := v) (by omega)
    obtain ⟨h3, h3'⟩ := checkedSub_of_le (a := u + B - v) (b := k) (by omega)
    exact ⟨_, 1, subLimb_of_borrow hle h1 h2 h3, by omega, by omega, by omega⟩

/-- The invariant of the loop of `sub` before turn `j`: the limbs written and the subtrahend's
limbs below `j` make up the minuend's limbs below `j` and the borrow; nothing is written from `j`
on, and the borrow is a bit. -/
def SubInv (j : ℕ) (state : BitVec 64 × BigUint) : Prop :=
  state.2.len = max n 1 ∧ state.1.toNat ≤ 1 ∧ (∀ t, j ≤ t → state.2.limb t = 0) ∧
    state.2.val + ∑ i ∈ Finset.range j, b.limb i * (2 ^ 32) ^ i =
      ∑ i ∈ Finset.range j, a.limb i * (2 ^ 32) ^ i + state.1.toNat * (2 ^ 32) ^ j

theorem subStep_spec {j : ℕ} (hj : j < n) (s : BitVec 64 × BigUint) (h : SubInv a b n j s) :
    ∃ s', subStep a b s j = some s' ∧ SubInv a b n (j + 1) s' := by
  obtain ⟨k, w⟩ := s
  dsimp only [SubInv] at h
  obtain ⟨hlen, hk, hzero, hval⟩ := h
  have hu := toNat_limb64 a j
  have hv := toNat_limb64 b j
  obtain ⟨t, k', hlimb, ht, hk', hsum⟩ := subLimb_spec (u := ((a.checkedGet j).getD 0).setWidth 64)
    (v := ((b.checkedGet j).getD 0).setWidth 64) (k := k) (hu ▸ limb_lt a j) (hv ▸ limb_lt b j) hk
  rw [hu, hv] at hsum
  obtain ⟨w', hset, hlen', hother, hval'⟩ := set_spec (x := w) (i := j) (by omega) (t.setWidth 32)
  have ht32 : (t.setWidth 32).toNat = t.toNat := by
    rw [BitVec.toNat_setWidth, Nat.mod_eq_of_lt ht]
  refine ⟨(k', w'), ?_, hlen'.trans hlen, hk', fun i hi => ?_, ?_⟩
  · simp only [subStep, hlimb, hset, Option.bind_eq_bind, Option.bind_some]
    rfl
  · change w'.limb i = 0
    rw [hother i (by omega), hzero i (by omega)]
  · change w'.val + _ = _ + k'.toNat * (2 ^ 32) ^ (j + 1)
    rw [hzero j le_rfl, ht32] at hval'
    have hQ : (t.toNat + b.limb j + k.toNat) * (2 ^ 32) ^ j =
        (a.limb j + k'.toNat * 2 ^ 32) * (2 ^ 32) ^ j := by rw [hsum]
    rw [Finset.sum_range_succ, Finset.sum_range_succ, pow_succ (2 ^ 32) j]
    linarith

/-- `sub`: `Ok` with the difference exactly when the minuend is the larger, `Err` with the
difference plus `2^(32 n)` otherwise, and no panic. -/
theorem sub_spec : ∃ r, a.sub b = some r ∧
    match r with
    | .ok w => b.val ≤ a.val ∧ w.val = a.val - b.val
    | .error w => a.val < b.val ∧ w.val = 2 ^ (32 * max a.len b.len) + a.val - b.val := by
  have h0 : SubInv a b (max a.len b.len) 0 (0, withCapacity (max a.len b.len)) :=
    ⟨by simp, by simp, fun t _ => limb_withCapacity _ t, by simp⟩
  obtain ⟨⟨k, w⟩, hrun, hinv⟩ :=
    foldlM_range_inv (SubInv a b (max a.len b.len)) h0 fun j s hj => subStep_spec a b _ hj s
  dsimp only [SubInv] at hinv
  obtain ⟨-, hk, hzero, hval⟩ := hinv
  rw [← val_eq_sum_of_le (le_max_left a.len b.len), ← val_eq_sum_of_le (le_max_right a.len b.len),
    ← pow_mul] at hval
  have hw := val_lt_of_zero_above hzero
  rw [← pow_mul] at hw
  refine ⟨_, by simp only [sub, hrun, Option.bind_eq_bind, Option.bind_some]; rfl, ?_⟩
  by_cases hk0 : k = 0
  · subst hk0
    rw [if_pos rfl]
    rw [show (0 : BitVec 64).toNat = 0 from rfl, Nat.zero_mul, Nat.add_zero] at hval
    omega
  · have hk1 : k.toNat = 1 := by
      have : k.toNat ≠ 0 := fun h => hk0 (BitVec.eq_of_toNat_eq (by simpa using h))
      omega
    simp only [if_neg hk0]
    rw [hk1, Nat.one_mul] at hval
    omega

end Sub

/-! ## `mul` -/

section Mul

variable (a b : BigUint)

theorem toNat_setWidth64 (x : BitVec 32) : (x.setWidth 64).toNat = x.toNat := by
  rw [BitVec.toNat_setWidth, Nat.mod_eq_of_lt (lt_trans x.isLt (by norm_num))]

theorem mulSingle_spec (x y : BitVec 32) :
    ∃ p, mulSingle x y = some p ∧ p.toNat = x.toNat * y.toNat := by
  have hxy : x.toNat * y.toNat ≤ (2 ^ 32 - 1) * (2 ^ 32 - 1) :=
    Nat.mul_le_mul (Nat.le_sub_one_of_lt x.isLt) (Nat.le_sub_one_of_lt y.isLt)
  obtain ⟨h, h'⟩ := checkedMul_of_lt (a := x.setWidth 64) (b := y.setWidth 64)
    (by rw [toNat_setWidth64, toNat_setWidth64]; omega)
  exact ⟨_, h, by rw [h', toNat_setWidth64, toNat_setWidth64]⟩

/-- The invariant of the inner loop of `mul`, at turn `j` of the outer one and before its own turn
`i`: the limbs written and the carry make up the limbs at the start and `a_j B^j` times the low `i`
limbs of `b`; the limbs from `i + j` on are not touched yet. -/
def MulInnerInv (j : ℕ) (W : BigUint) (i : ℕ) (state : BitVec 32 × BigUint) : Prop :=
  state.2.len = W.len ∧ (∀ t, i + j ≤ t → state.2.limb t = W.limb t) ∧
    state.2.val + state.1.toNat * (2 ^ 32) ^ (i + j) =
      W.val + a.limb j * (2 ^ 32) ^ j * ∑ t ∈ Finset.range i, b.limb t * (2 ^ 32) ^ t

theorem mulInnerStep_spec {j i : ℕ} {W : BigUint} (hj : j < a.len) (hi : i < b.len)
    (hW : j + b.len ≤ W.len) (s : BitVec 32 × BigUint) (h : MulInnerInv a b j W i s) :
    ∃ s', mulInnerStep a b j s i = some s' ∧ MulInnerInv a b j W (i + 1) s' := by
  obtain ⟨k, w⟩ := s
  dsimp only [MulInnerInv] at h
  obtain ⟨hlen, hkeep, hval⟩ := h
  obtain ⟨x, hx, hx'⟩ := get_of_lt hj
  obtain ⟨y, hy, hy'⟩ := get_of_lt hi
  obtain ⟨z, hz, hz'⟩ := get_of_lt (x := w) (i := i + j) (by omega)
  obtain ⟨p, hp, hp'⟩ := mulSingle_spec x y
  -- `(B - 1)^2 + (B - 1) + (B - 1) = B^2 - 1`: neither addition overflows
  have hxy : x.toNat * y.toNat ≤ (2 ^ 32 - 1) * (2 ^ 32 - 1) :=
    Nat.mul_le_mul (Nat.le_sub_one_of_lt x.isLt) (Nat.le_sub_one_of_lt y.isLt)
  have hzB := z.isLt
  have hkB := k.isLt
  obtain ⟨h1, h1'⟩ := checkedAdd_of_lt (a := p) (b := z.setWidth 64)
    (by rw [hp', toNat_setWidth64]; omega)
  obtain ⟨h2, h2'⟩ := checkedAdd_of_lt (a := p + z.setWidth 64) (b := k.setWidth 64)
    (by rw [h1', hp', toNat_setWidth64, toNat_setWidth64]; omega)
  rw [h1', hp', toNat_setWidth64, toNat_setWidth64] at h2'
  generalize p + z.setWidth 64 + k.setWidth 64 = t at h2 h2'
  obtain ⟨w', hset, hlen', hother, hval'⟩ :=
    set_spec (x := w) (i := i + j) (by omega) ((t % B).setWidth 32)
  have hcarry : ((t / B).setWidth 32).toNat = t.toNat / 2 ^ 32 := by
    rw [BitVec.toNat_setWidth, toNat_div_B, Nat.mod_eq_of_lt (by omega)]
  refine ⟨((t / B).setWidth 32, w'), ?_, hlen'.trans hlen, fun t' ht' => ?_, ?_⟩
  · simp only [mulInnerStep, hx, hy, hp, hz, h1, h2, hset, Option.bind_eq_bind, Option.bind_some,
      Option.pure_def]
  · change w'.limb t' = W.limb t'
    rw [hother t' (by omega), hkeep t' (by omega)]
  · change w'.val + ((t / B).setWidth 32).toNat * (2 ^ 32) ^ (i + 1 + j) = _
    have hsplit := lowLimb_add_carry t.toNat ((2 ^ 32) ^ (i + j))
    have hpow : (2 ^ 32) ^ (i + 1 + j) = (2 ^ 32) ^ (i + j) * 2 ^ 32 := by
      rw [← pow_succ, Nat.add_right_comm]
    have hweight : a.limb j * (2 ^ 32) ^ j * (b.limb i * (2 ^ 32) ^ i) =
        a.limb j * b.limb i * (2 ^ 32) ^ (i + j) := by
      rw [Nat.add_comm, pow_add]
      ring
    have hsum : t.toNat * (2 ^ 32) ^ (i + j) =
        (x.toNat * y.toNat + z.toNat + k.toNat) * (2 ^ 32) ^ (i + j) := by rw [h2']
    rw [← hz', toNat_lowLimb] at hval'
    rw [hx', hy'] at hsum
    rw [hcarry, hpow, Finset.sum_range_succ, Nat.mul_add, hweight]
    linarith

/-- The invariant of the outer loop of `mul` before turn `j`: the product of the low `j` limbs of
`a` with `b`, and zeros from limb `j + len(b)` on. -/
def MulInv (j : ℕ) (w : BigUint) : Prop :=
  w.len = max (b.len + a.len) 1 ∧ (∀ t, j + b.len ≤ t → w.limb t = 0) ∧
    w.val = (∑ t ∈ Finset.range j, a.limb t * (2 ^ 32) ^ t) * b.val

theorem mulStep_spec {j : ℕ} (hj : j < a.len) (w : BigUint) (h : MulInv a b j w) :
    ∃ w', mulStep a b w j = some w' ∧ MulInv a b (j + 1) w' := by
  obtain ⟨hlen, hzero, hval⟩ := h
  obtain ⟨x, hx, hx'⟩ := get_of_lt hj
  by_cases hx0 : x = 0
  · -- a zero limb adds nothing: the turn is skipped
    refine ⟨w, ?_, hlen, fun t ht => hzero t (by omega), ?_⟩
    · simp only [mulStep, hx, if_pos hx0, Option.bind_eq_bind, Option.bind_some, Option.pure_def]
    · rw [Finset.sum_range_succ, ← hx', hx0, hval]
      simp
  · have h0 : MulInnerInv a b j w 0 (0, w) := ⟨rfl, fun _ _ => rfl, by simp⟩
    obtain ⟨⟨k, w₁⟩, hrun, hinv⟩ := foldlM_range_inv (MulInnerInv a b j w) h0
      fun i s hi => mulInnerStep_spec a b hj hi (by omega) s
    dsimp only [MulInnerInv] at hinv
    obtain ⟨hlen₁, hkeep₁, hval₁⟩ := hinv
    obtain ⟨w₂, hset, hlen₂, hother₂, hval₂⟩ := set_spec (x := w₁) (i := j + b.len) (by omega) k
    refine ⟨w₂, ?_, by rw [hlen₂, hlen₁, hlen], fun t ht => ?_, ?_⟩
    · simp only [mulStep, hx, if_neg hx0, hrun, hset, Option.bind_eq_bind, Option.bind_some]
    · rw [hother₂ t (by omega), hkeep₁ t (by omega), hzero t (by omega)]
    · -- the carry out of the inner loop lands on limb `j + len(b)`, still zero
      rw [hkeep₁ _ (by omega), hzero _ le_rfl, Nat.add_comm j] at hval₂
      rw [← val_eq_sum b] at hval₁
      rw [Finset.sum_range_succ, Nat.add_mul, ← hval]
      linarith

theorem mul_spec : ∃ w, a.mul b = some w ∧ w.val = a.val * b.val ∧
    w.len = max (a.len + b.len) 1 := by
  have h0 : MulInv a b 0 (withCapacity (b.len + a.len)) :=
    ⟨len_withCapacity _, fun t _ => limb_withCapacity _ t, by simp⟩
  obtain ⟨w, hrun, hlen, -, hval⟩ :=
    foldlM_range_inv (MulInv a b) h0 fun j w hj => mulStep_spec a b hj w
  exact ⟨w, hrun, by rw [hval, ← val_eq_sum], by rw [hlen, Nat.add_comm]⟩

end Mul

/-! ## `div_unit` -/

section DivUnit

variable (a : BigUint) (o : BitVec 32)

theorem divUnitStep_of {r x : BitVec 32} {out out' : BigUint} {d : ℕ} {m t : BitVec 64}
    (hx : a.get d = some x) (h1 : checkedMul (r.setWidth 64) B = some m)
    (h2 : checkedAdd m (x.setWidth 64) = some t) (ho : o ≠ 0)
    (hset : out.set d ((t / o.setWidth 64).setWidth 32) = some out') :
    divUnitStep a o (r, out) d = some ((t % o.setWidth 64).setWidth 32, out') := by
  simp only [divUnitStep, hx, h1, h2, divSingle, if_neg ho, hset, Option.bind_eq_bind,
    Option.bind_some, Option.pure_def]

/-- The invariant of the loop of `div_unit` once the limbs from `d` up are divided: the quotient so
far times the divisor, the remainder at weight `B^d` and the limbs below `d` make up `a`; the
remainder is below the divisor and the quotient's limbs below `d` are not written yet. -/
def DivInv (d : ℕ) (state : BitVec 32 × BigUint) : Prop :=
  state.2.len = max a.len 1 ∧ state.1.toNat < o.toNat ∧ (∀ t, t < d → state.2.limb t = 0) ∧
    a.val = state.2.val * o.toNat + state.1.toNat * (2 ^ 32) ^ d +
      ∑ i ∈ Finset.range d, a.limb i * (2 ^ 32) ^ i

theorem divUnitStep_spec (ho : 1 ≤ o.toNat) {d : ℕ} (hd : d < a.len) (s : BitVec 32 × BigUint)
    (h : DivInv a o (d + 1) s) : ∃ s', divUnitStep a o s d = some s' ∧ DivInv a o d s' := by
  obtain ⟨r, out⟩ := s
  dsimp only [DivInv] at h
  obtain ⟨hlen, hr, hzero, hval⟩ := h
  obtain ⟨x, hx, hx'⟩ := get_of_lt hd
  have hoB := o.isLt
  have hxB := x.isLt
  -- `with_r`: `r B + x < o B ≤ 2^64`, since `r < o`
  have hrB : r.toNat * 2 ^ 32 + 2 ^ 32 ≤ o.toNat * 2 ^ 32 := by
    rw [← Nat.succ_mul]
    exact Nat.mul_le_mul_right _ hr
  have hoB' : o.toNat * 2 ^ 32 ≤ (2 ^ 32 - 1) * 2 ^ 32 :=
    Nat.mul_le_mul_right _ (Nat.le_sub_one_of_lt hoB)
  obtain ⟨h1, h1'⟩ := checkedMul_of_lt (a := r.setWidth 64) (b := B)
    (by rw [toNat_setWidth64, toNat_B]; omega)
  rw [toNat_setWidth64, toNat_B] at h1'
  obtain ⟨h2, h2'⟩ := checkedAdd_of_lt (a := r.setWidth 64 * B) (b := x.setWidth 64)
    (by rw [h1', toNat_setWidth64]; omega)
  rw [h1', toNat_setWidth64] at h2'
  generalize r.setWidth 64 * B + x.setWidth 64 = t at h2 h2'
  have ho64 : (o.setWidth 64).toNat = o.toNat := toNat_setWidth64 o
  have hq : ((t / o.setWidth 64).setWidth 32).toNat = t.toNat / o.toNat := by
    rw [BitVec.toNat_setWidth, BitVec.toNat_udiv, ho64,
      Nat.mod_eq_of_lt ((Nat.div_lt_iff_lt_mul (by omega)).mpr (by rw [Nat.mul_comm]; omega))]
  have hrr : ((t % o.setWidth 64).setWidth 32).toNat = t.toNat % o.toNat := by
    rw [BitVec.toNat_setWidth, BitVec.toNat_umod, ho64,
      Nat.mod_eq_of_lt (lt_trans (Nat.mod_lt _ (by omega)) hoB)]
  have hne : o ≠ 0 := fun h0 => by rw [h0] at ho; exact absurd ho (by decide)
  obtain ⟨out', hset, hlen', hother, hval'⟩ :=
    set_spec (x := out) (i := d) (by omega) ((t / o.setWidth 64).setWidth 32)
  refine ⟨_, divUnitStep_of a o hx h1 h2 hne hset, hlen'.trans hlen, ?_, fun i hi => ?_, ?_⟩
  · change ((t % o.setWidth 64).setWidth 32).toNat < o.toNat
    rw [hrr]
    exact Nat.mod_lt _ (by omega)
  · change out'.limb i = 0
    rw [hother i (by omega), hzero i (by omega)]
  · change a.val = out'.val * o.toNat + ((t % o.setWidth 64).setWidth 32).toNat * (2 ^ 32) ^ d + _
    rw [hzero d (by omega), hq, Nat.zero_mul, Nat.add_zero] at hval'
    have hmul : out'.val * o.toNat = out.val * o.toNat + t.toNat / o.toNat * o.toNat * (2 ^ 32) ^ d := by
      rw [hval']
      ring
    have hdiv : (t.toNat / o.toNat * o.toNat + t.toNat % o.toNat) * (2 ^ 32) ^ d =
        (r.toNat * 2 ^ 32 + a.limb d) * (2 ^ 32) ^ d := by
      rw [Nat.div_add_mod', h2', hx']
    rw [hval, hrr, hmul, Finset.sum_range_succ, pow_succ (2 ^ 32) d]
    linarith

/-- `div_unit`: the quotient by the limb read as at least `1`, and no panic. -/
theorem divUnit_spec : ∃ w, a.divUnit o = some w ∧ w.val = a.val / max o.toNat 1 := by
  have ho : (max o 1).toNat = max o.toNat 1 := by rw [toNat_max]; rfl
  have h0 : DivInv a (max o 1) a.len (0, withCapacity a.len) := by
    refine ⟨len_withCapacity _, by rw [ho]; exact lt_max_of_lt_right Nat.zero_lt_one,
      fun t _ => limb_withCapacity _ t, ?_⟩
    rw [val_withCapacity, ← val_eq_sum]
    simp
  obtain ⟨⟨r, out⟩, hrun, hinv⟩ := foldlM_range_reverse_inv (DivInv a (max o 1)) h0
    fun d s hd => divUnitStep_spec a (max o 1) (by rw [ho]; exact le_max_right _ _) hd s
  dsimp only [DivInv] at hinv
  obtain ⟨-, hr, -, hval⟩ := hinv
  refine ⟨out, by simp only [divUnit, hrun, Option.bind_eq_bind, Option.bind_some, Option.pure_def], ?_⟩
  rw [ho] at hr hval
  rw [pow_zero, Nat.mul_one, Finset.sum_range_zero, Nat.add_zero] at hval
  refine (Nat.div_eq_of_lt_le (by omega) ?_).symm
  rw [Nat.succ_mul]
  omega

end DivUnit

/-! ## The order -/

section Order

/-- Two numbers with a digit above a remainder below `Q` compare digit first, then remainder. -/
theorem compare_mul_add {d e x y Q : ℕ} (hx : x < Q) (hy : y < Q) :
    compare (d * Q + x) (e * Q + y) = (compare d e).then (compare x y) := by
  rcases Nat.lt_trichotomy d e with hde | rfl | hde
  · have hlt : d * Q + x < e * Q + y := calc
      d * Q + x < (d + 1) * Q := by rw [Nat.succ_mul]; omega
      _ ≤ e * Q := Nat.mul_le_mul_right _ hde
      _ ≤ e * Q + y := Nat.le_add_right _ _
    rw [Nat.compare_eq_lt.mpr hlt, Nat.compare_eq_lt.mpr hde]
    rfl
  · rw [Nat.compare_eq_eq.mpr rfl]
    rcases Nat.lt_trichotomy x y with hxy | rfl | hxy
    · rw [Nat.compare_eq_lt.mpr hxy, Nat.compare_eq_lt.mpr (by omega)]
      rfl
    · rw [Nat.compare_eq_eq.mpr rfl, Nat.compare_eq_eq.mpr rfl]
      rfl
    · rw [Nat.compare_eq_gt.mpr hxy, Nat.compare_eq_gt.mpr (by omega)]
      rfl
  · have hgt : e * Q + y < d * Q + x := calc
      e * Q + y < (e + 1) * Q := by rw [Nat.succ_mul]; omega
      _ ≤ d * Q := Nat.mul_le_mul_right _ hde
      _ ≤ d * Q + x := Nat.le_add_right _ _
    rw [Nat.compare_eq_gt.mpr hgt, Nat.compare_eq_gt.mpr hde]
    rfl

theorem cmpSlice_eq_compare {l m : List (BitVec 32)} (h : l.length = m.length) :
    cmpSlice l m = compare (⟨l⟩ : BigUint).val (⟨m⟩ : BigUint).val := by
  induction l generalizing m with
  | nil =>
    cases m with
    | nil => rfl
    | cons e m => simp at h
  | cons d l ih =>
    cases m with
    | nil => simp at h
    | cons e m =>
      have hlen : l.length = m.length := by simpa using h
      have hl : (⟨l⟩ : BigUint).val < (2 ^ 32) ^ l.length := val_lt _
      have hm : (⟨m⟩ : BigUint).val < (2 ^ 32) ^ l.length := hlen ▸ val_lt _
      rw [cmpSlice, ih hlen, val_cons, val_cons, ← hlen, compare_mul_add hl hm]

theorem val_eq_zero_of_findIdx?_none {l : List (BitVec 32)} (h : l.findIdx? (· != 0) = none) :
    (⟨l⟩ : BigUint).val = 0 := by
  rw [List.findIdx?_eq_none_iff] at h
  induction l with
  | nil => rfl
  | cons d l ih =>
    have hd : d = 0 := by simpa using h d List.mem_cons_self
    rw [val_cons, ih fun x hx => h x (List.mem_cons_of_mem _ hx), hd]
    simp

theorem val_drop_of_zero {l : List (BitVec 32)} {i : ℕ}
    (h : ∀ j (hj : j < l.length), j < i → l[j] = 0) :
    (⟨l⟩ : BigUint).val = (⟨l.drop i⟩ : BigUint).val := by
  induction i generalizing l with
  | zero => rfl
  | succ i ih =>
    cases l with
    | nil => rfl
    | cons d l =>
      have hd : d = 0 := h 0 (by simp) (by omega)
      rw [val_cons, List.drop_succ_cons,
        ← ih fun j hj hji => h (j + 1) (by simp only [List.length_cons]; omega) (by omega), hd]
      simp

theorem val_drop_of_findIdx? {l : List (BitVec 32)} {i : ℕ} (h : l.findIdx? (· != 0) = some i) :
    ∃ d r, l.drop i = d :: r ∧ d ≠ 0 ∧ (⟨l⟩ : BigUint).val = (⟨d :: r⟩ : BigUint).val := by
  obtain ⟨hi, hne, hzero⟩ := List.findIdx?_eq_some_iff_getElem.mp h
  refine ⟨l[i], l.drop (i + 1), List.drop_eq_getElem_cons hi, by simpa using hne, ?_⟩
  rw [← List.drop_eq_getElem_cons hi]
  exact val_drop_of_zero fun j _ hji => by simpa using hzero j hji

theorem pow_le_val_cons {d : BitVec 32} (hd : d ≠ 0) (r : List (BitVec 32)) :
    (2 ^ 32) ^ r.length ≤ (⟨d :: r⟩ : BigUint).val := by
  have hd1 : 1 ≤ d.toNat :=
    Nat.one_le_iff_ne_zero.mpr fun h => hd (BitVec.eq_of_toNat_eq (by simpa using h))
  rw [val_cons]
  calc (2 ^ 32) ^ r.length = 1 * (2 ^ 32) ^ r.length := (Nat.one_mul _).symm
    _ ≤ d.toNat * (2 ^ 32) ^ r.length := Nat.mul_le_mul_right _ hd1
    _ ≤ _ := Nat.le_add_right _ _

theorem val_lt_of_length_lt (d : BitVec 32) {e : BitVec 32} {r s : List (BitVec 32)} (he : e ≠ 0)
    (h : r.length < s.length) : (⟨d :: r⟩ : BigUint).val < (⟨e :: s⟩ : BigUint).val :=
  calc (⟨d :: r⟩ : BigUint).val < (2 ^ 32) ^ (r.length + 1) := val_lt _
    _ ≤ (2 ^ 32) ^ s.length := Nat.pow_le_pow_right (by norm_num) h
    _ ≤ _ := pow_le_val_cons he s

theorem getElem_eq_zero_of_lt_findIdx? (l : List (BitVec 32)) (k : ℕ) :
    ∀ j (hj : j < l.length), j < (l.findIdx? (· != 0)).getD k → l[j] = 0 := by
  intro j hj hjk
  cases h : l.findIdx? (· != 0) with
  | none =>
    rw [List.findIdx?_eq_none_iff] at h
    simpa using h l[j] (List.getElem_mem hj)
  | some i =>
    rw [h, Option.getD_some] at hjk
    obtain ⟨hi, -, hzero⟩ := List.findIdx?_eq_some_iff_getElem.mp h
    simpa using hzero j hjk

theorem val_lstrip (x : BigUint) : x.lstrip.val = x.val := by
  obtain ⟨l⟩ := x
  unfold lstrip
  dsimp only
  split_ifs
  · rfl
  · exact (val_drop_of_zero (getElem_eq_zero_of_lt_findIdx? l _)).symm
  · rfl

theorem isZero_iff (x : BigUint) : x.isZero = true ↔ x.val = 0 := by
  obtain ⟨l⟩ := x
  induction l with
  | nil => exact iff_of_true rfl rfl
  | cons d l ih =>
    have hpow : 0 < (2 ^ 32) ^ l.length := Nat.pow_pos (by norm_num)
    have hd : d = 0 ↔ d.toNat = 0 := ⟨fun h => by rw [h]; rfl, fun h => BitVec.eq_of_toNat_eq h⟩
    change (d == 0 && (⟨l⟩ : BigUint).isZero) = true ↔ _
    rw [Bool.and_eq_true, beq_iff_eq, ih, val_cons, hd, Nat.add_eq_zero_iff, Nat.mul_eq_zero,
      or_iff_left hpow.ne']

/-- `cmp` is the order of the values, leading zero limbs and all. -/
theorem cmp_eq_compare (a b : BigUint) : a.cmp b = compare a.val b.val := by
  obtain ⟨l⟩ := a
  obtain ⟨m⟩ := b
  unfold cmp
  dsimp only
  rcases ha : l.findIdx? (· != 0) with _ | i <;> rcases hb : m.findIdx? (· != 0) with _ | j
  · rw [val_eq_zero_of_findIdx?_none ha, val_eq_zero_of_findIdx?_none hb]
    rfl
  · -- only `b` has a non-zero limb
    obtain ⟨e, s, -, he, hm⟩ := val_drop_of_findIdx? hb
    rw [val_eq_zero_of_findIdx?_none ha,
      Nat.compare_eq_lt.mpr (hm ▸ lt_of_lt_of_le (by positivity) (pow_le_val_cons he s))]
  · obtain ⟨d, r, -, hd, hl⟩ := val_drop_of_findIdx? ha
    rw [val_eq_zero_of_findIdx?_none hb,
      Nat.compare_eq_gt.mpr (hl ▸ lt_of_lt_of_le (by positivity) (pow_le_val_cons hd r))]
  · -- both have: from their first non-zero limbs on, by the number of limbs, then lexicographically
    obtain ⟨d, r, hdrop, hd, hl⟩ := val_drop_of_findIdx? ha
    obtain ⟨e, s, hdrop', he, hm⟩ := val_drop_of_findIdx? hb
    dsimp only
    rw [hdrop, hdrop', hl, hm]
    rcases Nat.lt_trichotomy r.length s.length with hrs | hrs | hrs
    · rw [Nat.compare_eq_lt.mpr (by simpa using hrs),
        Nat.compare_eq_lt.mpr (val_lt_of_length_lt d he hrs)]
    · rw [Nat.compare_eq_eq.mpr (by simp [hrs])]
      exact cmpSlice_eq_compare (by simp [hrs])
    · rw [Nat.compare_eq_gt.mpr (by simpa using hrs),
        Nat.compare_eq_gt.mpr (val_lt_of_length_lt e hd hrs)]

theorem eq_eq_decide (a b : BigUint) : a.eq b = decide (a.val = b.val) := by
  rw [eq, cmp_eq_compare, Bool.eq_iff_iff, beq_iff_eq, Nat.compare_eq_eq, decide_eq_true_iff]

end Order

/-- The arithmetic of `BigUint` on the values of any limbs, leading zeros and no limbs at all
included: `add`, `sub`, `mul` and `div_unit` never panic and compute the sum, the difference (or
its complement on a borrow), the product and the quotient, and the order is that of the values.
`mul` gives `len + len` limbs, but one limb for two vectors of none. -/
theorem arith_values (a b : BigUint) (d : BitVec 32) :
    (∃ w, a.add b = some w ∧ w.val = a.val + b.val ∧ w.len = max a.len b.len + 1) ∧
    (∃ r, a.sub b = some r ∧
      match r with
      | .ok w => b.val ≤ a.val ∧ w.val = a.val - b.val
      | .error w => a.val < b.val ∧ w.val = 2 ^ (32 * max a.len b.len) + a.val - b.val) ∧
    (∃ w, a.mul b = some w ∧ w.val = a.val * b.val ∧ w.len = max (a.len + b.len) 1) ∧
    (∃ w, a.divUnit d = some w ∧ w.val = a.val / max d.toNat 1) ∧
    a.cmp b = compare a.val b.val ∧ (a.eq b = true ↔ a.val = b.val) := by
  refine ⟨add_spec a b, sub_spec a b, mul_spec a b, divUnit_spec a d, cmp_eq_compare a b, ?_⟩
  rw [eq_eq_decide, decide_eq_true_iff]

/-- Two vectors of no limbs (`Default`, or decoded) multiply to one limb, not to `0 + 0`:
`with_capacity` never allocates fewer than one. -/
theorem mul_nil_len :
    ∃ w, (⟨[]⟩ : BigUint).mul ⟨[]⟩ = some w ∧ w.len ≠ (⟨[]⟩ : BigUint).len + (⟨[]⟩ : BigUint).len :=
  ⟨⟨[0]⟩, rfl, by decide⟩

end BigUint

end PolkadotSdk.Arithmetic
