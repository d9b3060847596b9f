import PolkadotSdk.Staking.Ledger
import Mathlib.Data.List.Nodup

/-!
# What `slash` takes

`slash_out_of` takes some `x` from each target it visits (`slashOutOf_spec`): at least the
target's share capped by the target and by what remains to slash, and more than what remains only
when the rest of the target is dust. The loop over the chunks then keeps
`total = active + Σ chunks` and `remaining = slash - taken` (`Slashed`, `slashChunks_spec`), and
stops once nothing remains, so that at most one target goes past the slash, by less than the
minimum balance. A loop that ends with something left has taken every target's due in full
(`slashChunks_due`): all of every target when the slash is not proportional, and its share,
rounded up, when it is; those shares add up to at least the slash.
-/

namespace PolkadotSdk.Staking

open PolkadotSdk.Arithmetic PolkadotSdk.Lib.Unsigned Rational PerThings

variable {B : UnsignedPrim}

theorem toNat_eq_zero_iff {w : ℕ} {x : BitVec w} : x.toNat = 0 ↔ x = 0 :=
  ⟨fun h => BitVec.eq_of_toNat_eq (h.trans BitVec.toNat_zero.symm), by rintro rfl; rfl⟩

/-- The value of the chunk at index `i`, zero past the end. -/
def valueAt (u : List (UnlockChunk B)) (i : ℕ) : ℕ := (u[i]?.map fun c => c.value.toNat).getD 0

section ValueAt

theorem valueAt_of_lt {u : List (UnlockChunk B)} {i : ℕ} (h : i < u.length) :
    valueAt u i = u[i].value.toNat := by
  simp [valueAt, List.getElem?_eq_getElem h]

theorem valueAt_set_ne (u : List (UnlockChunk B)) {i j : ℕ} (h : i ≠ j) (c : UnlockChunk B) :
    valueAt (u.set i c) j = valueAt u j := by
  simp only [valueAt, List.getElem?_set_ne h]

theorem sum_valueAt_range' (f : ℕ → ℕ) (u : List (UnlockChunk B)) (n : ℕ) :
    ∀ a, a + n ≤ u.length →
      ((List.range' a n).map fun i => f (valueAt u i)).sum =
        (((u.drop a).take n).map fun c => f c.value.toNat).sum := by
  induction n with
  | zero => intro a _; simp
  | succ n ih =>
    intro a ha
    rw [List.range'_succ, List.drop_eq_getElem_cons (by omega), List.take_succ_cons,
      List.map_cons, List.sum_cons, List.map_cons, List.sum_cons, valueAt_of_lt (by omega),
      ih (a + 1) (by omega)]

end ValueAt

namespace StakingLedger

/-- Every chunk of `u` is in `u'` at the same index, with its era and at most its value. -/
def Lowers (u u' : List (UnlockChunk B)) : Prop :=
  ∀ (i : ℕ) (c : UnlockChunk B), u[i]? = some c →
    ∃ c' : UnlockChunk B, u'[i]? = some c' ∧ c'.era = c.era ∧ c'.value.toNat ≤ c.value.toNat

theorem Lowers.refl (u : List (UnlockChunk B)) : Lowers u u :=
  fun _ c hc => ⟨c, hc, rfl, le_rfl⟩

theorem Lowers.trans {u u' u'' : List (UnlockChunk B)} (h : Lowers u u') (h' : Lowers u' u'') :
    Lowers u u'' := by
  intro i c hc
  obtain ⟨c', hc', hera, hval⟩ := h i c hc
  obtain ⟨c'', hc'', hera', hval'⟩ := h' i c' hc'
  exact ⟨c'', hc'', hera'.trans hera, hval'.trans hval⟩

/-- What the loop over the chunks keeps, for an `active` balance `A`, from the chunks `u` with
`remaining` and `total` to the chunks `u'` with `remaining'` and `total'` (as naturals): the
balance, `remaining = slash - taken`, a stop once nothing remains, a taking past `remaining` by
less than `max(minimumBalance, 1)`, and every chunk lowered in place. -/
structure Slashed (A minimumBalance : ℕ) (u : List (UnlockChunk B)) (remaining total : ℕ)
    (u' : List (UnlockChunk B)) (remaining' total' : ℕ) : Prop where
  balance : total' = A + chunkSum u'
  total_le : total' ≤ total
  remaining_eq : remaining' = remaining - (total - total')
  stops : remaining = 0 → total' = total
  taken_lt : total - total' < remaining + max minimumBalance 1
  length_eq : u'.length = u.length
  lowers : Lowers u u'

namespace Slashed

variable {A mb : ℕ} {u u' v : List (UnlockChunk B)} {remaining total remaining' total' : ℕ}

theorem refl (hbal : total = A + chunkSum u) : Slashed A mb u remaining total u remaining total :=
  ⟨hbal, le_rfl, by omega, fun _ => rfl, by omega, rfl, Lowers.refl u⟩

/-- A first target that gives `x` with something left to slash, then the rest of the loop: only
a first target that takes the remaining slash to zero may go past it. -/
theorem step {x : ℕ} (hrem : remaining ≠ 0) (hx : x ≤ total)
    (hover : x ≤ remaining ∨ x < remaining + mb) (hlen : u'.length = u.length) (hlow : Lowers u u')
    (h : Slashed A mb u' (remaining - x) (total - x) v remaining' total') :
    Slashed A mb u remaining total v remaining' total' where
  balance := h.balance
  total_le := by have := h.total_le; omega
  remaining_eq := by have := h.remaining_eq; have := h.total_le; omega
  stops h0 := absurd h0 hrem
  taken_lt := by
    by_cases hle : x ≤ remaining
    · have := h.taken_lt; have := h.total_le; omega
    · -- the target took the rest of the slash and its dust: the loop stops after it
      have := hover.resolve_left hle
      have := h.stops (by omega)
      omega
  length_eq := h.length_eq.trans hlen
  lowers := hlow.trans h.lowers

end Slashed

section Targets

variable (maybeProportional : Option Perquintill) (minimumBalance : BitVec B.bits)

/-- **One target.** `slash_out_of` takes some `x` off the target, the remaining slash and the
total: at least the target's share capped by the target and by the remaining slash, and more than
the remaining slash only by dust, which is below `minimum_balance`. -/
theorem slashOutOf_spec (target slashRemaining total : BitVec B.bits) :
    ∃ x, x ≤ target.toNat ∧
      (slashOutOf maybeProportional minimumBalance target slashRemaining total).1.toNat =
        target.toNat - x ∧
      (slashOutOf maybeProportional minimumBalance target slashRemaining total).2.1.toNat =
        slashRemaining.toNat - x ∧
      (slashOutOf maybeProportional minimumBalance target slashRemaining total).2.2.toNat =
        total.toNat - x ∧
      min (min (slashShare maybeProportional target slashRemaining).toNat target.toNat)
        slashRemaining.toNat ≤ x ∧
      (x ≤ slashRemaining.toNat ∨ x < slashRemaining.toNat + minimumBalance.toNat) := by
  set s := min (min (slashShare maybeProportional target slashRemaining) target) slashRemaining
    with hs
  have hsval : s.toNat = min (min (slashShare maybeProportional target slashRemaining).toNat
      target.toNat) slashRemaining.toNat := by
    rw [hs, toNat_min, toNat_min]
  have hle : s.toNat ≤ target.toNat := by omega
  have hsub : (target - s).toNat = target.toNat - s.toNat :=
    BitVec.toNat_sub_of_le (BitVec.le_def.mpr hle)
  by_cases hdust : target - s < minimumBalance
  · -- the rest of the target is dust: all of it is taken
    have hall : (saturatingAdd (target - s) s).toNat = target.toNat := by
      have := target.isLt
      rw [toNat_saturatingAdd, hsub]
      omega
    refine ⟨target.toNat, le_rfl, ?_, ?_, ?_, by omega, .inr ?_⟩
    · simp only [slashOutOf, ← hs, if_pos hdust]
      simp
    · simp only [slashOutOf, ← hs, if_pos hdust, toNat_saturatingSub, hall]
    · simp only [slashOutOf, ← hs, if_pos hdust, toNat_saturatingSub, hall]
    · rw [BitVec.lt_def, hsub] at hdust
      omega
  · refine ⟨s.toNat, hle, ?_, ?_, ?_, by omega, .inl (by omega)⟩
    · simp only [slashOutOf, ← hs, if_neg hdust, hsub]
    · simp only [slashOutOf, ← hs, if_neg hdust, toNat_saturatingSub]
    · simp only [slashOutOf, ← hs, if_neg hdust, toNat_saturatingSub]

end Targets

theorem lowers_set (u : List (UnlockChunk B)) {i : ℕ} (hi : i < u.length) (v : BitVec B.bits)
    (hv : v.toNat ≤ u[i].value.toNat) : Lowers u (u.set i { u[i] with value := v }) := by
  intro j c hc
  by_cases hij : i = j
  · subst hij
    rw [List.getElem?_eq_getElem hi] at hc
    obtain rfl := Option.some.inj hc
    exact ⟨_, List.getElem?_set_self hi, rfl, hv⟩
  · exact ⟨c, by rw [List.getElem?_set_ne hij, hc], rfl, le_rfl⟩

section Loop

variable (maybeProportional : Option Perquintill) (minimumBalance : BitVec B.bits)

theorem slashChunks_of_eq_zero (is : List ℕ) (u : List (UnlockChunk B)) (total : BitVec B.bits) :
    slashChunks maybeProportional minimumBalance is u 0 total = (u, 0, total) := by
  cases is <;> simp [slashChunks]

theorem slashChunks_cons (i : ℕ) (is : List ℕ) (u : List (UnlockChunk B)) (hi : i < u.length)
    (remaining total : BitVec B.bits) (hrem : remaining ≠ 0) :
    slashChunks maybeProportional minimumBalance (i :: is) u remaining total =
      slashChunks maybeProportional minimumBalance is
        (u.set i { u[i] with value :=
          (slashOutOf maybeProportional minimumBalance u[i].value remaining total).1 })
        (slashOutOf maybeProportional minimumBalance u[i].value remaining total).2.1
        (slashOutOf maybeProportional minimumBalance u[i].value remaining total).2.2 := by
  rw [slashChunks, if_neg hrem, List.getElem?_eq_getElem hi]

/-- Over indices in range, the loop over `is ++ js` is the loop over `is` followed by the loop
over `js`. -/
theorem slashChunks_append (is js : List ℕ) :
    ∀ (u : List (UnlockChunk B)) (remaining total : BitVec B.bits), (∀ i ∈ is, i < u.length) →
      slashChunks maybeProportional minimumBalance (is ++ js) u remaining total =
        slashChunks maybeProportional minimumBalance js
          (slashChunks maybeProportional minimumBalance is u remaining total).1
          (slashChunks maybeProportional minimumBalance is u remaining total).2.1
          (slashChunks maybeProportional minimumBalance is u remaining total).2.2 := by
  induction is with
  | nil => intro u remaining total _; rfl
  | cons i is ih =>
    intro u remaining total hin
    have hi := hin i List.mem_cons_self
    by_cases hrem : remaining = 0
    · subst hrem
      rw [slashChunks_of_eq_zero, slashChunks_of_eq_zero, slashChunks_of_eq_zero]
    · rw [List.cons_append, slashChunks_cons _ _ i _ u hi _ _ hrem,
        slashChunks_cons _ _ i _ u hi _ _ hrem]
      exact ih _ _ _ fun j hj => by rw [List.length_set]; exact hin j (List.mem_cons_of_mem _ hj)

/-- **The loop keeps the balance** (`Slashed`), and leaves the chunks at other indices alone. -/
theorem slashChunks_spec (A : ℕ) (is : List ℕ) :
    ∀ (u : List (UnlockChunk B)) (remaining total : BitVec B.bits), (∀ i ∈ is, i < u.length) →
      total.toNat = A + chunkSum u →
      Slashed A minimumBalance.toNat u remaining.toNat total.toNat
          (slashChunks maybeProportional minimumBalance is u remaining total).1
          (slashChunks maybeProportional minimumBalance is u remaining total).2.1.toNat
          (slashChunks maybeProportional minimumBalance is u remaining total).2.2.toNat ∧
        ∀ j, j ∉ is → (slashChunks maybeProportional minimumBalance is u remaining total).1[j]? =
          u[j]? := by
  induction is with
  | nil => exact fun u remaining total _ hbal => ⟨.refl hbal, fun _ _ => rfl⟩
  | cons i is ih =>
    intro u remaining total hin hbal
    have hi := hin i List.mem_cons_self
    by_cases hrem : remaining = 0
    · subst hrem
      rw [slashChunks_of_eq_zero]
      exact ⟨.refl hbal, fun _ _ => rfl⟩
    have hrem' : remaining.toNat ≠ 0 := fun h => hrem (BitVec.eq_of_toNat_eq h)
    have hci : u[i].value.toNat ≤ chunkSum u := le_chunkSum_of_mem (List.getElem_mem hi)
    rw [slashChunks_cons _ _ i _ u hi _ _ hrem]
    obtain ⟨x, hx, htarget, hremaining, htotal, -, hover⟩ := slashOutOf_spec maybeProportional
      minimumBalance u[i].value remaining total
    generalize slashOutOf maybeProportional minimumBalance u[i].value remaining total = o
      at htarget hremaining htotal ⊢
    have hsum := chunkSum_set u hi { u[i] with value := o.1 }
    -- the rest of the loop runs from the chunk written back, with `x` taken
    obtain ⟨h, hframe⟩ := ih (u.set i { u[i] with value := o.1 }) o.2.1 o.2.2
      (fun j hj => by rw [List.length_set]; exact hin j (List.mem_cons_of_mem _ hj))
      (by dsimp only at hsum ⊢; omega)
    rw [hremaining, htotal] at h
    refine ⟨h.step hrem' (by omega) hover List.length_set (lowers_set u hi _ (by omega)),
      fun j hj => ?_⟩
    have hij : i ≠ j := by
      rintro rfl
      exact hj List.mem_cons_self
    rw [hframe j fun h' => hj (List.mem_cons_of_mem _ h'), List.getElem?_set_ne hij]

/-- **A loop that ends with something left has taken every target's due.** When each target gives
at least `due` of its value, capped by the remaining slash, a loop over distinct indices that ends
with something left has taken at least the dues of all its chunks. -/
theorem slashChunks_due (due : ℕ → ℕ)
    (hdue : ∀ target remaining : BitVec B.bits, min (due target.toNat) remaining.toNat ≤
      min (min (slashShare maybeProportional target remaining).toNat target.toNat)
        remaining.toNat)
    (A : ℕ) (is : List ℕ) :
    ∀ (u : List (UnlockChunk B)) (remaining total : BitVec B.bits), is.Nodup →
      (∀ i ∈ is, i < u.length) → total.toNat = A + chunkSum u →
      (slashChunks maybeProportional minimumBalance is u remaining total).2.1 ≠ 0 →
      (is.map fun i => due (valueAt u i)).sum ≤
        total.toNat - (slashChunks maybeProportional minimumBalance is u remaining total).2.2.toNat := by
  induction is with
  | nil => intro u remaining total _ _ _ _; simp
  | cons i is ih =>
    intro u remaining total hnd hin hbal hleft
    have hi := hin i List.mem_cons_self
    by_cases hrem : remaining = 0
    · subst hrem
      rw [slashChunks_of_eq_zero] at hleft
      exact absurd rfl hleft
    have hci : u[i].value.toNat ≤ chunkSum u := le_chunkSum_of_mem (List.getElem_mem hi)
    rw [slashChunks_cons _ _ i _ u hi _ _ hrem] at hleft ⊢
    obtain ⟨x, hx, htarget, hremaining, htotal, hlow, -⟩ := slashOutOf_spec maybeProportional
      minimumBalance u[i].value remaining total
    have hd := hdue u[i].value remaining
    generalize slashOutOf maybeProportional minimumBalance u[i].value remaining total = o
      at htarget hremaining htotal hlow hleft ⊢
    have hsum := chunkSum_set u hi { u[i] with value := o.1 }
    have hin' : ∀ j ∈ is, j < (u.set i { u[i] with value := o.1 }).length := fun j hj => by
      rw [List.length_set]; exact hin j (List.mem_cons_of_mem _ hj)
    have hbal' : o.2.2.toNat = A + chunkSum (u.set i { u[i] with value := o.1 }) := by
      dsimp only at hsum ⊢; omega
    obtain ⟨hnotin, hnd'⟩ := List.nodup_cons.mp hnd
    have hrest := ih _ o.2.1 o.2.2 hnd' hin' hbal' hleft
    have hs := (slashChunks_spec maybeProportional minimumBalance A is _ o.2.1 o.2.2 hin' hbal').1
    -- something is left after the first target, so it gave its whole due
    have hleft' : (slashChunks maybeProportional minimumBalance is
        (u.set i { u[i] with value := o.1 }) o.2.1 o.2.2).2.1.toNat ≠ 0 := mt toNat_eq_zero_iff.mp hleft
    have hrem1 := hs.remaining_eq
    have hlt : x < remaining.toNat := by omega
    have hdx : due (valueAt u i) ≤ x := by rw [valueAt_of_lt hi]; omega
    -- the other indices still see their first values
    have hmap : (is.map fun j => due (valueAt (u.set i { u[i] with value := o.1 }) j)) =
        is.map fun j => due (valueAt u j) :=
      List.map_congr_left fun j hj => by
        rw [valueAt_set_ne u (fun h => hnotin (by rw [h]; exact hj))]
    rw [List.map_cons, List.sum_cons, ← hmap]
    have := hs.total_le
    omega

end Loop

/-! ## The plan of a slash -/

section Plan

variable (bondingDuration : BitVec 32) (l : StakingLedger B) (slashAmount : BitVec B.bits)
  (slashEra : BitVec 32)

theorem slashPlan_of_none
    (h : l.unlocking.findIdx? (fun c => c.era ≥ saturatingAdd slashEra bondingDuration) = none) :
    l.slashPlan bondingDuration slashAmount slashEra =
      (none, (List.range l.unlocking.length).reverse) := by
  rw [slashPlan]
  simp only [h]

theorem slashPlan_of_some {first : ℕ}
    (h : l.unlocking.findIdx? (fun c => c.era ≥ saturatingAdd slashEra bondingDuration) =
      some first) :
    l.slashPlan bondingDuration slashAmount slashEra =
      (some (proportionalRatio slashAmount
          (saturatingAdd l.active (l.unbondingAffectedBalance first))),
        List.range' first (l.unlocking.length - first) ++ (List.range first).reverse) := by
  rw [slashPlan]
  simp only [h]

/-- The chunks from index `first` on, then the earlier ones backwards: every index once. -/
theorem affected_append_rest {u : List (UnlockChunk B)} {first : ℕ} (hfirst : first ≤ u.length) :
    (∀ i ∈ List.range' first (u.length - first) ++ (List.range first).reverse, i < u.length) ∧
      (List.range' first (u.length - first) ++ (List.range first).reverse).Nodup ∧
      ∀ f : ℕ → ℕ,
        ((List.range' first (u.length - first) ++ (List.range first).reverse).map
          fun i => f (valueAt u i)).sum = (u.map fun c => f c.value.toNat).sum := by
  refine ⟨fun i hi => ?_, ?_, fun f => ?_⟩
  · rcases List.mem_append.mp hi with hi | hi
    · obtain ⟨k, hk, rfl⟩ := List.mem_range'.mp hi
      omega
    · have := List.mem_range.mp (List.mem_reverse.mp hi)
      omega
  · refine List.nodup_append.mpr ⟨List.nodup_range', (List.nodup_reverse).mpr List.nodup_range,
      fun a ha b hb => ?_⟩
    obtain ⟨k, hk, rfl⟩ := List.mem_range'.mp ha
    have := List.mem_range.mp (List.mem_reverse.mp hb)
    omega
  · rw [List.map_append, List.sum_append, List.map_reverse, List.sum_reverse,
      List.range_eq_range', sum_valueAt_range' f u _ first (by omega),
      sum_valueAt_range' f u _ 0 (by omega), List.drop_zero,
      List.take_of_length_le (l := u.drop first) (by simp), Nat.add_comm, ← List.sum_append,
      ← List.map_append, List.take_append_drop]

theorem range_reverse_spec (u : List (UnlockChunk B)) :
    (∀ i ∈ (List.range u.length).reverse, i < u.length) ∧
      (List.range u.length).reverse.Nodup ∧
      ∀ f : ℕ → ℕ, (((List.range u.length).reverse).map fun i => f (valueAt u i)).sum =
        (u.map fun c => f c.value.toNat).sum := by
  have h := affected_append_rest (u := u) le_rfl
  rwa [Nat.sub_self, List.range'_zero, List.nil_append] at h

/-- Summing with saturation, over indices in range. -/
theorem toNat_foldl_saturatingAdd (u : List (UnlockChunk B))
    (F : BitVec B.bits → ℕ → BitVec B.bits)
    (hF : ∀ acc i (hi : i < u.length), F acc i = saturatingAdd acc u[i].value) (n : ℕ) :
    ∀ a acc, a + n ≤ u.length →
      (List.foldl F acc (List.range' a n)).toNat =
        min (acc.toNat + ((List.range' a n).map fun i => valueAt u i).sum) (2 ^ B.bits - 1) := by
  induction n with
  | zero =>
    intro a acc _
    have := acc.isLt
    simp only [List.range'_zero, List.foldl_nil, List.map_nil, List.sum_nil]
    omega
  | succ n ih =>
    intro a acc ha
    rw [List.range'_succ, List.foldl_cons, hF acc a (by omega), ih (a + 1) _ (by omega),
      toNat_saturatingAdd, List.map_cons, List.sum_cons, valueAt_of_lt (by omega)]
    omega

theorem toNat_unbondingAffectedBalance (l : StakingLedger B) {first : ℕ}
    (hfirst : first ≤ l.unlocking.length) (hsum : chunkSum (l.unlocking.drop first) < 2 ^ B.bits) :
    (l.unbondingAffectedBalance first).toNat = chunkSum (l.unlocking.drop first) := by
  unfold unbondingAffectedBalance
  rw [toNat_foldl_saturatingAdd l.unlocking _
      (fun acc i hi => by simp only [List.getElem?_eq_getElem hi]) _ first 0 (by omega),
    sum_valueAt_range' (fun x => x) l.unlocking _ first (by omega),
    List.take_of_length_le (l := l.unlocking.drop first) (by simp)]
  have : (0 : BitVec B.bits).toNat = 0 := rfl
  unfold chunkSum at hsum ⊢
  omega

end Plan

/-! ## The ratio of a proportional slash -/

theorem divRound_up_mul_self {d : ℕ} (hd : 0 < d) (k : ℕ) : Rounding.up.divRound (k * d) d = k := by
  have h := Rounding.divRound_mul_add .up hd k 0
  rw [Nat.add_zero, Nat.mul_comm] at h
  rw [h, Rounding.divRound, Nat.zero_add, Nat.div_eq_of_lt (by omega), Nat.add_zero]

theorem mul_sum_le_sum_divRound_up (r : ℕ) {d : ℕ} (hd : 0 < d) (as : List ℕ) :
    r * as.sum ≤ d * (as.map fun a => Rounding.up.divRound (a * r) d).sum := by
  induction as with
  | nil => simp
  | cons a as ih =>
    have hdiv := Nat.div_add_mod (a * r + d - 1) d
    have hmod := Nat.mod_lt (a * r + d - 1) hd
    rw [List.map_cons, List.sum_cons, List.sum_cons, Rounding.divRound, Nat.mul_add, Nat.mul_add,
      Nat.mul_comm r a]
    omega

/-- **Rounded-up shares of a rounded-up ratio cover the whole.** With the ratio
`r = ⌈s d / Σ a_i⌉`, the shares `⌈a_i r / d⌉` add up to at least `s`. -/
theorem le_sum_divRound_up (s : ℕ) {d : ℕ} (hd : 0 < d) (as : List ℕ) (h0 : 0 < as.sum) :
    s ≤ (as.map fun a => Rounding.up.divRound (a * Rounding.up.divRound (s * d) as.sum) d).sum := by
  set r := Rounding.up.divRound (s * d) as.sum with hr
  -- the ratio, rounded up, times the whole is at least `s d`
  have hceil : s * d ≤ r * as.sum := by
    have hdiv := Nat.div_add_mod (s * d + as.sum - 1) as.sum
    have hmod := Nat.mod_lt (s * d + as.sum - 1) h0
    rw [hr, Rounding.divRound, Nat.mul_comm _ as.sum]
    omega
  have key : d * s ≤ d * (as.map fun a => Rounding.up.divRound (a * r) d).sum :=
    calc d * s
        = s * d := Nat.mul_comm _ _
      _ ≤ r * as.sum := hceil
      _ ≤ _ := mul_sum_le_sum_divRound_up r hd as
  exact Nat.le_of_mul_le_mul_left key hd

/-- The due of a target under a proportional ratio: its share, rounded up. -/
def ratioDue (ratio : Perquintill) (t : ℕ) : ℕ :=
  Rounding.up.divRound (t * ratio.toNat) PerThingType.perquintill.accuracy

section Ratio

variable (hN : PerThingType.perquintill.inner.bits ≤ B.bits)
include hN

theorem toNat_mulCeil (ratio : Perquintill)
    (hratio : ratio.toNat ≤ PerThingType.perquintill.accuracy) (t : BitVec B.bits) :
    (PerThingType.perquintill.mulCeil B ratio t).toNat =
      Rounding.up.divRound (t.toNat * ratio.toNat) PerThingType.perquintill.accuracy :=
  PerThingType.toNat_overflowPruneMul hN t ratio hratio .up

theorem toNat_proportionalRatio_of_lt (slashAmount affectedBalance : BitVec B.bits)
    (h : affectedBalance = 0 ∨ affectedBalance < slashAmount) :
    (proportionalRatio slashAmount affectedBalance).toNat = PerThingType.perquintill.accuracy := by
  rw [proportionalRatio, PerThingType.fromRationalWithRounding_eq hN, if_pos h]
  exact PerThingType.toNat_accuracyInner _

theorem toNat_proportionalRatio_of_le {slashAmount affectedBalance : BitVec B.bits}
    (h0 : affectedBalance ≠ 0) (hle : slashAmount ≤ affectedBalance) :
    (proportionalRatio slashAmount affectedBalance).toNat =
        Rounding.up.divRound (slashAmount.toNat * PerThingType.perquintill.accuracy)
          affectedBalance.toNat ∧
      (proportionalRatio slashAmount affectedBalance).toNat ≤
        PerThingType.perquintill.accuracy := by
  obtain ⟨x, hx, hval, hle'⟩ := PerThingType.fromRationalWithRounding_ok hN h0 hle .up
  rw [proportionalRatio, hx]
  exact ⟨hval, hle'⟩

theorem due_of_one (ratio : Perquintill)
    (hratio : ratio.toNat = PerThingType.perquintill.accuracy) (target remaining : BitVec B.bits) :
    min target.toNat remaining.toNat ≤
      min (min (slashShare (some ratio) target remaining).toNat target.toNat) remaining.toNat := by
  have hshare : (slashShare (some ratio) target remaining).toNat = target.toNat := by
    rw [slashShare, toNat_mulCeil hN ratio hratio.le, hratio]
    exact divRound_up_mul_self (PerThingType.accuracy_pos _) _
  rw [hshare, min_self]

theorem due_of_le (ratio : Perquintill) (hratio : ratio.toNat ≤ PerThingType.perquintill.accuracy)
    (target remaining : BitVec B.bits) :
    min (ratioDue ratio target.toNat) remaining.toNat ≤
      min (min (slashShare (some ratio) target remaining).toNat target.toNat) remaining.toNat := by
  have hle : ratioDue ratio target.toNat ≤ target.toNat :=
    Rounding.divRound_le (PerThingType.accuracy_pos _) (by
      rw [Nat.mul_comm PerThingType.perquintill.accuracy]; exact Nat.mul_le_mul_left _ hratio)
  rw [slashShare, toNat_mulCeil hN ratio hratio]
  exact min_le_min (le_min le_rfl hle) le_rfl

end Ratio

theorem due_of_none (target remaining : BitVec B.bits) :
    min target.toNat remaining.toNat ≤
      min (min (slashShare none target remaining).toNat target.toNat) remaining.toNat := by
  rw [slashShare]
  omega

theorem le_ratioDue_sum {slashAmount active : ℕ} (cs : List (UnlockChunk B)) (ratio : Perquintill)
    (h0 : 0 < active + chunkSum cs)
    (hratio : ratio.toNat = Rounding.up.divRound (slashAmount * PerThingType.perquintill.accuracy)
      (active + chunkSum cs)) :
    slashAmount ≤ ratioDue ratio active + (cs.map fun c => ratioDue ratio c.value.toNat).sum := by
  have h := le_sum_divRound_up slashAmount (PerThingType.accuracy_pos PerThingType.perquintill)
    (active :: cs.map fun c : UnlockChunk B => c.value.toNat) (by rw [List.sum_cons]; exact h0)
  rw [List.sum_cons, show (cs.map fun c => c.value.toNat).sum = chunkSum cs from rfl, ← hratio,
    List.map_cons, List.sum_cons, List.map_map] at h
  exact h

/-! ## `slash` -/

section SlashSpec

variable (l : StakingLedger B) (slashAmount minimumBalance : BitVec B.bits)
  (hl : l.total.toNat = l.active.toNat + chunkSum l.unlocking) (hz : slashAmount ≠ 0)
include hl hz

omit hz in
theorem slashOutOf_balance (prop : Option Perquintill) :
    (slashOutOf prop minimumBalance l.active slashAmount l.total).2.2.toNat =
      (slashOutOf prop minimumBalance l.active slashAmount l.total).1.toNat +
        chunkSum l.unlocking := by
  obtain ⟨x, hx, h1, -, h3, -, -⟩ :=
    slashOutOf_spec prop minimumBalance l.active slashAmount l.total
  rw [h1, h3]
  omega

/-- `active`, then the loop over the chunks, is `Slashed`, and lowers `active`. -/
theorem slashOutOf_slashChunks (prop : Option Perquintill) (is : List ℕ)
    (hin : ∀ i ∈ is, i < l.unlocking.length) :
    Slashed (slashOutOf prop minimumBalance l.active slashAmount l.total).1.toNat
        minimumBalance.toNat l.unlocking slashAmount.toNat l.total.toNat
        (slashChunks prop minimumBalance is l.unlocking
          (slashOutOf prop minimumBalance l.active slashAmount l.total).2.1
          (slashOutOf prop minimumBalance l.active slashAmount l.total).2.2).1
        (slashChunks prop minimumBalance is l.unlocking
          (slashOutOf prop minimumBalance l.active slashAmount l.total).2.1
          (slashOutOf prop minimumBalance l.active slashAmount l.total).2.2).2.1.toNat
        (slashChunks prop minimumBalance is l.unlocking
          (slashOutOf prop minimumBalance l.active slashAmount l.total).2.1
          (slashOutOf prop minimumBalance l.active slashAmount l.total).2.2).2.2.toNat ∧
      (slashOutOf prop minimumBalance l.active slashAmount l.total).1.toNat ≤ l.active.toNat := by
  have hz' : slashAmount.toNat ≠ 0 := fun h => hz (BitVec.eq_of_toNat_eq h)
  obtain ⟨x, hx, h1, h2, h3, -, hover⟩ :=
    slashOutOf_spec prop minimumBalance l.active slashAmount l.total
  generalize slashOutOf prop minimumBalance l.active slashAmount l.total = a at h1 h2 h3 ⊢
  have hs := (slashChunks_spec prop minimumBalance a.1.toNat is l.unlocking a.2.1 a.2.2 hin
    (by omega)).1
  rw [h2, h3] at hs
  exact ⟨hs.step hz' (by omega) hover rfl (Lowers.refl _), by omega⟩

/-- **A full slash takes all or nothing is left.** When every target gives all of its value that
remains to slash, a loop that visits every chunk ends with the slash or the whole ledger taken. -/
theorem slash_full_lower (prop : Option Perquintill)
    (hprop : ∀ target remaining : BitVec B.bits, min target.toNat remaining.toNat ≤
      min (min (slashShare prop target remaining).toNat target.toNat) remaining.toNat)
    (is : List ℕ) (hnd : is.Nodup) (hin : ∀ i ∈ is, i < l.unlocking.length)
    (hall : (is.map fun i => valueAt l.unlocking i).sum = chunkSum l.unlocking) :
    min slashAmount.toNat l.total.toNat ≤ l.total.toNat -
      (slashChunks prop minimumBalance is l.unlocking
        (slashOutOf prop minimumBalance l.active slashAmount l.total).2.1
        (slashOutOf prop minimumBalance l.active slashAmount l.total).2.2).2.2.toNat := by
  have hs := (slashOutOf_slashChunks l slashAmount minimumBalance hl hz prop is hin).1
  obtain ⟨x, hx, h1, h2, h3, hlow, -⟩ :=
    slashOutOf_spec prop minimumBalance l.active slashAmount l.total
  have hact := hprop l.active slashAmount
  generalize slashOutOf prop minimumBalance l.active slashAmount l.total = a at h1 h2 h3 hlow hs ⊢
  by_cases hleft : (slashChunks prop minimumBalance is l.unlocking a.2.1 a.2.2).2.1 = 0
  · -- nothing left: the slash was taken
    have := hs.remaining_eq
    rw [toNat_eq_zero_iff.mpr hleft] at this
    omega
  · -- something left: `active` and every chunk were taken whole
    have hdue := slashChunks_due prop minimumBalance (fun t => t) hprop a.1.toNat is l.unlocking
      a.2.1 a.2.2 hnd hin (by omega) hleft
    have hs' := (slashChunks_spec prop minimumBalance a.1.toNat is l.unlocking a.2.1 a.2.2 hin
      (by omega)).1
    have hleft' : (slashChunks prop minimumBalance is l.unlocking a.2.1 a.2.2).2.1.toNat ≠ 0 :=
      mt toNat_eq_zero_iff.mp hleft
    have := hs'.remaining_eq
    have := hs'.total_le
    rw [hall] at hdue
    omega

omit hz in
/-- **A proportional slash is taken from what it is proportional to.** When `active` and the
chunks from `first` on cover the slash, the slash of `active` and a loop that visits those chunks
leave nothing to slash. -/
theorem proportional_clears (hN : PerThingType.perquintill.inner.bits ≤ B.bits) {first : ℕ}
    (ratio : Perquintill) (h0 : 0 < l.active.toNat + chunkSum (l.unlocking.drop first))
    (hratio : ratio.toNat = Rounding.up.divRound
      (slashAmount.toNat * PerThingType.perquintill.accuracy)
      (l.active.toNat + chunkSum (l.unlocking.drop first)))
    (hratioLe : ratio.toNat ≤ PerThingType.perquintill.accuracy)
    (is : List ℕ) (hnd : is.Nodup) (hin : ∀ i ∈ is, i < l.unlocking.length)
    (hcover : ((l.unlocking.drop first).map fun c => ratioDue ratio c.value.toNat).sum ≤
      (is.map fun i => ratioDue ratio (valueAt l.unlocking i)).sum) :
    (slashChunks (some ratio) minimumBalance is l.unlocking
      (slashOutOf (some ratio) minimumBalance l.active slashAmount l.total).2.1
      (slashOutOf (some ratio) minimumBalance l.active slashAmount l.total).2.2).2.1 = 0 := by
  obtain ⟨x, hx, h1, h2, h3, hlow, -⟩ :=
    slashOutOf_spec (some ratio) minimumBalance l.active slashAmount l.total
  have hact := due_of_le hN ratio hratioLe l.active slashAmount
  have hdue' := due_of_le hN ratio hratioLe
  have hshares := le_ratioDue_sum (l.unlocking.drop first) ratio h0 hratio
  -- keep the accuracy from `omega`: the kernel would unfold it inside the shares of `active`
  clear hratio hratioLe
  generalize (slashShare (some ratio) l.active slashAmount).toNat = s0 at hact hlow
  generalize ratioDue ratio l.active.toNat = d0 at hact hshares
  generalize slashOutOf (some ratio) minimumBalance l.active slashAmount l.total = a
    at h1 h2 h3 hlow ⊢
  by_contra hleft
  have hdue := slashChunks_due (some ratio) minimumBalance (ratioDue ratio)
    hdue' a.1.toNat is l.unlocking a.2.1 a.2.2 hnd hin (by omega) hleft
  have hs := (slashChunks_spec (some ratio) minimumBalance a.1.toNat is l.unlocking a.2.1 a.2.2
    hin (by omega)).1
  have hleft' : (slashChunks (some ratio) minimumBalance is l.unlocking a.2.1 a.2.2).2.1.toNat ≠ 0 :=
    mt toNat_eq_zero_iff.mp hleft
  have := hs.remaining_eq
  have := hs.total_le
  omega

end SlashSpec

/-! ## Chunks in era order -/

section Sorted

variable {α : Type*} {R : α → α → Prop} {p : α → Bool} {l : List α}

theorem findIdx?_pairwise_iff (hl : l.Pairwise R) (hp : ∀ a b, R a b → p a → p b) {k : ℕ}
    (hk : l.findIdx? p = some k) {j : ℕ} (hj : j < l.length) : p l[j] ↔ k ≤ j := by
  obtain ⟨hkl, hpk, hbefore⟩ := List.findIdx?_eq_some_iff_getElem.mp hk
  constructor
  · intro hpj
    by_contra hlt
    exact hbefore j (by omega) hpj
  · intro hkj
    rcases Nat.lt_or_eq_of_le hkj with hlt | rfl
    · exact hp _ _ (List.pairwise_iff_getElem.mp hl k j hkl hj hlt) hpk
    · exact hpk

theorem filter_eq_drop_of_pairwise (hl : l.Pairwise R) (hp : ∀ a b, R a b → p a → p b) {k : ℕ}
    (hk : l.findIdx? p = some k) : l.filter p = l.drop k := by
  conv_lhs => rw [← List.take_append_drop k l]
  rw [List.filter_append, List.filter_eq_nil_iff.mpr ?before, List.filter_eq_self.mpr ?after,
    List.nil_append]
  case before =>
    intro a ha
    obtain ⟨j, hj, rfl⟩ := List.mem_take_iff_getElem.mp ha
    exact fun h => absurd ((findIdx?_pairwise_iff hl hp hk (by omega)).mp h) (by omega)
  case after =>
    intro a ha
    obtain ⟨j, hj, rfl⟩ := List.mem_drop_iff_getElem.mp ha
    exact (findIdx?_pairwise_iff hl hp hk (j := k + j) (by omega)).mpr (by omega)

end Sorted

/-! ## The plan, read off -/

section PlanSpec

variable (bondingDuration : BitVec 32) (l : StakingLedger B)
  (slashAmount minimumBalance : BitVec B.bits) (slashEra : BitVec 32)

theorem slashPlan_lt : ∀ i ∈ (l.slashPlan bondingDuration slashAmount slashEra).2,
    i < l.unlocking.length := by
  cases hf : l.unlocking.findIdx? (fun c => c.era ≥ saturatingAdd slashEra bondingDuration) with
  | none =>
    rw [slashPlan_of_none _ _ _ _ hf]
    exact (range_reverse_spec l.unlocking).1
  | some first =>
    rw [slashPlan_of_some _ _ _ _ hf]
    exact (affected_append_rest (List.findIdx?_eq_some_iff_getElem.mp hf).1.le).1

theorem toNat_affectedBalance (hl : l.total.toNat = l.active.toNat + chunkSum l.unlocking)
    {first : ℕ} (hfirst : first ≤ l.unlocking.length) :
    (saturatingAdd l.active (l.unbondingAffectedBalance first)).toNat =
      l.active.toNat + chunkSum (l.unlocking.drop first) := by
  have htake := chunkSum_take_add_drop l.unlocking first
  have htotal := l.total.isLt
  rw [toNat_saturatingAdd, toNat_unbondingAffectedBalance l hfirst (by omega)]
  omega

/-- **The lower bound of a slash**: at least the slash, or the whole ledger. -/
theorem slashParts_lower (hN : PerThingType.perquintill.inner.bits ≤ B.bits)
    (hl : l.total.toNat = l.active.toNat + chunkSum l.unlocking) (hz : slashAmount ≠ 0) :
    min slashAmount.toNat l.total.toNat ≤
      l.total.toNat - (l.slashParts bondingDuration slashAmount minimumBalance slashEra).2.2.toNat := by
  simp only [slashParts]
  cases hf : l.unlocking.findIdx? (fun c => c.era ≥ saturatingAdd slashEra bondingDuration) with
  | none =>
    rw [slashPlan_of_none _ _ _ _ hf]
    obtain ⟨hin, hnd, hsum⟩ := range_reverse_spec l.unlocking
    exact slash_full_lower l slashAmount minimumBalance hl hz none due_of_none _ hnd hin
      (hsum fun t => t)
  | some first =>
    rw [slashPlan_of_some _ _ _ _ hf]
    dsimp only
    have hfirst := (List.findIdx?_eq_some_iff_getElem.mp hf).1
    obtain ⟨hin, hnd, hsum⟩ := affected_append_rest hfirst.le
    by_cases hr : saturatingAdd l.active (l.unbondingAffectedBalance first) = 0 ∨
        saturatingAdd l.active (l.unbondingAffectedBalance first) < slashAmount
    · -- the ratio is one: a full slash
      exact slash_full_lower l slashAmount minimumBalance hl hz _
        (due_of_one hN _ (toNat_proportionalRatio_of_lt hN _ _ hr)) _ hnd hin (hsum fun t => t)
    · -- the ratio covers the slash: nothing is left
      have h0 : saturatingAdd l.active (l.unbondingAffectedBalance first) ≠ 0 := fun h => hr (.inl h)
      have hle : slashAmount ≤ saturatingAdd l.active (l.unbondingAffectedBalance first) :=
        BitVec.not_lt.mp fun h => hr (.inr h)
      obtain ⟨hratio, hratioLe⟩ := toNat_proportionalRatio_of_le hN h0 hle
      have haff := toNat_affectedBalance l hl hfirst.le
      rw [haff] at hratio
      have h0' : 0 < l.active.toNat + chunkSum (l.unlocking.drop first) := by
        rw [← haff]
        exact Nat.pos_of_ne_zero (mt toNat_eq_zero_iff.mp h0)
      set ratio := proportionalRatio slashAmount (saturatingAdd l.active
        (l.unbondingAffectedBalance first))
      -- every chunk is visited, so the shares of the chunks from `first` on are covered
      have hcover : ((l.unlocking.drop first).map fun c => ratioDue ratio c.value.toNat).sum ≤
          ((List.range' first (l.unlocking.length - first) ++ (List.range first).reverse).map
            fun i => ratioDue ratio (valueAt l.unlocking i)).sum := by
        rw [hsum (ratioDue _), ← List.take_append_drop first l.unlocking, List.map_append,
          List.sum_append, List.drop_append_of_le_length (by simp [hfirst.le]), List.drop_take_self,
          List.nil_append]
        exact Nat.le_add_left _ _
      have hclear := proportional_clears l slashAmount minimumBalance hl hN _ h0' hratio
        hratioLe _ hnd hin hcover
      clear hratio hratioLe hcover
      have hs := (slashOutOf_slashChunks l slashAmount minimumBalance hl hz (some ratio) _ hin).1
      have := hs.remaining_eq
      rw [toNat_eq_zero_iff.mpr hclear] at this
      omega

/-- **A covered proportional slash leaves the chunks before `first` alone.** When `active` and
the chunks from the first slashable one on cover the slash, the loop over those chunks takes all
of it, and the earlier chunks are never visited. -/
theorem slashParts_keeps_early (hN : PerThingType.perquintill.inner.bits ≤ B.bits)
    (hl : l.total.toNat = l.active.toNat + chunkSum l.unlocking) (hz : slashAmount ≠ 0)
    {first : ℕ}
    (hf : l.unlocking.findIdx? (fun c => c.era ≥ saturatingAdd slashEra bondingDuration) =
      some first)
    (hcover : slashAmount.toNat ≤ l.active.toNat + chunkSum (l.unlocking.drop first))
    {j : ℕ} (hj : j < first) :
    (l.slashParts bondingDuration slashAmount minimumBalance slashEra).2.1[j]? =
      l.unlocking[j]? := by
  have hfirst := (List.findIdx?_eq_some_iff_getElem.mp hf).1
  have haff := toNat_affectedBalance l hl hfirst.le
  have hz' : slashAmount.toNat ≠ 0 := fun h => hz (BitVec.eq_of_toNat_eq h)
  have h0' : 0 < l.active.toNat + chunkSum (l.unlocking.drop first) := by omega
  have h0 : saturatingAdd l.active (l.unbondingAffectedBalance first) ≠ 0 := fun h => by
    rw [toNat_eq_zero_iff.mpr h] at haff
    omega
  have hle : slashAmount ≤ saturatingAdd l.active (l.unbondingAffectedBalance first) := by
    rw [BitVec.le_def, haff]
    exact hcover
  have hinA : ∀ i ∈ List.range' first (l.unlocking.length - first), i < l.unlocking.length :=
    fun i hi => (affected_append_rest hfirst.le).1 i (List.mem_append_left _ hi)
  have hdrop : ∀ f : ℕ → ℕ,
      ((List.range' first (l.unlocking.length - first)).map fun i => f (valueAt l.unlocking i)).sum =
        ((l.unlocking.drop first).map fun c => f c.value.toNat).sum := fun f => by
    rw [sum_valueAt_range' f l.unlocking _ first (by omega),
      List.take_of_length_le (l := l.unlocking.drop first) (by simp)]
  have hnotin : j ∉ List.range' first (l.unlocking.length - first) := fun h => by
    obtain ⟨i, -, rfl⟩ := List.mem_range'.mp h
    omega
  obtain ⟨hratio, hratioLe⟩ := toNat_proportionalRatio_of_le hN h0 hle
  rw [haff] at hratio
  simp only [slashParts]
  rw [slashPlan_of_some _ _ _ _ hf]
  dsimp only
  set ratio := proportionalRatio slashAmount (saturatingAdd l.active
    (l.unbondingAffectedBalance first))
  -- the loop over the chunks from `first` on leaves nothing to slash
  have hclear := proportional_clears l slashAmount minimumBalance hl hN ratio h0' hratio hratioLe
    _ List.nodup_range' hinA (hdrop _).ge
  rw [slashChunks_append _ _ _ _ _ _ _ hinA, hclear, slashChunks_of_eq_zero]
  exact (slashChunks_spec (some ratio) minimumBalance _ _ l.unlocking _ _ hinA
    (slashOutOf_balance l slashAmount minimumBalance hl _)).2 j hnotin

/-- **`slash` up to the `retain` is `Slashed`**, and lowers `active`. -/
theorem slashParts_slashed (hl : l.total.toNat = l.active.toNat + chunkSum l.unlocking)
    (hz : slashAmount ≠ 0) :
    (∃ remaining', Slashed (l.slashParts bondingDuration slashAmount minimumBalance slashEra).1.toNat
        minimumBalance.toNat l.unlocking slashAmount.toNat l.total.toNat
        (l.slashParts bondingDuration slashAmount minimumBalance slashEra).2.1 remaining'
        (l.slashParts bondingDuration slashAmount minimumBalance slashEra).2.2.toNat) ∧
      (l.slashParts bondingDuration slashAmount minimumBalance slashEra).1.toNat ≤
        l.active.toNat := by
  have h := slashOutOf_slashChunks l slashAmount minimumBalance hl hz
    (l.slashPlan bondingDuration slashAmount slashEra).1 _
    (slashPlan_lt bondingDuration l slashAmount slashEra)
  exact ⟨⟨_, h.1⟩, h.2⟩

theorem slashable_eq
    (hsome : ∃ c ∈ l.unlocking, slashEra.toNat + bondingDuration.toNat ≤ c.era.toNat) :
    (fun c : UnlockChunk B => decide (c.era ≥ saturatingAdd slashEra bondingDuration)) =
      fun c => decide (slashEra.toNat + bondingDuration.toNat ≤ c.era.toNat) := by
  obtain ⟨c, -, hc⟩ := hsome
  have hlt := c.era.isLt
  funext d
  refine decide_eq_decide.mpr ?_
  rw [ge_iff_le, BitVec.le_def, toNat_saturatingAdd]
  omega

end PlanSpec

end StakingLedger

end PolkadotSdk.Staking
