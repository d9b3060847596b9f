import Mathlib.Algebra.BigOperators.Group.List.Basic
import Mathlib.Algebra.GroupWithZero.Nat
import Mathlib.Algebra.Order.BigOperators.Group.List
import Mathlib.Logic.Function.Iterate

/-!
# Values tagged with their positions, updated in place

A list of values is tagged with the positions of its values (`tagged`), reordered, and then
updated in place, value by value and tags kept: the result is related to the reordered list by
`Forall₂` of "same tag, related values".  Sorting the result on the tags brings every value back
to the position its tag names, related to the value first there (`forall₂_of_sort_tags`).

Updating one value of a list changes a sum over its values by the difference
(`sum_map_set_add`), and a walk that steps down one position at a time and wraps from `0` to
`n - 1` (`cyclicPred`) reaches any position within `n` steps (`exists_iterate_cyclicPred_eq`).
Replacing one value of a list by one whose image gains some items makes the joined images gain
them, up to order (`flatMap_modify_perm`).
-/

open scoped List

namespace PolkadotSdk.Lib.IndexedList

variable {β : Type*}

/-- The values of `l`, each paired with its position. -/
def tagged (l : List β) : List (ℕ × β) := (List.range l.length).zip l

@[simp] theorem length_tagged (l : List β) : (tagged l).length = l.length := by
  simp [tagged]

theorem map_fst_tagged (l : List β) : (tagged l).map Prod.fst = List.range l.length := by
  rw [tagged, List.map_fst_zip (by simp)]

theorem map_snd_tagged (l : List β) : (tagged l).map Prod.snd = l := by
  rw [tagged, List.map_snd_zip (by simp)]

theorem eq_getElem_of_mem_tagged {l : List β} {j : ℕ} {b : β} (h : (j, b) ∈ tagged l) :
    ∃ hj : j < l.length, l[j] = b := by
  obtain ⟨i, hi, hget⟩ := List.mem_iff_getElem.mp h
  have hi' : i < l.length := by simpa using hi
  simp only [tagged, List.getElem_zip, List.getElem_range, Prod.mk.injEq] at hget
  obtain ⟨rfl, rfl⟩ := hget
  exact ⟨hi', rfl⟩

/-! ## Updating in place -/

/-- "The same tag, and values related by `R`". -/
def SameTag (R : β → β → Prop) (p q : ℕ × β) : Prop := p.1 = q.1 ∧ R p.2 q.2

theorem map_fst_eq_of_forall₂ {R : β → β → Prop} {l₁ l₂ : List (ℕ × β)}
    (h : List.Forall₂ (SameTag R) l₁ l₂) : l₁.map Prod.fst = l₂.map Prod.fst := by
  induction h with
  | nil => rfl
  | cons hpq _ ih => rw [List.map_cons, List.map_cons, hpq.1, ih]

theorem forall₂_set {R : β → β → Prop} {l₁ l₂ : List (ℕ × β)}
    (h : List.Forall₂ (SameTag R) l₁ l₂) {i : ℕ} (hi : i < l₂.length) {b : β}
    (hb : ∀ a, R a l₂[i].2 → R a b) : List.Forall₂ (SameTag R) l₁ (l₂.set i (l₂[i].1, b)) := by
  induction h generalizing i with
  | nil => simp at hi
  | @cons p q l₁ l₂ hpq hrest ih =>
    cases i with
    | zero => exact List.Forall₂.cons ⟨hpq.1, hb _ hpq.2⟩ hrest
    | succ i => exact List.Forall₂.cons hpq (ih (by simpa using hi) hb)

theorem sum_map_set_add {α : Type*} (f : α → ℕ) :
    ∀ (l : List α) {i : ℕ} (hi : i < l.length) (a : α),
      ((l.set i a).map f).sum + f l[i] = (l.map f).sum + f a
  | [], _, hi, _ => absurd hi (Nat.not_lt_zero _)
  | b :: l, 0, _, a => by
    simp only [List.set_cons_zero, List.map_cons, List.sum_cons, List.getElem_cons_zero]
    omega
  | b :: l, i + 1, hi, a => by
    have ih := sum_map_set_add f l (i := i) (Nat.lt_of_succ_lt_succ hi) a
    simp only [List.set_cons_succ, List.map_cons, List.sum_cons, List.getElem_cons_succ]
    omega

/-- One value replaced by one whose image gains `extra`: the images of the list, joined, gain
`extra`, up to order. -/
theorem flatMap_modify_perm {α γ : Type*} {F : α → List γ} {g : α → α} {extra : List γ} :
    ∀ {l : List α} {i : ℕ} {a : α}, l[i]? = some a → (F (g a)).Perm (F a ++ extra) →
      ((l.modify i g).flatMap F).Perm (l.flatMap F ++ extra)
  | [], _, _, hi, _ => by cases hi
  | b :: l, 0, a, hi, hF => by
    cases hi
    rw [List.modify_zero_cons, List.flatMap_cons, List.flatMap_cons]
    calc F (g b) ++ l.flatMap F
        ~ (F b ++ extra) ++ l.flatMap F := hF.append_right _
      _ = F b ++ (extra ++ l.flatMap F) := List.append_assoc _ _ _
      _ ~ F b ++ (l.flatMap F ++ extra) := List.perm_append_comm.append_left _
      _ = F b ++ l.flatMap F ++ extra := (List.append_assoc _ _ _).symm
  | b :: l, i + 1, a, hi, hF => by
    rw [List.getElem?_cons_succ] at hi
    rw [List.modify_succ_cons, List.flatMap_cons, List.flatMap_cons, List.append_assoc]
    exact (flatMap_modify_perm hi hF).append_left _

/-! ## Sorting back on the tags -/

theorem map_fst_sort_tags {l : List (ℕ × β)} {n : ℕ} (hperm : (l.map Prod.fst).Perm (List.range n)) :
    ((l.mergeSort fun a b => decide (a.1 ≤ b.1)).map Prod.fst) = List.range n := by
  have hsorted : List.Pairwise (· ≤ ·) ((l.mergeSort fun a b => decide (a.1 ≤ b.1)).map Prod.fst) := by
    rw [List.pairwise_map]
    refine (List.pairwise_mergeSort (fun a b c hab hbc => ?_) (fun a b => ?_) l).imp ?_
    · simp only [decide_eq_true_eq] at *
      omega
    · simp only [Bool.or_eq_true, decide_eq_true_eq]
      omega
    · intro a b h
      simpa using h
  refine List.Perm.eq_of_pairwise (fun a b _ _ hab hba => Nat.le_antisymm hab hba) hsorted
    List.pairwise_le_range ?_
  exact ((List.mergeSort_perm l _).map Prod.fst).trans hperm

/-- **Sorting back.**  A reordering of `tagged l`, updated in place with tags kept and values
related by `R` to the old ones, sorted on the tags, holds at each position a value related to the
value of `l` there. -/
theorem forall₂_of_sort_tags {R : β → β → Prop} {l : List β} {l₀ W : List (ℕ × β)}
    (hperm : l₀.Perm (tagged l)) (h : List.Forall₂ (SameTag R) l₀ W) :
    List.Forall₂ R l ((W.mergeSort fun a b => decide (a.1 ≤ b.1)).map Prod.snd) := by
  set F := W.mergeSort fun a b => decide (a.1 ≤ b.1)
  have hW : (W.map Prod.fst).Perm (List.range l.length) := by
    rw [← map_fst_eq_of_forall₂ h, ← map_fst_tagged l]
    exact hperm.map Prod.fst
  have hfst := map_fst_sort_tags hW
  have hlen : F.length = l.length := by
    have := congrArg List.length hfst
    rwa [List.length_map, List.length_range] at this
  rw [List.forall₂_iff_get]
  refine ⟨by simp [hlen], fun i hi hi' => ?_⟩
  -- the value at position `i` carries the tag `i`, and came from the tagged value `(i, l[i])`
  have hFi : F[i].1 = i := by
    have := congrArg (fun l => l[i]?) hfst
    simp only [List.getElem?_map, List.getElem?_range hi] at this
    rw [List.getElem?_eq_getElem (by rw [hlen]; exact hi)] at this
    simpa using this
  have hiF : i < F.length := by rw [hlen]; exact hi
  have hmem : F[i] ∈ W := (List.mergeSort_perm W _).subset (List.getElem_mem hiF)
  obtain ⟨p, hp, hWp⟩ := List.mem_iff_getElem.mp hmem
  obtain ⟨hlen₀, hrel⟩ := List.forall₂_iff_get.mp h
  have hp₀ : p < l₀.length := by rw [hlen₀]; exact hp
  have hq := hrel p hp₀ hp
  simp only [List.get_eq_getElem, hWp] at hq
  have htag : l₀[p] ∈ tagged l := hperm.subset (List.getElem_mem _)
  rw [show l₀[p] = (i, l₀[p].2) by rw [← hFi, ← hq.1]] at htag
  obtain ⟨_, hval⟩ := eq_getElem_of_mem_tagged htag
  simp only [List.get_eq_getElem, List.getElem_map]
  rw [hval]
  exact hq.2

/-! ## Walking down, wrapping around -/

/-- One step down, from `0` to `n - 1`. -/
def cyclicPred (n m : ℕ) : ℕ := if m = 0 then n - 1 else m - 1

theorem cyclicPred_lt {n m : ℕ} (hm : m < n) : cyclicPred n m < n := by
  unfold cyclicPred
  split <;> omega

theorem iterate_cyclicPred_lt {n m : ℕ} (hm : m < n) (k : ℕ) : (cyclicPred n)^[k] m < n := by
  induction k with
  | zero => exact hm
  | succ k ih =>
    rw [Function.iterate_succ_apply']
    exact cyclicPred_lt ih

theorem iterate_cyclicPred_of_le {n m k : ℕ} (hk : k ≤ m) : (cyclicPred n)^[k] m = m - k := by
  induction k with
  | zero => rfl
  | succ k ih =>
    rw [Function.iterate_succ_apply', ih (by omega), cyclicPred, if_neg (by omega)]
    omega

theorem exists_iterate_cyclicPred_eq {n m j : ℕ} (hm : m < n) (hj : j < n) :
    ∃ k < n, (cyclicPred n)^[k] m = j := by
  by_cases hjm : j ≤ m
  · exact ⟨m - j, by omega, by rw [iterate_cyclicPred_of_le (by omega)]; omega⟩
  · -- down to `0`, over to `n - 1`, and down again to `j`
    refine ⟨(n - 1 - j) + (m + 1), by omega, ?_⟩
    have hwrap : (cyclicPred n)^[m + 1] m = n - 1 := by
      rw [Function.iterate_succ_apply', iterate_cyclicPred_of_le le_rfl, Nat.sub_self, cyclicPred,
        if_pos rfl]
    rw [Function.iterate_add_apply, hwrap, iterate_cyclicPred_of_le (by omega)]
    omega

end PolkadotSdk.Lib.IndexedList
