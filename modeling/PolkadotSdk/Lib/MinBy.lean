import Mathlib.Order.Lattice
import Mathlib.Data.List.Pairwise
import Mathlib.Data.List.Induction

/-!
# `Iterator::min_by`

`min_by` folds an iterator with `cmp::min_by`, which keeps the element seen so far unless the
comparison says it is greater, so that of several least elements the first is returned.  The
comparison may fail (`none`), as one that may panic does.

* `minBy_spec`: a comparison that agrees with a key in a linear order gives the first element of
  least key, and nothing exactly on an empty list;
* `IsFirstLeast.of_pairwise`: on a list ordered by positions, the first least element is below
  every element and strictly below every earlier one.
-/

namespace PolkadotSdk.Lib.MinBy

variable {α β : Type*}

/-- `cmp::min_by` as a turn of the fold: the element kept so far stays unless it is greater. -/
def minByStep (compare : α → α → Option Ordering) (best : Option α) (x : α) : Option (Option α) :=
  match best with
  | none => some (some x)
  | some b => (compare b x).map fun o => if o = .gt then some x else some b

/-- `Iterator::min_by`. -/
def minBy (compare : α → α → Option Ordering) (l : List α) : Option (Option α) :=
  l.foldlM (minByStep compare) none

/-- `m` is the first element of least key of `l`: the elements before it have greater keys, those
after it no smaller ones. -/
def IsFirstLeast [LinearOrder β] (key : α → β) (l : List α) (m : α) : Prop :=
  ∃ pre post, l = pre ++ m :: post ∧ (∀ x ∈ pre, key m < key x) ∧ ∀ x ∈ post, key m ≤ key x

section Order

variable [LinearOrder β] {key : α → β}

theorem IsFirstLeast.mem {l : List α} {m : α} (h : IsFirstLeast key l m) : m ∈ l := by
  obtain ⟨pre, post, rfl, -, -⟩ := h
  simp

theorem IsFirstLeast.le {l : List α} {m : α} (h : IsFirstLeast key l m) :
    ∀ x ∈ l, key m ≤ key x := by
  obtain ⟨pre, post, rfl, hpre, hpost⟩ := h
  intro x hx
  rcases List.mem_append.mp hx with hx | hx
  · exact le_of_lt (hpre x hx)
  · rcases List.mem_cons.mp hx with rfl | hx
    · exact le_rfl
    · exact hpost x hx

theorem IsFirstLeast.append {l : List α} {m x : α} (h : IsFirstLeast key l m) :
    IsFirstLeast key (l ++ [x]) (if key x < key m then x else m) := by
  by_cases hx : key x < key m
  · rw [if_pos hx]
    refine ⟨l, [], rfl, fun y hy => lt_of_lt_of_le hx (h.le y hy), by simp⟩
  · rw [if_neg hx]
    obtain ⟨pre, post, rfl, hpre, hpost⟩ := h
    refine ⟨pre, post ++ [x], by simp, hpre, ?_⟩
    intro y hy
    rcases List.mem_append.mp hy with hy | hy
    · exact hpost y hy
    · rw [List.mem_singleton.mp hy]
      exact le_of_not_gt hx

/-- **`min_by` returns the first least element.**  With a comparison that agrees with `key` on the
elements of the list, `min_by` never fails, and returns the first element of least key, or nothing
on an empty list. -/
theorem minBy_spec (key : α → β) {compare : α → α → Option Ordering} {l : List α}
    (hcmp : ∀ a ∈ l, ∀ b ∈ l, compare a b = some (Ord.compare (key a) (key b))) :
    ∃ r, minBy compare l = some r ∧ (r = none ∧ l = [] ∨ ∃ m, r = some m ∧ IsFirstLeast key l m) := by
  induction l using List.reverseRecOn with
  | nil => exact ⟨none, rfl, .inl ⟨rfl, rfl⟩⟩
  | append_singleton l x ih =>
    obtain ⟨r, hr, hspec⟩ := ih fun a ha b hb =>
      hcmp a (List.mem_append_left _ ha) b (List.mem_append_left _ hb)
    rw [minBy, List.foldlM_append] at *
    rw [hr]
    simp only [Option.bind_eq_bind, Option.bind_some, List.foldlM_cons, List.foldlM_nil, bind_pure]
    rcases hspec with ⟨rfl, rfl⟩ | ⟨m, rfl, hm⟩
    · exact ⟨some x, rfl, .inr ⟨x, rfl, [], [], rfl, by simp, by simp⟩⟩
    · -- the kept element against the new one
      have hcmx := hcmp m (List.mem_append_left _ hm.mem) x (by simp)
      refine ⟨if key x < key m then some x else some m, ?_, .inr ⟨_, ?_, hm.append⟩⟩
      · simp only [minByStep, hcmx, Option.map_some, compare_gt_iff_gt]
      · split_ifs <;> rfl

theorem IsFirstLeast.of_pairwise {pos : α → ℕ} {l : List α} {m : α} (h : IsFirstLeast key l m)
    (hl : l.Pairwise fun a b => pos a < pos b) :
    ∀ x ∈ l, key m ≤ key x ∧ (pos x < pos m → key m < key x) := by
  intro x hx
  refine ⟨h.le x hx, fun hlt => ?_⟩
  obtain ⟨pre, post, rfl, hpre, -⟩ := h
  rw [List.pairwise_append, List.pairwise_cons] at hl
  rcases List.mem_append.mp hx with hx | hx
  · exact hpre x hx
  · -- `m` itself and the elements after it are at later positions
    rcases List.mem_cons.mp hx with rfl | hx
    · exact absurd hlt (Nat.lt_irrefl _)
    · exact absurd (hl.2.1.1 x hx) (Nat.lt_asymm hlt)

end Order

end PolkadotSdk.Lib.MinBy
