import Mathlib.Order.Basic

/-!
# Computations on a budget of fuel

A loop that need not terminate is run on a budget of iterations and gives `none` when the budget
runs out. Such a computation is monotone when a budget that suffices keeps its result under any
larger one; then two budgets that both suffice agree, and a result at one budget leaves every other
budget the choice of running out or giving that same result.
-/

namespace PolkadotSdk.Lib

/-- More fuel keeps a result. -/
def FuelMono {α : Type*} (f : ℕ → Option α) : Prop := ∀ n r, f n = some r → f (n + 1) = some r

namespace FuelMono

variable {α β : Type*} {f : ℕ → Option α}

theorem of_le (hf : FuelMono f) {n m : ℕ} (hnm : n ≤ m) {r : α} (h : f n = some r) :
    f m = some r := by
  induction hnm with
  | refl => exact h
  | step _ ih => exact hf _ _ ih

theorem agree (hf : FuelMono f) {n m : ℕ} {r r' : α} (h : f n = some r) (h' : f m = some r') :
    r = r' := by
  have hr := hf.of_le (Nat.le_max_left n m) h
  have hr' := hf.of_le (Nat.le_max_right n m) h'
  rw [hr] at hr'
  exact Option.some.inj hr'

theorem eq_none_or_eq (hf : FuelMono f) {n : ℕ} {r : α} (h : f n = some r) (m : ℕ) :
    f m = none ∨ f m = some r := by
  cases hm : f m with
  | none => exact .inl rfl
  | some r' => exact .inr (congrArg some (hf.agree h hm).symm)

theorem bind {g : α → ℕ → Option β} (hf : FuelMono f) (hg : ∀ a, FuelMono (g a)) :
    FuelMono fun n => (f n).bind fun a => g a n := by
  intro n r h
  obtain ⟨a, ha, hr⟩ := Option.bind_eq_some_iff.mp h
  dsimp only
  rw [hf n a ha, Option.bind_some]
  exact hg a n r hr

theorem map {g : α → β} (hf : FuelMono f) : FuelMono fun n => (f n).map g := by
  intro n r h
  obtain ⟨a, ha, rfl⟩ := Option.map_eq_some_iff.mp h
  dsimp only
  rw [hf n a ha, Option.map_some]

end FuelMono

end PolkadotSdk.Lib
