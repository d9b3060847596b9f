import Mathlib.Order.Basic

/-!
# `for` loops over a range, in the `Option` monad

`for j in 0..n { body }`, with the loop's state threaded through and a body that may panic, is
`(List.range n).foldlM body s`; `for d in (0..n).rev()` is the same over `(List.range n).reverse`.
A loop runs to its end when, from every state that satisfies an invariant, a turn runs and keeps
it: `foldlM_range_inv` and `foldlM_range_reverse_inv` are these Hoare rules, the invariant indexed
by how far the loop has come.  A loop with `break` is core's `forIn` over `List.range'`, its body
returning `ForInStep`: `forIn_range'_inv` is its rule, with a postcondition that a `break` must
reach as well.  `foldlM_list_inv` and `foldl_inv` are the rules for `for a in l` over a list.
`bind_inv` is the rule for running one statement after another, and `mapM_of_forall` the one for an
iterator mapped and collected.
-/

namespace PolkadotSdk.Lib.ForLoop

variable {σ : Type*} {f : σ → ℕ → Option σ}

theorem foldlM_range_inv (P : ℕ → σ → Prop) {n : ℕ} {s : σ} (h0 : P 0 s)
    (hstep : ∀ j s, j < n → P j s → ∃ s', f s j = some s' ∧ P (j + 1) s') :
    ∃ s', (List.range n).foldlM f s = some s' ∧ P n s' := by
  induction n with
  | zero => exact ⟨s, rfl, h0⟩
  | succ n ih =>
    obtain ⟨s₁, hrun, h₁⟩ := ih fun j s hj => hstep j s (Nat.lt_succ_of_lt hj)
    obtain ⟨s₂, hturn, h₂⟩ := hstep n s₁ (Nat.lt_succ_self n) h₁
    refine ⟨s₂, ?_, h₂⟩
    rw [List.range_succ, List.foldlM_append, hrun, Option.bind_eq_bind, Option.bind_some]
    simpa using hturn

theorem foldlM_range_reverse_inv (P : ℕ → σ → Prop) {n : ℕ} {s : σ} (h0 : P n s)
    (hstep : ∀ d s, d < n → P (d + 1) s → ∃ s', f s d = some s' ∧ P d s') :
    ∃ s', (List.range n).reverse.foldlM f s = some s' ∧ P 0 s' := by
  induction n generalizing s with
  | zero => exact ⟨s, rfl, h0⟩
  | succ n ih =>
    obtain ⟨s₁, hturn, h₁⟩ := hstep n s (Nat.lt_succ_self n) h0
    obtain ⟨s₂, hrun, h₂⟩ := ih h₁ fun d s hd => hstep d s (Nat.lt_succ_of_lt hd)
    refine ⟨s₂, ?_, h₂⟩
    rw [List.range_succ, List.reverse_append, List.reverse_singleton, List.singleton_append,
      List.foldlM_cons, hturn, Option.bind_eq_bind, Option.bind_some]
    exact hrun

theorem bind_inv {α β : Type*} (P : α → Prop) {Q : β → Prop} {x : Option α} {g : α → Option β}
    (hx : ∃ a, x = some a ∧ P a) (hg : ∀ a, P a → ∃ b, g a = some b ∧ Q b) :
    ∃ b, x.bind g = some b ∧ Q b := by
  obtain ⟨a, rfl, ha⟩ := hx
  exact hg a ha

/-- What a turn of a loop with `break` must reach: the invariant of the next turn when it goes on,
the loop's postcondition when it breaks. -/
def StepPost {σ : Type*} (P Q : σ → Prop) : ForInStep σ → Prop
  | .yield s => P s
  | .done s => Q s

theorem forIn_range'_inv {g : ℕ → σ → Option (ForInStep σ)} (P : ℕ → σ → Prop) (Q : σ → Prop)
    {a n : ℕ} {s : σ} (h0 : P a s) (hend : ∀ s, P (a + n) s → Q s)
    (hstep : ∀ k s, a ≤ k → k < a + n → P k s → ∃ r, g k s = some r ∧ StepPost (P (k + 1)) Q r) :
    ∃ s', forIn (List.range' a n) s g = some s' ∧ Q s' := by
  induction n generalizing a s with
  | zero => exact ⟨s, rfl, hend s h0⟩
  | succ n ih =>
    obtain ⟨r, hr, hpost⟩ := hstep a s (Nat.le_refl a) (by omega) h0
    rw [List.range'_succ, List.forIn_cons, hr]
    cases r with
    | done s' => exact ⟨s', rfl, hpost⟩
    | yield s' =>
      -- the rest of the loop, from `a + 1`
      exact ih hpost (fun s hs => hend s (by rwa [Nat.add_right_comm a 1 n] at hs))
        fun k s hk hk' => hstep k s (by omega) (by omega)

theorem foldlM_list_inv {α : Type*} {f : σ → α → Option σ} (P : σ → Prop) {l : List α} {s : σ}
    (h0 : P s) (hstep : ∀ a s, a ∈ l → P s → ∃ s', f s a = some s' ∧ P s') :
    ∃ s', l.foldlM f s = some s' ∧ P s' := by
  induction l generalizing s with
  | nil => exact ⟨s, rfl, h0⟩
  | cons a l ih =>
    obtain ⟨s₁, hf, h₁⟩ := hstep a s List.mem_cons_self h0
    obtain ⟨s', hrun, h'⟩ := ih h₁ fun b t hb ht => hstep b t (List.mem_cons_of_mem a hb) ht
    exact ⟨s', by rw [List.foldlM_cons, hf]; exact hrun, h'⟩

theorem foldl_inv {α : Type*} {f : σ → α → σ} (P : σ → Prop) {l : List α} {s : σ} (h0 : P s)
    (hstep : ∀ a s, a ∈ l → P s → P (f s a)) : P (l.foldl f s) := by
  induction l generalizing s with
  | nil => exact h0
  | cons a l ih => exact ih (hstep a s List.mem_cons_self h0) fun b t hb => hstep b t (List.mem_cons_of_mem a hb)

theorem mapM_of_forall {α β : Type*} {f : α → Option β} {g : α → β} {l : List α}
    (h : ∀ a ∈ l, f a = some (g a)) : l.mapM f = some (l.map g) := by
  induction l with
  | nil => rfl
  | cons a l ih =>
    rw [List.mapM_cons, h a List.mem_cons_self, ih fun x hx => h x (List.mem_cons_of_mem a hx)]
    rfl

end PolkadotSdk.Lib.ForLoop
