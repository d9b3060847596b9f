import Mathlib.Data.List.Nodup

/-!
# Loops that visit each key once

A loop over the items of a list, each with its own key, whose body changes the state only at the
key of its item: a map updated at one key, or a set of keys per level in which only that key goes
in or out.  Seen through a view of the state at one key, such a loop is a sequence of independent
updates, so it runs to its end and does to each key what one turn does, when the keys of the items
are distinct (`foldlM_keyed`).  `foldlM_inv` is the rule for a property of the whole state that each
turn keeps, and `foldlM_countP` the one for a counter that some turns raise.  `foldlM_simulation`
is the rule for a run of steps of a machine that may fail, against a run of a total machine that
it refines, and `foldl_simulation` the same for a machine whose steps cannot fail.
-/

namespace PolkadotSdk.Lib.KeyedFold

variable {σ ι κ β : Type*}

/-- The body `f` changes the state's view only at the key of its item. -/
def Local (view : σ → κ → β) (key : ι → κ) (f : σ → ι → Option σ) : Prop :=
  ∀ s i s', f s i = some s' → ∀ k, k ≠ key i → view s' k = view s k

section Keyed

variable {view : σ → κ → β} {key : ι → κ} {f : σ → ι → Option σ}

/-- **A loop over items with distinct keys.** If a turn runs from every state whose view at its
item's key satisfies `P`, and then relates the view there before and after by `R`, the whole loop
runs; each item's key ends in `R` of the view it had at the start, and every other key keeps its
view. -/
theorem foldlM_keyed (hloc : Local view key f) (P : ι → β → Prop) (R : ι → β → β → Prop)
    (hstep : ∀ s i, P i (view s (key i)) →
      ∃ s', f s i = some s' ∧ R i (view s (key i)) (view s' (key i))) :
    ∀ (l : List ι) (s : σ), (l.map key).Nodup → (∀ i ∈ l, P i (view s (key i))) →
      ∃ s', l.foldlM f s = some s' ∧ (∀ i ∈ l, R i (view s (key i)) (view s' (key i))) ∧
        ∀ k, k ∉ l.map key → view s' k = view s k := by
  intro l
  induction l with
  | nil => exact fun s _ _ => ⟨s, rfl, by simp, fun _ _ => rfl⟩
  | cons i l ih =>
    intro s hnd hP
    rw [List.map_cons, List.nodup_cons] at hnd
    obtain ⟨hi, hnd⟩ := hnd
    -- the first turn, at the key of `i`, leaves the views of the other items' keys as they were
    obtain ⟨s₁, hf, hR⟩ := hstep s i (hP i List.mem_cons_self)
    have hframe : ∀ j ∈ l, view s₁ (key j) = view s (key j) := fun j hj =>
      hloc s i s₁ hf (key j) fun he => hi (he ▸ List.mem_map_of_mem hj)
    obtain ⟨s', hrun, hR', hout⟩ := ih s₁ hnd fun j hj => by
      rw [hframe j hj]
      exact hP j (List.mem_cons_of_mem i hj)
    refine ⟨s', by rw [List.foldlM_cons, hf]; exact hrun, ?_, ?_⟩
    · intro j hj
      rcases List.mem_cons.mp hj with rfl | hj
      · rw [hout (key j) hi]
        exact hR
      · rw [← hframe j hj]
        exact hR' j hj
    · intro k hk
      rw [List.map_cons, List.mem_cons, not_or] at hk
      rw [hout k hk.2]
      exact hloc s i s₁ hf k hk.1

end Keyed

theorem foldlM_inv {f : σ → ι → Option σ} (G : σ → Prop)
    (hstep : ∀ s i s', f s i = some s' → G s → G s') :
    ∀ (l : List ι) (s s' : σ), l.foldlM f s = some s' → G s → G s' := by
  intro l
  induction l with
  | nil =>
    intro s s' hrun hG
    cases hrun
    exact hG
  | cons i l ih =>
    intro s s' hrun hG
    rw [List.foldlM_cons, Option.bind_eq_bind, Option.bind_eq_some_iff] at hrun
    obtain ⟨s₁, hf, hrun⟩ := hrun
    exact ih s₁ s' hrun (hstep s i s₁ hf hG)

theorem foldlM_countP {f : σ → ι → Option σ} (count : σ → ℕ) (q : ι → Bool)
    (hstep : ∀ s i s', f s i = some s' → count s' = count s + if q i then 1 else 0) :
    ∀ (l : List ι) (s s' : σ), l.foldlM f s = some s' → count s' = count s + l.countP q := by
  intro l
  induction l with
  | nil =>
    intro s s' hrun
    cases hrun
    rfl
  | cons i l ih =>
    intro s s' hrun
    rw [List.foldlM_cons, Option.bind_eq_bind, Option.bind_eq_some_iff] at hrun
    obtain ⟨s₁, hf, hrun⟩ := hrun
    rw [ih s₁ s' hrun, hstep s i s₁ hf, List.countP_cons]
    omega

/-- **Simulation of a run.** If every step of a partial machine from a state related to `t` runs
and stays related to the step of a total machine from `t`, so does every run of steps. -/
theorem foldlM_simulation {τ γ : Type*} {f : σ → γ → Option σ} {g : τ → γ → τ}
    (R : σ → τ → Prop) (hstep : ∀ s t c, R s t → ∃ s', f s c = some s' ∧ R s' (g t c)) :
    ∀ (l : List γ) (s : σ) (t : τ), R s t → ∃ s', l.foldlM f s = some s' ∧ R s' (l.foldl g t) := by
  intro l
  induction l with
  | nil => exact fun s _ h => ⟨s, rfl, h⟩
  | cons c l ih =>
    intro s t h
    obtain ⟨s₁, hf, h₁⟩ := hstep s t c h
    obtain ⟨s', hrun, h'⟩ := ih s₁ (g t c) h₁
    exact ⟨s', by rw [List.foldlM_cons, hf]; exact hrun, h'⟩

/-- **Simulation of a run of total steps**, as `foldlM_simulation` with steps that cannot fail. -/
theorem foldl_simulation {τ γ : Type*} {f : σ → γ → σ} {g : τ → γ → τ} (R : σ → τ → Prop)
    (hstep : ∀ s t c, R s t → R (f s c) (g t c)) :
    ∀ (l : List γ) (s : σ) (t : τ), R s t → R (l.foldl f s) (l.foldl g t) := by
  intro l
  induction l with
  | nil => exact fun _ _ h => h
  | cons c l ih => exact fun s t h => ih (f s c) (g t c) (hstep s t c h)

end PolkadotSdk.Lib.KeyedFold
