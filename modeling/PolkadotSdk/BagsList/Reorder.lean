import Mathlib.Data.ENat.Basic
import PolkadotSdk.BagsList.WellFormed

/-!
# Moving an id in front of another

`List::put_in_front_of(lighter, heavier)` checks that both ids are stored, in one bag, and that
`heavier` scores more than `lighter`; each failed check returns its error before any write. It then
removes `heavier` (which decrements the counter and may move the head or the tail of the bag) and
links the node of `heavier` in again right before the node of `lighter`, read again from storage
(which counts it back).

On a well-formed list the move is a remove followed by an insert-before (`WellFormed.remove`,
`WellFormed.insertAt`): the bag of both ids becomes its old ids with `heavier` taken out and put
back right before `lighter`, and the list stays well formed with the same ids in the same bags.
-/

set_option linter.unusedSectionVars false

namespace PolkadotSdk.BagsList

open PolkadotSdk.Lib.Sequences

variable {A S : Type*} [DecidableEq A] [LinearOrder S] [OrderTop S]

section Move

variable {keys : List S} {st : Lists A S} {seq : S → List A} {score : A → S}

theorem mem_insertBefore_erase_iff {l : List A} {lighter heavier a : A} (hnd : l.Nodup)
    (hh : heavier ∈ l) (hl : lighter ∈ l.erase heavier) :
    a ∈ insertBefore heavier lighter (l.erase heavier) ↔ a ∈ l := by
  rw [(perm_insertBefore hl).mem_iff, List.mem_cons, hnd.mem_erase_iff]
  constructor
  · rintro (rfl | ⟨-, ha⟩)
    · exact hh
    · exact ha
  · intro ha
    by_cases hah : a = heavier
    · exact .inl hah
    · exact .inr ⟨hah, ha⟩

/-- **The move on a well-formed list**: `heavier` is removed and linked in again right before
`lighter` in their bag `k`, and the list stays well formed, with the other bags kept and the
counter back where it was. -/
theorem WellFormed.moveInFront (hw : WellFormed keys st seq score) {k : S} {lighter heavier : A}
    (hl : lighter ∈ seq k) (hh : heavier ∈ seq k) (hne : lighter ≠ heavier) :
    ∃ st', Lists.insertAtUnchecked (Lists.remove st heavier).2
        (cellIn ((seq k).erase heavier) k score lighter) (cellIn (seq k) k score heavier) = some st' ∧
      WellFormed keys st' (Function.update seq k (insertBefore heavier lighter ((seq k).erase heavier)))
        score ∧
      (∀ k', k' ≠ k → st'.bags k' = st.bags k') ∧ st'.count = st.count := by
  have hnd := hw.nodup_seq k
  have hw₁ := hw.remove hh
  -- after the remove, `lighter` is still in the bag and `heavier` in none
  have hl₁ : lighter ∈ Function.update seq k ((seq k).erase heavier) k := by
    rw [Function.update_self]
    exact (List.mem_erase_of_ne hne).mpr hl
  have hh₁ : ∀ k', heavier ∉ Function.update seq k ((seq k).erase heavier) k' := by
    intro k' h
    by_cases hkk : k' = k
    · subst hkk
      rw [Function.update_self] at h
      exact (hnd.mem_erase_iff.mp h).1 rfl
    · rw [Function.update_of_ne hkk] at h
      exact hkk (hw.eq_of_mem h hh)
  obtain ⟨st', hst, hw', hbags', hcount'⟩ :=
    hw₁.insertAt hl₁ hh₁ (show (cellIn (seq k) k score heavier).id = heavier from rfl) rfl rfl
  rw [Function.update_self] at hst
  rw [Function.update_self, Function.update_idem] at hw'
  refine ⟨st', hst, hw', fun k' hk' => ?_, ?_⟩
  · rw [hbags' k' hk', hw.bags_remove hh hk']
  · -- the remove took one off the counter and the insert put it back
    have := hw.count_remove hh
    omega

end Move

section Spec

variable {keys : List S} {st : Lists A S} {seq : S → List A} {score : A → S}

/-- **`List::put_in_front_of`.** A missing id gives `NodeNotFound`, ids in two bags
`NotInSameBag`, and a `heavier` that does not score more `NotHeavier`, each with the storage left
as it was. Otherwise the call succeeds without a panic, and the bag of both ids becomes its old ids
with `heavier` taken out and put back right before `lighter`: the list stays well formed, every
other bag is kept, every id keeps its bag and its score, and the counter is unchanged. -/
theorem putInFrontOf_spec (hw : WellFormed keys st seq score) (scoreOf : A → S)
    (lighter heavier : A) :
    ((st.nodes lighter = none ∨ st.nodes heavier = none) →
      Lists.putInFrontOf st scoreOf lighter heavier = some (.error .nodeNotFound, st)) ∧
    ∀ ln hn, st.nodes lighter = some ln → st.nodes heavier = some hn →
      (ln.bagUpper ≠ hn.bagUpper →
        Lists.putInFrontOf st scoreOf lighter heavier = some (.error .notInSameBag, st)) ∧
      (ln.bagUpper = hn.bagUpper → ¬scoreOf heavier > scoreOf lighter →
        Lists.putInFrontOf st scoreOf lighter heavier = some (.error .notHeavier, st)) ∧
      (ln.bagUpper = hn.bagUpper → scoreOf heavier > scoreOf lighter →
        ∃ st', Lists.putInFrontOf st scoreOf lighter heavier = some (.ok (), st') ∧
          WellFormed keys st' (Function.update seq hn.bagUpper
            (insertBefore heavier lighter ((seq hn.bagUpper).erase heavier))) score ∧
          (∀ k', k' ≠ hn.bagUpper → st'.bags k' = st.bags k') ∧
          (∀ a, (st'.nodes a).map (fun n => (n.bagUpper, n.score)) =
            (st.nodes a).map (fun n => (n.bagUpper, n.score))) ∧
          st'.count = st.count) := by
  refine ⟨fun h => ?_, fun ln hn hl hh => ⟨fun hne => ?_, fun heq hs => ?_, fun heq hs => ?_⟩⟩
  · rcases h with h | h
    · simp [Lists.putInFrontOf, Node.get, h]
    · cases hl : st.nodes lighter <;> simp [Lists.putInFrontOf, Node.get, hl, h]
  · simp [Lists.putInFrontOf, Node.get, hl, hh, hne]
  · simp [Lists.putInFrontOf, Node.get, hl, hh, heq, hs]
  · -- both ids are in the bag `k` of `heavier`, and they differ since their scores do
    obtain ⟨k, hhk, rfl⟩ := hw.exists_cellIn hh
    rw [bagUpper_cellIn] at heq ⊢
    have hlk : lighter ∈ seq k := heq ▸ hw.mem_of_nodes lighter ln hl
    have hne : lighter ≠ heavier := by
      rintro rfl
      exact lt_irrefl _ hs
    obtain ⟨st', hst, hw', hbags', hcount'⟩ := hw.moveInFront hlk hhk hne
    -- `lighter` as the code reads it again after the remove
    have hl₁ := (hw.remove hhk).nodes_of_mem (a := lighter) (k := k)
      (by rw [Function.update_self]; exact (List.mem_erase_of_ne hne).mpr hlk)
    rw [Function.update_self] at hl₁
    refine ⟨st', ?_, hw', hbags', hw.map_nodes_eq hw' (fun k' a => ?_), hcount'⟩
    · simp only [Lists.putInFrontOf, Node.get, hl, hh, heq, bagUpper_cellIn, ne_eq,
        not_true_eq_false, if_false, hs, hl₁]
      rw [hst]
      rfl
    · by_cases hkk : k' = k
      · subst hkk
        rw [Function.update_self]
        exact mem_insertBefore_erase_iff (hw.nodup_seq _) hhk ((List.mem_erase_of_ne hne).mpr hlk)
      · rw [Function.update_of_ne hkk]

/-- Two ids in the bag of `⊤`, `0` at the head, both stored with score 5. -/
def pairList : Lists ℕ (ℕ∞) where
  nodes a :=
    if a = 0 then some ⟨0, none, some 1, ⊤, (5 : ℕ)⟩
    else if a = 1 then some ⟨1, some 0, none, ⊤, (5 : ℕ)⟩ else none
  count := 2
  bags k := if k = ⊤ then some ⟨some 0, some 1, ⊤⟩ else none

/-- The bags of `pairList`. -/
def pairSeq (k : ℕ∞) : List ℕ := if k = ⊤ then [0, 1] else []

theorem wellFormed_pairList : WellFormed [⊤] pairList pairSeq fun _ => 5 := by
  refine WellFormed.of_support (by decide) (by decide) (fun k hk => ?_) (fun k hk => ?_)
    (fun a ha => ?_) (fun k hk => ?_) (fun k hk => ?_) rfl
  · exact if_neg (List.mem_singleton.not.mp hk)
  · exact if_neg (List.mem_singleton.not.mp hk)
  · have ha : a ≠ 0 ∧ a ≠ 1 := by simpa [pairSeq] using ha
    simp [pairList, ha.1, ha.2]
  · rw [List.mem_singleton.mp hk]
    unfold BagFor
    decide
  · rw [List.mem_singleton.mp hk]
    unfold Linked
    decide

/-- Moving `1` in front of `0`, scored by their ids. -/
theorem putInFrontOf_spec_pair :
    WellFormed [⊤] pairList pairSeq (fun _ => 5) ∧
      ∃ st', Lists.putInFrontOf pairList (fun a => (a : ℕ∞)) 0 1 = some (.ok (), st') ∧
        WellFormed [⊤] st' (Function.update pairSeq ⊤ [1, 0]) (fun _ => 5) ∧ st'.count = 2 := by
  obtain ⟨st', h, hw', -, -, hc⟩ := ((putInFrontOf_spec wellFormed_pairList
    (fun a => (a : ℕ∞)) 0 1).2 _ _ rfl rfl).2.2 rfl (by decide)
  exact ⟨wellFormed_pairList, st', h, hw', hc⟩

end Spec

end PolkadotSdk.BagsList
