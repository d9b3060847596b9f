import Mathlib.Data.ENat.Basic
import Mathlib.Data.List.Dedup
import PolkadotSdk.BagsList.Iter

/-!
# Migrating a bags list to new thresholds

`List::migrate(old_thresholds)` rebags the ids whose bag the change of thresholds can affect. For
each threshold that is new it reads the old bag that held its scores, and it reads each old
threshold that is gone; the ids of those bags, read once each, are removed with `remove_many` and
inserted again with `insert_many` under the new thresholds. Last, it deletes the bag of every
removed threshold from `ListBags`.

The last step deletes the bag of a removed threshold whatever the re-insertion put there
(`bags_migrate_of_removed`). When the old thresholds name `Score::max_value()` and the new ones
leave it implicit, the top bag is a removed threshold; the ids it held are re-inserted into it,
since `notional_bag_for` gives `Score::max_value()` past the last new threshold, and the bag is
then deleted under them: their nodes point at a bag that is no longer stored, and `iter` no longer
reaches them (`migrate_deletes_top_bag`).
-/

set_option linter.unusedSectionVars false

namespace PolkadotSdk.BagsList

variable {A S : Type*} [LinearOrder A] [LinearOrder S] [OrderTop S]

/-- A `BTreeSet` collected from a list: its items in increasing order, each once. -/
def btreeSet {α : Type*} [LinearOrder α] (l : List α) : List α :=
  (l.insertionSort (· ≤ ·)).dedup

@[simp] theorem mem_btreeSet {α : Type*} [LinearOrder α] {l : List α} {a : α} :
    a ∈ btreeSet l ↔ a ∈ l := by
  rw [btreeSet, List.mem_dedup, List.mem_insertionSort]

namespace Lists

/-- One bag of the two scans of `List::migrate`: a bag not read yet is marked and its ids are
collected; a bag read before is skipped. -/
def migrateScan (st : Lists A S) (fuel : ℕ) (acc : List S × List A) (bag : S) :
    List S × List A :=
  if bag ∈ acc.1 then acc
  else
    (bag :: acc.1, match Bag.get st bag with
      | some b => acc.2 ++ (Bag.iter st fuel b).map Node.id
      | none => acc.2)

/-- `List::migrate`, with `T::BagThresholds` already set to `newThresholds`: the number of ids
rebagged, and the storage. The old bag of a new threshold is `notional_bag_for` under the old
thresholds, as the code recomputes it. -/
def migrate [Zero S] (st : Lists A S) (oldThresholds newThresholds : List S) (scoreOf : A → S)
    (fuel : ℕ) : ℕ × Lists A S :=
  if newThresholds = oldThresholds then (0, st)
  else
    let oldSet := btreeSet oldThresholds
    let newSet := btreeSet newThresholds
    let newBags := newSet.filter (· ∉ oldSet)
    let acc := newBags.foldl
      (fun acc inserted => migrateScan st fuel acc (notionalBagFor oldThresholds inserted)) ([], [])
    let removedBags := oldSet.filter (· ∉ newSet)
    let acc := removedBags.foldl (migrateScan st fuel) acc
    let affected := btreeSet acc.2
    let st := (removeMany st affected).2
    let st := (insertMany st newThresholds affected scoreOf).2
    let st := removedBags.foldl (fun st bag => { st with bags := Function.update st.bags bag none }) st
    (affected.length, st)

end Lists

theorem bags_foldl_remove_of_not_mem {k : S} :
    ∀ {keys : List S} (st : Lists A S), k ∉ keys →
      (keys.foldl (fun st bag => { st with bags := Function.update st.bags bag none }) st).bags k =
        st.bags k
  | [], _, _ => rfl
  | bag :: keys, st, hk => by
    rw [List.mem_cons, not_or] at hk
    rw [List.foldl_cons, bags_foldl_remove_of_not_mem _ hk.2]
    exact Function.update_of_ne hk.1 _ _

theorem bags_foldl_remove {k : S} :
    ∀ {keys : List S} (st : Lists A S), k ∈ keys →
      (keys.foldl (fun st bag => { st with bags := Function.update st.bags bag none }) st).bags k =
        none
  | bag :: keys, st, hk => by
    rw [List.foldl_cons]
    by_cases hin : k ∈ keys
    · exact bags_foldl_remove _ hin
    · -- `k` is this bag, and no later deletion writes it again
      rw [bags_foldl_remove_of_not_mem _ hin, (List.mem_cons.mp hk).resolve_right hin]
      exact Function.update_self _ _ _

/-- **`List::migrate` deletes the bag of every removed threshold**, whatever the list and whatever
the ids it re-inserted there. -/
theorem bags_migrate_of_removed [Zero S] (st : Lists A S) {oldThresholds newThresholds : List S}
    (scoreOf : A → S) (fuel : ℕ) {k : S} (hold : k ∈ oldThresholds) (hnew : k ∉ newThresholds) :
    (Lists.migrate st oldThresholds newThresholds scoreOf fuel).2.bags k = none := by
  have hne : newThresholds ≠ oldThresholds := fun h => hnew (h ▸ hold)
  simp only [Lists.migrate, if_neg hne]
  exact bags_foldl_remove _ (List.mem_filter.mpr ⟨mem_btreeSet.mpr hold, by simpa using hnew⟩)

/-- Id `0`, scored 20, alone in the top bag. -/
def topOnly : Lists ℕ ℕ∞ where
  nodes a := if a = 0 then some ⟨0, none, none, ⊤, (20 : ℕ)⟩ else none
  count := 1
  bags k := if k = ⊤ then some ⟨some 0, some 0, ⊤⟩ else none

/-- The bags of `topOnly`. -/
def topOnlySeq (k : ℕ∞) : List ℕ := if k = ⊤ then [0] else []

theorem wellFormed_topOnly : WellFormed [10, ⊤] topOnly topOnlySeq fun _ => 20 := by
  refine WellFormed.of_support (by decide) (by decide) (fun k hk => ?_) (fun k hk => ?_)
    (fun a ha => ?_) (fun k hk => ?_) (fun k hk => ?_) rfl
  · have hk : k ≠ 10 ∧ k ≠ ⊤ := by simpa using hk
    exact if_neg hk.2
  · have hk : k ≠ 10 ∧ k ≠ ⊤ := by simpa using hk
    exact if_neg hk.2
  · have ha : a ≠ 0 := by simpa [topOnlySeq] using ha
    exact if_neg ha
  · simp only [List.mem_cons, List.not_mem_nil, or_false] at hk
    rcases hk with rfl | rfl <;> unfold BagFor <;> decide
  · simp only [List.mem_cons, List.not_mem_nil, or_false] at hk
    rcases hk with rfl | rfl <;> unfold Linked <;> decide

/-- **The top bag deleted under its ids.** A well-formed list with its one id in the top bag, old
thresholds `[10, ⊤]` naming `Score::max_value()` and new thresholds `[10]` leaving it implicit:
`migrate` rebags the id into the top bag, as its score 20 is past the last new threshold, and
then deletes that bag, a removed threshold. The node still points at the deleted bag, and `iter`
under the new thresholds no longer reaches the id. -/
theorem migrate_deletes_top_bag :
    WellFormed (Lists.bagKeys [10, ⊤]) topOnly topOnlySeq (fun _ => 20) ∧
      [(10 : ℕ∞)].Pairwise (· < ·) ∧
      (Lists.migrate topOnly [10, ⊤] [10] (fun _ => 20) 2).1 = 1 ∧
      (Lists.migrate topOnly [10, ⊤] [10] (fun _ => 20) 2).2.nodes 0 = some ⟨0, none, none, ⊤, 20⟩ ∧
      (Lists.migrate topOnly [10, ⊤] [10] (fun _ => 20) 2).2.bags ⊤ = none ∧
      Lists.iter (Lists.migrate topOnly [10, ⊤] [10] (fun _ => 20) 2).2 [10] 2 = [] := by
  have hkeys : Lists.bagKeys [(10 : ℕ∞), ⊤] = [10, ⊤] := by decide
  rw [hkeys]
  exact ⟨wellFormed_topOnly, List.pairwise_singleton _ _, by decide, by decide,
    bags_migrate_of_removed topOnly (fun _ => 20) 2 (by decide) (by decide), by decide⟩

end PolkadotSdk.BagsList
