import PolkadotSdk.BagsList.Rebag
import PolkadotSdk.Lib.KeyedFold

/-!
# The pallet's calls on the list

The bags list changes through the hooks of `SortedListProvider` (`on_insert`, `on_update`,
`on_remove`, `unsafe_regenerate`, `unsafe_clear`) and the extrinsics `rebag`, `put_in_front_of` and
`put_in_front_of_other`, which all come down to `List::insert`, `Pallet::do_rebag`,
`List::remove`, `List::put_in_front_of`, `List::unsafe_regenerate` and `List::unsafe_clear`
(`Op`, `step`).

What the calls are for is said on `Bags`: the ids of each bag in order, and the score of each id.
`Stores` relates a storage to the bags it holds: well formed with them, every id in the bag of its
score. Every call on a storage that stores some bags runs without a panic and stores the bags the
same call gives on `Bags` (`Stores.step`), and so does every run of calls
(`KeyedFold.foldlM_simulation`). From the cleared list:

* `run_simulates`: any run of calls never panics, stores the bags of the same run on `Bags`, and
  `List::iter` gives exactly those bags, from the highest down;
* `run_iter_sorted`: `List::iter` then visits every stored id once and sorts them by bag, each
  node in the bag of its score and scoring more than the nodes of every lower bag.
-/

set_option linter.unusedSectionVars false

namespace PolkadotSdk.BagsList

open PolkadotSdk.Lib.Sequences PolkadotSdk.Lib.KeyedFold

variable {A S : Type*} [DecidableEq A] [LinearOrder S] [OrderTop S]

/-- A call that changes the list. -/
inductive Op (A S : Type*)
  /-- `on_insert`: `List::insert`. -/
  | insert (id : A) (score : S)
  /-- `on_update`, and the extrinsic `rebag` with the score of the `ScoreProvider`:
  `Pallet::do_rebag`. -/
  | update (id : A) (newScore : S)
  /-- `on_remove`: `List::remove`. -/
  | remove (id : A)
  /-- The extrinsics `put_in_front_of` and `put_in_front_of_other`, with the scores the
  `ScoreProvider` gives at the call. -/
  | putInFrontOf (scoreOf : A → S) (lighter heavier : A)
  /-- `unsafe_regenerate`. -/
  | regenerate (ids : List A) (scoreOf : A → S)
  /-- `unsafe_clear`. -/
  | clear

/-! ## The bags the list stands for -/

/-- The bags as the pallet means them: the ids of each bag from head to tail, and the score of
each id. -/
structure Bags (A S : Type*) where
  seq : S → List A
  score : A → S

namespace Bags

variable (thresholds : List S)

/-- No ids. -/
def empty : Bags A S := ⟨fun _ => [], fun _ => ⊤⟩

/-- The bag that holds `a`, if any. -/
def bagOf (b : Bags A S) (a : A) : Option S :=
  (Lists.bagKeys thresholds).find? fun k => a ∈ b.seq k

/-- An id in no bag goes to the back of the bag of its score. -/
def insert (b : Bags A S) (a : A) (s : S) : Bags A S :=
  if (b.bagOf thresholds a).isSome then b
  else
    ⟨Function.update b.seq (notionalBagFor thresholds s)
        (b.seq (notionalBagFor thresholds s) ++ [a]),
      Function.update b.score a s⟩

/-- An id leaves its bag. -/
def remove (b : Bags A S) (a : A) : Bags A S :=
  match b.bagOf thresholds a with
  | some k => { b with seq := Function.update b.seq k ((b.seq k).erase a) }
  | none => b

/-- An id whose new score falls in its bag keeps its place; otherwise it goes to the back of the
bag of its new score. -/
def update (b : Bags A S) (a : A) (s : S) : Bags A S :=
  match b.bagOf thresholds a with
  | some k =>
    if notionalBagFor thresholds s = k then { b with score := Function.update b.score a s }
    else (b.remove thresholds a).insert thresholds a s
  | none => b

/-- `heavier` goes right before `lighter`, when both are in one bag and it scores more. -/
def putInFrontOf (b : Bags A S) (scoreOf : A → S) (lighter heavier : A) : Bags A S :=
  match b.bagOf thresholds lighter, b.bagOf thresholds heavier with
  | some k, some k' =>
    if k = k' ∧ scoreOf lighter < scoreOf heavier then
      { b with seq := Function.update b.seq k (insertBefore heavier lighter ((b.seq k).erase heavier)) }
    else b
  | _, _ => b

/-- A call on the bags. -/
def step (b : Bags A S) : Op A S → Bags A S
  | .insert a s => b.insert thresholds a s
  | .update a s => b.update thresholds a s
  | .remove a => b.remove thresholds a
  | .putInFrontOf scoreOf lighter heavier => b.putInFrontOf thresholds scoreOf lighter heavier
  | .regenerate ids scoreOf => ids.foldl (fun b a => b.insert thresholds a (scoreOf a)) empty
  | .clear => empty

/-- A run of calls from no ids. -/
def run (ops : List (Op A S)) : Bags A S := ops.foldl (step thresholds) empty

end Bags

/-- The storage holds the bags `b`: it is well formed with them, and each id is in the bag of its
score. -/
structure Stores (thresholds : List S) (st : Lists A S) (b : Bags A S) : Prop where
  wellFormed : WellFormed (Lists.bagKeys thresholds) st b.seq b.score
  placed : ∀ k, ∀ a ∈ b.seq k, notionalBagFor thresholds (b.score a) = k

/-! ## The calls on the storage -/

section Calls

variable [Zero S]

/-- One call on the storage; `none` where the code panics. -/
def step (thresholds : List S) (st : Lists A S) : Op A S → Option (Lists A S)
  | .insert id score => some (Lists.insert st thresholds id score).2
  | .update id newScore => some (doRebag st thresholds id newScore).2
  | .remove id => some (Lists.remove st id).2
  | .putInFrontOf scoreOf lighter heavier =>
    (Lists.putInFrontOf st scoreOf lighter heavier).map (·.2)
  | .regenerate ids scoreOf => some (Lists.unsafeRegenerate thresholds ids scoreOf).2
  | .clear => some Lists.unsafeClear

/-- A run of calls from the cleared list. -/
def run (thresholds : List S) (ops : List (Op A S)) : Option (Lists A S) :=
  ops.foldlM (step thresholds) Lists.unsafeClear

end Calls

/-! ## Each call simulates the call on the bags -/

namespace Stores

variable {thresholds : List S} {st : Lists A S} {b : Bags A S}

theorem bagOf_eq_some (h : Stores thresholds st b) {a : A} {k : S} (ha : a ∈ b.seq k) :
    b.bagOf thresholds a = some k := by
  have hsome : ((Lists.bagKeys thresholds).find? fun k => decide (a ∈ b.seq k)).isSome :=
    List.find?_isSome.mpr ⟨k, h.wellFormed.mem_keys ha, decide_eq_true ha⟩
  obtain ⟨k', hk'⟩ := Option.isSome_iff_exists.mp hsome
  have hmem : a ∈ b.seq k' := by simpa using List.find?_some hk'
  rw [Bags.bagOf, hk', h.wellFormed.eq_of_mem hmem ha]

theorem bagOf_eq_none {a : A} (ha : ∀ k, a ∉ b.seq k) : b.bagOf thresholds a = none :=
  List.find?_eq_none.mpr fun k _ => by simpa using ha k

theorem unsafeClear (hkeys : (Lists.bagKeys thresholds).Nodup) :
    Stores thresholds (Lists.unsafeClear : Lists A S) Bags.empty := by
  have hnil : (Lists.bagKeys thresholds).flatMap (Bags.empty : Bags A S).seq = [] :=
    List.flatMap_eq_nil_iff.mpr fun _ _ => rfl
  refine ⟨⟨hkeys, ?_, fun _ _ => rfl, fun k => ?_, fun _ _ ha => ?_, fun _ _ hn => ?_, ?_⟩,
    fun _ _ ha => ?_⟩
  · rw [hnil]
    exact List.nodup_nil
  · simp [BagFor, Lists.unsafeClear, Bags.empty]
  · cases ha
  · cases hn
  · rw [hnil]
    rfl
  · cases ha

variable (h : Stores thresholds st b)
include h

theorem insert [Zero S] (a : A) (s : S) :
    Stores thresholds (Lists.insert st thresholds a s).2 (b.insert thresholds a s) := by
  by_cases ha : ∃ k, a ∈ b.seq k
  · -- a stored id: `Duplicate`, and nothing changes
    obtain ⟨k, ha⟩ := ha
    have hst : (Lists.insert st thresholds a s).2 = st := by
      simp [Lists.insert, Lists.contains, h.wellFormed.nodes_of_mem ha]
    rw [hst, Bags.insert, if_pos (by simp [h.bagOf_eq_some ha])]
    exact h
  · have ha : ∀ k, a ∉ b.seq k := fun k hk => ha ⟨k, hk⟩
    obtain ⟨-, hw, -⟩ := h.wellFormed.insert (notionalBagFor_mem_bagKeys thresholds s) ha
    rw [Bags.insert, if_neg (by simp [bagOf_eq_none ha])]
    refine ⟨hw, fun k a' ha' => ?_⟩
    dsimp only at ha' ⊢
    -- the new id is placed by its score, the others where they were
    by_cases hk : k = notionalBagFor thresholds s
    · subst hk
      rw [Function.update_self, List.mem_append, List.mem_singleton] at ha'
      rcases ha' with ha' | rfl
      · have hne : a' ≠ a := fun he => ha _ (he ▸ ha')
        rw [Function.update_of_ne hne]
        exact h.placed _ a' ha'
      · rw [Function.update_self]
    · rw [Function.update_of_ne hk] at ha'
      have hne : a' ≠ a := fun he => ha k (he ▸ ha')
      rw [Function.update_of_ne hne]
      exact h.placed k a' ha'

theorem remove (a : A) : Stores thresholds (Lists.remove st a).2 (b.remove thresholds a) := by
  by_cases ha : ∃ k, a ∈ b.seq k
  · obtain ⟨k, ha⟩ := ha
    simp only [Bags.remove, h.bagOf_eq_some ha]
    refine ⟨h.wellFormed.remove ha, fun k' a' ha' => ?_⟩
    dsimp only at ha' ⊢
    rw [Function.update_apply] at ha'
    split_ifs at ha' with hk
    · subst hk
      exact h.placed _ a' (List.mem_of_mem_erase ha')
    · exact h.placed k' a' ha'
  · -- an id not stored: `NodeNotFound`, and nothing changes
    have ha : ∀ k, a ∉ b.seq k := fun k hk => ha ⟨k, hk⟩
    have hst : (Lists.remove st a).2 = st := by
      simp [Lists.remove, Lists.contains, h.wellFormed.nodes_eq_none ha]
    rw [hst, Bags.remove, bagOf_eq_none ha]
    exact h

theorem update [Zero S] (a : A) (s : S) :
    Stores thresholds (doRebag st thresholds a s).2 (b.update thresholds a s) := by
  by_cases ha : ∃ k, a ∈ b.seq k
  · obtain ⟨k, ha⟩ := ha
    have hnode := h.wellFormed.nodes_of_mem ha
    by_cases hs : notionalBagFor thresholds s = k
    · -- the id keeps its place, with its new score
      have hrun : (doRebag st thresholds a s).2 =
          Node.put st (cellIn (b.seq k) k (Function.update b.score a s) a) := by
        simp only [doRebag, Node.get, hnode, h.wellFormed.updatePositionFor_of_placed hs]
      simp only [hrun, Bags.update, h.bagOf_eq_some ha, if_pos hs]
      refine ⟨h.wellFormed.putScore ha s, fun k' a' ha' => ?_⟩
      dsimp only at ha' ⊢
      by_cases hax : a' = a
      · subst hax
        rw [Function.update_self, h.wellFormed.eq_of_mem ha' ha]
        exact hs
      · rw [Function.update_of_ne hax]
        exact h.placed k' a' ha'
    · -- the move is a remove and an insert, on the storage as on the bags
      have hrun : (doRebag st thresholds a s).2 =
          (Lists.insert (Lists.remove st a).2 thresholds a s).2 := by
        simp only [doRebag, Node.get, hnode, h.wellFormed.updatePositionFor_of_misplaced ha hs]
      simp only [hrun, Bags.update, h.bagOf_eq_some ha, if_neg hs]
      exact (h.remove a).insert a s
  · have ha : ∀ k, a ∉ b.seq k := fun k hk => ha ⟨k, hk⟩
    have hst : (doRebag st thresholds a s).2 = st := by
      simp [doRebag, Node.get, h.wellFormed.nodes_eq_none ha]
    rw [hst, Bags.update, bagOf_eq_none ha]
    exact h

/-- The move of `List::put_in_front_of` within bag `k`: the storage holds that bag with `heavier`
taken out and put back right before `lighter`. -/
theorem moveInFront {scoreOf : A → S} {k : S} {lighter heavier : A} (hl : lighter ∈ b.seq k)
    (hh : heavier ∈ b.seq k) (hs : scoreOf lighter < scoreOf heavier) :
    ∃ st', Lists.putInFrontOf st scoreOf lighter heavier = some (.ok (), st') ∧
      Stores thresholds st'
        { b with seq := Function.update b.seq k (insertBefore heavier lighter ((b.seq k).erase heavier)) } := by
  have hw := h.wellFormed
  have hne : lighter ≠ heavier := fun he => lt_irrefl _ (he ▸ hs)
  obtain ⟨st', hst, hw', -, -⟩ := hw.moveInFront hl hh hne
  -- `lighter` as the code reads it again after the remove
  have hl₁ := (hw.remove hh).nodes_of_mem (a := lighter) (k := k)
    (by rw [Function.update_self]; exact (List.mem_erase_of_ne hne).mpr hl)
  rw [Function.update_self] at hl₁
  refine ⟨st', ?_, hw', fun k' a ha => ?_⟩
  · simp only [Lists.putInFrontOf, Node.get, hw.nodes_of_mem hl, hw.nodes_of_mem hh,
      bagUpper_cellIn, ne_eq, not_true_eq_false, if_false, gt_iff_lt, hs, hl₁, hst, Option.map_some]
  · -- the bag keeps its ids, and the ids their scores
    dsimp only at ha ⊢
    rw [Function.update_apply] at ha
    split_ifs at ha with hk
    · subst hk
      exact h.placed _ a ((mem_insertBefore_erase_iff (hw.nodup_seq _) hh
        ((List.mem_erase_of_ne hne).mpr hl)).mp ha)
    · exact h.placed k' a ha

theorem putInFrontOf (scoreOf : A → S) (lighter heavier : A) :
    ∃ st', (Lists.putInFrontOf st scoreOf lighter heavier).map (·.2) = some st' ∧
      Stores thresholds st' (b.putInFrontOf thresholds scoreOf lighter heavier) := by
  have hw := h.wellFormed
  by_cases hl : ∃ k, lighter ∈ b.seq k
  · obtain ⟨kl, hl⟩ := hl
    by_cases hh : ∃ k, heavier ∈ b.seq k
    · obtain ⟨k, hh⟩ := hh
      by_cases hok : kl = k ∧ scoreOf lighter < scoreOf heavier
      · obtain ⟨rfl, hs⟩ := hok
        obtain ⟨st', hst, hst'⟩ := h.moveInFront hl hh hs
        refine ⟨st', by rw [hst, Option.map_some], ?_⟩
        simpa only [Bags.putInFrontOf, h.bagOf_eq_some hl, h.bagOf_eq_some hh, true_and, hs,
          if_true] using hst'
      · -- a failed check: `NotInSameBag` or `NotHeavier`, and nothing changes
        refine ⟨st, ?_, ?_⟩
        · by_cases hk : kl = k
          · have hs : ¬scoreOf heavier > scoreOf lighter := fun hs => hok ⟨hk, hs⟩
            simp [Lists.putInFrontOf, Node.get, hw.nodes_of_mem hl, hw.nodes_of_mem hh, hk, hs]
          · simp [Lists.putInFrontOf, Node.get, hw.nodes_of_mem hl, hw.nodes_of_mem hh, hk]
        · simp only [Bags.putInFrontOf, h.bagOf_eq_some hl, h.bagOf_eq_some hh, if_neg hok]
          exact h
    · -- `heavier` not stored: `NodeNotFound`
      have hh : ∀ k, heavier ∉ b.seq k := fun k hk => hh ⟨k, hk⟩
      refine ⟨st, ?_, ?_⟩
      · simp [Lists.putInFrontOf, Node.get, hw.nodes_of_mem hl, hw.nodes_eq_none hh]
      · simp only [Bags.putInFrontOf, h.bagOf_eq_some hl, bagOf_eq_none hh]
        exact h
  · have hl : ∀ k, lighter ∉ b.seq k := fun k hk => hl ⟨k, hk⟩
    refine ⟨st, ?_, ?_⟩
    · simp [Lists.putInFrontOf, Node.get, hw.nodes_eq_none hl]
    · simp only [Bags.putInFrontOf, bagOf_eq_none hl]
      exact h

theorem regenerate [Zero S] (ids : List A) (scoreOf : A → S) :
    Stores thresholds (Lists.unsafeRegenerate thresholds ids scoreOf).2
      (ids.foldl (fun b a => b.insert thresholds a (scoreOf a)) Bags.empty) :=
  foldl_simulation (fun (acc : ℕ × Lists A S) b => Stores thresholds acc.2 b)
    (fun _ _ a h => h.insert a (scoreOf a)) ids _ _ (unsafeClear h.wellFormed.keys_nodup)

/-- **Each call simulates the call on the bags.** -/
theorem step [Zero S] (op : Op A S) :
    ∃ st', BagsList.step thresholds st op = some st' ∧
      Stores thresholds st' (b.step thresholds op) := by
  cases op with
  | insert a s => exact ⟨_, rfl, h.insert a s⟩
  | update a s => exact ⟨_, rfl, h.update a s⟩
  | remove a => exact ⟨_, rfl, h.remove a⟩
  | putInFrontOf scoreOf lighter heavier => exact h.putInFrontOf scoreOf lighter heavier
  | regenerate ids scoreOf => exact ⟨_, rfl, h.regenerate ids scoreOf⟩
  | clear => exact ⟨_, rfl, unsafeClear h.wellFormed.keys_nodup⟩

omit h in
theorem foldlM_step [Zero S] (ops : List (Op A S)) (h : Stores thresholds st b) :
    ∃ st', ops.foldlM (BagsList.step thresholds) st = some st' ∧
      Stores thresholds st' (ops.foldl (Bags.step thresholds) b) :=
  foldlM_simulation (Stores thresholds) (fun _ _ op h => h.step op) ops st b h

end Stores

/-! ## Runs from the cleared list -/

section Runs

variable [Zero S] {thresholds : List S}

theorem run_stores (hth : thresholds.Pairwise (· < ·)) (ops : List (Op A S)) :
    ∃ st, run thresholds ops = some st ∧ Stores thresholds st (Bags.run thresholds ops) :=
  Stores.foldlM_step ops (Stores.unsafeClear ((pairwise_bagKeys hth).imp ne_of_lt))

/-- **Any run of the pallet's calls** from the cleared list, with strictly increasing thresholds,
never panics and stores the bags of the same run on `Bags`: the list is well formed with them,
every id is in the bag of its score, and `List::iter` gives those bags from the highest down. -/
theorem run_simulates (hth : thresholds.Pairwise (· < ·)) (ops : List (Op A S)) :
    ∃ st, run thresholds ops = some st ∧ Stores thresholds st (Bags.run thresholds ops) ∧
      ∀ fuel, st.count ≤ fuel →
        Lists.iter st thresholds fuel = (Lists.bagKeys thresholds).reverse.flatMap
          (bagCells (Bags.run thresholds ops).seq (Bags.run thresholds ops).score) := by
  obtain ⟨st, hrun, hst⟩ := run_stores hth ops
  exact ⟨st, hrun, hst, fun fuel hf => hst.wellFormed.iter_eq thresholds hf⟩

/-- Two ids inserted on both sides of the threshold `10`, and the first one rebagged above it. -/
def rebagRun : List (Op ℕ ℕ∞) := [.insert 0 5, .insert 1 20, .update 0 30]

theorem run_simulates_rebagRun :
    ([10] : List ℕ∞).Pairwise (· < ·) ∧
      ∃ st, run [10] rebagRun = some st ∧ Stores [10] st (Bags.run [10] rebagRun) ∧
        ∀ fuel, st.count ≤ fuel →
          Lists.iter st [10] fuel = (Lists.bagKeys [10]).reverse.flatMap
            (bagCells (Bags.run [10] rebagRun).seq (Bags.run [10] rebagRun).score) :=
  have hth : ([10] : List ℕ∞).Pairwise (· < ·) := List.pairwise_singleton _ _
  ⟨hth, run_simulates hth rebagRun⟩

theorem Stores.mem_iter {st : Lists A S} {b : Bags A S} (h : Stores thresholds st b) {fuel : ℕ}
    (hf : st.count ≤ fuel) {n : Node A S} :
    n ∈ Lists.iter st thresholds fuel ↔ ∃ k, ∃ a ∈ b.seq k, n = cellIn (b.seq k) k b.score a := by
  rw [h.wellFormed.iter_eq thresholds hf, List.mem_flatMap]
  constructor
  · rintro ⟨k, -, hn⟩
    obtain ⟨a, ha, rfl⟩ := List.mem_map.mp hn
    exact ⟨k, a, ha, rfl⟩
  · rintro ⟨k, a, ha, rfl⟩
    exact ⟨k, List.mem_reverse.mpr (h.wellFormed.mem_keys ha), List.mem_map_of_mem ha⟩

/-- **`List::iter` after any run of calls** from the cleared list, with strictly increasing
thresholds and fuel for every node: it visits every stored node, each id once, as many as
`ListNodes` counts; each node is in the bag of its score; and the nodes come by bag from the
highest down, each scoring more than the nodes of every lower bag. -/
theorem run_iter_sorted (hth : thresholds.Pairwise (· < ·)) (ops : List (Op A S)) :
    ∃ st, run thresholds ops = some st ∧ ∀ fuel, st.count ≤ fuel →
      (∀ a node, st.nodes a = some node → node ∈ Lists.iter st thresholds fuel) ∧
      ((Lists.iter st thresholds fuel).map Node.id).Nodup ∧
      (Lists.iter st thresholds fuel).length = st.count ∧
      (∀ n ∈ Lists.iter st thresholds fuel, n.bagUpper = notionalBagFor thresholds n.score) ∧
      (Lists.iter st thresholds fuel).Pairwise fun n m =>
        m.bagUpper ≤ n.bagUpper ∧ (m.bagUpper ≠ n.bagUpper → m.score < n.score) := by
  obtain ⟨st, hrun, hst⟩ := run_stores hth ops
  refine ⟨st, hrun, fun fuel hf => ?_⟩
  have hw := hst.wellFormed
  -- every visited node is in the bag of its score
  have hplaced : ∀ n ∈ Lists.iter st thresholds fuel,
      n.bagUpper = notionalBagFor thresholds n.score := by
    intro n hn
    obtain ⟨k, a, ha, rfl⟩ := (hst.mem_iter hf).mp hn
    exact (hst.placed k a ha).symm
  refine ⟨fun a node hnode => ?_, hw.nodup_iter hf, ?_, hplaced, ?_⟩
  · obtain ⟨k, ha, rfl⟩ := hw.exists_cellIn hnode
    exact (hst.mem_iter hf).mpr ⟨k, a, ha, rfl⟩
  · have hids : (Lists.iter st thresholds fuel).map Node.id =
        (Lists.bagKeys thresholds).reverse.flatMap (Bags.run thresholds ops).seq := by
      rw [hw.iter_eq thresholds hf, List.map_flatMap]
      simp only [map_id_bagCells]
    rw [← List.length_map Node.id, hids, ((List.reverse_perm _).flatMap_right _).length_eq,
      hw.count_eq]
  · -- the bags go down, and a node of a higher bag scores more, the bags growing with the score
    refine (List.pairwise_map.mp (hw.pairwise_bagUpper_iter hth hf)).imp_of_mem
      fun hn hm hge => ⟨hge, fun hne => ?_⟩
    rw [hplaced _ hn, hplaced _ hm] at hne hge
    exact lt_of_not_ge fun hle => hne (le_antisymm hge (notionalBagFor_mono hth hle))

theorem run_iter_sorted_rebagRun :
    ([10] : List ℕ∞).Pairwise (· < ·) ∧
      ∃ st, run [10] rebagRun = some st ∧ ∀ fuel, st.count ≤ fuel →
        (∀ a node, st.nodes a = some node → node ∈ Lists.iter st [10] fuel) ∧
        ((Lists.iter st [10] fuel).map Node.id).Nodup ∧
        (Lists.iter st [10] fuel).length = st.count ∧
        (∀ n ∈ Lists.iter st [10] fuel, n.bagUpper = notionalBagFor [10] n.score) ∧
        (Lists.iter st [10] fuel).Pairwise fun n m =>
          m.bagUpper ≤ n.bagUpper ∧ (m.bagUpper ≠ n.bagUpper → m.score < n.score) :=
  have hth : ([10] : List ℕ∞).Pairwise (· < ·) := List.pairwise_singleton _ _
  ⟨hth, run_iter_sorted hth rebagRun⟩

end Runs

end PolkadotSdk.BagsList
