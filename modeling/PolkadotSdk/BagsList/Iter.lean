import Mathlib.Data.ENat.Basic
import PolkadotSdk.BagsList.WellFormed

/-!
# Iterating a bags list

`List::iter` visits the bags from the highest key down, the thresholds with `Score::max_value()`
appended when they do not end with it, and each bag from head to tail. `List::iter_from(start)`
visits the rest of the bag of `start`, then the bags of the thresholds below its bag, which it finds
with `partition_point`.

On a well-formed list whose thresholds increase strictly, and with enough fuel for the longest bag,
both read the bags the list holds. `iter` is the concatenation of the bags' nodes from the highest
key down (`WellFormed.iter_eq`), so its bags never go up; `iter_from` of a stored id is exactly what
`iter` gives after that id, since `partition_point` on the sorted thresholds takes the thresholds
below the bag of `start` (`take_partitionPoint`), which are the keys after it in `iter`. The bag of
a score is the least threshold at least the score, or `Score::max_value()` past the last
(`notionalBagFor_isLeast`).
-/

set_option linter.unusedSectionVars false

namespace PolkadotSdk.BagsList

open PolkadotSdk.Lib.Sequences

variable {A S : Type*} [DecidableEq A] [LinearOrder S] [OrderTop S]

/-! ## Thresholds -/

section Thresholds

variable {thresholds : List S}

theorem notionalBagFor_isLeast (h : thresholds.Pairwise (· < ·)) (s : S) :
    IsLeast {t | t ∈ thresholds ∧ s ≤ t} (notionalBagFor thresholds s) ∨
      ((∀ t ∈ thresholds, t < s) ∧ notionalBagFor thresholds s = ⊤) := by
  unfold notionalBagFor
  cases ht : thresholds[partitionPoint (fun t => decide (t < s)) thresholds]? with
  | none =>
    right
    exact ⟨forall_lt_of_partitionPoint ht, by simp only [gt_iff_lt, ht, Option.getD_none]⟩
  | some t =>
    left
    simp only [gt_iff_lt, ht, Option.getD_some]
    exact isLeast_partitionPoint h ht

theorem top_mem_bagKeys : (⊤ : S) ∈ Lists.bagKeys thresholds := by
  unfold Lists.bagKeys
  split_ifs with hl
  · exact List.mem_of_getLast? hl
  · exact List.mem_append_right _ (List.mem_singleton_self _)

theorem getLast?_of_top_mem (h : thresholds.Pairwise (· < ·)) (ht : (⊤ : S) ∈ thresholds) :
    thresholds.getLast? = some ⊤ := by
  obtain ⟨s, t, rfl⟩ := List.append_of_mem ht
  obtain ⟨-, htop, -⟩ := List.pairwise_append.mp h
  cases t with
  | nil => simp
  | cons b t => exact absurd (List.rel_of_pairwise_cons htop List.mem_cons_self) not_top_lt

theorem notionalBagFor_mem_bagKeys (thresholds : List S) (s : S) :
    notionalBagFor thresholds s ∈ Lists.bagKeys thresholds := by
  unfold notionalBagFor
  cases ht : thresholds[partitionPoint (fun t => decide (t < s)) thresholds]? with
  | none =>
    simp only [gt_iff_lt, ht, Option.getD_none]
    exact top_mem_bagKeys
  | some t =>
    simp only [gt_iff_lt, ht, Option.getD_some]
    unfold Lists.bagKeys
    split_ifs
    · exact List.mem_of_getElem? ht
    · exact List.mem_append_left _ (List.mem_of_getElem? ht)

theorem notionalBagFor_mono (h : thresholds.Pairwise (· < ·)) {s s' : S} (hss : s ≤ s') :
    notionalBagFor thresholds s ≤ notionalBagFor thresholds s' := by
  rcases notionalBagFor_isLeast h s' with hl | ⟨-, htop⟩
  · -- the bag of `s'` is a threshold at least `s'`, so at least `s`
    rcases notionalBagFor_isLeast h s with hl' | ⟨hall, -⟩
    · exact hl'.2 ⟨hl.1.1, hss.trans hl.1.2⟩
    · exact absurd (hall _ hl.1.1) (not_lt.mpr (hss.trans hl.1.2))
  · rw [htop]
    exact le_top

theorem pairwise_bagKeys (h : thresholds.Pairwise (· < ·)) :
    (Lists.bagKeys thresholds).Pairwise (· < ·) := by
  unfold Lists.bagKeys
  split_ifs with hl
  · exact h
  · refine List.pairwise_append.mpr ⟨h, List.pairwise_singleton _ _, fun a ha b hb => ?_⟩
    rw [List.mem_singleton.mp hb, lt_top_iff_ne_top]
    rintro rfl
    exact hl (getLast?_of_top_mem h ha)

theorem filter_lt_bagKeys (k : S) :
    (Lists.bagKeys thresholds).filter (fun t => decide (t < k)) =
      thresholds.filter (fun t => decide (t < k)) := by
  unfold Lists.bagKeys
  split_ifs
  · rfl
  · simp [List.filter_append, not_top_lt]

end Thresholds

/-! ## Bags as runs of their nodes -/

/-- The nodes of bag `k` of a list holding the bags `seq`, from head to tail. -/
def bagCells (seq : S → List A) (score : A → S) (k : S) : List (Node A S) :=
  (seq k).map (cellIn (seq k) k score)

section Cells

variable {st : Lists A S} {k : S} {score : A → S} {l : List A}

theorem bagUpper_of_mem_bagCells {seq : S → List A} {n : Node A S}
    (h : n ∈ bagCells seq score k) : n.bagUpper = k := by
  obtain ⟨a, -, rfl⟩ := List.mem_map.mp h
  rfl

@[simp] theorem map_id_bagCells (seq : S → List A) (k : S) :
    (bagCells seq score k).map Node.id = seq k := by
  simp [bagCells, Function.comp_def]

theorem Linked.isRun (hl : Linked st k score l) (hnd : l.Nodup) :
    IsRun (Node.nextNode st) (l.map (cellIn l k score)) := by
  refine (isRun_nextIn hnd).map _ fun a _ => ?_
  simp only [Node.nextNode, next_cellIn]
  cases h : nextIn l a with
  | none => rfl
  | some b => rw [Option.bind_some, hl b (mem_of_nextIn_eq_some h), Option.map_some]

theorem Linked.iter (hl : Linked st k score l) (hnd : l.Nodup) {bag : Bag A S}
    (hhead : bag.head = l.head?) {fuel : ℕ} (hf : l.length ≤ fuel) :
    Bag.iter st fuel bag = l.map (cellIn l k score) := by
  have hfirst : Bag.headNode st bag = (l.map (cellIn l k score)).head? := by
    rw [Bag.headNode, hhead, List.head?_map]
    cases h : l.head? with
    | none => rfl
    | some a => rw [Option.bind_some, hl a (List.mem_of_mem_head? h), Option.map_some]
  rw [Bag.iter, hfirst]
  exact successors_of_isRun _ (hl.isRun hnd) (by rwa [List.length_map])

end Cells

namespace WellFormed

variable {keys : List S} {st : Lists A S} {seq : S → List A} {score : A → S}

section Iter

variable (hw : WellFormed keys st seq score)
include hw

theorem length_le_count (k : S) : (seq k).length ≤ st.count := by
  by_cases hk : k ∈ keys
  · rw [hw.count_eq, (hw.perm_flatMap k hk).length_eq, List.length_append]
    omega
  · rw [hw.seq_eq_nil k hk]
    exact Nat.zero_le _

theorem flatMap_iter {fuel : ℕ} :
    ∀ ks : List S, (∀ k ∈ ks, (seq k).length ≤ fuel) →
      (ks.filterMap (Bag.get st)).flatMap (Bag.iter st fuel) = ks.flatMap (bagCells seq score)
  | [], _ => rfl
  | k :: ks, hf => by
    have ih := flatMap_iter ks fun k' hk' => hf k' (List.mem_cons_of_mem k hk')
    by_cases hk : seq k = []
    · have hb := hw.bagFor k
      unfold BagFor at hb
      rw [hk, if_pos rfl, Option.map_eq_none_iff] at hb
      simp [Bag.get, hb, ih, bagCells, hk]
    · obtain ⟨bag, hbag, hhead, -, -⟩ := hw.get_bag hk
      rw [List.filterMap_cons_some hbag, List.flatMap_cons, List.flatMap_cons, ih,
        (hw.linked k).iter (hw.nodup_seq k) hhead (hf k List.mem_cons_self)]
      rfl

/-- **`List::iter`** with fuel for every bag gives the nodes of the bags from the highest key
down, each bag from head to tail. -/
theorem iter_eq (thresholds : List S) {fuel : ℕ} (hf : st.count ≤ fuel) :
    Lists.iter st thresholds fuel = (Lists.bagKeys thresholds).reverse.flatMap (bagCells seq score) :=
  hw.flatMap_iter _ fun k _ => (hw.length_le_count k).trans hf

end Iter

section IterFrom

variable {thresholds : List S} (hw : WellFormed (Lists.bagKeys thresholds) st seq score)
include hw

theorem nodup_iter {fuel : ℕ} (hf : st.count ≤ fuel) :
    ((Lists.iter st thresholds fuel).map Node.id).Nodup := by
  rw [hw.iter_eq thresholds hf, List.map_flatMap]
  simp only [map_id_bagCells]
  exact ((List.reverse_perm _).flatMap_right seq).nodup_iff.mpr hw.nodup

theorem pairwise_bagUpper_iter (hth : thresholds.Pairwise (· < ·)) {fuel : ℕ}
    (hf : st.count ≤ fuel) :
    ((Lists.iter st thresholds fuel).map Node.bagUpper).Pairwise (· ≥ ·) := by
  rw [hw.iter_eq thresholds hf, List.pairwise_map, List.pairwise_flatMap]
  refine ⟨fun k _ => List.pairwise_of_forall_mem_list fun a ha b hb => ?_, ?_⟩
  · -- one bag: every node has its key
    rw [bagUpper_of_mem_bagCells ha, bagUpper_of_mem_bagCells hb]
  · -- two bags: the first has the higher key
    refine (List.pairwise_reverse.mpr (pairwise_bagKeys hth)).imp fun hab x hx y hy => ?_
    rw [bagUpper_of_mem_bagCells hx, bagUpper_of_mem_bagCells hy]
    exact hab.le

theorem iter_eq_around (hth : thresholds.Pairwise (· < ·)) {fuel : ℕ} (hf : st.count ≤ fuel)
    {k : S} (hk : k ∈ Lists.bagKeys thresholds) :
    Lists.iter st thresholds fuel =
      ((Lists.bagKeys thresholds).filter (fun t => decide (k < t))).reverse.flatMap
          (bagCells seq score) ++
        (bagCells seq score k ++
          (thresholds.filter (fun t => decide (t < k))).reverse.flatMap (bagCells seq score)) := by
  have hkeys := eq_filter_lt_append (pairwise_bagKeys hth) hk
  rw [filter_lt_bagKeys] at hkeys
  set above := (Lists.bagKeys thresholds).filter (fun t => decide (k < t))
  rw [hw.iter_eq thresholds hf, hkeys, List.reverse_append, List.reverse_cons,
    List.flatMap_append, List.flatMap_append, List.flatMap_singleton, List.append_assoc]

/-- `List::iter_from` of an id of bag `k`: the ids after it in its bag, along the `next` links,
then the bags of the thresholds below `k`, which `partition_point` takes. -/
theorem iterFrom_of_mem (hth : thresholds.Pairwise (· < ·)) {fuel : ℕ} (hf : st.count ≤ fuel)
    {k : S} {id : A} {pre post : List A} (hsplit : seq k = pre ++ id :: post) :
    Lists.iterFrom st thresholds fuel id = .ok (post.map (cellIn (seq k) k score) ++
      (thresholds.filter (fun t => decide (t < k))).reverse.flatMap (bagCells seq score)) := by
  have hmem : id ∈ seq k := by
    rw [hsplit]
    exact List.mem_append_right pre List.mem_cons_self
  -- the rest of the bag is the run of `next` links from `id`
  have hrun := (hw.linked k).isRun (hw.nodup_seq k)
  rw [hsplit, List.map_append, List.map_cons, ← hsplit] at hrun
  have hlen : (post.map (cellIn (seq k) k score)).length ≤ fuel := by
    have := hw.length_le_count k
    rw [hsplit, List.length_append, List.length_cons] at this
    rw [List.length_map]
    omega
  simp only [Lists.iterFrom, Node.get, hw.nodes_of_mem hmem, bagUpper_cellIn, gt_iff_lt,
    take_partitionPoint hth, successors_succ_of_isRun hrun hlen]
  rw [hw.flatMap_iter _ fun k' _ => (hw.length_le_count k').trans hf]

/-- **`List::iter_from`** of a stored id gives what `List::iter` gives after its node: the rest of
its bag, then the bags of the keys below. -/
theorem iterFrom_eq (hth : thresholds.Pairwise (· < ·)) {fuel : ℕ} (hf : st.count ≤ fuel)
    {id : A} {node : Node A S}
    (hnode : st.nodes id = some node) :
    ∃ pre post, Lists.iter st thresholds fuel = pre ++ node :: post ∧
      Lists.iterFrom st thresholds fuel id = .ok post := by
  obtain ⟨k, hmem, rfl⟩ := hw.exists_cellIn hnode
  obtain ⟨pre, post, hsplit⟩ := List.append_of_mem hmem
  refine ⟨((Lists.bagKeys thresholds).filter (fun t => decide (k < t))).reverse.flatMap
      (bagCells seq score) ++ pre.map (cellIn (seq k) k score), _, ?_,
    hw.iterFrom_of_mem hth hf hsplit⟩
  -- the bag of `k` around `id`
  have hcells : bagCells seq score k = pre.map (cellIn (seq k) k score) ++
      cellIn (seq k) k score id :: post.map (cellIn (seq k) k score) := by
    have h := congrArg (List.map (cellIn (seq k) k score)) hsplit
    rwa [List.map_append, List.map_cons] at h
  rw [hw.iter_eq_around hth hf (hw.mem_keys hmem), hcells]
  simp only [List.append_assoc, List.cons_append]

end IterFrom

end WellFormed

/-! ## Iteration of a well-formed list -/

section Spec

variable {thresholds : List S} {st : Lists A S} {seq : S → List A} {score : A → S}

/-- **`List::iter` and `List::iter_from`** on a well-formed list with strictly increasing
thresholds, with fuel for every bag. `notional_bag_for` gives the least threshold at least the
score, or `Score::max_value()` past the last; `iter` visits every id once, its bags never going up;
`iter_from` of a stored id gives exactly the nodes after it in `iter`, and of an id not stored
`NodeNotFound`. -/
theorem iterFrom_follows_iter (hth : thresholds.Pairwise (· < ·))
    (hw : WellFormed (Lists.bagKeys thresholds) st seq score) {fuel : ℕ} (hf : st.count ≤ fuel) :
    (∀ s, IsLeast {t | t ∈ thresholds ∧ s ≤ t} (notionalBagFor thresholds s) ∨
      ((∀ t ∈ thresholds, t < s) ∧ notionalBagFor thresholds s = ⊤)) ∧
    ((Lists.iter st thresholds fuel).map Node.bagUpper).Pairwise (· ≥ ·) ∧
    ((Lists.iter st thresholds fuel).map Node.id).Nodup ∧
    (∀ id node, st.nodes id = some node → ∃ pre post,
      Lists.iter st thresholds fuel = pre ++ node :: post ∧
        Lists.iterFrom st thresholds fuel id = .ok post) ∧
    (∀ id, st.nodes id = none → Lists.iterFrom st thresholds fuel id = .error .nodeNotFound) := by
  refine ⟨notionalBagFor_isLeast hth, hw.pairwise_bagUpper_iter hth hf, hw.nodup_iter hf,
    fun id node hnode => hw.iterFrom_eq hth hf hnode, fun id hid => ?_⟩
  simp [Lists.iterFrom, Node.get, hid]

/-- Id `0` in the bag of threshold `10`, id `1` in the bag of `⊤`. -/
def twoBags : Lists ℕ ℕ∞ where
  nodes a :=
    if a = 0 then some ⟨0, none, none, (10 : ℕ), (5 : ℕ)⟩
    else if a = 1 then some ⟨1, none, none, ⊤, (20 : ℕ)⟩ else none
  count := 2
  bags k :=
    if k = (10 : ℕ) then some ⟨some 0, some 0, (10 : ℕ)⟩
    else if k = ⊤ then some ⟨some 1, some 1, ⊤⟩ else none

/-- The bags of `twoBags`. -/
def twoSeq (k : ℕ∞) : List ℕ := if k = (10 : ℕ) then [0] else if k = ⊤ then [1] else []

/-- The scores of `twoBags`. -/
def twoScore (a : ℕ) : ℕ∞ := if a = 0 then (5 : ℕ) else (20 : ℕ)

theorem wellFormed_twoBags : WellFormed (Lists.bagKeys [10]) twoBags twoSeq twoScore := by
  have hkeys : Lists.bagKeys [(10 : ℕ∞)] = [10, ⊤] := by decide
  rw [hkeys]
  refine WellFormed.of_support (by decide) (by decide) (fun k hk => ?_) (fun k hk => ?_)
    (fun a ha => ?_) (fun k hk => ?_) (fun k hk => ?_) rfl
  · have hk : k ≠ 10 ∧ k ≠ ⊤ := by simpa using hk
    simp [twoSeq, hk.1, hk.2]
  · have hk : k ≠ 10 ∧ k ≠ ⊤ := by simpa using hk
    simp [twoBags, hk.1, hk.2]
  · have ha : a ≠ 0 ∧ a ≠ 1 := by simpa [twoSeq] using ha
    simp [twoBags, ha.1, ha.2]
  · simp only [List.mem_cons, List.not_mem_nil, or_false] at hk
    rcases hk with rfl | rfl <;> unfold BagFor <;> decide
  · simp only [List.mem_cons, List.not_mem_nil, or_false] at hk
    rcases hk with rfl | rfl <;> unfold Linked <;> decide

/-- From id `1`, the head of the top bag, `iter_from` goes on into the bag below. -/
theorem iterFrom_follows_iter_twoBags :
    [(10 : ℕ∞)].Pairwise (· < ·) ∧ WellFormed (Lists.bagKeys [10]) twoBags twoSeq twoScore ∧
      ∃ pre post, Lists.iter twoBags [10] 2 = pre ++ ⟨1, none, none, ⊤, 20⟩ :: post ∧
        Lists.iterFrom twoBags [10] 2 1 = .ok post := by
  have hth : [(10 : ℕ∞)].Pairwise (· < ·) := List.pairwise_singleton _ _
  exact ⟨hth, wellFormed_twoBags, (iterFrom_follows_iter hth wellFormed_twoBags le_rfl).2.2.2.1 1 _
    rfl⟩

end Spec

end PolkadotSdk.BagsList
