import PolkadotSdk.BagsList.Iter
import PolkadotSdk.BagsList.Reorder

/-!
# Rebagging an id

`Pallet::do_rebag` reads the node of an account and hands it to `List::update_position_for` with
its new score. A node that stays in the bag of its score is only written back with the new score.
A misplaced one is cut out of its bag, by `Node::excise` inside the bag and by
`Bag::remove_node_unchecked` at an end of it (`cutOut`), and appended to the bag of the new score
by `Bag::insert_node_unchecked`. Unlike `List::remove`, the cut leaves the node in `ListNodes`, so
the counter stays, and the insert writes the node over its stale copy.

On a well-formed list that path is exactly a `List::remove` followed by a `List::insert` with the
new score (`WellFormed.updatePositionFor_of_misplaced`): the id moves to the tail of the bag of its
new score, and the counter comes back to where it was.
-/

set_option linter.unusedSectionVars false

namespace PolkadotSdk.BagsList

open PolkadotSdk.Lib.Sequences

variable {A S : Type*} [DecidableEq A] [LinearOrder S] [OrderTop S]

/-- `Pallet::do_rebag`, without its events: `NodeNotFound` for an id not stored, and otherwise
the movement of `update_position_for`. -/
def doRebag (st : Lists A S) (thresholds : List S) (account : A) (newScore : S) :
    Except ListError (Option (S × S)) × Lists A S :=
  match Node.get st account with
  | none => (.error .nodeNotFound, st)
  | some node =>
    let r := Lists.updatePositionFor st thresholds node newScore
    (.ok r.1, r.2)

/-- The cut of a misplaced node by `update_position_for`, before it goes into its new bag. -/
def cutOut (st : Lists A S) (node : Node A S) : Lists A S :=
  if !node.isTerminal then Node.excise st node
  else match Bag.get st node.bagUpper with
    | some bag =>
      let r := Bag.removeNodeUnchecked st bag node
      Bag.put r.1 r.2
    | none => st

theorem updatePositionFor_eq (st : Lists A S) (thresholds : List S) (node : Node A S)
    (newScore : S) :
    Lists.updatePositionFor st thresholds node newScore =
      if node.isMisplaced thresholds newScore then
        let r := Bag.insertNodeUnchecked (cutOut st { node with score := newScore })
          (Bag.getOrMake (cutOut st { node with score := newScore })
            (notionalBagFor thresholds newScore)) { node with score := newScore }
        (some (node.bagUpper, notionalBagFor thresholds newScore), Bag.put r.1 r.2)
      else (none, Node.put st { node with score := newScore }) := rfl

theorem cutOut_setScore (st : Lists A S) (node : Node A S) (s : S) :
    cutOut st { node with score := s } = cutOut st node := rfl

@[simp] theorem getOrMake_nodePut (st : Lists A S) (node : Node A S) (k : S) :
    Bag.getOrMake (Node.put st node) k = Bag.getOrMake st k := rfl

theorem cellIn_setScore {l : List A} {k : S} {score : A → S} (x : A) (s : S) :
    { cellIn l k score x with score := s } = cellIn l k (Function.update score x s) x := by
  simp [cellIn]

namespace WellFormed

variable {keys : List S} {st : Lists A S} {seq : S → List A} {score : A → S}

section Rebag

variable (hw : WellFormed keys st seq score)
include hw

/-- Writing the node of an id back with a new score keeps the bags. -/
theorem putScore {x : A} {k : S} (hx : x ∈ seq k) (s : S) :
    WellFormed keys (Node.put st (cellIn (seq k) k (Function.update score x s) x)) seq
      (Function.update score x s) := by
  refine ⟨hw.keys_nodup, hw.nodup, hw.seq_eq_nil, fun k' => ?_, fun k' a ha => ?_,
    fun a node h => ?_, ?_⟩
  · unfold BagFor
    rw [Node.bags_put]
    exact hw.bagFor k'
  · rw [Node.nodes_put, id_cellIn, Function.update_apply]
    split_ifs with hax
    · subst hax
      rw [hw.eq_of_mem ha hx]
    · rw [hw.nodes_of_mem ha]
      simp [cellIn, Function.update_of_ne hax]
  · rw [Node.nodes_put, id_cellIn, Function.update_apply] at h
    split_ifs at h with hax
    · cases h
      rw [bagUpper_cellIn, hax]
      exact hx
    · exact hw.mem_of_nodes a node h
  · simp [Node.put, hw.nodes_of_mem hx, hw.count_eq]

theorem nodes_excise_self {x : A} {k : S} (hx : x ∈ seq k) :
    (Node.excise st (cellIn (seq k) k score x)).nodes x = some (cellIn (seq k) k score x) := by
  rw [(hw.linked k).nodes_excise (hw.nodup_seq k),
    if_neg fun h => ((hw.nodup_seq k).mem_erase_iff.mp h).1 rfl, hw.nodes_of_mem hx]

/-- **The cut is `List::remove` with the node left in `ListNodes`.** -/
theorem cutOut_eq {x : A} {k : S} (hx : x ∈ seq k) :
    cutOut st (cellIn (seq k) k score x) =
      Node.put (Lists.remove st x).2 (cellIn (seq k) k score x) := by
  have hxe := hw.nodes_excise_self hx
  have hpos : 0 < (Node.excise st (cellIn (seq k) k score x)).count := by
    rw [(hw.linked k).count_excise, hw.count_eq]
    exact List.length_pos_of_mem (List.mem_flatMap.mpr ⟨k, hw.mem_keys hx, hx⟩)
  rw [Lists.remove_of_nodes (hw.nodes_of_mem hx)]
  unfold cutOut
  cases hterm : (cellIn (seq k) k score x).isTerminal
  · -- inside the bag: `remove` excises and removes the node, and the write puts it back
    simp only [Bool.not_false, if_true, Bool.false_eq_true, if_false]
    rw [Node.put_removeFromStorageUnchecked hxe hpos]
  · -- at an end: the bag is stored, and both write back the same bag
    obtain ⟨bag, hbag, -⟩ := hw.get_bag (List.ne_nil_of_mem hx)
    have hget : Bag.getOrMake st k = bag := by rw [Bag.getOrMake, hbag, Option.getD_some]
    simp only [Bool.not_true, Bool.false_eq_true, if_false, if_true, bagUpper_cellIn, hbag,
      hget, Bag.fst_removeNodeUnchecked]
    rw [Bag.put_nodePut, Node.put_removeFromStorageUnchecked hxe hpos]

theorem not_mem_remove {x : A} {k : S} (hx : x ∈ seq k) (k' : S) :
    x ∉ Function.update seq k ((seq k).erase x) k' := by
  intro h
  by_cases hkk : k' = k
  · subst hkk
    rw [Function.update_self] at h
    exact ((hw.nodup_seq k').mem_erase_iff.mp h).1 rfl
  · rw [Function.update_of_ne hkk] at h
    exact hkk (hw.eq_of_mem h hx)

/-- **A misplaced node moves as `List::remove` then `List::insert`** with its new score. -/
theorem updatePositionFor_of_misplaced [Zero S] {thresholds : List S} {x : A} {k : S}
    (hx : x ∈ seq k) {s : S} (hs : notionalBagFor thresholds s ≠ k) :
    Lists.updatePositionFor st thresholds (cellIn (seq k) k score x) s =
      (some (k, notionalBagFor thresholds s), (Lists.insert (Lists.remove st x).2 thresholds x s).2) := by
  have hw₀ := hw.remove hx
  have hnone : (Lists.remove st x).2.nodes x = none := hw₀.nodes_eq_none (hw.not_mem_remove hx)
  -- the new bag does not end with the id, which is in no bag after the remove
  have htail : (Bag.getOrMake (Lists.remove st x).2 (notionalBagFor thresholds s)).tail ≠
      some x := by
    rw [(hw₀.bagFor _).tail_getOrMake]
    exact fun h => hw.not_mem_remove hx _ (List.mem_of_getLast? h)
  -- the insert over the stale node is the insert of a new one
  have hins : Bag.insertNodeUnchecked (Node.put (Lists.remove st x).2 (cellIn (seq k) k score x))
      (Bag.getOrMake (Lists.remove st x).2 (notionalBagFor thresholds s))
      { cellIn (seq k) k score x with score := s } =
    Bag.insertNodeUnchecked (Lists.remove st x).2
      (Bag.getOrMake (Lists.remove st x).2 (notionalBagFor thresholds s)) ⟨x, none, none, 0, s⟩ :=
    Bag.insertNodeUnchecked_put rfl rfl rfl htail
  rw [updatePositionFor_eq, if_pos (by simp [Node.isMisplaced, hs]), cutOut_setScore,
    hw.cutOut_eq hx, getOrMake_nodePut]
  dsimp only
  rw [hins]
  simp [Lists.insert, Lists.contains, hnone, Bag.insertUnchecked]

theorem updatePositionFor_of_placed {thresholds : List S} {x : A} {k : S} {s : S}
    (hs : notionalBagFor thresholds s = k) :
    Lists.updatePositionFor st thresholds (cellIn (seq k) k score x) s =
      (none, Node.put st (cellIn (seq k) k (Function.update score x s) x)) := by
  rw [updatePositionFor_eq, if_neg (by simp [Node.isMisplaced, hs]), cellIn_setScore]

end Rebag

end WellFormed

section Spec

variable {thresholds : List S} {st : Lists A S} {seq : S → List A} {score : A → S}

/-- **`Pallet::do_rebag`** on a well-formed list. An id not stored gives `NodeNotFound` and the
storage as it was. An id whose new score falls in its bag keeps its place, with its new score. An
id whose new score falls in another bag is moved to the tail of that bag, as a `List::remove`
followed by a `List::insert` would move it; the list stays well formed and the counter is
unchanged. -/
theorem doRebag_spec [Zero S] (hw : WellFormed (Lists.bagKeys thresholds) st seq score)
    (x : A) (s : S) :
    ((∀ k, x ∉ seq k) → doRebag st thresholds x s = (.error .nodeNotFound, st)) ∧
    ∀ k, x ∈ seq k →
      (notionalBagFor thresholds s = k →
        (doRebag st thresholds x s).1 = .ok none ∧
        WellFormed (Lists.bagKeys thresholds) (doRebag st thresholds x s).2 seq
          (Function.update score x s)) ∧
      (notionalBagFor thresholds s ≠ k →
        (doRebag st thresholds x s).1 = .ok (some (k, notionalBagFor thresholds s)) ∧
        (doRebag st thresholds x s).2 = (Lists.insert (Lists.remove st x).2 thresholds x s).2 ∧
        WellFormed (Lists.bagKeys thresholds) (doRebag st thresholds x s).2
          (Function.update (Function.update seq k ((seq k).erase x)) (notionalBagFor thresholds s)
            (seq (notionalBagFor thresholds s) ++ [x])) (Function.update score x s) ∧
        (doRebag st thresholds x s).2.count = st.count) := by
  refine ⟨fun hx => by simp [doRebag, Node.get, hw.nodes_eq_none hx], fun k hx => ⟨fun hs => ?_,
    fun hs => ?_⟩⟩
  · have hrun : doRebag st thresholds x s =
        (.ok none, Node.put st (cellIn (seq k) k (Function.update score x s) x)) := by
      simp only [doRebag, Node.get, hw.nodes_of_mem hx, hw.updatePositionFor_of_placed hs]
    rw [hrun]
    exact ⟨rfl, hw.putScore hx s⟩
  · have hrun : doRebag st thresholds x s = (.ok (some (k, notionalBagFor thresholds s)),
        (Lists.insert (Lists.remove st x).2 thresholds x s).2) := by
      simp only [doRebag, Node.get, hw.nodes_of_mem hx, hw.updatePositionFor_of_misplaced hx hs]
    rw [hrun]
    -- the remove, then the insert into the bag of the new score
    have hw₀ := hw.remove hx
    obtain ⟨-, hw₁, hcount₁⟩ := hw₀.insert (notionalBagFor_mem_bagKeys thresholds s)
      (hw.not_mem_remove hx)
    rw [Function.update_of_ne hs] at hw₁
    refine ⟨rfl, rfl, hw₁, ?_⟩
    show (Lists.insert (Lists.remove st x).2 thresholds x s).2.count = st.count
    rw [hcount₁, hw.count_remove hx]

/-- Id `0` of `twoBags`, in the bag of `10` with score `5`, rebagged with score `30`. -/
theorem doRebag_spec_twoBags :
    WellFormed (Lists.bagKeys [10]) twoBags twoSeq twoScore ∧
    ((∀ k, (0 : ℕ) ∉ twoSeq k) → doRebag twoBags [10] 0 30 = (.error .nodeNotFound, twoBags)) ∧
    ∀ k, (0 : ℕ) ∈ twoSeq k →
      (notionalBagFor [10] (30 : ℕ∞) = k →
        (doRebag twoBags [10] 0 30).1 = .ok none ∧
        WellFormed (Lists.bagKeys [10]) (doRebag twoBags [10] 0 30).2 twoSeq
          (Function.update twoScore 0 30)) ∧
      (notionalBagFor [10] (30 : ℕ∞) ≠ k →
        (doRebag twoBags [10] 0 30).1 = .ok (some (k, notionalBagFor [10] 30)) ∧
        (doRebag twoBags [10] 0 30).2 = (Lists.insert (Lists.remove twoBags 0).2 [10] 0 30).2 ∧
        WellFormed (Lists.bagKeys [10]) (doRebag twoBags [10] 0 30).2
          (Function.update (Function.update twoSeq k ((twoSeq k).erase 0)) (notionalBagFor [10] 30)
            (twoSeq (notionalBagFor [10] 30) ++ [0])) (Function.update twoScore 0 30) ∧
        (doRebag twoBags [10] 0 30).2.count = twoBags.count) :=
  ⟨wellFormed_twoBags, doRebag_spec wellFormed_twoBags 0 30⟩

end Spec

end PolkadotSdk.BagsList
