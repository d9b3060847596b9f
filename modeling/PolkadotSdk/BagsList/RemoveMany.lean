import PolkadotSdk.BagsList.WellFormed

/-!
# Removing many ids in one loop

`List::remove_many` removes its ids in one loop and keeps the bags it touches in a map of its own: a
bag read for a second id is read from that map, not from storage, and the bags of the map are
written back only after the loop. On any storage the loop is the same as removing the ids one after
the other with `List::remove` (`removeMany_eq_removeEach`): the map holds one entry a bag, each
under its own `bag_upper` (`Copies`), so that reading a bag from the map gives what the write-back
would have stored, and the nodes the loop writes are those the removes write.

On a well-formed list the removes are `WellFormed.remove`, one id at a time: `remove_many` takes
the ids out of their bags, keeps the list well formed, and the number it returns is what the
counter goes down by (`WellFormed.removeMany`).
-/

set_option linter.unusedSectionVars false

namespace PolkadotSdk.BagsList

open PolkadotSdk.Lib.Holdings PolkadotSdk.Lib.Sequences

variable {A S : Type*} [DecidableEq A] [LinearOrder S] [OrderTop S]

namespace Lists

/-- The ids removed one after the other with `List::remove`, with the number of them stored at
their turn. -/
def removeEach (st : Lists A S) : List A → ℕ × Lists A S
  | [] => (0, st)
  | id :: ids =>
    let r := removeEach (remove st id).2 ids
    ((if contains st id then 1 else 0) + r.1, r.2)

/-- The bags `remove_many` keeps, written back in order as it does after its loop. -/
def writeBack (bags : List (S × Bag A S)) (st : Lists A S) : Lists A S :=
  bags.foldl (fun st e => Bag.put st e.2) st

end Lists

/-! ## The map of bags -/

/-- The map of bags `remove_many` keeps: one entry a key, each bag under its own `bag_upper`. -/
structure Copies (bs : List (S × Bag A S)) : Prop where
  nodup : (bs.map Prod.fst).Nodup
  bagUpper : ∀ e ∈ bs, e.2.bagUpper = e.1

theorem copies_nil : Copies ([] : List (S × Bag A S)) :=
  ⟨List.nodup_nil, fun _ h => absurd h List.not_mem_nil⟩

theorem Copies.tail {e : S × Bag A S} {bs : List (S × Bag A S)} (hc : Copies (e :: bs)) :
    Copies bs :=
  ⟨(List.nodup_cons.mp hc.nodup).2, fun e' he' => hc.bagUpper e' (List.mem_cons_of_mem e he')⟩

theorem Copies.upsert {bs : List (S × Bag A S)} (hc : Copies bs) {k : S} {bag : Bag A S}
    (hk : bag.bagUpper = k) : Copies (upsert k bag bs) := by
  refine ⟨nodup_map_fst_upsert hc.nodup, fun e he => ?_⟩
  rcases mem_upsert he with he | rfl
  · exact hc.bagUpper e he
  · exact hk

namespace Lists

variable {bs : List (S × Bag A S)}

@[simp] theorem writeBack_nil (st : Lists A S) : writeBack [] st = st := rfl

theorem writeBack_cons (e : S × Bag A S) (bs : List (S × Bag A S)) (st : Lists A S) :
    writeBack (e :: bs) st = writeBack bs (Bag.put st e.2) := rfl

@[simp] theorem nodes_writeBack : ∀ (bs : List (S × Bag A S)) (st : Lists A S),
    (writeBack bs st).nodes = st.nodes
  | [], _ => rfl
  | e :: bs, st => by rw [writeBack_cons, nodes_writeBack bs, Bag.nodes_put]

@[simp] theorem count_writeBack : ∀ (bs : List (S × Bag A S)) (st : Lists A S),
    (writeBack bs st).count = st.count
  | [], _ => rfl
  | e :: bs, st => by rw [writeBack_cons, count_writeBack bs, Bag.count_put]

theorem writeBack_eq (bs : List (S × Bag A S)) (st : Lists A S) :
    writeBack bs st = { st with bags := (writeBack bs st).bags } :=
  ext (nodes_writeBack bs st) (count_writeBack bs st) rfl

theorem bags_writeBack_congr : ∀ (bs : List (S × Bag A S)) {st st' : Lists A S},
    st.bags = st'.bags → (writeBack bs st).bags = (writeBack bs st').bags
  | [], _, _, h => h
  | e :: bs, st, st', h => by
    rw [writeBack_cons, writeBack_cons]
    exact bags_writeBack_congr bs (by rw [Bag.bags_put, Bag.bags_put, h])

theorem bags_writeBack (hc : Copies bs) (st : Lists A S) (k : S) :
    (writeBack bs st).bags k =
      (valueAt k bs).elim (st.bags k) fun bag => if bag.isEmpty then none else some bag := by
  induction bs generalizing st with
  | nil => rfl
  | cons e bs ih =>
    rw [writeBack_cons, ih hc.tail, Bag.bags_put, hc.bagUpper e List.mem_cons_self, valueAt_cons]
    by_cases hk : e.1 = k
    · -- the first entry is the key's only one
      have hnone : valueAt k bs = none :=
        valueAt_eq_none (hk ▸ (List.nodup_cons.mp hc.nodup).1)
      rw [hnone, if_pos hk, hk]
      simp
    · rw [if_neg hk, Function.update_of_ne (Ne.symm hk)]

/-- Reading a bag after the write-back reads the map's copy, when there is one. -/
theorem getOrMake_writeBack (hc : Copies bs) (st : Lists A S) (k : S) :
    Bag.getOrMake (writeBack bs st) k = (valueAt k bs).getD (Bag.getOrMake st k) := by
  simp only [Bag.getOrMake, Bag.get, bags_writeBack hc]
  cases hv : valueAt k bs with
  | none => rfl
  | some bag =>
    have hk : bag.bagUpper = k := hc.bagUpper _ (mem_of_valueAt_eq_some hv)
    -- an empty copy is not stored, and reads back as the empty bag it is
    by_cases he : bag.isEmpty
    · simp only [Option.elim_some, he, if_true, Option.map_none, Option.getD_none,
        Option.getD_some]
      obtain ⟨head, tail, up⟩ := bag
      simp only [Bag.isEmpty, Bool.and_eq_true, Option.isNone_iff_eq_none] at he hk
      obtain ⟨rfl, rfl⟩ := he
      rw [hk]
    · simp only [Option.elim_some, he, Option.getD_some, ← hk]
      rfl

theorem bags_writeBack_upsert (hc : Copies bs) (st : Lists A S) {k : S} {bag : Bag A S}
    (hk : bag.bagUpper = k) :
    (writeBack (upsert k bag bs) st).bags =
      Function.update (writeBack bs st).bags k (if bag.isEmpty then none else some bag) := by
  funext k'
  rw [bags_writeBack (hc.upsert hk), valueAt_upsert, Function.update_apply]
  by_cases hkk : k' = k
  · subst hkk
    simp
  · rw [if_neg (Ne.symm hkk), if_neg hkk, bags_writeBack hc]

theorem removeFromStorageUnchecked_excise_writeBack (st : Lists A S) (node : Node A S) :
    Node.removeFromStorageUnchecked (Node.excise (writeBack bs st) node) node =
      { Node.removeFromStorageUnchecked (Node.excise st node) node with
        bags := (writeBack bs st).bags } := by
  rw [writeBack_eq bs st, Node.excise_withBags, Node.removeFromStorageUnchecked_withBags]

/-- **One id of the loop is one `List::remove`.** From a map of copies, one step of `remove_many`
keeps the map one of copies, counts the id if the storage with the map written back holds it, and
leaves, once its map is written back, what `List::remove` leaves on that storage. -/
theorem removeManyStep_spec (hc : Copies bs) (n : ℕ) (st : Lists A S) (id : A) :
    Copies (removeManyStep (n, bs, st) id).2.1 ∧
      (removeManyStep (n, bs, st) id).1 = n + (if contains (writeBack bs st) id then 1 else 0) ∧
      writeBack (removeManyStep (n, bs, st) id).2.1 (removeManyStep (n, bs, st) id).2.2 =
        (remove (writeBack bs st) id).2 := by
  cases hn : st.nodes id with
  | none =>
    -- no node: the loop and `remove` both leave everything as it was
    have hW : contains (writeBack bs st) id = false := by simp [contains, hn]
    simp [removeManyStep, Node.get, hn, remove, hW, hc]
  | some node =>
    have hW : (writeBack bs st).nodes id = some node := by rw [nodes_writeBack, hn]
    have hcon : contains (writeBack bs st) id = true := by simp [contains, hW]
    have hbags : (writeBack bs (Node.removeFromStorageUnchecked (Node.excise st node) node)).bags =
        (writeBack bs st).bags :=
      bags_writeBack_congr bs (by rw [Node.bags_removeFromStorageUnchecked, Node.bags_excise])
    rw [remove_of_nodes hW, hcon, if_pos rfl]
    by_cases ht : node.isTerminal
    · -- a head or a tail: the bag is read from the map, or from storage, and moved off the node
      have hbag := getOrMake_writeBack hc st node.bagUpper
      have hup : (Bag.removeNodeUnchecked st (Bag.getOrMake (writeBack bs st) node.bagUpper)
          node).2.bagUpper = node.bagUpper := by
        rw [Bag.bagUpper_removeNodeUnchecked, Bag.bagUpper_getOrMake]
      rw [hbag] at hup
      simp only [removeManyStep, Node.get, hn, ht, Bool.not_true, Bool.false_eq_true, if_false,
        if_true, Bag.fst_removeNodeUnchecked]
      refine ⟨hc.upsert hup, trivial, ?_⟩
      rw [writeBack_eq, bags_writeBack_upsert hc _ hup, hbags,
        removeFromStorageUnchecked_excise_writeBack, Bag.put_eq, hbag,
        Bag.snd_removeNodeUnchecked (writeBack bs st) st, hup]
    · -- inside its bag: only nodes are written
      simp only [removeManyStep, Node.get, hn, ht, Bool.not_false, Bool.false_eq_true, if_true,
        if_false]
      refine ⟨hc, trivial, ?_⟩
      rw [writeBack_eq, hbags, removeFromStorageUnchecked_excise_writeBack]

/-- **The loop of `remove_many` is a run of removes**, from any accumulator whose map is one of
copies: it counts what the removes count, and its storage, with the map written back, is theirs. -/
theorem foldl_removeManyStep : ∀ (ids : List A) (acc : ℕ × List (S × Bag A S) × Lists A S),
    Copies acc.2.1 →
      (ids.foldl removeManyStep acc).1 = acc.1 + (removeEach (writeBack acc.2.1 acc.2.2) ids).1 ∧
      writeBack (ids.foldl removeManyStep acc).2.1 (ids.foldl removeManyStep acc).2.2 =
        (removeEach (writeBack acc.2.1 acc.2.2) ids).2
  | [], _, _ => ⟨rfl, rfl⟩
  | id :: ids, (n, bs, st), hc => by
    obtain ⟨hc₁, hn₁, hw₁⟩ := removeManyStep_spec hc n st id
    obtain ⟨ih₁, ih₂⟩ := foldl_removeManyStep ids (removeManyStep (n, bs, st) id) hc₁
    rw [List.foldl_cons]
    refine ⟨?_, ?_⟩
    · rw [ih₁, hn₁, hw₁, removeEach, Nat.add_assoc]
    · rw [ih₂, hw₁, removeEach]

/-- **`List::remove_many` removes its ids one after the other**: on any storage it returns what
`List::remove` of each id in turn leaves, and the number of ids stored at their turn. -/
theorem removeMany_eq_removeEach (st : Lists A S) (ids : List A) :
    removeMany st ids = removeEach st ids := by
  obtain ⟨h₁, h₂⟩ := foldl_removeManyStep ids (0, [], st) copies_nil
  show ((ids.foldl removeManyStep (0, [], st)).1, writeBack _ _) = _
  rw [h₁, h₂, writeBack_nil, Nat.zero_add]

end Lists

/-! ## On a well-formed list -/

namespace WellFormed

variable {keys : List S} {score : A → S}

/-- **Removing ids one after the other** from a well-formed list takes them out of their bags and
keeps the list well formed; the number of ids stored at their turn is what the counter goes down
by. The induction is on the ids, each step a `WellFormed.remove`, or nothing for an id in no bag. -/
theorem removeEach : ∀ (ids : List A) {st : Lists A S} {seq : S → List A},
    WellFormed keys st seq score →
      WellFormed keys (Lists.removeEach st ids).2 (fun k => (seq k).filter fun a => a ∉ ids)
        score ∧
      (Lists.removeEach st ids).1 + (Lists.removeEach st ids).2.count = st.count
  | [], st, seq, hw => by
    have hseq : (fun k => (seq k).filter fun a => a ∉ ([] : List A)) = seq := by
      funext k
      simp
    rw [hseq]
    exact ⟨hw, Nat.zero_add _⟩
  | id :: ids, st, seq, hw => by
    by_cases hx : ∃ k, id ∈ seq k
    · -- a stored id: one `remove`, then the rest from the list it leaves
      obtain ⟨k, hx⟩ := hx
      obtain ⟨ih₁, ih₂⟩ := removeEach ids (hw.remove hx)
      have hcon : Lists.contains st id = true := by
        simp [Lists.contains, hw.nodes_of_mem hx]
      have hseq : (fun k' => (Function.update seq k ((seq k).erase id) k').filter
            fun a => a ∉ ids) = fun k' => (seq k').filter fun a => a ∉ id :: ids := by
        funext k'
        by_cases hkk : k' = k
        · subst hkk
          rw [Function.update_self, filter_erase ids (hw.nodup_seq k')]
        · rw [Function.update_of_ne hkk,
            filter_not_mem_cons ids fun h => hkk (hw.eq_of_mem h hx)]
      have hcount := hw.count_remove hx
      simp only [Lists.removeEach, hcon, if_true]
      rw [← hseq]
      exact ⟨ih₁, by omega⟩
    · -- an id in no bag: `remove` fails and leaves the storage as it was
      have hx : ∀ k, id ∉ seq k := fun k h => hx ⟨k, h⟩
      have hcon : Lists.contains st id = false := by
        simp [Lists.contains, hw.nodes_eq_none hx]
      have hst : (Lists.remove st id).2 = st := by
        simp [Lists.remove, hcon]
      obtain ⟨ih₁, ih₂⟩ := removeEach ids hw
      have hseq : (fun k => (seq k).filter fun a => a ∉ ids) =
          fun k => (seq k).filter fun a => a ∉ id :: ids := by
        funext k
        rw [filter_not_mem_cons ids (hx k)]
      simp only [Lists.removeEach, hcon, hst, Bool.false_eq_true, if_false, Nat.zero_add]
      rw [← hseq]
      exact ⟨ih₁, ih₂⟩

/-- **`List::remove_many` on a well-formed list** takes its ids out of their bags and keeps the
list well formed; the number it returns is what the counter goes down by. -/
theorem removeMany {st : Lists A S} {seq : S → List A} (hw : WellFormed keys st seq score)
    (ids : List A) :
    WellFormed keys (Lists.removeMany st ids).2 (fun k => (seq k).filter fun a => a ∉ ids)
        score ∧
      (Lists.removeMany st ids).1 + (Lists.removeMany st ids).2.count = st.count := by
  rw [Lists.removeMany_eq_removeEach]
  exact removeEach ids hw

end WellFormed

end PolkadotSdk.BagsList
