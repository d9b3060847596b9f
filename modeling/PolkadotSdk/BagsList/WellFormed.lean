import PolkadotSdk.BagsList.List

/-!
# Well-formed bags lists

A bags list is well formed when its storage holds a family of bags `seq : S → List A`: bag `k`
holds the ids `seq k`, from head to tail. The node of each id is stored under it and linked to the
ids around it in its bag (`cellIn`, `Linked`), each non-empty bag is stored with its head and tail
and no empty one is (`BagFor`), every stored node is in the bag it names, no id is in two bags or
twice in one, only the keys `keys` hold ids, and the counter of `ListNodes` counts the ids. The
scores of the nodes are a function `score` of the id.

Each storage operation the list functions are made of changes one bag, and the lemmas here say how:
`Node.excise` of an id links the ids around it to each other (`Linked.nodes_excise`), so that
together with the bag's own update and the removal of the node the storage holds the bag without
that id; appending a node as the tail holds the bag with the id appended; and linking a node in
before another holds the bag with the id inserted there. The other bags are untouched.
-/

set_option linter.unusedSectionVars false

namespace PolkadotSdk.BagsList

open PolkadotSdk.Lib.Sequences

variable {A S : Type*} [DecidableEq A] [LinearOrder S] [OrderTop S]

/-- The node of `a` in bag `k` holding the ids `l`: linked to the ids around `a` in `l`. -/
def cellIn (l : List A) (k : S) (score : A → S) (a : A) : Node A S :=
  ⟨a, prevIn l a, nextIn l a, k, score a⟩

/-- The nodes of the ids `l` of bag `k` are stored, each linked to its neighbours in `l`. -/
def Linked (st : Lists A S) (k : S) (score : A → S) (l : List A) : Prop :=
  ∀ a ∈ l, st.nodes a = some (cellIn l k score a)

/-- Bag `k` is stored with the head and the tail of `l`, and not stored if `l` is empty. -/
def BagFor (st : Lists A S) (k : S) (l : List A) : Prop :=
  (st.bags k).map (fun bag => (bag.head, bag.tail)) =
    if l = [] then none else some (l.head?, l.getLast?)

/-- **A well-formed bags list holding the bags `seq`**, with keys among `keys` and scores
`score`. -/
structure WellFormed (keys : List S) (st : Lists A S) (seq : S → List A) (score : A → S) :
    Prop where
  keys_nodup : keys.Nodup
  nodup : (keys.flatMap seq).Nodup
  seq_eq_nil : ∀ k, k ∉ keys → seq k = []
  bagFor : ∀ k, BagFor st k (seq k)
  linked : ∀ k, Linked st k score (seq k)
  mem_of_nodes : ∀ a node, st.nodes a = some node → a ∈ seq node.bagUpper
  count_eq : st.count = (keys.flatMap seq).length

/-! ## Cells -/

section Cells

variable {l : List A} {k : S} {score : A → S}

@[simp] theorem id_cellIn (a : A) : (cellIn l k score a).id = a := rfl

@[simp] theorem bagUpper_cellIn (a : A) : (cellIn l k score a).bagUpper = k := rfl

@[simp] theorem score_cellIn (a : A) : (cellIn l k score a).score = score a := rfl

@[simp] theorem prev_cellIn (a : A) : (cellIn l k score a).prev = prevIn l a := rfl

@[simp] theorem next_cellIn (a : A) : (cellIn l k score a).next = nextIn l a := rfl

theorem cellIn_erase {x b : A} (hnd : l.Nodup) (hb : b ≠ x) :
    cellIn (l.erase x) k score b =
      { cellIn l k score b with
        prev := if nextIn l x = some b then prevIn l x else prevIn l b
        next := if prevIn l x = some b then nextIn l x else nextIn l b } := by
  simp only [cellIn, prevIn_erase_eq hnd hb, nextIn_erase_eq hnd hb]

theorem cellIn_insertBefore {x y b : A} (hnd : l.Nodup) (hx : x ∉ l) (hy : y ∈ l) (hb : b ≠ x) :
    cellIn (insertBefore x y l) k score b =
      { cellIn l k score b with
        prev := if b = y then some x else prevIn l b
        next := if nextIn l b = some y then some x else nextIn l b } := by
  simp only [cellIn, prevIn_insertBefore hnd hx hy, nextIn_insertBefore hnd hx hy, if_neg hb]

theorem cellIn_insertBefore_self {x y : A} (hnd : l.Nodup) (hx : x ∉ l) (hy : y ∈ l) :
    cellIn (insertBefore x y l) k score x = ⟨x, prevIn l y, some y, k, score x⟩ := by
  have hxy : x ≠ y := fun h => hx (h ▸ hy)
  simp [cellIn, prevIn_insertBefore hnd hx hy, nextIn_insertBefore hnd hx hy, hxy]

theorem cellIn_append_singleton {x b : A} (hnd : (l ++ [x]).Nodup) (s : S) :
    cellIn (l ++ [x]) k (Function.update score x s) b =
      { cellIn l k score b with
        prev := if b = x then l.getLast? else prevIn l b
        next := if l.getLast? = some b then some x else nextIn l b
        score := if b = x then s else score b } := by
  simp only [cellIn, prevIn_append_singleton hnd, nextIn_append_singleton hnd,
    Function.update_apply]

theorem nodes_put_cellIn {st st₁ : Lists A S} {a : A} {c : Node A S} (ha : a ∈ l)
    (hc : cellIn l k score a = c) (b : A)
    (hrest : b ≠ a → st₁.nodes b = if b ∈ l then some (cellIn l k score b) else st.nodes b) :
    (Node.put st₁ c).nodes b = if b ∈ l then some (cellIn l k score b) else st.nodes b := by
  subst hc
  rw [Node.nodes_put, id_cellIn]
  by_cases hb : b = a
  · subst hb
    rw [Function.update_self, if_pos ha]
  · rw [Function.update_of_ne hb, hrest hb]

end Cells

/-! ## Excising a node -/

/-- `Node::excise` of an id of a bag stores the bag without that id, and leaves every other node,
that id's own among them, as it was. -/
theorem Linked.nodes_excise {st : Lists A S} {k : S} {score : A → S} {l : List A} {x : A}
    (hl : Linked st k score l) (hnd : l.Nodup) (b : A) :
    (Node.excise st (cellIn l k score x)).nodes b =
      if b ∈ l.erase x then some (cellIn (l.erase x) k score b) else st.nodes b := by
  have hxx : nextIn l x ≠ some x := fun h => nextIn_ne_of_nextIn hnd h h
  have hpx : prevIn l x ≠ some x := fun h => hxx ((prevIn_eq_some_iff hnd).mp h)
  have hmem : b ∈ l.erase x ↔ b ≠ x ∧ b ∈ l := hnd.mem_erase_iff
  -- an id of the bag other than `x` and its neighbours keeps its cell
  have hkeep : b ∈ l.erase x → prevIn l x ≠ some b → nextIn l x ≠ some b →
      st.nodes b = some (cellIn (l.erase x) k score b) := by
    intro hb hbp hbq
    obtain ⟨hbx, hbl⟩ := hmem.mp hb
    rw [hl b hbl, cellIn_erase hnd hbx, if_neg hbq, if_neg hbp]
    rfl
  simp only [Node.excise, Node.prevNode, Node.nextNode, prev_cellIn, next_cellIn]
  rcases hp : prevIn l x with _ | p <;> rcases hq : nextIn l x with _ | q
  · -- `x` is alone in its bag
    simp only [Option.bind_none]
    split_ifs with hb
    · exact hkeep hb (by simp [hp]) (by simp [hq])
    · rfl
  · -- `x` heads its bag: `q` becomes the head
    have hql : q ∈ l := mem_of_nextIn_eq_some hq
    have hqx : q ≠ x := fun h => hxx (h ▸ hq)
    simp only [Option.bind_none, Option.bind_some, hl q hql]
    refine nodes_put_cellIn (hnd.mem_erase_iff.mpr ⟨hqx, hql⟩) ?_ b fun hbq => ?_
    · rw [cellIn_erase hnd hqx, hp, hq]
      simp
    · split_ifs with hb
      · exact hkeep hb (by simp [hp]) (by simp [hq, Ne.symm hbq])
      · rfl
  · -- `x` is the tail of its bag: `p` becomes the tail
    have hpl : p ∈ l := mem_of_prevIn_eq_some hp
    have hpx' : p ≠ x := fun h => hpx (h ▸ hp)
    simp only [Option.bind_none, Option.bind_some, hl p hpl]
    refine nodes_put_cellIn (hnd.mem_erase_iff.mpr ⟨hpx', hpl⟩) ?_ b fun hbp => ?_
    · rw [cellIn_erase hnd hpx', hp, hq]
      simp
    · split_ifs with hb
      · exact hkeep hb (by simp [hp, Ne.symm hbp]) (by simp [hq])
      · rfl
  · -- `x` is inside its bag: `p` and `q` are linked to each other
    have hpl : p ∈ l := mem_of_prevIn_eq_some hp
    have hql : q ∈ l := mem_of_nextIn_eq_some hq
    have hpx' : p ≠ x := fun h => hpx (h ▸ hp)
    have hqx : q ≠ x := fun h => hxx (h ▸ hq)
    have hqp : q ≠ p := by
      rintro rfl
      exact nextIn_ne_of_nextIn hnd hq ((prevIn_eq_some_iff hnd).mp hp)
    -- the write to `p` leaves the node of `q` for the code to read
    have hq' : (Node.put st { cellIn l k score p with next := some q }).nodes q =
        some (cellIn l k score q) := by
      rw [Node.nodes_put]
      exact (Function.update_of_ne hqp _ _).trans (hl q hql)
    simp only [Option.bind_some, hl p hpl, hq']
    refine nodes_put_cellIn (hnd.mem_erase_iff.mpr ⟨hqx, hql⟩) ?_ b fun hbq =>
      nodes_put_cellIn (hnd.mem_erase_iff.mpr ⟨hpx', hpl⟩) ?_ b fun hbp => ?_
    · rw [cellIn_erase hnd hqx, hp, hq]
      simp [Ne.symm hqp]
    · rw [cellIn_erase hnd hpx', hp, hq]
      simp [hqp]
    · split_ifs with hb
      · exact hkeep hb (by simp [hp, Ne.symm hbp]) (by simp [hq, Ne.symm hbq])
      · rfl

/-- `Node::excise` only rewrites stored nodes, so the counter stays. -/
theorem Linked.count_excise {st : Lists A S} {k : S} {score : A → S} {l : List A} {x : A}
    (hl : Linked st k score l) :
    (Node.excise st (cellIn l k score x)).count = st.count := by
  simp only [Node.excise, Node.prevNode, Node.nextNode, prev_cellIn, next_cellIn]
  rcases hp : prevIn l x with _ | p <;> rcases hq : nextIn l x with _ | q
  · rfl
  · have hql : q ∈ l := mem_of_nextIn_eq_some hq
    simp [hl q hql, Node.put]
  · have hpl : p ∈ l := mem_of_prevIn_eq_some hp
    simp [hl p hpl, Node.put]
  · have hpl : p ∈ l := mem_of_prevIn_eq_some hp
    have hql : q ∈ l := mem_of_nextIn_eq_some hq
    by_cases hqp : q = p
    · subst hqp
      simp [hl q hql, Node.put]
    · simp [hl p hpl, hl q hql, Node.put, Function.update_of_ne hqp]

/-! ## Bags -/

section Bags

variable {st : Lists A S} {k : S} {l : List A}

theorem BagFor.get (hb : BagFor st k l) (hl : l ≠ []) :
    ∃ bag, Bag.get st k = some bag ∧ bag.head = l.head? ∧ bag.tail = l.getLast? ∧
      bag.bagUpper = k := by
  unfold BagFor at hb
  rw [if_neg hl] at hb
  obtain ⟨bag, hbag, he⟩ := Option.map_eq_some_iff.mp hb
  simp only [Prod.mk.injEq] at he
  exact ⟨{ bag with bagUpper := k }, by simp [Bag.get, hbag], he.1, he.2, rfl⟩

theorem BagFor.getOrMake (hb : BagFor st k l) (hl : l ≠ []) :
    (Bag.getOrMake st k).head = l.head? ∧ (Bag.getOrMake st k).tail = l.getLast? ∧
      (Bag.getOrMake st k).bagUpper = k := by
  unfold BagFor at hb
  rw [if_neg hl] at hb
  obtain ⟨bag, hbag, he⟩ := Option.map_eq_some_iff.mp hb
  simp only [Prod.mk.injEq] at he
  simp [Bag.getOrMake, Bag.get, hbag, he]

theorem BagFor.tail_getOrMake (hb : BagFor st k l) : (Bag.getOrMake st k).tail = l.getLast? := by
  by_cases hl : l = []
  · -- no ids: the bag is not stored, and is made empty
    unfold BagFor at hb
    rw [if_pos hl, Option.map_eq_none_iff] at hb
    simp [Bag.getOrMake, Bag.get, hb, hl]
  · exact (hb.getOrMake hl).2.1

theorem BagFor.erase_of_inner {x : A} (hb : BagFor st k l) (hnd : l.Nodup) (hx : x ∈ l)
    (hp : prevIn l x ≠ none) (hn : nextIn l x ≠ none) : BagFor st k (l.erase x) := by
  have hh : l.head? ≠ some x := fun h => hp (prevIn_of_head? hnd h)
  have ht : l.getLast? ≠ some x := fun h => hn (nextIn_of_getLast? hnd h)
  have hl : l ≠ [] := List.ne_nil_of_mem hx
  have hne : l.erase x ≠ [] := by
    intro he
    have := head?_erase x l
    rw [he, if_neg hh, List.head?_nil, eq_comm, List.head?_eq_none_iff] at this
    exact hl this
  unfold BagFor at hb ⊢
  rw [head?_erase, if_neg hh, getLast?_erase hnd, if_neg ht, if_neg hne, hb, if_neg hl]

/-- Moving a bag's ends off one of its ids and writing the bag back stores the bag without that
id, over any storage. -/
theorem BagFor.put_removeNodeUnchecked {x : A} (hb : BagFor st k l) (hnd : l.Nodup) (hx : x ∈ l)
    (score : A → S) (st' : Lists A S) :
    BagFor (Bag.put st' (Bag.removeNodeUnchecked st (Bag.getOrMake st k)
      (cellIn l k score x)).2) k (l.erase x) := by
  obtain ⟨hhead, htail, hupper⟩ := hb.getOrMake (List.ne_nil_of_mem hx)
  -- the bag after `remove_node_unchecked` has the ends of the bag without `x`
  have hends : ∀ bag : Bag A S, bag.head = l.head? → bag.tail = l.getLast? →
      ((Bag.removeNodeUnchecked st bag (cellIn l k score x)).2.head = (l.erase x).head? ∧
        (Bag.removeNodeUnchecked st bag (cellIn l k score x)).2.tail = (l.erase x).getLast? ∧
        (Bag.removeNodeUnchecked st bag (cellIn l k score x)).2.bagUpper = bag.bagUpper) := by
    intro bag hh ht
    rw [head?_erase, getLast?_erase hnd]
    by_cases hhx : l.head? = some x <;> by_cases htx : l.getLast? = some x <;>
      simp [Bag.removeNodeUnchecked, hh, ht, hhx, htx]
  obtain ⟨h₁, h₂, h₃⟩ := hends _ hhead htail
  unfold BagFor
  rw [Bag.bags_put, h₃, hupper, Function.update_self]
  by_cases he : l.erase x = []
  · have hemp : (Bag.removeNodeUnchecked st (Bag.getOrMake st k) (cellIn l k score x)).2.isEmpty :=
      by simp [Bag.isEmpty, h₁, h₂, he]
    simp [hemp, he]
  · have hemp : ¬(Bag.removeNodeUnchecked st (Bag.getOrMake st k) (cellIn l k score x)).2.isEmpty :=
      by simp [Bag.isEmpty, h₁, he]
    simp [hemp, he, h₁, h₂]

end Bags

/-! ## Linking a node in before another -/

theorem Linked.nodes_insertBefore_of_ne {st : Lists A S} {k : S} {score : A → S} {l : List A}
    {x y b : A} (hl : Linked st k score l) (hnd : l.Nodup) (hxl : x ∉ l) (hy : y ∈ l)
    (hbx : b ≠ x) (hby : b ≠ y) (hbp : prevIn l y ≠ some b) :
    (if b ∈ insertBefore x y l then some (cellIn (insertBefore x y l) k score b)
      else st.nodes b) = st.nodes b := by
  have hmem : b ∈ insertBefore x y l ↔ b = x ∨ b ∈ l := by
    rw [(perm_insertBefore hy).mem_iff, List.mem_cons]
  by_cases hbl : b ∈ l
  · have hny : nextIn l b ≠ some y := fun h => hbp ((prevIn_eq_some_iff hnd).mpr h)
    rw [if_pos (hmem.mpr (.inr hbl)), hl b hbl, cellIn_insertBefore hnd hxl hy hbx, if_neg hby,
      if_neg hny]
    rfl
  · rw [if_neg fun h => (hmem.mp h).elim hbx hbl]

/-- `insert_at_unchecked` of a new node before an id `y` of a bag stores the bag with the new id
right before `y`: the node, `y`'s and the one before `y` are relinked, the bag's head moves to the
new id if `y` was the head, and the counter counts one more. -/
theorem Linked.insertAtUnchecked {st : Lists A S} {k : S} {score : A → S} {l : List A}
    {x y : A} (hl : Linked st k score l) (hb : BagFor st k l) (hnd : l.Nodup) (hy : y ∈ l)
    (hx : st.nodes x = none) {node : Node A S} (hid : node.id = x) (hup : node.bagUpper = k)
    (hsc : node.score = score x) :
    ∃ st', Lists.insertAtUnchecked st (cellIn l k score y) node = some st' ∧
      (∀ b, st'.nodes b = if b ∈ insertBefore x y l
        then some (cellIn (insertBefore x y l) k score b) else st.nodes b) ∧
      (∀ k', k' ≠ k → st'.bags k' = st.bags k') ∧ BagFor st' k (insertBefore x y l) ∧
      st'.count = st.count + 1 := by
  have hxl : x ∉ l := fun h => by rw [hl x h] at hx; cases hx
  have hxy : x ≠ y := fun h => hxl (h ▸ hy)
  have hmem : ∀ b, b ∈ insertBefore x y l ↔ b = x ∨ b ∈ l := fun b => by
    rw [(perm_insertBefore hy).mem_iff, List.mem_cons]
  obtain ⟨id₀, prev₀, next₀, up₀, sc₀⟩ := node
  simp only at hid hup hsc
  subst id₀ up₀ sc₀
  have hcx : cellIn (insertBefore x y l) k score x = ⟨x, prevIn l y, some y, k, score x⟩ :=
    cellIn_insertBefore_self hnd hxl hy
  have hyy : nextIn l y ≠ some y := fun h => nextIn_ne_of_nextIn hnd h h
  -- `y` is now linked back to `x`
  have hcy : cellIn (insertBefore x y l) k score y = { cellIn l k score y with prev := some x } := by
    rw [cellIn_insertBefore hnd hxl hy (Ne.symm hxy), if_pos rfl, if_neg hyy]
    rfl
  -- the last two writes put the cells of `x` and `y`, over whatever the earlier ones left
  have hwrites : ∀ (st₁ : Lists A S) (b : A),
      (b ≠ x → b ≠ y → st₁.nodes b = if b ∈ insertBefore x y l
        then some (cellIn (insertBefore x y l) k score b) else st.nodes b) →
      (Node.put (Node.put st₁ { cellIn l k score y with prev := some x })
        ⟨x, prevIn l y, some y, k, score x⟩).nodes b =
        if b ∈ insertBefore x y l then some (cellIn (insertBefore x y l) k score b)
        else st.nodes b := by
    intro st₁ b hrest
    exact nodes_put_cellIn ((hmem x).mpr (.inl rfl)) hcx b fun hbx =>
      nodes_put_cellIn ((hmem y).mpr (.inr hy)) hcy b fun hby => hrest hbx hby
  obtain ⟨bag, hbag, hhead, htail, hupper⟩ := hb.get (List.ne_nil_of_mem hy)
  have hlast := getLast?_insertBefore (x := x) hy
  have hfirst := head?_insertBefore x y l
  have hne : insertBefore x y l ≠ [] := List.ne_nil_of_mem ((hmem x).mpr (.inl rfl))
  have hys : (st.nodes y).isSome := by simp [hl y hy]
  rcases hp : prevIn l y with _ | p
  · -- `y` heads its bag: `x` becomes the head
    have hyh : l.head? = some y := head?_of_prevIn_eq_none hy hp
    rw [hp] at hwrites
    simp only [Lists.insertAtUnchecked, Node.prevNode, prev_cellIn, id_cellIn, bagUpper_cellIn,
      hp, Option.bind_none, Node.isTerminal, Option.isNone_none, Bool.true_or, if_true,
      hbag, Option.map_some]
    refine ⟨_, rfl, fun b => hwrites _ b fun hbx hby => ?_, fun k' hk' => ?_, ?_, ?_⟩
    · rw [Bag.nodes_put]
      exact (hl.nodes_insertBefore_of_ne hnd hxl hy hbx hby (by simp [hp])).symm
    · simp [Bag.bags_put, hupper, Function.update_of_ne hk', Bag.isEmpty]
    · unfold BagFor
      simp [Bag.bags_put, hupper, Bag.isEmpty, hne, hfirst, hyh, hlast, htail]
    · simp [Node.put, Bag.put, Bag.isEmpty, hys, hx, hxy]
  · -- `p` came right before `y`: now `x` does
    have hpl : p ∈ l := mem_of_prevIn_eq_some hp
    have hpy : p ≠ y := fun h => hyy ((prevIn_eq_some_iff hnd).mp (h ▸ hp))
    have hpx : p ≠ x := fun h => hxl (h ▸ hpl)
    have hyh : l.head? ≠ some y := fun h => by rw [prevIn_of_head? hnd h] at hp; cases hp
    have hcp : cellIn (insertBefore x y l) k score p = { cellIn l k score p with next := some x } := by
      rw [cellIn_insertBefore hnd hxl hy hpx, if_neg hpy,
        if_pos ((prevIn_eq_some_iff hnd).mp hp)]
      rfl
    rw [hp] at hwrites
    simp only [Lists.insertAtUnchecked, Node.prevNode, prev_cellIn, id_cellIn, bagUpper_cellIn,
      hp, Option.bind_some, hl p hpl, id_cellIn, Node.isTerminal, Option.isNone_some,
      Bool.false_or, Bool.false_eq_true, if_false, Option.map_some]
    refine ⟨_, rfl, fun b => hwrites _ b fun hbx hby => ?_, fun k' _ => ?_, ?_, ?_⟩
    · -- the write before: `p` is linked on to `x`
      exact nodes_put_cellIn ((hmem p).mpr (.inr hpl)) hcp b fun hbp =>
        (hl.nodes_insertBefore_of_ne hnd hxl hy hbx hby (by simp [hp, Ne.symm hbp])).symm
    · rfl
    · unfold BagFor at hb ⊢
      simp only [Node.bags_put, hb, if_neg (List.ne_nil_of_mem hy), if_neg hne, hfirst,
        if_neg hyh, hlast]
    · simp [Node.put, hl p hpl, hys, hx, hxy, Ne.symm hpy, Function.update_of_ne (Ne.symm hpx)]

/-! ## Appending a node -/

/-- **`List::insert` of an id not stored** appends it, with its score, to the bag of its notional
bag `k`: the nodes of that bag are linked as the bag with the id appended, the other bags are
untouched, and the counter counts one more node. -/
theorem Linked.insert [Zero S] {st : Lists A S} {k : S} {score : A → S} {l : List A} {x : A}
    {thresholds : List S} {s : S} (hl : Linked st k score l) (hb : BagFor st k l) (hnd : l.Nodup)
    (hx : st.nodes x = none) (hk : notionalBagFor thresholds s = k) :
    (Lists.insert st thresholds x s).1 = .ok () ∧
      (∀ b, (Lists.insert st thresholds x s).2.nodes b = if b ∈ l ++ [x]
        then some (cellIn (l ++ [x]) k (Function.update score x s) b) else st.nodes b) ∧
      (∀ k', k' ≠ k → (Lists.insert st thresholds x s).2.bags k' = st.bags k') ∧
      BagFor (Lists.insert st thresholds x s).2 k (l ++ [x]) ∧
      (Lists.insert st thresholds x s).2.count = st.count + 1 := by
  have hxl : x ∉ l := fun h => by rw [hl x h] at hx; cases hx
  have hnd' : (l ++ [x]).Nodup := List.concat_eq_append ▸ hnd.concat hxl
  have hcx : cellIn (l ++ [x]) k (Function.update score x s) x = ⟨x, l.getLast?, none, k, s⟩ := by
    rw [cellIn_append_singleton hnd', if_pos rfl, if_pos rfl,
      if_neg fun h => hxl (List.mem_of_getLast? h), nextIn_of_not_mem hxl]
    rfl
  simp only [Lists.insert, Lists.contains, hx, Option.isSome_none, Bool.false_eq_true, if_false,
    hk, Bag.insertUnchecked, Bag.insertNodeUnchecked, true_and]
  cases ht : l.getLast? with
  | none =>
    -- an empty bag: it is made, with `x` as its head and its tail
    have hl0 : l = [] := List.getLast?_eq_none_iff.mp ht
    subst hl0
    have hbag : Bag.getOrMake st k = ⟨none, none, k⟩ := by
      unfold BagFor at hb
      rw [if_pos rfl, Option.map_eq_none_iff] at hb
      simp [Bag.getOrMake, Bag.get, hb]
    simp only [hbag, reduceCtorEq, if_false, Bag.tailNode, Option.bind_none, Option.isNone_none,
      if_true]
    refine ⟨fun b => ?_, fun k' hk' => ?_, ?_, ?_⟩
    · rw [Bag.nodes_put]
      refine nodes_put_cellIn (List.mem_append_right _ (List.mem_singleton_self _)) hcx b
        fun hbx => ?_
      rw [List.nil_append, if_neg fun h => hbx (List.mem_singleton.mp h)]
    · simp [Bag.bags_put, Bag.isEmpty, Function.update_of_ne hk']
    · simp [BagFor, Bag.bags_put, Bag.isEmpty]
    · simp [Node.put, hx]
  | some t =>
    -- `x` is linked after the old tail `t`
    have htl : t ∈ l := List.mem_of_getLast? ht
    have hne : l ≠ [] := List.ne_nil_of_mem htl
    have htx : t ≠ x := fun h => hxl (h ▸ htl)
    obtain ⟨hhead, htail, hupper⟩ := hb.getOrMake hne
    rw [ht] at htail
    obtain ⟨h₀, hh₀⟩ : ∃ h₀, l.head? = some h₀ :=
      Option.ne_none_iff_exists'.mp (mt List.head?_eq_none_iff.mp hne)
    have hhd : (l.head?).isNone = false := by rw [hh₀]; rfl
    have hct : cellIn (l ++ [x]) k (Function.update score x s) t =
        { cellIn l k score t with next := some x } := by
      rw [cellIn_append_singleton hnd', if_neg htx, if_neg htx, if_pos ht]
      rfl
    rw [ht] at hcx
    -- the write of `x` leaves the node of `t` for the code to read
    have ht' : (Node.put st ⟨x, some t, none, k, s⟩).nodes t = some (cellIn l k score t) := by
      rw [Node.nodes_put]
      exact (Function.update_of_ne htx _ _).trans (hl t htl)
    simp only [htail, hupper, Option.some.injEq, htx, if_false, Bag.tailNode, Option.bind_some,
      ht', hhead, hhd, Bool.false_eq_true]
    refine ⟨fun b => ?_, fun k' hk' => ?_, ?_, ?_⟩
    · rw [Bag.nodes_put]
      refine nodes_put_cellIn (List.mem_append_left _ htl) hct b fun hbt =>
        nodes_put_cellIn (List.mem_append_right _ (List.mem_singleton_self _)) hcx b fun hbx => ?_
      -- an id of the old bag other than its tail keeps its cell
      by_cases hbl : b ∈ l
      · rw [if_pos (List.mem_append_left _ hbl), hl b hbl, cellIn_append_singleton hnd',
          if_neg hbx, if_neg hbx, if_neg fun h => hbt (Option.some.inj (ht.symm.trans h)).symm]
        rfl
      · rw [if_neg fun h => (List.mem_append.mp h).elim hbl
          fun h => hbx (List.mem_singleton.mp h)]
    · simp [Bag.bags_put, Bag.isEmpty, Function.update_of_ne hk']
    · unfold BagFor
      simp [Bag.bags_put, Bag.isEmpty, ht, hh₀]
    · simp [Node.put, hx, hl t htl, Function.update_of_ne htx]

/-! ## Well-formed lists -/

namespace WellFormed

variable {keys : List S} {st : Lists A S} {seq : S → List A} {score : A → S}

section Basic

variable (hw : WellFormed keys st seq score)
include hw

theorem nodup_seq (k : S) : (seq k).Nodup := by
  by_cases hk : k ∈ keys
  · exact (List.nodup_flatMap.mp hw.nodup).1 k hk
  · rw [hw.seq_eq_nil k hk]
    exact List.nodup_nil

theorem mem_keys {a : A} {k : S} (ha : a ∈ seq k) : k ∈ keys := by
  by_contra hk
  rw [hw.seq_eq_nil k hk] at ha
  cases ha

theorem nodes_of_mem {a : A} {k : S} (ha : a ∈ seq k) :
    st.nodes a = some (cellIn (seq k) k score a) :=
  hw.linked k a ha

theorem eq_of_mem {a : A} {k k' : S} (ha : a ∈ seq k) (ha' : a ∈ seq k') : k = k' := by
  have h := congrArg (Option.map Node.bagUpper) ((hw.nodes_of_mem ha).symm.trans
    (hw.nodes_of_mem ha'))
  simpa using h

theorem nodes_eq_none {a : A} (ha : ∀ k, a ∉ seq k) : st.nodes a = none := by
  cases h : st.nodes a with
  | none => rfl
  | some node => exact absurd (hw.mem_of_nodes a node h) (ha _)

theorem exists_cellIn {a : A} {node : Node A S} (hnode : st.nodes a = some node) :
    ∃ k, a ∈ seq k ∧ node = cellIn (seq k) k score a := by
  have hmem := hw.mem_of_nodes a node hnode
  exact ⟨_, hmem, Option.some.inj (hnode.symm.trans (hw.nodes_of_mem hmem))⟩

theorem perm_flatMap (k : S) (hk : k ∈ keys) :
    List.Perm (keys.flatMap seq) (seq k ++ keys.flatMap (Function.update seq k [])) := by
  have h := perm_flatMap_update (f := seq) (seq k) hw.keys_nodup hk
  rwa [Function.update_eq_self] at h

theorem get_bag {k : S} (hk : seq k ≠ []) :
    ∃ bag, Bag.get st k = some bag ∧ bag.head = (seq k).head? ∧
      bag.tail = (seq k).getLast? ∧ bag.bagUpper = k :=
  (hw.bagFor k).get hk

end Basic

section Update

variable (hw : WellFormed keys st seq score)
include hw

/-- **Rewriting one bag.** A storage that holds bag `k` as the ids `l'`, where the ids not in
`l'` that bag `k` held are gone and every other node and bag is untouched, is well formed with bag
`k` replaced by `l'`, provided `l'` takes no id from another bag and the counter moves by the
change of the bag's length. -/
theorem update_bag {k : S} {l' : List A} {st' : Lists A S} (hk : k ∈ keys) (hnd : l'.Nodup)
    (hout : ∀ a ∈ l', ∀ k', k' ≠ k → a ∉ seq k')
    (hbag : BagFor st' k l') (hlinked : Linked st' k score l')
    (hbags : ∀ k', k' ≠ k → st'.bags k' = st.bags k')
    (hnodes : ∀ a, a ∉ l' → a ∉ seq k → st'.nodes a = st.nodes a)
    (hgone : ∀ a, a ∈ seq k → a ∉ l' → st'.nodes a = none)
    (hcount : st'.count + (seq k).length = st.count + l'.length) :
    WellFormed keys st' (Function.update seq k l') score := by
  -- the other bags, and the new contents of this one
  have hold := hw.perm_flatMap k hk
  have hnew := perm_flatMap_update (f := Function.update seq k l') l' hw.keys_nodup hk
  rw [Function.update_idem, Function.update_idem] at hnew
  have hrest : (keys.flatMap (Function.update seq k [])).Nodup :=
    (List.nodup_append.mp (hold.nodup_iff.mp hw.nodup)).2.1
  -- an id of another bag is in a bag `k' ≠ k`
  have hother : ∀ a ∈ keys.flatMap (Function.update seq k []), ∃ k', k' ≠ k ∧ a ∈ seq k' := by
    intro a ha
    obtain ⟨k', -, ha'⟩ := List.mem_flatMap.mp ha
    by_cases hkk : k' = k
    · rw [hkk, Function.update_self] at ha'
      cases ha'
    · rw [Function.update_of_ne hkk] at ha'
      exact ⟨k', hkk, ha'⟩
  refine ⟨hw.keys_nodup, ?_, ?_, ?_, ?_, ?_, ?_⟩
  · refine hnew.nodup_iff.mpr (List.nodup_append.mpr ⟨hnd, hrest, ?_⟩)
    rintro a ha b hb rfl
    obtain ⟨k', hkk, ha'⟩ := hother a hb
    exact hout a ha k' hkk ha'
  · intro k' hk'
    have hkk : k' ≠ k := fun h => hk' (h ▸ hk)
    rw [Function.update_of_ne hkk, hw.seq_eq_nil k' hk']
  · intro k'
    by_cases hkk : k' = k
    · subst hkk
      rw [Function.update_self]
      exact hbag
    · unfold BagFor
      rw [Function.update_of_ne hkk, hbags k' hkk]
      exact hw.bagFor k'
  · intro k' a ha
    by_cases hkk : k' = k
    · subst hkk
      rw [Function.update_self] at ha ⊢
      exact hlinked a ha
    · rw [Function.update_of_ne hkk] at ha ⊢
      have hak : a ∉ seq k := fun h => hkk (hw.eq_of_mem ha h)
      rw [hnodes a (fun h => hout a h k' hkk ha) hak]
      exact hw.linked k' a ha
  · intro a node h
    by_cases hal : a ∈ l'
    · rw [hlinked a hal] at h
      rw [← Option.some.inj h, bagUpper_cellIn, Function.update_self]
      exact hal
    by_cases hak : a ∈ seq k
    · rw [hgone a hak hal] at h
      cases h
    rw [hnodes a hal hak] at h
    have hmem := hw.mem_of_nodes a node h
    have hkk : node.bagUpper ≠ k := fun h' => hak (h' ▸ hmem)
    rw [Function.update_of_ne hkk]
    exact hmem
  · have hlen := length_flatMap_update (f := seq) l' hw.keys_nodup hk
    rw [hw.count_eq] at hcount
    omega

end Update

section Remove

variable (hw : WellFormed keys st seq score)
include hw

theorem bags_remove {x : A} {k : S} (hx : x ∈ seq k) {k' : S} (hk' : k' ≠ k) :
    (Lists.remove st x).2.bags k' = st.bags k' := by
  rw [Lists.remove_of_nodes (hw.nodes_of_mem hx)]
  split
  · -- a terminal node: the bag written back is the bag of `k`
    rw [Bag.bags_put, Function.update_of_ne]
    · simp
    · intro h
      apply hk'
      rw [h, Bag.bagUpper_removeNodeUnchecked, Bag.bagUpper_getOrMake, bagUpper_cellIn]
  · simp

/-- **Removing an id** takes it out of its bag, and the list stays well formed. -/
theorem remove {x : A} {k : S} (hx : x ∈ seq k) :
    WellFormed keys (Lists.remove st x).2 (Function.update seq k ((seq k).erase x)) score := by
  have hnd := hw.nodup_seq k
  have hk := hw.mem_keys hx
  have hl := hw.linked k
  have hxn := hw.nodes_of_mem hx
  -- the nodes and the counter after the node is excised and removed, whatever the bag does
  have hnodes : ∀ b, (Lists.remove st x).2.nodes b =
      if b = x then none
      else if b ∈ (seq k).erase x then some (cellIn ((seq k).erase x) k score b)
      else st.nodes b := by
    intro b
    rw [Lists.remove_of_nodes hxn]
    split <;>
      simp only [Bag.nodes_put, Node.nodes_removeFromStorageUnchecked, id_cellIn,
        Function.update_apply, hl.nodes_excise hnd]
  have hcount : (Lists.remove st x).2.count = st.count - 1 := by
    have hxe : (Node.excise st (cellIn (seq k) k score x)).nodes x = some (cellIn (seq k) k score x) := by
      rw [hl.nodes_excise hnd, if_neg (fun h => (hnd.mem_erase_iff.mp h).1 rfl), hxn]
    rw [Lists.remove_of_nodes hxn]
    split <;> simp [Node.removeFromStorageUnchecked, hxe, hl.count_excise]
  have hle : (seq k).length ≤ st.count := by
    rw [hw.count_eq, (hw.perm_flatMap k hk).length_eq, List.length_append]
    omega
  have hlen := List.length_erase_of_mem hx
  have hpos : 0 < (seq k).length := List.length_pos_of_mem hx
  refine hw.update_bag hk (hnd.erase x) ?_ ?_ ?_ (fun k' hk' => hw.bags_remove hx hk') ?_ ?_ ?_
  · intro a ha k' hkk ha'
    exact hkk (hw.eq_of_mem ha' (List.mem_of_mem_erase ha))
  · rw [Lists.remove_of_nodes hxn]
    split
    · exact (hw.bagFor k).put_removeNodeUnchecked hnd hx score _
    · -- an inner node: the bag keeps its ends
      rename_i ht
      simp only [Node.isTerminal, prev_cellIn, next_cellIn, Bool.or_eq_true,
        Option.isNone_iff_eq_none, not_or] at ht
      have hin := (hw.bagFor k).erase_of_inner hnd hx ht.1 ht.2
      unfold BagFor at hin ⊢
      simpa using hin
  · intro a ha
    rw [hnodes, if_neg (hnd.mem_erase_iff.mp ha).1, if_pos ha]
  · intro a hae hak
    have hax : a ≠ x := fun h => hak (h ▸ hx)
    rw [hnodes, if_neg hax, if_neg hae]
  · intro a hak hae
    have hax : a = x := by
      by_contra hax
      exact hae (List.mem_erase_of_ne hax |>.mpr hak)
    rw [hnodes, if_pos hax]
  · rw [hcount, hlen]
    omega

theorem count_remove {x : A} {k : S} (hx : x ∈ seq k) :
    (Lists.remove st x).2.count + 1 = st.count := by
  have hw₁ := hw.remove hx
  have hlen := length_flatMap_update (f := seq) ((seq k).erase x) hw.keys_nodup (hw.mem_keys hx)
  have hpos : 0 < (seq k).length := List.length_pos_of_mem hx
  rw [List.length_erase_of_mem hx, ← hw.count_eq, ← hw₁.count_eq] at hlen
  omega

end Remove

section InsertAt

variable (hw : WellFormed keys st seq score)
include hw

/-- **Linking an id in before another** inserts it in the bag of the other, and the list stays
well formed with one more id. -/
theorem insertAt {x y : A} {k : S} (hy : y ∈ seq k) (hx : ∀ k', x ∉ seq k') {node : Node A S}
    (hid : node.id = x) (hup : node.bagUpper = k) (hsc : node.score = score x) :
    ∃ st', Lists.insertAtUnchecked st (cellIn (seq k) k score y) node = some st' ∧
      WellFormed keys st' (Function.update seq k (insertBefore x y (seq k))) score ∧
      (∀ k', k' ≠ k → st'.bags k' = st.bags k') ∧ st'.count = st.count + 1 := by
  have hnd := hw.nodup_seq k
  have hxl : x ∉ seq k := hx k
  obtain ⟨st', hst, hnodes, hbags, hbag, hcount⟩ := (hw.linked k).insertAtUnchecked (hw.bagFor k)
    hnd hy (hw.nodes_eq_none hx) hid hup hsc
  have hperm := perm_insertBefore (x := x) hy
  have hmem : ∀ a, a ∈ insertBefore x y (seq k) ↔ a = x ∨ a ∈ seq k := fun a => by
    rw [hperm.mem_iff, List.mem_cons]
  refine ⟨st', hst, hw.update_bag (hw.mem_keys hy) ?_ ?_ hbag ?_ hbags ?_ ?_ ?_, hbags, hcount⟩
  · exact hperm.nodup_iff.mpr (List.nodup_cons.mpr ⟨hxl, hnd⟩)
  · intro a ha k' hkk ha'
    rcases (hmem a).mp ha with rfl | ha
    · exact hx k' ha'
    · exact hkk (hw.eq_of_mem ha' ha)
  · intro a ha
    rw [hnodes, if_pos ha]
  · intro a ha _
    rw [hnodes, if_neg ha]
  · intro a hak hal
    exact absurd ((hmem a).mpr (.inr hak)) hal
  · rw [hcount, hperm.length_eq, List.length_cons]
    omega

end InsertAt

section Insert

variable (hw : WellFormed keys st seq score)
include hw

theorem congr_score {score' : A → S} (h : ∀ k, ∀ a ∈ seq k, score' a = score a) :
    WellFormed keys st seq score' := by
  refine ⟨hw.keys_nodup, hw.nodup, hw.seq_eq_nil, hw.bagFor, fun k a ha => ?_, hw.mem_of_nodes,
    hw.count_eq⟩
  rw [hw.linked k a ha, cellIn, cellIn, h k a ha]

/-- **`List::insert` of an id in no bag** appends it to the bag of its score, among the keys, and
the list stays well formed with one more id. -/
theorem insert [Zero S] {thresholds : List S} {x : A} {s : S}
    (hk : notionalBagFor thresholds s ∈ keys) (hx : ∀ k, x ∉ seq k) :
    (Lists.insert st thresholds x s).1 = .ok () ∧
      WellFormed keys (Lists.insert st thresholds x s).2
        (Function.update seq (notionalBagFor thresholds s)
          (seq (notionalBagFor thresholds s) ++ [x])) (Function.update score x s) ∧
      (Lists.insert st thresholds x s).2.count = st.count + 1 := by
  set k := notionalBagFor thresholds s with hkdef
  have hnd := hw.nodup_seq k
  have hw' : WellFormed keys st seq (Function.update score x s) := hw.congr_score
    fun k a ha => Function.update_of_ne (fun (h : a = x) => hx k (h ▸ ha)) _ _
  obtain ⟨hok, hnodes, hbags, hbag, hcount⟩ :=
    (hw.linked k).insert (hw.bagFor k) hnd (hw.nodes_eq_none hx) hkdef.symm
  have hmem : ∀ a, a ∈ seq k ++ [x] ↔ a ∈ seq k ∨ a = x := fun a => by
    rw [List.mem_append, List.mem_singleton]
  refine ⟨hok, hw'.update_bag hk ?_ ?_ hbag ?_ hbags ?_ ?_ ?_, hcount⟩
  · exact List.concat_eq_append ▸ hnd.concat (hx k)
  · intro a ha k' hkk ha'
    rcases (hmem a).mp ha with ha | rfl
    · exact hkk (hw.eq_of_mem ha' ha)
    · exact hx k' ha'
  · intro a ha
    rw [hnodes, if_pos ha]
  · intro a ha _
    rw [hnodes, if_neg ha]
  · intro a hak hal
    exact absurd ((hmem a).mpr (.inl hak)) hal
  · rw [hcount, List.length_append, List.length_singleton]
    omega

omit hw in
/-- **The run of `List::insert_many`** over distinct ids in no bag, each of whose notional bags
is a key: each id is appended to the bag of its score, in the order of the ids, every insert
counts, and the list stays well formed. The fold is the one of `insert_many`, from any count. -/
theorem foldl_insert [Zero S] {thresholds : List S} (scoreOf : A → S) :
    ∀ (ids : List A) (n : ℕ) {st : Lists A S} {seq : S → List A} {score : A → S},
      WellFormed keys st seq score → ids.Nodup → (∀ v ∈ ids, ∀ k, v ∉ seq k) →
      (∀ v ∈ ids, notionalBagFor thresholds (scoreOf v) ∈ keys) →
      let r := ids.foldl (fun acc v =>
        let r := Lists.insert acc.2 thresholds v (scoreOf v)
        (if r.1.isOk then acc.1 + 1 else acc.1, r.2)) (n, st)
      WellFormed keys r.2
          (fun k => seq k ++ ids.filter fun v => notionalBagFor thresholds (scoreOf v) = k)
          (fun a => if a ∈ ids then scoreOf a else score a) ∧
        r.1 = n + ids.length ∧ r.2.count = st.count + ids.length
  | [], n, st, seq, score, hw₀, _, _, _ => by
    simp only [List.foldl_nil, List.filter_nil, List.append_nil, List.not_mem_nil, if_false,
      List.length_nil, Nat.add_zero, and_true]
    exact hw₀
  | v :: ids, n, st, seq, score, hw₀, hnd, hnew, hk => by
    obtain ⟨hv, hids⟩ := List.nodup_cons.mp hnd
    -- the first insert, then the rest from the list it leaves
    obtain ⟨hok, hw₁, hcount₁⟩ := hw₀.insert (hk v List.mem_cons_self) (hnew v List.mem_cons_self)
    have hnew₁ : ∀ w ∈ ids, ∀ k, w ∉ Function.update seq (notionalBagFor thresholds (scoreOf v))
        (seq (notionalBagFor thresholds (scoreOf v)) ++ [v]) k := by
      intro w hw' k h
      have hwv : w ≠ v := fun h' => hv (h' ▸ hw')
      rw [Function.update_apply] at h
      split_ifs at h
      · rcases List.mem_append.mp h with h | h
        · exact hnew w (List.mem_cons_of_mem v hw') _ h
        · exact hwv (List.mem_singleton.mp h)
      · exact hnew w (List.mem_cons_of_mem v hw') k h
    obtain ⟨hw₂, hn₂, hc₂⟩ := foldl_insert scoreOf ids (n + 1) hw₁ hids hnew₁
      fun w hw' => hk w (List.mem_cons_of_mem v hw')
    simp only [Except.isOk, Except.toBool] at hw₂ hn₂ hc₂
    simp only [List.foldl_cons, hok, Except.isOk, Except.toBool, if_true]
    refine ⟨?_, by rw [hn₂, List.length_cons]; omega,
      by rw [hc₂, hcount₁, List.length_cons]; omega⟩
    -- the bags and the scores after the whole run are those the statement names
    have hseq : (fun k => Function.update seq (notionalBagFor thresholds (scoreOf v))
          (seq (notionalBagFor thresholds (scoreOf v)) ++ [v]) k ++
          ids.filter fun w => notionalBagFor thresholds (scoreOf w) = k) =
        fun k => seq k ++ (v :: ids).filter fun w => notionalBagFor thresholds (scoreOf w) = k := by
      funext k
      by_cases hkv : k = notionalBagFor thresholds (scoreOf v)
      · subst hkv
        simp
      · simp [Function.update_of_ne hkv, Ne.symm hkv]
    have hscore : (fun a => if a ∈ ids then scoreOf a else Function.update score v (scoreOf v) a) =
        fun a => if a ∈ v :: ids then scoreOf a else score a := by
      funext a
      by_cases hav : a = v
      · subst hav
        simp [hv]
      · simp [hav]
    rw [← hseq, ← hscore]
    exact hw₂

/-- **`List::insert_many`** over distinct ids in no bag, each of whose notional bags is a key:
every insert succeeds and is counted, each id is appended to the bag of its score in the order of
the ids, and the list stays well formed. -/
theorem insertMany [Zero S] {thresholds : List S} (scoreOf : A → S) {ids : List A}
    (hnd : ids.Nodup) (hnew : ∀ v ∈ ids, ∀ k, v ∉ seq k)
    (hk : ∀ v ∈ ids, notionalBagFor thresholds (scoreOf v) ∈ keys) :
    WellFormed keys (Lists.insertMany st thresholds ids scoreOf).2
        (fun k => seq k ++ ids.filter fun v => notionalBagFor thresholds (scoreOf v) = k)
        (fun a => if a ∈ ids then scoreOf a else score a) ∧
      (Lists.insertMany st thresholds ids scoreOf).1 = ids.length ∧
      (Lists.insertMany st thresholds ids scoreOf).2.count = st.count + ids.length := by
  obtain ⟨hw', hn, hc⟩ := foldl_insert scoreOf ids 0 hw hnd hnew hk
  exact ⟨hw', by rw [Lists.insertMany, hn, Nat.zero_add], hc⟩

end Insert

theorem map_nodes_eq {keys' : List S} {st' : Lists A S} {seq' : S → List A}
    (hw : WellFormed keys st seq score) (hw' : WellFormed keys' st' seq' score)
    (hmem : ∀ k a, a ∈ seq' k ↔ a ∈ seq k) (a : A) :
    (st'.nodes a).map (fun n => (n.bagUpper, n.score)) =
      (st.nodes a).map (fun n => (n.bagUpper, n.score)) := by
  by_cases ha : ∃ k, a ∈ seq k
  · obtain ⟨k, ha⟩ := ha
    rw [hw.nodes_of_mem ha, hw'.nodes_of_mem ((hmem k a).mpr ha)]
    rfl
  · have ha : ∀ k, a ∉ seq k := fun k h => ha ⟨k, h⟩
    rw [hw.nodes_eq_none ha, hw'.nodes_eq_none fun k h => ha k ((hmem k a).mp h)]

/-- **A list from its bags**: a storage is well formed when the bags of its keys hold their ids,
linked, and nothing is stored outside them. -/
theorem of_support (hkeys : keys.Nodup) (hnd : (keys.flatMap seq).Nodup)
    (hseq : ∀ k, k ∉ keys → seq k = []) (hbags : ∀ k, k ∉ keys → st.bags k = none)
    (hnodes : ∀ a, a ∉ keys.flatMap seq → st.nodes a = none)
    (hbag : ∀ k ∈ keys, BagFor st k (seq k)) (hlinked : ∀ k ∈ keys, Linked st k score (seq k))
    (hcount : st.count = (keys.flatMap seq).length) : WellFormed keys st seq score := by
  refine ⟨hkeys, hnd, hseq, fun k => ?_, fun k => ?_, fun a node h => ?_, hcount⟩
  · by_cases hk : k ∈ keys
    · exact hbag k hk
    · unfold BagFor
      rw [hseq k hk, hbags k hk, if_pos rfl, Option.map_none]
  · by_cases hk : k ∈ keys
    · exact hlinked k hk
    · rw [hseq k hk]
      intro a ha
      cases ha
  · -- a stored node is the cell of an id of some bag
    by_cases ha : a ∈ keys.flatMap seq
    · obtain ⟨k, hk, hak⟩ := List.mem_flatMap.mp ha
      rw [hlinked k hk a hak] at h
      rw [← Option.some.inj h]
      exact hak
    · rw [hnodes a ha] at h
      cases h

end WellFormed

end PolkadotSdk.BagsList
