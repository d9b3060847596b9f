import Mathlib.Data.List.Sort
import Mathlib.Logic.Function.Basic
import Mathlib.Order.BoundedOrder.Basic
import PolkadotSdk.Lib.Holdings
import PolkadotSdk.Lib.Sequences

/-!
# The bags list

`frame/bags-list` keeps ids in bags by score. Each bag is a doubly linked list held in storage:
`ListNodes` maps an id to its `Node` (its neighbours in its bag, its bag and its score) and counts
its entries, and `ListBags` maps the upper threshold of a bag to its `Bag` (the ids of its head and
its tail). Iteration visits the bags from the highest threshold down, each from head to tail.

`Lists` is that storage, with `ListNodes` and `ListBags` as maps, and the functions of
`list/mod.rs` pass it along as the code writes it, one storage write at a time. Bag iteration is
`core::iter::successors` along the `next` links; a cycle of links would make it endless, so it is
cut after `fuel` nodes. `ScoreProvider::score` is a function `scoreOf` of the id. `Score` is a
linear order with a top, `Score::max_value()`; ids have decidable equality, and a linear order where
the code keeps them in a `BTreeSet`.
-/

set_option linter.unusedSectionVars false

namespace PolkadotSdk.BagsList

open PolkadotSdk.Lib.Holdings PolkadotSdk.Lib.Sequences

/-- `ListError`. -/
inductive ListError
  | duplicate
  | notHeavier
  | notInSameBag
  | nodeNotFound
  deriving DecidableEq, Repr

/-- `Node`: an id, the ids before and after it in its bag, its bag and its score. -/
structure Node (A S : Type*) where
  id : A
  prev : Option A
  next : Option A
  bagUpper : S
  score : S
  deriving DecidableEq, Repr

/-- `Bag`: the ids of its head and tail; `bag_upper` is not encoded, and is set when the bag is
read. -/
structure Bag (A S : Type*) where
  head : Option A
  tail : Option A
  bagUpper : S
  deriving DecidableEq, Repr

/-- The pallet's storage: `ListNodes`, the counter of its entries, and `ListBags`. -/
structure Lists (A S : Type*) where
  nodes : A → Option (Node A S)
  count : ℕ
  bags : S → Option (Bag A S)

variable {A S : Type*} [DecidableEq A] [LinearOrder S] [OrderTop S]

/-- `notional_bag_for`: the threshold at the partition point of the thresholds below the score, or
`Score::max_value()` past the last. -/
def notionalBagFor (thresholds : List S) (score : S) : S :=
  let idx := partitionPoint (fun threshold => decide (score > threshold)) thresholds
  thresholds[idx]?.getD ⊤

namespace Node

/-- `Node::get`. -/
def get (st : Lists A S) (id : A) : Option (Node A S) := st.nodes id

/-- `Node::put`: `ListNodes::insert`, which counts a new key. -/
def put (st : Lists A S) (node : Node A S) : Lists A S :=
  { st with
    nodes := Function.update st.nodes node.id (some node)
    count := if (st.nodes node.id).isSome then st.count else st.count + 1 }

/-- `Node::prev`: the node before this one, read from storage. -/
def prevNode (st : Lists A S) (node : Node A S) : Option (Node A S) := node.prev.bind st.nodes

/-- `Node::next`: the node after this one, read from storage. -/
def nextNode (st : Lists A S) (node : Node A S) : Option (Node A S) := node.next.bind st.nodes

/-- `Node::excise`: the neighbours linked to each other, the node itself left as it is. -/
def excise (st : Lists A S) (node : Node A S) : Lists A S :=
  let st := match prevNode st node with
    | some prev => put st { prev with next := node.next }
    | none => st
  match nextNode st node with
  | some next => put st { next with prev := node.prev }
  | none => st

/-- `Node::remove_from_storage_unchecked`: `ListNodes::remove`, which counts a removed key. -/
def removeFromStorageUnchecked (st : Lists A S) (node : Node A S) : Lists A S :=
  { st with
    nodes := Function.update st.nodes node.id none
    count := if (st.nodes node.id).isSome then st.count - 1 else st.count }

/-- `Node::is_terminal`: the head or the tail of its bag. -/
def isTerminal (node : Node A S) : Bool := node.prev.isNone || node.next.isNone

/-- `Node::is_misplaced`: the node is not in the bag of its current score. -/
def isMisplaced (thresholds : List S) (node : Node A S) (currentScore : S) : Bool :=
  decide (notionalBagFor thresholds currentScore ≠ node.bagUpper)

end Node

namespace Bag

/-- `Bag::get`: the stored bag, with its `bag_upper` set. -/
def get (st : Lists A S) (bagUpper : S) : Option (Bag A S) :=
  (st.bags bagUpper).map fun bag => { bag with bagUpper }

/-- `Bag::get_or_make`. -/
def getOrMake (st : Lists A S) (bagUpper : S) : Bag A S :=
  (get st bagUpper).getD ⟨none, none, bagUpper⟩

/-- `Bag::is_empty`. -/
def isEmpty (bag : Bag A S) : Bool := bag.head.isNone && bag.tail.isNone

/-- `Bag::put`: an empty bag is removed from storage. -/
def put (st : Lists A S) (bag : Bag A S) : Lists A S :=
  if bag.isEmpty then { st with bags := Function.update st.bags bag.bagUpper none }
  else { st with bags := Function.update st.bags bag.bagUpper (some bag) }

/-- `Bag::head`: the head node, read from storage. -/
def headNode (st : Lists A S) (bag : Bag A S) : Option (Node A S) := bag.head.bind st.nodes

/-- `Bag::tail`: the tail node, read from storage. -/
def tailNode (st : Lists A S) (bag : Bag A S) : Option (Node A S) := bag.tail.bind st.nodes

/-- `Bag::iter`: the nodes from the head along the `next` links, cut after `fuel` nodes. -/
def iter (st : Lists A S) (fuel : ℕ) (bag : Bag A S) : List (Node A S) :=
  successors (Node.nextNode st) fuel (headNode st bag)

/-- `Bag::insert_node_unchecked`: the node written as the new tail, linked after the old tail. -/
def insertNodeUnchecked (st : Lists A S) (bag : Bag A S) (node : Node A S) :
    Lists A S × Bag A S :=
  -- the defensive check against inserting the tail again
  if bag.tail = some node.id then (st, bag)
  else
    let node := { node with bagUpper := bag.bagUpper, prev := bag.tail, next := none }
    let st := Node.put st node
    let st := match tailNode st bag with
      | some oldTail => Node.put st { oldTail with next := some node.id }
      | none => st
    let bag := { bag with tail := some node.id }
    (st, if bag.head.isNone then { bag with head := some node.id } else bag)

/-- `Bag::insert_unchecked`: a new node for `id`, inserted as the tail. -/
def insertUnchecked [Zero S] (st : Lists A S) (bag : Bag A S) (id : A) (score : S) :
    Lists A S × Bag A S :=
  insertNodeUnchecked st bag ⟨id, none, none, 0, score⟩

/-- `Bag::remove_node_unchecked`: the node excised, and the bag's head or tail moved off it. -/
def removeNodeUnchecked (st : Lists A S) (bag : Bag A S) (node : Node A S) :
    Lists A S × Bag A S :=
  let st := Node.excise st node
  let bag := if bag.tail = some node.id then { bag with tail := node.prev } else bag
  (st, if bag.head = some node.id then { bag with head := node.next } else bag)

end Bag

namespace Lists

/-- `List::contains`. -/
def contains (st : Lists A S) (id : A) : Bool := (st.nodes id).isSome

/-- The thresholds with `Score::max_value()` appended unless it is already last: the bags there
can be, in increasing order. -/
def bagKeys (thresholds : List S) : List S :=
  if thresholds.getLast? = some ⊤ then thresholds else thresholds ++ [⊤]

/-- `List::iter`: the nodes of the bags, from the highest threshold down. -/
def iter (st : Lists A S) (thresholds : List S) (fuel : ℕ) : List (Node A S) :=
  ((bagKeys thresholds).reverse.filterMap (Bag.get st)).flatMap (Bag.iter st fuel)

/-- `List::iter_from`: the nodes after `start` in its bag, then those of the bags below it. -/
def iterFrom (st : Lists A S) (thresholds : List S) (fuel : ℕ) (start : A) :
    Except ListError (List (Node A S)) :=
  match Node.get st start with
  | none => .error .nodeNotFound
  | some startNode =>
    let startBag := successors (Node.nextNode st) fuel (Node.nextNode st startNode)
    let idx := partitionPoint (fun threshold => decide (startNode.bagUpper > threshold)) thresholds
    let leftoverBags :=
      ((thresholds.take idx).reverse.filterMap (Bag.get st)).flatMap (Bag.iter st fuel)
    .ok (startBag ++ leftoverBags)

/-- `List::unsafe_clear`: `ListBags` and `ListNodes` emptied, the counter with them. -/
def unsafeClear : Lists A S := ⟨fun _ => none, 0, fun _ => none⟩

section Insert

variable [Zero S]

/-- `List::insert`: a new id appended to the bag of its score. -/
def insert (st : Lists A S) (thresholds : List S) (id : A) (score : S) :
    Except ListError Unit × Lists A S :=
  if contains st id then (.error .duplicate, st)
  else
    let bagScore := notionalBagFor thresholds score
    let r := Bag.insertUnchecked st (Bag.getOrMake st bagScore) id score
    (.ok (), Bag.put r.1 r.2)

/-- `List::insert_many`: each id inserted in turn, with the number inserted. -/
def insertMany (st : Lists A S) (thresholds : List S) (ids : List A) (scoreOf : A → S) :
    ℕ × Lists A S :=
  ids.foldl (fun acc v =>
    let r := insert acc.2 thresholds v (scoreOf v)
    (if r.1.isOk then acc.1 + 1 else acc.1, r.2)) (0, st)

/-- `List::unsafe_regenerate`: the list cleared, then the ids inserted with their scores. -/
def unsafeRegenerate (thresholds : List S) (ids : List A) (scoreOf : A → S) : ℕ × Lists A S :=
  insertMany unsafeClear thresholds ids scoreOf

end Insert

/-- One id of `List::remove_many`: the number removed, the bags read so far, and the storage. A
node inside its bag is only excised; the head or tail of a bag is taken off the bag too, in the
copy of the bag the loop keeps. -/
def removeManyStep (acc : ℕ × List (S × Bag A S) × Lists A S) (id : A) :
    ℕ × List (S × Bag A S) × Lists A S :=
  match Node.get acc.2.2 id with
  | none => acc
  | some node =>
    if !node.isTerminal then
      (acc.1 + 1, acc.2.1, Node.removeFromStorageUnchecked (Node.excise acc.2.2 node) node)
    else
      let bag := (valueAt node.bagUpper acc.2.1).getD (Bag.getOrMake acc.2.2 node.bagUpper)
      let r := Bag.removeNodeUnchecked acc.2.2 bag node
      (acc.1 + 1, upsert node.bagUpper r.2 acc.2.1, Node.removeFromStorageUnchecked r.1 node)

/-- `List::remove_many`: the ids removed in turn, then the bags they touched written back. -/
def removeMany (st : Lists A S) (ids : List A) : ℕ × Lists A S :=
  let r := ids.foldl removeManyStep (0, [], st)
  (r.1, r.2.1.foldl (fun st e => Bag.put st e.2) r.2.2)

/-- `List::remove`. -/
def remove (st : Lists A S) (id : A) : Except ListError Unit × Lists A S :=
  if !contains st id then (.error .nodeNotFound, st) else (.ok (), (removeMany st [id]).2)

/-- `List::insert_at_unchecked`: `node` linked in right before `atNode`; `none` where `expect`
panics, on a bag missing from storage. -/
def insertAtUnchecked (st : Lists A S) (atNode node : Node A S) : Option (Lists A S) :=
  let node := { node with prev := atNode.prev }
  let st := match Node.prevNode st atNode with
    | some prev => Node.put st { prev with next := some node.id }
    | none => st
  let node := { node with next := some atNode.id }
  let atNode := { atNode with prev := some node.id }
  let st? :=
    if node.isTerminal then
      (Bag.get st atNode.bagUpper).map fun bag =>
        Bag.put st (if node.prev = none then { bag with head := some node.id } else bag)
    else some st
  st?.map fun st => Node.put (Node.put st atNode) node

/-- `List::put_in_front_of`: after its checks, `heavierId` removed and linked in again right
before `lighterId`; `none` where the code panics. -/
def putInFrontOf (st : Lists A S) (scoreOf : A → S) (lighterId heavierId : A) :
    Option (Except ListError Unit × Lists A S) :=
  match Node.get st lighterId, Node.get st heavierId with
  | none, _ => some (.error .nodeNotFound, st)
  | some _, none => some (.error .nodeNotFound, st)
  | some lighterNode, some heavierNode =>
    if lighterNode.bagUpper ≠ heavierNode.bagUpper then some (.error .notInSameBag, st)
    else if ¬scoreOf heavierId > scoreOf lighterId then some (.error .notHeavier, st)
    else
      let st := (remove st heavierId).2
      match Node.get st lighterId with
      | none => some (.error .nodeNotFound, st)
      | some lighterNode =>
        (insertAtUnchecked st lighterNode heavierNode).map fun st => (.ok (), st)

/-- `List::update_position_for`: the node with its new score, moved to the tail of the bag of that
score if it is misplaced, with the old and the new bag; otherwise only written with its new score.
A head or a tail whose bag is not stored is left where it was, as the code does after its
`defensive!` in a release build. -/
def updatePositionFor (st : Lists A S) (thresholds : List S) (node : Node A S) (newScore : S) :
    Option (S × S) × Lists A S :=
  let node := { node with score := newScore }
  if node.isMisplaced thresholds newScore then
    let oldBagUpper := node.bagUpper
    let st :=
      if !node.isTerminal then Node.excise st node
      else match Bag.get st node.bagUpper with
        | some bag =>
          let r := Bag.removeNodeUnchecked st bag node
          Bag.put r.1 r.2
        | none => st
    let newBagUpper := notionalBagFor thresholds newScore
    let r := Bag.insertNodeUnchecked st (Bag.getOrMake st newBagUpper) node
    (some (oldBagUpper, newBagUpper), Bag.put r.1 r.2)
  else (none, Node.put st node)

end Lists

/-! ## Storage writes -/

theorem Lists.ext {st st' : Lists A S} (hn : st.nodes = st'.nodes) (hc : st.count = st'.count)
    (hb : st.bags = st'.bags) : st = st' := by
  cases st
  cases st'
  simp only at hn hc hb
  rw [hn, hc, hb]

namespace Node

@[simp] theorem nodes_put (st : Lists A S) (node : Node A S) :
    (put st node).nodes = Function.update st.nodes node.id (some node) := rfl

@[simp] theorem bags_put (st : Lists A S) (node : Node A S) : (put st node).bags = st.bags := rfl

@[simp] theorem nodes_removeFromStorageUnchecked (st : Lists A S) (node : Node A S) :
    (removeFromStorageUnchecked st node).nodes = Function.update st.nodes node.id none := rfl

@[simp] theorem bags_removeFromStorageUnchecked (st : Lists A S) (node : Node A S) :
    (removeFromStorageUnchecked st node).bags = st.bags := rfl

@[simp] theorem bags_excise (st : Lists A S) (node : Node A S) :
    (excise st node).bags = st.bags := by
  unfold excise
  cases prevNode st node <;> dsimp only <;> split <;> rfl

theorem put_withBags (st : Lists A S) (B : S → Option (Bag A S)) (node : Node A S) :
    put { st with bags := B } node = { put st node with bags := B } := rfl

theorem removeFromStorageUnchecked_withBags (st : Lists A S) (B : S → Option (Bag A S))
    (node : Node A S) :
    removeFromStorageUnchecked { st with bags := B } node =
      { removeFromStorageUnchecked st node with bags := B } := rfl

theorem excise_withBags (st : Lists A S) (B : S → Option (Bag A S)) (node : Node A S) :
    excise { st with bags := B } node = { excise st node with bags := B } := by
  simp only [excise, prevNode, nextNode]
  cases node.prev.bind st.nodes with
  | none =>
    dsimp only
    cases node.next.bind st.nodes <;> rfl
  | some prev =>
    -- the next node is read after the write to the previous one
    dsimp only
    rw [put_withBags]
    dsimp only
    cases node.next.bind (put st { prev with next := node.next }).nodes <;> rfl

theorem put_put_self (st : Lists A S) {node node' : Node A S} (h : node.id = node'.id) :
    put (put st node) node' = put st node' := by
  refine Lists.ext ?_ ?_ rfl
  · rw [nodes_put, nodes_put, nodes_put, h, Function.update_idem]
  · simp [put, h]

theorem put_removeFromStorageUnchecked {st : Lists A S} {node : Node A S}
    (h : st.nodes node.id = some node) (hc : 0 < st.count) :
    put (removeFromStorageUnchecked st node) node = st := by
  refine Lists.ext ?_ ?_ rfl
  · rw [nodes_put, nodes_removeFromStorageUnchecked, Function.update_idem]
    exact Function.update_eq_self_iff.mpr h.symm
  · simp only [put, removeFromStorageUnchecked, h, Function.update_self, Option.isSome_none,
      Option.isSome_some, if_true, Bool.false_eq_true, if_false]
    omega

end Node

namespace Bag

@[simp] theorem nodes_put (st : Lists A S) (bag : Bag A S) : (put st bag).nodes = st.nodes := by
  unfold put
  split <;> rfl

@[simp] theorem count_put (st : Lists A S) (bag : Bag A S) : (put st bag).count = st.count := by
  unfold put
  split <;> rfl

theorem bags_put (st : Lists A S) (bag : Bag A S) :
    (put st bag).bags =
      Function.update st.bags bag.bagUpper (if bag.isEmpty then none else some bag) := by
  unfold put
  split <;> simp [*]

theorem put_eq (st : Lists A S) (bag : Bag A S) :
    put st bag =
      { st with
        bags := Function.update st.bags bag.bagUpper (if bag.isEmpty then none else some bag) } :=
  Lists.ext (nodes_put st bag) (count_put st bag) (bags_put st bag)

@[simp] theorem bagUpper_getOrMake (st : Lists A S) (k : S) : (getOrMake st k).bagUpper = k := by
  unfold getOrMake get
  cases st.bags k <;> rfl

@[simp] theorem fst_removeNodeUnchecked (st : Lists A S) (bag : Bag A S) (node : Node A S) :
    (removeNodeUnchecked st bag node).1 = Node.excise st node := rfl

theorem put_nodePut (st : Lists A S) (bag : Bag A S) (node : Node A S) :
    Node.put (put st bag) node = put (Node.put st node) bag := by
  rw [put_eq, put_eq, Node.put_withBags]
  rfl

theorem snd_removeNodeUnchecked (st st' : Lists A S) (bag : Bag A S) (node : Node A S) :
    (removeNodeUnchecked st bag node).2 = (removeNodeUnchecked st' bag node).2 := rfl

theorem bagUpper_removeNodeUnchecked (st : Lists A S) (bag : Bag A S) (node : Node A S) :
    (removeNodeUnchecked st bag node).2.bagUpper = bag.bagUpper := by
  unfold removeNodeUnchecked
  dsimp only
  split_ifs <;> rfl

/-- Inserting a node at the tail of a bag writes all of it but its id and its score, over whatever
the storage held for that id: over a storage that held the id, and the same one without it, the
insert leaves the same storage. -/
theorem insertNodeUnchecked_put {st : Lists A S} {bag : Bag A S} {m node node' : Node A S}
    (hm : m.id = node.id) (hid : node.id = node'.id) (hsc : node.score = node'.score)
    (ht : bag.tail ≠ some node.id) :
    insertNodeUnchecked (Node.put st m) bag node = insertNodeUnchecked st bag node' := by
  have hN : ({ node with bagUpper := bag.bagUpper, prev := bag.tail, next := none } : Node A S) =
      { node' with bagUpper := bag.bagUpper, prev := bag.tail, next := none } := by
    cases node
    cases node'
    simp only at hid hsc
    rw [hid, hsc]
  have hm' : m.id = ({ node' with bagUpper := bag.bagUpper, prev := bag.tail, next := none } :
      Node A S).id := hm.trans hid
  unfold insertNodeUnchecked
  rw [if_neg ht, if_neg (hid ▸ ht)]
  dsimp only
  rw [hN, hid, Node.put_put_self st hm']

end Bag

namespace Lists

theorem remove_of_nodes {st : Lists A S} {x : A} {node : Node A S} (h : st.nodes x = some node) :
    (remove st x).2 =
      if node.isTerminal then
        Bag.put (Node.removeFromStorageUnchecked (Node.excise st node) node)
          (Bag.removeNodeUnchecked st (Bag.getOrMake st node.bagUpper) node).2
      else Node.removeFromStorageUnchecked (Node.excise st node) node := by
  have hc : contains st x = true := by simp [contains, h]
  unfold remove removeMany
  simp only [hc, Bool.not_true, Bool.false_eq_true, if_false, List.foldl_cons, List.foldl_nil,
    removeManyStep, Node.get, h]
  by_cases ht : node.isTerminal
  · simp [ht, valueAt, upsert]
  · simp [ht]

end Lists

end PolkadotSdk.BagsList
