import Mathlib.Algebra.Order.BigOperators.Group.List
import PolkadotSdk.Arithmetic.Rational
import PolkadotSdk.Lib.Bytes
import PolkadotSdk.Lib.Holdings
import PolkadotSdk.Lib.Unsigned
import PolkadotSdk.MessageQueue.Storage

/-!
# The heap of a message-queue page

A `Page` of `frame/message-queue` keeps its messages in a byte heap: each item is an `ItemHeader`
(the payload's length as a little-endian `Size`, and an `is_processed` flag as one byte) followed
by the payload. `first` and `last` are byte offsets of headers, `first_index` counts the items
before `first`, and the readers step from item to item by `ItemHeader::max_encoded_len()`.

`Page` here is that heap, byte for byte, for a size type `Size` (an unsigned type that converts
into `u32`) and a `HeapSize`. The pallet's model (`MessageQueue.Page`) keeps the heap decoded as
its items and positions as item indices; `Refines` says that a heap page stores a decoded page:
its heap is the encoding of the items (`encodeItems`), `first` and `last` are the offsets of the
`first_index`-th and of the last header, and the counters agree. Every operation keeps `Refines`
and does on the decoded page what the pallet's model does, with a position read as the offset of
the item it indexes. Since `Size`'s encoding is fixed-width, the decoded header is exactly
`ItemHeader::max_encoded_len()` long, which is what lets the readers' steps land on the next header.

The decoded page's own invariant, `Page.Consistent` (its counters count its unprocessed items),
holds of every page built from messages and is kept by every operation.
-/

namespace PolkadotSdk.MessageQueue.Page

/-! ## Decoded pages -/

/-- **The invariant of a decoded page**: `remaining` and `remaining_size` count the unprocessed
items and their payloads, and `first_index` is at most one past the last item. -/
structure Consistent (p : Page) : Prop where
  remaining_eq : p.remaining = p.unprocessed.length
  remainingSize_eq : p.remainingSize = (p.unprocessed.map fun item => item.payload.length).sum
  firstIndex_le : p.firstIndex ≤ p.items.length

/-- The page `try_append_message` gives when it accepts `message`. -/
def pushMessage (p : Page) (message : List UInt8) : Page :=
  ⟨p.remaining + 1, p.remainingSize + message.length, p.firstIndex, p.items ++ [⟨message, false⟩]⟩

theorem consistent_fromMessage (message : List UInt8) : (fromMessage message).Consistent :=
  ⟨rfl, by simp [fromMessage, unprocessed], by simp [fromMessage]⟩

theorem Consistent.pushMessage {p : Page} (hp : p.Consistent) (message : List UInt8) :
    (p.pushMessage message).Consistent := by
  obtain ⟨h₁, h₂, h₃⟩ := hp
  refine ⟨?_, ?_, ?_⟩ <;>
    simp only [Page.pushMessage, unprocessed, List.filter_append, List.length_append,
      List.map_append, List.sum_append, List.length_cons, List.length_nil] at h₁ h₂ h₃ ⊢
  · simp [h₁]
  · simp [h₂]
  · omega

/-- Marking an unprocessed item processed takes it off the unprocessed items. -/
theorem unprocessed_set {l : List Item} {i : ℕ} {item : Item} (h : l[i]? = some item)
    (hu : item.isProcessed = false) :
    ((l.set i { item with isProcessed := true }).filter fun x => !x.isProcessed).length + 1 =
        (l.filter fun x => !x.isProcessed).length ∧
      (((l.set i { item with isProcessed := true }).filter fun x => !x.isProcessed).map
          fun x => x.payload.length).sum + item.payload.length =
        ((l.filter fun x => !x.isProcessed).map fun x => x.payload.length).sum := by
  obtain ⟨hi, hx⟩ := List.getElem?_eq_some_iff.mp h
  have hl : l = l.take i ++ item :: l.drop (i + 1) := by
    rw [← hx, ← List.drop_eq_getElem_cons hi, List.take_append_drop]
  rw [List.set_eq_take_append_cons_drop, if_pos hi]
  generalize l.take i = a at hl ⊢
  generalize l.drop (i + 1) = b at hl ⊢
  subst hl
  simp only [List.filter_append, List.filter_cons, hu, Bool.not_true, Bool.not_false,
    Bool.false_eq_true, if_false, if_true, List.length_append, List.length_cons, List.map_append,
    List.map_cons, List.sum_append, List.sum_cons]
  omega

theorem Consistent.skipFirst {p : Page} (hp : p.Consistent) (isProcessed : Bool) :
    (p.skipFirst isProcessed).Consistent := by
  obtain ⟨h₁, h₂, h₃⟩ := hp
  unfold Page.skipFirst
  cases h : p.items[p.firstIndex]? with
  | none => exact ⟨h₁, h₂, h₃⟩
  | some item =>
    have hi := (List.getElem?_eq_some_iff.mp h).1
    dsimp only
    split_ifs with hb
    · -- the item is marked processed: it leaves the unprocessed items
      have hu : item.isProcessed = false := by simp at hb; exact hb.2
      obtain ⟨hl, hs⟩ := unprocessed_set h hu
      refine ⟨?_, ?_, by simp; omega⟩
      · simp only [unprocessed] at h₁ ⊢; omega
      · simp only [unprocessed] at h₂ ⊢; omega
    · exact ⟨h₁, h₂, by simp; omega⟩

theorem Consistent.noteProcessedAtPos {p : Page} (hp : p.Consistent) (pos : ℕ) :
    (p.noteProcessedAtPos pos).Consistent := by
  obtain ⟨h₁, h₂, h₃⟩ := hp
  unfold Page.noteProcessedAtPos
  cases h : p.items[pos]? with
  | none => exact ⟨h₁, h₂, h₃⟩
  | some item =>
    dsimp only
    split_ifs with hb
    · have hu : item.isProcessed = false := by simpa using hb
      obtain ⟨hl, hs⟩ := unprocessed_set h hu
      refine ⟨?_, ?_, by simpa using h₃⟩
      · simp only [unprocessed] at h₁ ⊢; omega
      · simp only [unprocessed] at h₂ ⊢; omega
    · exact ⟨h₁, h₂, h₃⟩

theorem skipFirst_of_getElem? {p : Page} {item : Item} (h : p.items[p.firstIndex]? = some item)
    (isProcessed : Bool) :
    p.skipFirst isProcessed =
      if isProcessed && !item.isProcessed then
        ⟨p.remaining - 1, p.remainingSize - item.payload.length, p.firstIndex + 1,
          p.items.set p.firstIndex { item with isProcessed := true }⟩
      else { p with firstIndex := p.firstIndex + 1 } := by
  unfold Page.skipFirst
  rw [h]

theorem skipFirst_of_length_le {p : Page} (h : p.items.length ≤ p.firstIndex)
    (isProcessed : Bool) : p.skipFirst isProcessed = p := by
  unfold Page.skipFirst
  rw [List.getElem?_eq_none h]

theorem noteProcessedAtPos_of_getElem?_eq_none {p : Page} {pos : ℕ} (h : p.items[pos]? = none) :
    p.noteProcessedAtPos pos = p := by
  unfold Page.noteProcessedAtPos
  rw [h]

theorem noteProcessedAtPos_of_getElem? {p : Page} {pos : ℕ} {item : Item}
    (h : p.items[pos]? = some item) :
    p.noteProcessedAtPos pos =
      if !item.isProcessed then
        { p with
          remaining := p.remaining - 1
          remainingSize := p.remainingSize - item.payload.length
          items := p.items.set pos { item with isProcessed := true } }
      else p := by
  unfold Page.noteProcessedAtPos
  rw [h]

theorem Consistent.remainingSize_le {p : Page} (hp : p.Consistent) :
    p.remainingSize ≤ (p.items.map fun item => item.payload.length).sum := by
  rw [hp.remainingSize_eq]
  exact Lib.Holdings.sum_map_filter_le _ _ _

theorem Consistent.remaining_le {p : Page} (hp : p.Consistent) : p.remaining ≤ p.items.length := by
  rw [hp.remaining_eq]
  exact List.length_filter_le _ _

/-! ## Marking items processed -/

theorem peekIndex_noteProcessedAtPos {p : Page} {i : ℕ} (hi : i < p.items.length) (j : ℕ) :
    (p.noteProcessedAtPos i).peekIndex j =
      if j = i then (p.peekIndex i).map fun r => (r.1, true, r.2.2) else p.peekIndex j := by
  have h := List.getElem?_eq_getElem hi
  rw [noteProcessedAtPos_of_getElem? h]
  split_ifs with hb hj hj
  · subst hj
    simp [peekIndex, hi]
  · simp [peekIndex, Ne.symm hj]
  · -- the item was processed already: marking it changes nothing
    subst hj
    have hp : p.items[j].isProcessed = true := by simpa using hb
    simp [peekIndex, h, hp]
  · rfl

theorem noteProcessedAtPos_idem (p : Page) (i : ℕ) :
    (p.noteProcessedAtPos i).noteProcessedAtPos i = p.noteProcessedAtPos i := by
  cases h : p.items[i]? with
  | none => rw [noteProcessedAtPos_of_getElem?_eq_none h, noteProcessedAtPos_of_getElem?_eq_none h]
  | some item =>
    rw [noteProcessedAtPos_of_getElem? h]
    split_ifs with hb
    · have hi := (List.getElem?_eq_some_iff.mp h).1
      have h' : (p.items.set i { item with isProcessed := true })[i]? =
          some { item with isProcessed := true } := by simp [hi]
      rw [noteProcessedAtPos_of_getElem? h', if_neg (by simp)]
    · rw [noteProcessedAtPos_of_getElem? h, if_neg hb]

/-! ## Runs of a decoded page -/

/-- `peek_first` and then `skip_first` with each decision in turn: the peeked messages, and the
page after them. -/
def drain (p : Page) : List Bool → List (Option (List UInt8)) × Page
  | [] => ([], p)
  | isProcessed :: rest =>
    let r := (p.skipFirst isProcessed).drain rest
    (p.peekFirst :: r.1, r.2)

/-- Messages as items, message `i` processed if decision `i` of `pre` was to process it. -/
def markItems (ms : List (List UInt8)) (pre : List Bool) : List Item :=
  ms.mapIdx fun i m => ⟨m, pre.getD i false⟩

@[simp] theorem length_markItems (ms : List (List UInt8)) (pre : List Bool) :
    (markItems ms pre).length = ms.length := List.length_mapIdx

theorem getElem?_markItems (ms : List (List UInt8)) (pre : List Bool) (i : ℕ) :
    (markItems ms pre)[i]? = ms[i]?.map fun m => ⟨m, pre.getD i false⟩ := List.getElem?_mapIdx

theorem markItems_nil (ms : List (List UInt8)) : markItems ms [] = ms.map fun m => ⟨m, false⟩ := by
  apply List.ext_getElem? fun i => ?_
  simp [getElem?_markItems]

theorem markItems_cons (m : List UInt8) (ms : List (List UInt8)) (pre : List Bool) :
    markItems (m :: ms) pre = ⟨m, pre.headD false⟩ :: markItems ms pre.tail := by
  cases pre <;> simp [markItems, List.mapIdx_cons]

theorem markItems_append_singleton (ms : List (List UInt8)) (pre : List Bool) (b : Bool) :
    markItems ms (pre ++ [b]) =
      (markItems ms pre).set pre.length ⟨ms.getD pre.length [], b⟩ := by
  apply List.ext_getElem? fun i => ?_
  rw [List.getElem?_set, getElem?_markItems, getElem?_markItems, length_markItems]
  rcases lt_trichotomy i pre.length with hi | rfl | hi
  · simp [Nat.ne_of_gt hi, List.getElem?_append_left hi]
  · rcases Nat.lt_or_ge pre.length ms.length with h | h
    · simp [h]
    · simp [Nat.not_lt.mpr h]
  · simp [Nat.ne_of_lt hi, List.getElem?_eq_none (Nat.le_of_lt hi),
      List.getElem?_append_right (Nat.le_of_lt hi), Nat.sub_ne_zero_of_lt hi]

theorem markItems_append_false (ms : List (List UInt8)) (pre : List Bool) :
    markItems ms (pre ++ [false]) = markItems ms pre := by
  apply List.ext_getElem? fun i => ?_
  rw [getElem?_markItems, getElem?_markItems]
  rcases Nat.lt_or_ge i pre.length with hi | hi
  · simp [List.getElem?_append_left hi]
  · rcases Nat.eq_or_lt_of_le hi with rfl | hi
    · simp
    · simp [List.getElem?_append_right hi.le, List.getElem?_eq_none hi.le,
        Nat.sub_ne_zero_of_lt hi]

/-- The unprocessed items of messages after decisions `pre` are those not decided processed. -/
theorem length_unprocessed_markItems : ∀ (ms : List (List UInt8)) (pre : List Bool),
    ((markItems ms pre).filter fun x => !x.isProcessed).length =
      ms.length - (pre.take ms.length).count true
  | [], _ => rfl
  | m :: ms, [] => by
    simpa [markItems_cons] using length_unprocessed_markItems ms []
  | m :: ms, b :: pre => by
    have ih := length_unprocessed_markItems ms pre
    have hle : (pre.take ms.length).count true ≤ ms.length :=
      List.count_le_length.trans (List.length_take_le _ _)
    cases b with
    | false =>
      simp only [markItems_cons, List.headD_cons, List.tail_cons, List.filter_cons, Bool.not_false,
        if_true, List.length_cons, ih, List.take_succ_cons, List.count_cons]
      simp
      omega
    | true =>
      simp only [markItems_cons, List.headD_cons, List.tail_cons, List.filter_cons, Bool.not_true,
        Bool.false_eq_true, if_false, ih, List.length_cons, List.take_succ_cons, List.count_cons]
      simp


theorem sum_unprocessed_markItems : ∀ (ms : List (List UInt8)) (pre : List Bool),
    (((markItems ms pre).filter fun x => !x.isProcessed).map fun x => x.payload.length).sum =
      (ms.mapIdx fun i m => if pre.getD i false then 0 else m.length).sum
  | [], _ => rfl
  | m :: ms, [] => by
    simpa [markItems_cons, List.mapIdx_cons] using sum_unprocessed_markItems ms []
  | m :: ms, b :: pre => by
    have ih := sum_unprocessed_markItems ms pre
    cases b <;> simpa [markItems_cons, List.mapIdx_cons] using ih

/-- **The page of messages `ms` after the decisions `pre`**, one for each `skip_first`: the items
decided processed are marked, `first_index` has passed one item per decision, and the counters
count what is left. -/
structure Marked (ms : List (List UInt8)) (pre : List Bool) (p : Page) : Prop where
  items_eq : p.items = markItems ms pre
  firstIndex_eq : p.firstIndex = min pre.length ms.length
  consistent : p.Consistent

theorem marked_fromMessage (message : List UInt8) : Marked [message] [] (fromMessage message) :=
  ⟨rfl, rfl, consistent_fromMessage message⟩

theorem Marked.pushMessage {ms : List (List UInt8)} {p : Page} (hp : Marked ms [] p)
    (message : List UInt8) : Marked (ms ++ [message]) [] (p.pushMessage message) := by
  refine ⟨?_, by simpa [Page.pushMessage] using hp.firstIndex_eq, hp.consistent.pushMessage message⟩
  simp [Page.pushMessage, hp.items_eq, markItems_nil]

theorem Marked.foldl_pushMessage {ms : List (List UInt8)} {p : Page} (hp : Marked ms [] p) :
    ∀ messages : List (List UInt8),
      Marked (ms ++ messages) [] (messages.foldl Page.pushMessage p)
  | [] => by simpa using hp
  | message :: messages => by
    simpa using (hp.pushMessage message).foldl_pushMessage messages

section Marked

variable {ms : List (List UInt8)} {pre : List Bool} {p : Page} (hp : Marked ms pre p)
include hp

theorem Marked.remaining_eq : p.remaining = ms.length - (pre.take ms.length).count true := by
  rw [hp.consistent.remaining_eq, unprocessed, hp.items_eq, length_unprocessed_markItems]

theorem Marked.remainingSize_eq :
    p.remainingSize = (ms.mapIdx fun i m => if pre.getD i false then 0 else m.length).sum := by
  rw [hp.consistent.remainingSize_eq, unprocessed, hp.items_eq, sum_unprocessed_markItems]

theorem Marked.peekIndex (i : ℕ) :
    p.peekIndex i = ms[i]?.map fun m => (i, pre.getD i false, m) := by
  simp [Page.peekIndex, hp.items_eq, getElem?_markItems, Function.comp_def]

theorem Marked.peekFirst : p.peekFirst = ms[pre.length]? := by
  rw [Page.peekFirst, hp.items_eq, hp.firstIndex_eq, getElem?_markItems]
  rcases Nat.lt_or_ge pre.length ms.length with h | h
  · simp [Nat.min_eq_left h.le, Function.comp_def]
  · simp [Nat.min_eq_right h, List.getElem?_eq_none h]

/-- **Step lemma**: `skip_first` takes the next decision. -/
theorem Marked.skipFirst (isProcessed : Bool) :
    Marked ms (pre ++ [isProcessed]) (p.skipFirst isProcessed) := by
  have hc := hp.consistent.skipFirst isProcessed
  rcases Nat.lt_or_ge pre.length ms.length with h | h
  · -- the next message is unprocessed, and the decision marks it or passes it
    have hget : p.items[p.firstIndex]? = some ⟨ms[pre.length], false⟩ := by
      simp [hp.items_eq, hp.firstIndex_eq, Nat.min_eq_left h.le, getElem?_markItems]
    rw [skipFirst_of_getElem? hget] at hc ⊢
    cases isProcessed
    · -- passed over: only `first_index` moves
      rw [if_neg (by simp)] at hc ⊢
      refine ⟨?_, ?_, hc⟩
      · rw [markItems_append_false, ← hp.items_eq]
      · simp only [hp.firstIndex_eq, List.length_append, List.length_singleton]
        omega
    · -- marked: the item is set processed
      rw [if_pos (by simp)] at hc ⊢
      have hd : ms.getD pre.length [] = ms[pre.length] := (List.getElem_eq_getD []).symm
      refine ⟨?_, ?_, hc⟩
      · rw [markItems_append_singleton, hd, hp.items_eq, hp.firstIndex_eq, Nat.min_eq_left h.le]
      · simp only [hp.firstIndex_eq, List.length_append, List.length_singleton]
        omega
  · -- every message has been decided on: the page stays as it is
    have hlen : p.items.length ≤ p.firstIndex := by
      simp [hp.items_eq, hp.firstIndex_eq, Nat.min_eq_right h]
    rw [skipFirst_of_length_le hlen]
    have hset := markItems_append_singleton ms pre isProcessed
    rw [List.set_eq_of_length_le (by simpa using h)] at hset
    refine ⟨hset ▸ hp.items_eq, ?_, hp.consistent⟩
    simp only [hp.firstIndex_eq, List.length_append, List.length_singleton]
    omega

end Marked

/-- **Run lemma**: draining a page peeks the messages after those decided on, one per decision,
and takes the decisions. -/
theorem Marked.drain {ms : List (List UInt8)} : ∀ {pre : List Bool} {p : Page},
    Marked ms pre p → ∀ bs : List Bool,
      (p.drain bs).1 = (List.range bs.length).map (fun i => ms[pre.length + i]?) ∧
        Marked ms (pre ++ bs) (p.drain bs).2
  | pre, p, hp, [] => ⟨rfl, by simpa [Page.drain] using hp⟩
  | pre, p, hp, b :: bs => by
    obtain ⟨ih₁, ih₂⟩ := (hp.skipFirst b).drain bs
    refine ⟨?_, by simpa [Page.drain] using ih₂⟩
    simp only [Page.drain, ih₁, hp.peekFirst, List.length_cons, List.range_succ_eq_map,
      List.map_cons, List.map_map, Nat.add_zero, List.length_append, List.length_nil]
    congr 2
    funext i
    simp only [Function.comp_apply]
    congr 1
    omega

end PolkadotSdk.MessageQueue.Page

namespace PolkadotSdk.MessageQueue.Heap

open PolkadotSdk.Lib.Bytes PolkadotSdk.Lib.Unsigned PolkadotSdk.Arithmetic.Rational

variable {S : UnsignedPrim}

/-! ## Item headers -/

/-- `Size::max_encoded_len()`: the bytes of the fixed-width encoding of `Size`. -/
def sizeLen (S : UnsignedPrim) : ℕ := S.bits / 8

/-- `ItemHeader::<Size>::max_encoded_len()`: the length, then the flag. -/
def headerLen (S : UnsignedPrim) : ℕ := sizeLen S + 1

/-- `ItemHeader<Size>`. -/
structure ItemHeader (S : UnsignedPrim) where
  payloadLen : BitVec S.bits
  isProcessed : Bool
  deriving DecidableEq, Repr

/-- The SCALE encoding of a `bool`. -/
def encodeBool (b : Bool) : UInt8 := if b then 1 else 0

/-- The SCALE decoding of a `bool`: `0` or `1`, any other byte an error. -/
def decodeBool (b : UInt8) : Option Bool :=
  if b = 0 then some false else if b = 1 then some true else none

/-- `ItemHeader::encode`. -/
def ItemHeader.encode (h : ItemHeader S) : List UInt8 :=
  encodeLE (sizeLen S) h.payloadLen.toNat ++ [encodeBool h.isProcessed]

/-- `ItemHeader::decode` off the front of `input`, and the bytes after it. -/
def ItemHeader.decode (S : UnsignedPrim) (input : List UInt8) :
    Option (ItemHeader S × List UInt8) :=
  match decodeLE (sizeLen S) input with
  | some (payloadLen, b :: input) =>
    (decodeBool b).map fun isProcessed => (⟨BitVec.ofNat S.bits payloadLen, isProcessed⟩, input)
  | _ => none

/-- `saturated_into` from `usize` to `Size`. -/
def toSize (S : UnsignedPrim) (n : ℕ) : BitVec S.bits :=
  BitVec.ofNat S.bits (min n (2 ^ S.bits - 1))

/-- `MaxMessageLen::get`: `HeapSize` less a header, saturating at zero. -/
def maxMessageLen (S : UnsignedPrim) (heapSize : BitVec S.bits) : ℕ := heapSize.toNat - headerLen S

/-! ## Pages -/

/-- `Page<Size, HeapSize>`. -/
structure Page (S : UnsignedPrim) where
  remaining : BitVec S.bits
  remainingSize : BitVec S.bits
  firstIndex : BitVec S.bits
  first : BitVec S.bits
  last : BitVec S.bits
  heap : List UInt8
  deriving DecidableEq, Repr

namespace Page

/-- `Page::from_message`; `defensive_truncate_from` cuts the heap to `HeapSize`. -/
def fromMessage (heapSize : BitVec S.bits) (message : List UInt8) : Page S :=
  let payloadLen := toSize S message.length
  let header : ItemHeader S := ⟨payloadLen, false⟩
  let heap := header.encode ++ message
  ⟨1, payloadLen, 0, 0, 0, heap.take heapSize.toNat⟩

/-- `Page::try_append_message`: its result, and the page after it. -/
def tryAppendMessage (self : Page S) (heapSize : BitVec S.bits) (message : List UInt8) :
    Except Unit Unit × Page S :=
  let pos := self.heap.length
  let dataLen := headerLen S + message.length
  let payloadLen := toSize S message.length
  let header : ItemHeader S := ⟨payloadLen, false⟩
  if heapSize.toNat - self.heap.length < dataLen then (.error (), self)
  else
    let heap := self.heap ++ header.encode ++ message
    (.ok (), { self with
      heap := heap.take heapSize.toNat
      last := toSize S pos
      remaining := saturatingAdd self.remaining 1
      remainingSize := saturatingAdd self.remainingSize payloadLen })

/-- `Page::peek_first`; `none` past the last item, or on a heap it cannot decode. -/
def peekFirst (self : Page S) : Option (List UInt8) :=
  if self.first > self.last then none
  else
    let f := min self.first.toNat self.heap.length
    match ItemHeader.decode S (self.heap.drop f) with
    | some (h, itemSlice) =>
      if h.payloadLen.toNat ≤ itemSlice.length then some (itemSlice.take h.payloadLen.toNat)
      else none
    | none => none

/-- `Page::skip_first`: the header at `first` rewritten as processed if `is_processed` and it was
not, and `first` moved past the item. -/
def skipFirst (self : Page S) (isProcessed : Bool) : Page S :=
  let f := min self.first.toNat self.heap.length
  match ItemHeader.decode S (self.heap.drop f) with
  | some (h, _) =>
    let self :=
      if isProcessed && !h.isProcessed then
        { self with
          heap := overwrite self.heap f (ItemHeader.encode ⟨h.payloadLen, true⟩)
          remaining := saturatingSub self.remaining 1
          remainingSize := saturatingSub self.remainingSize h.payloadLen }
      else self
    { self with
      first := saturatingAdd (saturatingAdd self.first (toSize S (headerLen S))) h.payloadLen
      firstIndex := saturatingAdd self.firstIndex 1 }
  | none => self

/-- The loop of `peek_index`: `n` items stepped over from `pos`, each a header and its payload. -/
def peekIndexLoop (S : UnsignedPrim) : ℕ → ℕ → List UInt8 → Option (ℕ × List UInt8)
  | 0, pos, itemSlice => some (pos, itemSlice)
  | n + 1, pos, itemSlice =>
    match ItemHeader.decode S itemSlice with
    | some (h, itemSlice) =>
      let itemLen := h.payloadLen.toNat
      if itemSlice.length < itemLen then none
      else peekIndexLoop S n (pos + (headerLen S + itemLen)) (itemSlice.drop itemLen)
    | none => none

/-- `Page::peek_index`: the position of the item's header, its flag and its payload. -/
def peekIndex (self : Page S) (index : ℕ) : Option (ℕ × Bool × List UInt8) :=
  match peekIndexLoop S index 0 self.heap with
  | some (pos, itemSlice) =>
    match ItemHeader.decode S itemSlice with
    | some (h, itemSlice) =>
      if itemSlice.length < h.payloadLen.toNat then none
      else some (pos, h.isProcessed, itemSlice.take h.payloadLen.toNat)
    | none => none
  | none => none

/-- `Page::note_processed_at_pos`; `none` where `&self.heap[pos..]` panics, past the heap's end. -/
def noteProcessedAtPos (self : Page S) (pos : ℕ) : Option (Page S) :=
  if self.heap.length < pos then none
  else
    match ItemHeader.decode S (self.heap.drop pos) with
    | some (h, _) =>
      if !h.isProcessed then
        some { self with
          heap := overwrite self.heap pos (ItemHeader.encode ⟨h.payloadLen, true⟩)
          remaining := saturatingSub self.remaining 1
          remainingSize := saturatingSub self.remainingSize h.payloadLen }
      else some self
    | none => some self

/-- `Page::is_complete`. -/
def isComplete (self : Page S) : Bool := self.remaining = 0

end Page

/-! ## Headers read back -/

theorem pow_sizeLen (S : UnsignedPrim) : 256 ^ sizeLen S = 2 ^ S.bits := by
  cases S <;> rfl

theorem one_le_sizeLen (S : UnsignedPrim) : 1 ≤ sizeLen S := by
  cases S <;> decide

@[simp] theorem length_encode (h : ItemHeader S) : h.encode.length = headerLen S := by
  simp [ItemHeader.encode, headerLen]

theorem decodeBool_encodeBool (b : Bool) : decodeBool (encodeBool b) = some b := by
  cases b <;> decide

theorem decode_encode (h : ItemHeader S) (rest : List UInt8) :
    ItemHeader.decode S (h.encode ++ rest) = some (h, rest) := by
  have hlt : h.payloadLen.toNat < 256 ^ sizeLen S := pow_sizeLen S ▸ h.payloadLen.isLt
  rw [ItemHeader.encode, List.append_assoc, ItemHeader.decode,
    decodeLE_encodeLE _ _ hlt, List.singleton_append]
  simp [decodeBool_encodeBool]

theorem decode_nil : ItemHeader.decode S [] = none := by
  rw [ItemHeader.decode, decodeLE_of_length_lt (one_le_sizeLen S)]

theorem toNat_toSize {n : ℕ} (h : n < 2 ^ S.bits) : (toSize S n).toNat = n := by
  rw [toSize, BitVec.toNat_ofNat, Nat.mod_eq_of_lt (by omega)]
  omega

theorem headerLen_lt (S : UnsignedPrim) : headerLen S < 2 ^ S.bits := by
  cases S <;> decide

/-! ## Heaps of items -/

/-- The bytes of an item: its header, then its payload. -/
def encodeItem (S : UnsignedPrim) (item : Item) : List UInt8 :=
  ItemHeader.encode (⟨BitVec.ofNat S.bits item.payload.length, item.isProcessed⟩ : ItemHeader S) ++
    item.payload

/-- The heap of `items`, in order. -/
def encodeItems (S : UnsignedPrim) (items : List Item) : List UInt8 := items.flatMap (encodeItem S)

/-- The length of an item in the heap. -/
def itemLen (S : UnsignedPrim) (item : Item) : ℕ := headerLen S + item.payload.length

/-- The heap offset of the header of item `j`: the lengths of the items before it. -/
def offset (S : UnsignedPrim) (items : List Item) (j : ℕ) : ℕ :=
  ((items.take j).map (itemLen S)).sum

@[simp] theorem length_encodeItem (item : Item) : (encodeItem S item).length = itemLen S item := by
  simp [encodeItem, itemLen]

@[simp] theorem encodeItems_nil : encodeItems S [] = [] := rfl

@[simp] theorem encodeItems_cons (item : Item) (items : List Item) :
    encodeItems S (item :: items) = encodeItem S item ++ encodeItems S items := rfl

theorem encodeItems_append (a b : List Item) :
    encodeItems S (a ++ b) = encodeItems S a ++ encodeItems S b := List.flatMap_append

theorem length_encodeItems (items : List Item) :
    (encodeItems S items).length = (items.map (itemLen S)).sum := by
  induction items with
  | nil => rfl
  | cons item items ih => simp [ih]

theorem length_encodeItems_take (items : List Item) (j : ℕ) :
    (encodeItems S (items.take j)).length = offset S items j :=
  length_encodeItems _

theorem drop_offset (items : List Item) (j : ℕ) :
    (encodeItems S items).drop (offset S items j) = encodeItems S (items.drop j) := by
  calc (encodeItems S items).drop (offset S items j)
      = (encodeItems S (items.take j) ++ encodeItems S (items.drop j)).drop (offset S items j) := by
        rw [← encodeItems_append, List.take_append_drop]
    _ = encodeItems S (items.drop j) := List.drop_left' (length_encodeItems_take items j)

theorem offset_succ {items : List Item} {j : ℕ} (h : j < items.length) :
    offset S items (j + 1) = offset S items j + itemLen S items[j] := by
  rw [offset, offset, List.take_add_one, List.getElem?_eq_getElem h]
  simp only [Option.toList_some, List.map_append, List.sum_append, List.map_cons, List.map_nil,
    List.sum_cons, List.sum_nil, Nat.add_zero]

theorem offset_le_length (items : List Item) (j : ℕ) :
    offset S items j ≤ (encodeItems S items).length := by
  rw [← length_encodeItems_take]
  conv_rhs => rw [← List.take_append_drop j items, encodeItems_append, List.length_append]
  omega

theorem offset_length (items : List Item) :
    offset S items items.length = (encodeItems S items).length := by
  rw [← length_encodeItems_take, List.take_length]

theorem length_le_encodeItems (items : List Item) :
    items.length * headerLen S ≤ (encodeItems S items).length := by
  induction items with
  | nil => simp
  | cons item items ih =>
    simp only [List.length_cons, encodeItems_cons, List.length_append, length_encodeItem, itemLen]
    rw [Nat.succ_mul]
    omega

theorem payload_lt {items : List Item} (h : (encodeItems S items).length < 2 ^ S.bits)
    {item : Item} (hi : item ∈ items) : item.payload.length < 2 ^ S.bits := by
  have hle := List.le_sum_of_mem (List.mem_map_of_mem (f := itemLen S) hi)
  have hlen : itemLen S item = headerLen S + item.payload.length := rfl
  rw [length_encodeItems] at h
  omega

theorem decode_encodeItem_append (item : Item) (rest : List UInt8) :
    ItemHeader.decode S (encodeItem S item ++ rest) =
      some (⟨BitVec.ofNat S.bits item.payload.length, item.isProcessed⟩, item.payload ++ rest) := by
  rw [encodeItem, List.append_assoc, decode_encode]

theorem decode_at {items : List Item} {j : ℕ} (hj : j < items.length) :
    ItemHeader.decode S ((encodeItems S items).drop (offset S items j)) =
      some (⟨BitVec.ofNat S.bits items[j].payload.length, items[j].isProcessed⟩,
        items[j].payload ++ encodeItems S (items.drop (j + 1))) := by
  rw [drop_offset, List.drop_eq_getElem_cons hj, encodeItems_cons,
    decode_encodeItem_append]

theorem decode_at_length (items : List Item) :
    ItemHeader.decode S ((encodeItems S items).drop (offset S items items.length)) = none := by
  rw [drop_offset, List.drop_length, encodeItems_nil, decode_nil]

/-- Rewriting item `j`'s header as processed marks item `j` processed. -/
theorem overwrite_at {items : List Item} {j : ℕ} (hj : j < items.length) :
    overwrite (encodeItems S items) (offset S items j)
        (ItemHeader.encode (⟨BitVec.ofNat S.bits items[j].payload.length, true⟩ : ItemHeader S)) =
      encodeItems S (items.set j { items[j] with isProcessed := true }) := by
  have hitems : items = items.take j ++ items[j] :: items.drop (j + 1) := by
    conv_lhs => rw [← List.take_append_drop j items]
    rw [List.drop_eq_getElem_cons hj]
  have hsplit : encodeItems S items = encodeItems S (items.take j) ++
      ItemHeader.encode (⟨BitVec.ofNat S.bits items[j].payload.length, items[j].isProcessed⟩ :
        ItemHeader S) ++ (items[j].payload ++ encodeItems S (items.drop (j + 1))) := by
    calc encodeItems S items = encodeItems S (items.take j ++ items[j] :: items.drop (j + 1)) :=
          congrArg _ hitems
      _ = _ := by
        rw [encodeItems_append, encodeItems_cons, encodeItem]
        simp only [List.append_assoc]
  rw [hsplit, ← length_encodeItems_take items j, overwrite_append _ _ _ _ (by simp),
    List.set_eq_take_append_cons_drop, if_pos hj, encodeItems_append, encodeItems_cons,
    encodeItem]
  simp

theorem map_itemLen_set {items : List Item} {i : ℕ} {item : Item}
    (h : items[i]? = some item) :
    (items.set i { item with isProcessed := true }).map (itemLen S) = items.map (itemLen S) := by
  obtain ⟨hi, rfl⟩ := List.getElem?_eq_some_iff.mp h
  have hi' : i < (items.map (itemLen S)).length := by simpa using hi
  have hlen : itemLen S { items[i] with isProcessed := true } = (items.map (itemLen S))[i] := by
    simp [itemLen]
  rw [List.map_set, hlen, List.set_getElem_self]

theorem offset_congr {a b : List Item} (h : a.map (itemLen S) = b.map (itemLen S)) (j : ℕ) :
    offset S a j = offset S b j := by
  rw [offset, offset, List.map_take, List.map_take, h]

theorem offset_mono (items : List Item) {j k : ℕ} (h : j ≤ k) :
    offset S items j ≤ offset S items k := by
  rw [← length_encodeItems_take, ← length_encodeItems_take,
    ← List.take_append_drop j (items.take k), List.take_take, Nat.min_eq_left h,
    encodeItems_append, List.length_append]
  omega

theorem offset_pred_lt {items : List Item} (h : items ≠ []) :
    offset S items (items.length - 1) < offset S items items.length := by
  have hpos : 0 < items.length := List.length_pos_of_ne_nil h
  have hs := offset_succ (S := S) (show items.length - 1 < items.length by omega)
  rw [Nat.sub_add_cancel hpos] at hs
  have hlen : 0 < itemLen S items[items.length - 1] := by unfold itemLen headerLen; omega
  omega

theorem offset_append_of_le {items : List Item} {j : ℕ} (h : j ≤ items.length)
    (more : List Item) : offset S (items ++ more) j = offset S items j := by
  rw [offset, offset, List.take_append_of_le_length h]

theorem offset_markItems (ms : List (List UInt8)) (pre : List Bool) (i : ℕ) :
    offset S (MessageQueue.Page.markItems ms pre) i =
      ((ms.take i).map fun m => headerLen S + m.length).sum := by
  have hmap : (MessageQueue.Page.markItems ms pre).map (itemLen S) =
      ms.map fun m => headerLen S + m.length :=
    List.ext_getElem (by simp) fun j _ _ => by simp [MessageQueue.Page.markItems, itemLen]
  rw [offset, List.map_take, hmap, List.map_take]

theorem map_itemLen_noteProcessedAtPos (q : MessageQueue.Page) (i : ℕ) :
    (q.noteProcessedAtPos i).items.map (itemLen S) = q.items.map (itemLen S) := by
  cases h : q.items[i]? with
  | none => rw [MessageQueue.Page.noteProcessedAtPos_of_getElem?_eq_none h]
  | some item =>
    rw [MessageQueue.Page.noteProcessedAtPos_of_getElem? h]
    split_ifs
    · exact map_itemLen_set h
    · rfl

theorem peekIndexLoop_cons (n pos : ℕ) {item : Item} {items : List Item}
    (h : (encodeItems S (item :: items)).length < 2 ^ S.bits) :
    Page.peekIndexLoop S (n + 1) pos (encodeItems S (item :: items)) =
      Page.peekIndexLoop S n (pos + itemLen S item) (encodeItems S items) := by
  have hfit : item.payload.length < 2 ^ S.bits := payload_lt h List.mem_cons_self
  rw [encodeItems_cons, Page.peekIndexLoop, decode_encodeItem_append]
  dsimp only
  rw [BitVec.toNat_ofNat, Nat.mod_eq_of_lt hfit, if_neg (by simp), List.drop_left' rfl, itemLen]

theorem length_encodeItems_lt_of_cons {item : Item} {items : List Item}
    (h : (encodeItems S (item :: items)).length < 2 ^ S.bits) :
    (encodeItems S items).length < 2 ^ S.bits := by
  simp only [encodeItems_cons, List.length_append] at h
  omega

theorem peekIndexLoop_encodeItems : ∀ (n pos : ℕ) {items : List Item},
    (encodeItems S items).length < 2 ^ S.bits → n ≤ items.length →
    Page.peekIndexLoop S n pos (encodeItems S items) =
      some (pos + offset S items n, encodeItems S (items.drop n))
  | 0, pos, items, _, _ => by simp [Page.peekIndexLoop, offset]
  | n + 1, pos, item :: items, h, hn => by
    have hoff : offset S (item :: items) (n + 1) = itemLen S item + offset S items n := by
      simp [offset]
    rw [peekIndexLoop_cons n pos h, peekIndexLoop_encodeItems n _
      (length_encodeItems_lt_of_cons h) (by simpa using hn), hoff, List.drop_succ_cons,
      Nat.add_assoc]

theorem peekIndexLoop_encodeItems_of_lt : ∀ (n pos : ℕ) {items : List Item},
    (encodeItems S items).length < 2 ^ S.bits → items.length < n →
    Page.peekIndexLoop S n pos (encodeItems S items) = none
  | n + 1, pos, [], _, _ => by simp [Page.peekIndexLoop, decode_nil]
  | n + 1, pos, item :: items, h, hn => by
    rw [peekIndexLoop_cons n pos h]
    exact peekIndexLoop_encodeItems_of_lt n _ (length_encodeItems_lt_of_cons h)
      (by simpa using hn)

/-! ## Heap pages storing decoded pages -/

/-- **The heap page `p` stores the decoded page `q`** in at most `heapSize` bytes: the heap is the
encoding of `q`'s items, `first` and `last` are the offsets of the `first_index`-th and of the last
header, `q` is consistent, and its counters are `p`'s. -/
structure Refines (heapSize : ℕ) (p : Page S) (q : MessageQueue.Page) : Prop where
  heapSize_lt : heapSize < 2 ^ S.bits
  heap_eq : p.heap = encodeItems S q.items
  heap_le : p.heap.length ≤ heapSize
  items_ne_nil : q.items ≠ []
  consistent : q.Consistent
  remaining_eq : p.remaining.toNat = q.remaining
  remainingSize_eq : p.remainingSize.toNat = q.remainingSize
  firstIndex_eq : p.firstIndex.toNat = q.firstIndex
  first_eq : p.first.toNat = offset S q.items q.firstIndex
  last_eq : p.last.toNat = offset S q.items (q.items.length - 1)

theorem toNat_one (S : UnsignedPrim) : (1 : BitVec S.bits).toNat = 1 :=
  toNat_one_of_pos (by have := UnsignedPrim.two_le_bits S; omega)

theorem refines_fromMessage (heapSize : BitVec S.bits) (message : List UInt8)
    (h : headerLen S + message.length ≤ heapSize.toNat) :
    Refines heapSize.toNat (Page.fromMessage heapSize message)
      (MessageQueue.Page.fromMessage message) := by
  have hm : message.length < 2 ^ S.bits := by have := heapSize.isLt; omega
  have hheap : (Page.fromMessage heapSize message).heap = encodeItems S [⟨message, false⟩] := by
    simp only [Page.fromMessage, toSize, Nat.min_eq_left (Nat.le_sub_one_of_lt hm),
      encodeItems_cons, encodeItems_nil, List.append_nil, encodeItem]
    exact List.take_of_length_le (by simp; omega)
  refine ⟨heapSize.isLt, hheap, ?_, by simp [MessageQueue.Page.fromMessage],
    MessageQueue.Page.consistent_fromMessage message, toNat_one S, toNat_toSize hm, rfl, rfl, rfl⟩
  rw [hheap]
  simp [itemLen]
  omega

theorem tryAppendMessage_eq_error_iff (p : Page S) (heapSize : BitVec S.bits)
    (message : List UInt8) :
    (p.tryAppendMessage heapSize message).1 = .error () ↔
      heapSize.toNat - p.heap.length < headerLen S + message.length := by
  unfold Page.tryAppendMessage
  dsimp only
  split_ifs with h <;> simp [h]

theorem tryAppendMessage_of_error (p : Page S) (heapSize : BitVec S.bits) (message : List UInt8)
    (h : (p.tryAppendMessage heapSize message).1 = .error ()) :
    (p.tryAppendMessage heapSize message).2 = p := by
  rw [tryAppendMessage_eq_error_iff] at h
  unfold Page.tryAppendMessage
  dsimp only
  rw [if_pos h]

section Refines

variable {heapSize : ℕ} {p : Page S} {q : MessageQueue.Page} (hr : Refines heapSize p q)
include hr

theorem Refines.length_lt : (encodeItems S q.items).length < 2 ^ S.bits := by
  have := hr.heap_le
  rw [hr.heap_eq] at this
  exact lt_of_le_of_lt this hr.heapSize_lt

theorem Refines.length_items_lt : q.items.length < 2 ^ S.bits := by
  have hl := length_le_encodeItems (S := S) q.items
  have hh : q.items.length ≤ q.items.length * headerLen S :=
    Nat.le_mul_of_pos_right _ (by unfold headerLen; omega)
  have := hr.length_lt
  omega

theorem Refines.toNat_payloadLen {i : ℕ} (hi : i < q.items.length) :
    (BitVec.ofNat S.bits q.items[i].payload.length).toNat = q.items[i].payload.length := by
  rw [BitVec.toNat_ofNat, Nat.mod_eq_of_lt (payload_lt hr.length_lt (List.getElem_mem hi))]

omit hr in
/-- An accepted message is appended to the stored page. -/
theorem Refines.tryAppendMessage {hs : BitVec S.bits} (hr : Refines hs.toNat p q)
    (message : List UInt8) (h : ¬hs.toNat - p.heap.length < headerLen S + message.length) :
    Refines hs.toNat (p.tryAppendMessage hs message).2 (q.pushMessage message) := by
  have hlen : p.heap.length = (encodeItems S q.items).length := by rw [hr.heap_eq]
  have hle := hr.heap_le
  have hm : message.length < 2 ^ S.bits := by have := hs.isLt; omega
  have hpos : p.heap.length < 2 ^ S.bits := by have := hs.isLt; omega
  have hheap : p.heap ++ ItemHeader.encode (⟨toSize S message.length, false⟩ : ItemHeader S) ++
      message = encodeItems S (q.items ++ [⟨message, false⟩]) := by
    rw [encodeItems_append, hr.heap_eq, encodeItems_cons, encodeItems_nil, List.append_nil,
      encodeItem, toSize, Nat.min_eq_left (Nat.le_sub_one_of_lt hm), List.append_assoc]
  have hnew : (encodeItems S (q.items ++ [⟨message, false⟩])).length =
      p.heap.length + (headerLen S + message.length) := by
    rw [← hheap]
    simp
  -- the counters grow by one message and fit, as the new heap does
  have hcount := hr.consistent.remaining_le
  have hsize := hr.consistent.remainingSize_le
  have hitems := hr.length_items_lt
  have hpay : (q.items.map fun item => item.payload.length).sum ≤ p.heap.length := by
    rw [hlen, length_encodeItems]
    exact List.sum_le_sum fun item _ => Nat.le_add_left _ _
  unfold Page.tryAppendMessage
  rw [if_neg h]
  dsimp only
  rw [List.take_of_length_le (by simp; omega), hheap]
  refine ⟨hs.isLt, rfl, by rw [hnew]; omega, by simp [MessageQueue.Page.pushMessage],
    hr.consistent.pushMessage message, ?_, ?_, hr.firstIndex_eq, ?_, ?_⟩
  · rw [toNat_saturatingAdd, toNat_one, hr.remaining_eq]
    simp only [MessageQueue.Page.pushMessage]
    have : q.items.length + 1 ≤ hs.toNat := by
      have := length_le_encodeItems (S := S) (q.items ++ [(⟨message, false⟩ : Item)])
      have : (q.items ++ [(⟨message, false⟩ : Item)]).length ≤
          (q.items ++ [(⟨message, false⟩ : Item)]).length * headerLen S :=
        Nat.le_mul_of_pos_right _ (by unfold headerLen; omega)
      simp only [List.length_append, List.length_cons, List.length_nil] at *
      omega
    have := hs.isLt
    omega
  · rw [toNat_saturatingAdd, toNat_toSize hm, hr.remainingSize_eq]
    simp only [MessageQueue.Page.pushMessage]
    have := hs.isLt
    omega
  · rw [hr.first_eq]
    exact (offset_append_of_le hr.consistent.firstIndex_le _).symm
  · rw [toNat_toSize hpos]
    simp only [MessageQueue.Page.pushMessage, List.length_append, List.length_cons,
      List.length_nil, Nat.add_sub_cancel, offset_append_of_le le_rfl, offset_length, hlen]

theorem Refines.min_first : min p.first.toNat p.heap.length = offset S q.items q.firstIndex := by
  rw [hr.first_eq, hr.heap_eq]
  exact Nat.min_eq_left (offset_le_length _ _)

theorem Refines.unique {p' : Page S} (hr' : Refines heapSize p' q) : p = p' := by
  obtain ⟨_, _, _, _, _, _⟩ := p
  obtain ⟨_, _, _, _, _, _⟩ := p'
  simp only [Page.mk.injEq]
  exact ⟨BitVec.eq_of_toNat_eq (hr.remaining_eq.trans hr'.remaining_eq.symm),
    BitVec.eq_of_toNat_eq (hr.remainingSize_eq.trans hr'.remainingSize_eq.symm),
    BitVec.eq_of_toNat_eq (hr.firstIndex_eq.trans hr'.firstIndex_eq.symm),
    BitVec.eq_of_toNat_eq (hr.first_eq.trans hr'.first_eq.symm),
    BitVec.eq_of_toNat_eq (hr.last_eq.trans hr'.last_eq.symm), hr.heap_eq.trans hr'.heap_eq.symm⟩

/-- `peek_first` reads the decoded page's first item. -/
theorem Refines.peekFirst : p.peekFirst = q.peekFirst := by
  have hfi := hr.consistent.firstIndex_le
  unfold Page.peekFirst MessageQueue.Page.peekFirst
  rcases Nat.lt_or_ge q.firstIndex q.items.length with hlt | hge
  · -- `first` is at item `first_index`, no further than `last`
    have hle : ¬p.first > p.last := by
      rw [gt_iff_lt, BitVec.lt_def, hr.first_eq, hr.last_eq, Nat.not_lt]
      exact offset_mono _ (by omega)
    rw [if_neg hle]
    dsimp only
    rw [hr.min_first, hr.heap_eq, decode_at hlt, List.getElem?_eq_getElem hlt]
    simp [hr.toNat_payloadLen hlt]
  · -- past the last item, `first` is beyond `last`
    have hgt : p.first > p.last := by
      rw [gt_iff_lt, BitVec.lt_def, hr.first_eq, hr.last_eq, Nat.le_antisymm hfi hge]
      exact offset_pred_lt hr.items_ne_nil
    rw [if_pos hgt, List.getElem?_eq_none hge]
    rfl

/-- Marking item `i` processed, in the heap and in the counters, refines marking it in the
decoded page. -/
theorem Refines.mark {i : ℕ} (hi : i < q.items.length) (hb : q.items[i].isProcessed = false) :
    Refines heapSize
      { p with
        heap := overwrite p.heap (offset S q.items i)
          (ItemHeader.encode (⟨BitVec.ofNat S.bits q.items[i].payload.length, true⟩ : ItemHeader S))
        remaining := saturatingSub p.remaining 1
        remainingSize :=
          saturatingSub p.remainingSize (BitVec.ofNat S.bits q.items[i].payload.length) }
      { q with
        remaining := q.remaining - 1
        remainingSize := q.remainingSize - q.items[i].payload.length
        items := q.items.set i { q.items[i] with isProcessed := true } } := by
  have hq := List.getElem?_eq_getElem hi
  have hc := hr.consistent.noteProcessedAtPos i
  have hset := map_itemLen_set (S := S) hq
  rw [MessageQueue.Page.noteProcessedAtPos_of_getElem? hq, if_pos (by simp [hb])] at hc
  refine ⟨hr.heapSize_lt, ?_, ?_, ?_, hc, ?_, ?_, hr.firstIndex_eq, ?_, ?_⟩
  · rw [hr.heap_eq]
    exact overwrite_at hi
  · rw [hr.heap_eq, overwrite_at hi, length_encodeItems, hset, ← length_encodeItems,
      ← hr.heap_eq]
    exact hr.heap_le
  · intro h
    exact hr.items_ne_nil (List.eq_nil_of_length_eq_zero (by simpa using congrArg List.length h))
  · rw [toNat_saturatingSub, toNat_one, hr.remaining_eq]
  · rw [toNat_saturatingSub, hr.toNat_payloadLen hi, hr.remainingSize_eq]
  · rw [hr.first_eq, offset_congr hset]
  · rw [hr.last_eq, offset_congr hset, List.length_set]

/-- Stepping `first` over the header and the payload of item `first_index`, and counting it,
refines moving past that item in the decoded page. -/
theorem Refines.advance (hlt : q.firstIndex < q.items.length) {len : ℕ}
    (hlen : (q.items[q.firstIndex]?).map (·.payload.length) = some len) :
    Refines heapSize
      { p with
        first := saturatingAdd (saturatingAdd p.first (toSize S (headerLen S)))
          (BitVec.ofNat S.bits len)
        firstIndex := saturatingAdd p.firstIndex 1 }
      { q with firstIndex := q.firstIndex + 1 } := by
  have hl : q.items[q.firstIndex].payload.length = len := by
    rw [List.getElem?_eq_getElem hlt, Option.map_some] at hlen
    exact Option.some.inj hlen
  subst hl
  have hnext := offset_succ (S := S) hlt
  have hbound := offset_le_length (S := S) q.items (q.firstIndex + 1)
  have hlen := hr.length_lt
  have hitems := hr.length_items_lt
  have hhead : (toSize S (headerLen S)).toNat = headerLen S := toNat_toSize (headerLen_lt S)
  have hil : itemLen S q.items[q.firstIndex] =
      headerLen S + q.items[q.firstIndex].payload.length := rfl
  refine ⟨hr.heapSize_lt, hr.heap_eq, hr.heap_le, hr.items_ne_nil,
    ⟨hr.consistent.remaining_eq, hr.consistent.remainingSize_eq, hlt⟩, hr.remaining_eq,
    hr.remainingSize_eq, ?_, ?_, hr.last_eq⟩
  · dsimp only
    rw [toNat_saturatingAdd, toNat_one, hr.firstIndex_eq]
    omega
  · dsimp only
    rw [toNat_saturatingAdd, toNat_saturatingAdd, hhead, hr.toNat_payloadLen hlt, hr.first_eq,
      hnext]
    omega

/-- `skip_first` moves past item `first_index`, marking it first if asked to and it is not
processed yet. -/
theorem Refines.skipFirst (isProcessed : Bool) :
    Refines heapSize (p.skipFirst isProcessed) (q.skipFirst isProcessed) := by
  have hfi := hr.consistent.firstIndex_le
  rcases Nat.lt_or_ge q.firstIndex q.items.length with hlt | hge
  · have hq := List.getElem?_eq_getElem hlt
    have hdec : ItemHeader.decode S (p.heap.drop (offset S q.items q.firstIndex)) =
        some (⟨BitVec.ofNat S.bits q.items[q.firstIndex].payload.length,
          q.items[q.firstIndex].isProcessed⟩,
          q.items[q.firstIndex].payload ++ encodeItems S (q.items.drop (q.firstIndex + 1))) := by
      rw [hr.heap_eq]
      exact decode_at hlt
    rw [MessageQueue.Page.skipFirst_of_getElem? hq]
    unfold Page.skipFirst
    dsimp only
    rw [hr.min_first, hdec]
    dsimp only
    split_ifs with hb
    · -- the item is marked processed, then stepped over
      have hmark := hr.mark hlt (by simp at hb; exact hb.2)
      exact hmark.advance (by simpa using hlt) (by simp [List.getElem?_set_self hlt])
    · exact hr.advance hlt (by simp [hq])
  · -- past the last item nothing is read, and nothing changes
    have hp : p.skipFirst isProcessed = p := by
      unfold Page.skipFirst
      dsimp only
      rw [hr.min_first, hr.heap_eq, Nat.le_antisymm hfi hge, decode_at_length]
    rw [hp, MessageQueue.Page.skipFirst_of_length_le hge]
    exact hr

theorem Refines.peekIndex (index : ℕ) :
    p.peekIndex index = (q.peekIndex index).map fun r => (offset S q.items r.1, r.2) := by
  unfold Page.peekIndex MessageQueue.Page.peekIndex
  rw [hr.heap_eq]
  rcases lt_trichotomy index q.items.length with hlt | heq | hgt
  · rw [peekIndexLoop_encodeItems index 0 hr.length_lt hlt.le, List.drop_eq_getElem_cons hlt,
      encodeItems_cons]
    dsimp only
    rw [decode_encodeItem_append, List.getElem?_eq_getElem hlt]
    simp [hr.toNat_payloadLen hlt]
  · rw [peekIndexLoop_encodeItems index 0 hr.length_lt heq.le, heq, List.drop_length,
      encodeItems_nil, List.getElem?_eq_none le_rfl]
    simp [decode_nil]
  · rw [peekIndexLoop_encodeItems_of_lt index 0 hr.length_lt hgt, List.getElem?_eq_none hgt.le]
    rfl

/-- `note_processed_at_pos` at the offset of an item does to the stored page what the decoded
page's does at its index. -/
theorem Refines.noteProcessedAtPos {i : ℕ} (hi : i < q.items.length) :
    ∃ p', p.noteProcessedAtPos (offset S q.items i) = some p' ∧
      Refines heapSize p' (q.noteProcessedAtPos i) := by
  have hq := List.getElem?_eq_getElem hi
  have hin : ¬p.heap.length < offset S q.items i := by
    rw [hr.heap_eq]
    exact Nat.not_lt.mpr (offset_le_length _ _)
  have hdec : ItemHeader.decode S (p.heap.drop (offset S q.items i)) =
      some (⟨BitVec.ofNat S.bits q.items[i].payload.length, q.items[i].isProcessed⟩,
        q.items[i].payload ++ encodeItems S (q.items.drop (i + 1))) := by
    rw [hr.heap_eq]
    exact decode_at hi
  rw [MessageQueue.Page.noteProcessedAtPos_of_getElem? hq]
  unfold Page.noteProcessedAtPos
  rw [if_neg hin, hdec]
  dsimp only
  split_ifs with hb
  · -- an unprocessed item is marked, in the heap and in the counters
    exact ⟨_, rfl, hr.mark hi (by simpa using hb)⟩
  · exact ⟨_, rfl, hr⟩

theorem Refines.isComplete : p.isComplete = q.isComplete := by
  unfold Page.isComplete MessageQueue.Page.isComplete
  have h : p.remaining = 0 ↔ q.remaining = 0 := by
    rw [← hr.remaining_eq, ← BitVec.toNat_inj]
    simp
  rw [Bool.eq_iff_iff, decide_eq_true_eq, beq_iff_eq]
  exact h

/-- `note_processed_at_pos` at the header of item `i` marks item `i` processed and no other item,
and marking it again changes nothing. -/
theorem Refines.noteProcessedAtPos_spec {i : ℕ} (hi : i < q.items.length) :
    ∃ p', p.noteProcessedAtPos (offset S q.items i) = some p' ∧
      (∀ j, p'.peekIndex j =
        if j = i then (p.peekIndex i).map fun r => (r.1, true, r.2.2) else p.peekIndex j) ∧
      p'.noteProcessedAtPos (offset S q.items i) = some p' := by
  obtain ⟨p', hp', hr'⟩ := hr.noteProcessedAtPos hi
  have hmap := map_itemLen_noteProcessedAtPos (S := S) q i
  have hoff := offset_congr hmap
  have hi' : i < (q.noteProcessedAtPos i).items.length := by
    have hlen := congrArg List.length hmap
    simp only [List.length_map] at hlen
    omega
  refine ⟨p', hp', fun j => ?_, ?_⟩
  · rw [hr'.peekIndex, MessageQueue.Page.peekIndex_noteProcessedAtPos hi, hr.peekIndex, hr.peekIndex]
    split_ifs <;> simp [hoff, Function.comp_def]
  · -- marking again stores the same decoded page, so the same heap page
    obtain ⟨p'', hp'', hr''⟩ := hr'.noteProcessedAtPos hi'
    rw [MessageQueue.Page.noteProcessedAtPos_idem] at hr''
    rw [← hoff, hp'', hr'.unique hr'']

end Refines

/-! ## Runs of a heap page -/

namespace Page

/-- `try_append_message` of each message in turn: the results, and the page after them. -/
def appendMessages (self : Page S) (heapSize : BitVec S.bits) :
    List (List UInt8) → List (Except Unit Unit) × Page S
  | [] => ([], self)
  | message :: messages =>
    let r := self.tryAppendMessage heapSize message
    let rs := r.2.appendMessages heapSize messages
    (r.1 :: rs.1, rs.2)

/-- `peek_first` and then `skip_first` with each decision in turn: the peeked messages, and the
page after them. -/
def drain (self : Page S) : List Bool → List (Option (List UInt8)) × Page S
  | [] => ([], self)
  | isProcessed :: rest =>
    let r := (self.skipFirst isProcessed).drain rest
    (self.peekFirst :: r.1, r.2)

end Page

/-- **Run lemma**: messages that are all accepted are appended to the stored page. -/
theorem Refines.appendMessages {hs : BitVec S.bits} : ∀ {p : Page S} {q : MessageQueue.Page},
    Refines hs.toNat p q → ∀ messages : List (List UInt8),
      (∀ r ∈ (p.appendMessages hs messages).1, r = .ok ()) →
      Refines hs.toNat (p.appendMessages hs messages).2
        (messages.foldl MessageQueue.Page.pushMessage q)
  | _, _, hr, [], _ => hr
  | p, _, hr, message :: messages, hok => by
    have hhead : (p.tryAppendMessage hs message).1 = .ok () :=
      hok _ (by simp [Page.appendMessages])
    have hfit : ¬hs.toNat - p.heap.length < headerLen S + message.length := by
      rw [← tryAppendMessage_eq_error_iff, hhead]
      simp
    exact (hr.tryAppendMessage message hfit).appendMessages messages
      fun r hmem => hok r (by simp [Page.appendMessages, hmem])

/-- **Run lemma**: draining the heap page peeks and takes what draining the decoded page does. -/
theorem Refines.drain {heapSize : ℕ} : ∀ {p : Page S} {q : MessageQueue.Page},
    Refines heapSize p q → ∀ bs : List Bool,
      (p.drain bs).1 = (q.drain bs).1 ∧ Refines heapSize (p.drain bs).2 (q.drain bs).2
  | _, _, hr, [] => ⟨rfl, hr⟩
  | _, _, hr, b :: bs => by
    obtain ⟨h₁, h₂⟩ := (hr.skipFirst b).drain bs
    exact ⟨by simp [Page.drain, MessageQueue.Page.drain, hr.peekFirst, h₁], h₂⟩

/-- A page built from messages that fit, the first by `from_message` and the others accepted by
`try_append_message`, reads back its messages by index and in order: `peek_index` finds message
`i` at the sum of the lengths of the items before it; draining it with decisions peeks the
messages in order and then nothing, and leaves the counters counting the messages not decided
processed; `note_processed_at_pos` at message `i` marks that message and no other, once. Any
`try_append_message` refuses, leaving the page as it was, exactly when the heap lacks the header's
and the message's bytes. -/
theorem heap_page_spec (heapSize : BitVec S.bits) (message : List UInt8)
    (messages : List (List UInt8))
    (hcfg : maxMessageLen S heapSize + headerLen S = heapSize.toNat)
    (hlen : ∀ m ∈ message :: messages, m.length ≤ maxMessageLen S heapSize)
    (hok : ∀ r ∈ ((Page.fromMessage heapSize message).appendMessages heapSize messages).1,
      r = .ok ()) :
    (∀ (p : Page S) (m : List UInt8),
      ((p.tryAppendMessage heapSize m).1 = .error () ↔
        heapSize.toNat - p.heap.length < headerLen S + m.length) ∧
      ((p.tryAppendMessage heapSize m).1 = .error () → (p.tryAppendMessage heapSize m).2 = p)) ∧
    let ms := message :: messages
    let page := ((Page.fromMessage heapSize message).appendMessages heapSize messages).2
    let pos := fun i => ((ms.take i).map fun m => headerLen S + m.length).sum
    (∀ i (hi : i < ms.length), page.peekIndex i = some (pos i, false, ms[i])) ∧
    (∀ i, ms.length ≤ i → page.peekIndex i = none) ∧
    (∀ bs : List Bool, (page.drain bs).1 = (List.range bs.length).map (fun i => ms[i]?) ∧
      (page.drain bs).2.firstIndex.toNat = min bs.length ms.length ∧
      (page.drain bs).2.remaining.toNat = ms.length - (bs.take ms.length).count true ∧
      (page.drain bs).2.remainingSize.toNat =
        (ms.mapIdx fun i m => if bs.getD i false then 0 else m.length).sum) ∧
    (∀ i (hi : i < ms.length), ∃ page', page.noteProcessedAtPos (pos i) = some page' ∧
      (∀ j, page'.peekIndex j = if j = i then some (pos i, true, ms[i]) else page.peekIndex j) ∧
      page'.noteProcessedAtPos (pos i) = some page') := by
  refine ⟨fun p m => ⟨tryAppendMessage_eq_error_iff p heapSize m,
    tryAppendMessage_of_error p heapSize m⟩, ?_⟩
  intro ms page pos
  -- the built page stores the decoded page of its messages, none of them decided on
  have hfirst : headerLen S + message.length ≤ heapSize.toNat := by
    have := hlen message List.mem_cons_self
    omega
  have hr := (refines_fromMessage heapSize message hfirst).appendMessages messages hok
  have hm := (MessageQueue.Page.marked_fromMessage message).foldl_pushMessage messages
  rw [List.singleton_append] at hm
  have hpos : ∀ i, offset S (messages.foldl MessageQueue.Page.pushMessage
      (MessageQueue.Page.fromMessage message)).items i = pos i := by
    intro i
    rw [hm.items_eq, offset_markItems]
  have hread : ∀ i (hi : i < ms.length), page.peekIndex i = some (pos i, false, ms[i]) := by
    intro i hi
    rw [hr.peekIndex, hm.peekIndex, List.getElem?_eq_getElem hi]
    simp [hpos]
  refine ⟨hread, fun i hi => ?_, fun bs => ?_, fun i hi => ?_⟩
  · rw [hr.peekIndex, hm.peekIndex, List.getElem?_eq_none hi]
    rfl
  · -- draining the heap page drains the decoded one
    obtain ⟨hd₁, hd₂⟩ := hr.drain bs
    obtain ⟨hm₁, hm₂⟩ := hm.drain bs
    refine ⟨by rw [hd₁, hm₁]; simp [ms], ?_, ?_, ?_⟩
    · rw [hd₂.firstIndex_eq, hm₂.firstIndex_eq]
      simp [ms]
    · rw [hd₂.remaining_eq, hm₂.remaining_eq]
      simp [ms]
    · rw [hd₂.remainingSize_eq, hm₂.remainingSize_eq]
      simp [ms]
  · have hi' : i < (messages.foldl MessageQueue.Page.pushMessage
        (MessageQueue.Page.fromMessage message)).items.length := by
      simpa [hm.items_eq, ms] using hi
    obtain ⟨page', h₁, h₂, h₃⟩ := hr.noteProcessedAtPos_spec hi'
    rw [hpos] at h₁ h₃
    refine ⟨page', h₁, fun j => ?_, h₃⟩
    rw [h₂ j, hread i hi]
    rfl

theorem heap_page_spec_u32 :
    maxMessageLen .u32 16 + headerLen .u32 = (16 : BitVec 32).toNat ∧
      ((Page.fromMessage (S := .u32) 16 [1, 2]).appendMessages 16 [[3]]).2.peekIndex 1 =
        some (7, false, [3]) := by
  have hcfg : maxMessageLen .u32 16 + headerLen .u32 = (16 : BitVec 32).toNat := by decide
  refine ⟨hcfg, (heap_page_spec (S := .u32) 16 [1, 2] [[3]] hcfg (by decide) (by decide)).2.1 1
    (by decide)⟩

end PolkadotSdk.MessageQueue.Heap
