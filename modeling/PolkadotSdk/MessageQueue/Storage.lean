import PolkadotSdk.MessageQueue.Pallet
import Mathlib.Logic.Function.Iterate

/-!
# The pallet's storage and its invariants

What each storage write leaves in place (the frame lemmas every later proof reads the calls
through), what knitting a queue into the ready ring and enqueueing into an idle queue write, and
the two invariants the pallet's `do_try_state` checks: the ready ring is one well-formed cycle
(`RingWF`), and every book's counters are exact over its stored pages (`Accounting`).
-/

namespace PolkadotSdk.MessageQueue

variable {O : Type} [DecidableEq O]

namespace State

section Frame

variable (s : State O) (o o' : O) (b : BookState O) (i i' : ℕ) (p : Page)

@[simp] theorem book_insertBook_self : (s.insertBook o b).book o = b := by
  simp [insertBook, book]

@[simp] theorem book_insertBook_of_ne (h : o' ≠ o) : (s.insertBook o b).book o' = s.book o' := by
  simp [insertBook, book, h]

@[simp] theorem pages_insertBook : (s.insertBook o b).pages = s.pages := rfl

@[simp] theorem serviceHead_insertBook : (s.insertBook o b).serviceHead = s.serviceHead := rfl

@[simp] theorem book_insertPage : (s.insertPage o i p).book o' = s.book o' := rfl

@[simp] theorem book_removePage : (s.removePage o i).book o' = s.book o' := rfl

@[simp] theorem serviceHead_insertPage : (s.insertPage o i p).serviceHead = s.serviceHead := rfl

@[simp] theorem serviceHead_removePage : (s.removePage o i).serviceHead = s.serviceHead := rfl

theorem pages_insertPage :
    (s.insertPage o i p).pages o' i' = if o' = o ∧ i' = i then some p else s.pages o' i' := by
  by_cases ho : o' = o
  · subst ho
    by_cases hi : i' = i <;> simp [insertPage, hi]
  · simp [insertPage, ho]

theorem pages_removePage :
    (s.removePage o i).pages o' i' = if o' = o ∧ i' = i then none else s.pages o' i' := by
  by_cases ho : o' = o
  · subst ho
    by_cases hi : i' = i <;> simp [removePage, hi]
  · simp [removePage, ho]

@[simp] theorem book_mutateBook_self (f : BookState O → BookState O) :
    (s.mutateBook o f).book o = f (s.book o) :=
  book_insertBook_self ..

omit [DecidableEq O] in
@[simp] theorem book_empty : (empty : State O).book o = .empty := rfl

end Frame

end State

/-! ## Knitting and enqueueing -/

section Knit

variable (s : State O) (origin : O)

@[simp] theorem pages_readyRingKnit : (readyRingKnit s origin).2.pages = s.pages := by
  unfold readyRingKnit
  dsimp only
  split
  · split
    · rfl
    · split <;> rfl
  · rfl

theorem readyRingKnit_of_head_none (h : s.serviceHead = none) :
    readyRingKnit s origin = (.ok ⟨origin, origin⟩, { s with serviceHead := some origin }) := by
  simp [readyRingKnit, h]

/-- The storage after the head's `prev` is set to a queue knitted before it. -/
def headKnitted (s : State O) (origin head : O) (n : Neighbours O) : State O :=
  s.insertBook head { s.book head with readyNeighbours := some { n with prev := origin } }

theorem readyRingKnit_of_head_some (head : O) (n tn : Neighbours O)
    (hhead : s.serviceHead = some head) (hn : (s.book head).readyNeighbours = some n)
    (htn : ((headKnitted s origin head n).book n.prev).readyNeighbours = some tn) :
    readyRingKnit s origin = (.ok ⟨n.prev, head⟩,
      (headKnitted s origin head n).insertBook n.prev
        { (headKnitted s origin head n).book n.prev with
          readyNeighbours := some { tn with next := origin } }) := by
  simp only [headKnitted] at htn
  simp only [readyRingKnit, hhead, hn, htn, headKnitted]

theorem book_headKnitted_self (head : O) (n : Neighbours O) :
    ((headKnitted s origin head n).book head).readyNeighbours = some { n with prev := origin } := by
  simp [headKnitted]

theorem book_headKnitted_of_ne (head o : O) (n : Neighbours O) (h : o ≠ head) :
    (headKnitted s origin head n).book o = s.book o := by
  simp [headKnitted, h]

end Knit

section Enqueue

variable (cfg : Config O) (s : State O) (origin : O) (message : List UInt8)

theorem doEnqueueMessage_of_idle (hidle : (s.book origin).end_ ≤ (s.book origin).begin) :
    doEnqueueMessage cfg s origin message =
      (((readyRingKnit s origin).2.insertPage origin (s.book origin).end_ (.fromMessage message)).insertBook
        origin
        { (match (readyRingKnit s origin).1 with
            | .ok neighbours => { s.book origin with readyNeighbours := some neighbours }
            | .error () => s.book origin) with
          messageCount := (s.book origin).messageCount + 1
          size := (s.book origin).size + message.length
          end_ := (s.book origin).end_ + 1
          count := (s.book origin).count + 1 }) := by
  have hnot : ¬ (s.book origin).begin < (s.book origin).end_ := by omega
  simp only [doEnqueueMessage, hnot, if_false]
  rcases readyRingKnit s origin with ⟨_ | neighbours, s'⟩ <;> rfl

theorem serviceHead_doEnqueueMessage_of_idle (hidle : (s.book origin).end_ ≤ (s.book origin).begin) :
    (doEnqueueMessage cfg s origin message).serviceHead = (readyRingKnit s origin).2.serviceHead := by
  rw [doEnqueueMessage_of_idle cfg s origin message hidle, State.serviceHead_insertBook,
    State.serviceHead_insertPage]

theorem book_doEnqueueMessage_of_idle_of_ne (hidle : (s.book origin).end_ ≤ (s.book origin).begin)
    (o : O) (ho : o ≠ origin) :
    (doEnqueueMessage cfg s origin message).book o = (readyRingKnit s origin).2.book o := by
  rw [doEnqueueMessage_of_idle cfg s origin message hidle, State.book_insertBook_of_ne _ _ _ _ ho,
    State.book_insertPage]

theorem pages_doEnqueueMessage_of_idle (hidle : (s.book origin).end_ ≤ (s.book origin).begin) :
    (doEnqueueMessage cfg s origin message).pages origin (s.book origin).end_ =
      some (.fromMessage message) := by
  rw [doEnqueueMessage_of_idle cfg s origin message hidle, State.pages_insertBook,
    State.pages_insertPage]
  simp

end Enqueue

/-! ## The invariants -/

namespace State

/-- A queue is ready when it has pages to service. -/
def Ready (s : State O) (o : O) : Prop := (s.book o).begin < (s.book o).end_

instance (s : State O) (o : O) : Decidable (s.Ready o) := by unfold Ready; infer_instance

/-- The queue after `o` in the ready ring, `o` itself when it is not knitted. -/
def nextReady (s : State O) (o : O) : O := ((s.book o).readyNeighbours.map (·.next)).getD o

end State

/-- The ready ring is well formed: the knitted queues are the ready ones, they form one cycle
under `next` with `prev` its inverse, and the service head is one of them when there are any. -/
structure RingWF (s : State O) : Prop where
  knitted_iff_ready : ∀ o, (s.book o).readyNeighbours.isSome ↔ s.Ready o
  prev_next : ∀ o n, (s.book o).readyNeighbours = some n →
    (s.book n.next).readyNeighbours.map (·.prev) = some o
  next_prev : ∀ o n, (s.book o).readyNeighbours = some n →
    (s.book n.prev).readyNeighbours.map (·.next) = some o
  cycle : ∀ o o', s.Ready o → s.Ready o' → ∃ k, s.nextReady^[k] o = o'
  head_isSome_iff : s.serviceHead.isSome ↔ ∃ o, s.Ready o
  head_ready : ∀ h, s.serviceHead = some h → s.Ready h

namespace RingWF

variable {s : State O}

omit [DecidableEq O] in
theorem readyNeighbours_eq_none (hring : RingWF s) {o : O} (h : ¬ s.Ready o) :
    (s.book o).readyNeighbours = none := by
  cases hn : (s.book o).readyNeighbours with
  | none => rfl
  | some n => exact absurd ((hring.knitted_iff_ready o).mp (by simp [hn])) h

/-- Knitting a queue into a well-formed ring with head `h` keeps the head and makes the queue
the head's `prev`. -/
theorem readyRingKnit_head (hring : RingWF s) (origin h : O) (hh : s.serviceHead = some h) :
    (readyRingKnit s origin).2.serviceHead = some h ∧
      ∃ n, ((readyRingKnit s origin).2.book h).readyNeighbours = some n ∧ n.prev = origin := by
  obtain ⟨n, hn⟩ :=
    Option.isSome_iff_exists.mp ((hring.knitted_iff_ready h).mpr (hring.head_ready h hh))
  -- the tail `n.prev` is knitted, also once the head's `prev` is written
  have htail : ((headKnitted s origin h n).book n.prev).readyNeighbours.isSome := by
    by_cases hth : n.prev = h
    · rw [hth, book_headKnitted_self]
      rfl
    · rw [book_headKnitted_of_ne _ _ _ _ _ hth]
      have hprev := hring.next_prev h n hn
      cases hx : (s.book n.prev).readyNeighbours with
      | none => simp [hx] at hprev
      | some _ => rfl
  obtain ⟨tn, htn⟩ := Option.isSome_iff_exists.mp htail
  rw [readyRingKnit_of_head_some s origin h n tn hh hn htn]
  refine ⟨by simp [headKnitted, hh], ?_⟩
  by_cases hth : n.prev = h
  · -- the head is its own tail: its `next` is written last, over the `prev` written first
    rw [hth, book_headKnitted_self] at htn
    obtain rfl := Option.some.inj htn
    exact ⟨_, by rw [hth, State.book_insertBook_self], rfl⟩
  · exact ⟨_, by rw [State.book_insertBook_of_ne _ _ _ _ (Ne.symm hth), book_headKnitted_self], rfl⟩

end RingWF

namespace Page

/-- The items not yet processed. -/
def unprocessed (p : Page) : List Item := p.items.filter (!·.isProcessed)

/-- The total payload length of some items. -/
def payloadSize (items : List Item) : ℕ := (items.map (·.payload.length)).sum

/-- A page's counters are those of its unprocessed items. -/
def Exact (p : Page) : Prop :=
  p.remaining = p.unprocessed.length ∧ p.remainingSize = payloadSize p.unprocessed

end Page

/-- The stored pages of a queue below its `end`, in order. -/
def State.storedPages (s : State O) (o : O) : List Page :=
  (List.range (s.book o).end_).filterMap (s.pages o)

/-- Every book's counters are exact: its ready pages are stored and no page is stored at or past
its `end`, `count` counts the stored pages, `message_count` and `size` count their unprocessed
messages, and every page's own counters are exact. -/
structure Accounting (s : State O) : Prop where
  stored_lt_end : ∀ o i p, s.pages o i = some p → i < (s.book o).end_
  ready_stored : ∀ o i, (s.book o).begin ≤ i → i < (s.book o).end_ → (s.pages o i).isSome
  count_eq : ∀ o, (s.book o).count = (s.storedPages o).length
  messageCount_eq : ∀ o, (s.book o).messageCount = ((s.storedPages o).map (·.unprocessed.length)).sum
  size_eq : ∀ o, (s.book o).size = ((s.storedPages o).map (Page.payloadSize ·.unprocessed)).sum
  page_exact : ∀ o i p, s.pages o i = some p → p.Exact

end PolkadotSdk.MessageQueue
