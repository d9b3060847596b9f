import PolkadotSdk.MessageQueue.Storage
import Mathlib.Tactic.FinCases
import Mathlib.Data.Fintype.Basic

/-!
# Executing an overweight message

`do_execute_overweight_inner` reads the queue's book and the message's page, runs the processor,
and writes both back. The processor may enqueue messages meanwhile, and an enqueue into the same
queue writes that book and a page too; the write-back then puts the book read before over it
(`doExecuteOverweightInner_stale_book`). When the queue had no ready page, the enqueued message
sits on a page past the book's `end` and the queue is knitted into the ring while its book says it
is not: the accounting (`doExecuteOverweightInner_orphans_enqueued`) and the ring
(`doExecuteOverweightInner_breaks_ring`) are both broken.
-/

namespace PolkadotSdk.MessageQueue

variable {O : Type} [DecidableEq O]

section Stale

variable (cfg : Config O) (s : State O) (origin : O) (pageIndex index : ℕ) (weightLimit : Weight)

/-- A message that was skipped before the ready pages, executed successfully: whatever the
processor left in the storage `s₁`, the queue's book keeps the window and the ring links it had
before the processor ran, and everything else is as the processor left it. -/
theorem doExecuteOverweightInner_stale_book (page : Page) (payload : List UInt8)
    (w : WeightMeter) (s₁ : State O)
    (hpaused : cfg.isPaused origin = false) (hpage : s.pages origin pageIndex = some page)
    (hitem : page.items[index]? = some ⟨payload, false⟩)
    (hstale : pageIndex < (s.book origin).begin)
    (hres : processMessagePayload cfg s origin payload (.withLimit weightLimit) Weight.MAX =
      (.processed, w, s₁)) :
    let s' := (doExecuteOverweightInner cfg s origin pageIndex index weightLimit).2
    (s'.book origin).begin = (s.book origin).begin ∧ (s'.book origin).end_ = (s.book origin).end_ ∧
      (s'.book origin).readyNeighbours = (s.book origin).readyNeighbours ∧
      (∀ o, o ≠ origin → s'.book o = s₁.book o) ∧
      (∀ i, i ≠ pageIndex → s'.pages origin i = s₁.pages origin i) ∧
      s'.serviceHead = s₁.serviceHead := by
  have hpeek : page.peekIndex index = some (index, false, payload) := by
    simp [Page.peekIndex, hitem]
  intro s'
  have hs' : s' = (if (page.noteProcessedAtPos index).remaining = 0 then
        s₁.removePage origin pageIndex else s₁.insertPage origin pageIndex (page.noteProcessedAtPos index)).insertBook
      origin
        { s.book origin with
          messageCount := (s.book origin).messageCount - 1
          size := (s.book origin).size - payload.length
          count := if (page.noteProcessedAtPos index).remaining = 0 then (s.book origin).count - 1
            else (s.book origin).count } := by
    simp only [s', doExecuteOverweightInner, hpaused, State.page, hpage, hpeek, hstale, hres,
      decide_true, Bool.true_or, Bool.not_true, Bool.false_eq_true, if_false]
    split <;> simp
  rw [hs']
  refine ⟨by simp, by simp, by simp, fun o ho => ?_, fun i hi => ?_, ?_⟩
  · split <;> simp [ho]
  · split <;> simp [State.pages_removePage, State.pages_insertPage, hi]
  · split <;> simp

theorem processMessagePayload_of_enqueued (payload message : List UInt8) (meter meter' : WeightMeter)
    (limit : Weight) (success : Bool) (target : O)
    (hout : cfg.processMessage payload origin meter = ⟨.ok success, meter', [(target, message)]⟩) :
    processMessagePayload cfg s origin payload meter limit =
      (.processed, meter', doEnqueueMessage cfg s target message) := by
  simp [processMessagePayload, hout]

variable (page : Page) (payload message : List UInt8) (success : Bool) (meter : WeightMeter)

theorem doExecuteOverweightInner_orphans_enqueued
    (hpaused : cfg.isPaused origin = false) (hpage : s.pages origin pageIndex = some page)
    (hitem : page.items[index]? = some ⟨payload, false⟩)
    (hstale : pageIndex < (s.book origin).begin)
    (hidle : (s.book origin).end_ = (s.book origin).begin)
    (hout : cfg.processMessage payload origin (.withLimit weightLimit) =
      ⟨.ok success, meter, [(origin, message)]⟩) :
    ¬ Accounting (doExecuteOverweightInner cfg s origin pageIndex index weightLimit).2 := by
  have hres := processMessagePayload_of_enqueued cfg s origin payload message _ meter Weight.MAX
    success origin hout
  obtain ⟨-, hend, -, -, hpages, -⟩ := doExecuteOverweightInner_stale_book cfg s origin pageIndex
    index weightLimit page payload meter _ hpaused hpage hitem hstale hres
  -- the enqueued message is on a page at the old `end`, where the written-back book still ends
  have horphan := hpages (s.book origin).end_ (by omega)
  rw [pages_doEnqueueMessage_of_idle cfg s origin message hidle.le] at horphan
  intro hacc
  have hlt := hacc.stored_lt_end origin _ _ horphan
  rw [hend] at hlt
  exact lt_irrefl _ hlt

theorem doExecuteOverweightInner_breaks_ring (hring : RingWF s)
    (hpaused : cfg.isPaused origin = false) (hpage : s.pages origin pageIndex = some page)
    (hitem : page.items[index]? = some ⟨payload, false⟩)
    (hstale : pageIndex < (s.book origin).begin)
    (hidle : (s.book origin).end_ = (s.book origin).begin)
    (hout : cfg.processMessage payload origin (.withLimit weightLimit) =
      ⟨.ok success, meter, [(origin, message)]⟩) :
    ¬ RingWF (doExecuteOverweightInner cfg s origin pageIndex index weightLimit).2 := by
  have hres := processMessagePayload_of_enqueued cfg s origin payload message _ meter Weight.MAX
    success origin hout
  obtain ⟨hbegin, hend, hlinks, hbooks, -, hhead⟩ := doExecuteOverweightInner_stale_book cfg s
    origin pageIndex index weightLimit page payload meter _ hpaused hpage hitem hstale hres
  have hidle' : ¬ s.Ready origin := by
    unfold State.Ready
    omega
  intro hring'
  cases hh : s.serviceHead with
  | none =>
    -- knitting into the empty ring made the queue the head, but its book says it is not ready
    have hhead' : (doExecuteOverweightInner cfg s origin pageIndex index weightLimit).2.serviceHead =
        some origin := by
      rw [hhead, serviceHead_doEnqueueMessage_of_idle cfg s origin message hidle.le,
        readyRingKnit_of_head_none s origin hh]
    have hready := hring'.head_ready origin hhead'
    unfold State.Ready at hready
    omega
  | some h =>
    -- the head's `prev` is the queue, whose written-back book has no neighbours
    obtain ⟨-, n, hn, hprev⟩ := hring.readyRingKnit_head origin h hh
    have hho : h ≠ origin := fun heq => hidle' (heq ▸ hring.head_ready h hh)
    have hn' : ((doExecuteOverweightInner cfg s origin pageIndex index weightLimit).2.book
        h).readyNeighbours = some n := by
      rw [hbooks h hho, book_doEnqueueMessage_of_idle_of_ne cfg s origin message hidle.le h hho, hn]
    have hback := hring'.next_prev h n hn'
    rw [hprev, hlinks, hring.readyNeighbours_eq_none hidle'] at hback
    simp at hback

end Stale

/-! ## A queue whose processor enqueues into it -/

/-- One queue and zero weights. The processor needs a reference time of 10: under less it reports
the message overweight, otherwise it succeeds and enqueues `[1]` into the queue it serves. -/
def reentrantConfig : Config (Fin 1) where
  weightInfo := ⟨.zero, .zero, .zero, .zero, .zero, .zero, .zero, .zero⟩
  heapSize := 64
  maxStale := 0
  isPaused _ := false
  processMessage _ origin meter :=
    if meter.limit.refTime < 10 then ⟨.error (.overweight ⟨10, 0⟩), meter, []⟩
    else ⟨.ok true, meter, [(origin, [1])]⟩

/-- Message `[0]` enqueued, then serviced with no weight: it is skipped as overweight, its page
stays before `begin`, and the queue leaves the ring. -/
def skippedState : State (Fin 1) :=
  ((serviceQueues reentrantConfig 4 .zero (enqueueMessages reentrantConfig .empty 0 [[0]])).map
    (·.2)).getD .empty

/-- The state after executing the skipped message with a reference time of 10. -/
def reexecutedState : State (Fin 1) :=
  (doExecuteOverweightInner reentrantConfig skippedState 0 0 0 ⟨10, 0⟩).2

theorem reexecutedState_reachable : Reachable reentrantConfig reexecutedState :=
  .step (.executeOverweight 0 0 0 ⟨10, 0⟩) 0
    (.step (.service .zero) 4 (.step (.enqueue 0 [[0]]) 0 .empty rfl) rfl) rfl

theorem executeOverweight_reentrant_orphans :
    Reachable reentrantConfig reexecutedState ∧ ¬ Accounting reexecutedState :=
  ⟨reexecutedState_reachable, doExecuteOverweightInner_orphans_enqueued reentrantConfig skippedState
    0 0 0 ⟨10, 0⟩ ⟨1, 1, 1, [⟨[0], false⟩]⟩ [0] [1] true (.withLimit ⟨10, 0⟩) rfl rfl rfl
    (by decide) (by decide) rfl⟩

theorem skippedState_ringWF : RingWF skippedState where
  knitted_iff_ready := by decide
  prev_next o n h := by
    have hnone : (skippedState.book o).readyNeighbours = none := by fin_cases o; decide
    simp [hnone] at h
  next_prev o n h := by
    have hnone : (skippedState.book o).readyNeighbours = none := by fin_cases o; decide
    simp [hnone] at h
  cycle o _ ho _ := absurd ho (by fin_cases o; decide)
  head_isSome_iff := by decide
  head_ready h hh := by
    have hhead : skippedState.serviceHead = none := by decide
    simp [hhead] at hh

theorem executeOverweight_reentrant_breaks_ring :
    RingWF skippedState ∧ Reachable reentrantConfig reexecutedState ∧ ¬ RingWF reexecutedState :=
  ⟨skippedState_ringWF, reexecutedState_reachable,
    doExecuteOverweightInner_breaks_ring reentrantConfig skippedState 0 0 0 ⟨10, 0⟩
      ⟨1, 1, 1, [⟨[0], false⟩]⟩ [0] [1] true (.withLimit ⟨10, 0⟩) skippedState_ringWF rfl rfl rfl
      (by decide) (by decide) rfl⟩

end PolkadotSdk.MessageQueue
