import Mathlib.Data.List.Basic
import Mathlib.Logic.Function.Basic
import Mathlib.Algebra.GroupWithZero.Nat

/-!
# The message queue pallet

`pallet-message-queue` (`frame/message-queue/src/lib.rs`) keeps, for every origin, a book
(`BookState`) of pages of messages (`Page`), and the origins with ready pages in a ring linked
through the books (`ready_neighbours`), with `ServiceHead` pointing into it. `service_queues`
walks the ring, servicing each queue's pages until the weight runs out or no queue progresses.

The model keeps the storage maps as functions (`State`) and the message processor as an
arbitrary function of the message, the origin and the weight meter, which returns its result,
the meter and the messages it enqueued while running (the only way it can act on this pallet:
the service mutex turns away nested servicing). A page's heap is kept decoded as its items;
the byte offsets `first` and `last` become the index of the first unprocessed item. Every loop
runs on a budget of `fuel` iterations, `none` when the budget runs out, since a queue that keeps
being fed by its own processor is serviced forever when no weight is charged.
-/

namespace PolkadotSdk.MessageQueue

/-! ## Weights -/

/-- `Weight`: reference time and proof size, each a `u64`. -/
structure Weight where
  refTime : ℕ
  proofSize : ℕ
  deriving DecidableEq, Repr

namespace Weight

def zero : Weight := ⟨0, 0⟩

/-- `u64::MAX + 1`. -/
def u64Bound : ℕ := 2 ^ 64

def MAX : Weight := ⟨u64Bound - 1, u64Bound - 1⟩

def checkedAdd (a b : Weight) : Option Weight :=
  if a.refTime + b.refTime < u64Bound ∧ a.proofSize + b.proofSize < u64Bound then
    some ⟨a.refTime + b.refTime, a.proofSize + b.proofSize⟩
  else none

def checkedSub (a b : Weight) : Option Weight :=
  if b.refTime ≤ a.refTime ∧ b.proofSize ≤ a.proofSize then
    some ⟨a.refTime - b.refTime, a.proofSize - b.proofSize⟩
  else none

def saturatingAdd (a b : Weight) : Weight :=
  ⟨min (a.refTime + b.refTime) (u64Bound - 1), min (a.proofSize + b.proofSize) (u64Bound - 1)⟩

/-- Component-wise maximum. -/
def max (a b : Weight) : Weight := ⟨Nat.max a.refTime b.refTime, Nat.max a.proofSize b.proofSize⟩

def anyGt (a b : Weight) : Bool := decide (b.refTime < a.refTime) || decide (b.proofSize < a.proofSize)

end Weight

/-- `WeightMeter`: what has been consumed out of a limit. -/
structure WeightMeter where
  consumed : Weight
  limit : Weight
  deriving DecidableEq, Repr

namespace WeightMeter

def withLimit (limit : Weight) : WeightMeter := ⟨.zero, limit⟩

/-- `try_consume`: the meter after consuming `w`, or `none` (`Err`) if that would pass the
limit. -/
def tryConsume (m : WeightMeter) (w : Weight) : Option WeightMeter :=
  match m.consumed.checkedAdd w with
  | none => none
  | some test => if test.anyGt m.limit then none else some { m with consumed := test }

end WeightMeter

/-- The weights of the pallet's operations that the servicing charges (`WeightInfo`). -/
structure WeightInfo where
  bumpServiceHead : Weight
  serviceQueueBase : Weight
  readyRingUnknit : Weight
  servicePageBaseCompletion : Weight
  servicePageBaseNoCompletion : Weight
  servicePageItem : Weight
  executeOverweightPageRemoved : Weight
  executeOverweightPageUpdated : Weight

/-! ## Messages and pages -/

/-- `ItemHeader::<u32>::max_encoded_len()`: a `u32` length and a `bool`. -/
def headerLen : ℕ := 5

/-- A message in a page, with its header's `is_processed`. -/
structure Item where
  payload : List UInt8
  isProcessed : Bool
  deriving DecidableEq, Repr

/-- A page: its counters, the number of items before the first one ready for processing, and its
items in the order they were appended. -/
structure Page where
  remaining : ℕ
  remainingSize : ℕ
  firstIndex : ℕ
  items : List Item
  deriving DecidableEq, Repr

namespace Page

/-- The length of the heap: each item is its header and its payload. -/
def heapLen (p : Page) : ℕ := (p.items.map fun i => headerLen + i.payload.length).sum

/-- A page of one unprocessed message. -/
def fromMessage (message : List UInt8) : Page := ⟨1, message.length, 0, [⟨message, false⟩]⟩

/-- Append a message if the heap has room for it. -/
def tryAppendMessage (p : Page) (heapSize : ℕ) (message : List UInt8) : Option Page :=
  if heapSize - p.heapLen < headerLen + message.length then none
  else some ⟨p.remaining + 1, p.remainingSize + message.length, p.firstIndex,
    p.items ++ [⟨message, false⟩]⟩

/-- The first message ready for processing. -/
def peekFirst (p : Page) : Option (List UInt8) := (p.items[p.firstIndex]?).map (·.payload)

/-- Move past the first message, marking it processed if `isProcessed`. -/
def skipFirst (p : Page) (isProcessed : Bool) : Page :=
  match p.items[p.firstIndex]? with
  | none => p
  | some item =>
    if isProcessed && !item.isProcessed then
      ⟨p.remaining - 1, p.remainingSize - item.payload.length, p.firstIndex + 1,
        p.items.set p.firstIndex { item with isProcessed := true }⟩
    else { p with firstIndex := p.firstIndex + 1 }

/-- The message at an index, whether it is processed, and its payload; the index stands for the
position of its header. -/
def peekIndex (p : Page) (index : ℕ) : Option (ℕ × Bool × List UInt8) :=
  (p.items[index]?).map fun item => (index, item.isProcessed, item.payload)

/-- Mark the message at a position processed. -/
def noteProcessedAtPos (p : Page) (pos : ℕ) : Page :=
  match p.items[pos]? with
  | some item =>
    if !item.isProcessed then
      { p with
        remaining := p.remaining - 1
        remainingSize := p.remainingSize - item.payload.length
        items := p.items.set pos { item with isProcessed := true } }
    else p
  | none => p

def isComplete (p : Page) : Bool := p.remaining == 0

end Page

/-! ## Books and storage -/

/-- A link of the ready ring. -/
structure Neighbours (O : Type) where
  prev : O
  next : O
  deriving DecidableEq, Repr

/-- The state of a queue: its ready pages are `begin` to `end_ - 1` (`end`). -/
structure BookState (O : Type) where
  begin : ℕ
  end_ : ℕ
  count : ℕ
  readyNeighbours : Option (Neighbours O)
  messageCount : ℕ
  size : ℕ
  deriving DecidableEq, Repr

/-- The empty book (`Default`). -/
def BookState.empty {O : Type} : BookState O := ⟨0, 0, 0, none, 0, 0⟩

/-- The pallet's storage: `BookStateFor`, `Pages` and `ServiceHead`. -/
structure State (O : Type) where
  bookStateFor : O → Option (BookState O)
  pages : O → ℕ → Option Page
  serviceHead : Option O

/-- How processing a message failed (`ProcessMessageError`). -/
inductive ProcessMessageError
  | badFormat
  | corrupt
  | unsupported
  | overweight (required : Weight)
  | yield
  | stackLimitReached
  deriving DecidableEq, Repr

/-- What the processor did with a message: its result, the meter after it, and the messages it
enqueued meanwhile. -/
structure ProcessOutcome (O : Type) where
  result : Except ProcessMessageError Bool
  meter : WeightMeter
  enqueued : List (O × List UInt8)

/-- The pallet's configuration: its weights, the size of a page's heap, how many stale pages a
queue keeps before culling, which queues are paused, and the message processor. -/
structure Config (O : Type) where
  weightInfo : WeightInfo
  heapSize : ℕ
  maxStale : ℕ
  isPaused : O → Bool
  processMessage : List UInt8 → O → WeightMeter → ProcessOutcome O

variable {O : Type} [DecidableEq O]

namespace State

/-- The empty storage. -/
def empty : State O := ⟨fun _ => none, fun _ _ => none, none⟩

/-- `BookStateFor::get`: a book, the empty one if none is stored. -/
def book (s : State O) (origin : O) : BookState O := (s.bookStateFor origin).getD .empty

def insertBook (s : State O) (origin : O) (b : BookState O) : State O :=
  { s with bookStateFor := Function.update s.bookStateFor origin (some b) }

/-- `BookStateFor::mutate`. -/
def mutateBook (s : State O) (origin : O) (f : BookState O → BookState O) : State O :=
  s.insertBook origin (f (s.book origin))

def page (s : State O) (origin : O) (index : ℕ) : Option Page := s.pages origin index

def insertPage (s : State O) (origin : O) (index : ℕ) (p : Page) : State O :=
  { s with pages := Function.update s.pages origin (Function.update (s.pages origin) index (some p)) }

def removePage (s : State O) (origin : O) (index : ℕ) : State O :=
  { s with pages := Function.update s.pages origin (Function.update (s.pages origin) index none) }

end State

/-! ## The ready ring -/

/-- Knit `origin` into the ready ring just before the head, returning its neighbours; `Err` if
the head or the tail has no neighbours, after updating the head in the second case. -/
def readyRingKnit (s : State O) (origin : O) : Except Unit (Neighbours O) × State O :=
  match s.serviceHead with
  | some head =>
    let headBook := s.book head
    match headBook.readyNeighbours with
    | none => (.error (), s)
    | some headNeighbours =>
      let tail := headNeighbours.prev
      let s := s.insertBook head
        { headBook with readyNeighbours := some { headNeighbours with prev := origin } }
      let tailBook := s.book tail
      match tailBook.readyNeighbours with
      | none => (.error (), s)
      | some tailNeighbours =>
        let s := s.insertBook tail
          { tailBook with readyNeighbours := some { tailNeighbours with next := origin } }
        (.ok ⟨tail, head⟩, s)
  | none => (.ok ⟨origin, origin⟩, { s with serviceHead := some origin })

/-- Unknit `origin` from the ready ring, given its neighbours. -/
def readyRingUnknit (s : State O) (origin : O) (neighbours : Neighbours O) : State O :=
  if origin = neighbours.next then { s with serviceHead := none }
  else
    let s := s.mutateBook neighbours.next fun b =>
      match b.readyNeighbours with
      | some n => { b with readyNeighbours := some { n with prev := neighbours.prev } }
      | none => b
    let s := s.mutateBook neighbours.prev fun b =>
      match b.readyNeighbours with
      | some n => { b with readyNeighbours := some { n with next := neighbours.next } }
      | none => b
    match s.serviceHead with
    | some head => if head = origin then { s with serviceHead := some neighbours.next } else s
    | none => s

/-- Move `ServiceHead` to the next ready queue, returning the old head. -/
def bumpServiceHead (cfg : Config O) (s : State O) (w : WeightMeter) :
    Option O × WeightMeter × State O :=
  match w.tryConsume cfg.weightInfo.bumpServiceHead with
  | none => (none, w, s)
  | some w =>
    match s.serviceHead with
    | some head =>
      match (s.book head).readyNeighbours with
      | some headNeighbours => (some head, w, { s with serviceHead := some headNeighbours.next })
      | none => (none, w, s)
    | none => (none, w, s)

/-! ## Enqueueing -/

/-- Append a message to the queue of `origin`: to its last ready page if it has room, otherwise
to a new page, knitting the queue into the ready ring if it had no ready page. -/
def doEnqueueMessage (cfg : Config O) (s : State O) (origin : O) (message : List UInt8) :
    State O :=
  let book := s.book origin
  let book := { book with
    messageCount := book.messageCount + 1
    size := book.size + message.length }
  -- link in a new page
  let newPage : BookState O → State O → State O := fun book s =>
    let book := { book with end_ := book.end_ + 1, count := book.count + 1 }
    (s.insertPage origin (book.end_ - 1) (Page.fromMessage message)).insertBook origin book
  if book.begin < book.end_ then
    let last := book.end_ - 1
    match s.page origin last with
    | none => s
    | some page =>
      match page.tryAppendMessage cfg.heapSize message with
      | some page => (s.insertPage origin last page).insertBook origin book
      | none => newPage book s
  else
    let (knit, s) := readyRingKnit s origin
    let book :=
      match knit with
      | .ok neighbours => { book with readyNeighbours := some neighbours }
      | .error () => book
    newPage book s

/-- `enqueue_messages`: enqueue each message in turn. -/
def enqueueMessages (cfg : Config O) (s : State O) (origin : O) (messages : List (List UInt8)) :
    State O :=
  messages.foldl (fun s message => doEnqueueMessage cfg s origin message) s

/-! ## Servicing -/

/-- What processing a message came to (`MessageExecutionStatus`). -/
inductive MessageExecutionStatus
  | insufficientWeight
  | overweight
  | processed
  | unprocessable (permanent : Bool)
  | stackLimitReached
  deriving DecidableEq, Repr

/-- What trying the next item of a page came to (`ItemExecutionStatus`). -/
inductive ItemExecutionStatus
  | bailed
  | noProgress
  | noItem
  | executed (processed : Bool)
  deriving DecidableEq, Repr

/-- What servicing a page came to (`PageExecutionStatus`). -/
inductive PageExecutionStatus
  | bailed
  | noProgress
  | noMore
  deriving DecidableEq, Repr

/-- Whether a message that came to `res` is done with, or what `service_page_item` returns at
once for it. -/
def MessageExecutionStatus.isProcessed : MessageExecutionStatus → Except ItemExecutionStatus Bool
  | .insufficientWeight => .error .bailed
  | .unprocessable false => .error .noProgress
  | .processed | .unprocessable true | .stackLimitReached => .ok true
  | .overweight => .ok false

/-- The overhead of servicing a single message. -/
def singleMsgOverhead (cfg : Config O) : Weight :=
  ((((cfg.weightInfo.bumpServiceHead.saturatingAdd cfg.weightInfo.serviceQueueBase).saturatingAdd
    (cfg.weightInfo.servicePageBaseCompletion.max cfg.weightInfo.servicePageBaseNoCompletion)).saturatingAdd
    cfg.weightInfo.servicePageItem).saturatingAdd cfg.weightInfo.readyRingUnknit)

/-- The most a single message may weigh under a limit, if servicing can begin at all. -/
def maxMessageWeight (cfg : Config O) (limit : Weight) : Option Weight :=
  limit.checkedSub (singleMsgOverhead cfg)

/-- Hand a message to the processor, apply what it enqueued, and classify its result. -/
def processMessagePayload (cfg : Config O) (s : State O) (origin : O) (message : List UInt8)
    (meter : WeightMeter) (overweightLimit : Weight) :
    MessageExecutionStatus × WeightMeter × State O :=
  let out := cfg.processMessage message origin meter
  let s := out.enqueued.foldl (fun s e => doEnqueueMessage cfg s e.1 e.2) s
  let status : MessageExecutionStatus :=
    match out.result with
    | .error (.overweight w) => if w.anyGt overweightLimit then .overweight else .insufficientWeight
    | .error .yield => .unprocessable false
    | .error .badFormat | .error .corrupt | .error .unsupported => .unprocessable true
    | .error .stackLimitReached => .stackLimitReached
    | .ok _ => .processed
  (status, out.meter, s)

/-- Execute the next message of a page. The page and the book are stored before the processor
runs and read back after it, to see what it enqueued. -/
def servicePageItem (cfg : Config O) (s : State O) (origin : O) (pageIndex : ℕ)
    (book : BookState O) (page : Page) (w : WeightMeter) (overweightLimit : Weight) :
    ItemExecutionStatus × BookState O × Page × WeightMeter × State O :=
  if page.isComplete then (.noItem, book, page, w, s)
  else
    match w.tryConsume cfg.weightInfo.servicePageItem with
    | none => (.bailed, book, page, w, s)
    | some w =>
      match page.peekFirst with
      | none => (.noItem, book, page, w, s)
      | some payload =>
        let s := (s.insertPage origin pageIndex page).insertBook origin book
        let (res, w, s) := processMessagePayload cfg s origin payload w overweightLimit
        let book := s.book origin
        match s.page origin pageIndex with
        | none => (.noItem, book, page, w, s)
        | some page =>
          match res.isProcessed with
          | .error status => (status, book, page, w, s)
          | .ok isProcessed =>
            let book :=
              if isProcessed then
                { book with
                  messageCount := book.messageCount - 1
                  size := book.size - payload.length }
              else book
            (.executed isProcessed, book, page.skipFirst isProcessed, w, s)

/-- The loop of `service_page`: execute items while they are executed, counting those processed. -/
def servicePageLoop (cfg : Config O) (origin : O) (pageIndex : ℕ) (overweightLimit : Weight) :
    ℕ → ℕ → BookState O → Page → WeightMeter → State O →
      Option (PageExecutionStatus × ℕ × BookState O × Page × WeightMeter × State O)
  | 0, _, _, _, _, _ => none
  | fuel + 1, total, book, page, w, s =>
    match servicePageItem cfg s origin pageIndex book page w overweightLimit with
    | (.bailed, book, page, w, s) => some (.bailed, total, book, page, w, s)
    | (.noItem, book, page, w, s) => some (.noMore, total, book, page, w, s)
    | (.noProgress, book, page, w, s) => some (.noProgress, total, book, page, w, s)
    | (.executed true, book, page, w, s) =>
      servicePageLoop cfg origin pageIndex overweightLimit fuel (total + 1) book page w s
    | (.executed false, book, page, w, s) =>
      servicePageLoop cfg origin pageIndex overweightLimit fuel total book page w s

/-- Service as many messages of the book's first ready page as possible; a completed page is
removed. -/
def servicePage (cfg : Config O) (fuel : ℕ) (s : State O) (origin : O) (book : BookState O)
    (w : WeightMeter) (overweightLimit : Weight) :
    Option ((ℕ × PageExecutionStatus) × BookState O × WeightMeter × State O) :=
  match w.tryConsume (cfg.weightInfo.servicePageBaseCompletion.max
      cfg.weightInfo.servicePageBaseNoCompletion) with
  | none => some ((0, .bailed), book, w, s)
  | some w =>
    let pageIndex := book.begin
    match s.page origin pageIndex with
    | none => some ((0, .noMore), book, w, s)
    | some page => do
      let (status, total, book, page, w, s) ←
        servicePageLoop cfg origin pageIndex overweightLimit fuel 0 book page w s
      if page.isComplete then
        pure ((total, status), { book with count := book.count - 1 }, w,
          s.removePage origin pageIndex)
      else
        pure ((total, status), book, w, s.insertPage origin pageIndex page)

/-- The loop of `service_queue`: service ready pages until one bails or makes no progress. -/
def serviceQueueLoop (cfg : Config O) (origin : O) (overweightLimit : Weight) :
    ℕ → BookState O → ℕ → WeightMeter → State O →
      Option (BookState O × ℕ × WeightMeter × State O)
  | 0, _, _, _, _ => none
  | fuel + 1, book, total, w, s =>
    if book.begin < book.end_ then do
      let ((processed, status), book, w, s) ← servicePage cfg fuel s origin book w overweightLimit
      match status with
      | .bailed | .noProgress => pure (book, total + processed, w, s)
      | .noMore =>
        serviceQueueLoop cfg origin overweightLimit fuel { book with begin := book.begin + 1 }
          (total + processed) w s
    else pure (book, total, w, s)

/-- Service the queue of `origin`; returns whether it made progress and the next ready queue.
A queue left with no ready page is unknitted from the ring. -/
def serviceQueue (cfg : Config O) (fuel : ℕ) (s : State O) (origin : O) (w : WeightMeter)
    (overweightLimit : Weight) : Option ((Bool × Option O) × WeightMeter × State O) :=
  match w.tryConsume (cfg.weightInfo.serviceQueueBase.saturatingAdd
      cfg.weightInfo.readyRingUnknit) with
  | none => some ((false, none), w, s)
  | some w =>
    let book := s.book origin
    if cfg.isPaused origin then some ((false, book.readyNeighbours.map (·.next)), w, s)
    else do
      let (book, total, w, s) ← serviceQueueLoop cfg origin overweightLimit fuel book 0 w s
      let nextReady := book.readyNeighbours.map (·.next)
      let (book, s) :=
        if book.end_ ≤ book.begin then
          match book.readyNeighbours with
          | some neighbours =>
            ({ book with readyNeighbours := none }, readyRingUnknit s origin neighbours)
          | none => (book, s)
        else (book, s)
      pure ((0 < total, nextReady), w, s.insertBook origin book)

/-- The loop of `service_queues`: service queue after queue until the weight runs out or it
comes back to the queue recorded as the last one that made no progress. -/
def serviceQueuesLoop (cfg : Config O) (overweightLimit : Weight) :
    ℕ → O → Option O → WeightMeter → State O → Option (WeightMeter × State O)
  | 0, _, _, _, _ => none
  | fuel + 1, next, lastNoProgress, w, s => do
    let ((progressed, n), w, s) ← serviceQueue cfg fuel s next w overweightLimit
    match n with
    | none => pure (w, s)
    | some n =>
      if !progressed then
        if lastNoProgress = some n then pure (w, s)
        else
          serviceQueuesLoop cfg overweightLimit fuel n
            (if lastNoProgress.isNone then some next else lastNoProgress) w s
      else serviceQueuesLoop cfg overweightLimit fuel n none w s

/-- `service_queues`: service the ready queues from the head of the ring within a weight limit;
the weight consumed and the new storage. -/
def serviceQueues (cfg : Config O) (fuel : ℕ) (weightLimit : Weight) (s : State O) :
    Option (Weight × State O) :=
  let w := WeightMeter.withLimit weightLimit
  let maxWeight := (maxMessageWeight cfg weightLimit).getD .zero
  match bumpServiceHead cfg s w with
  | (none, w, s) => some (w.consumed, s)
  | (some next, w, s) =>
    (serviceQueuesLoop cfg maxWeight fuel next none w s).map fun r => (r.1.consumed, r.2)

/-! ## Overweight messages and stale pages -/

/-- Why executing an overweight message or reaping a page was refused. -/
inductive Error
  | notReapable
  | noPage
  | noMessage
  | alreadyProcessed
  | queued
  | insufficientWeight
  | temporarilyUnprocessable
  | queuePaused
  deriving DecidableEq, Repr

/-- Execute a message that was skipped as overweight. The book and the page are read before the
processor runs and written back after it. A failure after the processor has run keeps what it
enqueued: rolling the call back is left to the transactional layer above. -/
def doExecuteOverweightInner (cfg : Config O) (s : State O) (origin : O) (pageIndex index : ℕ)
    (weightLimit : Weight) : Except Error Weight × State O :=
  let book := s.book origin
  if cfg.isPaused origin then (.error .queuePaused, s)
  else
    match s.page origin pageIndex with
    | none => (.error .noPage, s)
    | some page =>
      match page.peekIndex index with
      | none => (.error .noMessage, s)
      | some (pos, isProcessed, payload) =>
        if !(decide (pageIndex < book.begin) || (pageIndex == book.begin && decide (pos < page.firstIndex)))
        then (.error .queued, s)
        else if isProcessed then (.error .alreadyProcessed, s)
        else
          let (res, w, s) :=
            processMessagePayload cfg s origin payload (.withLimit weightLimit) Weight.MAX
          match res with
          | .overweight | .insufficientWeight => (.error .insufficientWeight, s)
          | .stackLimitReached | .unprocessable false => (.error .temporarilyUnprocessable, s)
          | .unprocessable true | .processed =>
            let page := page.noteProcessedAtPos pos
            let book := { book with
              messageCount := book.messageCount - 1
              size := book.size - payload.length }
            let (pageWeight, book, s) :=
              if page.remaining = 0 then
                (cfg.weightInfo.executeOverweightPageRemoved, { book with count := book.count - 1 },
                  s.removePage origin pageIndex)
              else (cfg.weightInfo.executeOverweightPageUpdated, book, s.insertPage origin pageIndex page)
            (.ok (w.consumed.saturatingAdd pageWeight), s.insertBook origin book)

/-- Whether a page before the ready ones may be culled although it holds unprocessed messages:
when there are more than `maxStale` stale pages, those below a watermark that sinks as they pile
up. -/
def cullable (maxStale : ℕ) (book : BookState O) (pageIndex : ℕ) : Bool :=
  let totalPages := book.count
  let readyPages := min (book.end_ - book.begin) totalPages
  let stalePages := totalPages - readyPages
  if stalePages < maxStale + 1 then false
  else
    let overflow := stalePages - (maxStale + 1) + 1
    let backlog := Nat.max (maxStale * maxStale / overflow) maxStale
    let watermark := book.begin - backlog
    decide (pageIndex < watermark)

/-- Remove a page before the ready ones that has no message left, or one that is culled. -/
def doReapPageInner (cfg : Config O) (s : State O) (origin : O) (pageIndex : ℕ) :
    Except Error Unit × State O :=
  let book := s.book origin
  if book.begin ≤ pageIndex then (.error .notReapable, s)
  else
    match s.page origin pageIndex with
    | none => (.error .noPage, s)
    | some page =>
      if !(page.remaining == 0 || cullable cfg.maxStale book pageIndex) then (.error .notReapable, s)
      else
        let book := { book with
          count := book.count - 1
          messageCount := book.messageCount - page.remaining
          size := book.size - page.remainingSize }
        (.ok (), (s.removePage origin pageIndex).insertBook origin book)

/-- `sweep_queue`: drop every ready page of a queue from the ring. -/
def sweepQueue (s : State O) (origin : O) : State O :=
  match s.bookStateFor origin with
  | none => s
  | some book =>
    let book := { book with begin := book.end_ }
    match book.readyNeighbours with
    | some neighbours =>
      (readyRingUnknit s origin neighbours).insertBook origin { book with readyNeighbours := none }
    | none => s.insertBook origin book

/-! ## The pallet's calls -/

/-- The calls that change the pallet's storage: enqueueing from another pallet, servicing on
idle, and the extrinsics `execute_overweight` and `reap_page`, and sweeping a queue. -/
inductive Op (O : Type)
  | enqueue (origin : O) (messages : List (List UInt8))
  | service (weightLimit : Weight)
  | executeOverweight (origin : O) (pageIndex index : ℕ) (weightLimit : Weight)
  | reapPage (origin : O) (pageIndex : ℕ)
  | sweep (origin : O)

/-- Run a call, on a budget of fuel for servicing; a call that fails is rolled back. -/
def Op.run (cfg : Config O) (fuel : ℕ) (s : State O) : Op O → Option (State O)
  | .enqueue origin messages => some (enqueueMessages cfg s origin messages)
  | .service weightLimit => (serviceQueues cfg fuel weightLimit s).map (·.2)
  | .executeOverweight origin pageIndex index weightLimit =>
    match doExecuteOverweightInner cfg s origin pageIndex index weightLimit with
    | (.ok _, s') => some s'
    | (.error _, _) => some s
  | .reapPage origin pageIndex =>
    match doReapPageInner cfg s origin pageIndex with
    | (.ok (), s') => some s'
    | (.error _, _) => some s
  | .sweep origin => some (sweepQueue s origin)

/-- The storages that calls reach from the empty one. -/
inductive Reachable (cfg : Config O) : State O → Prop
  | empty : Reachable cfg .empty
  | step {s s' : State O} (op : Op O) (fuel : ℕ) :
      Reachable cfg s → op.run cfg fuel s = some s' → Reachable cfg s'

end PolkadotSdk.MessageQueue
