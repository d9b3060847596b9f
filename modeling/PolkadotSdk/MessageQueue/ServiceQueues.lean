import PolkadotSdk.MessageQueue.Storage
import PolkadotSdk.Lib.Fuel
import Mathlib.Tactic.FinCases
import Mathlib.Data.Fintype.Basic

/-!
# Servicing the queues

Each servicing loop keeps its result under more fuel (`servicePageLoop_fuelMono` up to
`serviceQueue_fuelMono`), so one call of `service_queue` that finishes decides what every budget
gives.

`service_queues` stops when it comes back, without progress, to the queue recorded in
`last_no_progress`. That queue can leave the ring during the pass: a queue whose ready page held
only overweight messages skips them, runs out of ready pages and is unknitted. If the ring is then
a paused queue alone, `service_queue` is called on it again and again, and when the weights are
zero the meter never stops the loop (`serviceQueues_stuck_after_unknit`).
-/

namespace PolkadotSdk.MessageQueue

open PolkadotSdk.Lib

variable {O : Type} [DecidableEq O]

section FuelMono

variable (cfg : Config O) (origin : O) (overweightLimit : Weight)

theorem servicePageLoop_fuelMono (pageIndex total : ℕ) (book : BookState O) (page : Page)
    (w : WeightMeter) (s : State O) :
    FuelMono fun n => servicePageLoop cfg origin pageIndex overweightLimit n total book page w s := by
  intro n
  induction n generalizing total book page w s with
  | zero => intro r h; cases h
  | succ n ih =>
    intro r h
    dsimp only at h ⊢
    -- one item, then the same continuation under either budget
    rcases hitem : servicePageItem cfg s origin pageIndex book page w overweightLimit with
      ⟨status, book', page', w', s'⟩
    rw [servicePageLoop, hitem] at h ⊢
    cases status with
    | bailed => exact h
    | noItem => exact h
    | noProgress => exact h
    | executed p => cases p <;> exact ih _ _ _ _ _ r h

theorem servicePage_fuelMono (s : State O) (book : BookState O) (w : WeightMeter) :
    FuelMono fun n => servicePage cfg n s origin book w overweightLimit := by
  intro n r h
  unfold servicePage at h ⊢
  dsimp only at h ⊢
  split at h
  · exact h
  · split at h
    · exact h
    · obtain ⟨res, hres, hr⟩ := Option.bind_eq_some_iff.mp h
      exact Option.bind_eq_some_iff.mpr
        ⟨res, servicePageLoop_fuelMono cfg origin overweightLimit _ _ _ _ _ _ n res hres, hr⟩

theorem serviceQueueLoop_fuelMono (book : BookState O) (total : ℕ) (w : WeightMeter)
    (s : State O) :
    FuelMono fun n => serviceQueueLoop cfg origin overweightLimit n book total w s := by
  intro n
  induction n generalizing book total w s with
  | zero => intro r h; cases h
  | succ n ih =>
    intro r h
    dsimp only at h ⊢
    unfold serviceQueueLoop at h ⊢
    split at h
    · rename_i hready
      rw [if_pos hready]
      obtain ⟨⟨⟨processed, status⟩, book', w', s'⟩, hpage, hr⟩ := Option.bind_eq_some_iff.mp h
      refine Option.bind_eq_some_iff.mpr
        ⟨_, servicePage_fuelMono cfg origin overweightLimit s book w n _ hpage, ?_⟩
      -- the page's status decides between stopping and the next page, under either budget
      cases status with
      | bailed => exact hr
      | noProgress => exact hr
      | noMore => exact ih _ _ _ _ r hr
    · rename_i hready
      rw [if_neg hready]
      exact h

theorem serviceQueue_fuelMono (s : State O) (w : WeightMeter) :
    FuelMono fun n => serviceQueue cfg n s origin w overweightLimit := by
  intro n r h
  dsimp only at h ⊢
  unfold serviceQueue at h ⊢
  split at h
  · exact h
  · split at h
    · rename_i hpaused
      rw [if_pos hpaused]
      exact h
    · rename_i hpaused
      rw [if_neg hpaused]
      obtain ⟨res, hres, hr⟩ := Option.bind_eq_some_iff.mp h
      exact Option.bind_eq_some_iff.mpr
        ⟨res, serviceQueueLoop_fuelMono cfg origin overweightLimit _ _ _ _ n res hres, hr⟩

end FuelMono

/-! ## A pass that never ends -/

/-- The weight `service_queue` charges before looking at the queue. -/
def serviceQueueCharge (cfg : Config O) : Weight :=
  cfg.weightInfo.serviceQueueBase.saturatingAdd cfg.weightInfo.readyRingUnknit

theorem serviceQueue_of_paused (cfg : Config O) (n : ℕ) (s : State O) (origin : O)
    (w w' : WeightMeter) (overweightLimit : Weight)
    (hw : w.tryConsume (serviceQueueCharge cfg) = some w') (hpaused : cfg.isPaused origin = true) :
    serviceQueue cfg n s origin w overweightLimit =
      some ((false, (s.book origin).readyNeighbours.map (·.next)), w', s) := by
  unfold serviceQueueCharge at hw
  simp only [serviceQueue, hw, hpaused, if_true]

theorem serviceQueuesLoop_paused_alone (cfg : Config O) (overweightLimit : Weight) (a b : O)
    (w : WeightMeter) (s : State O) (hab : a ≠ b) (hpaused : cfg.isPaused b = true)
    (halone : (s.book b).readyNeighbours.map (·.next) = some b)
    (hw : w.tryConsume (serviceQueueCharge cfg) = some w) (fuel : ℕ) :
    serviceQueuesLoop cfg overweightLimit fuel b (some a) w s = none := by
  induction fuel with
  | zero => rfl
  | succ fuel ih =>
    rw [serviceQueuesLoop, serviceQueue_of_paused cfg fuel s b w w overweightLimit hw hpaused,
      halone]
    simpa [hab] using ih

theorem serviceQueues_stuck_after_unknit (cfg : Config O) (weightLimit : Weight)
    (s s₁ s₂ : State O) (w₁ w₂ : WeightMeter) (a b : O) (n : ℕ)
    (hbump : bumpServiceHead cfg s (.withLimit weightLimit) = (some a, w₁, s₁))
    (hfirst : serviceQueue cfg n s₁ a w₁ ((maxMessageWeight cfg weightLimit).getD .zero) =
      some ((false, some b), w₂, s₂))
    (hab : a ≠ b) (hpaused : cfg.isPaused b = true)
    (halone : (s₂.book b).readyNeighbours.map (·.next) = some b)
    (hw : w₂.tryConsume (serviceQueueCharge cfg) = some w₂) (fuel : ℕ) :
    serviceQueues cfg fuel weightLimit s = none := by
  simp only [serviceQueues, hbump, Option.map_eq_none_iff]
  cases fuel with
  | zero => rfl
  | succ fuel =>
    rw [serviceQueuesLoop]
    -- under this budget the first queue runs out of fuel or makes no progress, handing over to `b`
    rcases (serviceQueue_fuelMono cfg a _ s₁ w₁).eq_none_or_eq hfirst fuel with h | h
    · rw [h]
      rfl
    · rw [h]
      have hne : (none : Option O) ≠ some b := nofun
      simpa [hne] using serviceQueuesLoop_paused_alone cfg _ a b w₂ s₂ hab hpaused halone hw fuel

/-- Two queues and zero weights: queue `1` is paused, and the processor finds every message
overweight. -/
def pausedPairConfig : Config (Fin 2) where
  weightInfo := ⟨.zero, .zero, .zero, .zero, .zero, .zero, .zero, .zero⟩
  heapSize := 64
  maxStale := 0
  isPaused o := decide (o = 1)
  processMessage _ _ meter := ⟨.error (.overweight ⟨1, 0⟩), meter, []⟩

/-- A message enqueued to queue `0`, then one to queue `1`: the ring is `0 → 1 → 0` with head
`0`. -/
def pausedPairState : State (Fin 2) :=
  enqueueMessages pausedPairConfig (enqueueMessages pausedPairConfig .empty 0 [[0]]) 1 [[0]]

theorem pausedPairState_reachable : Reachable pausedPairConfig pausedPairState :=
  .step (.enqueue 1 [[0]]) 0 (.step (.enqueue 0 [[0]]) 0 .empty rfl) rfl

theorem pausedPairState_neighbours (o : Fin 2) :
    (pausedPairState.book o).readyNeighbours = some ⟨1 - o, 1 - o⟩ := by
  fin_cases o <;> decide

theorem pausedPairState_ringWF : RingWF pausedPairState where
  knitted_iff_ready o := by fin_cases o <;> decide
  prev_next o n h := by
    obtain rfl := Option.some.inj ((pausedPairState_neighbours o).symm.trans h)
    rw [pausedPairState_neighbours]
    fin_cases o <;> rfl
  next_prev o n h := by
    obtain rfl := Option.some.inj ((pausedPairState_neighbours o).symm.trans h)
    rw [pausedPairState_neighbours]
    fin_cases o <;> rfl
  cycle o o' _ _ := by
    fin_cases o <;> fin_cases o' <;> first | exact ⟨0, rfl⟩ | exact ⟨1, by decide⟩
  head_isSome_iff := by decide
  head_ready h hh := by
    have hhead : pausedPairState.serviceHead = some 0 := by decide
    obtain rfl := Option.some.inj (hhead.symm.trans hh)
    decide

theorem serviceQueues_paused_pair_stuck :
    Reachable pausedPairConfig pausedPairState ∧ RingWF pausedPairState ∧
      ∀ fuel, serviceQueues pausedPairConfig fuel .zero pausedPairState = none :=
  ⟨pausedPairState_reachable, pausedPairState_ringWF, serviceQueues_stuck_after_unknit pausedPairConfig .zero pausedPairState
    _ _ _ _ 0 1 3 rfl rfl (by decide) rfl (by decide) rfl⟩

end PolkadotSdk.MessageQueue
