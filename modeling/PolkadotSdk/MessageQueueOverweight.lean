import PolkadotSdk.MessageQueuePage

/-!
# Executing an overweight message

`do_execute_overweight` may run a message of the page at `begin` that servicing stepped
past (`pos < first`). It leaves the ready ring and the queue's `[begin, end)` as they
were (`doExecuteOverweight_ok`), and it removes the page once its last unprocessed
message is done. Together these remove the page at `begin` of a queue still in the ready
ring: a queue whose last message was overweight and whose servicing then ran out of
weight keeps that page at `begin`, and executing the message afterwards deletes it while
`begin < end` (`execute_overweight_removes_ready_page`).

An overweight message also defeats the stopping rule of `service_queues_impl`: the loop
stops when it comes back to the first queue of a run without progress, but a queue whose
last message is stepped past as overweight leaves the ready ring in the very visit that
makes it that queue. With every cost zero nothing else stops the loop, and it services a
paused queue forever (`service_queues_spins_on_paused_queue`).
-/

namespace PolkadotSdk.MessageQueue

variable {O : Type} [DecidableEq O]

/-- A successful `do_execute_overweight` keeps the service head, the queue's
`[begin, end)` and its ready-ring neighbours, and removes the page if the message was its
last unprocessed one. -/
theorem doExecuteOverweight_ok {c : Config O} {s s' : State O} {origin : O} {pageIndex index : ℕ}
    {weightLimit w : Weight}
    (h : doExecuteOverweight c s origin pageIndex index weightLimit = .ok (s', w)) :
    ∃ page, s.pages origin pageIndex = some page ∧ s'.serviceHead = s.serviceHead ∧
      (s'.book origin).begin = (s.book origin).begin ∧ (s'.book origin).end = (s.book origin).end ∧
      (s'.book origin).readyNeighbours = (s.book origin).readyNeighbours ∧
      (page.remaining ≤ 1 → s'.pages origin pageIndex = none) := by
  unfold doExecuteOverweight at h
  dsimp only at h
  split at h
  · cases h
  split at h
  · cases h
  rename_i page hpage
  split at h
  · cases h
  rename_i pos isProcessed payload hpeek
  split at h
  · cases h
  split at h
  · cases h
  rename_i hunprocessed
  obtain ⟨rest, hdec⟩ := Page.peekIndex_header hpeek
  rw [Bool.not_eq_true] at hunprocessed
  subst hunprocessed
  have hrem := Page.noteProcessedAtPos_remaining hdec
  refine ⟨page, hpage, ?_⟩
  split at h <;> try cases h
  all_goals
    split at h <;> cases h
    · simp
    · refine ⟨by simp, by simp, by simp, by simp, fun hle => ?_⟩
      omega

/-- Every servicing step costs one unit of each weight component. -/
def unitWeightInfo : WeightInfo :=
  ⟨⟨1, 1⟩, ⟨1, 1⟩, ⟨1, 1⟩, ⟨1, 1⟩, ⟨1, 1⟩, ⟨1, 1⟩, ⟨1, 1⟩, ⟨1, 1⟩, ⟨1, 1⟩⟩

/-- A processor that needs one unit of weight per message and reports the message
overweight when the meter cannot pay for it. -/
def meteredProcessor (_ : List UInt8) (_ : ℕ) (meter : WeightMeter) :
    Except ProcessMessageError Bool × WeightMeter :=
  match meter.tryConsume ⟨1, 1⟩ with
  | some meter => (.ok true, meter)
  | none => (.error (.overweight ⟨1, 1⟩), meter)

/-- Unit weights, a service weight of five units (exactly one message's overhead) and
the metered processor. -/
def overweightConfig : Config ℕ :=
  { heapSize := 64
    maxStale := 8
    serviceWeight := some ⟨5, 5⟩
    idleMaxServiceWeight := none
    weightInfo := unitWeightInfo
    processMessage := meteredProcessor
    isPaused := fun _ => false }

/-- Origin 0 enqueues one message; `on_initialize` services it and finds it overweight,
since the overhead takes all five units, and then bails for lack of weight with the page
still at `begin`; `execute_overweight` then processes the message and removes page 0
while the book still has `begin < end`, no messages, and the queue in the ready ring. -/
theorem execute_overweight_removes_ready_page (fuel : ℕ) :
    ∃ s₃ w, doExecuteOverweight overweightConfig
        (onInitialize overweightConfig (fuel + 1) (enqueueMessage overweightConfig State.empty [7] 0)).1
        0 0 0 ⟨10, 10⟩ = .ok (s₃, w) ∧
      (s₃.book 0).begin < (s₃.book 0).end ∧ s₃.pages 0 0 = none ∧
      (s₃.book 0).readyNeighbours = some ⟨0, 0⟩ ∧ s₃.serviceHead = some 0 ∧
      (s₃.book 0).messageCount = 0 := by
  have hfuel : onInitialize overweightConfig (fuel + 1) (enqueueMessage overweightConfig State.empty [7] 0) =
      onInitialize overweightConfig 1 (enqueueMessage overweightConfig State.empty [7] 0) := by
    cases fuel with
    | zero => rfl
    | succ k => rfl
  rw [hfuel]
  exact ⟨_, _, rfl, by decide⟩

/-! ## A ready ring that is never left -/

/-- `WeightInfo` with every cost zero. -/
def zeroWeightInfo : WeightInfo :=
  ⟨Weight.zero, Weight.zero, Weight.zero, Weight.zero, Weight.zero, Weight.zero, Weight.zero, Weight.zero,
    Weight.zero⟩

/-- A processor that finds every message of queue 0 too heavy for any limit and processes
the others. -/
def heavyQueueProcessor (_ : List UInt8) (origin : ℕ) (meter : WeightMeter) :
    Except ProcessMessageError Bool × WeightMeter :=
  if origin = 0 then (.error (.overweight Weight.max), meter) else (.ok true, meter)

/-- Zero weights, a service weight of five units, queue 0's messages overweight and queue
1 paused. -/
def pausedRingConfig : Config ℕ :=
  { heapSize := 64
    maxStale := 8
    serviceWeight := some ⟨5, 5⟩
    idleMaxServiceWeight := none
    weightInfo := zeroWeightInfo
    processMessage := heavyQueueProcessor
    isPaused := fun origin => origin = 1 }

/-- Queues 0 and 1 each hold one message, and the ready ring is `0 → 1 → 0`. -/
def pausedRingState : State ℕ :=
  doEnqueueMessages pausedRingConfig (doEnqueueMessages pausedRingConfig State.empty 0 [[7]]) 1 [[7]]

/-- With every cost zero, `service_queues_impl` never returns. The head is queue 0; its only
message is overweight, so it is stepped past without progress, the queue runs out of pages
and leaves the ready ring, and it becomes `last_no_progress` in the same visit. The loop
then reaches the paused queue 1, whose successor is itself now, and since it never meets
queue 0 again it services queue 1 forever: each round spends one unit of fuel and returns
to the same state. -/
theorem service_queues_spins_on_paused_queue :
    (maxMessageWeight pausedRingConfig ⟨10, 10⟩).getD Weight.zero = ⟨5, 5⟩ ∧
    ∃ sb s₁ w, bumpServiceHead pausedRingConfig pausedRingState (WeightMeter.withLimit ⟨10, 10⟩) = (sb, w, some 0) ∧
      (∀ fuel, serviceQueuesLoop pausedRingConfig ⟨5, 5⟩ (fuel + 1) sb w 0 none =
        serviceQueuesLoop pausedRingConfig ⟨5, 5⟩ fuel s₁ w 1 (some 0)) ∧
      (∀ fuel, serviceQueuesLoop pausedRingConfig ⟨5, 5⟩ (fuel + 1) s₁ w 1 (some 0) =
        serviceQueuesLoop pausedRingConfig ⟨5, 5⟩ fuel s₁ w 1 (some 0)) ∧
      (s₁.book 0).readyNeighbours = none ∧ (s₁.book 1).readyNeighbours = some ⟨1, 1⟩ :=
  ⟨rfl, _, _, _, rfl, fun _ => rfl, fun _ => rfl, rfl, rfl⟩

end PolkadotSdk.MessageQueue
