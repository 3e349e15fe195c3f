import Mathlib

/-!
# The message queue pallet

A model of `pallet-message-queue`: the `ServiceHead`, `BookStateFor` and `Pages` storage,
the byte-level pages with their item headers, the ready ring that links the queues with
pages to service, and the calls that change them: `do_enqueue_messages`,
`service_queues_impl` (through `service_queue`, `service_page` and `service_page_item`),
`do_execute_overweight`, `do_reap_page`, `sweep_queue` and `set_service_head`.

`Size` and `PageIndex` are `u32` and the book's counters `u64`; their saturating
arithmetic is `min` with the type's maximum. The message processor is a parameter of the
configuration: it sees the message, its origin and the weight meter, and returns its
result and the meter. Its own storage writes are not modelled, so the service mutex is
never held when a call starts. A dispatchable returns the new state or its error.
-/

namespace PolkadotSdk.MessageQueue

/-- `u32::MAX`, the bound of `Size` and `PageIndex`. -/
def u32Max : ℕ := 2 ^ 32 - 1

/-- `u64::MAX`, the bound of each weight component and of the book's counters. -/
def u64Max : ℕ := 2 ^ 64 - 1

/-- `Weight`: reference time and proof size. -/
structure Weight where
  refTime : ℕ
  proofSize : ℕ
  deriving DecidableEq, Repr

namespace Weight

/-- `Weight::zero`. -/
def zero : Weight := ⟨0, 0⟩

/-- `Weight::MAX`. -/
def max : Weight := ⟨u64Max, u64Max⟩

/-- `Weight::is_zero`. -/
def isZero (w : Weight) : Bool := w.refTime == 0 && w.proofSize == 0

/-- `Weight::any_gt`. -/
def anyGt (w other : Weight) : Bool := other.refTime < w.refTime || other.proofSize < w.proofSize

/-- `Weight::saturating_add`. -/
def saturatingAdd (w rhs : Weight) : Weight :=
  ⟨Nat.min (w.refTime + rhs.refTime) u64Max, Nat.min (w.proofSize + rhs.proofSize) u64Max⟩

/-- `Weight::checked_add`. -/
def checkedAdd (w rhs : Weight) : Option Weight :=
  if w.refTime + rhs.refTime ≤ u64Max ∧ w.proofSize + rhs.proofSize ≤ u64Max then
    some ⟨w.refTime + rhs.refTime, w.proofSize + rhs.proofSize⟩
  else none

/-- `Weight::checked_sub`. -/
def checkedSub (w rhs : Weight) : Option Weight :=
  if rhs.refTime ≤ w.refTime ∧ rhs.proofSize ≤ w.proofSize then
    some ⟨w.refTime - rhs.refTime, w.proofSize - rhs.proofSize⟩
  else none

/-- `Weight::max`, taken per component. -/
def maxOf (w other : Weight) : Weight :=
  ⟨Nat.max w.refTime other.refTime, Nat.max w.proofSize other.proofSize⟩

/-- `Weight::min`, taken per component. -/
def minOf (w other : Weight) : Weight :=
  ⟨Nat.min w.refTime other.refTime, Nat.min w.proofSize other.proofSize⟩

end Weight

/-- `WeightMeter`: the weight consumed so far and the limit it may reach. -/
structure WeightMeter where
  consumed : Weight
  limit : Weight
  deriving DecidableEq, Repr

namespace WeightMeter

/-- `WeightMeter::with_limit`. -/
def withLimit (limit : Weight) : WeightMeter := ⟨Weight.zero, limit⟩

/-- `WeightMeter::try_consume`: `none` is the `Err(())` that leaves the meter as it was. -/
def tryConsume (m : WeightMeter) (w : Weight) : Option WeightMeter :=
  match m.consumed.checkedAdd w with
  | none => none
  | some test => if test.anyGt m.limit then none else some { m with consumed := test }

end WeightMeter

/-- `ProcessMessageError`. -/
inductive ProcessMessageError where
  | badFormat
  | corrupt
  | unsupported
  | overweight (w : Weight)
  | yield
  | stackLimitReached
  deriving DecidableEq, Repr

/-- The weights of `WeightInfo` that the servicing code charges. -/
structure WeightInfo where
  readyRingUnknit : Weight
  serviceQueueBase : Weight
  servicePageBaseCompletion : Weight
  servicePageBaseNoCompletion : Weight
  servicePageItem : Weight
  bumpServiceHead : Weight
  setServiceHead : Weight
  executeOverweightPageRemoved : Weight
  executeOverweightPageUpdated : Weight

/-- The pallet's `Config`: its constants, its weights, the message processor and the
paused-queue query. -/
structure Config (O : Type) where
  heapSize : ℕ
  maxStale : ℕ
  serviceWeight : Option Weight
  idleMaxServiceWeight : Option Weight
  weightInfo : WeightInfo
  processMessage : List UInt8 → O → WeightMeter → Except ProcessMessageError Bool × WeightMeter
  isPaused : O → Bool

/-- `ItemHeader<u32>`: the length of the payload that follows and whether it was
processed. -/
structure ItemHeader where
  payloadLen : ℕ
  isProcessed : Bool
  deriving DecidableEq, Repr

namespace ItemHeader

/-- `ItemHeader::<u32>::max_encoded_len()`. -/
def maxEncodedLen : ℕ := 5

/-- The SCALE encoding: the length as four little-endian bytes, then the flag. -/
def encode (h : ItemHeader) : List UInt8 :=
  [UInt8.ofNat h.payloadLen, UInt8.ofNat (h.payloadLen / 2 ^ 8),
    UInt8.ofNat (h.payloadLen / 2 ^ 16), UInt8.ofNat (h.payloadLen / 2 ^ 24),
    if h.isProcessed then 1 else 0]

/-- SCALE decoding of a `bool`: only the bytes 0 and 1 are accepted. -/
def decodeBool (b : UInt8) : Option Bool :=
  if b = 0 then some false else if b = 1 then some true else none

/-- `ItemHeader::decode`, with the bytes that follow the header. -/
def decode : List UInt8 → Option (ItemHeader × List UInt8)
  | b0 :: b1 :: b2 :: b3 :: p :: rest =>
    (decodeBool p).map fun isProcessed =>
      (⟨b0.toNat + 2 ^ 8 * b1.toNat + 2 ^ 16 * b2.toNat + 2 ^ 24 * b3.toNat, isProcessed⟩, rest)
  | _ => none

end ItemHeader

/-- `Page`: the counters of the messages not yet processed, the position of the first
message still to service, the position of the last one, and the heap of headed items. -/
structure Page where
  remaining : ℕ
  remainingSize : ℕ
  firstIndex : ℕ
  first : ℕ
  last : ℕ
  heap : List UInt8
  deriving DecidableEq, Repr

namespace Page

/-- `Page::from_message`: a page that holds one message. -/
def fromMessage (heapSize : ℕ) (message : List UInt8) : Page :=
  let payloadLen := message.length
  { remaining := 1
    remainingSize := payloadLen
    firstIndex := 0
    first := 0
    last := 0
    heap := ((ItemHeader.encode ⟨payloadLen, false⟩) ++ message).take heapSize }

/-- `Page::heap_pos`. -/
def heapPos (page : Page) : ℕ := page.heap.length

/-- `Page::can_append_message_at`: the heap position after the message, if it fits. -/
def canAppendMessageAt (heapSize pos messageLen : ℕ) : Option ℕ :=
  let newPos := pos + (ItemHeader.maxEncodedLen + messageLen)
  if newPos ≤ heapSize then some newPos else none

/-- `Page::try_append_message`: `none` is the `Err(())` of a full page. -/
def tryAppendMessage (heapSize : ℕ) (page : Page) (message : List UInt8) : Option Page :=
  let pos := page.heapPos
  match canAppendMessageAt heapSize pos message.length with
  | none => none
  | some _ =>
    let payloadLen := message.length
    some { page with
      heap := (page.heap ++ ItemHeader.encode ⟨payloadLen, false⟩ ++ message).take heapSize
      last := Nat.min pos u32Max
      remaining := Nat.min (page.remaining + 1) u32Max
      remainingSize := Nat.min (page.remainingSize + payloadLen) u32Max }

/-- `Page::peek_first`: the payload of the first message still to service. -/
def peekFirst (page : Page) : Option (List UInt8) :=
  if page.last < page.first then none
  else
    match ItemHeader.decode (page.heap.drop (Nat.min page.first page.heap.length)) with
    | some (h, itemSlice) => if h.payloadLen ≤ itemSlice.length then some (itemSlice.take h.payloadLen) else none
    | none => none

/-- The heap with the header at `pos` rewritten to mark its message processed. -/
def markProcessed (heap : List UInt8) (pos : ℕ) (h : ItemHeader) : List UInt8 :=
  heap.take pos ++ ItemHeader.encode { h with isProcessed := true } ++ heap.drop (pos + ItemHeader.maxEncodedLen)

/-- `Page::skip_first`: step past the first message, marking it processed if asked. -/
def skipFirst (page : Page) (isProcessed : Bool) : Page :=
  let f := Nat.min page.first page.heap.length
  match ItemHeader.decode (page.heap.drop f) with
  | none => page
  | some (h, _) =>
    let page :=
      if isProcessed && !h.isProcessed then
        { page with
          heap := markProcessed page.heap f h
          remaining := page.remaining - 1
          remainingSize := page.remainingSize - h.payloadLen }
      else page
    { page with
      first := Nat.min (Nat.min (page.first + ItemHeader.maxEncodedLen) u32Max + h.payloadLen) u32Max
      firstIndex := Nat.min (page.firstIndex + 1) u32Max }

/-- The loop of `Page::peek_index`: skip `index` items of `itemSlice`, which starts at
`pos`, then read the next one. -/
def peekIndexFrom (itemSlice : List UInt8) (pos : ℕ) : ℕ → Option (ℕ × Bool × List UInt8)
  | 0 =>
    match ItemHeader.decode itemSlice with
    | none => none
    | some (h, itemSlice) =>
      if itemSlice.length < h.payloadLen then none else some (pos, h.isProcessed, itemSlice.take h.payloadLen)
  | index + 1 =>
    match ItemHeader.decode itemSlice with
    | none => none
    | some (h, itemSlice) =>
      if itemSlice.length < h.payloadLen then none
      else peekIndexFrom (itemSlice.drop h.payloadLen) (pos + (ItemHeader.maxEncodedLen + h.payloadLen)) index

/-- `Page::peek_index`: the position, processed flag and payload of message `index`. -/
def peekIndex (page : Page) (index : ℕ) : Option (ℕ × Bool × List UInt8) :=
  peekIndexFrom page.heap 0 index

/-- `Page::note_processed_at_pos`. -/
def noteProcessedAtPos (page : Page) (pos : ℕ) : Page :=
  match ItemHeader.decode (page.heap.drop pos) with
  | none => page
  | some (h, _) =>
    if !h.isProcessed then
      { page with
        heap := markProcessed page.heap pos h
        remaining := page.remaining - 1
        remainingSize := page.remainingSize - h.payloadLen }
    else page

/-- `Page::is_complete`. -/
def isComplete (page : Page) : Bool := page.remaining == 0

end Page

/-- `Neighbours`: a queue's place in the ready ring. -/
structure Neighbours (O : Type) where
  prev : O
  next : O
  deriving DecidableEq, Repr

/-- `BookState`: the queue's pages `[begin, end)` still to service, the number of stored
pages, its ready-ring neighbours, and its message count and size. -/
structure BookState (O : Type) where
  begin : ℕ
  «end» : ℕ
  count : ℕ
  readyNeighbours : Option (Neighbours O)
  messageCount : ℕ
  size : ℕ
  deriving DecidableEq, Repr

/-- `BookState::default`. -/
def BookState.default {O : Type} : BookState O := ⟨0, 0, 0, none, 0, 0⟩

/-- The storage of the pallet. `BookStateFor` is a value-query map: a missing entry
reads as the default book. -/
structure State (O : Type) where
  serviceHead : Option O
  bookStateFor : O → Option (BookState O)
  pages : O → ℕ → Option Page

/-- `MessageExecutionStatus`. -/
inductive MessageExecutionStatus where
  | insufficientWeight
  | overweight
  | processed
  | unprocessable (permanent : Bool)
  | stackLimitReached
  deriving DecidableEq, Repr

/-- `PageExecutionStatus`. -/
inductive PageExecutionStatus where
  | bailed
  | noProgress
  | noMore
  deriving DecidableEq, Repr

/-- `ItemExecutionStatus`. -/
inductive ItemExecutionStatus where
  | bailed
  | noProgress
  | noItem
  | executed (isProcessed : Bool)
  deriving DecidableEq, Repr

/-- The pallet's `Error`. -/
inductive Error where
  | notReapable
  | noPage
  | noMessage
  | alreadyProcessed
  | queued
  | insufficientWeight
  | temporarilyUnprocessable
  | queuePaused
  | recursiveDisallowed
  deriving DecidableEq, Repr

variable {O : Type} [DecidableEq O]

namespace State

/-- Empty storage. -/
def empty : State O := ⟨none, fun _ => none, fun _ _ => none⟩

/-- `BookStateFor::get`. -/
def book (s : State O) (origin : O) : BookState O := (s.bookStateFor origin).getD BookState.default

/-- `BookStateFor::insert`. -/
def putBook (s : State O) (origin : O) (b : BookState O) : State O :=
  { s with bookStateFor := Function.update s.bookStateFor origin (some b) }

/-- `BookStateFor::mutate`. -/
def mutateBook (s : State O) (origin : O) (f : BookState O → BookState O) : State O :=
  s.putBook origin (f (s.book origin))

/-- `Pages::insert`. -/
def putPage (s : State O) (origin : O) (index : ℕ) (page : Page) : State O :=
  { s with pages := Function.update s.pages origin (Function.update (s.pages origin) index (some page)) }

/-- `Pages::remove`. -/
def removePage (s : State O) (origin : O) (index : ℕ) : State O :=
  { s with pages := Function.update s.pages origin (Function.update (s.pages origin) index none) }

@[simp] theorem book_putBook_self (s : State O) (origin : O) (b : BookState O) :
    (s.putBook origin b).book origin = b := by
  simp [book, putBook]

@[simp] theorem book_putBook_of_ne {s : State O} {origin origin' : O} (b : BookState O) (h : origin' ≠ origin) :
    (s.putBook origin b).book origin' = s.book origin' := by
  simp [book, putBook, h]

@[simp] theorem pages_putBook (s : State O) (origin : O) (b : BookState O) :
    (s.putBook origin b).pages = s.pages := rfl

@[simp] theorem serviceHead_putBook (s : State O) (origin : O) (b : BookState O) :
    (s.putBook origin b).serviceHead = s.serviceHead := rfl

@[simp] theorem book_putPage (s : State O) (origin : O) (index : ℕ) (page : Page) :
    (s.putPage origin index page).book = s.book := rfl

@[simp] theorem serviceHead_putPage (s : State O) (origin : O) (index : ℕ) (page : Page) :
    (s.putPage origin index page).serviceHead = s.serviceHead := rfl

@[simp] theorem pages_putPage_self (s : State O) (origin : O) (index : ℕ) (page : Page) :
    (s.putPage origin index page).pages origin index = some page := by
  simp [putPage]

@[simp] theorem book_removePage (s : State O) (origin : O) (index : ℕ) :
    (s.removePage origin index).book = s.book := rfl

@[simp] theorem serviceHead_removePage (s : State O) (origin : O) (index : ℕ) :
    (s.removePage origin index).serviceHead = s.serviceHead := rfl

@[simp] theorem pages_removePage_self (s : State O) (origin : O) (index : ℕ) :
    (s.removePage origin index).pages origin index = none := by
  simp [removePage]

end State

section Ring

/-- `ready_ring_knit`: link `origin` into the ring just before the head. `none` is the
`Err(())` of a ring whose head or tail is not linked; the head's book is already written
when the tail's is found unlinked. -/
def readyRingKnit (s : State O) (origin : O) : State O × Option (Neighbours O) :=
  match s.serviceHead with
  | some head =>
    let headBookState := s.book head
    match headBookState.readyNeighbours with
    | none => (s, none)
    | some headNeighbours =>
      let tail := headNeighbours.prev
      let s := s.putBook head { headBookState with readyNeighbours := some { headNeighbours with prev := origin } }
      let tailBookState := s.book tail
      match tailBookState.readyNeighbours with
      | none => (s, none)
      | some tailNeighbours =>
        (s.putBook tail { tailBookState with readyNeighbours := some { tailNeighbours with next := origin } },
          some ⟨tail, head⟩)
  | none => ({ s with serviceHead := some origin }, some ⟨origin, origin⟩)

/-- `ready_ring_unknit`: take `origin`, whose neighbours are given, out of the ring. -/
def readyRingUnknit (s : State O) (origin : O) (neighbours : Neighbours O) : State O :=
  if origin = neighbours.next then { s with serviceHead := none }
  else
    let s := s.mutateBook neighbours.next fun b =>
      { b with readyNeighbours := b.readyNeighbours.map fun n => { n with prev := neighbours.prev } }
    let s := s.mutateBook neighbours.prev fun b =>
      { b with readyNeighbours := b.readyNeighbours.map fun n => { n with next := neighbours.next } }
    match s.serviceHead with
    | some head => if head = origin then { s with serviceHead := some neighbours.next } else s
    | none => s

/-- `bump_service_head`: the queue to service next, with the head moved past it. -/
def bumpServiceHead (c : Config O) (s : State O) (weight : WeightMeter) :
    State O × WeightMeter × Option O :=
  match weight.tryConsume c.weightInfo.bumpServiceHead with
  | none => (s, weight, none)
  | some weight =>
    match s.serviceHead with
    | none => (s, weight, none)
    | some head =>
      match (s.book head).readyNeighbours with
      | none => (s, weight, none)
      | some headNeighbours => ({ s with serviceHead := some headNeighbours.next }, weight, some head)

/-- `set_service_head`, which is also `force_set_head`: `none` is the `Err(())` of a
meter that cannot pay for it. -/
def setServiceHead (c : Config O) (s : State O) (weight : WeightMeter) (queue : O) :
    State O × WeightMeter × Option Bool :=
  match weight.tryConsume c.weightInfo.setServiceHead with
  | none => (s, weight, none)
  | some weight =>
    if (s.book queue).readyNeighbours.isSome then ({ s with serviceHead := some queue }, weight, some true)
    else (s, weight, some false)

end Ring

section Enqueue

/-- One message of the loop of `do_enqueue_messages`: append it to the open page, or
store that page and open a new one. -/
def enqueueStep (c : Config O) (origin : O) :
    State O × BookState O × Option Page → List UInt8 → State O × BookState O × Option Page
  | (s, bookState, maybePage), message =>
    let (s, maybePage) :=
      match maybePage with
      | none => (s, none)
      | some page =>
        match page.tryAppendMessage c.heapSize message with
        | some page => (s, some page)
        | none => (s.putPage origin (bookState.end - 1) page, none)
    let (bookState, page) :=
      match maybePage with
      | some page => (bookState, page)
      | none =>
        ({ bookState with «end» := Nat.min (bookState.end + 1) u32Max, count := Nat.min (bookState.count + 1) u32Max },
          Page.fromMessage c.heapSize message)
    (s,
      { bookState with
        messageCount := Nat.min (bookState.messageCount + 1) u64Max
        size := Nat.min (bookState.size + message.length) u64Max },
      some page)

/-- `do_enqueue_messages`. -/
def doEnqueueMessages (c : Config O) (s : State O) (origin : O) (messages : List (List UInt8)) : State O :=
  let bookState := s.book origin
  let maybePage := if bookState.begin < bookState.end then s.pages origin (bookState.end - 1) else none
  let (s, bookState, maybePage) := messages.foldl (enqueueStep c origin) (s, bookState, maybePage)
  let s :=
    match maybePage with
    | some page => s.putPage origin (bookState.end - 1) page
    | none => s
  let (s, bookState) :=
    match bookState.readyNeighbours with
    | some _ => (s, bookState)
    | none =>
      match readyRingKnit s origin with
      | (s, some neighbours) => (s, { bookState with readyNeighbours := some neighbours })
      | (s, none) => (s, bookState)
  s.putBook origin bookState

/-- `enqueue_message`. -/
def enqueueMessage (c : Config O) (s : State O) (message : List UInt8) (origin : O) : State O :=
  doEnqueueMessages c s origin [message]

end Enqueue

section Service

/-- `single_msg_overhead`. -/
def singleMsgOverhead (c : Config O) : Weight :=
  ((((c.weightInfo.bumpServiceHead.saturatingAdd c.weightInfo.serviceQueueBase).saturatingAdd
    (c.weightInfo.servicePageBaseCompletion.maxOf c.weightInfo.servicePageBaseNoCompletion)).saturatingAdd
    c.weightInfo.servicePageItem).saturatingAdd c.weightInfo.readyRingUnknit)

/-- `max_message_weight`: the most weight one message may take before it is overweight. -/
def maxMessageWeight (c : Config O) (limit : Weight) : Option Weight :=
  let serviceWeight := c.serviceWeight.getD Weight.zero
  let onIdleWeight := c.idleMaxServiceWeight.getD Weight.zero
  let maxMessageWeight := if serviceWeight.anyGt onIdleWeight then serviceWeight else onIdleWeight
  if maxMessageWeight.isZero then limit.checkedSub (singleMsgOverhead c)
  else maxMessageWeight.checkedSub (singleMsgOverhead c)

/-- `process_message_payload`: run the processor and classify its result. -/
def processMessagePayload (c : Config O) (origin : O) (message : List UInt8) (meter : WeightMeter)
    (overweightLimit : Weight) : MessageExecutionStatus × WeightMeter :=
  match c.processMessage message origin meter with
  | (.error (.overweight w), meter) =>
    (if w.anyGt overweightLimit then .overweight else .insufficientWeight, meter)
  | (.error .yield, meter) => (.unprocessable false, meter)
  | (.error .badFormat, meter) => (.unprocessable true, meter)
  | (.error .corrupt, meter) => (.unprocessable true, meter)
  | (.error .unsupported, meter) => (.unprocessable true, meter)
  | (.error .stackLimitReached, meter) => (.stackLimitReached, meter)
  | (.ok _, meter) => (.processed, meter)

/-- `service_page_item`: service the first message of the page. Page and book are
stored before the processor runs and read back after it. -/
def servicePageItem (c : Config O) (s : State O) (origin : O) (pageIndex : ℕ)
    (bookState : BookState O) (page : Page) (weight : WeightMeter) (overweightLimit : Weight) :
    State O × BookState O × Page × WeightMeter × ItemExecutionStatus :=
  if page.isComplete then (s, bookState, page, weight, .noItem)
  else
    match weight.tryConsume c.weightInfo.servicePageItem with
    | none => (s, bookState, page, weight, .bailed)
    | some weight =>
      match page.peekFirst with
      | none => (s, bookState, page, weight, .noItem)
      | some payload =>
        let s := (s.putPage origin pageIndex page).putBook origin bookState
        let (res, weight) := processMessagePayload c origin payload weight overweightLimit
        let bookState := s.book origin
        match s.pages origin pageIndex with
        | none => (s, bookState, page, weight, .noItem)
        | some page =>
          match res with
          | .insufficientWeight => (s, bookState, page, weight, .bailed)
          | .unprocessable false => (s, bookState, page, weight, .noProgress)
          | .overweight => (s, bookState, page.skipFirst false, weight, .executed false)
          | .processed | .unprocessable true | .stackLimitReached =>
            ({ bookState with
                messageCount := bookState.messageCount - 1
                size := bookState.size - payload.length } |> fun b => (s, b, page.skipFirst true, weight, .executed true))

/-- The loop of `service_page`: service items until one bails, finds no item or makes
no progress. A page of `n` bytes has fewer than `n + 1` items to step past. -/
def servicePageLoop (c : Config O) (origin : O) (pageIndex : ℕ) (overweightLimit : Weight) :
    ℕ → State O → BookState O → Page → WeightMeter → ℕ →
      State O × BookState O × Page × WeightMeter × ℕ × PageExecutionStatus
  | 0, s, bookState, page, weight, total => (s, bookState, page, weight, total, .bailed)
  | fuel + 1, s, bookState, page, weight, total =>
    match servicePageItem c s origin pageIndex bookState page weight overweightLimit with
    | (s, bookState, page, weight, .bailed) => (s, bookState, page, weight, total, .bailed)
    | (s, bookState, page, weight, .noItem) => (s, bookState, page, weight, total, .noMore)
    | (s, bookState, page, weight, .noProgress) => (s, bookState, page, weight, total, .noProgress)
    | (s, bookState, page, weight, .executed true) =>
      servicePageLoop c origin pageIndex overweightLimit fuel s bookState page weight (Nat.min (total + 1) u32Max)
    | (s, bookState, page, weight, .executed false) =>
      servicePageLoop c origin pageIndex overweightLimit fuel s bookState page weight total

/-- `service_page`: service the page at `begin`, then store it or, once complete,
remove it. -/
def servicePage (c : Config O) (s : State O) (origin : O) (bookState : BookState O)
    (weight : WeightMeter) (overweightLimit : Weight) :
    State O × BookState O × WeightMeter × ℕ × PageExecutionStatus :=
  match weight.tryConsume
      (c.weightInfo.servicePageBaseCompletion.maxOf c.weightInfo.servicePageBaseNoCompletion) with
  | none => (s, bookState, weight, 0, .bailed)
  | some weight =>
    let pageIndex := bookState.begin
    match s.pages origin pageIndex with
    | none => (s, bookState, weight, 0, .noMore)
    | some page =>
      let (s, bookState, page, weight, total, status) :=
        servicePageLoop c origin pageIndex overweightLimit (page.heap.length + 1) s bookState page weight 0
      if page.isComplete then
        (s.removePage origin pageIndex, { bookState with count := bookState.count - 1 }, weight, total, status)
      else (s.putPage origin pageIndex page, bookState, weight, total, status)

/-- The loop of `service_queue` over the pages `[begin, end)`. -/
def serviceQueueLoop (c : Config O) (origin : O) (overweightLimit : Weight) :
    ℕ → State O → BookState O → WeightMeter → ℕ → State O × BookState O × WeightMeter × ℕ
  | 0, s, bookState, weight, total => (s, bookState, weight, total)
  | fuel + 1, s, bookState, weight, total =>
    if bookState.begin < bookState.end then
      match servicePage c s origin bookState weight overweightLimit with
      | (s, bookState, weight, processed, .noMore) =>
        serviceQueueLoop c origin overweightLimit fuel s
          { bookState with begin := Nat.min (bookState.begin + 1) u32Max } weight (Nat.min (total + processed) u32Max)
      | (s, bookState, weight, processed, _) => (s, bookState, weight, Nat.min (total + processed) u32Max)
    else (s, bookState, weight, total)

/-- `service_queue`: service the pages of `origin`; whether it processed a message, and
the queue after it in the ready ring. -/
def serviceQueue (c : Config O) (s : State O) (origin : O) (weight : WeightMeter) (overweightLimit : Weight) :
    State O × WeightMeter × Bool × Option O :=
  match weight.tryConsume (c.weightInfo.serviceQueueBase.saturatingAdd c.weightInfo.readyRingUnknit) with
  | none => (s, weight, false, none)
  | some weight =>
    let bookState := s.book origin
    if c.isPaused origin then (s, weight, false, bookState.readyNeighbours.map Neighbours.next)
    else
      let (s, bookState, weight, totalProcessed) :=
        serviceQueueLoop c origin overweightLimit (bookState.end - bookState.begin) s bookState weight 0
      let nextReady := bookState.readyNeighbours.map Neighbours.next
      let (s, bookState) :=
        if bookState.end ≤ bookState.begin then
          match bookState.readyNeighbours with
          | some neighbours => (readyRingUnknit s origin neighbours, { bookState with readyNeighbours := none })
          | none => (s, bookState)
        else (s, bookState)
      (s.putBook origin bookState, weight, 0 < totalProcessed, nextReady)

/-- The loop of `service_queues_impl` over the ready ring: it stops when a queue has no
successor, or when it comes back to the first queue of a run without progress. `fuel`
bounds the number of queues visited. -/
def serviceQueuesLoop (c : Config O) (overweightLimit : Weight) :
    ℕ → State O → WeightMeter → O → Option O → State O × WeightMeter
  | 0, s, weight, _, _ => (s, weight)
  | fuel + 1, s, weight, next, lastNoProgress =>
    match serviceQueue c s next weight overweightLimit with
    | (s, weight, _, none) => (s, weight)
    | (s, weight, true, some n) => serviceQueuesLoop c overweightLimit fuel s weight n none
    | (s, weight, false, some n) =>
      if lastNoProgress = some n then (s, weight)
      else
        serviceQueuesLoop c overweightLimit fuel s weight n
          (match lastNoProgress with | none => some next | some q => some q)

/-- `service_queues_impl`: the new state and the weight consumed. -/
def serviceQueuesImpl (c : Config O) (fuel : ℕ) (s : State O) (weightLimit : Weight) : State O × Weight :=
  let weight := WeightMeter.withLimit weightLimit
  let overweightLimit := (maxMessageWeight c weightLimit).getD Weight.zero
  match bumpServiceHead c s weight with
  | (s, weight, none) => (s, weight.consumed)
  | (s, weight, some next) =>
    let (s, weight) := serviceQueuesLoop c overweightLimit fuel s weight next none
    (s, weight.consumed)

/-- `on_initialize`. -/
def onInitialize (c : Config O) (fuel : ℕ) (s : State O) : State O × Weight :=
  match c.serviceWeight with
  | some weightLimit => serviceQueuesImpl c fuel s weightLimit
  | none => (s, Weight.zero)

/-- `on_idle`. -/
def onIdle (c : Config O) (fuel : ℕ) (s : State O) (remainingWeight : Weight) : State O × Weight :=
  match c.idleMaxServiceWeight with
  | some weightLimit => serviceQueuesImpl c fuel s (weightLimit.minOf remainingWeight)
  | none => (s, Weight.zero)

end Service

section Calls

/-- `do_execute_overweight`: execute message `index` of page `pageIndex` once more, with
its own weight limit. -/
def doExecuteOverweight (c : Config O) (s : State O) (origin : O) (pageIndex index : ℕ)
    (weightLimit : Weight) : Except Error (State O × Weight) :=
  let bookState := s.book origin
  if c.isPaused origin then .error .queuePaused
  else
    match s.pages origin pageIndex with
    | none => .error .noPage
    | some page =>
      match page.peekIndex index with
      | none => .error .noMessage
      | some (pos, isProcessed, payload) =>
        if ¬(pageIndex < bookState.begin ∨ (pageIndex = bookState.begin ∧ pos < page.first)) then
          .error .queued
        else if isProcessed then .error .alreadyProcessed
        else
          match processMessagePayload c origin payload (WeightMeter.withLimit weightLimit) Weight.max with
          | (.overweight, _) | (.insufficientWeight, _) => .error .insufficientWeight
          | (.stackLimitReached, _) | (.unprocessable false, _) => .error .temporarilyUnprocessable
          | (.unprocessable true, weightCounter) | (.processed, weightCounter) =>
            let page := page.noteProcessedAtPos pos
            let bookState :=
              { bookState with messageCount := bookState.messageCount - 1, size := bookState.size - payload.length }
            if page.remaining = 0 then
              .ok ((s.removePage origin pageIndex).putBook origin { bookState with count := bookState.count - 1 },
                weightCounter.consumed.saturatingAdd c.weightInfo.executeOverweightPageRemoved)
            else
              .ok ((s.putPage origin pageIndex page).putBook origin bookState,
                weightCounter.consumed.saturatingAdd c.weightInfo.executeOverweightPageUpdated)

/-- The `cullable` test of `do_reap_page`: with more than `MaxStale` stale pages, a page
far enough below `begin` may be dropped. -/
def cullable (c : Config O) (bookState : BookState O) (pageIndex : ℕ) : Bool :=
  let totalPages := bookState.count
  let readyPages := Nat.min (bookState.end - bookState.begin) totalPages
  let stalePages := totalPages - readyPages
  let maxStale := c.maxStale
  if stalePages < maxStale + 1 then false
  else
    let overflow := stalePages - (maxStale + 1) + 1
    let backlog := Nat.max (maxStale * maxStale / overflow) maxStale
    let watermark := bookState.begin - backlog
    pageIndex < watermark

/-- `do_reap_page`: drop a page below `begin` that is empty or cullable. -/
def doReapPage (c : Config O) (s : State O) (origin : O) (pageIndex : ℕ) : Except Error (State O) :=
  let bookState := s.book origin
  if ¬pageIndex < bookState.begin then .error .notReapable
  else
    match s.pages origin pageIndex with
    | none => .error .noPage
    | some page =>
      if ¬(page.remaining = 0 ∨ cullable c bookState pageIndex) then .error .notReapable
      else
        .ok ((s.removePage origin pageIndex).putBook origin
          { bookState with
            count := bookState.count - 1
            messageCount := bookState.messageCount - page.remaining
            size := bookState.size - page.remainingSize })

/-- `sweep_queue`: drop every page of `origin` from service. -/
def sweepQueue (s : State O) (origin : O) : State O :=
  match s.bookStateFor origin with
  | none => s
  | some bookState =>
    let bookState := { bookState with begin := bookState.end }
    match bookState.readyNeighbours with
    | some neighbours => (readyRingUnknit s origin neighbours).putBook origin { bookState with readyNeighbours := none }
    | none => s.putBook origin bookState

end Calls

end PolkadotSdk.MessageQueue
