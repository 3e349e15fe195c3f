import PolkadotSdk.MessageQueueOverweight

/-!
# Predicting the pages of an enqueue

`get_batches_footprints` runs the page filling of `do_enqueue_messages` without writing:
a cursor stands for the heap length of the page left open (`HeapSize` when there is none,
so that the first message opens a page), a message that does not fit opens a new page and
is tried again at its start, and the footprint of every batch `msgs[0..=i]` is pushed while
the pages counted stay within the limit.

Both loops are compared through `predictedFootprints`, which walks the messages with the
page of `do_enqueue_messages` itself: the predictor's cursor is always that page's heap
length (`footprintsLoop_eq`). The pages the enqueue opens are counted by `pagesOpened`,
which is what `end` of the book grows by (`doEnqueueMessages_end`).
-/

namespace PolkadotSdk.MessageQueue

/-- `BatchFootprint`. -/
structure BatchFootprint where
  msgsCount : ℕ
  sizeInBytes : ℕ
  newPagesCount : ℕ
  deriving DecidableEq, Repr

/-- `BatchesFootprints`: where the batch starts in the page left open, and the footprint of
every batch `msgs[0..=i]`. -/
structure BatchesFootprints where
  firstPagePos : ℕ
  footprints : List BatchFootprint
  deriving DecidableEq, Repr

/-- `BatchFootprint::default`. -/
def BatchFootprint.default : BatchFootprint := ⟨0, 0, 0⟩

/-- `BatchesFootprints::push` on a target whose `usize` has `bits` bits: the batch one
message longer than the last one. -/
def BatchesFootprints.push (bits : ℕ) (b : BatchesFootprints) (msg : List UInt8) (newPage : Bool) :
    BatchesFootprints :=
  let previous := b.footprints.getLast?.getD BatchFootprint.default
  let newPagesCount :=
    if newPage then Nat.min (previous.newPagesCount + 1) u32Max else previous.newPagesCount
  { b with
    footprints := b.footprints ++
      [⟨Nat.min (previous.msgsCount + 1) (2 ^ bits - 1),
        Nat.min (previous.sizeInBytes + msg.length) (2 ^ bits - 1), newPagesCount⟩] }

/-- The loop of `get_batches_footprints`, for at most `fuel` rounds: the limit is checked
first, then the next message is pushed where the cursor leaves room for it, or a new page
is counted (a `u32` that wraps) and the message tried again at its start. `none` when the
fuel runs out. -/
def footprintsLoop (heapSize bits totalPagesLimit : ℕ) :
    ℕ → BatchesFootprints → Bool → ℕ → ℕ → List (List UInt8) → Option BatchesFootprints
  | _, footprints, _, _, _, [] => some footprints
  | 0, _, _, _, _, _ :: _ => none
  | fuel + 1, footprints, newPage, totalPagesCount, currentPagePos, msg :: msgs =>
    if totalPagesLimit < totalPagesCount then some footprints
    else
      match Page.canAppendMessageAt heapSize currentPagePos msg.length with
      | some newPos =>
        footprintsLoop heapSize bits totalPagesLimit fuel (footprints.push bits msg newPage) false
          totalPagesCount newPos msgs
      | none =>
        footprintsLoop heapSize bits totalPagesLimit fuel footprints true ((totalPagesCount + 1) % 2 ^ 32) 0
          (msg :: msgs)

variable {O : Type} [DecidableEq O]

/-- `get_batches_footprints` on a target whose `usize` has `bits` bits, its loop run for at
most `fuel` rounds. -/
def getBatchesFootprints (c : Config O) (bits : ℕ) (s : State O) (origin : O) (msgs : List (List UInt8))
    (totalPagesLimit fuel : ℕ) : Option BatchesFootprints :=
  let book := s.book origin
  let (footprints, totalPagesCount, currentPagePos) : BatchesFootprints × ℕ × ℕ :=
    if book.begin < book.end then
      match s.pages origin (book.end - 1) with
      | some page => (⟨page.heapPos, []⟩, book.end - book.begin, page.heapPos)
      | none => (⟨0, []⟩, book.end - book.begin, c.heapSize)
    else (⟨0, []⟩, 0, c.heapSize)
  footprintsLoop c.heapSize bits totalPagesLimit fuel footprints false totalPagesCount currentPagePos msgs

/-! ## The pages of `do_enqueue_messages` -/

/-- The page `do_enqueue_messages` appends to first: page `end - 1` while the queue has
pages to service. -/
def openPage (s : State O) (origin : O) : Option Page :=
  if (s.book origin).begin < (s.book origin).end then s.pages origin ((s.book origin).end - 1) else none

namespace Page

/-- Whether `message` goes into the page left open, as `try_append_message` decides. -/
def appendsTo (heapSize : ℕ) (maybePage : Option Page) (message : List UInt8) : Bool :=
  (maybePage.bind fun page => page.tryAppendMessage heapSize message).isSome

/-- The page left open after `message`: the open page with it appended, or the page
`from_message` opens with it. -/
def enqueueInto (heapSize : ℕ) (maybePage : Option Page) (message : List UInt8) : Page :=
  match maybePage.bind fun page => page.tryAppendMessage heapSize message with
  | some page => page
  | none => fromMessage heapSize message

/-- The pages the loop of `do_enqueue_messages` opens for `messages`. -/
def pagesOpened (heapSize : ℕ) : Option Page → List (List UInt8) → ℕ
  | _, [] => 0
  | maybePage, message :: messages =>
    (if appendsTo heapSize maybePage message then 0 else 1) +
      pagesOpened heapSize (some (enqueueInto heapSize maybePage message)) messages

/-- The predictor's cursor for the page left open: its heap length, or `HeapSize` when
there is none. -/
def currentPagePos (heapSize : ℕ) : Option Page → ℕ
  | some page => page.heap.length
  | none => heapSize

end Page

open Page

/-- The footprint of a batch one message longer than `previous`, whose message opens
`opened` pages. -/
def BatchFootprint.extend (bits : ℕ) (previous : BatchFootprint) (message : List UInt8) (opened : ℕ) :
    BatchFootprint :=
  ⟨Nat.min (previous.msgsCount + 1) (2 ^ bits - 1),
    Nat.min (previous.sizeInBytes + message.length) (2 ^ bits - 1), previous.newPagesCount + opened⟩

/-- The footprints that `do_enqueue_messages` would leave, message by message, with
`total` pages counted and `previous` the last footprint: the batches stop at the first
message whose pages pass the limit. -/
def predictedFootprints (heapSize bits totalPagesLimit : ℕ) :
    Option Page → ℕ → BatchFootprint → List (List UInt8) → List BatchFootprint
  | _, _, _, [] => []
  | maybePage, total, previous, message :: messages =>
    let opened := if appendsTo heapSize maybePage message then 0 else 1
    if totalPagesLimit < total + opened then []
    else
      previous.extend bits message opened :: predictedFootprints heapSize bits totalPagesLimit
        (some (enqueueInto heapSize maybePage message)) (total + opened) (previous.extend bits message opened)
        messages

/-! ## The cursor is the heap length of the open page -/

section Cursor

variable {heapSize : ℕ} {maybePage : Option Page} {message : List UInt8}

theorem length_fromMessage_heap (hfit : ItemHeader.maxEncodedLen + message.length ≤ heapSize) :
    (fromMessage heapSize message).heap.length = ItemHeader.maxEncodedLen + message.length := by
  simpa [fromMessage] using hfit

theorem enqueueInto_of_not_appendsTo (h : appendsTo heapSize maybePage message = false) :
    enqueueInto heapSize maybePage message = fromMessage heapSize message := by
  unfold appendsTo at h
  unfold enqueueInto
  split
  · rename_i hsome
    simp [hsome] at h
  · rfl

/-- Where the predictor's cursor finds room for a message, `try_append_message` appends it
to the open page, and the cursor moves to the new end of that page's heap. -/
theorem canAppendMessageAt_currentPagePos :
    canAppendMessageAt heapSize (currentPagePos heapSize maybePage) message.length =
      if appendsTo heapSize maybePage message then
        some (currentPagePos heapSize (some (enqueueInto heapSize maybePage message)))
      else none := by
  cases maybePage with
  | none =>
    -- no page: the cursor at `HeapSize` leaves no room
    simp [canAppendMessageAt, currentPagePos, appendsTo, ItemHeader.maxEncodedLen]
  | some page =>
    by_cases hfit : page.heap.length + (ItemHeader.maxEncodedLen + message.length) ≤ heapSize
    · simp [canAppendMessageAt, currentPagePos, appendsTo, enqueueInto, tryAppendMessage_of_le hfit, hfit,
        Item.size, Item.ofMessage]
    · have hnone : page.tryAppendMessage heapSize message = none := by
        simpa [← Option.not_isSome_iff_eq_none, tryAppendMessage_isSome_iff] using hfit
      simp [canAppendMessageAt, currentPagePos, appendsTo, hnone, hfit]

/-- A new page has room at its start for every message within `MaxMessageLen`. -/
theorem canAppendMessageAt_zero (hfit : ItemHeader.maxEncodedLen + message.length ≤ heapSize) :
    canAppendMessageAt heapSize 0 message.length =
      some (currentPagePos heapSize (some (fromMessage heapSize message))) := by
  simp [canAppendMessageAt, currentPagePos, length_fromMessage_heap hfit, hfit]

end Cursor

/-! ## The predictor runs the enqueue -/

section Loop

variable {heapSize bits totalPagesLimit : ℕ}

/-- The last footprint pushed, the default one before any. -/
def BatchesFootprints.last (b : BatchesFootprints) : BatchFootprint :=
  b.footprints.getLast?.getD BatchFootprint.default

/-- `push` extends the last footprint, its new-page count not saturating below `u32::MAX`. -/
theorem BatchesFootprints.push_eq (b : BatchesFootprints) (msg : List UInt8) (newPage : Bool)
    (hnew : b.last.newPagesCount < u32Max) :
    b.push bits msg newPage =
      { b with footprints := b.footprints ++ [b.last.extend bits msg (if newPage then 1 else 0)] } := by
  have hmin : Nat.min (b.last.newPagesCount + 1) u32Max = b.last.newPagesCount + 1 := by
    rw [natMin_eq_min]
    omega
  unfold last at hmin ⊢
  cases newPage <;> simp [push, BatchFootprint.extend, hmin]

@[simp] theorem BatchesFootprints.last_append (b : BatchesFootprints) (fp : BatchFootprint) :
    BatchesFootprints.last { b with footprints := b.footprints ++ [fp] } = fp := by
  simp [last]

/-- The simulation of the two loops: from a cursor at the heap length of the open page,
with no more new pages in the last footprint than pages counted, and two rounds of fuel
per message, the predictor pushes exactly the footprints the enqueue would leave. -/
theorem footprintsLoop_eq (hlimit : totalPagesLimit < u32Max) :
    ∀ {msgs : List (List UInt8)} {fuel total : ℕ} {maybePage : Option Page} {b : BatchesFootprints},
      (∀ m ∈ msgs, ItemHeader.maxEncodedLen + m.length ≤ heapSize) → b.last.newPagesCount ≤ total →
      2 * msgs.length ≤ fuel →
      footprintsLoop heapSize bits totalPagesLimit fuel b false total (currentPagePos heapSize maybePage) msgs =
        some { b with
          footprints := b.footprints ++ predictedFootprints heapSize bits totalPagesLimit maybePage total b.last msgs }
  | [], fuel, total, maybePage, b, _, _, _ => by
    cases fuel <;> simp [footprintsLoop, predictedFootprints]
  | m :: msgs, fuel, total, maybePage, b, hfit, hprev, hfuel => by
    obtain ⟨fuel, rfl⟩ : ∃ f, fuel = f + 1 := ⟨fuel - 1, by simp at hfuel; omega⟩
    have hm := hfit m List.mem_cons_self
    have hrest : ∀ m' ∈ msgs, ItemHeader.maxEncodedLen + m'.length ≤ heapSize :=
      fun m' h => hfit m' (List.mem_cons_of_mem m h)
    by_cases hover : totalPagesLimit < total
    · -- already over the limit: nothing is pushed
      have hstop : totalPagesLimit < total + (if appendsTo heapSize maybePage m then 0 else 1) := by
        split <;> omega
      simp [footprintsLoop, predictedFootprints, hover, hstop]
    rw [footprintsLoop, if_neg hover, canAppendMessageAt_currentPagePos]
    cases happ : appendsTo heapSize maybePage m with
    | true =>
      -- the message goes into the open page
      simp only [if_true]
      rw [b.push_eq m false (by omega), footprintsLoop_eq hlimit hrest (by simpa [BatchFootprint.extend] using hprev)
        (by simp at hfuel; omega)]
      simp [predictedFootprints, happ, hover]
    | false =>
      -- a new page is counted, and the message is tried again at its start
      obtain ⟨fuel, rfl⟩ : ∃ f, fuel = f + 1 := ⟨fuel - 1, by simp at hfuel; omega⟩
      have hwrap : (total + 1) % 2 ^ 32 = total + 1 := Nat.mod_eq_of_lt (by simp only [u32Max] at hlimit; omega)
      simp only [Bool.false_eq_true, if_false]
      rw [footprintsLoop, hwrap]
      by_cases hfull : totalPagesLimit < total + 1
      · simp [hfull, predictedFootprints, happ]
      rw [if_neg hfull, canAppendMessageAt_zero hm, ← enqueueInto_of_not_appendsTo happ]
      simp only
      rw [b.push_eq m true (by omega), footprintsLoop_eq hlimit hrest (by simp [BatchFootprint.extend]; omega)
        (by simp at hfuel; omega)]
      simp [predictedFootprints, happ, hfull]

end Loop

/-! ## What the predicted footprints say -/

section Predicted

variable {heapSize bits totalPagesLimit : ℕ}

theorem pagesOpened_take_succ_cons (maybePage : Option Page) (m : List UInt8) (msgs : List (List UInt8)) (i : ℕ) :
    pagesOpened heapSize maybePage ((m :: msgs).take (i + 1)) =
      (if appendsTo heapSize maybePage m then 0 else 1) +
        pagesOpened heapSize (some (enqueueInto heapSize maybePage m)) (msgs.take i) := by
  simp [pagesOpened]

theorem length_predictedFootprints_le :
    ∀ {msgs : List (List UInt8)} {maybePage : Option Page} {total : ℕ} {previous : BatchFootprint},
      (predictedFootprints heapSize bits totalPagesLimit maybePage total previous msgs).length ≤ msgs.length
  | [], _, _, _ => by simp [predictedFootprints]
  | m :: msgs, maybePage, total, previous => by
    unfold predictedFootprints
    generalize (if appendsTo heapSize maybePage m then 0 else 1) = opened
    dsimp only
    split
    · simp
    · simpa using length_predictedFootprints_le

/-- Batch `i` is predicted exactly when the pages counted before, with those that
enqueueing `msgs[0..=i]` opens, stay within the limit. -/
theorem lt_length_predictedFootprints_iff :
    ∀ {msgs : List (List UInt8)} {maybePage : Option Page} {total : ℕ} {previous : BatchFootprint} {i : ℕ},
      i < msgs.length →
      (i < (predictedFootprints heapSize bits totalPagesLimit maybePage total previous msgs).length ↔
        total + pagesOpened heapSize maybePage (msgs.take (i + 1)) ≤ totalPagesLimit)
  | [], _, _, _, _, hi => absurd hi (by simp)
  | m :: msgs, maybePage, total, previous, i, hi => by
    rw [pagesOpened_take_succ_cons]
    unfold predictedFootprints
    generalize (if appendsTo heapSize maybePage m then 0 else 1) = opened
    dsimp only
    by_cases hstop : totalPagesLimit < total + opened
    · -- the batch stops here, and every longer one opens at least as many pages
      rw [if_pos hstop]
      simp only [List.length_nil, Nat.not_lt_zero, false_iff]
      omega
    rw [if_neg hstop]
    cases i with
    | zero => simp [pagesOpened]; omega
    | succ i =>
      have ih := @lt_length_predictedFootprints_iff msgs
        (some (enqueueInto heapSize maybePage m)) (total + opened) (previous.extend bits m opened) i
        (by simp at hi; omega)
      simp only [List.length_cons, Nat.add_lt_add_iff_right, ih]
      omega

/-- Batch `i` counts `i + 1` messages more than `previous`, their bytes, and the pages
enqueueing them opens, the counts saturating at `usize::MAX`. -/
theorem getElem?_predictedFootprints :
    ∀ {msgs : List (List UInt8)} {maybePage : Option Page} {total : ℕ} {previous : BatchFootprint} {i : ℕ},
      i < (predictedFootprints heapSize bits totalPagesLimit maybePage total previous msgs).length →
      (predictedFootprints heapSize bits totalPagesLimit maybePage total previous msgs)[i]? =
        some ⟨Nat.min (previous.msgsCount + (i + 1)) (2 ^ bits - 1),
          Nat.min (previous.sizeInBytes + ((msgs.take (i + 1)).map List.length).sum) (2 ^ bits - 1),
          previous.newPagesCount + pagesOpened heapSize maybePage (msgs.take (i + 1))⟩
  | [], _, _, _, _, hi => absurd hi (by simp [predictedFootprints])
  | m :: msgs, maybePage, total, previous, i, hi => by
    rw [pagesOpened_take_succ_cons]
    unfold predictedFootprints at hi ⊢
    generalize (if appendsTo heapSize maybePage m then 0 else 1) = opened at hi ⊢
    dsimp only at hi ⊢
    by_cases hstop : totalPagesLimit < total + opened
    · simp [hstop] at hi
    rw [if_neg hstop] at hi ⊢
    cases i with
    | zero => simp [BatchFootprint.extend, pagesOpened]
    | succ i =>
      rw [List.getElem?_cons_succ, getElem?_predictedFootprints (by simpa using hi)]
      -- saturating twice is saturating once
      simp only [BatchFootprint.extend, List.take_succ_cons, List.map_cons, List.sum_cons, natMin_eq_min,
        Option.some.injEq, BatchFootprint.mk.injEq]
      omega

end Predicted

/-! ## The pages `do_enqueue_messages` opens -/

section Enqueue

variable {c : Config O} {origin : O}

theorem enqueueStep_page (s : State O) (b : BookState O) (maybePage : Option Page) (message : List UInt8) :
    (enqueueStep c origin (s, b, maybePage) message).2.2 = some (enqueueInto c.heapSize maybePage message) := by
  unfold enqueueStep enqueueInto
  cases maybePage with
  | none => rfl
  | some page => cases h : page.tryAppendMessage c.heapSize message <;> simp [h]

theorem enqueueStep_end (s : State O) (b : BookState O) (maybePage : Option Page) (message : List UInt8) :
    (enqueueStep c origin (s, b, maybePage) message).2.1.end =
      if appendsTo c.heapSize maybePage message then b.end else Nat.min (b.end + 1) u32Max := by
  unfold enqueueStep appendsTo
  cases maybePage with
  | none => rfl
  | some page => cases h : page.tryAppendMessage c.heapSize message <;> simp [h]

/-- The run lemma of the enqueue loop: `end` grows by the pages opened, saturating at
`u32::MAX`. -/
theorem foldl_enqueueStep_end :
    ∀ (messages : List (List UInt8)) (s : State O) (b : BookState O) (maybePage : Option Page),
      b.end ≤ u32Max →
      (messages.foldl (enqueueStep c origin) (s, b, maybePage)).2.1.end =
        Nat.min (b.end + pagesOpened c.heapSize maybePage messages) u32Max
  | [], s, b, maybePage, hb => by
    simp [pagesOpened, hb]
  | m :: messages, s, b, maybePage, hb => by
    have hend := @enqueueStep_end O _ c origin s b maybePage m
    have hpage := @enqueueStep_page O _ c origin s b maybePage m
    rw [List.foldl_cons]
    rcases hstep : enqueueStep c origin (s, b, maybePage) m with ⟨s', b', maybePage'⟩
    rw [hstep] at hend hpage
    simp only at hend hpage
    subst hpage
    have hb' : b'.end ≤ u32Max := by
      rw [hend]
      split
      · exact hb
      · rw [natMin_eq_min]
        omega
    rw [foldl_enqueueStep_end messages s' b' _ hb', hend, pagesOpened]
    split <;> simp only [natMin_eq_min] <;> omega

theorem doEnqueueMessages_end (s : State O) (messages : List (List UInt8)) (hend : (s.book origin).end ≤ u32Max) :
    ((doEnqueueMessages c s origin messages).book origin).end =
      Nat.min ((s.book origin).end + pagesOpened c.heapSize (openPage s origin) messages) u32Max := by
  rw [← foldl_enqueueStep_end messages s (s.book origin) (openPage s origin) hend]
  unfold openPage
  rcases hfold : messages.foldl (enqueueStep c origin)
    (s, s.book origin, if (s.book origin).begin < (s.book origin).end then
      s.pages origin ((s.book origin).end - 1) else none) with ⟨s', b', maybePage'⟩
  simp only [doEnqueueMessages, hfold]
  -- knitting the ready ring touches only the neighbours, and the book is written last
  split <;> (try split) <;> simp

end Enqueue

/-! ## The prediction -/

omit [DecidableEq O] in
/-- `get_batches_footprints` starts its loop at the heap length of the page
`do_enqueue_messages` would append to, with the queue's pages counted. -/
theorem getBatchesFootprints_eq (c : Config O) (bits : ℕ) (s : State O) (origin : O)
    (msgs : List (List UInt8)) (totalPagesLimit fuel : ℕ) :
    getBatchesFootprints c bits s origin msgs totalPagesLimit fuel =
      footprintsLoop c.heapSize bits totalPagesLimit fuel
        ⟨((openPage s origin).map fun page => page.heap.length).getD 0, []⟩ false
        ((s.book origin).end - (s.book origin).begin) (currentPagePos c.heapSize (openPage s origin)) msgs := by
  unfold getBatchesFootprints openPage
  by_cases h : (s.book origin).begin < (s.book origin).end
  · cases hp : s.pages origin ((s.book origin).end - 1) <;> simp [h, hp, currentPagePos, heapPos]
  · have hempty : (s.book origin).end - (s.book origin).begin = 0 := by omega
    simp [h, currentPagePos, hempty]

/-- On a page that holds a header, for messages within `MaxMessageLen`, a limit below
`u32::MAX` and two rounds of fuel per message, `get_batches_footprints` returns one
footprint for every batch `msgs[0..=i]` whose pages, those of the queue and those that
enqueueing it opens, stay within the limit, stopping at the first that passes it; footprint
`i` counts the batch's messages, its bytes (both saturating at `usize::MAX`) and exactly
the pages `do_enqueue_messages` opens for it, by which the book's `end` grows; and the
batches start at the heap length of page `end - 1`. -/
theorem getBatchesFootprints_predicts_enqueue (c : Config O) (bits : ℕ) (s : State O) (origin : O)
    (msgs : List (List UInt8)) (totalPagesLimit fuel : ℕ)
    (hheader : ItemHeader.maxEncodedLen ≤ c.heapSize)
    (hmax : ∀ m ∈ msgs, m.length ≤ c.heapSize - ItemHeader.maxEncodedLen)
    (hlimit : totalPagesLimit < u32Max) (hend : (s.book origin).end ≤ u32Max)
    (hfuel : 2 * msgs.length ≤ fuel) :
    ∃ r, getBatchesFootprints c bits s origin msgs totalPagesLimit fuel = some r ∧
      r.footprints.length ≤ msgs.length ∧
      (∀ i < msgs.length, i < r.footprints.length ↔
        (s.book origin).end - (s.book origin).begin +
          pagesOpened c.heapSize (openPage s origin) (msgs.take (i + 1)) ≤ totalPagesLimit) ∧
      (∀ i < r.footprints.length, r.footprints[i]? =
        some ⟨Nat.min (i + 1) (2 ^ bits - 1), Nat.min ((msgs.take (i + 1)).map List.length).sum (2 ^ bits - 1),
          pagesOpened c.heapSize (openPage s origin) (msgs.take (i + 1))⟩) ∧
      (∀ i, ((doEnqueueMessages c s origin (msgs.take i)).book origin).end =
        Nat.min ((s.book origin).end + pagesOpened c.heapSize (openPage s origin) (msgs.take i)) u32Max) ∧
      ((s.book origin).begin < (s.book origin).end → ∀ page,
        s.pages origin ((s.book origin).end - 1) = some page → r.firstPagePos = page.heap.length) := by
  have hfit : ∀ m ∈ msgs, ItemHeader.maxEncodedLen + m.length ≤ c.heapSize := by
    intro m hm
    have := hmax m hm
    omega
  have hlast : (⟨((openPage s origin).map fun page => page.heap.length).getD 0, []⟩ : BatchesFootprints).last =
      BatchFootprint.default := rfl
  have hrun := @footprintsLoop_eq c.heapSize bits totalPagesLimit hlimit msgs fuel
    ((s.book origin).end - (s.book origin).begin) (openPage s origin)
    ⟨((openPage s origin).map fun page => page.heap.length).getD 0, []⟩ hfit (by rw [hlast]; exact Nat.zero_le _)
    hfuel
  rw [← getBatchesFootprints_eq, hlast] at hrun
  refine ⟨_, hrun, ?_, ?_, ?_, fun i => doEnqueueMessages_end s _ hend, ?_⟩
  · simpa using length_predictedFootprints_le
  · intro i hi
    simpa using lt_length_predictedFootprints_iff hi
  · intro i hi
    have hget := getElem?_predictedFootprints (by simpa using hi)
    simp only [BatchFootprint.default, Nat.zero_add] at hget
    exact hget
  · intro hlt page hpage
    simp [openPage, hlt, hpage]

theorem getBatchesFootprints_predicts_enqueue_two_messages :
    (ItemHeader.maxEncodedLen ≤ overweightConfig.heapSize ∧
      (∀ m ∈ ([[1], [2]] : List (List UInt8)), m.length ≤ overweightConfig.heapSize - ItemHeader.maxEncodedLen) ∧
      1 < u32Max ∧ ((State.empty : State ℕ).book 0).end ≤ u32Max ∧ 2 * ([[1], [2]] : List (List UInt8)).length ≤ 4) ∧
    ∃ r, getBatchesFootprints overweightConfig 32 State.empty 0 [[1], [2]] 1 4 = some r ∧ r.footprints.length ≤ 2 := by
  refine ⟨⟨by decide, by decide, by decide, by decide, by decide⟩, ?_⟩
  obtain ⟨r, hr, hlen, -⟩ := getBatchesFootprints_predicts_enqueue overweightConfig 32 State.empty 0 [[1], [2]] 1 4
    (by decide) (by decide) (by decide) (by decide) (by decide)
  exact ⟨r, hr, hlen⟩

/-- `overweightConfig` on a page of four bytes, too small for a header. -/
def tinyHeapConfig : Config ℕ := { overweightConfig with heapSize := 4 }

/-- With a four-byte page the only message within `MaxMessageLen` is empty; enqueueing it
opens one page, within a limit of one, but the predictor finds no room for it even at the
start of a new page and, after three rounds of its loop, returns no footprint. -/
theorem getBatchesFootprints_tiny_heap :
    ([] : List UInt8).length ≤ tinyHeapConfig.heapSize - ItemHeader.maxEncodedLen ∧
      ((doEnqueueMessages tinyHeapConfig State.empty 0 [[]]).book 0).end = 1 ∧
      getBatchesFootprints tinyHeapConfig 32 State.empty 0 [[]] 1 3 = some ⟨0, []⟩ :=
  ⟨by decide, by decide, rfl⟩

end PolkadotSdk.MessageQueue
