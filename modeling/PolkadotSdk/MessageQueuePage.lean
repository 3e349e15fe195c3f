import PolkadotSdk.MessageQueue

/-!
# Pages of the message queue

What the byte-level page functions read back: a decoded header is followed by the bytes
after its five, `Page::peek_index` returns a position where a header with the payload's
length and flag stands, and `Page::note_processed_at_pos` on an unprocessed header
takes one message off `remaining`.
-/

namespace PolkadotSdk.MessageQueue

/-- The saturating updates of the source are written with `Nat.min`; as `min` they are in
reach of `omega`. -/
theorem natMin_eq_min (a b : ℕ) : Nat.min a b = min a b := rfl

@[simp] theorem ItemHeader.length_encode (h : ItemHeader) :
    h.encode.length = ItemHeader.maxEncodedLen := rfl

/-- The header round trip, with the bytes after it left as they were: the four
little-endian bytes give back any length a `u32` holds. -/
theorem ItemHeader.decode_encode {h : ItemHeader} (hlen : h.payloadLen ≤ u32Max) (rest : List UInt8) :
    ItemHeader.decode (h.encode ++ rest) = some (h, rest) := by
  obtain ⟨n, b⟩ := h
  have hbool : ItemHeader.decodeBool (if b then 1 else 0) = some b := by cases b <;> rfl
  simp only [ItemHeader.encode, List.cons_append, List.nil_append, ItemHeader.decode, hbool,
    Option.map_some, UInt8.toNat_ofNat', Option.some.injEq, Prod.mk.injEq, ItemHeader.mk.injEq,
    and_true]
  -- the bytes reassemble to `n` because `n` has no bits above the fourth byte
  simp only [u32Max] at hlen
  simp only [Nat.reducePow]
  omega

theorem ItemHeader.decode_rest {l rest : List UInt8} {h : ItemHeader}
    (hd : ItemHeader.decode l = some (h, rest)) : rest = l.drop ItemHeader.maxEncodedLen := by
  match l, hd with
  | _ :: _ :: _ :: _ :: p :: rest', hd =>
    simp only [ItemHeader.decode, Option.map_eq_some_iff, Prod.mk.injEq] at hd
    obtain ⟨_, _, _, rfl⟩ := hd
    rfl

/-! ## The heap as a list of items -/

/-- A message as it stands in the heap: the payload after a header that carries its
length and its processed flag. -/
structure Item where
  payload : List UInt8
  isProcessed : Bool
  deriving DecidableEq, Repr

namespace Item

/-- The header written before the payload. -/
def header (it : Item) : ItemHeader := ⟨it.payload.length, it.isProcessed⟩

/-- The bytes of the item: its header, then its payload. -/
def encode (it : Item) : List UInt8 := it.header.encode ++ it.payload

/-- The bytes the item takes in the heap, `header_len + payload_len`. -/
def size (it : Item) : ℕ := ItemHeader.maxEncodedLen + it.payload.length

/-- The unprocessed item that `from_message` and `try_append_message` write. -/
def ofMessage (message : List UInt8) : Item := ⟨message, false⟩

/-- The item with its header rewritten to say processed. -/
def markProcessed (it : Item) : Item := { it with isProcessed := true }

/-- What the item adds to `remaining_size`: its payload length while unprocessed. -/
def remainingSize (it : Item) : ℕ := if it.isProcessed then 0 else it.payload.length

@[simp] theorem length_encode (it : Item) : it.encode.length = it.size := by
  simp [encode, size]

@[simp] theorem markProcessed_payload (it : Item) : it.markProcessed.payload = it.payload := rfl

theorem markProcessed_of_isProcessed {it : Item} (h : it.isProcessed = true) :
    it.markProcessed = it := by
  cases it
  simp_all [markProcessed]

theorem header_markProcessed (it : Item) :
    it.markProcessed.header = { it.header with isProcessed := true } := rfl

end Item

/-- The heap that holds `items` one after another. -/
def encodeItems (items : List Item) : List UInt8 := items.flatMap Item.encode

/-- The heap offset of item `i`: the sizes of the items before it. -/
def itemPos (items : List Item) (i : ℕ) : ℕ := ((items.take i).map Item.size).sum

/-- The number of items whose header says unprocessed. -/
def remainingOf (items : List Item) : ℕ := items.countP fun it => !it.isProcessed

/-- The total payload length of the unprocessed items. -/
def remainingSizeOf (items : List Item) : ℕ := (items.map Item.remainingSize).sum

section Items

variable {items more : List Item} {it : Item} {i : ℕ}

@[simp] theorem encodeItems_nil : encodeItems [] = [] := rfl

@[simp] theorem encodeItems_cons : encodeItems (it :: items) = it.encode ++ encodeItems items := rfl

@[simp] theorem encodeItems_append : encodeItems (items ++ more) = encodeItems items ++ encodeItems more := by
  simp [encodeItems]

theorem length_encodeItems : (encodeItems items).length = (items.map Item.size).sum := by
  induction items with
  | nil => rfl
  | cons it items ih => simp [ih]

@[simp] theorem itemPos_zero : itemPos items 0 = 0 := by simp [itemPos]

@[simp] theorem itemPos_nil : itemPos [] i = 0 := by simp [itemPos]

@[simp] theorem itemPos_cons_succ : itemPos (it :: items) (i + 1) = it.size + itemPos items i := by
  simp [itemPos]

theorem itemPos_succ (hi : i < items.length) : itemPos items (i + 1) = itemPos items i + items[i].size := by
  simp only [itemPos, List.map_take]
  exact List.sum_take_succ _ i (by simpa using hi) |>.trans (by simp)

theorem itemPos_length : itemPos items items.length = (encodeItems items).length := by
  simp [itemPos, length_encodeItems]

theorem itemPos_lt_succ (hi : i < items.length) : itemPos items i < itemPos items (i + 1) := by
  rw [itemPos_succ hi]
  simp [Item.size, ItemHeader.maxEncodedLen]

theorem itemPos_le_itemPos {j : ℕ} (hij : i ≤ j) : itemPos items i ≤ itemPos items j := by
  obtain ⟨d, rfl⟩ := Nat.exists_eq_add_of_le hij
  simp only [itemPos, List.take_add, List.map_append, List.sum_append]
  omega

theorem itemPos_le_length (i : ℕ) : itemPos items i ≤ (encodeItems items).length := by
  rcases Nat.le_total i items.length with hi | hi
  · exact (itemPos_le_itemPos hi).trans itemPos_length.le
  · simp [itemPos, List.take_of_length_le hi, length_encodeItems]

theorem itemPos_append_left (hi : i ≤ items.length) : itemPos (items ++ more) i = itemPos items i := by
  simp [itemPos, List.take_append_of_le_length hi]

/-- Every item takes at least one byte, so there are no more items than heap bytes. -/
theorem length_le_length_encodeItems : items.length ≤ (encodeItems items).length := by
  induction items with
  | nil => simp
  | cons it items ih => simp [Item.size, ItemHeader.maxEncodedLen]; omega

theorem size_le_length_encodeItems (hit : it ∈ items) : it.size ≤ (encodeItems items).length := by
  rw [length_encodeItems]
  exact List.le_sum_of_mem (List.mem_map_of_mem hit)

/-- Cutting the heap at an item offset cuts the items there. -/
theorem drop_itemPos (items : List Item) (i : ℕ) :
    (encodeItems items).drop (itemPos items i) = encodeItems (items.drop i) := by
  induction items generalizing i with
  | nil => simp
  | cons it items ih =>
    cases i with
    | zero => simp
    | succ i => simp [List.drop_append, Item.length_encode, ih]

theorem take_itemPos (items : List Item) (i : ℕ) :
    (encodeItems items).take (itemPos items i) = encodeItems (items.take i) := by
  induction items generalizing i with
  | nil => simp
  | cons it items ih =>
    cases i with
    | zero => simp
    | succ i =>
      simp only [encodeItems_cons, itemPos_cons_succ, List.take_append, List.take_succ_cons]
      rw [List.take_of_length_le (by simp), Item.length_encode, Nat.add_sub_cancel_left, ih]

/-- The header of item `i` decodes at its offset, followed by its payload and the items
after it. -/
theorem decode_drop_itemPos (hi : i < items.length) (hlen : items[i].payload.length ≤ u32Max) :
    ItemHeader.decode ((encodeItems items).drop (itemPos items i)) =
      some (items[i].header, items[i].payload ++ encodeItems (items.drop (i + 1))) := by
  rw [drop_itemPos, List.drop_eq_getElem_cons hi, encodeItems_cons, Item.encode, List.append_assoc]
  exact ItemHeader.decode_encode hlen _

/-- Past the last item the heap is empty and no header decodes. -/
theorem decode_drop_itemPos_of_le (hi : items.length ≤ i) :
    ItemHeader.decode ((encodeItems items).drop (itemPos items i)) = none := by
  rw [drop_itemPos, List.drop_of_length_le hi]
  rfl

/-- Rewriting the header of item `i` to say processed is marking item `i`. -/
theorem markProcessed_encodeItems (hi : i < items.length) :
    Page.markProcessed (encodeItems items) (itemPos items i) items[i].header =
      encodeItems (items.modify i Item.markProcessed) := by
  have htail : (encodeItems items).drop (itemPos items i + ItemHeader.maxEncodedLen) =
      items[i].payload ++ encodeItems (items.drop (i + 1)) := by
    rw [← List.drop_drop, drop_itemPos, List.drop_eq_getElem_cons hi, encodeItems_cons, Item.encode,
      List.append_assoc, List.drop_left' (ItemHeader.length_encode _)]
  rw [Page.markProcessed, take_itemPos, htail, List.modify_eq_take_cons_drop hi, encodeItems_append,
    encodeItems_cons, Item.encode, Item.header_markProcessed]
  simp

theorem remainingOf_le : remainingOf items ≤ items.length := List.countP_le_length

theorem remainingSizeOf_le : remainingSizeOf items ≤ (encodeItems items).length := by
  induction items with
  | nil => simp [remainingSizeOf]
  | cons it items ih =>
    simp only [remainingSizeOf, List.map_cons, List.sum_cons, encodeItems_cons, List.length_append,
      Item.length_encode] at ih ⊢
    have : it.remainingSize ≤ it.size := by
      unfold Item.remainingSize Item.size
      split <;> omega
    omega

/-- The items as the prefix before item `i`, item `i`, and the rest. -/
theorem eq_take_append_getElem_cons_drop (hi : i < items.length) :
    items = items.take i ++ items[i] :: items.drop (i + 1) := by
  rw [List.getElem_cons_drop, List.take_append_drop]

/-- Marking an unprocessed item takes it off the count. -/
theorem remainingOf_modify (hi : i < items.length) (hp : items[i].isProcessed = false) :
    remainingOf (items.modify i Item.markProcessed) + 1 = remainingOf items := by
  have hsplit := congrArg remainingOf (eq_take_append_getElem_cons_drop hi)
  rw [hsplit, List.modify_eq_take_cons_drop hi]
  simp only [remainingOf, List.countP_append, List.countP_cons, hp, Item.markProcessed]
  simp only [Bool.not_true, Bool.not_false, Bool.false_eq_true, if_false, if_true]
  omega

/-- Marking an unprocessed item takes its payload off the total. -/
theorem remainingSizeOf_modify (hi : i < items.length) (hp : items[i].isProcessed = false) :
    remainingSizeOf (items.modify i Item.markProcessed) + items[i].payload.length = remainingSizeOf items := by
  have hsplit := congrArg remainingSizeOf (eq_take_append_getElem_cons_drop hi)
  rw [hsplit, List.modify_eq_take_cons_drop hi]
  simp only [remainingSizeOf, List.map_append, List.map_cons, List.sum_append, List.sum_cons,
    Item.remainingSize, hp, Item.markProcessed]
  simp only [Bool.false_eq_true, if_false, if_true]
  omega

/-- Marking an item that is already processed changes nothing. -/
theorem modify_markProcessed_of_isProcessed (hp : ∀ h : i < items.length, items[i].isProcessed = true) :
    items.modify i Item.markProcessed = items := by
  rcases Nat.lt_or_ge i items.length with hi | hi
  · rw [List.modify_eq_take_cons_drop hi, Item.markProcessed_of_isProcessed (hp hi),
      ← eq_take_append_getElem_cons_drop hi]
  · exact List.modify_eq_self hi

theorem map_size_eq_map_payload (items : List Item) :
    items.map Item.size = (items.map Item.payload).map fun p => ItemHeader.maxEncodedLen + p.length := by
  simp [Item.size, Function.comp_def]

@[simp] theorem map_payload_modify_markProcessed :
    (items.modify i Item.markProcessed).map Item.payload = items.map Item.payload := by
  induction items generalizing i with
  | nil => simp
  | cons it items ih =>
    cases i with
    | zero => simp [List.modify_zero_cons]
    | succ i => simp [List.modify_succ_cons, ih]

theorem map_size_modify_markProcessed :
    (items.modify i Item.markProcessed).map Item.size = items.map Item.size := by
  rw [map_size_eq_map_payload, map_payload_modify_markProcessed, ← map_size_eq_map_payload]

/-- Marking changes no size, so no offset. -/
@[simp] theorem itemPos_modify_markProcessed {j : ℕ} :
    itemPos (items.modify j Item.markProcessed) i = itemPos items i := by
  rw [itemPos, List.map_take, map_size_modify_markProcessed, ← List.map_take, itemPos]

@[simp] theorem length_encodeItems_modify_markProcessed :
    (encodeItems (items.modify i Item.markProcessed)).length = (encodeItems items).length := by
  rw [length_encodeItems, map_size_modify_markProcessed, length_encodeItems]

end Items

namespace Page

theorem peekIndexFrom_header {heap payload : List UInt8} {b : Bool} {index : ℕ} :
    ∀ {pos p : ℕ}, peekIndexFrom (heap.drop pos) pos index = some (p, b, payload) →
      ∃ rest, ItemHeader.decode (heap.drop p) = some (⟨payload.length, b⟩, rest) := by
  induction index with
  | zero =>
    intro pos p h
    unfold peekIndexFrom at h
    split at h
    · cases h
    rename_i hd itemSlice hdec
    split at h
    · cases h
    rename_i hlen
    simp only [Option.some.injEq, Prod.mk.injEq] at h
    obtain ⟨rfl, rfl, rfl⟩ := h
    refine ⟨itemSlice, ?_⟩
    rw [hdec, List.length_take, Nat.min_eq_left (Nat.le_of_not_lt hlen)]
  | succ index ih =>
    intro pos p h
    unfold peekIndexFrom at h
    split at h
    · cases h
    rename_i hd itemSlice hdec
    split at h
    · cases h
    have hslice : itemSlice.drop hd.payloadLen = heap.drop (pos + (ItemHeader.maxEncodedLen + hd.payloadLen)) := by
      rw [ItemHeader.decode_rest hdec, List.drop_drop, List.drop_drop]
    rw [hslice] at h
    exact ih h

theorem peekIndex_header {page : Page} {index p : ℕ} {b : Bool} {payload : List UInt8}
    (h : page.peekIndex index = some (p, b, payload)) :
    ∃ rest, ItemHeader.decode (page.heap.drop p) = some (⟨payload.length, b⟩, rest) :=
  @peekIndexFrom_header page.heap payload b index 0 p (by simpa [peekIndex] using h)

theorem noteProcessedAtPos_remaining {page : Page} {pos len : ℕ} {rest : List UInt8}
    (h : ItemHeader.decode (page.heap.drop pos) = some (⟨len, false⟩, rest)) :
    (page.noteProcessedAtPos pos).remaining = page.remaining - 1 := by
  simp [noteProcessedAtPos, h]

/-- `peek_index` walks a heap laid out as `items`: item `index` is found at its offset,
with its flag and payload, and past the last item there is none. -/
theorem peekIndexFrom_encodeItems {items : List Item} (hfit : ∀ it ∈ items, it.payload.length ≤ u32Max) :
    ∀ {pos index : ℕ}, peekIndexFrom (encodeItems items) pos index =
      items[index]?.map fun it => (pos + itemPos items index, it.isProcessed, it.payload) := by
  induction items with
  | nil =>
    intro pos index
    cases index <;> rfl
  | cons it items ih =>
    intro pos index
    have hdec : ItemHeader.decode (encodeItems (it :: items)) =
        some (it.header, it.payload ++ encodeItems items) := by
      rw [encodeItems_cons, Item.encode, List.append_assoc]
      exact ItemHeader.decode_encode (hfit it List.mem_cons_self) _
    cases index with
    | zero =>
      rw [peekIndexFrom, hdec]
      simp [Item.header]
    | succ index =>
      rw [peekIndexFrom, hdec]
      simp [Item.header, ih fun it' h => hfit it' (List.mem_cons_of_mem it h), Item.size, Nat.add_assoc]

/-- `try_append_message` succeeds exactly when the header and the payload fit after the
heap. -/
theorem tryAppendMessage_isSome_iff {heapSize : ℕ} {page : Page} {message : List UInt8} :
    (page.tryAppendMessage heapSize message).isSome ↔
      page.heap.length + (ItemHeader.maxEncodedLen + message.length) ≤ heapSize := by
  by_cases hfit : page.heap.length + (ItemHeader.maxEncodedLen + message.length) ≤ heapSize <;>
    simp [tryAppendMessage, canAppendMessageAt, heapPos, hfit]

/-- When the message fits, `try_append_message` writes it after the heap, untruncated. -/
theorem tryAppendMessage_of_le {heapSize : ℕ} {page : Page} {message : List UInt8}
    (hfit : page.heap.length + (ItemHeader.maxEncodedLen + message.length) ≤ heapSize) :
    page.tryAppendMessage heapSize message = some { page with
      heap := page.heap ++ (Item.ofMessage message).encode
      last := Nat.min page.heap.length u32Max
      remaining := Nat.min (page.remaining + 1) u32Max
      remainingSize := Nat.min (page.remainingSize + message.length) u32Max } := by
  simp [tryAppendMessage, canAppendMessageAt, heapPos, hfit, Item.encode, Item.header, Item.ofMessage]

/-! ## The layout invariant -/

/-- `page` holds `items`: its heap is their layout and fits the page, its counters count
the unprocessed ones, `first` is the offset of item `first_index` and `last` that of the
last item. -/
structure Holds (heapSize : ℕ) (page : Page) (items : List Item) : Prop where
  heapSize_le : heapSize ≤ u32Max
  heap_eq : page.heap = encodeItems items
  heap_le : page.heap.length ≤ heapSize
  ne_nil : items ≠ []
  remaining_eq : page.remaining = remainingOf items
  remainingSize_eq : page.remainingSize = remainingSizeOf items
  firstIndex_le : page.firstIndex ≤ items.length
  first_eq : page.first = itemPos items page.firstIndex
  last_eq : page.last = itemPos items (items.length - 1)

namespace Holds

variable {heapSize : ℕ} {page : Page} {items : List Item}

theorem length_encodeItems_le (h : Holds heapSize page items) : (encodeItems items).length ≤ u32Max :=
  h.heap_eq ▸ h.heap_le.trans h.heapSize_le

theorem payload_le (h : Holds heapSize page items) : ∀ it ∈ items, it.payload.length ≤ u32Max := by
  intro it hit
  have := size_le_length_encodeItems hit
  have := h.length_encodeItems_le
  simp only [Item.size] at *
  omega

theorem first_le_length (h : Holds heapSize page items) : page.first ≤ page.heap.length := by
  rw [h.first_eq, h.heap_eq]
  exact itemPos_le_length _

/-- `first` has not passed `last` exactly while an item is left to service. -/
theorem first_le_last_iff (h : Holds heapSize page items) :
    page.first ≤ page.last ↔ page.firstIndex < items.length := by
  have hpos : 0 < items.length := List.length_pos_iff.mpr h.ne_nil
  rw [h.first_eq, h.last_eq]
  constructor
  · intro hle
    refine Nat.lt_of_le_of_ne h.firstIndex_le fun hend => ?_
    -- past the last item, `first` is one item beyond `last`
    have hstep : itemPos items (items.length - 1) < itemPos items (items.length - 1 + 1) :=
      itemPos_lt_succ (by omega)
    rw [Nat.sub_add_cancel hpos] at hstep
    rw [hend] at hle
    omega
  · intro hlt
    exact itemPos_le_itemPos (by omega)

theorem peekFirst_eq (h : Holds heapSize page items) :
    page.peekFirst = items[page.firstIndex]?.map Item.payload := by
  unfold peekFirst
  rw [natMin_eq_min, min_eq_left h.first_le_length]
  rcases Nat.lt_or_ge page.firstIndex items.length with hi | hi
  · have hle := h.first_le_last_iff.mpr hi
    have hdec := decode_drop_itemPos hi (h.payload_le _ (List.getElem_mem hi))
    rw [h.heap_eq, h.first_eq, if_neg (Nat.not_lt.mpr (h.first_eq ▸ hle)), hdec]
    simp [Item.header, List.getElem?_eq_getElem hi]
  · have hlt : page.last < page.first := Nat.lt_of_not_le fun hle => by
      have := h.first_le_last_iff.mp hle
      omega
    simp [hlt, List.getElem?_eq_none hi]

theorem peekIndex_eq (h : Holds heapSize page items) (index : ℕ) :
    page.peekIndex index = items[index]?.map fun it => (itemPos items index, it.isProcessed, it.payload) := by
  simp [peekIndex, h.heap_eq, peekIndexFrom_encodeItems h.payload_le]

/-- `from_message` leaves a page that holds its one message. -/
theorem fromMessage {message : List UInt8} (hsize : heapSize ≤ u32Max)
    (hfit : ItemHeader.maxEncodedLen + message.length ≤ heapSize) :
    Holds heapSize (Page.fromMessage heapSize message) [Item.ofMessage message] where
  heapSize_le := hsize
  heap_eq := by
    simp [Page.fromMessage, encodeItems, Item.encode, Item.header, Item.ofMessage, List.take_of_length_le, hfit]
  heap_le := by simp [Page.fromMessage]
  ne_nil := by simp
  remaining_eq := by simp [Page.fromMessage, remainingOf, Item.ofMessage]
  remainingSize_eq := by simp [Page.fromMessage, remainingSizeOf, Item.remainingSize, Item.ofMessage]
  firstIndex_le := by simp [Page.fromMessage]
  first_eq := by simp [Page.fromMessage]
  last_eq := by simp [Page.fromMessage]

/-- An append that succeeds adds the message as the last item. -/
theorem tryAppendMessage (h : Holds heapSize page items) {message : List UInt8} {page' : Page}
    (happ : page.tryAppendMessage heapSize message = some page') :
    Holds heapSize page' (items ++ [Item.ofMessage message]) := by
  have hfit := tryAppendMessage_isSome_iff.mp (Option.isSome_of_eq_some happ)
  rw [tryAppendMessage_of_le hfit, Option.some.injEq] at happ
  subst happ
  -- the heap only grows, and it stays within `heapSize ≤ u32Max`, so no counter saturates
  have hcount : remainingOf items ≤ items.length := remainingOf_le
  have hbytes : remainingSizeOf items ≤ (encodeItems items).length := remainingSizeOf_le
  have hmany : items.length ≤ (encodeItems items).length := length_le_length_encodeItems
  have hsize := h.heapSize_le
  rw [h.heap_eq] at hfit
  have hheader : 0 < ItemHeader.maxEncodedLen := by decide
  simp only [natMin_eq_min]
  refine ⟨hsize, ?_, ?_, by simp, ?_, ?_, ?_, ?_, ?_⟩
  · simp [h.heap_eq, encodeItems]
  · simpa [h.heap_eq, Item.size, Item.ofMessage, Nat.add_assoc] using hfit
  · simp only [remainingOf, List.countP_append, h.remaining_eq] at hcount ⊢
    simp [Item.ofMessage]
    omega
  · simp only [remainingSizeOf, List.map_append, List.sum_append, h.remainingSize_eq] at hbytes ⊢
    simp [Item.ofMessage, Item.remainingSize]
    omega
  · simp only [List.length_append]
    have := h.firstIndex_le
    omega
  · rw [h.first_eq, itemPos_append_left h.firstIndex_le]
  · simp only [List.length_append, List.length_singleton, Nat.add_sub_cancel,
      itemPos_append_left (Nat.le_refl _), itemPos_length, h.heap_eq]
    omega

/-- Marking item `i`, as `skip_first` and `note_processed_at_pos` do when its header says
unprocessed, leaves the page holding the items with item `i` marked. -/
theorem markItem (h : Holds heapSize page items) {i : ℕ} (hi : i < items.length) :
    Holds heapSize
      (if !items[i].header.isProcessed then
        { page with
          heap := markProcessed page.heap (itemPos items i) items[i].header
          remaining := page.remaining - 1
          remainingSize := page.remainingSize - items[i].header.payloadLen }
      else page)
      (items.modify i Item.markProcessed) := by
  cases hp : items[i].isProcessed with
  | true =>
    rw [modify_markProcessed_of_isProcessed fun _ => hp]
    simpa [Item.header, hp] using h
  | false =>
    have hcount := remainingOf_modify hi hp
    have hbytes := remainingSizeOf_modify hi hp
    have hheap : markProcessed page.heap (itemPos items i) items[i].header =
        encodeItems (items.modify i Item.markProcessed) := by
      rw [h.heap_eq]
      exact markProcessed_encodeItems hi
    simp only [Item.header, hp] at hheap
    simp only [Item.header, hp, Bool.not_false, if_true]
    refine ⟨h.heapSize_le, hheap, ?_, ?_, ?_, ?_, ?_, ?_, ?_⟩ <;> try dsimp only
    · rw [hheap, length_encodeItems_modify_markProcessed, ← h.heap_eq]
      exact h.heap_le
    · simpa [← List.length_pos_iff] using List.length_pos_iff.mpr h.ne_nil
    · rw [h.remaining_eq]
      omega
    · rw [h.remainingSize_eq]
      omega
    · simpa using h.firstIndex_le
    · rw [itemPos_modify_markProcessed]
      exact h.first_eq
    · rw [List.length_modify, itemPos_modify_markProcessed]
      exact h.last_eq

theorem min_first_length (h : Holds heapSize page items) :
    Nat.min page.first page.heap.length = page.first :=
  Nat.min_eq_left h.first_le_length

/-- Stepping `first` past item `first_index`, as `skip_first` does: its saturating adds
never saturate on a heap of at most `u32Max` bytes. -/
theorem advance (h : Holds heapSize page items) (hi : page.firstIndex < items.length) {len : ℕ}
    (hlen : len = items[page.firstIndex].payload.length) :
    Holds heapSize
      { page with
        first := Nat.min (Nat.min (page.first + ItemHeader.maxEncodedLen) u32Max + len) u32Max
        firstIndex := Nat.min (page.firstIndex + 1) u32Max }
      items := by
  have hnext := itemPos_succ hi
  have hend : itemPos items (page.firstIndex + 1) ≤ (encodeItems items).length := itemPos_le_length _
  have hmany : items.length ≤ (encodeItems items).length := length_le_length_encodeItems
  have hbound := h.length_encodeItems_le
  have hfirst := h.first_eq
  have hindex : min (page.firstIndex + 1) u32Max = page.firstIndex + 1 := by
    have : page.firstIndex + 1 ≤ u32Max := by omega
    exact min_eq_left this
  simp only [Item.size] at hnext
  refine ⟨h.heapSize_le, h.heap_eq, h.heap_le, h.ne_nil, h.remaining_eq, h.remainingSize_eq, ?_, ?_,
    h.last_eq⟩ <;> dsimp only <;> simp only [natMin_eq_min, hindex]
  · exact hi
  · have hsum : page.first + ItemHeader.maxEncodedLen + len = itemPos items (page.firstIndex + 1) := by
      rw [hfirst, hnext, hlen, Nat.add_assoc]
    have hfits : itemPos items (page.firstIndex + 1) ≤ u32Max := hend.trans hbound
    rw [min_eq_left (show page.first + ItemHeader.maxEncodedLen ≤ u32Max by omega), min_eq_left (by omega), hsum]

/-- `skip_first(b)` steps past item `first_index`, marking it when `b`; past the last
item it changes nothing. -/
theorem skipFirst (h : Holds heapSize page items) (b : Bool) :
    Holds heapSize (page.skipFirst b) (if b then items.modify page.firstIndex Item.markProcessed else items) := by
  rcases Nat.lt_or_ge page.firstIndex items.length with hi | hi
  · have hdec := decode_drop_itemPos hi (h.payload_le _ (List.getElem_mem hi))
    rw [← h.heap_eq, ← h.first_eq] at hdec
    unfold Page.skipFirst
    dsimp only
    rw [h.min_first_length, hdec]
    cases b with
    | false => exact h.advance hi rfl
    | true =>
      -- marking keeps `first` and `first_index`, so the step past the item follows
      have hm := h.markItem hi
      rw [← h.first_eq] at hm
      rw [if_pos rfl]
      exact hm.advance (by split <;> simpa using hi) (by split <;> simp [Item.header])
  · have hdec := decode_drop_itemPos_of_le hi
    rw [← h.heap_eq, ← h.first_eq] at hdec
    have hstay : page.skipFirst b = page := by
      unfold Page.skipFirst
      dsimp only
      rw [h.min_first_length, hdec]
    rw [hstay, List.modify_eq_self hi, ite_self]
    exact h

/-- `note_processed_at_pos` at the offset of item `i` marks item `i`. -/
theorem noteProcessedAtPos (h : Holds heapSize page items) {i : ℕ} (hi : i < items.length) :
    Holds heapSize (page.noteProcessedAtPos (itemPos items i)) (items.modify i Item.markProcessed) := by
  have hdec := decode_drop_itemPos hi (h.payload_le _ (List.getElem_mem hi))
  rw [← h.heap_eq] at hdec
  unfold Page.noteProcessedAtPos
  rw [hdec]
  exact h.markItem hi

end Holds

/-! ## Filling a page -/

/-- `try_append_message` for each message in turn; `none` at the first that does not fit. -/
def appendMessages (heapSize : ℕ) (page : Page) : List (List UInt8) → Option Page
  | [] => some page
  | message :: messages =>
    (page.tryAppendMessage heapSize message).bind fun page => appendMessages heapSize page messages

/-- `Page::from_message(m_0)`, then `try_append_message(m_i)` for the other messages. -/
def fromMessages (heapSize : ℕ) : List (List UInt8) → Option Page
  | [] => none
  | message :: messages => appendMessages heapSize (fromMessage heapSize message) messages

theorem Holds.appendMessages {heapSize : ℕ} :
    ∀ {page page' : Page} {items : List Item} {messages : List (List UInt8)},
      Holds heapSize page items → appendMessages heapSize page messages = some page' →
        Holds heapSize page' (items ++ messages.map Item.ofMessage)
  | page, page', items, [], h, happ => by
    simp only [Page.appendMessages, Option.some.injEq] at happ
    subst happ
    simpa using h
  | page, page', items, m :: messages, h, happ => by
    simp only [Page.appendMessages, Option.bind_eq_some_iff] at happ
    obtain ⟨page₁, h₁, happ⟩ := happ
    have := (h.tryAppendMessage h₁).appendMessages happ
    simpa using this

/-- A page filled from messages that each fit under `MaxMessageLen` holds them, in order
and unprocessed. -/
theorem holds_fromMessages {heapSize : ℕ} {messages : List (List UInt8)} {page : Page}
    (hheader : ItemHeader.maxEncodedLen ≤ heapSize) (hsize : heapSize ≤ u32Max)
    (hmax : ∀ m ∈ messages, m.length ≤ heapSize - ItemHeader.maxEncodedLen)
    (hfill : fromMessages heapSize messages = some page) :
    Holds heapSize page (messages.map Item.ofMessage) := by
  match messages, hfill with
  | m :: ms, hfill =>
    have hfirst : ItemHeader.maxEncodedLen + m.length ≤ heapSize := by
      have := hmax m List.mem_cons_self
      omega
    simpa using (Holds.fromMessage hsize hfirst).appendMessages hfill

end Page

theorem length_encodeItems_ofMessage (messages : List (List UInt8)) :
    (encodeItems (messages.map Item.ofMessage)).length =
      ItemHeader.maxEncodedLen * messages.length + (messages.map List.length).sum := by
  induction messages with
  | nil => rfl
  | cons m messages ih =>
    simp only [List.map_cons, encodeItems_cons, List.length_append, Item.length_encode, ih, List.length_cons,
      List.sum_cons]
    simp only [Item.size, Item.ofMessage, Nat.mul_succ]
    omega

theorem itemPos_ofMessage (messages : List (List UInt8)) (i : ℕ) :
    itemPos (messages.map Item.ofMessage) i =
      ((messages.take i).map fun m => ItemHeader.maxEncodedLen + m.length).sum := by
  simp [itemPos, List.map_take, Function.comp_def, Item.size, Item.ofMessage]

theorem remainingOf_ofMessage (messages : List (List UInt8)) :
    remainingOf (messages.map Item.ofMessage) = messages.length := by
  simp [remainingOf, List.countP_map, Function.comp_def, Item.ofMessage]

theorem remainingSizeOf_ofMessage (messages : List (List UInt8)) :
    remainingSizeOf (messages.map Item.ofMessage) = (messages.map List.length).sum := by
  simp [remainingSizeOf, Function.comp_def, Item.remainingSize, Item.ofMessage]

/-! ## Runs of page operations -/

/-- The operations that service a page and execute overweight messages on it:
`skip_first(is_processed)`, and `note_processed_at_pos` at the position that
`peek_index(index)` returns. -/
inductive PageOp
  | skipFirst (isProcessed : Bool)
  | noteProcessedAt (index : ℕ)
  deriving DecidableEq, Repr

namespace PageOp

/-- One operation on a page. -/
def apply (page : Page) : PageOp → Page
  | skipFirst isProcessed => page.skipFirst isProcessed
  | noteProcessedAt index =>
    match page.peekIndex index with
    | some (pos, _, _) => page.noteProcessedAtPos pos
    | none => page

/-- A run of operations, one after another. -/
def run (page : Page) (ops : List PageOp) : Page := ops.foldl apply page

/-- What an operation does to the items of a page: it marks one of them, or none. -/
def marks (page : Page) : PageOp → List Item → List Item
  | skipFirst isProcessed, items =>
    if isProcessed then items.modify page.firstIndex Item.markProcessed else items
  | noteProcessedAt index, items => items.modify index Item.markProcessed

variable {heapSize : ℕ} {page : Page} {items : List Item}

@[simp] theorem map_payload_marks (op : PageOp) :
    (marks page op items).map Item.payload = items.map Item.payload := by
  cases op with
  | skipFirst isProcessed => cases isProcessed <;> simp [marks]
  | noteProcessedAt index => simp [marks]

/-- The step lemma: every operation keeps the layout invariant. -/
theorem holds_apply (h : page.Holds heapSize items) (op : PageOp) :
    (apply page op).Holds heapSize (marks page op items) := by
  cases op with
  | skipFirst isProcessed => exact h.skipFirst isProcessed
  | noteProcessedAt index =>
    rw [apply, h.peekIndex_eq index]
    rcases Nat.lt_or_ge index items.length with hi | hi
    · rw [List.getElem?_eq_getElem hi]
      exact h.noteProcessedAtPos hi
    · rw [List.getElem?_eq_none hi, marks, List.modify_eq_self hi]
      exact h

/-- The run lemma: after any run the page holds the same payloads, some of them marked. -/
theorem holds_run (h : page.Holds heapSize items) (ops : List PageOp) :
    ∃ items', (run page ops).Holds heapSize items' ∧ items'.map Item.payload = items.map Item.payload := by
  induction ops generalizing page items with
  | nil => exact ⟨items, h, rfl⟩
  | cons op ops ih =>
    obtain ⟨items', h', hpayload⟩ := ih (holds_apply h op)
    exact ⟨items', h', hpayload.trans (map_payload_marks op)⟩

end PageOp

section Filled

variable {heapSize : ℕ} {messages : List (List UInt8)}

/-- Appending message `i` to the page of the messages before it succeeds exactly when the
heap it leaves, `header_len * (i + 1) + Σ_{j ≤ i} |m_j|` bytes, fits. -/
theorem tryAppendMessage_fromMessages_isSome_iff {i : ℕ} {page : Page}
    (hheader : ItemHeader.maxEncodedLen ≤ heapSize) (hsize : heapSize ≤ u32Max)
    (hmax : ∀ m ∈ messages, m.length ≤ heapSize - ItemHeader.maxEncodedLen) (hi : i < messages.length)
    (hpage : Page.fromMessages heapSize (messages.take i) = some page) :
    (page.tryAppendMessage heapSize messages[i]).isSome ↔
      ItemHeader.maxEncodedLen * (i + 1) + ((messages.take (i + 1)).map List.length).sum ≤ heapSize := by
  have hprefix : ∀ m ∈ messages.take i, m.length ≤ heapSize - ItemHeader.maxEncodedLen :=
    fun m hm => hmax m (List.mem_of_mem_take hm)
  have h := Page.holds_fromMessages hheader hsize hprefix hpage
  have hlen : page.heap.length = ItemHeader.maxEncodedLen * i + ((messages.take i).map List.length).sum := by
    rw [h.heap_eq, length_encodeItems_ofMessage, List.length_take, Nat.min_eq_left hi.le]
  have hsum : ((messages.take (i + 1)).map List.length).sum =
      ((messages.take i).map List.length).sum + messages[i].length := by
    rw [List.map_take, List.map_take, List.sum_take_succ _ _ (by simpa using hi), List.getElem_map]
  rw [Page.tryAppendMessage_isSome_iff, hlen, hsum, Nat.mul_succ]
  omega

/-- A page filled by `from_message` and `try_append_message` from messages within
`MaxMessageLen`, on a page that holds a header: each append succeeds exactly when the heap
it leaves fits; the filled page counts every message and `peek_index` finds each at its
offset; and after any run of `skip_first` and `note_processed_at_pos` the page holds the same
payloads, its counters count what its headers leave unprocessed, and `peek_first` reads the
item at `first` until the last one is skipped. -/
theorem fromMessages_layout
    (hheader : ItemHeader.maxEncodedLen ≤ heapSize) (hsize : heapSize ≤ u32Max)
    (hmax : ∀ m ∈ messages, m.length ≤ heapSize - ItemHeader.maxEncodedLen) :
    (∀ i (hi : i < messages.length) page, Page.fromMessages heapSize (messages.take i) = some page →
      ((page.tryAppendMessage heapSize messages[i]).isSome ↔
        ItemHeader.maxEncodedLen * (i + 1) + ((messages.take (i + 1)).map List.length).sum ≤ heapSize)) ∧
    ∀ page, Page.fromMessages heapSize messages = some page →
      page.heap.length ≤ heapSize ∧ page.remaining = messages.length ∧
      page.remainingSize = (messages.map List.length).sum ∧
      (∀ i, page.peekIndex i = messages[i]?.map fun m =>
        (((messages.take i).map fun m => ItemHeader.maxEncodedLen + m.length).sum, false, m)) ∧
      ∀ ops, ∃ items, (PageOp.run page ops).Holds heapSize items ∧ items.map Item.payload = messages ∧
        (PageOp.run page ops).peekFirst = items[(PageOp.run page ops).firstIndex]?.map Item.payload ∧
        ((PageOp.run page ops).first ≤ (PageOp.run page ops).last ↔
          (PageOp.run page ops).firstIndex < messages.length) := by
  refine ⟨fun i hi page hpage => tryAppendMessage_fromMessages_isSome_iff hheader hsize hmax hi hpage,
    fun page hpage => ?_⟩
  have h := Page.holds_fromMessages hheader hsize hmax hpage
  refine ⟨h.heap_le, by rw [h.remaining_eq, remainingOf_ofMessage],
    by rw [h.remainingSize_eq, remainingSizeOf_ofMessage], fun i => ?_, fun ops => ?_⟩
  · rw [h.peekIndex_eq, itemPos_ofMessage, List.getElem?_map, Option.map_map]
    rfl
  · -- the run lemma keeps the payloads, so the items are still the messages
    obtain ⟨items, hrun, hpayload⟩ := PageOp.holds_run h ops
    have hitems : items.map Item.payload = messages := by
      simpa [Function.comp_def, Item.ofMessage] using hpayload
    have hlen : items.length = messages.length := by
      simpa using congrArg List.length hitems
    exact ⟨items, hrun, hitems, hrun.peekFirst_eq, hlen ▸ hrun.first_le_last_iff⟩

theorem fromMessages_layout_two_messages :
    (ItemHeader.maxEncodedLen ≤ 20 ∧ 20 ≤ u32Max ∧
      ∀ m ∈ ([[1, 2], [3]] : List (List UInt8)), m.length ≤ 20 - ItemHeader.maxEncodedLen) ∧
    ∀ page, Page.fromMessages 20 [[1, 2], [3]] = some page → page.peekIndex 1 = some (7, false, [3]) :=
  ⟨⟨by decide, by decide, by decide⟩, fun page hpage => by
    simpa [ItemHeader.maxEncodedLen] using
      ((fromMessages_layout (by decide) (by decide) (by decide)).2 page hpage).2.2.2.1 1⟩

/-- On a page too small for a header, `from_message` truncates its own header and the
message cannot be read back. -/
theorem fromMessages_header_truncated :
    ([] : List UInt8).length ≤ 4 - ItemHeader.maxEncodedLen ∧
      (Page.fromMessages 4 [[]]).bind (fun page => page.peekIndex 0) = none := by
  decide

end Filled

end PolkadotSdk.MessageQueue
