import PolkadotSdk.MessageQueueRing
import PolkadotSdk.MessageQueueOverweight

/-!
# The ready-ring walk of `do_try_state`

After its checks of every stored book, `do_try_state` walks the ready ring from the service
head with `bump_service_head`, checks each queue it passes, and stops when that queue's
successor is the queue it started from. On a laid out ring, with a `bump_service_head` weight
that a fresh meter can pay, the walk takes exactly one turn (`ReadyRing.tryStateRingLoop_eq`):
it checks the queues of the ring once each in the ring's order, stops at the first that does not
pass, and otherwise leaves the storage as it found it, the head back where it was. The checks of
every stored book before the walk iterate the whole `BookStateFor` map, which the model's
storage, a function of the origin, cannot list; they are not modelled.
-/

namespace PolkadotSdk.MessageQueue

open LinkedStore

variable {O : Type} [DecidableEq O]

/-- The unprocessed messages `do_try_state` counts on a page: it peeks at indices `i, i + 1, …`
until one is missing, at most `fuel` of them (`u32::MAX` in the source). -/
def countUnprocessed (page : Page) : ℕ → ℕ → ℕ
  | 0, _ => 0
  | fuel + 1, i =>
    match page.peekIndex i with
    | some (_, processed, _) => (if processed then 0 else 1) + countUnprocessed page fuel (i + 1)
    | none => 0

/-- The checks of `do_try_state` on the pages of a queue of the ready ring, from `begin` to
`end`. `none` is the panic of `unwrap` on a page that is not stored. -/
def tryStatePages (s : State O) (head : O) : List ℕ → Option (Except String Unit)
  | [] => some (.ok ())
  | pageIndex :: pageIndices =>
    match s.pages head pageIndex with
    | none => none
    | some page =>
      if ¬0 < page.remaining then
        some (.error "These must be some messages that have not been processed yet!")
      else if page.remaining ≠ countUnprocessed page u32Max 0 then some (.error "Memory Corruption")
      else tryStatePages s head pageIndices

/-- The checks of `do_try_state` on a queue it passes round the ready ring. -/
def tryStateQueue (s : State O) (head : O) : Option (Except String Unit) :=
  if (s.bookStateFor head).isNone then some (.error "Service head must point to an existing book")
  else
    let headBookState := s.book head
    if ¬0 < headBookState.messageCount then some (.error "There must be some messages if in ReadyRing")
    else if ¬0 < headBookState.size then some (.error "There must be some message size if in ReadyRing")
    else if ¬headBookState.begin < headBookState.end then
      some (.error "End > Begin if unprocessed messages exists")
    else
      match headBookState.readyNeighbours with
      | none => some (.error "There must be neighbours if in ReadyRing")
      | some neighbours =>
        if neighbours.next = head ∧ neighbours.prev ≠ head then
          some (.error "Can only happen if only queue in ReadyRing")
        else tryStatePages s head (List.range' headBookState.begin (headBookState.end - headBookState.begin))

/-- The loop of `do_try_state` round the ready ring from `start`: bump the head with a fresh
meter (`WeightMeter::new`), check the queue passed, and stop once its successor is `start`.
`fuel` bounds the turns of the `while let`. -/
def tryStateRingLoop (c : Config O) (start : O) : ℕ → State O → Option (Except String (State O))
  | 0, s => some (.ok s)
  | fuel + 1, s =>
    match bumpServiceHead c s (WeightMeter.withLimit Weight.max) with
    | (s, _, none) => some (.ok s)
    | (s, _, some head) =>
      match tryStateQueue s head with
      | none => none
      | some (.error e) => some (.error e)
      | some (.ok ()) =>
        if (s.book head).readyNeighbours.map Neighbours.next = some start then some (.ok s)
        else tryStateRingLoop c start fuel s

/-- The ready-ring part of `do_try_state`: nothing to walk without a service head. -/
def tryStateRing (c : Config O) (fuel : ℕ) (s : State O) : Option (Except String (State O)) :=
  match s.serviceHead with
  | none => some (.ok s)
  | some start => tryStateRingLoop c start fuel s

/-- Checking queues one after another, up to the first check that does not pass. -/
def checkEach (check : O → Option (Except String Unit)) : List O → Option (Except String Unit)
  | [] => some (.ok ())
  | q :: qs =>
    match check q with
    | some (.ok ()) => checkEach check qs
    | r => r

/-- A fresh meter pays for a weight that fits in `Weight::MAX`. -/
theorem tryConsume_withLimit_max {w : Weight} (hw : w.refTime ≤ u64Max ∧ w.proofSize ≤ u64Max) :
    (WeightMeter.withLimit Weight.max).tryConsume w = some ⟨w, Weight.max⟩ := by
  simp [WeightMeter.tryConsume, WeightMeter.withLimit, Weight.checkedAdd, Weight.zero, Weight.anyGt, Weight.max,
    hw.1, hw.2, Nat.not_lt.mpr hw.1, Nat.not_lt.mpr hw.2]

omit [DecidableEq O] in
theorem State.with_serviceHead_self {s : State O} {x : Option O} (h : s.serviceHead = x) :
    { s with serviceHead := x } = s := by
  subst h
  rfl

omit [DecidableEq O] in
theorem State.book_mk (x : Option O) (s : State O) : (⟨x, s.bookStateFor, s.pages⟩ : State O).book = s.book := rfl

omit [DecidableEq O] in
theorem tryStatePages_mk (x : Option O) (s : State O) (q : O) (pageIndices : List ℕ) :
    tryStatePages ⟨x, s.bookStateFor, s.pages⟩ q pageIndices = tryStatePages s q pageIndices := by
  induction pageIndices with
  | nil => rfl
  | cons i pageIndices ih => simp only [tryStatePages, ih]

/-- The checks of a queue do not read the service head. -/
theorem tryStateQueue_mk (x : Option O) (s : State O) (q : O) :
    tryStateQueue ⟨x, s.bookStateFor, s.pages⟩ q = tryStateQueue s q := by
  simp only [tryStateQueue, State.book_mk, tryStatePages_mk]

section Walk

variable {s : State O} {ring : List O} {c : Config O}

omit [DecidableEq O] in
/-- With a fresh meter, `bump_service_head` moves the head to its successor. -/
theorem bumpServiceHead_withLimit_max (hw : c.weightInfo.bumpServiceHead.refTime ≤ u64Max ∧
      c.weightInfo.bumpServiceHead.proofSize ≤ u64Max) {head : O} {n : Neighbours O}
    (hh : s.serviceHead = some head) (hn : (s.book head).readyNeighbours = some n) :
    bumpServiceHead c s (WeightMeter.withLimit Weight.max) =
      ({ s with serviceHead := some n.next }, ⟨c.weightInfo.bumpServiceHead, Weight.max⟩, some head) := by
  simp [bumpServiceHead, tryConsume_withLimit_max hw, hh, hn]

/-- A queue inside the ring is followed by the next one along the list. -/
theorem ringNext_of_append_cons_cons {A B : List O} {q q' : O} (h : (A ++ q :: q' :: B).Nodup) :
    ringNext (A ++ q :: q' :: B) q = some q' := by
  have hA := (List.nodup_append.mp h).1
  have hqA : q ∉ A := fun hq => (List.nodup_append.mp h).2.2 q hq q List.mem_cons_self rfl
  have hqB : q ∉ q' :: B := (List.nodup_cons.mp (List.nodup_append.mp h).2.1).1
  have hlast : (A ++ q :: q' :: B).getLast? ≠ some q := by
    rw [List.getLast?_append_of_ne_nil _ (List.cons_ne_nil _ _), List.getLast?_cons_cons]
    exact fun hl => hqB (List.mem_of_getLast? hl)
  rw [ringNext_of_getLast_ne h hlast, nextOf_append_cons_self hA hqA]
  rfl

/-- The walk from the queue `q` of a ring laid out as `A ++ q :: B`: each turn checks one queue
and moves the head on, until the last queue of the ring hands back to `start`. -/
theorem ReadyRing.tryStateRingLoop_from (h : ReadyRing s ring)
    (hw : c.weightInfo.bumpServiceHead.refTime ≤ u64Max ∧ c.weightInfo.bumpServiceHead.proofSize ≤ u64Max)
    {start : O} (hstart : s.serviceHead = some start) (B : List O) :
    ∀ (A : List O) (q : O) (fuel : ℕ), ring = A ++ q :: B → B.length < fuel →
      tryStateRingLoop c start fuel { s with serviceHead := some q } =
        (checkEach (tryStateQueue s) (q :: B)).map (Except.map fun _ => s) := by
  induction B with
  | nil =>
    intro A q fuel hring hfuel
    obtain ⟨f, rfl⟩ : ∃ f, fuel = f + 1 := ⟨fuel - 1, by simp at hfuel; omega⟩
    obtain ⟨n, hn⟩ := h.exists_neighbours (show q ∈ ring by rw [hring]; simp)
    -- the last queue is followed by the first, `start`
    have hnext : n.next = start := by
      have hr := h.ringNext_eq hn
      rw [ringNext_of_getLast h.nodup (by rw [hring]; simp), ← h.head, hstart] at hr
      exact (Option.some.inj hr).symm
    simp only [tryStateRingLoop]
    rw [bumpServiceHead_withLimit_max (s := { s with serviceHead := some q }) hw rfl hn]
    dsimp only
    rw [tryStateQueue_mk, hnext]
    cases hq : tryStateQueue s q with
    | none => simp [checkEach, hq]
    | some r =>
      cases r with
      | error e => simp [checkEach, hq, Except.map]
      | ok u => simp [checkEach, hq, hn, hnext, State.with_serviceHead_self hstart, Except.map]
  | cons q' B ih =>
    intro A q fuel hring hfuel
    obtain ⟨f, rfl⟩ : ∃ f, fuel = f + 1 := ⟨fuel - 1, by simp at hfuel; omega⟩
    obtain ⟨n, hn⟩ := h.exists_neighbours (show q ∈ ring by rw [hring]; simp)
    have hnext : n.next = q' := by
      have hr := h.ringNext_eq hn
      rw [hring, ringNext_of_append_cons_cons (hring ▸ h.nodup)] at hr
      exact (Option.some.inj hr).symm
    -- `q'` is not where the walk started, which lies in `A ++ [q]`
    have hne : q' ≠ start := by
      intro hq'
      have hnd : ((A ++ [q]) ++ q' :: B).Nodup := by
        rw [List.append_assoc]
        exact hring ▸ h.nodup
      have hstartmem : start ∈ A ++ [q] := by
        have hh := h.head
        rw [hstart, hring] at hh
        cases A with
        | nil => simpa using (Option.some.inj hh)
        | cons a A => simpa using Or.inl (Option.some.inj hh)
      exact (List.nodup_append.mp hnd).2.2 start hstartmem q' (by simp) hq'.symm
    simp only [tryStateRingLoop]
    rw [bumpServiceHead_withLimit_max (s := { s with serviceHead := some q }) hw rfl hn]
    dsimp only
    rw [tryStateQueue_mk, hnext]
    cases hq : tryStateQueue s q with
    | none => simp [checkEach, hq]
    | some r =>
      cases r with
      | error e => simp [checkEach, hq, Except.map]
      | ok u =>
        -- the queue passed and is not the last: the walk goes on from `q'`
        have hstay : Option.map Neighbours.next (s.book q).readyNeighbours ≠ some start := by
          rw [hn, Option.map_some, hnext]
          exact fun h' => hne (Option.some.inj h')
        simp only [State.book_mk, hstay, if_false]
        rw [ih (A ++ [q]) q' f (by rw [hring, List.append_assoc]; rfl) (by simp at hfuel ⊢; omega)]
        simp [checkEach, hq]

/-- On a laid out ring, the ready-ring walk of `do_try_state` takes one turn: it checks the
queues of the ring once each in the ring's order, stops at the first that does not pass, and
otherwise leaves the storage as it found it. -/
theorem ReadyRing.tryStateRing_eq (h : ReadyRing s ring)
    (hw : c.weightInfo.bumpServiceHead.refTime ≤ u64Max ∧ c.weightInfo.bumpServiceHead.proofSize ≤ u64Max)
    {fuel : ℕ} (hfuel : ring.length ≤ fuel) :
    tryStateRing c fuel s = (checkEach (tryStateQueue s) ring).map (Except.map fun _ => s) := by
  unfold tryStateRing
  cases hs : s.serviceHead with
  | none =>
    have hnil : ring = [] := List.head?_eq_none_iff.mp (h.head ▸ hs)
    simp [hnil, checkEach, Except.map]
  | some start =>
    obtain ⟨R, rfl⟩ : ∃ R, ring = start :: R := by
      have hh := h.head
      rw [hs] at hh
      cases ring with
      | nil => cases hh
      | cons a R => exact ⟨R, by rw [Option.some.inj hh]⟩
    have hwalk := h.tryStateRingLoop_from hw hs R [] start fuel rfl (by simp at hfuel; omega)
    rwa [State.with_serviceHead_self hs] at hwalk

end Walk

/-- After any run of the pallet's calls from empty storage, the ready-ring walk of
`do_try_state` checks every queue of the ring exactly once, in the ring's order, and leaves the
storage as it was when they all pass; every queue with a page to service is on that ring. -/
theorem run_tryStateRing_checks_ring (c : Config O)
    (hw : c.weightInfo.bumpServiceHead.refTime ≤ u64Max ∧ c.weightInfo.bumpServiceHead.proofSize ≤ u64Max)
    (fuel : ℕ) (ops : List (Op O)) :
    ∃ ring, RingInv (run c fuel State.empty ops) ring ∧ ∀ walkFuel, ring.length ≤ walkFuel →
      tryStateRing c walkFuel (run c fuel State.empty ops) =
        (checkEach (tryStateQueue (run c fuel State.empty ops)) ring).map
          (Except.map fun _ => run c fuel State.empty ops) := by
  obtain ⟨ring, h⟩ := ringInv_empty.run c fuel ops
  exact ⟨ring, h, fun _ hfuel => h.ready.tryStateRing_eq hw hfuel⟩

theorem run_tryStateRing_checks_ring_overweightConfig :
    ∃ ring, RingInv (run overweightConfig 2 State.empty [.enqueueMessage [7] 0, .enqueueMessage [8] 1, .onInitialize])
        ring ∧ ∀ walkFuel, ring.length ≤ walkFuel →
      tryStateRing overweightConfig walkFuel
          (run overweightConfig 2 State.empty [.enqueueMessage [7] 0, .enqueueMessage [8] 1, .onInitialize]) =
        (checkEach (tryStateQueue
            (run overweightConfig 2 State.empty [.enqueueMessage [7] 0, .enqueueMessage [8] 1, .onInitialize])) ring).map
          (Except.map fun _ =>
            run overweightConfig 2 State.empty [.enqueueMessage [7] 0, .enqueueMessage [8] 1, .onInitialize]) :=
  run_tryStateRing_checks_ring overweightConfig (by decide) 2 _

end PolkadotSdk.MessageQueue
