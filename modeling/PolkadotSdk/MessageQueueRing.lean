import PolkadotSdk.MessageQueue
import PolkadotSdk.LinkedRing

/-!
# The ready ring over runs of the pallet

The queues with pages to service are linked into a ring through the `ready_neighbours` of their
books, and `ServiceHead` points into it. `ReadyRing s ring` says that the ring of `s` is laid out
as the list `ring`, read round from the head. Knitting a queue in puts it after the last one,
unknitting takes it out, and bumping or setting the head turns the ring. Every call of the
pallet keeps the ring laid out and every queue with a page to service on it (`RingInv`), so
after any run from empty storage (`run_keeps_ready_ring`): `bump_service_head` never meets a
head without neighbours and `ready_ring_knit` never fails.
-/

namespace PolkadotSdk.MessageQueue

open LinkedStore

variable {O : Type} [DecidableEq O]

/-- The ready ring of `s` laid out as `ring`, read round from the service head: each book's
neighbours are its queue's neighbours round `ring`, and a book off the ring has none. -/
structure ReadyRing (s : State O) (ring : List O) : Prop where
  nodup : ring.Nodup
  head : s.serviceHead = ring.head?
  prev : ∀ o, (s.book o).readyNeighbours.map Neighbours.prev = ringPrev ring o
  next : ∀ o, (s.book o).readyNeighbours.map Neighbours.next = ringNext ring o

/-- Rewriting the neighbours of one book, as the ring operations do. -/
theorem State.book_putBook_neighbours (s : State O) (o o' : O) (x : Option (Neighbours O)) :
    (s.putBook o { s.book o with readyNeighbours := x }).book o' =
      if o' = o then { s.book o' with readyNeighbours := x } else s.book o' := by
  by_cases h : o' = o
  · subst h
    simp
  · simp [h]

theorem State.neighbours_putBook_neighbours (s : State O) (o o' : O) (x : Option (Neighbours O)) :
    ((s.putBook o { s.book o with readyNeighbours := x }).book o').readyNeighbours =
      if o' = o then x else (s.book o').readyNeighbours := by
  rw [State.book_putBook_neighbours]
  split_ifs <;> rfl

/-- Rewriting neighbours leaves the pages to service of every book as they were. -/
theorem State.bounds_putBook_neighbours (s : State O) (o o' : O) (x : Option (Neighbours O)) :
    ((s.putBook o { s.book o with readyNeighbours := x }).book o').begin = (s.book o').begin ∧
      ((s.putBook o { s.book o with readyNeighbours := x }).book o').end = (s.book o').end := by
  rw [State.book_putBook_neighbours]
  split_ifs <;> exact ⟨rfl, rfl⟩

/-- Mutating the neighbours of one book, as `ready_ring_unknit` does. -/
theorem State.neighbours_mutateBook_map (s : State O) (o o' : O) (g : Neighbours O → Neighbours O) :
    ((s.mutateBook o fun b => { b with readyNeighbours := b.readyNeighbours.map g }).book o').readyNeighbours =
      if o' = o then (s.book o').readyNeighbours.map g else (s.book o').readyNeighbours := by
  rw [State.mutateBook, State.neighbours_putBook_neighbours]
  split_ifs with h
  · rw [h]
  · rfl

theorem State.bounds_mutateBook_map (s : State O) (o o' : O) (g : Neighbours O → Neighbours O) :
    ((s.mutateBook o fun b => { b with readyNeighbours := b.readyNeighbours.map g }).book o').begin =
        (s.book o').begin ∧
      ((s.mutateBook o fun b => { b with readyNeighbours := b.readyNeighbours.map g }).book o').end =
        (s.book o').end :=
  State.bounds_putBook_neighbours s o o' _

namespace ReadyRing

variable {s s' : State O} {ring : List O}

theorem neighbours_eq_none_iff (h : ReadyRing s ring) {o : O} :
    (s.book o).readyNeighbours = none ↔ o ∉ ring := by
  rw [← ringNext_eq_none_iff h.nodup, ← h.next, Option.map_eq_none_iff]

/-- A queue of the ring has its neighbours stored. -/
theorem exists_neighbours (h : ReadyRing s ring) {o : O} (ho : o ∈ ring) :
    ∃ n, (s.book o).readyNeighbours = some n :=
  Option.ne_none_iff_exists'.mp fun hn => h.neighbours_eq_none_iff.mp hn ho

theorem mem_of_neighbours (h : ReadyRing s ring) {o : O} {n : Neighbours O}
    (ho : (s.book o).readyNeighbours = some n) : o ∈ ring := by
  by_contra hno
  rw [h.neighbours_eq_none_iff.mpr hno] at ho
  cases ho

theorem ringPrev_eq (h : ReadyRing s ring) {o : O} {n : Neighbours O}
    (ho : (s.book o).readyNeighbours = some n) : ringPrev ring o = some n.prev := by
  rw [← h.prev, ho]
  rfl

theorem ringNext_eq (h : ReadyRing s ring) {o : O} {n : Neighbours O}
    (ho : (s.book o).readyNeighbours = some n) : ringNext ring o = some n.next := by
  rw [← h.next, ho]
  rfl

/-- The ring reads only the service head and the books' neighbours. -/
theorem congr (h : ReadyRing s ring) (hhead : s'.serviceHead = s.serviceHead)
    (hbook : ∀ o, (s'.book o).readyNeighbours = (s.book o).readyNeighbours) : ReadyRing s' ring where
  nodup := h.nodup
  head := hhead.trans h.head
  prev o := by rw [hbook]; exact h.prev o
  next o := by rw [hbook]; exact h.next o

/-- Turning the ring to start from another of its queues. -/
theorem rotate (h : ReadyRing s ring) (n : ℕ) (hhead : s'.serviceHead = (ring.rotate n).head?)
    (hbook : s'.book = s.book) : ReadyRing s' (ring.rotate n) where
  nodup := List.nodup_rotate.mpr h.nodup
  head := hhead
  prev o := by rw [hbook, ringPrev_rotate h.nodup, h.prev]
  next o := by rw [hbook, ringNext_rotate h.nodup, h.next]

end ReadyRing

section Knit

variable {s : State O} {ring : List O}

/-- Knitting `origin` into a nonempty ring: it is given the last queue and the first as its
neighbours, the first queue's predecessor and the last queue's successor become `origin`, and
no book's pages to service change. -/
theorem ReadyRing.readyRingKnit_eq (h : ReadyRing s ring) {head tail : O} (hhead : ring.head? = some head)
    (htail : ring.getLast? = some tail) (origin : O) :
    ∃ s', readyRingKnit s origin = (s', some ⟨tail, head⟩) ∧ s'.serviceHead = s.serviceHead ∧
      (∀ o, (s'.book o).readyNeighbours.map Neighbours.prev =
        if o = head then some origin else (s.book o).readyNeighbours.map Neighbours.prev) ∧
      (∀ o, (s'.book o).readyNeighbours.map Neighbours.next =
        if o = tail then some origin else (s.book o).readyNeighbours.map Neighbours.next) ∧
      ∀ o, (s'.book o).begin = (s.book o).begin ∧ (s'.book o).end = (s.book o).end := by
  obtain ⟨hn, hhn⟩ := h.exists_neighbours (List.mem_of_head? hhead)
  have hprev : hn.prev = tail := by
    have hp := h.ringPrev_eq hhn
    rw [ringPrev_of_head h.nodup hhead, htail] at hp
    exact (Option.some.inj hp).symm
  -- first the head's book, with `origin` before it
  let s₁ := s.putBook head { s.book head with readyNeighbours := some { hn with prev := origin } }
  have h₁prev : ∀ o, (s₁.book o).readyNeighbours.map Neighbours.prev =
      if o = head then some origin else (s.book o).readyNeighbours.map Neighbours.prev := by
    intro o
    rw [State.neighbours_putBook_neighbours]
    split_ifs <;> rfl
  have h₁next : ∀ o, (s₁.book o).readyNeighbours.map Neighbours.next =
      (s.book o).readyNeighbours.map Neighbours.next := by
    intro o
    rw [State.neighbours_putBook_neighbours]
    split_ifs with hoh
    · rw [hoh, hhn]
      rfl
    · rfl
  -- then the tail's book, read back after that write, with `origin` after it
  obtain ⟨tn, htn⟩ : ∃ n, (s₁.book tail).readyNeighbours = some n := by
    cases hs : (s₁.book tail).readyNeighbours with
    | some n => exact ⟨n, rfl⟩
    | none =>
      have ht := h₁next tail
      rw [hs, h.next, ringNext_of_getLast h.nodup htail, hhead] at ht
      cases ht
  have hknit : readyRingKnit s origin =
      (s₁.putBook tail { s₁.book tail with readyNeighbours := some { tn with next := origin } },
        some ⟨tail, head⟩) := by
    simp only [readyRingKnit, h.head, hhead, hhn, hprev]
    rw [htn]
  refine ⟨_, hknit, rfl, fun o => ?_, fun o => ?_, fun o => ?_⟩
  · rw [State.neighbours_putBook_neighbours, ← h₁prev]
    split_ifs with hot
    · rw [hot, htn]
      rfl
    · rfl
  · rw [State.neighbours_putBook_neighbours, ← h₁next]
    split_ifs <;> rfl
  · obtain ⟨hb₂, he₂⟩ := State.bounds_putBook_neighbours s₁ tail o (some { tn with next := origin })
    obtain ⟨hb₁, he₁⟩ := State.bounds_putBook_neighbours s head o (some { hn with prev := origin })
    exact ⟨hb₂.trans hb₁, he₂.trans he₁⟩

/-- Knitting a queue off the ring in, and storing its book with the neighbours knitting gave
it, lays the ring out with the queue after the last one. -/
theorem ReadyRing.knit (h : ReadyRing s ring) {origin : O} (ho : origin ∉ ring) (b : BookState O) :
    ∃ n, (readyRingKnit s origin).2 = some n ∧
      ReadyRing ((readyRingKnit s origin).1.putBook origin { b with readyNeighbours := some n }) (ring ++ [origin]) ∧
      ∀ o, ((readyRingKnit s origin).1.book o).begin = (s.book o).begin ∧
        ((readyRingKnit s origin).1.book o).end = (s.book o).end := by
  have hnd : (ring ++ [origin]).Nodup := List.nodup_append.mpr
    ⟨h.nodup, List.nodup_singleton _, fun a ha b hb hab => ho (List.mem_singleton.mp hb ▸ hab ▸ ha)⟩
  cases hr : ring with
  | nil =>
    -- an empty ring: `origin` becomes the head and its own neighbours
    subst hr
    have hnone : ∀ o, (s.book o).readyNeighbours = none := fun o => h.neighbours_eq_none_iff.mpr List.not_mem_nil
    have hhead : s.serviceHead = none := h.head
    have hbook : ({ s with serviceHead := some origin } : State O).book = s.book := rfl
    refine ⟨⟨origin, origin⟩, by simp [readyRingKnit, hhead], ?_, fun o => ?_⟩
    · simp only [readyRingKnit, hhead]
      refine ⟨hnd, rfl, fun o => ?_, fun o => ?_⟩ <;> by_cases hoo : o = origin
      · subst hoo
        simp [ringPrev, ringNext, nextOf]
      · rw [State.book_putBook_of_ne _ hoo, hbook, hnone, (ringPrev_eq_none_iff hnd).mpr (by simpa using hoo)]
        rfl
      · subst hoo
        simp [ringNext, nextOf]
      · rw [State.book_putBook_of_ne _ hoo, hbook, hnone, (ringNext_eq_none_iff hnd).mpr (by simpa using hoo)]
        rfl
    · simp [readyRingKnit, hhead, hbook]
  | cons r R =>
    rw [← hr]
    have hne : ring ≠ [] := by rw [hr]; exact List.cons_ne_nil r R
    obtain ⟨head, hhead⟩ := Option.ne_none_iff_exists'.mp (mt List.head?_eq_none_iff.mp hne)
    obtain ⟨tail, htail⟩ := Option.ne_none_iff_exists'.mp (mt List.getLast?_eq_none_iff.mp hne)
    obtain ⟨s', hknit, hs'head, hprev, hnext, hbounds⟩ := h.readyRingKnit_eq hhead htail origin
    rw [hknit]
    refine ⟨⟨tail, head⟩, rfl, ⟨hnd, ?_, fun o => ?_, fun o => ?_⟩, hbounds⟩
    · rw [State.serviceHead_putBook, hs'head, h.head, List.head?_append_of_ne_nil _ hne]
    · rw [ringPrev_append_singleton hnd]
      by_cases hoo : o = origin
      · subst hoo
        rw [State.book_putBook_self, if_pos rfl, List.getLast?_cons, htail]
        rfl
      · have hoh : (ring.head? = some o) ↔ o = head := by rw [hhead, Option.some.injEq, eq_comm]
        rw [State.book_putBook_of_ne _ hoo, hprev, if_neg hoo, ← h.prev]
        simp only [hoh]
    · rw [ringNext_append_singleton hnd]
      by_cases hoo : o = origin
      · subst hoo
        rw [State.book_putBook_self, if_pos rfl, List.head?_append_of_ne_nil _ hne, hhead]
        rfl
      · have hot : (ring.getLast? = some o) ↔ o = tail := by rw [htail, Option.some.injEq, eq_comm]
        rw [State.book_putBook_of_ne _ hoo, hnext, if_neg hoo, ← h.next]
        simp only [hot]

end Knit

section Unknit

variable {s : State O} {ring : List O}

/-- Unknitting `origin` from a ring of more than one queue: its successor's predecessor and its
predecessor's successor skip it, the head moves on when it was the head, and no book's pages to
service change. -/
theorem ReadyRing.readyRingUnknit_eq (h : ReadyRing s ring) {origin : O} {n : Neighbours O}
    (hn : (s.book origin).readyNeighbours = some n) (hself : origin ≠ n.next) :
    (readyRingUnknit s origin n).serviceHead =
        (if s.serviceHead = some origin then some n.next else s.serviceHead) ∧
      (∀ o, ((readyRingUnknit s origin n).book o).readyNeighbours.map Neighbours.prev =
        if o = n.next then some n.prev else (s.book o).readyNeighbours.map Neighbours.prev) ∧
      (∀ o, ((readyRingUnknit s origin n).book o).readyNeighbours.map Neighbours.next =
        if o = n.prev then some n.next else (s.book o).readyNeighbours.map Neighbours.next) ∧
      ∀ o, ((readyRingUnknit s origin n).book o).begin = (s.book o).begin ∧
        ((readyRingUnknit s origin n).book o).end = (s.book o).end := by
  let gprev : Neighbours O → Neighbours O := fun m => { m with prev := n.prev }
  let gnext : Neighbours O → Neighbours O := fun m => { m with next := n.next }
  let s₁ := s.mutateBook n.next fun b => { b with readyNeighbours := b.readyNeighbours.map gprev }
  let s₂ := s₁.mutateBook n.prev fun b => { b with readyNeighbours := b.readyNeighbours.map gnext }
  -- both neighbours of `origin` are on the ring, so their books hold neighbours to rewrite
  obtain ⟨mn, hmn⟩ := h.exists_neighbours (mem_of_ringNext (h.ringNext_eq hn))
  obtain ⟨mp, hmp⟩ := h.exists_neighbours (mem_of_ringPrev (h.ringPrev_eq hn))
  have hbook : (readyRingUnknit s origin n).book = s₂.book := by
    simp only [readyRingUnknit, if_neg hself]
    split
    · split <;> rfl
    · rfl
  have h₁prev : ∀ o, (s₁.book o).readyNeighbours.map Neighbours.prev =
      if o = n.next then some n.prev else (s.book o).readyNeighbours.map Neighbours.prev := by
    intro o
    rw [State.neighbours_mutateBook_map]
    split_ifs with ho
    · rw [ho, hmn]
      rfl
    · rfl
  have h₁next : ∀ o, (s₁.book o).readyNeighbours.map Neighbours.next =
      (s.book o).readyNeighbours.map Neighbours.next := by
    intro o
    rw [State.neighbours_mutateBook_map]
    split_ifs
    · rw [Option.map_map]
      rfl
    · rfl
  refine ⟨?_, fun o => ?_, fun o => ?_, fun o => ?_⟩
  · simp only [readyRingUnknit, if_neg hself]
    split
    · next head hsh =>
      rw [show s.serviceHead = some head from hsh]
      by_cases hho : head = origin
      · rw [if_pos hho, if_pos (by rw [hho])]
      · rw [if_neg hho, if_neg (by simpa using hho)]
        exact hsh
    · next hsh =>
      rw [show s.serviceHead = none from hsh, if_neg (by simp)]
      exact hsh
  · rw [hbook, State.neighbours_mutateBook_map, ← h₁prev]
    split_ifs
    · rw [Option.map_map]
      rfl
    · rfl
  · rw [hbook, State.neighbours_mutateBook_map, ← h₁next]
    split_ifs with ho
    · have hs₁ : ∃ m, (s₁.book o).readyNeighbours = some m := by
        rw [State.neighbours_mutateBook_map, ho, hmp]
        split_ifs <;> exact ⟨_, rfl⟩
      obtain ⟨m, hm⟩ := hs₁
      rw [hm]
      rfl
    · rfl
  · rw [hbook]
    obtain ⟨hb₂, he₂⟩ := State.bounds_mutateBook_map s₁ n.prev o gnext
    obtain ⟨hb₁, he₁⟩ := State.bounds_mutateBook_map s n.next o gprev
    exact ⟨hb₂.trans hb₁, he₂.trans he₁⟩

/-- Unknitting a queue of the ring, and storing its book without neighbours, lays the ring out
without the queue. -/
theorem ReadyRing.unknit (h : ReadyRing s ring) {origin : O} {n : Neighbours O}
    (hn : (s.book origin).readyNeighbours = some n) {b : BookState O} (hb : b.readyNeighbours = none) :
    ReadyRing ((readyRingUnknit s origin n).putBook origin b) (ring.erase origin) ∧
      ∀ o, ((readyRingUnknit s origin n).book o).begin = (s.book o).begin ∧
        ((readyRingUnknit s origin n).book o).end = (s.book o).end := by
  have hmem := h.mem_of_neighbours hn
  have hnext := h.ringNext_eq hn
  have hprev := h.ringPrev_eq hn
  have hnd := h.nodup.erase origin
  have hout : origin ∉ ring.erase origin := fun hm => (h.nodup.mem_erase_iff.mp hm).1 rfl
  by_cases hself : origin = n.next
  · -- a ring of one is left empty
    have hone : ring = [origin] := (ringNext_eq_self_iff h.nodup hmem).mp (hself ▸ hnext)
    have hunknit : readyRingUnknit s origin n = { s with serviceHead := none } := by
      simp only [readyRingUnknit, if_pos hself]
    rw [hunknit, hone, List.erase_cons_head]
    have hoff : ∀ o, o ≠ origin → (s.book o).readyNeighbours = none := fun o ho =>
      h.neighbours_eq_none_iff.mpr (by rw [hone]; simpa using ho)
    refine ⟨⟨List.nodup_nil, rfl, fun o => ?_, fun o => ?_⟩, fun o => ⟨rfl, rfl⟩⟩ <;> by_cases ho : o = origin
    · rw [ho, State.book_putBook_self, hb]
      rfl
    · rw [State.book_putBook_of_ne _ ho, show ({ s with serviceHead := none } : State O).book = s.book from rfl,
        hoff o ho]
      rfl
    · rw [ho, State.book_putBook_self, hb]
      rfl
    · rw [State.book_putBook_of_ne _ ho, show ({ s with serviceHead := none } : State O).book = s.book from rfl,
        hoff o ho]
      rfl
  · obtain ⟨hhead, hprev', hnext', hbounds⟩ := h.readyRingUnknit_eq hn hself
    refine ⟨⟨hnd, ?_, fun o => ?_, fun o => ?_⟩, hbounds⟩
    · -- the head moves on exactly when it was `origin`
      rw [State.serviceHead_putBook, hhead, h.head]
      split_ifs with hh
      · have hne : ring ≠ [origin] := fun hone =>
          hself (Option.some.inj (((ringNext_eq_self_iff h.nodup hmem).mpr hone).symm.trans hnext))
        rw [head?_erase_of_head? hh hne, hnext]
      · rw [head?_erase_of_head?_ne hh]
    · by_cases ho : o = origin
      · rw [ho, State.book_putBook_self, hb, (ringPrev_eq_none_iff hnd).mpr hout]
        rfl
      · rw [State.book_putBook_of_ne _ ho, hprev', ringPrev_erase h.nodup ho, hprev, h.prev]
        by_cases hon : o = n.next
        · rw [if_pos hon, if_pos ((ringPrev_eq_some_iff h.nodup).mpr (by rw [hon]; exact hnext))]
        · rw [if_neg hon, if_neg fun hp => hon ?_]
          rw [ringPrev_eq_some_iff h.nodup, hnext] at hp
          exact (Option.some.inj hp).symm
    · by_cases ho : o = origin
      · rw [ho, State.book_putBook_self, hb, (ringNext_eq_none_iff hnd).mpr hout]
        rfl
      · rw [State.book_putBook_of_ne _ ho, hnext', ringNext_erase h.nodup ho, hnext, h.next]
        by_cases hop : o = n.prev
        · rw [if_pos hop, if_pos ((ringPrev_eq_some_iff h.nodup).mp (by rw [hop]; exact hprev))]
        · rw [if_neg hop, if_neg fun hn' => hop ?_]
          rw [← ringPrev_eq_some_iff h.nodup, hprev] at hn'
          exact (Option.some.inj hn').symm

end Unknit

/-- On a laid out ring the head's book holds neighbours, so `bump_service_head` never takes its
defensive branch. -/
theorem ReadyRing.head_neighbours (h : ReadyRing s ring) {head : O} (hh : s.serviceHead = some head) :
    ∃ n, (s.book head).readyNeighbours = some n :=
  h.exists_neighbours (List.mem_of_head? (h.head ▸ hh))

/-- On a laid out ring `ready_ring_knit` never fails. -/
theorem ReadyRing.readyRingKnit_isSome (h : ReadyRing s ring) (origin : O) : (readyRingKnit s origin).2.isSome := by
  cases hr : ring with
  | nil =>
    have hhead : s.serviceHead = none := by rw [h.head, hr]; rfl
    simp [readyRingKnit, hhead]
  | cons r R =>
    have hne : ring ≠ [] := by rw [hr]; exact List.cons_ne_nil r R
    obtain ⟨head, hhead⟩ := Option.ne_none_iff_exists'.mp (mt List.head?_eq_none_iff.mp hne)
    obtain ⟨tail, htail⟩ := Option.ne_none_iff_exists'.mp (mt List.getLast?_eq_none_iff.mp hne)
    obtain ⟨s', hknit, -⟩ := h.readyRingKnit_eq hhead htail origin
    rw [hknit]
    rfl

/-- The ready ring over runs: laid out as `ring`, with every queue that has a page to service on
it. -/
structure RingInv (s : State O) (ring : List O) : Prop where
  ready : ReadyRing s ring
  pending : ∀ o, (s.book o).begin < (s.book o).end → o ∈ ring

namespace RingInv

variable {s s' : State O} {ring : List O}

/-- The invariant reads only the service head and the books. -/
theorem congr (h : RingInv s ring) (hhead : s'.serviceHead = s.serviceHead) (hbook : s'.book = s.book) :
    RingInv s' ring :=
  ⟨h.ready.congr hhead fun o => by rw [hbook], fun o => by rw [hbook]; exact h.pending o⟩

/-- Storing a book of `origin` with its stored neighbours, over a laid out ring whose other
queues with pages to service are on it, keeps the invariant when the book has pages to service
only on the ring. -/
theorem of_putBook (hready : ReadyRing s ring) {origin : O}
    (hother : ∀ o, o ≠ origin → (s.book o).begin < (s.book o).end → o ∈ ring) {b : BookState O}
    (hn : b.readyNeighbours = (s.book origin).readyNeighbours) (hpending : b.begin < b.end → origin ∈ ring) :
    RingInv (s.putBook origin b) ring := by
  refine ⟨hready.congr rfl fun o => ?_, fun o => ?_⟩
  · by_cases ho : o = origin
    · rw [ho, State.book_putBook_self, hn]
    · rw [State.book_putBook_of_ne _ ho]
  · by_cases ho : o = origin
    · rw [ho, State.book_putBook_self]
      exact hpending
    · rw [State.book_putBook_of_ne _ ho]
      exact hother o ho

theorem putBook (h : RingInv s ring) {origin : O} {b : BookState O}
    (hn : b.readyNeighbours = (s.book origin).readyNeighbours) (hpending : b.begin < b.end → origin ∈ ring) :
    RingInv (s.putBook origin b) ring :=
  of_putBook h.ready (fun o _ => h.pending o) hn hpending

/-- `bump_service_head` turns the ring by one queue, or leaves it. -/
theorem bumpServiceHead (h : RingInv s ring) (c : Config O) (weight : WeightMeter) :
    ∃ n, RingInv (MessageQueue.bumpServiceHead c s weight).1 (ring.rotate n) := by
  have hstay : RingInv s (ring.rotate 0) := by rwa [List.rotate_zero]
  unfold MessageQueue.bumpServiceHead
  split
  · exact ⟨0, hstay⟩
  · split
    · exact ⟨0, hstay⟩
    · split
      · exact ⟨0, hstay⟩
      · rename_i head hs _ headNeighbours hn
        -- the head was the first of the ring; its successor becomes the first
        obtain ⟨R, rfl⟩ : ∃ R, ring = head :: R := by
          have hh := h.ready.head
          rw [hs] at hh
          cases ring with
          | nil => cases hh
          | cons a R => exact ⟨R, by rw [Option.some.inj hh]⟩
        refine ⟨1, h.ready.rotate 1 ?_ rfl, fun o ho => List.mem_rotate.mpr (h.pending o ho)⟩
        rw [List.rotate_cons_succ, List.rotate_zero, ← ringNext_cons_self, h.ready.ringNext_eq hn]

/-- `set_service_head` turns the ring to start at a queue of it, or leaves it. -/
theorem setServiceHead (h : RingInv s ring) (c : Config O) (weight : WeightMeter) (queue : O) :
    ∃ n, RingInv (MessageQueue.setServiceHead c s weight queue).1 (ring.rotate n) := by
  have hstay : RingInv s (ring.rotate 0) := by rwa [List.rotate_zero]
  unfold MessageQueue.setServiceHead
  split
  · exact ⟨0, hstay⟩
  · split_ifs with hq
    · obtain ⟨A, B, hAB⟩ := List.append_of_mem (h.ready.mem_of_neighbours (Option.get_mem hq))
      refine ⟨A.length, h.ready.rotate A.length ?_ rfl, fun o ho => List.mem_rotate.mpr (h.pending o ho)⟩
      rw [hAB, List.rotate_append_length_eq]
      rfl
    · exact ⟨0, hstay⟩

end RingInv

section Enqueue

variable {s : State O} {ring : List O}

/-- One message of the loop of `do_enqueue_messages` writes at most a page, and keeps the
neighbours of the book it carries. -/
theorem enqueueStep_frame (c : Config O) (origin : O) (st : State O × BookState O × Option Page)
    (message : List UInt8) :
    (enqueueStep c origin st message).1.book = st.1.book ∧
      (enqueueStep c origin st message).1.serviceHead = st.1.serviceHead ∧
      (enqueueStep c origin st message).2.1.readyNeighbours = st.2.1.readyNeighbours := by
  obtain ⟨s, b, p⟩ := st
  cases p with
  | none => exact ⟨rfl, rfl, rfl⟩
  | some page =>
    cases hp : page.tryAppendMessage c.heapSize message with
    | none => simp [enqueueStep, hp]
    | some page' => simp [enqueueStep, hp]

theorem foldl_enqueueStep_frame (c : Config O) (origin : O) (messages : List (List UInt8)) :
    ∀ {st r : State O × BookState O × Option Page}, messages.foldl (enqueueStep c origin) st = r →
      r.1.book = st.1.book ∧ r.1.serviceHead = st.1.serviceHead ∧ r.2.1.readyNeighbours = st.2.1.readyNeighbours := by
  induction messages with
  | nil =>
    rintro st r rfl
    exact ⟨rfl, rfl, rfl⟩
  | cons m messages ih =>
    intro st r hr
    obtain ⟨hb, hh, hn⟩ := ih hr
    obtain ⟨hb', hh', hn'⟩ := enqueueStep_frame c origin st m
    exact ⟨hb.trans hb', hh.trans hh', hn.trans hn'⟩

/-- Knitting a queue off the ring into a state with the head and books of `s`, and storing its
book with the neighbours knitting gave, lays the ring out with the queue last. -/
theorem RingInv.knit_putBook (h : RingInv s ring) {origin : O} (hout : origin ∉ ring) {s₂ s' : State O}
    {r : Option (Neighbours O)} (hk : readyRingKnit s₂ origin = (s', r)) (hb₂ : s₂.book = s.book)
    (hh₂ : s₂.serviceHead = s.serviceHead) (b : BookState O) :
    ∃ n, r = some n ∧ RingInv (s'.putBook origin { b with readyNeighbours := some n }) (ring ++ [origin]) := by
  obtain ⟨n, hn, hready, hbounds⟩ := (h.congr hh₂ hb₂).ready.knit hout b
  rw [hk] at hn hready hbounds
  refine ⟨n, hn, hready, fun o ho => ?_⟩
  by_cases hoo : o = origin
  · exact List.mem_append_right _ (List.mem_singleton.mpr hoo)
  · rw [State.book_putBook_of_ne _ hoo, (hbounds o).1, (hbounds o).2, hb₂] at ho
    exact List.mem_append_left _ (h.pending o ho)

/-- `do_enqueue_messages` knits a queue off the ring in after the last one, and leaves a ring
that holds it as it was. -/
theorem RingInv.doEnqueueMessages (h : RingInv s ring) (c : Config O) (origin : O) (messages : List (List UInt8)) :
    RingInv (MessageQueue.doEnqueueMessages c s origin messages) (if origin ∈ ring then ring else ring ++ [origin]) := by
  unfold MessageQueue.doEnqueueMessages
  dsimp only
  -- the loop writes pages only, and carries the book with its neighbours
  generalize hr : List.foldl (enqueueStep c origin) _ messages = r
  obtain ⟨hfb, hfh, hfn⟩ := foldl_enqueueStep_frame c origin messages hr
  obtain ⟨s₁, b₁, p₁⟩ := r
  dsimp only at hfb hfh hfn ⊢
  split
  · -- a queue on the ring stays where it is
    rename_i n hn
    have hmem : origin ∈ ring := h.ready.mem_of_neighbours (hfn ▸ hn)
    rw [if_pos hmem]
    refine RingInv.putBook (RingInv.congr h ?_ ?_) ?_ fun _ => hmem
    · cases p₁ <;> simp [hfh]
    · cases p₁ <;> simp [hfb]
    · cases p₁ <;> simp [hfb, hfn]
  · -- a queue off the ring is knitted in after the last one
    rename_i hn
    have hout : origin ∉ ring := h.ready.neighbours_eq_none_iff.mp (hfn ▸ hn)
    rw [if_neg hout]
    cases p₁ <;> dsimp only <;> split
    -- knitting cannot fail on a laid out ring
    all_goals
      rename_i hk
      obtain ⟨n, hn, hinv⟩ := h.knit_putBook hout hk (by simp [hfb]) (by simp [hfh]) b₁
      cases hn
    all_goals exact hinv

end Enqueue

section Service

/-- What servicing the pages of `origin` keeps, from `s` with its book held as `b` to `s'` with
it held as `b'`: the head, every other book, and the neighbours and end of the held book; the
stored book of `origin` keeps the held book's neighbours. -/
structure ServiceFrame (origin : O) (s : State O) (b : BookState O) (s' : State O) (b' : BookState O) : Prop where
  head : s'.serviceHead = s.serviceHead
  book : ∀ o, o ≠ origin → s'.book o = s.book o
  neighbours : b'.readyNeighbours = b.readyNeighbours
  stored : (s.book origin).readyNeighbours = b.readyNeighbours →
    (s'.book origin).readyNeighbours = b'.readyNeighbours
  end_eq : b'.end = b.end

namespace ServiceFrame

variable {origin : O} {s s' s'' : State O} {b b' b'' : BookState O}

omit [DecidableEq O] in
theorem refl (origin : O) (s : State O) (b : BookState O) : ServiceFrame origin s b s b :=
  ⟨rfl, fun _ _ => rfl, rfl, id, rfl⟩

omit [DecidableEq O] in
theorem trans (h₁ : ServiceFrame origin s b s' b') (h₂ : ServiceFrame origin s' b' s'' b'') :
    ServiceFrame origin s b s'' b'' :=
  ⟨h₂.head.trans h₁.head, fun o ho => (h₂.book o ho).trans (h₁.book o ho), h₂.neighbours.trans h₁.neighbours,
    fun hs => h₂.stored (h₁.stored hs), h₂.end_eq.trans h₁.end_eq⟩

omit [DecidableEq O] in
/-- Changing the held book's counters. -/
theorem held (h : ServiceFrame origin s b s' b') (hn : b''.readyNeighbours = b'.readyNeighbours)
    (he : b''.end = b'.end) : ServiceFrame origin s b s' b'' :=
  ⟨h.head, h.book, hn.trans h.neighbours, fun hs => (h.stored hs).trans hn.symm, he.trans h.end_eq⟩

/-- Writing a page of `origin`. -/
theorem putPage (h : ServiceFrame origin s b s' b') (i : ℕ) (page : Page) :
    ServiceFrame origin s b (s'.putPage origin i page) b' :=
  ⟨h.head, fun o ho => by rw [State.book_putPage]; exact h.book o ho, h.neighbours,
    fun hs => by rw [State.book_putPage]; exact h.stored hs, h.end_eq⟩

/-- Removing a page of `origin`. -/
theorem removePage (h : ServiceFrame origin s b s' b') (i : ℕ) :
    ServiceFrame origin s b (s'.removePage origin i) b' :=
  ⟨h.head, fun o ho => by rw [State.book_removePage]; exact h.book o ho, h.neighbours,
    fun hs => by rw [State.book_removePage]; exact h.stored hs, h.end_eq⟩

/-- Storing a page and the held book, as `service_page_item` does before it runs the processor. -/
theorem putPage_putBook (origin : O) (s : State O) {b b' : BookState O} (i : ℕ) (page : Page)
    (hn : b'.readyNeighbours = b.readyNeighbours) (he : b'.end = b.end) :
    ServiceFrame origin s b ((s.putPage origin i page).putBook origin b) b' where
  head := rfl
  book o ho := by rw [State.book_putBook_of_ne _ ho, State.book_putPage]
  neighbours := hn
  stored _ := by rw [State.book_putBook_self, hn]
  end_eq := he

end ServiceFrame

variable (c : Config O) (origin : O) (overweightLimit : Weight)

theorem servicePageItem_frame (s : State O) (pageIndex : ℕ) (b : BookState O) (page : Page) (weight : WeightMeter) :
    ServiceFrame origin s b (servicePageItem c s origin pageIndex b page weight overweightLimit).1
      (servicePageItem c s origin pageIndex b page weight overweightLimit).2.1 := by
  unfold servicePageItem
  split_ifs
  · exact .refl origin s b
  · split
    · exact .refl origin s b
    · split
      · exact .refl origin s b
      · -- the page and the book are stored, the processor runs, and the book is read back
        dsimp only
        split
        · exact .putPage_putBook origin s pageIndex page (by simp) (by simp)
        · split <;> exact .putPage_putBook origin s pageIndex page (by simp) (by simp)

theorem servicePageLoop_frame (pageIndex : ℕ) (fuel : ℕ) :
    ∀ (s : State O) (b : BookState O) (page : Page) (weight : WeightMeter) (total : ℕ),
      ServiceFrame origin s b (servicePageLoop c origin pageIndex overweightLimit fuel s b page weight total).1
        (servicePageLoop c origin pageIndex overweightLimit fuel s b page weight total).2.1 := by
  induction fuel with
  | zero => exact fun s b _ _ _ => .refl origin s b
  | succ fuel ih =>
    intro s b page weight total
    have hi := servicePageItem_frame c origin overweightLimit s pageIndex b page weight
    simp only [servicePageLoop]
    generalize servicePageItem c s origin pageIndex b page weight overweightLimit = r at hi ⊢
    obtain ⟨s₁, b₁, page₁, weight₁, status⟩ := r
    -- a serviced item goes on to the next; any other status ends the page
    cases status with
    | bailed => exact hi
    | noItem => exact hi
    | noProgress => exact hi
    | executed isProcessed => cases isProcessed <;> exact hi.trans (ih _ _ _ _ _)

theorem servicePage_frame (s : State O) (b : BookState O) (weight : WeightMeter) :
    ServiceFrame origin s b (servicePage c s origin b weight overweightLimit).1
      (servicePage c s origin b weight overweightLimit).2.1 := by
  unfold servicePage
  split
  · exact .refl origin s b
  · rename_i weight _
    dsimp only
    split
    · exact .refl origin s b
    · rename_i page _
      have hl := servicePageLoop_frame c origin overweightLimit b.begin (page.heap.length + 1) s b page weight 0
      generalize servicePageLoop c origin b.begin overweightLimit (page.heap.length + 1) s b page weight 0 = r at hl ⊢
      obtain ⟨s₁, b₁, page₁, weight₁, total, status⟩ := r
      dsimp only at hl ⊢
      split_ifs
      · exact (hl.removePage _).held rfl rfl
      · exact hl.putPage _ _

theorem serviceQueueLoop_frame (fuel : ℕ) :
    ∀ (s : State O) (b : BookState O) (weight : WeightMeter) (total : ℕ),
      ServiceFrame origin s b (serviceQueueLoop c origin overweightLimit fuel s b weight total).1
        (serviceQueueLoop c origin overweightLimit fuel s b weight total).2.1 := by
  induction fuel with
  | zero => exact fun s b _ _ => .refl origin s b
  | succ fuel ih =>
    intro s b weight total
    simp only [serviceQueueLoop]
    split_ifs
    · have hp := servicePage_frame c origin overweightLimit s b weight
      generalize servicePage c s origin b weight overweightLimit = r at hp ⊢
      obtain ⟨s₁, b₁, weight₁, processed, status⟩ := r
      -- a page with no more to service moves `begin` on to the next page
      cases status <;> dsimp only at hp ⊢
      case noMore =>
        have hheld : ServiceFrame origin s b s₁ { b₁ with begin := Nat.min (b₁.begin + 1) u32Max } :=
          hp.held rfl rfl
        exact hheld.trans (ih _ _ _ _)
      all_goals exact hp
    · exact .refl origin s b

/-- The loop of `service_queue` only moves `begin` when there are pages to service. -/
theorem serviceQueueLoop_pending (fuel : ℕ) (s : State O) (b : BookState O) (weight : WeightMeter) (total : ℕ)
    (h : (serviceQueueLoop c origin overweightLimit fuel s b weight total).2.1.begin <
      (serviceQueueLoop c origin overweightLimit fuel s b weight total).2.1.end) : b.begin < b.end := by
  cases fuel with
  | zero => exact h
  | succ fuel =>
    by_contra hb
    simp only [serviceQueueLoop, if_neg hb] at h
    exact hb h

variable {s : State O} {ring : List O}

/-- `service_queue` keeps the ring laid out and every queue with pages to service on it: a queue
with no page left is unknitted. -/
theorem RingInv.serviceQueue (h : RingInv s ring) (weight : WeightMeter) :
    ∃ ring', RingInv (MessageQueue.serviceQueue c s origin weight overweightLimit).1 ring' := by
  unfold MessageQueue.serviceQueue
  split
  · exact ⟨ring, h⟩
  · rename_i weight _
    dsimp only
    by_cases hpaused : c.isPaused origin = true
    · rw [if_pos hpaused]
      exact ⟨ring, h⟩
    · rw [if_neg hpaused]
      have hl := serviceQueueLoop_frame c origin overweightLimit
        ((s.book origin).end - (s.book origin).begin) s (s.book origin) weight 0
      have hp := serviceQueueLoop_pending c origin overweightLimit
        ((s.book origin).end - (s.book origin).begin) s (s.book origin) weight 0
      generalize serviceQueueLoop c origin overweightLimit ((s.book origin).end - (s.book origin).begin) s
        (s.book origin) weight 0 = r at hl hp ⊢
      obtain ⟨s₁, b₁, weight₁, total⟩ := r
      dsimp only at hl hp ⊢
      -- servicing leaves the ring as it was
      have hstored := hl.stored rfl
      have h₁ : ReadyRing s₁ ring := h.ready.congr hl.head fun o => by
        by_cases ho : o = origin
        · rw [ho, hstored, hl.neighbours]
        · rw [hl.book o ho]
      have hother : ∀ o, o ≠ origin → (s₁.book o).begin < (s₁.book o).end → o ∈ ring := fun o ho => by
        rw [hl.book o ho]
        exact h.pending o
      by_cases hdone : b₁.end ≤ b₁.begin
      · rw [if_pos hdone]
        split
        · -- no page left: the queue is unknitted
          rename_i n hn
          obtain ⟨hready, hbounds⟩ := h₁.unknit (hstored.trans hn) (b := { b₁ with readyNeighbours := none }) rfl
          refine ⟨ring.erase origin, hready, fun o ho => ?_⟩
          by_cases hoo : o = origin
          · rw [hoo, State.book_putBook_self] at ho
            exact absurd hdone (not_le.mpr ho)
          · rw [State.book_putBook_of_ne _ hoo, (hbounds o).1, (hbounds o).2] at ho
            exact h.ready.nodup.mem_erase_iff.mpr ⟨hoo, hother o hoo ho⟩
        · exact ⟨ring, RingInv.of_putBook h₁ hother hstored.symm fun ho => absurd hdone (not_le.mpr ho)⟩
      · rw [if_neg hdone]
        exact ⟨ring, RingInv.of_putBook h₁ hother hstored.symm fun ho => h.pending origin (hp ho)⟩

theorem RingInv.serviceQueuesLoop (fuel : ℕ) :
    ∀ {s : State O} {ring : List O}, RingInv s ring → ∀ (weight : WeightMeter) (next : O) (lastNoProgress : Option O),
      ∃ ring', RingInv (MessageQueue.serviceQueuesLoop c overweightLimit fuel s weight next lastNoProgress).1 ring' := by
  induction fuel with
  | zero => exact fun h _ _ _ => ⟨_, h⟩
  | succ fuel ih =>
    intro s ring h weight next lastNoProgress
    have h₁ := h.serviceQueue c next overweightLimit weight
    simp only [MessageQueue.serviceQueuesLoop]
    generalize MessageQueue.serviceQueue c s next weight overweightLimit = r at h₁ ⊢
    obtain ⟨s₁, weight₁, progressed, n⟩ := r
    obtain ⟨ring₁, h₁⟩ := h₁
    -- the loop goes on to the next queue unless it has come round without progress
    cases n with
    | none => exact ⟨ring₁, h₁⟩
    | some n =>
      cases progressed
      · dsimp only
        split_ifs
        · exact ⟨ring₁, h₁⟩
        · exact ih h₁ _ _ _
      · exact ih h₁ _ _ _

theorem RingInv.serviceQueuesImpl (h : RingInv s ring) (fuel : ℕ) (weightLimit : Weight) :
    ∃ ring', RingInv (MessageQueue.serviceQueuesImpl c fuel s weightLimit).1 ring' := by
  unfold MessageQueue.serviceQueuesImpl
  dsimp only
  obtain ⟨n, hb⟩ := h.bumpServiceHead c (WeightMeter.withLimit weightLimit)
  generalize MessageQueue.bumpServiceHead c s (WeightMeter.withLimit weightLimit) = r at hb ⊢
  obtain ⟨s₁, weight₁, next⟩ := r
  cases next with
  | none => exact ⟨_, hb⟩
  | some next => exact hb.serviceQueuesLoop c _ fuel weight₁ next none

end Service

section Calls

variable {s : State O} {ring : List O} (c : Config O)

theorem RingInv.onInitialize (h : RingInv s ring) (fuel : ℕ) :
    ∃ ring', RingInv (MessageQueue.onInitialize c fuel s).1 ring' := by
  unfold MessageQueue.onInitialize
  split
  · exact h.serviceQueuesImpl c fuel _
  · exact ⟨ring, h⟩

theorem RingInv.onIdle (h : RingInv s ring) (fuel : ℕ) (remainingWeight : Weight) :
    ∃ ring', RingInv (MessageQueue.onIdle c fuel s remainingWeight).1 ring' := by
  unfold MessageQueue.onIdle
  split
  · exact h.serviceQueuesImpl c fuel _
  · exact ⟨ring, h⟩

/-- `execute_overweight` that succeeds rewrites a page and the counters of its book only. -/
theorem RingInv.doExecuteOverweight (h : RingInv s ring) {origin : O} {pageIndex index : ℕ} {weightLimit : Weight}
    {s' : State O} {w : Weight} (hok : MessageQueue.doExecuteOverweight c s origin pageIndex index weightLimit = .ok (s', w)) :
    RingInv s' ring := by
  unfold MessageQueue.doExecuteOverweight at hok
  repeat' (try dsimp only at hok); first | split_ifs at hok | split at hok
  -- the failing branches change nothing; the others store the book with its neighbours and bounds
  all_goals first
    | (cases hok; refine RingInv.putBook ?_ rfl (h.pending origin); exact h.congr rfl rfl)
    | cases hok

/-- `reap_page` that succeeds removes a page and lowers the counters of its book only. -/
theorem RingInv.doReapPage (h : RingInv s ring) {origin : O} {pageIndex : ℕ} {s' : State O}
    (hok : MessageQueue.doReapPage c s origin pageIndex = .ok s') : RingInv s' ring := by
  unfold MessageQueue.doReapPage at hok
  repeat' (try dsimp only at hok); first | split_ifs at hok | split at hok
  -- the failing branches change nothing; the others store the book with its neighbours and bounds
  all_goals first
    | (cases hok; refine RingInv.putBook ?_ rfl (h.pending origin); exact h.congr rfl rfl)
    | cases hok

omit [DecidableEq O] in
theorem book_of_bookStateFor {s : State O} {origin : O} {b : BookState O} (hb : s.bookStateFor origin = some b) :
    s.book origin = b := by
  rw [State.book, hb]
  rfl

/-- `sweep_queue` moves `begin` to `end` and unknits the queue. -/
theorem RingInv.sweepQueue (h : RingInv s ring) (origin : O) :
    ∃ ring', RingInv (MessageQueue.sweepQueue s origin) ring' := by
  unfold MessageQueue.sweepQueue
  split
  · exact ⟨ring, h⟩
  · rename_i b hb
    have hbook := book_of_bookStateFor hb
    dsimp only
    split
    · rename_i n hn
      obtain ⟨hready, hbounds⟩ := h.ready.unknit (hbook ▸ hn)
        (b := { b with begin := b.end, readyNeighbours := none }) rfl
      refine ⟨ring.erase origin, hready, fun o ho => ?_⟩
      by_cases hoo : o = origin
      · rw [hoo, State.book_putBook_self] at ho
        exact absurd ho (lt_irrefl _)
      · rw [State.book_putBook_of_ne _ hoo, (hbounds o).1, (hbounds o).2] at ho
        exact h.ready.nodup.mem_erase_iff.mpr ⟨hoo, h.pending o ho⟩
    · exact ⟨ring, h.putBook (by rw [hbook]) fun ho => absurd ho (lt_irrefl _)⟩

end Calls

/-- The calls that change the pallet's storage: `enqueue_message` and `enqueue_messages`,
`service_queues` and the hooks that call it, the dispatchables `execute_overweight` and
`reap_page`, `sweep_queue` and `force_set_head`. -/
inductive Op (O : Type) where
  | enqueueMessage (message : List UInt8) (origin : O)
  | enqueueMessages (messages : List (List UInt8)) (origin : O)
  | serviceQueues (weightLimit : Weight)
  | onInitialize
  | onIdle (remainingWeight : Weight)
  | executeOverweight (origin : O) (pageIndex index : ℕ) (weightLimit : Weight)
  | reapPage (origin : O) (pageIndex : ℕ)
  | sweepQueue (origin : O)
  | forceSetHead (weight : WeightMeter) (origin : O)

/-- The storage after a call; a dispatchable that fails leaves it as it was. `fuel` bounds the
queues that one servicing visits. -/
def Op.apply (c : Config O) (fuel : ℕ) (s : State O) : Op O → State O
  | .enqueueMessage message origin => MessageQueue.enqueueMessage c s message origin
  | .enqueueMessages messages origin => doEnqueueMessages c s origin messages
  | .serviceQueues weightLimit => (serviceQueuesImpl c fuel s weightLimit).1
  | .onInitialize => (MessageQueue.onInitialize c fuel s).1
  | .onIdle remainingWeight => (MessageQueue.onIdle c fuel s remainingWeight).1
  | .executeOverweight origin pageIndex index weightLimit =>
    match doExecuteOverweight c s origin pageIndex index weightLimit with
    | .ok (s', _) => s'
    | .error _ => s
  | .reapPage origin pageIndex =>
    match doReapPage c s origin pageIndex with
    | .ok s' => s'
    | .error _ => s
  | .sweepQueue origin => MessageQueue.sweepQueue s origin
  | .forceSetHead weight origin => (setServiceHead c s weight origin).1

/-- The storage after a run of calls. -/
def run (c : Config O) (fuel : ℕ) : State O → List (Op O) → State O
  | s, [] => s
  | s, op :: ops => run c fuel (op.apply c fuel s) ops

section Run

variable {s : State O} {ring : List O} (c : Config O) (fuel : ℕ)

/-- The step lemma: every call keeps the ready ring laid out, with every queue that has pages
to service on it. -/
theorem RingInv.apply (h : RingInv s ring) (op : Op O) : ∃ ring', RingInv (op.apply c fuel s) ring' := by
  cases op with
  | enqueueMessage message origin => exact ⟨_, h.doEnqueueMessages c origin [message]⟩
  | enqueueMessages messages origin => exact ⟨_, h.doEnqueueMessages c origin messages⟩
  | serviceQueues weightLimit => exact h.serviceQueuesImpl c fuel weightLimit
  | onInitialize => exact h.onInitialize c fuel
  | onIdle remainingWeight => exact h.onIdle c fuel remainingWeight
  | executeOverweight origin pageIndex index weightLimit =>
    simp only [Op.apply]
    split
    · rename_i hok
      exact ⟨ring, h.doExecuteOverweight c hok⟩
    · exact ⟨ring, h⟩
  | reapPage origin pageIndex =>
    simp only [Op.apply]
    split
    · rename_i hok
      exact ⟨ring, h.doReapPage c hok⟩
    · exact ⟨ring, h⟩
  | sweepQueue origin => exact h.sweepQueue origin
  | forceSetHead weight origin =>
    obtain ⟨n, hn⟩ := h.setServiceHead c weight origin
    exact ⟨_, hn⟩

/-- The run lemma. -/
theorem RingInv.run (h : RingInv s ring) (ops : List (Op O)) : ∃ ring', RingInv (run c fuel s ops) ring' := by
  induction ops generalizing s ring with
  | nil => exact ⟨ring, h⟩
  | cons op ops ih =>
    obtain ⟨ring', h'⟩ := h.apply c fuel op
    exact ih h'

theorem ringInv_empty : RingInv (State.empty : State O) [] := by
  refine ⟨⟨List.nodup_nil, rfl, fun o => rfl, fun o => rfl⟩, fun o ho => absurd ho (lt_irrefl 0)⟩

end Run

/-- From empty storage, every run of the pallet's calls keeps the ready ring laid out as a list
of distinct queues read round from the service head, each book holding its queue's neighbours
round it and a book off it none, and keeps every queue with a page to service on the ring. -/
theorem run_keeps_ready_ring (c : Config O) (fuel : ℕ) (ops : List (Op O)) :
    ∃ ring, RingInv (run c fuel State.empty ops) ring :=
  ringInv_empty.run c fuel ops

/-- After any run from empty storage neither defensive branch of the ring code is reachable:
the service head's book holds neighbours for `bump_service_head`, and `ready_ring_knit` succeeds
for every queue. -/
theorem run_ring_defensive_unreachable (c : Config O) (fuel : ℕ) (ops : List (Op O)) :
    (∀ head, (run c fuel State.empty ops).serviceHead = some head →
      ∃ n, ((run c fuel State.empty ops).book head).readyNeighbours = some n) ∧
    ∀ origin, (readyRingKnit (run c fuel State.empty ops) origin).2.isSome := by
  obtain ⟨ring, h⟩ := ringInv_empty.run c fuel ops
  exact ⟨fun head hh => h.ready.head_neighbours hh, h.ready.readyRingKnit_isSome⟩

end PolkadotSdk.MessageQueue
