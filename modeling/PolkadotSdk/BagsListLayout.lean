import PolkadotSdk.BagsListIter

/-!
# The bags as lists of ids

A state keeps the representation invariant exactly when it is laid out by a list of ids per
bag and a score per id: each id listed in bag `u` is stored as the record that links it to its
neighbours in `u`'s list, names `u` and carries its score, and each stored bag records the
first and last id of its list (`Layout`, `Repr.layout`, `Layout.repr`). Over a layout the
iteration order is the bags' lists read from the highest threshold down
(`Layout.map_id_iter`), and the list's operations become steps on the lists of ids.
-/

namespace PolkadotSdk.BagsList

open LinkedStore

variable {A : Type} [DecidableEq A]

namespace State

variable (s : State A)

@[simp] theorem getNode_putNode (n : Node A) (k : A) :
    (s.putNode n).getNode k = if k = n.id then some n else s.getNode k := by
  show (s.listNodes.insert n.id n).lookup k = _
  split_ifs with h
  · subst h
    exact AList.lookup_insert _
  · exact AList.lookup_insert_ne h

@[simp] theorem getNode_removeNode (i k : A) :
    (s.removeNode i).getNode k = if k = i then none else s.getNode k := by
  show (s.listNodes.erase i).lookup k = _
  split_ifs with h
  · subst h
    exact AList.lookup_erase _ _
  · exact AList.lookup_erase_ne h

@[simp] theorem getNode_putBag (b : Bag A) : (s.putBag b).getNode = s.getNode := by
  unfold putBag
  split_ifs <;> rfl

@[simp] theorem getBag_putNode (n : Node A) : (s.putNode n).getBag = s.getBag := rfl

@[simp] theorem getBag_removeNode (i : A) : (s.removeNode i).getBag = s.getBag := rfl

/-- `Bag::put` stores the bag under its threshold, or deletes it when it is empty. -/
theorem getBag_putBag (b : Bag A) (u : ℕ) :
    (s.putBag b).getBag u =
      if u = b.bagUpper then (if b.head.isNone ∧ b.tail.isNone then none else some b) else s.getBag u := by
  obtain ⟨head, tail, upper⟩ := b
  by_cases hempty : head.isNone ∧ tail.isNone
  · by_cases hu : u = upper
    · subst hu
      simp [putBag, getBag, hempty, AList.lookup_erase]
    · simp [putBag, getBag, hempty, hu, AList.lookup_erase_ne hu]
  · by_cases hu : u = upper
    · subst hu
      simp only [putBag, getBag, if_neg hempty, if_true, AList.lookup_insert, Option.map_some]
    · simp only [putBag, getBag, if_neg hempty, if_neg hu, AList.lookup_insert_ne hu]

/-- The node stored under `k`, if any, with its `next` link set to `o`. -/
def relinkNext (k o : Option A) : State A :=
  match k.bind s.getNode with
  | some y => s.putNode { y with next := o }
  | none => s

/-- The node stored under `k`, if any, with its `prev` link set to `o`. -/
def relinkPrev (k o : Option A) : State A :=
  match k.bind s.getNode with
  | some y => s.putNode { y with prev := o }
  | none => s

@[simp] theorem relinkNext_none (o : Option A) : s.relinkNext none o = s := rfl

@[simp] theorem relinkPrev_none (o : Option A) : s.relinkPrev none o = s := rfl

@[simp] theorem getBag_relinkNext (k o : Option A) : (s.relinkNext k o).getBag = s.getBag := by
  unfold relinkNext
  split <;> rfl

@[simp] theorem getBag_relinkPrev (k o : Option A) : (s.relinkPrev k o).getBag = s.getBag := by
  unfold relinkPrev
  split <;> rfl

variable {s}

theorem getNode_relinkNext {k : A} {y : Node A} (hk : s.getNode k = some y) (hid : y.id = k) (o : Option A)
    (j : A) : (s.relinkNext (some k) o).getNode j = if j = k then some { y with next := o } else s.getNode j := by
  simp only [relinkNext, Option.bind_some, hk, getNode_putNode, hid]

theorem getNode_relinkPrev {k : A} {y : Node A} (hk : s.getNode k = some y) (hid : y.id = k) (o : Option A)
    (j : A) : (s.relinkPrev (some k) o).getNode j = if j = k then some { y with prev := o } else s.getNode j := by
  simp only [relinkPrev, Option.bind_some, hk, getNode_putNode, hid]

/-- Relinking an optional key: the record under it, if any, gets the new `next` link. -/
theorem getNode_relinkNext_of {k : Option A} (hk : ∀ a y, k = some a → s.getNode a = some y → y.id = a)
    (o : Option A) (j : A) :
    (s.relinkNext k o).getNode j = if k = some j then (s.getNode j).map fun y => { y with next := o } else s.getNode j := by
  cases k with
  | none => simp
  | some a =>
    cases ha : s.getNode a with
    | none =>
      simp only [relinkNext, Option.bind_some, ha]
      split_ifs with hj
      · cases hj
        rw [ha]
        rfl
      · rfl
    | some y =>
      rw [getNode_relinkNext ha (hk a y rfl ha)]
      by_cases hj : j = a
      · subst hj
        simp [ha]
      · simp [hj, Ne.symm hj]

/-- Relinking an optional key: the record under it, if any, gets the new `prev` link. -/
theorem getNode_relinkPrev_of {k : Option A} (hk : ∀ a y, k = some a → s.getNode a = some y → y.id = a)
    (o : Option A) (j : A) :
    (s.relinkPrev k o).getNode j = if k = some j then (s.getNode j).map fun y => { y with prev := o } else s.getNode j := by
  cases k with
  | none => simp
  | some a =>
    cases ha : s.getNode a with
    | none =>
      simp only [relinkPrev, Option.bind_some, ha]
      split_ifs with hj
      · cases hj
        rw [ha]
        rfl
      · rfl
    | some y =>
      rw [getNode_relinkPrev ha (hk a y rfl ha)]
      by_cases hj : j = a
      · subst hj
        simp [ha]
      · simp [hj, Ne.symm hj]

end State

/-- `Node::excise` relinks the node's neighbours to each other. -/
theorem excise_eq (s : State A) (x : Node A) : excise s x = (s.relinkNext x.prev x.next).relinkPrev x.next x.prev :=
  rfl

/-- The record of id `k` in bag `u` as the lists `ids` and the scores `score` lay it out. -/
def layoutNode (ids : ℕ → List A) (score : A → ℕ) (u : ℕ) (k : A) : Node A :=
  ⟨k, prevOf (ids u) k, nextOf (ids u) k, u, score k⟩

/-- The records of a layout, bag by bag. -/
def layoutContent (ids : ℕ → List A) (score : A → ℕ) (u : ℕ) : List (Node A) :=
  (ids u).map (layoutNode ids score u)

@[simp] theorem map_id_layoutContent (ids : ℕ → List A) (score : A → ℕ) (u : ℕ) :
    (layoutContent ids score u).map Node.id = ids u := by
  simp [layoutContent, Function.comp_def, layoutNode]

/-- The state is laid out by the bags' lists of ids `ids` and the scores `score`: each listed
id is stored as its layout record, each stored bag holds the ends of its list, an absent bag
lists nothing, each score lies in the bag of its id, no id is listed twice and every stored
node is listed. -/
structure Layout (T : List ℕ) (s : State A) (ids : ℕ → List A) (score : A → ℕ) : Prop where
  sorted : T.Pairwise (· < ·)
  bounded : ∀ t ∈ T, t ≤ scoreMax
  ends : ∀ u bag, s.getBag u = some bag → bag.head = (ids u).head? ∧ bag.tail = (ids u).getLast?
  absent : ∀ u, s.getBag u = none → ids u = []
  node : ∀ u, ∀ k ∈ ids u, s.getNode k = some (layoutNode ids score u k)
  placed : ∀ u, ∀ k ∈ ids u, score k ≤ scoreMax ∧ notionalBagFor T (score k) = u
  nodup : ((effectiveThresholds T).flatMap ids).Nodup
  complete : ∀ k, (s.getNode k).isSome → ∃ u, k ∈ ids u

namespace Layout

variable {T : List ℕ} {s : State A} {ids : ℕ → List A} {score : A → ℕ}

theorem mem_effective (h : Layout T s ids score) {u : ℕ} {k : A} (hk : k ∈ ids u) :
    u ∈ effectiveThresholds T := by
  rw [← (h.placed u k hk).2]
  exact notionalBagFor_mem _

theorem nodup_bag (h : Layout T s ids score) (u : ℕ) : (ids u).Nodup := by
  cases hc : ids u with
  | nil => exact List.nodup_nil
  | cons k l =>
    have hu := h.mem_effective (show k ∈ ids u by simp [hc])
    rw [← hc]
    exact h.nodup.sublist (List.infix_of_mem_flatten (List.mem_map_of_mem hu)).sublist

/-- An id is listed in one bag only: its record names that bag. -/
theorem bag_unique (h : Layout T s ids score) {u v : ℕ} {k : A} (hu : k ∈ ids u) (hv : k ∈ ids v) : u = v := by
  have e := (h.node u k hu).symm.trans (h.node v k hv)
  exact congrArg Node.bagUpper (Option.some.inj e)

/-- Every stored node is the layout record of its id. -/
theorem getNode_eq (h : Layout T s ids score) {k : A} {x : Node A} (hget : s.getNode k = some x) :
    ∃ u, k ∈ ids u ∧ x = layoutNode ids score u k := by
  obtain ⟨u, hu⟩ := h.complete k (by rw [hget]; rfl)
  exact ⟨u, hu, Option.some.inj (hget.symm.trans (h.node u k hu))⟩

theorem getBag_of_mem (h : Layout T s ids score) {u : ℕ} {k : A} (hk : k ∈ ids u) :
    s.getBag u = some ⟨(ids u).head?, (ids u).getLast?, u⟩ := by
  cases hb : s.getBag u with
  | none => rw [h.absent u hb] at hk; cases hk
  | some bag =>
    obtain ⟨hhead, htail⟩ := h.ends u bag hb
    have hupper : bag.bagUpper = u := by
      unfold State.getBag at hb
      obtain ⟨b, -, rfl⟩ := Option.map_eq_some_iff.mp hb
      rfl
    rw [← hhead, ← htail, ← hupper]

theorem id_of_getNode (h : Layout T s ids score) {k : A} {x : Node A} (hget : s.getNode k = some x) : x.id = k := by
  obtain ⟨u, -, rfl⟩ := h.getNode_eq hget
  rfl

/-- `Bag::get_or_make` reads the ends of the bag's list, stored or not. -/
theorem getOrMakeBag_eq (h : Layout T s ids score) (u : ℕ) :
    s.getOrMakeBag u = ⟨(ids u).head?, (ids u).getLast?, u⟩ := by
  cases hu : ids u with
  | nil =>
    unfold State.getOrMakeBag
    cases hb : s.getBag u with
    | none => rfl
    | some bag =>
      obtain ⟨hhead, htail⟩ := h.ends u bag hb
      have hupper : bag.bagUpper = u := by
        unfold State.getBag at hb
        obtain ⟨b, -, rfl⟩ := Option.map_eq_some_iff.mp hb
        rfl
      rw [hu] at hhead htail
      simp [← hhead, ← htail, ← hupper]
  | cons k l =>
    rw [State.getOrMakeBag, h.getBag_of_mem (show k ∈ ids u by simp [hu]), hu]
    rfl

/-- A layout is a property of what the state stores, not of how it came to store it. -/
theorem congr (h : Layout T s ids score) {s' : State A} (hn : s'.getNode = s.getNode) (hb : s'.getBag = s.getBag) :
    Layout T s' ids score where
  sorted := h.sorted
  bounded := h.bounded
  ends := by
    rw [hb]
    exact h.ends
  absent := by
    rw [hb]
    exact h.absent
  node := by
    rw [hn]
    exact h.node
  placed := h.placed
  nodup := h.nodup
  complete := by
    rw [hn]
    exact h.complete

/-- A layout keeps the representation invariant, with its records as the bags' contents. -/
theorem repr (h : Layout T s ids score) : Repr T s (layoutContent ids score) where
  sorted := h.sorted
  bounded := h.bounded
  linked := by
    intro u bag hb
    obtain ⟨hhead, htail⟩ := h.ends u bag hb
    constructor
    · rw [hhead]
      exact linked_map_of_nextOf (h.nodup_bag u) (fun k _ => rfl) (h.node u) (fun k _ => rfl)
    · rw [htail, layoutContent, ← List.map_reverse, ← List.head?_reverse]
      exact linked_map_of_nextOf (List.nodup_reverse.mpr (h.nodup_bag u)) (fun k _ => rfl)
        (fun k hk => h.node u k (List.mem_reverse.mp hk)) (fun k _ => rfl)
  absent := by
    intro u hb
    simp [layoutContent, h.absent u hb]
  bagUpper_eq := by
    intro u x hx
    obtain ⟨k, -, rfl⟩ := List.mem_map.mp hx
    rfl
  placed := by
    intro u x hx
    obtain ⟨k, hk, rfl⟩ := List.mem_map.mp hx
    exact h.placed u k hk
  nodup := by
    rw [List.map_flatMap]
    simpa using h.nodup
  complete := by
    intro k hk
    obtain ⟨u, hu⟩ := h.complete k (AList.lookup_isSome.mpr hk)
    exact ⟨u, layoutNode ids score u k, List.mem_map_of_mem hu, rfl⟩

/-- Over a layout the list iterates the bags' lists of ids from the highest threshold down. -/
theorem map_id_iter (h : Layout T s ids score) :
    (iter T s).map Node.id = (effectiveThresholds T).reverse.flatMap ids := by
  rw [iter_eq h.repr, List.map_flatMap]
  simp

end Layout

/-- A state that keeps the representation invariant is laid out by its bags' ids and its
stored scores. -/
theorem Repr.layout {T : List ℕ} {s : State A} {content : ℕ → List (Node A)} (h : Repr T s content) :
    Layout T s (fun u => (content u).map Node.id) (fun k => ((s.getNode k).map Node.score).getD 0) where
  sorted := h.sorted
  bounded := h.bounded
  ends := by
    intro u bag hb
    obtain ⟨hnext, hprev⟩ := h.linked u bag hb
    have hnd := h.nodup_ids u
    refine ⟨(hnext.eq_nextOf hnd).1, ?_⟩
    rw [(hprev.eq_nextOf (by rw [List.map_reverse]; exact List.nodup_reverse.mpr hnd)).1, List.map_reverse,
      List.head?_reverse]
  absent := by
    intro u hb
    simp [h.absent u hb]
  node := by
    intro u k hk
    obtain ⟨x, hx, rfl⟩ := List.mem_map.mp hk
    have hget := h.getNode_of_mem hx
    obtain ⟨bag, hb⟩ : ∃ bag, s.getBag u = some bag := by
      cases hb : s.getBag u with
      | none => rw [h.absent u hb] at hx; cases hx
      | some bag => exact ⟨bag, rfl⟩
    obtain ⟨hnext, hprev⟩ := h.linked u bag hb
    have hnd := h.nodup_ids u
    have hn := (hnext.eq_nextOf hnd).2 x hx
    have hp := (hprev.eq_nextOf (by rw [List.map_reverse]; exact List.nodup_reverse.mpr hnd)).2 x
      (List.mem_reverse.mpr hx)
    rw [List.map_reverse] at hp
    have hu := h.bagUpper_eq u x hx
    rw [hget]
    simp only [layoutNode, hget, Option.map_some, Option.getD_some, prevOf, Option.some.injEq]
    rcases x with ⟨id, prev, next, bagUpper, score⟩
    simp only at hn hp hu ⊢
    subst hu
    rw [← hn, ← hp]
  placed := by
    intro u k hk
    obtain ⟨x, hx, rfl⟩ := List.mem_map.mp hk
    simpa [h.getNode_of_mem hx] using h.placed u x hx
  nodup := by
    rw [← List.map_flatMap]
    exact h.nodup
  complete := by
    intro k hk
    obtain ⟨u, x, hx, rfl⟩ := h.complete k (AList.lookup_isSome.mp hk)
    exact ⟨u, List.mem_map_of_mem hx⟩

end PolkadotSdk.BagsList
