import PolkadotSdk.BagsListReorder

/-!
# The bags list's own consistency check

`List::do_try_state` with `Bag::do_try_state` and `Node::do_try_state`, the checks that
try-runtime runs after the pallet's calls. Over a layout whose node counter counts the stored
nodes every check passes (`Layout.doTryState_ok`), so the check never fails on a state that
keeps the representation invariant.
-/

namespace PolkadotSdk.BagsList

open LinkedStore

variable {A : Type} [DecidableEq A]

/-- `Bag::do_try_state`: the head has no `prev` and the tail no `next` (a bag without a head
has no tail, and the other way), and walking the bag meets no id twice. -/
def Bag.doTryState (s : State A) (bag : Bag A) : Except String Unit :=
  if !(((bag.head.bind s.getNode).map fun head => head.prev.isNone).getD bag.tail.isNone) then
    .error "head has a prev"
  else if !(((bag.tail.bind s.getNode).map fun tail => tail.next.isNone).getD bag.head.isNone) then
    .error "tail has a next"
  else if !decide (bagIds s bag).Nodup then .error "duplicate found in bag"
  else .ok ()

/-- `Node::do_try_state`: the node's bag is stored, and a terminal node is its head or tail. -/
def Node.doTryState (s : State A) (node : Node A) : Except String Unit :=
  match s.getBag node.bagUpper with
  | none => .error "bag not found for node"
  | some expectedBag =>
    let nonTerminalCheck :=
      !node.isTerminal && expectedBag.head != some node.id && expectedBag.tail != some node.id
    let terminalCheck := expectedBag.head == some node.id || expectedBag.tail == some node.id
    if nonTerminalCheck || terminalCheck then .ok () else .error "a terminal node is neither its bag head or tail"

/-- The stored bags of the thresholds, with `scoreMax` added when they omit it, lowest first. -/
def activeBags (T : List ℕ) (s : State A) : List (Bag A) :=
  (effectiveThresholds T).filterMap s.getBag

/-- `List::do_try_state`: no id twice along `iter`, the counter of `ListNodes` equal to the
number of nodes iterated and stored, every active bag sane and holding all stored nodes
between them, and each stored node in the bag it names. `ListNodes` is visited in the order
of the store. -/
def doTryState (T : List ℕ) (s : State A) : Except String Unit := do
  if !decide ((iter T s).map Node.id).Nodup then throw "duplicate identified"
  let iterCount := (iter T s).length
  let storedCount := s.counterForListNodes
  let nodesCount := s.listNodes.entries.length
  if iterCount ≠ storedCount then throw "iter_count != stored_count"
  if storedCount ≠ nodesCount then throw "stored_count != nodes_count"
  let bags := activeBags T s
  bags.forM (Bag.doTryState s)
  let nodesInBagsCount := (bags.map fun b => (bagIds s b).length).sum
  if nodesCount ≠ nodesInBagsCount then throw "stored_count != nodes_in_bags_count"
  s.listNodes.entries.forM fun e => do
    let some expectedBag := bags.find? (·.bagUpper = e.2.bagUpper)
      | throw "bag not found for the node in active bags"
    if e.2.id ∉ bagIds s expectedBag then throw "node not found in the bag"
    Node.doTryState s e.2

omit [DecidableEq A] in
theorem forM_eq_ok {ε α : Type} {l : List α} {f : α → Except ε Unit} (h : ∀ x ∈ l, f x = .ok ()) :
    forM l f = .ok () := by
  induction l with
  | nil => rfl
  | cons a l ih =>
    rw [List.forM_cons, h a List.mem_cons_self]
    exact ih fun x hx => h x (List.mem_cons_of_mem a hx)

theorem mem_activeBags {T : List ℕ} {s : State A} {b : Bag A} :
    b ∈ activeBags T s ↔ b.bagUpper ∈ effectiveThresholds T ∧ s.getBag b.bagUpper = some b := by
  unfold activeBags
  rw [List.mem_filterMap]
  constructor
  · rintro ⟨u, hu, hb⟩
    have hupper : b.bagUpper = u := by
      unfold State.getBag at hb
      obtain ⟨_, -, rfl⟩ := Option.map_eq_some_iff.mp hb
      rfl
    rw [hupper]
    exact ⟨hu, hb⟩
  · rintro ⟨hu, hb⟩
    exact ⟨_, hu, hb⟩

section Layout

variable {T : List ℕ} {s : State A} {ids : ℕ → List A} {score : A → ℕ}

/-- A stored bag walks the list of its ids. -/
theorem Layout.bagIds_eq (h : Layout T s ids score) {u : ℕ} {bag : Bag A} (hb : s.getBag u = some bag) :
    bagIds s bag = ids u := by
  rw [bagIds, h.repr.bagIter_eq hb, map_id_layoutContent]

/-- Every active bag passes `Bag::do_try_state`. -/
theorem Layout.bag_doTryState (h : Layout T s ids score) {bag : Bag A} (hb : bag ∈ activeBags T s) :
    Bag.doTryState s bag = .ok () := by
  obtain ⟨-, hget⟩ := mem_activeBags.mp hb
  obtain ⟨hhead, htail⟩ := h.ends _ bag hget
  have hnd := h.nodup_bag bag.bagUpper
  -- the head's record has no predecessor, the tail's no successor
  have hprev : ((bag.head.bind s.getNode).map fun head => head.prev.isNone).getD bag.tail.isNone = true := by
    rw [hhead, htail]
    cases hk : (ids bag.bagUpper).head? with
    | none => simp [List.head?_eq_none_iff.mp hk]
    | some k =>
      have hmem : k ∈ ids bag.bagUpper := List.mem_of_head? hk
      simp [h.node _ k hmem, layoutNode, (prevOf_eq_none_iff hnd hmem).mpr hk]
  have hnext : ((bag.tail.bind s.getNode).map fun tail => tail.next.isNone).getD bag.head.isNone = true := by
    rw [hhead, htail]
    cases hk : (ids bag.bagUpper).getLast? with
    | none => simp [List.getLast?_eq_none_iff.mp hk]
    | some k =>
      have hmem : k ∈ ids bag.bagUpper := List.mem_of_getLast? hk
      simp [h.node _ k hmem, layoutNode, (nextOf_eq_none_iff hnd hmem).mpr hk]
  have hdup : decide (bagIds s bag).Nodup = true := by
    rw [h.bagIds_eq hget]
    exact decide_eq_true hnd
  unfold Bag.doTryState
  rw [hprev, hnext, hdup]
  rfl

/-- Every stored node passes `Node::do_try_state`: a node with no predecessor heads its bag and
one with no successor ends it. -/
theorem Layout.node_doTryState (h : Layout T s ids score) {u : ℕ} {k : A} (hk : k ∈ ids u) :
    Node.doTryState s (layoutNode ids score u k) = .ok () := by
  have hnd := h.nodup_bag u
  obtain ⟨hhead, htail⟩ := h.ends u _ (h.getBag_of_mem hk)
  unfold Node.doTryState
  rw [show (layoutNode ids score u k).bagUpper = u from rfl, h.getBag_of_mem hk]
  by_cases hends : (ids u).head? = some k ∨ (ids u).getLast? = some k
  · -- a head or a tail passes the terminal check
    rcases hends with hh | ht
    · simp [layoutNode, hh]
    · simp [layoutNode, ht]
  · -- any other node has both neighbours, so it is not terminal
    rw [not_or] at hends
    have hp : prevOf (ids u) k ≠ none := fun hp => hends.1 ((prevOf_eq_none_iff hnd hk).mp hp)
    have hn : nextOf (ids u) k ≠ none := fun hn => hends.2 ((nextOf_eq_none_iff hnd hk).mp hn)
    simp [layoutNode, Node.isTerminal, Option.isNone_iff_eq_none, hp, hn, hends.1, hends.2]

/-- The active bags hold, between them, all the ids the thresholds lay out. -/
theorem Layout.sum_bagIds_length (h : Layout T s ids score) :
    ((activeBags T s).map fun b => (bagIds s b).length).sum = ((effectiveThresholds T).flatMap ids).length := by
  have hbags := h.repr.flatMap_bags (effectiveThresholds T)
  have hlen := congrArg List.length hbags
  rw [List.length_flatMap, List.length_flatMap] at hlen
  rw [List.length_flatMap, activeBags]
  simpa [bagIds, layoutContent] using hlen

theorem Layout.length_iter (h : Layout T s ids score) : (iter T s).length = s.listNodes.entries.length := by
  simpa using (iter_perm h.repr).length_eq

/-- Over a layout whose counter counts the stored nodes, `List::do_try_state` passes. -/
theorem Layout.doTryState_ok (h : Layout T s ids score)
    (hcount : s.counterForListNodes = s.listNodes.entries.length) : doTryState T s = .ok () := by
  have hnodup : decide ((iter T s).map Node.id).Nodup = true := by
    rw [h.map_id_iter]
    exact decide_eq_true h.order_nodup
  have hiter : (iter T s).length = s.counterForListNodes := by rw [h.length_iter, hcount]
  have hsum : s.listNodes.entries.length = ((activeBags T s).map fun b => (bagIds s b).length).sum := by
    rw [h.sum_bagIds_length, ← h.length_iter, ← List.length_map Node.id, h.map_id_iter]
    exact ((List.reverse_perm _).flatMap_right ids).length_eq
  have hbags : forM (activeBags T s) (Bag.doTryState s) = .ok () :=
    forM_eq_ok fun b hb => h.bag_doTryState hb
  simp [doTryState, hnodup, hiter, hcount, hbags, ← hsum]
  -- each stored node is found in the bag it names, and passes its own check
  refine forM_eq_ok fun ⟨k, x⟩ hkx => ?_
  obtain ⟨u, hu, rfl⟩ := h.getNode_eq (AList.mem_lookup_iff.mpr hkx)
  obtain ⟨b, hfind⟩ : ∃ b, (activeBags T s).find? (fun b => decide (b.bagUpper = u)) = some b := by
    refine Option.isSome_iff_exists.mp (List.find?_isSome.mpr ?_)
    exact ⟨⟨(ids u).head?, (ids u).getLast?, u⟩, mem_activeBags.mpr ⟨h.mem_effective hu, h.getBag_of_mem hu⟩,
      by simp⟩
  have hbu : b.bagUpper = u := by simpa using List.find?_some hfind
  have hgetb : s.getBag u = some b := hbu ▸ (mem_activeBags.mp (List.mem_of_find?_eq_some hfind)).2
  simp only [show (layoutNode ids score u k).bagUpper = u from rfl, hfind]
  rw [h.bagIds_eq hgetb, if_pos (show (layoutNode ids score u k).id ∈ ids u from hu)]
  exact h.node_doTryState hu

end Layout

end PolkadotSdk.BagsList
