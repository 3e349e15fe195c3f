import PolkadotSdk.BagsListOps
import PolkadotSdk.BagsListTryState

/-!
# Runs of the pallet's calls on the bags list

The calls that write the list (`on_insert`, `on_remove`, `on_update`, `rebag` and
`put_in_front_of`) as steps on the list's storage. Each step keeps the layout and the count of
`ListNodes`; so every run from the empty list keeps the representation invariant, and
`List::do_try_state` passes after it.
-/

namespace PolkadotSdk.BagsList

open LinkedStore

variable {A : Type} [DecidableEq A]

/-! ## The node counter -/

/-- `CounterForListNodes` counts the stored nodes. -/
def Counted (s : State A) : Prop := s.counterForListNodes = s.listNodes.entries.length

section Counted

variable {s : State A}

omit [DecidableEq A] in
theorem length_entries (m : AList fun _ : A => Node A) : m.entries.length = m.keys.length := by
  simp [AList.keys, List.keys]

theorem Counted.putNode (h : Counted s) (n : Node A) : Counted (s.putNode n) := by
  unfold Counted at h ⊢
  simp only [State.putNode, length_entries, AList.keys_insert, List.length_cons]
  split_ifs with hn
  · rw [List.length_erase_of_mem (AList.mem_keys.mpr hn), h, length_entries]
    have : 0 < s.listNodes.keys.length := List.length_pos_of_mem (AList.mem_keys.mpr hn)
    omega
  · rw [List.erase_of_not_mem (mt AList.mem_keys.mp hn), h, length_entries]

theorem Counted.removeNode (h : Counted s) (i : A) : Counted (s.removeNode i) := by
  unfold Counted at h ⊢
  simp only [State.removeNode, length_entries, AList.keys_erase]
  split_ifs with hi
  · rw [List.length_erase_of_mem (AList.mem_keys.mpr hi), h, length_entries]
  · rw [List.erase_of_not_mem (mt AList.mem_keys.mp hi), h, length_entries]

theorem counted_putBag (b : Bag A) : Counted (s.putBag b) ↔ Counted s := by
  unfold Counted State.putBag
  split_ifs <;> rfl

theorem Counted.relinkNext (h : Counted s) (k o : Option A) : Counted (s.relinkNext k o) := by
  unfold State.relinkNext
  split
  · exact h.putNode _
  · exact h

theorem Counted.relinkPrev (h : Counted s) (k o : Option A) : Counted (s.relinkPrev k o) := by
  unfold State.relinkPrev
  split
  · exact h.putNode _
  · exact h

theorem Counted.excise (h : Counted s) (x : Node A) : Counted (excise s x) := by
  rw [excise_eq]
  exact (h.relinkNext _ _).relinkPrev _ _

theorem Counted.insertNodeUnchecked (h : Counted s) (bag : Bag A) (node : Node A) :
    Counted (insertNodeUnchecked s bag node).1 := by
  unfold BagsList.insertNodeUnchecked
  split_ifs
  · exact h
  · simp only
    split
    · exact (h.putNode _).putNode _
    · exact h.putNode _

theorem Counted.foldl_putBag (h : Counted s) (bags : List (Bag A)) : Counted (bags.foldl State.putBag s) := by
  induction bags generalizing s with
  | nil => exact h
  | cons b bags ih => exact ih ((counted_putBag b).mpr h)

theorem Counted.removeManyLoop (h : Counted s) (ids : List A) (bags : List (Bag A)) (count : ℕ) :
    Counted (removeManyLoop ids s bags count).1 := by
  induction ids generalizing s bags count with
  | nil => exact h
  | cons i ids ih =>
    unfold BagsList.removeManyLoop
    split
    · exact ih h bags count
    · -- the node is cut out, by `excise` or by `remove_node_unchecked`, then dropped
      simp only
      split_ifs
      · exact ih ((h.excise _).removeNode _) _ _
      · exact ih ((h.excise _).removeNode _) _ _

theorem Counted.removeMany (h : Counted s) (ids : List A) : Counted (removeMany s ids).1 :=
  (h.removeManyLoop ids [] 0).foldl_putBag _

theorem Counted.insertAtUnchecked (h : Counted s) {atNode node : Node A} {s' : State A}
    (hs : insertAtUnchecked s atNode node = some s') : Counted s' := by
  rw [insertAtUnchecked_eq] at hs
  obtain ⟨t, ht, rfl⟩ := Option.map_eq_some_iff.mp hs
  have hr := h.relinkNext atNode.prev (some node.id)
  have htc : Counted t := by
    split_ifs at ht
    · obtain ⟨bag, -, rfl⟩ := Option.map_eq_some_iff.mp ht
      exact (counted_putBag _).mpr hr
    · cases ht
      exact hr
  exact (htc.putNode _).putNode _

theorem Counted.detachNode (h : Counted s) (x : Node A) : Counted (detachNode s x) := by
  rw [detachNode_eq]
  split_ifs
  · exact h.excise x
  · split
    · exact (counted_putBag _).mpr (h.excise x)
    · exact h

theorem Counted.updatePositionFor (h : Counted s) (T : List ℕ) (node : Node A) (newScore : ℕ) :
    Counted (updatePositionFor T s node newScore).1 := by
  rw [updatePositionFor_eq]
  split_ifs
  · exact (counted_putBag _).mpr ((h.detachNode _).insertNodeUnchecked _ _)
  · exact h.putNode _

end Counted

/-! ## The list's operations over a layout -/

section Steps

variable {T : List ℕ} {s : State A} {ids : ℕ → List A} {score : A → ℕ}

theorem getNode_eq_none_of_contains {i : A} (hi : contains s i = false) : s.getNode i = none := by
  unfold contains at hi
  exact AList.lookup_eq_none.mpr (of_decide_eq_false hi)

theorem getNode_isSome_of_contains {i : A} (hi : contains s i = true) : (s.getNode i).isSome := by
  unfold contains at hi
  exact AList.lookup_isSome.mpr (of_decide_eq_true hi)

/-- `List::insert` of an id the list does not hold appends it to the bag of its score. -/
theorem Layout.insert (h : Layout T s ids score) {i : A} (hi : contains s i = false) {sc : ℕ}
    (hsc : sc ≤ scoreMax) :
    ∃ s', insert T s i sc = .ok s' ∧
      Layout T s' (Function.update ids (notionalBagFor T sc) (ids (notionalBagFor T sc) ++ [i]))
        (Function.update score i sc) := by
  have h' := h.removeNode_of_getNode (getNode_eq_none_of_contains hi)
  have ha := h'.append (show (⟨i, none, none, 0, sc⟩ : Node A).id = i from rfl) hsc rfl
  exact ⟨_, by simp only [BagsList.insert, hi]; rfl, ha⟩

/-- `List::remove` of an id the list holds takes it out of its bag's list. -/
theorem Layout.remove_of_contains (h : Layout T s ids score) {i : A} (hi : contains s i = true) :
    ∃ u, i ∈ ids u ∧ BagsList.remove s i = .ok (removeMany s [i]).1 ∧
      Layout T (removeMany s [i]).1 (Function.update ids u ((ids u).erase i)) score := by
  obtain ⟨x, hx⟩ := Option.isSome_iff_exists.mp (getNode_isSome_of_contains hi)
  obtain ⟨u, hu, -⟩ := h.getNode_eq hx
  obtain ⟨P, Q, hPQ⟩ := List.append_of_mem hu
  obtain ⟨-, -, hiP, -, -⟩ := h.split_nodup hPQ
  have herase : (ids u).erase i = P ++ Q := by
    rw [hPQ, List.erase_append_right _ hiP, List.erase_cons_head]
  refine ⟨u, hu, by simp [BagsList.remove, hi], ?_⟩
  rw [herase]
  exact h.remove hPQ

/-- `put_in_front_of` that succeeds stores what `insert_at_unchecked` returns after the
removal of the heavier id. -/
theorem putInFrontOf_ok_some_inv {scoreOf : A → Option ℕ} {l j : A} {s' : State A}
    (hr : putInFrontOf scoreOf s l j = .ok (some s')) :
    ∃ ln' jn, insertAtUnchecked (removeMany s [j]).1 ln' jn = some s' := by
  obtain ⟨ln, jn, hl, hj, hb, hlt⟩ := putInFrontOf_ok_inv hr
  cases hl' : (removeMany s [j]).1.getNode l with
  | none =>
    simp only [putInFrontOf, hl, hj, hb, hlt, hl', ne_eq, not_true_eq_false, if_false, Bool.not_true,
      Bool.false_eq_true] at hr
    cases hr
  | some ln' =>
    rw [putInFrontOf_of_checks hl hj hb hlt hl'] at hr
    exact ⟨ln', jn, Except.ok.inj hr⟩

/-- `put_in_front_of` that succeeds keeps the layout, with the same scores. -/
theorem Layout.putInFrontOf_ok (h : Layout T s ids score) {scoreOf : A → Option ℕ} {l j : A}
    {r : Option (State A)} (hr : BagsList.putInFrontOf scoreOf s l j = .ok r) :
    ∃ s' ids', r = some s' ∧ Layout T s' ids' score := by
  obtain ⟨ln, jn, hl, hj, hb, hlt⟩ := putInFrontOf_ok_inv hr
  obtain ⟨u, hlu, rfl⟩ := h.getNode_eq hl
  obtain ⟨w, hjw, rfl⟩ := h.getNode_eq hj
  obtain rfl : u = w := hb
  obtain ⟨s', ids', hput, h', -⟩ := h.putInFrontOf hlu hjw hlt
  rw [hput] at hr
  exact ⟨s', ids', (Except.ok.inj hr).symm, h'⟩

end Steps

/-! ## The calls of the pallet -/

/-- `Pallet::do_rebag`: the stored node of the account moves to the bag of its new score. -/
def doRebag (T : List ℕ) (s : State A) (account : A) (newScore : ℕ) :
    Except ListError (State A × Option (ℕ × ℕ)) :=
  match s.getNode account with
  | none => .error .nodeNotFound
  | some node => .ok (updatePositionFor T s node newScore)

/-- `Pallet::rebag_internal`, without the lock and the queue of pending rebags: the account is
rebagged, inserted or removed as the list and the score provider say. -/
def rebagInternal (T : List ℕ) (scoreOf : A → Option ℕ) (s : State A) (account : A) :
    Except ListError (State A × Option (ℕ × ℕ)) :=
  match contains s account, scoreOf account with
  | true, some currentScore => doRebag T s account currentScore
  | false, some currentScore => (insert T s account currentScore).map fun s => (s, none)
  | true, none => (remove s account).map fun s => (s, none)
  | false, none => .error .nodeNotFound

/-- The calls that write the list: `on_insert`, `on_remove`, `on_update`, the extrinsic
`rebag` and the extrinsics `put_in_front_of` and `put_in_front_of_other`. -/
inductive Op (A : Type) where
  | insert (id : A) (score : ℕ)
  | remove (id : A)
  | update (id : A) (newScore : ℕ)
  | rebag (id : A)
  | putInFrontOf (lighter heavier : A)
  deriving DecidableEq

/-- One call on the list storage; `none` when the call fails or panics, which leaves the
storage as it was. -/
def Op.apply (T : List ℕ) (scoreOf : A → Option ℕ) (s : State A) : Op A → Option (State A)
  | .insert id score => (BagsList.insert T s id score).toOption
  | .remove id => (BagsList.remove s id).toOption
  | .update id newScore => (doRebag T s id newScore).toOption.map Prod.fst
  | .rebag id => (rebagInternal T scoreOf s id).toOption.map Prod.fst
  | .putInFrontOf lighter heavier => (BagsList.putInFrontOf scoreOf s lighter heavier).toOption.join

/-- A run of calls from a state. -/
def run (T : List ℕ) (scoreOf : A → Option ℕ) : State A → List (Op A) → State A
  | s, [] => s
  | s, op :: ops => run T scoreOf ((op.apply T scoreOf s).getD s) ops

/-- The scores a call passes are `u64` scores. -/
def Op.ScoreBounded : Op A → Prop
  | .insert _ score => score ≤ scoreMax
  | .update _ newScore => newScore ≤ scoreMax
  | _ => True

instance Op.decidableScoreBounded : (op : Op A) → Decidable op.ScoreBounded
  | .insert _ score => inferInstanceAs (Decidable (score ≤ scoreMax))
  | .remove _ => inferInstanceAs (Decidable True)
  | .update _ newScore => inferInstanceAs (Decidable (newScore ≤ scoreMax))
  | .rebag _ => inferInstanceAs (Decidable True)
  | .putInFrontOf _ _ => inferInstanceAs (Decidable True)

/-- The list is laid out by lists of ids, and its counter counts its nodes. -/
def Consistent (T : List ℕ) (s : State A) : Prop :=
  (∃ ids score, Layout T s ids score) ∧ Counted s

/-! ## Every call keeps the list consistent -/

section Run

variable {T : List ℕ} {s : State A}

theorem Consistent.insert (h : Consistent T s) {i : A} {sc : ℕ} (hsc : sc ≤ scoreMax) {s' : State A}
    (hs : BagsList.insert T s i sc = .ok s') : Consistent T s' := by
  obtain ⟨⟨ids, score, hL⟩, hc⟩ := h
  cases hi : contains s i
  · obtain ⟨s'', hins, h'⟩ := hL.insert hi hsc
    rw [hins] at hs
    cases hs
    refine ⟨⟨_, _, h'⟩, ?_⟩
    simp only [BagsList.insert, hi] at hins
    cases hins
    exact (counted_putBag _).mpr (hc.insertNodeUnchecked _ _)
  · simp [BagsList.insert, hi] at hs

theorem Consistent.remove (h : Consistent T s) {i : A} {s' : State A} (hs : BagsList.remove s i = .ok s') :
    Consistent T s' := by
  obtain ⟨⟨ids, score, hL⟩, hc⟩ := h
  cases hi : contains s i
  · simp [BagsList.remove, hi] at hs
  · obtain ⟨u, -, hrem, h'⟩ := hL.remove_of_contains hi
    rw [hrem] at hs
    cases hs
    exact ⟨⟨_, _, h'⟩, hc.removeMany [i]⟩

theorem Consistent.doRebag (h : Consistent T s) {i : A} {newScore : ℕ} (hsc : newScore ≤ scoreMax)
    {r : State A × Option (ℕ × ℕ)} (hr : doRebag T s i newScore = .ok r) : Consistent T r.1 := by
  obtain ⟨⟨ids, score, hL⟩, hc⟩ := h
  unfold BagsList.doRebag at hr
  cases hget : s.getNode i with
  | none => simp [hget] at hr
  | some node =>
    rw [hget] at hr
    cases hr
    obtain ⟨u, hu, rfl⟩ := hL.getNode_eq hget
    obtain ⟨ids', h', -⟩ := hL.updatePositionFor hu hsc
    exact ⟨⟨ids', _, h'⟩, hc.updatePositionFor T _ newScore⟩

theorem Consistent.putInFrontOf (h : Consistent T s) {scoreOf : A → Option ℕ} {l j : A} {s' : State A}
    (hr : BagsList.putInFrontOf scoreOf s l j = .ok (some s')) : Consistent T s' := by
  obtain ⟨⟨ids, score, hL⟩, hc⟩ := h
  obtain ⟨s'', ids', hs, h'⟩ := hL.putInFrontOf_ok hr
  cases hs
  obtain ⟨ln', jn, hins⟩ := putInFrontOf_ok_some_inv hr
  exact ⟨⟨ids', score, h'⟩, (hc.removeMany [j]).insertAtUnchecked hins⟩

/-- `rebag_internal` with a score provider of `u64` scores keeps the list consistent. -/
theorem Consistent.rebagInternal (h : Consistent T s) {scoreOf : A → Option ℕ}
    (hscore : ∀ a n, scoreOf a = some n → n ≤ scoreMax) {i : A} {r : State A × Option (ℕ × ℕ)}
    (hr : rebagInternal T scoreOf s i = .ok r) : Consistent T r.1 := by
  unfold BagsList.rebagInternal at hr
  -- the four cases of the source's match on the list and the score provider
  cases hc : contains s i with
  | false =>
    cases hs : scoreOf i with
    | none => simp [hc, hs] at hr
    | some sc =>
      simp only [hc, hs] at hr
      cases hins : BagsList.insert T s i sc with
      | error e => simp [hins, Except.map] at hr
      | ok s' =>
        rw [hins] at hr
        cases hr
        exact h.insert (hscore i sc hs) hins
  | true =>
    cases hs : scoreOf i with
    | none =>
      simp only [hc, hs] at hr
      cases hrem : BagsList.remove s i with
      | error e => simp [hrem, Except.map] at hr
      | ok s' =>
        rw [hrem] at hr
        cases hr
        exact h.remove hrem
    | some sc =>
      simp only [hc, hs] at hr
      exact h.doRebag (hscore i sc hs) hr

omit [DecidableEq A] in
theorem eq_ok_of_toOption {ε α : Type} {e : Except ε α} {a : α} (h : e.toOption = some a) : e = .ok a := by
  cases e with
  | error _ => cases h
  | ok b => cases h; rfl

/-- Every call with `u64` scores keeps the list consistent: a call that succeeds by the step
lemmas, one that fails or panics because it leaves the storage as it was. -/
theorem Consistent.apply (h : Consistent T s) {scoreOf : A → Option ℕ}
    (hscore : ∀ a n, scoreOf a = some n → n ≤ scoreMax) {op : Op A} (hop : op.ScoreBounded) :
    Consistent T ((op.apply T scoreOf s).getD s) := by
  cases hs : op.apply T scoreOf s with
  | none => exact h
  | some s' =>
    rw [Option.getD_some]
    cases op with
    | insert i sc => exact h.insert hop (eq_ok_of_toOption hs)
    | remove i => exact h.remove (eq_ok_of_toOption hs)
    | update i newScore =>
      obtain ⟨r, hr, rfl⟩ := Option.map_eq_some_iff.mp hs
      exact h.doRebag hop (eq_ok_of_toOption hr)
    | rebag i =>
      obtain ⟨r, hr, rfl⟩ := Option.map_eq_some_iff.mp hs
      exact h.rebagInternal hscore (eq_ok_of_toOption hr)
    | putInFrontOf l j =>
      obtain ⟨r, hr, hrs⟩ := Option.bind_eq_some_iff.mp hs
      cases hrs
      exact h.putInFrontOf (eq_ok_of_toOption hr)

/-- Every run of calls with `u64` scores keeps the list consistent. -/
theorem Consistent.run (h : Consistent T s) {scoreOf : A → Option ℕ}
    (hscore : ∀ a n, scoreOf a = some n → n ≤ scoreMax) {ops : List (Op A)} (hops : ∀ op ∈ ops, op.ScoreBounded) :
    Consistent T (run T scoreOf s ops) := by
  induction ops generalizing s with
  | nil => exact h
  | cons op ops ih =>
    exact ih (h.apply hscore (hops op List.mem_cons_self)) fun o ho => hops o (List.mem_cons_of_mem op ho)

/-- The empty list is consistent under sorted `u64` thresholds. -/
theorem consistent_empty (hsorted : T.Pairwise (· < ·)) (hbounded : ∀ t ∈ T, t ≤ scoreMax) :
    Consistent T (State.empty : State A) :=
  ⟨⟨fun _ => [], fun _ => 0,
    { sorted := hsorted
      bounded := hbounded
      ends := fun u bag hb => by simp [State.getBag, State.empty] at hb
      absent := fun _ _ => rfl
      node := fun _ _ hk => by cases hk
      placed := fun _ _ hk => by cases hk
      nodup := by rw [List.flatMap_eq_nil_iff.mpr fun _ _ => rfl]; exact List.nodup_nil
      complete := fun k hk => by simp [State.getNode, State.empty] at hk }⟩, rfl⟩

end Run

theorem Layout.not_mem_of_getNode {T : List ℕ} {s : State A} {ids : ℕ → List A} {score : A → ℕ}
    (h : Layout T s ids score) {i : A} (hi : s.getNode i = none) (u : ℕ) : i ∉ ids u := by
  intro hu
  rw [h.node u i hu] at hi
  cases hi

/-- Over the representation invariant, `List::insert` fails, with `Duplicate`, exactly on a
stored id, and otherwise makes the id the tail of the bag of its score; `List::remove` fails,
with `NodeNotFound`, exactly on an id that is not stored, and otherwise erases the id from the
iteration order. Both keep the invariant and the order of every other id. -/
theorem insert_remove_frame (T : List ℕ) (s : State A) (content : ℕ → List (Node A)) (hrepr : Repr T s content)
    (i : A) :
    (∀ sc, sc ≤ scoreMax →
      (BagsList.insert T s i sc = .error .duplicate ↔ contains s i = true) ∧
      ∀ s', BagsList.insert T s i sc = .ok s' → (∃ content', Repr T s' content') ∧
        ((iter T s').map Node.id).erase i = (iter T s).map Node.id ∧
        ∃ bag, s'.getBag (notionalBagFor T sc) = some bag ∧ bag.tail = some i) ∧
    (BagsList.remove s i = .error .nodeNotFound ↔ contains s i = false) ∧
    ∀ s', BagsList.remove s i = .ok s' → (∃ content', Repr T s' content') ∧
      (iter T s').map Node.id = ((iter T s).map Node.id).erase i := by
  have hL := hrepr.layout
  refine ⟨fun sc hsc => ⟨?_, fun s' hs => ?_⟩, ?_, fun s' hs => ?_⟩
  · cases hi : contains s i <;> simp [BagsList.insert, hi]
  · -- a successful insert appends the id to the bag of its score
    cases hi : contains s i
    · obtain ⟨s'', hins, h'⟩ := hL.insert hi hsc
      rw [hins] at hs
      cases hs
      have hiv := hL.not_mem_of_getNode (getNode_eq_none_of_contains hi) (notionalBagFor T sc)
      have hback : ((content (notionalBagFor T sc)).map Node.id ++ [i]).erase i =
          (content (notionalBagFor T sc)).map Node.id := by
        rw [List.erase_append_right _ hiv, List.erase_cons_head, List.append_nil]
      refine ⟨⟨_, h'.repr⟩, ?_, _, h'.getBag_of_mem (u := notionalBagFor T sc) (k := i) (by simp), by simp⟩
      rw [h'.map_id_iter, hL.map_id_iter, h'.order_erase (u := notionalBagFor T sc) (k := i) (by simp),
        Function.update_self, hback, Function.update_idem, Function.update_eq_self]
    · simp [BagsList.insert, hi] at hs
  · cases hi : contains s i <;> simp [BagsList.remove, hi]
  · -- a successful remove erases the id from its bag
    cases hi : contains s i
    · simp [BagsList.remove, hi] at hs
    · obtain ⟨u, hu, hrem, h'⟩ := hL.remove_of_contains hi
      rw [hrem] at hs
      cases hs
      exact ⟨⟨_, h'.repr⟩, by rw [h'.map_id_iter, hL.map_id_iter, hL.order_erase hu]⟩

theorem insert_remove_frame_threeNodes :
    (∀ sc, sc ≤ scoreMax →
      (BagsList.insert [10] threeNodes 4 sc = .error .duplicate ↔ contains threeNodes 4 = true) ∧
      ∀ s', BagsList.insert [10] threeNodes 4 sc = .ok s' → (∃ content', Repr [10] s' content') ∧
        ((iter [10] s').map Node.id).erase 4 = (iter [10] threeNodes).map Node.id ∧
        ∃ bag, s'.getBag (notionalBagFor [10] sc) = some bag ∧ bag.tail = some 4) ∧
    (BagsList.remove threeNodes 4 = .error .nodeNotFound ↔ contains threeNodes 4 = false) ∧
    ∀ s', BagsList.remove threeNodes 4 = .ok s' → (∃ content', Repr [10] s' content') ∧
      (iter [10] s').map Node.id = ((iter [10] threeNodes).map Node.id).erase 4 :=
  insert_remove_frame [10] threeNodes threeNodesContent threeNodes_repr 4

/-- From the empty list under sorted `u64` thresholds, every run of the pallet's calls with
`u64` scores keeps the representation invariant, and `List::do_try_state` passes after it. -/
theorem run_keeps_repr_and_try_state (T : List ℕ) (hsorted : T.Pairwise (· < ·))
    (hbounded : ∀ t ∈ T, t ≤ scoreMax) (scoreOf : A → Option ℕ)
    (hscore : ∀ a n, scoreOf a = some n → n ≤ scoreMax) (ops : List (Op A)) (hops : ∀ op ∈ ops, op.ScoreBounded) :
    (∃ content, Repr T (run T scoreOf State.empty ops) content) ∧
      doTryState T (run T scoreOf State.empty ops) = .ok () := by
  obtain ⟨⟨ids, score, hL⟩, hc⟩ := (consistent_empty hsorted hbounded).run hscore hops
  exact ⟨⟨_, hL.repr⟩, hL.doTryState_ok hc⟩

theorem threeNodesScore_le (a n : ℕ) (h : threeNodesScore a = some n) : n ≤ scoreMax := by
  unfold threeNodesScore at h
  split_ifs at h <;> cases h <;> decide

theorem run_keeps_repr_and_try_state_threeNodes :
    (∃ content, Repr [10] (run [10] threeNodesScore State.empty
        [.insert 1 100, .insert 2 5, .insert 3 7, .putInFrontOf 2 3, .update 1 3, .rebag 2, .remove 3])
        content) ∧
      doTryState [10] (run [10] threeNodesScore State.empty
        [.insert 1 100, .insert 2 5, .insert 3 7, .putInFrontOf 2 3, .update 1 3, .rebag 2, .remove 3]) = .ok () :=
  run_keeps_repr_and_try_state [10] (by decide) (by decide) threeNodesScore threeNodesScore_le _ (by decide)

end PolkadotSdk.BagsList
