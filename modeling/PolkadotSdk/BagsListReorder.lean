import PolkadotSdk.BagsListMoves

/-!
# Reordering the bags list

`List::put_in_front_of` and `List::update_position_for` over a layout. Each is a removal
followed by an insertion (`Layout.remove` or `Layout.detach`, then `Layout.insertAt` or
`Layout.append`), so both keep the layout, and the iteration order with the moved id erased
is the order before the move with that id erased.
-/

namespace PolkadotSdk.BagsList

open LinkedStore

variable {A : Type} [DecidableEq A]

omit [DecidableEq A] in
/-- Updating one key of a family of lists replaces one block of their concatenation over
distinct keys. -/
theorem flatMap_update_split {us : List ℕ} (hus : us.Nodup) {u : ℕ} (hu : u ∈ us) (f : ℕ → List A) :
    ∃ B C, ∀ L, us.flatMap (Function.update f u L) = B ++ L ++ C := by
  obtain ⟨us₁, us₂, rfl⟩ := List.append_of_mem hu
  obtain ⟨-, hu₂, hsep⟩ := List.nodup_append.mp hus
  have hu₁ : u ∉ us₁ := fun h => hsep u h u List.mem_cons_self rfl
  have hu₂' : u ∉ us₂ := (List.nodup_cons.mp hu₂).1
  refine ⟨us₁.flatMap f, us₂.flatMap f, fun L => ?_⟩
  have h₁ : us₁.flatMap (Function.update f u L) = us₁.flatMap f :=
    List.flatMap_congr fun w hw => Function.update_of_ne (by rintro rfl; exact hu₁ hw) _ _
  have h₂ : us₂.flatMap (Function.update f u L) = us₂.flatMap f :=
    List.flatMap_congr fun w hw => Function.update_of_ne (by rintro rfl; exact hu₂' hw) _ _
  rw [List.flatMap_append, List.flatMap_cons, h₁, h₂, Function.update_self, List.append_assoc]

/-! ## The iteration order of a layout -/

section Order

variable {T : List ℕ} {s : State A} {ids : ℕ → List A} {score : A → ℕ}

theorem Layout.order_nodup (h : Layout T s ids score) : ((effectiveThresholds T).reverse.flatMap ids).Nodup :=
  ((List.reverse_perm _).flatMap_right ids).nodup_iff.mpr h.nodup

theorem Layout.order_split (h : Layout T s ids score) {u : ℕ} {k : A} (hk : k ∈ ids u) :
    ∃ B C, ∀ L, (effectiveThresholds T).reverse.flatMap (Function.update ids u L) = B ++ L ++ C :=
  flatMap_update_split (List.nodup_reverse.mpr (effectiveThresholds_nodup h.sorted h.bounded))
    (List.mem_reverse.mpr (h.mem_effective hk)) ids

/-- Erasing a listed id from the iteration order erases it from its bag's list. -/
theorem Layout.order_erase (h : Layout T s ids score) {u : ℕ} {k : A} (hk : k ∈ ids u) :
    ((effectiveThresholds T).reverse.flatMap ids).erase k =
      (effectiveThresholds T).reverse.flatMap (Function.update ids u ((ids u).erase k)) := by
  obtain ⟨B, C, hBC⟩ := h.order_split hk
  have hself : (effectiveThresholds T).reverse.flatMap ids = B ++ ids u ++ C := by
    simpa using hBC (ids u)
  have hkB : k ∉ B := by
    have hnd := h.order_nodup
    rw [hself] at hnd
    exact fun hkB => (List.nodup_append.mp (List.nodup_append.mp hnd).1).2.2 k hkB k hk rfl
  rw [hself, hBC, List.append_assoc, List.erase_append_right _ hkB, List.erase_append_left _ hk,
    List.append_assoc]

theorem Layout.getNode_eq_none (h : Layout T s ids score) {i : A} (hi : ∀ u, i ∉ ids u) : s.getNode i = none := by
  cases hk : s.getNode i with
  | none => rfl
  | some x =>
    obtain ⟨u, hu⟩ := h.complete i (by rw [hk]; rfl)
    exact absurd hu (hi u)

/-- A layout of a state that does not store `i` is a layout of the state with `i` removed. -/
theorem Layout.removeNode_of_getNode (h : Layout T s ids score) {i : A} (hi : s.getNode i = none) :
    Layout T (s.removeNode i) ids score := by
  refine h.congr ?_ (State.getBag_removeNode s i)
  funext k
  rw [State.getNode_removeNode]
  split_ifs with hk
  · rw [hk, hi]
  · rfl

/-- Two layouts that list every id in the same bag, under the same scores, store the same
score and bag for every id. -/
theorem Layout.getNode_info {s' : State A} {ids' : ℕ → List A} (h : Layout T s ids score)
    (h' : Layout T s' ids' score) (hmem : ∀ w k, k ∈ ids' w ↔ k ∈ ids w) (k : A) :
    (s'.getNode k).map (fun x => (x.score, x.bagUpper)) = (s.getNode k).map (fun x => (x.score, x.bagUpper)) := by
  by_cases hk : ∃ w, k ∈ ids w
  · obtain ⟨w, hw⟩ := hk
    rw [h'.node w k ((hmem w k).mpr hw), h.node w k hw]
    rfl
  · push Not at hk
    rw [h.getNode_eq_none hk, h'.getNode_eq_none fun w hw => hk w ((hmem w k).mp hw)]

end Order

/-! ## `put_in_front_of` -/

theorem optionLt_self (o : Option ℕ) : optionLt o o = false := by
  cases o <;> simp [optionLt]

section PutInFrontOf

variable {scoreOf : A → Option ℕ} {s : State A} {l j : A}

/-- `put_in_front_of` succeeds only past its three checks: both nodes stored, one bag, and the
heavier id scored above the lighter. -/
theorem putInFrontOf_ok_inv {r : Option (State A)} (h : putInFrontOf scoreOf s l j = .ok r) :
    ∃ ln jn, s.getNode l = some ln ∧ s.getNode j = some jn ∧ ln.bagUpper = jn.bagUpper ∧
      optionLt (scoreOf l) (scoreOf j) = true := by
  unfold putInFrontOf at h
  cases hl : s.getNode l with
  | none => simp [hl] at h
  | some ln =>
    cases hj : s.getNode j with
    | none => simp [hl, hj] at h
    | some jn =>
      simp only [hl, hj] at h
      refine ⟨ln, jn, rfl, rfl, ?_, ?_⟩
      · by_contra hb
        simp only [hb, ne_eq, not_false_eq_true, if_true] at h
        cases h
      · by_contra hlt
        rw [Bool.not_eq_true] at hlt
        simp only [hlt, Bool.not_false, if_true] at h
        split_ifs at h <;> cases h

/-- Past its checks, `put_in_front_of` removes the heavier id and inserts its old record in
front of the lighter one as stored after the removal. -/
theorem putInFrontOf_of_checks {ln jn : Node A} (hl : s.getNode l = some ln) (hj : s.getNode j = some jn)
    (hb : ln.bagUpper = jn.bagUpper) (hlt : optionLt (scoreOf l) (scoreOf j) = true) {ln' : Node A}
    (hl' : (removeMany s [j]).1.getNode l = some ln') :
    putInFrontOf scoreOf s l j = .ok (insertAtUnchecked (removeMany s [j]).1 ln' jn) := by
  simp only [putInFrontOf, hl, hj, hb, hlt, hl', ne_eq, not_true_eq_false, if_false, Bool.not_true,
    Bool.false_eq_true]
  rfl

variable {T : List ℕ} {ids : ℕ → List A} {score : A → ℕ}

/-- `put_in_front_of` of two ids of one bag, the heavier by the score provider: the heavier id
is taken out of the bag's list and put back right in front of the lighter one, and the
iteration order changes only there. -/
theorem Layout.putInFrontOf (h : Layout T s ids score) {u : ℕ} (hl : l ∈ ids u) (hj : j ∈ ids u)
    (hlt : optionLt (scoreOf l) (scoreOf j) = true) :
    ∃ s' ids', putInFrontOf scoreOf s l j = .ok (some s') ∧ Layout T s' ids' score ∧
      (∀ w k, k ∈ ids' w ↔ k ∈ ids w) ∧
      ∃ X Y, ((effectiveThresholds T).reverse.flatMap ids).erase j = X ++ l :: Y ∧
        (effectiveThresholds T).reverse.flatMap ids' = X ++ j :: l :: Y := by
  have hlj : l ≠ j := by
    rintro rfl
    rw [optionLt_self] at hlt
    cases hlt
  obtain ⟨P, Q, hu⟩ := List.append_of_mem hj
  obtain ⟨-, -, hjP, hjQ, -⟩ := h.split_nodup hu
  have herase : (ids u).erase j = P ++ Q := by
    rw [hu, List.erase_append_right _ hjP, List.erase_cons_head]
  obtain ⟨X, Y, hXY⟩ := List.append_of_mem (show l ∈ P ++ Q by rw [← herase]; exact (List.mem_erase_of_ne hlj).mpr hl)
  -- first the heavier id leaves its bag
  have h₁ := h.remove hu
  have hids₁ : Function.update ids u (P ++ Q) u = X ++ l :: Y := by rw [Function.update_self, hXY]
  have hj₁ : ∀ w, j ∉ Function.update ids u (P ++ Q) w := by
    intro w hw
    by_cases hwu : w = u
    · subst hwu
      rw [Function.update_self] at hw
      simp [hjP, hjQ] at hw
    · rw [Function.update_of_ne hwu] at hw
      exact hwu (h.bag_unique hw hj)
  have h₁' := h₁.removeNode_of_getNode (h₁.getNode_eq_none hj₁)
  -- then its old record goes in front of the lighter one
  obtain ⟨hsc, hpl⟩ := h.placed u j hj
  obtain ⟨s', hins, h₂⟩ := h₁'.insertAt hids₁ (show (layoutNode ids score u j).id = j from rfl) rfl hsc hpl
  rw [Function.update_idem, show (layoutNode ids score u j).score = score j from rfl, Function.update_eq_self] at h₂
  have hl₁ : (removeMany s [j]).1.getNode l = some (layoutNode (Function.update ids u (P ++ Q)) score u l) :=
    h₁.node u l (by rw [hids₁]; simp)
  refine ⟨s', _, ?_, h₂, ?_, ?_⟩
  · rw [putInFrontOf_of_checks (h.node u l hl) (h.node u j hj) rfl hlt hl₁, hins]
  · -- the bag keeps its ids, in another order
    intro w k
    by_cases hwu : w = u
    · subst hwu
      rw [Function.update_self]
      by_cases hkj : k = j
      · subst hkj
        simp [hj]
      · rw [iff_comm, ← List.mem_erase_of_ne hkj, herase, hXY]
        simp [hkj]
    · rw [Function.update_of_ne hwu]
  · obtain ⟨B, C, hBC⟩ := h.order_split hj
    refine ⟨B ++ X, Y ++ C, ?_, ?_⟩
    · rw [h.order_erase hj, hBC, herase, hXY]
      simp
    · rw [hBC]
      simp

end PutInFrontOf

/-! ## `update_position_for` -/

section UpdatePositionFor

variable {T : List ℕ} {s : State A} {ids : ℕ → List A} {score : A → ℕ} {newScore : ℕ}

/-- `update_position_for` of a node that its new score leaves in its bag only stores the score. -/
theorem updatePositionFor_of_placed {node : Node A} (hpl : notionalBagFor T newScore = node.bagUpper) :
    updatePositionFor T s node newScore = (s.putNode { node with score := newScore }, none) := by
  rw [updatePositionFor_eq, if_neg (not_not.mpr hpl)]

/-- Storing a listed node's new score, one that keeps it in its bag, keeps the layout. -/
theorem Layout.rescore (h : Layout T s ids score) {u : ℕ} {i : A} (hi : i ∈ ids u) (hsc : newScore ≤ scoreMax)
    (hpl : notionalBagFor T newScore = u) :
    Layout T (s.putNode { layoutNode ids score u i with score := newScore }) ids (Function.update score i newScore) where
  sorted := h.sorted
  bounded := h.bounded
  ends := by simpa using h.ends
  absent := by simpa using h.absent
  node := by
    intro w k hk
    by_cases hki : k = i
    · subst hki
      obtain rfl := h.bag_unique hk hi
      simp [layoutNode]
    · have hk' := h.node w k hk
      simp only [State.getNode_putNode, layoutNode] at hk' ⊢
      simp [hki, hk']
  placed := by
    intro w k hk
    by_cases hki : k = i
    · subst hki
      rw [Function.update_self, h.bag_unique hk hi]
      exact ⟨hsc, hpl⟩
    · rw [Function.update_of_ne hki]
      exact h.placed w k hk
  nodup := h.nodup
  complete := by
    intro k hk
    simp only [State.getNode_putNode, layoutNode] at hk
    split_ifs at hk with hki
    · exact ⟨u, hki ▸ hi⟩
    · exact h.complete k hk

/-- `update_position_for` of a misplaced listed node cuts it out of its bag and appends it to
the bag of its new score. -/
theorem Layout.updatePositionFor_moved (h : Layout T s ids score) {u : ℕ} {i : A} (hi : i ∈ ids u)
    (hsc : newScore ≤ scoreMax) (hmis : notionalBagFor T newScore ≠ u) :
    (updatePositionFor T s (layoutNode ids score u i) newScore).2 = some (u, notionalBagFor T newScore) ∧
    Layout T (updatePositionFor T s (layoutNode ids score u i) newScore).1
      (Function.update (Function.update ids u ((ids u).erase i)) (notionalBagFor T newScore)
        (ids (notionalBagFor T newScore) ++ [i])) (Function.update score i newScore) := by
  obtain ⟨P, Q, hu⟩ := List.append_of_mem hi
  obtain ⟨-, -, hiP, -, -⟩ := h.split_nodup hu
  obtain ⟨hprev, hnext⟩ := h.links_of_split hu
  have herase : (ids u).erase i = P ++ Q := by
    rw [hu, List.erase_append_right _ hiP, List.erase_cons_head]
  have hd := h.detach hu (x := { layoutNode ids score u i with score := newScore }) rfl hprev hnext rfl
  have ha := hd.append (show ({ layoutNode ids score u i with score := newScore } : Node A).id = i from rfl) hsc rfl
  rw [Function.update_of_ne hmis] at ha
  rw [updatePositionFor_eq, if_pos (show notionalBagFor T newScore ≠ (layoutNode ids score u i).bagUpper from hmis),
    herase]
  exact ⟨rfl, ha⟩

/-- `update_position_for` of a listed node keeps the layout and the order of every other id,
and a node it moves becomes the last of the bag of its new score. -/
theorem Layout.updatePositionFor (h : Layout T s ids score) {u : ℕ} {i : A} (hi : i ∈ ids u)
    (hsc : newScore ≤ scoreMax) :
    ∃ ids', Layout T (updatePositionFor T s (layoutNode ids score u i) newScore).1 ids' (Function.update score i newScore) ∧
      ((effectiveThresholds T).reverse.flatMap ids').erase i = ((effectiveThresholds T).reverse.flatMap ids).erase i ∧
      ∀ moved, (updatePositionFor T s (layoutNode ids score u i) newScore).2 = some moved →
        moved = (u, notionalBagFor T newScore) ∧ (ids' (notionalBagFor T newScore)).getLast? = some i := by
  by_cases hmis : notionalBagFor T newScore = u
  · -- the node stays: only its score is stored
    rw [updatePositionFor_of_placed hmis]
    exact ⟨ids, h.rescore hi hsc hmis, rfl, fun _ hm => by cases hm⟩
  · obtain ⟨hmoved, h₂⟩ := h.updatePositionFor_moved hi hsc hmis
    refine ⟨_, h₂, ?_, fun moved hm => ⟨Option.some.inj (hm.symm.trans hmoved), by simp⟩⟩
    have hiv : i ∉ ids (notionalBagFor T newScore) := fun hiv => hmis (h.bag_unique hiv hi)
    have hback : ((ids (notionalBagFor T newScore)) ++ [i]).erase i = ids (notionalBagFor T newScore) := by
      rw [List.erase_append_right _ hiv, List.erase_cons_head, List.append_nil]
    rw [h₂.order_erase (u := notionalBagFor T newScore) (k := i) (by simp), Function.update_self, hback, Function.update_idem,
      show ids (notionalBagFor T newScore) = Function.update ids u ((ids u).erase i) (notionalBagFor T newScore)
        from (Function.update_of_ne hmis _ _).symm, Function.update_eq_self, h.order_erase hi]

end UpdatePositionFor

/-- Over the representation invariant, `put_in_front_of` fails, with no state, unless both ids
are stored in one bag with the heavier one scored above the lighter; otherwise it moves the
heavier id to right in front of the lighter one and keeps every score and bag. A stored node
given to `update_position_for` keeps the order of the other ids, and when it moves it becomes
the tail of the bag of its new score. -/
theorem putInFrontOf_updatePositionFor_frame (T : List ℕ) (s : State A) (content : ℕ → List (Node A))
    (hrepr : Repr T s content) :
    (∀ (scoreOf : A → Option ℕ) (l j : A),
      ((∃ r, putInFrontOf scoreOf s l j = .ok r) ↔
        ∃ ln jn, s.getNode l = some ln ∧ s.getNode j = some jn ∧ ln.bagUpper = jn.bagUpper ∧
          optionLt (scoreOf l) (scoreOf j) = true) ∧
      ∀ r, putInFrontOf scoreOf s l j = .ok r → ∃ s', r = some s' ∧ (∃ content', Repr T s' content') ∧
        (∃ X Y, ((iter T s).map Node.id).erase j = X ++ l :: Y ∧ (iter T s').map Node.id = X ++ j :: l :: Y) ∧
        ∀ k, (s'.getNode k).map (fun x => (x.score, x.bagUpper)) = (s.getNode k).map (fun x => (x.score, x.bagUpper))) ∧
    ∀ (node : Node A) (newScore : ℕ), s.getNode node.id = some node → newScore ≤ scoreMax →
      (∃ content', Repr T (updatePositionFor T s node newScore).1 content') ∧
      ((iter T (updatePositionFor T s node newScore).1).map Node.id).erase node.id =
        ((iter T s).map Node.id).erase node.id ∧
      ∀ moved, (updatePositionFor T s node newScore).2 = some moved →
        moved = (node.bagUpper, notionalBagFor T newScore) ∧
        ∃ bag, (updatePositionFor T s node newScore).1.getBag (notionalBagFor T newScore) = some bag ∧
          bag.tail = some node.id := by
  have hL := hrepr.layout
  refine ⟨fun scoreOf l j => ?_, fun node newScore hget hsc => ?_⟩
  · -- put_in_front_of: past its checks both ids are listed in one bag
    have hok : ∀ ln jn, s.getNode l = some ln → s.getNode j = some jn → ln.bagUpper = jn.bagUpper →
        optionLt (scoreOf l) (scoreOf j) = true → ∃ s' ids', putInFrontOf scoreOf s l j = .ok (some s') ∧
          Layout T s' ids' (fun k => ((s.getNode k).map Node.score).getD 0) ∧ (∀ w k, k ∈ ids' w ↔ k ∈ (content w).map Node.id) ∧
          ∃ X Y, ((effectiveThresholds T).reverse.flatMap fun u => (content u).map Node.id).erase j = X ++ l :: Y ∧
            (effectiveThresholds T).reverse.flatMap ids' = X ++ j :: l :: Y := by
      intro ln jn hl hj hb hlt
      obtain ⟨u, hlu, rfl⟩ := hL.getNode_eq hl
      obtain ⟨w, hjw, rfl⟩ := hL.getNode_eq hj
      obtain rfl : u = w := hb
      exact hL.putInFrontOf hlu hjw hlt
    refine ⟨⟨fun ⟨_, hr⟩ => putInFrontOf_ok_inv hr, ?_⟩, fun r hr => ?_⟩
    · rintro ⟨ln, jn, hl, hj, hb, hlt⟩
      obtain ⟨s', -, hput, -⟩ := hok ln jn hl hj hb hlt
      exact ⟨_, hput⟩
    · obtain ⟨ln, jn, hl, hj, hb, hlt⟩ := putInFrontOf_ok_inv hr
      obtain ⟨s', ids', hput, h', hmem, X, Y, hbefore, hafter⟩ := hok ln jn hl hj hb hlt
      rw [hput] at hr
      cases hr
      refine ⟨s', rfl, ⟨_, h'.repr⟩, ⟨X, Y, ?_, ?_⟩, hL.getNode_info h' hmem⟩
      · rw [hL.map_id_iter, hbefore]
      · rw [h'.map_id_iter, hafter]
  · -- update_position_for: the node is the layout record of its id
    obtain ⟨u, hu, hnode⟩ := hL.getNode_eq hget
    have hbu : node.bagUpper = u := congrArg Node.bagUpper hnode
    obtain ⟨ids', h', horder, hmoved⟩ := hL.updatePositionFor hu hsc
    rw [← hnode] at h' hmoved
    refine ⟨⟨_, h'.repr⟩, ?_, fun moved hm => ?_⟩
    · rw [h'.map_id_iter, hL.map_id_iter, horder]
    · obtain ⟨rfl, hlast⟩ := hmoved moved hm
      exact ⟨hbu ▸ rfl, _, h'.getBag_of_mem (List.mem_of_getLast? hlast), hlast⟩

theorem putInFrontOf_updatePositionFor_frame_threeNodes :
    (∀ (scoreOf : ℕ → Option ℕ) (l j : ℕ),
      ((∃ r, putInFrontOf scoreOf threeNodes l j = .ok r) ↔
        ∃ ln jn, threeNodes.getNode l = some ln ∧ threeNodes.getNode j = some jn ∧ ln.bagUpper = jn.bagUpper ∧
          optionLt (scoreOf l) (scoreOf j) = true) ∧
      ∀ r, putInFrontOf scoreOf threeNodes l j = .ok r → ∃ s', r = some s' ∧ (∃ content', Repr [10] s' content') ∧
        (∃ X Y, ((iter [10] threeNodes).map Node.id).erase j = X ++ l :: Y ∧ (iter [10] s').map Node.id = X ++ j :: l :: Y) ∧
        ∀ k, (s'.getNode k).map (fun x => (x.score, x.bagUpper)) =
          (threeNodes.getNode k).map (fun x => (x.score, x.bagUpper))) ∧
    ∀ (node : Node ℕ) (newScore : ℕ), threeNodes.getNode node.id = some node → newScore ≤ scoreMax →
      (∃ content', Repr [10] (updatePositionFor [10] threeNodes node newScore).1 content') ∧
      ((iter [10] (updatePositionFor [10] threeNodes node newScore).1).map Node.id).erase node.id =
        ((iter [10] threeNodes).map Node.id).erase node.id ∧
      ∀ moved, (updatePositionFor [10] threeNodes node newScore).2 = some moved →
        moved = (node.bagUpper, notionalBagFor [10] newScore) ∧
        ∃ bag, (updatePositionFor [10] threeNodes node newScore).1.getBag (notionalBagFor [10] newScore) = some bag ∧
          bag.tail = some node.id :=
  putInFrontOf_updatePositionFor_frame [10] threeNodes threeNodesContent threeNodes_repr

end PolkadotSdk.BagsList
