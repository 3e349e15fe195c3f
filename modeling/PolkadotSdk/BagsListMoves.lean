import PolkadotSdk.BagsListLayout

/-!
# Moving nodes within the bags list

Over a layout (`Layout`), each of the list's writes is a step on the bags' lists of ids:
`remove` takes an id out of its bag (`Layout.remove`), `insert_at_unchecked` puts an id right
in front of another (`Layout.insertAt`) and `insert_node_unchecked` appends one to a bag
(`Layout.append`). Every record that a step does not rewrite is the one the new lists lay out
already, because its neighbours did not change; the steps rewrite exactly the records next to
the id that moves.
-/

namespace PolkadotSdk.BagsList

open LinkedStore

variable {A : Type} [DecidableEq A]

/-- Every stored node is stored under its own id, as `Node::put` stores it. -/
def WellKeyed (s : State A) : Prop := ∀ k y, s.getNode k = some y → y.id = k

theorem Layout.wellKeyed {T : List ℕ} {s : State A} {ids : ℕ → List A} {score : A → ℕ}
    (h : Layout T s ids score) : WellKeyed s :=
  fun _ _ => h.id_of_getNode

theorem WellKeyed.relinkNext {s : State A} (hs : WellKeyed s) (k o : Option A) : WellKeyed (s.relinkNext k o) := by
  intro j y hj
  rw [State.getNode_relinkNext_of (fun a y _ => hs a y)] at hj
  split_ifs at hj
  · obtain ⟨z, hz, rfl⟩ := Option.map_eq_some_iff.mp hj
    exact hs j z hz
  · exact hs j y hj

/-- The first part of `update_position_for` for a misplaced node: the node is cut out of its
bag, which is written back when the node was one of its ends. -/
def detachNode (s : State A) (node : Node A) : State A :=
  if !node.isTerminal then excise s node
  else match s.getBag node.bagUpper with
    | some bag =>
      let (s, bag) := removeNodeUnchecked s bag node
      s.putBag bag
    | none => s

theorem updatePositionFor_eq (T : List ℕ) (s : State A) (node : Node A) (newScore : ℕ) :
    updatePositionFor T s node newScore =
      if notionalBagFor T newScore ≠ node.bagUpper then
        let s' := detachNode s { node with score := newScore }
        let r := insertNodeUnchecked s' (s'.getOrMakeBag (notionalBagFor T newScore)) { node with score := newScore }
        (r.1.putBag r.2, some (node.bagUpper, notionalBagFor T newScore))
      else (s.putNode { node with score := newScore }, none) := by
  rfl

/-! ## List facts of a split bag -/

section Split

variable {P Q : List A} {i : A}

theorem head?_erase_split (hiP : i ∉ P) (Q : List A) :
    (if (P ++ i :: Q).head? = some i then Q.head? else (P ++ i :: Q).head?) = (P ++ Q).head? := by
  cases P with
  | nil => simp
  | cons a P =>
    have hai : a ≠ i := fun e => hiP (e ▸ List.mem_cons_self)
    simp [hai]

theorem getLast?_erase_split (hiQ : i ∉ Q) (P : List A) :
    (if (P ++ i :: Q).getLast? = some i then P.getLast? else (P ++ i :: Q).getLast?) = (P ++ Q).getLast? := by
  cases hq : Q.getLast? with
  | none =>
    rw [List.getLast?_eq_none_iff] at hq
    subst hq
    simp
  | some q =>
    have hqi : q ≠ i := fun e => hiQ (e ▸ List.mem_of_getLast? hq)
    have hlast : (P ++ i :: Q).getLast? = some q := by
      rw [List.getLast?_append, List.getLast?_cons, hq]
      rfl
    rw [hlast, if_neg (by simpa using hqi), List.getLast?_append, hq]
    rfl

end Split

/-! ## Taking an id out of its bag -/

section Erase

variable {T : List ℕ} {s : State A} {ids : ℕ → List A} {score : A → ℕ} {u : ℕ} {P Q : List A} {i : A}

theorem Layout.split_nodup (h : Layout T s ids score) (hu : ids u = P ++ i :: Q) :
    P.Nodup ∧ Q.Nodup ∧ i ∉ P ∧ i ∉ Q ∧ ∀ j ∈ P, j ∉ Q := by
  have hnd := h.nodup_bag u
  rw [hu, List.nodup_append, List.nodup_cons] at hnd
  obtain ⟨hP, ⟨hiQ, hQ⟩, hsep⟩ := hnd
  exact ⟨hP, hQ, fun hi => hsep i hi i List.mem_cons_self rfl, hiQ,
    fun j hj hjQ => hsep j hj j (List.mem_cons_of_mem _ hjQ) rfl⟩

/-- The record of `i` links to the ends of the parts around it. -/
theorem Layout.links_of_split (h : Layout T s ids score) (hu : ids u = P ++ i :: Q) :
    (layoutNode ids score u i).prev = P.getLast? ∧ (layoutNode ids score u i).next = Q.head? := by
  obtain ⟨hP, hQ, hiP, hiQ, -⟩ := h.split_nodup hu
  simp only [layoutNode, hu]
  exact ⟨prevOf_append_cons_self hQ hiQ P, nextOf_append_cons_self hP hiP Q⟩

/-- With `i` taken out of bag `u`, the element before it links forward to the one after it
and that one back; every other record stays. -/
theorem layoutNode_update_erase (hP : P.Nodup) (hQ : Q.Nodup) (hu : ids u = P ++ i :: Q) {j : A} (hj : j ≠ i) :
    layoutNode (Function.update ids u (P ++ Q)) score u j =
      { layoutNode ids score u j with
        prev := if Q.head? = some j then P.getLast? else prevOf (ids u) j
        next := if P.getLast? = some j then Q.head? else nextOf (ids u) j } := by
  simp only [layoutNode, Function.update_self, hu, prevOf_append_cons hQ P hj, nextOf_append_cons hP Q hj,
    Node.mk.injEq, true_and, and_true]
  constructor
  · split_ifs with hq
    · exact prevOf_append_of_head hQ P hq
    · rfl
  · split_ifs with hp
    · exact nextOf_append_of_getLast hP Q hp
    · rfl

/-- A list that only replaces bag `u`'s records lays out every other bag as before. -/
theorem layoutNode_update_ne {v : ℕ} (hvu : v ≠ u) (L : List A) (score' : A → ℕ) (k : A) (hk : score' k = score k) :
    layoutNode (Function.update ids u L) score' v k = layoutNode ids score v k := by
  simp [layoutNode, Function.update_of_ne hvu, hk]

/-- `Node::excise` stores, for every other id of the bag, the record that the bag's list
without `i` lays out, and leaves every other record. -/
theorem Layout.getNode_excise (h : Layout T s ids score) (hu : ids u = P ++ i :: Q) {x : Node A}
    (hprev : x.prev = P.getLast?) (hnext : x.next = Q.head?) {j : A} (hj : j ≠ i) :
    (excise s x).getNode j =
      if j ∈ P ++ Q then some (layoutNode (Function.update ids u (P ++ Q)) score u j) else s.getNode j := by
  obtain ⟨hP, hQ, -, -, hPQ⟩ := h.split_nodup hu
  have hs := h.wellKeyed
  rw [excise_eq, State.getNode_relinkPrev_of (fun a y _ => hs.relinkNext _ _ a y),
    State.getNode_relinkNext_of (fun a y _ => hs a y), hprev, hnext]
  by_cases hjm : j ∈ P ++ Q
  · have hj' : j ∈ ids u := by
      rw [hu]
      rcases List.mem_append.mp hjm with hjP | hjQ
      · exact List.mem_append_left _ hjP
      · exact List.mem_append_right _ (List.mem_cons_of_mem _ hjQ)
    rw [if_pos hjm, h.node u j hj', layoutNode_update_erase hP hQ hu hj]
    -- `j` is next to `i` on at most one side
    by_cases hq : Q.head? = some j
    · have hp : P.getLast? ≠ some j := fun e =>
        hPQ j (List.mem_of_getLast? e) (List.mem_of_mem_head? hq)
      simp [hq, hp, layoutNode]
    · by_cases hp : P.getLast? = some j
      · simp [hq, hp, layoutNode]
      · simp [hq, hp, layoutNode]
  · have hq : Q.head? ≠ some j := fun e => hjm (List.mem_append_right _ (List.mem_of_mem_head? e))
    have hp : P.getLast? ≠ some j := fun e => hjm (List.mem_append_left _ (List.mem_of_getLast? e))
    rw [if_neg hjm, if_neg hq, if_neg hp]

end Erase

omit [DecidableEq A] in
/-- Replacing one list of a family by a list of distinct ids found in no other list of the
family keeps the family's concatenation free of duplicates. -/
theorem nodup_flatMap_update {us : List ℕ} (hus : us.Nodup) {f : ℕ → List A} (h : (us.flatMap f).Nodup)
    {u : ℕ} {L : List A} (hL : L.Nodup) (hdisj : ∀ v ∈ us, v ≠ u → ∀ k ∈ L, k ∉ f v) :
    (us.flatMap (Function.update f u L)).Nodup := by
  rw [List.nodup_flatMap] at h ⊢
  obtain ⟨hnd, hpair⟩ := h
  refine ⟨fun v hv => ?_, ?_⟩
  · by_cases hvu : v = u
    · rw [hvu, Function.update_self]
      exact hL
    · rw [Function.update_of_ne hvu]
      exact hnd v hv
  · refine (hpair.and hus).imp_of_mem fun {v w} hv hw ⟨hvw, hne⟩ => ?_
    simp only [Function.onFun] at hvw ⊢
    by_cases hvu : v = u
    · subst hvu
      rw [Function.update_self, Function.update_of_ne (Ne.symm hne)]
      exact fun k hk hkw => hdisj w hw (Ne.symm hne) k hk hkw
    · by_cases hwu : w = u
      · subst hwu
        rw [Function.update_self, Function.update_of_ne hne]
        exact fun k hkv hk => hdisj v hv hne k hk hkv
      · rw [Function.update_of_ne hvu, Function.update_of_ne hwu]
        exact hvw

theorem effectiveThresholds_nodup {T : List ℕ} (hs : T.Pairwise (· < ·)) (hb : ∀ t ∈ T, t ≤ scoreMax) :
    (effectiveThresholds T).Nodup :=
  (effectiveThresholds_sorted hs hb).imp ne_of_lt

/-- `detach` reads the node's bag only to write it back. -/
theorem detachNode_eq (s : State A) (x : Node A) :
    detachNode s x =
      if !x.isTerminal then excise s x
      else match s.getBag x.bagUpper with
        | some bag => (excise s x).putBag (removeNodeUnchecked s bag x).2
        | none => s := by
  unfold detachNode
  rfl

section Detach

variable {T : List ℕ} {s : State A} {ids : ℕ → List A} {score : A → ℕ} {u : ℕ} {P Q : List A} {i : A}
  {x : Node A}

/-- `remove_node_unchecked` moves the bag's ends past the node it takes out. -/
theorem removeNodeUnchecked_bag (h : Layout T s ids score) (hu : ids u = P ++ i :: Q) (hid : x.id = i)
    (hprev : x.prev = P.getLast?) (hnext : x.next = Q.head?) :
    (removeNodeUnchecked s ⟨(ids u).head?, (ids u).getLast?, u⟩ x).2 = ⟨(P ++ Q).head?, (P ++ Q).getLast?, u⟩ := by
  obtain ⟨-, -, hiP, hiQ, -⟩ := h.split_nodup hu
  rw [← head?_erase_split hiP Q, ← getLast?_erase_split hiQ P, ← hu]
  simp only [removeNodeUnchecked, hid, hprev, hnext]
  split_ifs <;> simp_all

theorem Layout.getNode_detachNode (h : Layout T s ids score) (hx : x.bagUpper = u) (hk : ids u ≠ []) :
    (detachNode s x).getNode = (excise s x).getNode := by
  obtain ⟨k, l, hkl⟩ := List.exists_cons_of_ne_nil hk
  rw [detachNode_eq, hx, h.getBag_of_mem (show k ∈ ids u by simp [hkl])]
  split_ifs <;> simp

theorem Layout.getBag_detachNode (h : Layout T s ids score) (hu : ids u = P ++ i :: Q) (hid : x.id = i)
    (hprev : x.prev = P.getLast?) (hnext : x.next = Q.head?) (hx : x.bagUpper = u) (v : ℕ) :
    (detachNode s x).getBag v =
      if v = u then (if P ++ Q = [] then none else some ⟨(P ++ Q).head?, (P ++ Q).getLast?, u⟩) else s.getBag v := by
  have hb := h.getBag_of_mem (show i ∈ ids u by simp [hu])
  rw [detachNode_eq, hx, hb]
  by_cases hterm : x.isTerminal = true
  · -- an end of the bag: the bag is written back with its new ends, or deleted
    rw [if_neg (by simp [hterm])]
    simp only
    rw [removeNodeUnchecked_bag h hu hid hprev hnext, State.getBag_putBag]
    by_cases hv : v = u
    · subst hv
      by_cases hP : P = [] <;> by_cases hQ : Q = [] <;> simp [hP, hQ]
    · rw [excise_eq]
      simp [hv]
  · -- inside the bag: neither end moves
    rw [if_pos (by simp [hterm])]
    rw [excise_eq, State.getBag_relinkPrev, State.getBag_relinkNext]
    simp only [Node.isTerminal, hprev, hnext, Bool.or_eq_true, Option.isNone_iff_eq_none, not_or,
      List.getLast?_eq_none_iff, List.head?_eq_none_iff] at hterm
    obtain ⟨hP, hQ⟩ := hterm
    by_cases hv : v = u
    · subst hv
      rw [hb, if_pos rfl, if_neg (by simp [hP]), hu]
      obtain ⟨p, P', rfl⟩ := List.exists_cons_of_ne_nil hP
      obtain ⟨q, Q', rfl⟩ := List.exists_cons_of_ne_nil hQ
      simp [List.getLast?_append, List.getLast?_cons]
    · rw [if_neg hv]

/-- Cutting a listed node out of its bag and out of the store leaves the state laid out by
the bag's list without it. -/
theorem Layout.detach (h : Layout T s ids score) (hu : ids u = P ++ i :: Q) (hid : x.id = i)
    (hprev : x.prev = P.getLast?) (hnext : x.next = Q.head?) (hx : x.bagUpper = u) :
    Layout T ((detachNode s x).removeNode i) (Function.update ids u (P ++ Q)) score := by
  obtain ⟨hP, hQ, hiP, hiQ, hPQ⟩ := h.split_nodup hu
  have hne : ids u ≠ [] := by simp [hu]
  have hsub : ∀ k ∈ P ++ Q, k ∈ ids u := by
    intro k hk
    rw [hu]
    rcases List.mem_append.mp hk with hkP | hkQ
    · exact List.mem_append_left _ hkP
    · exact List.mem_append_right _ (List.mem_cons_of_mem _ hkQ)
  have hiPQ : i ∉ P ++ Q := by simp [hiP, hiQ]
  have hnode : ∀ k, k ≠ i → ((detachNode s x).removeNode i).getNode k =
      if k ∈ P ++ Q then some (layoutNode (Function.update ids u (P ++ Q)) score u k) else s.getNode k := by
    intro k hki
    rw [State.getNode_removeNode, if_neg hki, h.getNode_detachNode hx hne, h.getNode_excise hu hprev hnext hki]
  refine ⟨h.sorted, h.bounded, ?_, ?_, ?_, ?_, ?_, ?_⟩
  · -- ends
    intro v bag hv
    rw [State.getBag_removeNode, h.getBag_detachNode hu hid hprev hnext hx] at hv
    by_cases hvu : v = u
    · subst hvu
      rw [if_pos rfl] at hv
      split_ifs at hv
      cases hv
      simp
    · rw [if_neg hvu] at hv
      rw [Function.update_of_ne hvu]
      exact h.ends v bag hv
  · -- absent
    intro v hv
    rw [State.getBag_removeNode, h.getBag_detachNode hu hid hprev hnext hx] at hv
    by_cases hvu : v = u
    · subst hvu
      rw [if_pos rfl] at hv
      split_ifs at hv with hPQ0
      rw [Function.update_self, hPQ0]
    · rw [if_neg hvu] at hv
      rw [Function.update_of_ne hvu]
      exact h.absent v hv
  · -- node
    intro v k hk
    by_cases hvu : v = u
    · subst hvu
      rw [Function.update_self] at hk
      rw [hnode k (fun e => hiPQ (e ▸ hk)), if_pos hk]
    · rw [Function.update_of_ne hvu] at hk
      have hku : k ∉ ids u := fun hku => hvu (h.bag_unique hk hku)
      have hki : k ≠ i := fun e => hku (by rw [hu, e]; simp)
      rw [hnode k hki, if_neg (fun hm => hku (hsub k hm)), h.node v k hk,
        layoutNode_update_ne hvu _ score k rfl]
  · -- placed
    intro v k hk
    by_cases hvu : v = u
    · subst hvu
      rw [Function.update_self] at hk
      exact h.placed v k (hsub k hk)
    · rw [Function.update_of_ne hvu] at hk
      exact h.placed v k hk
  · -- nodup
    refine nodup_flatMap_update (effectiveThresholds_nodup h.sorted h.bounded) h.nodup
      ((h.nodup_bag u).sublist ?_) ?_
    · rw [hu]
      exact List.Sublist.append_left (List.sublist_cons_self i Q) P
    · intro v _ hvu k hk hkv
      exact hvu (h.bag_unique hkv (hsub k hk))
  · -- complete
    intro k hk
    by_cases hki : k = i
    · subst hki
      simp at hk
    · rw [hnode k hki] at hk
      split_ifs at hk with hkm
      · exact ⟨u, by rw [Function.update_self]; exact hkm⟩
      · obtain ⟨v, hv⟩ := h.complete k hk
        by_cases hvu : v = u
        · subst hvu
          rw [hu] at hv
          exact absurd (by simpa [hki] using hv) hkm
        · exact ⟨v, by rw [Function.update_of_ne hvu]; exact hv⟩

end Detach

/-! ## Removing an id -/

/-- `remove_many` of one stored id: the node is cut out, dropped from the store, and its bag
written back when it was one of the bag's ends. -/
theorem removeMany_singleton_eq {s : State A} {i : A} {x : Node A} (hget : s.getNode i = some x) {bag : Bag A}
    (hb : s.getBag x.bagUpper = some bag) :
    (removeMany s [i]).1 =
      if !x.isTerminal then (excise s x).removeNode x.id
      else ((excise s x).removeNode x.id).putBag (removeNodeUnchecked s bag x).2 := by
  unfold removeMany
  simp only [removeManyLoop, hget]
  cases hterm : x.isTerminal <;> simp [State.getOrMakeBag, hb, removeNodeUnchecked]

/-- `List::remove` of a listed id leaves the state laid out by its bag's list without it. -/
theorem Layout.remove {T : List ℕ} {s : State A} {ids : ℕ → List A} {score : A → ℕ} {u : ℕ} {P Q : List A} {i : A}
    (h : Layout T s ids score) (hu : ids u = P ++ i :: Q) :
    Layout T (removeMany s [i]).1 (Function.update ids u (P ++ Q)) score := by
  obtain ⟨hprev, hnext⟩ := h.links_of_split hu
  have hi : i ∈ ids u := by simp [hu]
  have hd := h.detach hu (x := layoutNode ids score u i) rfl hprev hnext rfl
  have hb : s.getBag (layoutNode ids score u i).bagUpper = some ⟨(ids u).head?, (ids u).getLast?, u⟩ :=
    h.getBag_of_mem hi
  have hlid : (layoutNode ids score u i).id = i := rfl
  rw [removeMany_singleton_eq (h.node u i hi) hb, hlid]
  refine hd.congr ?_ ?_
  · funext k
    rw [detachNode_eq, hb]
    split_ifs <;> simp
  · funext v
    rw [detachNode_eq, hb]
    split_ifs
    · rfl
    · simp only [State.getBag_removeNode]
      rw [State.getBag_putBag, State.getBag_putBag]
      rfl

/-! ## Putting an id into a bag -/

/-- With `i` put between `P` and `R`, the last of `P` links forward to `i` and the first of
`R` back to it; every other record stays. -/
theorem layoutNode_update_insert {ids : ℕ → List A} {score score' : A → ℕ} {u : ℕ} {P R : List A} {i j : A}
    (hP : P.Nodup) (hR : R.Nodup) (hu : ids u = P ++ R) (hj : j ≠ i) (hs : score' j = score j) :
    layoutNode (Function.update ids u (P ++ i :: R)) score' u j =
      { layoutNode ids score u j with
        prev := if R.head? = some j then some i else prevOf (ids u) j
        next := if P.getLast? = some j then some i else nextOf (ids u) j } := by
  simp only [layoutNode, Function.update_self, hu, prevOf_append_cons hR P hj, nextOf_append_cons hP R hj, hs]

theorem layoutNode_update_insert_self {ids : ℕ → List A} {score' : A → ℕ} {u : ℕ} {P R : List A} {i : A}
    (hP : P.Nodup) (hR : R.Nodup) (hiP : i ∉ P) (hiR : i ∉ R) :
    layoutNode (Function.update ids u (P ++ i :: R)) score' u i = ⟨i, P.getLast?, R.head?, u, score' i⟩ := by
  simp only [layoutNode, Function.update_self, prevOf_append_cons_self hR hiR, nextOf_append_cons_self hP hiP]

/-- `insert_at_unchecked` relinks the node in front of `at`, and writes the bag only when the
node becomes its head. -/
theorem insertAtUnchecked_eq (s : State A) (atNode node : Node A) :
    insertAtUnchecked s atNode node =
      (if atNode.prev = none then
          ((s.relinkNext atNode.prev (some node.id)).getBag atNode.bagUpper).map fun bag =>
            (s.relinkNext atNode.prev (some node.id)).putBag { bag with head := some node.id }
        else some (s.relinkNext atNode.prev (some node.id))).map fun s =>
        (s.putNode { atNode with prev := some node.id }).putNode { node with prev := atNode.prev, next := some atNode.id } := by
  unfold insertAtUnchecked
  cases h : atNode.prev with
  | none =>
    simp only [Node.isTerminal, Option.bind_none, Option.isNone_none, Bool.true_or, if_true, State.relinkNext_none]
    cases s.getBag atNode.bagUpper <;> simp
  | some p =>
    simp only [Node.isTerminal, Option.isNone_some, Bool.or_false, reduceCtorEq, if_false, Option.map_some]
    rfl

/-- `insert_node_unchecked` of a node that is not the bag's tail: the node is stored as the new
tail and the old tail links forward to it. -/
theorem insertNodeUnchecked_eq (s : State A) {bag : Bag A} {node : Node A} (hne : bag.tail ≠ some node.id) :
    insertNodeUnchecked s bag node =
      ((s.putNode { node with bagUpper := bag.bagUpper, prev := bag.tail, next := none }).relinkNext bag.tail
        (some node.id), ⟨if bag.head.isNone then some node.id else bag.head, some node.id, bag.bagUpper⟩) := by
  unfold insertNodeUnchecked
  rw [if_neg hne]
  cases bag.head <;> rfl

section Insert

variable {T : List ℕ} {s : State A} {ids : ℕ → List A} {score : A → ℕ} {i : A}

theorem Layout.not_mem_of_removeNode (h : Layout T (s.removeNode i) ids score) (v : ℕ) : i ∉ ids v := by
  intro hi
  have := h.node v i hi
  simp at this

theorem Layout.getNode_of_removeNode (h : Layout T (s.removeNode i) ids score) {v : ℕ} {k : A} (hk : k ∈ ids v) :
    s.getNode k = some (layoutNode ids score v k) := by
  have hki : k ≠ i := fun e => h.not_mem_of_removeNode v (e ▸ hk)
  have := h.node v k hk
  rwa [State.getNode_removeNode, if_neg hki] at this

/-- Relinking the last id of a list that the layout holds reads records stored under their ids. -/
theorem Layout.keyed_getLast (h : Layout T (s.removeNode i) ids score) {v : ℕ} {P R : List A}
    (hu : ids v = P ++ R) : ∀ b y, P.getLast? = some b → s.getNode b = some y → y.id = b := by
  intro b y hb hy
  have hbv : b ∈ ids v := by rw [hu]; exact List.mem_append_left _ (List.mem_of_getLast? hb)
  rw [h.getNode_of_removeNode hbv] at hy
  cases hy
  rfl

/-- `insert_at_unchecked` of an unlisted id in front of a listed one leaves the state laid out by
the bag's list with the id put there. -/
theorem Layout.insertAt (h : Layout T (s.removeNode i) ids score) {u : ℕ} {P Q : List A} {a : A}
    (hu : ids u = P ++ a :: Q) {node : Node A} (hid : node.id = i) (hbu : node.bagUpper = u)
    (hsc : node.score ≤ scoreMax) (hpl : notionalBagFor T node.score = u) :
    ∃ s', insertAtUnchecked s (layoutNode ids score u a) node = some s' ∧
      Layout T s' (Function.update ids u (P ++ i :: a :: Q)) (Function.update score i node.score) := by
  have hiv := h.not_mem_of_removeNode
  obtain ⟨hP, hQ, haP, haQ, hPQ⟩ := h.split_nodup hu
  obtain ⟨hprev, -⟩ := h.links_of_split hu
  have ha : a ∈ ids u := by simp [hu]
  have hiu : i ∉ P ++ a :: Q := hu ▸ hiv u
  have hia : i ≠ a := fun e => hiu (by simp [e])
  have hiP : i ∉ P := fun hi => hiu (List.mem_append_left _ hi)
  have hiaQ : i ∉ a :: Q := fun hi => hiu (List.mem_append_right _ hi)
  have haQnd : (a :: Q).Nodup := List.nodup_cons.mpr ⟨haQ, hQ⟩
  have hnew : (P ++ i :: a :: Q).Nodup := by
    rw [List.nodup_append, List.nodup_cons]
    refine ⟨hP, ⟨hiaQ, haQnd⟩, fun j hj k hk e => ?_⟩
    subst e
    rcases List.mem_cons.mp hk with rfl | hk
    · exact hiP hj
    · rcases List.mem_cons.mp hk with rfl | hk
      · exact haP hj
      · exact hPQ j hj hk
  set ids' := Function.update ids u (P ++ i :: a :: Q)
  set score' := Function.update score i node.score
  have hids'u : ids' u = P ++ i :: a :: Q := Function.update_self _ _ _
  have hids'v : ∀ v, v ≠ u → ids' v = ids v := fun v hv => Function.update_of_ne hv _ _
  have hsc' : ∀ k, k ≠ i → score' k = score k := fun k hk => Function.update_of_ne hk _ _
  -- the records the new list lays out, each as the code writes it
  have hrec : ∀ k ∈ P ++ a :: Q, layoutNode ids' score' u k =
      if k = a then { layoutNode ids score u a with prev := some i }
      else if P.getLast? = some k then { layoutNode ids score u k with next := some i } else layoutNode ids score u k := by
    intro k hk
    have hki : k ≠ i := fun e => hiu (e ▸ hk)
    rw [layoutNode_update_insert hP haQnd hu hki (hsc' k hki)]
    by_cases hka : k = a
    · subst hka
      have hp : P.getLast? ≠ some k := fun e => haP (List.mem_of_getLast? e)
      simp [hp, layoutNode]
    · by_cases hp : P.getLast? = some k <;> simp [hka, Ne.symm hka, hp, layoutNode]
  have hself : layoutNode ids' score' u i = { node with prev := P.getLast?, next := some a } := by
    rw [layoutNode_update_insert_self hP haQnd hiP hiaQ]
    obtain ⟨id, prev, next, bagUpper, sc⟩ := node
    simp only at hid hbu
    subst hid hbu
    simp [score']
  -- the three records the code writes, and every other one
  have hwrite : ∀ s₀ : State A, s₀.getNode = (s.relinkNext P.getLast? (some i)).getNode → ∀ k,
      ((s₀.putNode { layoutNode ids score u a with prev := some node.id }).putNode
        { node with prev := (layoutNode ids score u a).prev, next := some (layoutNode ids score u a).id }).getNode k =
      if k ∈ P ++ i :: a :: Q then some (layoutNode ids' score' u k) else s.getNode k := by
    intro s₀ hs₀ k
    have hlaid : (layoutNode ids score u a).id = a := rfl
    simp only [State.getNode_putNode, hid, hprev, hs₀, hlaid]
    by_cases hki : k = i
    · subst hki
      rw [if_pos rfl, if_pos (by simp), hself]
      simp [hid]
    · rw [if_neg hki]
      by_cases hka : k = a
      · subst hka
        rw [if_pos rfl, if_pos (by simp), hrec k (by simp), if_pos rfl]
        rfl
      · rw [if_neg hka, State.getNode_relinkNext_of (h.keyed_getLast hu)]
        by_cases hkm : k ∈ P ++ a :: Q
        · rw [if_pos (show k ∈ P ++ i :: a :: Q by simp at hkm ⊢; tauto), hrec k hkm, if_neg hka,
            h.getNode_of_removeNode (hu ▸ hkm)]
          split_ifs <;> rfl
        · have hp : P.getLast? ≠ some k := fun e => hkm (List.mem_append_left _ (List.mem_of_getLast? e))
          rw [if_neg hp, if_neg (show k ∉ P ++ i :: a :: Q by simp at hkm ⊢; tauto)]
  -- the bag's ends move only when `i` becomes its head
  have hb : s.getBag u = some ⟨(ids u).head?, (ids u).getLast?, u⟩ := h.getBag_of_mem ha
  have hlast : (P ++ i :: a :: Q).getLast? = (ids u).getLast? := by
    rw [hu, List.getLast?_append, List.getLast?_append]
    simp [List.getLast?_cons]
  obtain ⟨s', hs', hnode, hbag⟩ : ∃ s', insertAtUnchecked s (layoutNode ids score u a) node = some s' ∧
      (∀ k, s'.getNode k = if k ∈ P ++ i :: a :: Q then some (layoutNode ids' score' u k) else s.getNode k) ∧
      ∀ v, s'.getBag v = if v = u then some ⟨(P ++ i :: a :: Q).head?, (P ++ i :: a :: Q).getLast?, u⟩ else s.getBag v := by
    rw [insertAtUnchecked_eq]
    by_cases hP0 : P = []
    · subst hP0
      have hnone : (layoutNode ids score u a).prev = none := hprev
      have hbu' : (layoutNode ids score u a).bagUpper = u := rfl
      rw [if_pos hnone, State.getBag_relinkNext, hbu', hb, Option.map_some, Option.map_some]
      refine ⟨_, rfl, hwrite _ (by rw [State.getNode_putBag, hprev, hid]), ?_⟩
      intro v
      simp only [State.getBag_putNode, State.getBag_putBag]
      by_cases hv : v = u
      · subst hv
        rw [← hlast]
        simp [hid]
      · simp [hv]
    · have hsome : (layoutNode ids score u a).prev ≠ none := by rw [hprev]; simpa using hP0
      rw [if_neg hsome]
      refine ⟨_, rfl, hwrite _ (by rw [hprev, hid]), ?_⟩
      intro v
      simp only [State.getBag_putNode, State.getBag_relinkNext]
      by_cases hv : v = u
      · subst hv
        rw [hb, if_pos rfl, hlast, hu]
        obtain ⟨p, P', rfl⟩ := List.exists_cons_of_ne_nil hP0
        simp
      · rw [if_neg hv]
  have hsub : ∀ k ∈ P ++ a :: Q, k ∈ ids u := fun k hk => hu ▸ hk
  refine ⟨s', hs', h.sorted, h.bounded, ?_, ?_, ?_, ?_, ?_, ?_⟩
  · -- ends
    intro v bag hv
    rw [hbag] at hv
    by_cases hvu : v = u
    · subst hvu
      rw [if_pos rfl] at hv
      cases hv
      simp [ids']
    · rw [if_neg hvu] at hv
      rw [hids'v v hvu]
      exact h.ends v bag hv
  · -- absent
    intro v hv
    rw [hbag] at hv
    by_cases hvu : v = u
    · rw [if_pos hvu] at hv
      cases hv
    · rw [if_neg hvu] at hv
      rw [hids'v v hvu]
      exact h.absent v hv
  · -- node
    intro v k hk
    by_cases hvu : v = u
    · subst hvu
      rw [hids'u] at hk
      rw [hnode, if_pos hk]
    · rw [hids'v v hvu] at hk
      have hku : k ∉ P ++ i :: a :: Q := by
        intro hm
        rcases List.mem_append.mp hm with hkP | hkR
        · exact hvu (h.bag_unique hk (hsub k (List.mem_append_left _ hkP)))
        · rcases List.mem_cons.mp hkR with rfl | hkR
          · exact hiv v hk
          · exact hvu (h.bag_unique hk (hsub k (List.mem_append_right _ hkR)))
      have hki : k ≠ i := fun e => hiv v (e ▸ hk)
      rw [hnode, if_neg hku, h.getNode_of_removeNode hk, layoutNode_update_ne hvu _ score' k (hsc' k hki)]
  · -- placed
    intro v k hk
    by_cases hvu : v = u
    · subst hvu
      rw [hids'u] at hk
      by_cases hki : k = i
      · subst hki
        simp only [score', Function.update_self]
        exact ⟨hsc, hpl⟩
      · rw [hsc' k hki]
        exact h.placed v k (hsub k (by simp at hk ⊢; tauto))
    · rw [hids'v v hvu] at hk
      have hki : k ≠ i := fun e => hiv v (e ▸ hk)
      rw [hsc' k hki]
      exact h.placed v k hk
  · -- nodup
    refine nodup_flatMap_update (effectiveThresholds_nodup h.sorted h.bounded) h.nodup hnew ?_
    intro v _ hvu k hk hkv
    rcases List.mem_append.mp hk with hkP | hkR
    · exact hvu (h.bag_unique hkv (hsub k (List.mem_append_left _ hkP)))
    · rcases List.mem_cons.mp hkR with rfl | hkR
      · exact hiv v hkv
      · exact hvu (h.bag_unique hkv (hsub k (List.mem_append_right _ hkR)))
  · -- complete
    intro k hk
    rw [hnode] at hk
    split_ifs at hk with hkm
    · exact ⟨u, by rw [hids'u]; exact hkm⟩
    · have hki : k ≠ i := fun e => hkm (by simp [e])
      have hk' : ((s.removeNode i).getNode k).isSome := by rwa [State.getNode_removeNode, if_neg hki]
      obtain ⟨v, hv⟩ := h.complete k hk'
      by_cases hvu : v = u
      · subst hvu
        exact absurd (by rw [hu] at hv; simp at hv ⊢; tauto) hkm
      · exact ⟨v, by rw [hids'v v hvu]; exact hv⟩

/-- `insert_node_unchecked` of an unlisted id into the bag of its score, with the bag written
back, leaves the state laid out by that bag's list with the id appended. -/
theorem Layout.append (h : Layout T (s.removeNode i) ids score) {v : ℕ} {node : Node A} (hid : node.id = i)
    (hsc : node.score ≤ scoreMax) (hpl : notionalBagFor T node.score = v) :
    Layout T ((insertNodeUnchecked s (s.getOrMakeBag v) node).1.putBag (insertNodeUnchecked s (s.getOrMakeBag v) node).2)
      (Function.update ids v (ids v ++ [i])) (Function.update score i node.score) := by
  obtain ⟨i', prev, next, bagUpper, sc⟩ := node
  dsimp only at hid hsc hpl ⊢
  subst i'
  have hiv := h.not_mem_of_removeNode
  have hL := h.nodup_bag v
  have hiL : i ∉ ids v := hiv v
  have hbag : s.getOrMakeBag v = ⟨(ids v).head?, (ids v).getLast?, v⟩ := h.getOrMakeBag_eq v
  have htail : (ids v).getLast? ≠ some i := fun e => hiL (List.mem_of_getLast? e)
  rw [hbag, insertNodeUnchecked_eq s htail]
  dsimp only
  set ids' := Function.update ids v (ids v ++ [i])
  set score' := Function.update score i sc
  have hids'v : ids' v = ids v ++ [i] := Function.update_self _ _ _
  have hids'w : ∀ w, w ≠ v → ids' w = ids w := fun w hw => Function.update_of_ne hw _ _
  have hsc' : ∀ k, k ≠ i → score' k = score k := fun k hk => Function.update_of_ne hk _ _
  have hnew : (ids v ++ [i]).Nodup := List.nodup_append.mpr ⟨hL, List.nodup_singleton i,
    fun k hk j hj e => hiL (by rw [List.mem_singleton.mp hj] at e; exact e ▸ hk)⟩
  have hrec : ∀ k ∈ ids v, layoutNode ids' score' v k =
      if (ids v).getLast? = some k then { layoutNode ids score v k with next := some i } else layoutNode ids score v k := by
    intro k hk
    have hki : k ≠ i := fun e => hiL (e ▸ hk)
    rw [show ids' = Function.update ids v (ids v ++ i :: []) from rfl,
      layoutNode_update_insert hL List.nodup_nil (List.append_nil _).symm hki (hsc' k hki)]
    by_cases hp : (ids v).getLast? = some k <;> simp [hp, layoutNode]
  have hself : layoutNode ids' score' v i = ⟨i, (ids v).getLast?, none, v, sc⟩ := by
    rw [show ids' = Function.update ids v (ids v ++ i :: []) from rfl,
      layoutNode_update_insert_self hL List.nodup_nil hiL List.not_mem_nil]
    simp [score']
  have hnode : ∀ k, (((s.putNode ⟨i, (ids v).getLast?, none, v, sc⟩).relinkNext (ids v).getLast? (some i)).putBag
      ⟨if (ids v).head?.isNone then some i else (ids v).head?, some i, v⟩).getNode k =
      if k ∈ ids v ++ [i] then some (layoutNode ids' score' v k) else s.getNode k := by
    intro k
    have hkey : ∀ b y, (ids v).getLast? = some b →
        (s.putNode ⟨i, (ids v).getLast?, none, v, sc⟩).getNode b = some y → y.id = b := by
      intro b y hb hy
      have hbi : b ≠ i := fun e => hiL (e ▸ List.mem_of_getLast? hb)
      rw [State.getNode_putNode, if_neg hbi] at hy
      exact h.keyed_getLast (List.append_nil (ids v)).symm b y hb hy
    rw [State.getNode_putBag, State.getNode_relinkNext_of hkey, State.getNode_putNode]
    by_cases hki : k = i
    · subst hki
      have hp : (ids v).getLast? ≠ some k := fun e => hiL (List.mem_of_getLast? e)
      rw [if_neg hp, if_pos rfl, if_pos (by simp), hself]
    · rw [if_neg hki]
      by_cases hk : k ∈ ids v
      · rw [if_pos (show k ∈ ids v ++ [i] by simp [hk]), hrec k hk, h.getNode_of_removeNode hk]
        split_ifs <;> rfl
      · have hp : (ids v).getLast? ≠ some k := fun e => hk (List.mem_of_getLast? e)
        rw [if_neg hp, if_neg (show k ∉ ids v ++ [i] by simp [hk, hki])]
  have hbagv : ∀ w, (((s.putNode ⟨i, (ids v).getLast?, none, v, sc⟩).relinkNext (ids v).getLast? (some i)).putBag
      ⟨if (ids v).head?.isNone then some i else (ids v).head?, some i, v⟩).getBag w =
      if w = v then some ⟨(ids v ++ [i]).head?, (ids v ++ [i]).getLast?, v⟩ else s.getBag w := by
    intro w
    rw [State.getBag_putBag]
    by_cases hw : w = v
    · subst hw
      cases hh : (ids w).head? <;> simp [hh, List.head?_eq_none_iff.mp]
    · simp [hw]
  refine ⟨h.sorted, h.bounded, ?_, ?_, ?_, ?_, ?_, ?_⟩
  · -- ends
    intro w bag hw
    rw [hbagv] at hw
    by_cases hwv : w = v
    · subst hwv
      rw [if_pos rfl] at hw
      cases hw
      simp [hids'v]
    · rw [if_neg hwv] at hw
      rw [hids'w w hwv]
      exact h.ends w bag hw
  · -- absent
    intro w hw
    rw [hbagv] at hw
    by_cases hwv : w = v
    · rw [if_pos hwv] at hw
      cases hw
    · rw [if_neg hwv] at hw
      rw [hids'w w hwv]
      exact h.absent w hw
  · -- node
    intro w k hk
    by_cases hwv : w = v
    · subst hwv
      rw [hids'v] at hk
      rw [hnode, if_pos hk]
    · rw [hids'w w hwv] at hk
      have hki : k ≠ i := fun e => hiv w (e ▸ hk)
      have hkv : k ∉ ids v ++ [i] := by
        simp only [List.mem_append, List.mem_singleton, not_or]
        exact ⟨fun hkv => hwv (h.bag_unique hk hkv), hki⟩
      rw [hnode, if_neg hkv, h.getNode_of_removeNode hk, layoutNode_update_ne hwv _ score' k (hsc' k hki)]
  · -- placed
    intro w k hk
    by_cases hwv : w = v
    · subst hwv
      rw [hids'v] at hk
      by_cases hki : k = i
      · subst hki
        simp only [score', Function.update_self]
        exact ⟨hsc, hpl⟩
      · rw [hsc' k hki]
        exact h.placed w k (by simpa [hki] using hk)
    · rw [hids'w w hwv] at hk
      have hki : k ≠ i := fun e => hiv w (e ▸ hk)
      rw [hsc' k hki]
      exact h.placed w k hk
  · -- nodup
    refine nodup_flatMap_update (effectiveThresholds_nodup h.sorted h.bounded) h.nodup hnew ?_
    intro w _ hwv k hk hkw
    rcases List.mem_append.mp hk with hkv | hki
    · exact hwv (h.bag_unique hkw hkv)
    · rw [List.mem_singleton.mp hki] at hkw
      exact hiv w hkw
  · -- complete
    intro k hk
    rw [hnode] at hk
    split_ifs at hk with hkm
    · exact ⟨v, by rw [hids'v]; exact hkm⟩
    · have hki : k ≠ i := fun e => hkm (by simp [e])
      have hk' : ((s.removeNode i).getNode k).isSome := by rwa [State.getNode_removeNode, if_neg hki]
      obtain ⟨w, hw⟩ := h.complete k hk'
      by_cases hwv : w = v
      · subst hwv
        exact absurd (List.mem_append_left _ hw) hkm
      · exact ⟨w, by rw [hids'w w hwv]; exact hw⟩

end Insert

end PolkadotSdk.BagsList
