import Mathlib.Data.List.Chain
import Mathlib.Data.List.Perm.Subperm
import Mathlib.Data.List.TakeWhile
import PolkadotSdk.BagsListMigrate
import PolkadotSdk.LinkedStore

/-!
# Iterating the bags list

Over a state that keeps the representation invariant, `List::iter` reads every stored node
once, the bags from the highest threshold down and each bag from head to tail; a node in a
higher bag has a higher score than one in a lower bag, since each node lies in the bag of
the least threshold not below its score. `List::iter_from` reads what follows its start
node in that order: the rest of its bag along the links, then the thresholds that
`partition_point` finds below its bag, which are exactly the bags after it
(`iter_order`).
-/

namespace PolkadotSdk.BagsList

open LinkedStore

variable {A : Type} [DecidableEq A]

/-- The thresholds of the bags that exist: `scoreMax` is added when the list does not end
with it. -/
def effectiveThresholds (thresholds : List ℕ) : List ℕ :=
  if thresholds.getLast? = some scoreMax then thresholds else thresholds ++ [scoreMax]

section Thresholds

variable {thresholds : List ℕ}

theorem mem_effectiveThresholds {u : ℕ} :
    u ∈ effectiveThresholds thresholds ↔ u ∈ thresholds ∨ u = scoreMax := by
  unfold effectiveThresholds
  split
  · rename_i hlast
    have hmax : scoreMax ∈ thresholds := List.mem_of_getLast? hlast
    constructor
    · exact Or.inl
    · rintro (hu | rfl)
      · exact hu
      · exact hmax
  · simp

/-- The element at the length of the prefix `takeWhile` keeps is the head of what
`dropWhile` leaves: this is `partition_point` reading its slice. -/
theorem getElem?_length_takeWhile (p : ℕ → Bool) (l : List ℕ) :
    l[(l.takeWhile p).length]? = (l.dropWhile p).head? := by
  induction l with
  | nil => rfl
  | cons a l ih =>
    cases hp : p a
    · simp [hp]
    · simp [hp, ih]

theorem take_length_takeWhile (p : ℕ → Bool) (l : List ℕ) : l.take (l.takeWhile p).length = l.takeWhile p := by
  induction l with
  | nil => rfl
  | cons a l ih =>
    cases hp : p a
    · simp [hp]
    · simp [hp, ih]

theorem notionalBagFor_eq (score : ℕ) :
    notionalBagFor thresholds score =
      ((thresholds.dropWhile fun t => decide (t < score)).head?).getD scoreMax := by
  rw [notionalBagFor, getElem?_length_takeWhile]

theorem le_scoreMax_of_mem_effective (hb : ∀ t ∈ thresholds, t ≤ scoreMax) {u : ℕ}
    (hu : u ∈ effectiveThresholds thresholds) : u ≤ scoreMax := by
  rcases mem_effectiveThresholds.mp hu with hu | rfl
  · exact hb u hu
  · exact le_refl _

theorem notionalBagFor_mem (score : ℕ) : notionalBagFor thresholds score ∈ effectiveThresholds thresholds := by
  rw [notionalBagFor_eq, mem_effectiveThresholds]
  cases hd : (thresholds.dropWhile fun t => decide (t < score)).head? with
  | none => exact Or.inr rfl
  | some d => exact Or.inl ((List.dropWhile_sublist _).subset (List.mem_of_mem_head? hd))

/-- A score is at most the threshold of its bag. -/
theorem score_le_notionalBagFor {score : ℕ} (hscore : score ≤ scoreMax) :
    score ≤ notionalBagFor thresholds score := by
  rw [notionalBagFor_eq]
  have hnot := List.head?_dropWhile_not (fun t => decide (t < score)) thresholds
  cases hd : (thresholds.dropWhile fun t => decide (t < score)).head? with
  | none => exact hscore
  | some d =>
    rw [hd] at hnot
    simpa using hnot

/-- Every existing threshold below the bag of a score is below the score: the bag is the
least threshold not below it. -/
theorem lt_of_lt_notionalBagFor (hs : thresholds.Pairwise (· < ·)) (hb : ∀ t ∈ thresholds, t ≤ scoreMax)
    {score t : ℕ} (ht : t ∈ effectiveThresholds thresholds) (hlt : t < notionalBagFor thresholds score) :
    t < score := by
  by_contra hts
  have hmax : notionalBagFor thresholds score ≤ scoreMax :=
    le_scoreMax_of_mem_effective hb (notionalBagFor_mem score)
  rcases mem_effectiveThresholds.mp ht with ht | rfl
  · -- `t` is not in the prefix below `score`, so it is at or after the bag's threshold
    rw [← List.takeWhile_append_dropWhile (p := fun t => decide (t < score)) (l := thresholds),
      List.mem_append] at ht
    rcases ht with ht | ht
    · exact hts (by simpa using List.mem_takeWhile_imp ht)
    · have hsd : (thresholds.dropWhile fun t => decide (t < score)).Pairwise (· < ·) :=
        hs.sublist (List.dropWhile_sublist _)
      obtain ⟨d, D, hD⟩ := List.exists_cons_of_ne_nil (List.ne_nil_of_mem ht)
      rw [notionalBagFor_eq, hD] at hlt
      rw [hD] at ht hsd
      rcases List.mem_cons.mp ht with rfl | ht
      · exact lt_irrefl _ hlt
      · exact lt_asymm hlt ((List.pairwise_cons.mp hsd).1 t ht)
  · exact absurd hmax (not_le.mpr hlt)

/-- Without `scoreMax` as its last threshold, a sorted list of thresholds lies below it. -/
theorem lt_scoreMax_of_getLast (hs : thresholds.Pairwise (· < ·)) (hb : ∀ t ∈ thresholds, t ≤ scoreMax)
    (hlast : thresholds.getLast? ≠ some scoreMax) : ∀ t ∈ thresholds, t < scoreMax := by
  intro t ht
  rcases lt_or_eq_of_le (hb t ht) with hlt | rfl
  · exact hlt
  · obtain ⟨last, hl⟩ := Option.ne_none_iff_exists'.mp (mt List.getLast?_eq_none_iff.mp (List.ne_nil_of_mem ht))
    have hsplit := (List.dropLast_append_getLast? last hl).symm
    rw [hsplit] at ht hs
    rcases List.mem_append.mp ht with ht | ht
    · have hlt := (List.pairwise_append.mp hs).2.2 _ ht last List.mem_cons_self
      exact absurd (hb last (List.mem_of_getLast? hl)) (not_le.mpr hlt)
    · rw [List.mem_singleton.mp ht] at hlast
      exact absurd hl hlast

theorem effectiveThresholds_sorted (hs : thresholds.Pairwise (· < ·)) (hb : ∀ t ∈ thresholds, t ≤ scoreMax) :
    (effectiveThresholds thresholds).Pairwise (· < ·) := by
  unfold effectiveThresholds
  split
  · exact hs
  · rename_i hlast
    refine List.pairwise_append.mpr ⟨hs, List.pairwise_singleton _ _, ?_⟩
    intro t ht u hu
    rw [List.mem_singleton.mp hu]
    exact lt_scoreMax_of_getLast hs hb hlast t ht

/-- An existing threshold splits the existing ones into those `partition_point` counts
below it, itself, and those above. -/
theorem effectiveThresholds_split (hs : thresholds.Pairwise (· < ·)) (hb : ∀ t ∈ thresholds, t ≤ scoreMax)
    {u : ℕ} (hu : u ∈ effectiveThresholds thresholds) :
    ∃ R, effectiveThresholds thresholds =
      thresholds.take (thresholds.takeWhile fun t => decide (t < u)).length ++ u :: R := by
  rw [take_length_takeWhile]
  by_cases hmem : u ∈ thresholds
  · -- the first threshold not below `u` is `u` itself
    have hD : thresholds.dropWhile (fun t => decide (t < u)) ≠ [] := by
      intro hnil
      have hall := List.takeWhile_append_dropWhile (p := fun t => decide (t < u)) (l := thresholds)
      rw [hnil, List.append_nil] at hall
      rw [← hall] at hmem
      exact lt_irrefl u (by simpa using List.mem_takeWhile_imp hmem)
    obtain ⟨d, D, hdD⟩ := List.exists_cons_of_ne_nil hD
    have hsplit : thresholds = (thresholds.takeWhile fun t => decide (t < u)) ++ d :: D := by
      rw [← hdD, List.takeWhile_append_dropWhile]
    have hdu : d = u := by
      have hnot := List.head?_dropWhile_not (fun t => decide (t < u)) thresholds
      rw [hdD] at hnot
      have hud : u ≤ d := by simpa using hnot
      rw [hsplit] at hmem hs
      rcases List.mem_append.mp hmem with hmem | hmem
      · exact absurd (List.mem_takeWhile_imp hmem) (by simp)
      · rcases List.mem_cons.mp hmem with rfl | hmem
        · rfl
        · have hdu := ((List.pairwise_cons.mp (List.pairwise_append.mp hs).2.1).1) u hmem
          exact absurd hud (not_le.mpr hdu)
    rw [hdu] at hsplit
    unfold effectiveThresholds
    split
    · exact ⟨D, hsplit⟩
    · refine ⟨D ++ [scoreMax], ?_⟩
      conv_lhs => rw [hsplit]
      simp
  · -- `u` is the implicit last bag, above every threshold
    have hmax : u = scoreMax := (mem_effectiveThresholds.mp hu).resolve_left hmem
    subst hmax
    have hlast : thresholds.getLast? ≠ some scoreMax := fun hl => hmem (List.mem_of_getLast? hl)
    have hall : (thresholds.takeWhile fun t => decide (t < scoreMax)) = thresholds :=
      List.takeWhile_eq_self_iff.mpr fun t ht => by simpa using lt_scoreMax_of_getLast hs hb hlast t ht
    rw [hall]
    exact ⟨[], by simp [effectiveThresholds, hlast]⟩

end Thresholds

/-- `Bag::iter` is the walk of the library along `next`. -/
theorem bagIter_eq_walk (s : State A) (fuel : ℕ) (start : Option A) :
    bagIter s fuel start = walk s.getNode Node.next fuel start := by
  induction fuel generalizing start with
  | zero => rfl
  | succ fuel ih =>
    cases start with
    | none => rfl
    | some id =>
      simp only [bagIter, walk]
      cases s.getNode id <;> simp [ih]

/-- The representation invariant of the bags list, over the nodes `content u` of each bag
`u` from head to tail: a stored bag is linked by `next` from its head and by `prev` from its
tail, an absent bag is empty, each node names its bag and lies in the bag of its score, no
node is in two bags and every stored node is in one. Beside what `do_try_state` checks, the
thresholds are sorted and bounded as `T::BagThresholds` must be, and each node is where
`insert` and `update_position_for` put it. -/
structure Repr (thresholds : List ℕ) (s : State A) (content : ℕ → List (Node A)) : Prop where
  sorted : thresholds.Pairwise (· < ·)
  bounded : ∀ t ∈ thresholds, t ≤ scoreMax
  linked : ∀ u bag, s.getBag u = some bag →
    Linked s.getNode Node.id Node.next bag.head (content u) ∧
      Linked s.getNode Node.id Node.prev bag.tail (content u).reverse
  absent : ∀ u, s.getBag u = none → content u = []
  bagUpper_eq : ∀ u, ∀ x ∈ content u, x.bagUpper = u
  placed : ∀ u, ∀ x ∈ content u, x.score ≤ scoreMax ∧ notionalBagFor thresholds x.score = u
  nodup : (((effectiveThresholds thresholds).flatMap content).map Node.id).Nodup
  complete : ∀ id ∈ s.listNodes, ∃ u, ∃ x ∈ content u, x.id = id

namespace Repr

variable {thresholds : List ℕ} {s : State A} {content : ℕ → List (Node A)}

theorem mem_effective (h : Repr thresholds s content) {u : ℕ} {x : Node A} (hx : x ∈ content u) :
    u ∈ effectiveThresholds thresholds := by
  rw [← (h.placed u x hx).2]
  exact notionalBagFor_mem _

theorem getNode_of_mem (h : Repr thresholds s content) {u : ℕ} {x : Node A} (hx : x ∈ content u) :
    s.getNode x.id = some x := by
  cases hb : s.getBag u with
  | none => exact absurd hx (by simp [h.absent u hb])
  | some bag => exact (h.linked u bag hb).1.get_of_mem hx

/-- Every stored node is stored under its id and lies in a bag. -/
theorem getNode_eq (h : Repr thresholds s content) {id : A} {x : Node A} (hget : s.getNode id = some x) :
    x.id = id ∧ ∃ u, x ∈ content u := by
  have hmem : id ∈ s.listNodes := AList.lookup_isSome.mp (by simp [State.getNode] at hget; simp [hget])
  obtain ⟨u, y, hy, rfl⟩ := h.complete id hmem
  have hyx : y = x := Option.some.inj ((h.getNode_of_mem hy).symm.trans hget)
  subst hyx
  exact ⟨rfl, u, hy⟩

theorem nodup_ids (h : Repr thresholds s content) (u : ℕ) : ((content u).map Node.id).Nodup := by
  cases hc : content u with
  | nil => simp
  | cons x xs =>
    have hx : x ∈ content u := by simp [hc]
    have hsub : (content u).Sublist ((effectiveThresholds thresholds).flatMap content) :=
      (List.infix_of_mem_flatten (List.mem_map_of_mem (h.mem_effective hx))).sublist
    rw [← hc]
    exact h.nodup.sublist (hsub.map _)

/-- A bag holds no more nodes than the store: the fuel `Bag::iter` is given suffices. -/
theorem length_le (h : Repr thresholds s content) (u : ℕ) : (content u).length ≤ s.listNodes.entries.length := by
  have hsub : (content u).map Node.id ⊆ s.listNodes.keys := by
    intro id hid
    obtain ⟨x, hx, rfl⟩ := List.mem_map.mp hid
    have hl : s.listNodes.lookup x.id = some x := h.getNode_of_mem hx
    exact AList.mem_keys.mp (AList.lookup_isSome.mp (by rw [hl]; rfl))
  have hlen := (List.Nodup.subperm (h.nodup_ids u) hsub).length_le
  simpa [AList.keys, List.keys] using hlen

theorem bagIter_eq (h : Repr thresholds s content) {u : ℕ} {bag : Bag A} (hb : s.getBag u = some bag) :
    bagIter s s.listNodes.entries.length bag.head = content u := by
  rw [bagIter_eq_walk]
  exact (h.linked u bag hb).1.walk_eq (h.length_le u)

/-- Reading the bags of a list of thresholds reads their contents. -/
theorem flatMap_bags (h : Repr thresholds s content) (us : List ℕ) :
    (us.filterMap s.getBag).flatMap (fun bag => bagIter s s.listNodes.entries.length bag.head) =
      us.flatMap content := by
  induction us with
  | nil => rfl
  | cons u us ih =>
    cases hb : s.getBag u with
    | none => simp [hb, h.absent u hb, ih]
    | some bag => simp [hb, h.bagIter_eq hb, ih]

end Repr

theorem iter_eq {thresholds : List ℕ} {s : State A} {content : ℕ → List (Node A)} (h : Repr thresholds s content) :
    iter thresholds s = (effectiveThresholds thresholds).reverse.flatMap content := by
  have huppers : (if thresholds.getLast? = some scoreMax then thresholds.reverse
      else (thresholds ++ [scoreMax]).reverse) = (effectiveThresholds thresholds).reverse := by
    unfold effectiveThresholds
    split <;> rfl
  simp only [iter]
  rw [huppers, h.flatMap_bags]

section Iter

variable {thresholds : List ℕ} {s : State A} {content : ℕ → List (Node A)}

/-- `iter` reads every stored node once. -/
theorem iter_perm (h : Repr thresholds s content) :
    (iter thresholds s).Perm (s.listNodes.entries.map Sigma.snd) := by
  have hnd : (iter thresholds s).Nodup := by
    rw [iter_eq h]
    have hperm := (List.reverse_perm (effectiveThresholds thresholds)).flatMap_right content
    exact hperm.nodup_iff.mpr (List.Nodup.of_map Node.id h.nodup)
  have hnd' : (s.listNodes.entries.map Sigma.snd).Nodup := by
    refine List.Nodup.map_on ?_ s.listNodes.nodupKeys.nodup
    rintro ⟨k, x⟩ hkx ⟨k', x'⟩ hkx' hxx'
    simp only at hxx'
    subst hxx'
    obtain ⟨rfl, -⟩ := h.getNode_eq (AList.mem_lookup_iff.mpr hkx)
    obtain ⟨rfl, -⟩ := h.getNode_eq (AList.mem_lookup_iff.mpr hkx')
    rfl
  refine (List.perm_ext_iff_of_nodup hnd hnd').mpr fun x => ?_
  rw [iter_eq h, List.mem_flatMap, List.mem_map]
  constructor
  · rintro ⟨u, -, hx⟩
    exact ⟨⟨x.id, x⟩, AList.mem_lookup_iff.mp (h.getNode_of_mem hx), rfl⟩
  · rintro ⟨⟨k, y⟩, hky, rfl⟩
    obtain ⟨-, u, hu⟩ := h.getNode_eq (AList.mem_lookup_iff.mpr hky)
    exact ⟨u, List.mem_reverse.mpr (h.mem_effective hu), hu⟩

/-- Along `iter` the bags never rise, and a node in a higher bag has a higher score than one
in a lower bag. -/
theorem iter_pairwise (h : Repr thresholds s content) :
    (iter thresholds s).Pairwise fun a b =>
      b.bagUpper ≤ a.bagUpper ∧ (a.bagUpper ≠ b.bagUpper → b.score < a.score) := by
  have hsorted : (effectiveThresholds thresholds).reverse.Pairwise fun u v => v < u :=
    List.pairwise_reverse.mpr (effectiveThresholds_sorted h.sorted h.bounded)
  rw [iter_eq h, List.pairwise_flatMap]
  refine ⟨fun u _ => List.pairwise_of_forall_mem_list fun a ha b hb => ?_, hsorted.imp fun {u v} hvu => ?_⟩
  · -- within one bag every node names that bag
    rw [h.bagUpper_eq u a ha, h.bagUpper_eq u b hb]
    exact ⟨le_refl u, fun hne => absurd rfl hne⟩
  · intro a ha b hb
    rw [h.bagUpper_eq u a ha, h.bagUpper_eq v b hb]
    have hbv : b.score ≤ v := by
      rw [← (h.placed v b hb).2]
      exact score_le_notionalBagFor (h.placed v b hb).1
    have hva : v < a.score := by
      refine lt_of_lt_notionalBagFor h.sorted h.bounded (h.mem_effective hb) ?_
      rw [(h.placed u a ha).2]
      exact hvu
    exact ⟨le_of_lt hvu, fun _ => lt_of_le_of_lt hbv hva⟩

/-- The bags of a list of decreasing thresholds, read one after the other: within a bag each
node links to the next, and between two bags the tail of the first links to nothing, the head
of the second to nothing before it, and the bag drops. -/
theorem isChain_flatMap (h : Repr thresholds s content) :
    ∀ us : List ℕ, us.Pairwise (fun u v => v < u) →
      (us.flatMap content).IsChain fun a b =>
        a.next = some b.id ∨ (a.next = none ∧ b.prev = none ∧ b.bagUpper < a.bagUpper)
  | [], _ => .nil
  | u :: us, hus => by
    rw [List.flatMap_cons, List.isChain_append]
    obtain ⟨hu, hus⟩ := List.pairwise_cons.mp hus
    refine ⟨?_, isChain_flatMap h us hus, fun a ha b hb => Or.inr ?_⟩
    · cases hbag : s.getBag u with
      | none => simp [h.absent u hbag]
      | some bag => exact (h.linked u bag hbag).1.chain.imp fun a b hab => Or.inl hab
    · -- `a` is the tail of bag `u`, `b` the head of a later bag `v`
      obtain ⟨v, hv, hbv⟩ := List.exists_of_findSome?_eq_some (by rwa [← List.head?_flatMap])
      have hamem : a ∈ content u := List.mem_of_getLast? ha
      have hbmem : b ∈ content v := List.mem_of_mem_head? hbv
      obtain ⟨bag, hbag⟩ : ∃ bag, s.getBag u = some bag := by
        cases hbag : s.getBag u with
        | none => exact absurd hamem (by simp [h.absent u hbag])
        | some bag => exact ⟨bag, rfl⟩
      obtain ⟨bag', hbag'⟩ : ∃ bag, s.getBag v = some bag := by
        cases hbag' : s.getBag v with
        | none => exact absurd hbmem (by simp [h.absent v hbag'])
        | some bag => exact ⟨bag, rfl⟩
      refine ⟨(h.linked u bag hbag).1.next_getLast a ha, ?_, ?_⟩
      · exact (h.linked v bag' hbag').2.next_getLast b (by rwa [List.getLast?_reverse])
      · rw [h.bagUpper_eq u a hamem, h.bagUpper_eq v b hbmem]
        exact hu v hv

/-- `iter_from` reads what follows its start node in `iter`. -/
theorem iterFrom_eq (h : Repr thresholds s content) {start : A} {x : Node A} (hget : s.getNode start = some x) :
    ∃ pre post, iter thresholds s = pre ++ x :: post ∧ iterFrom thresholds s start = .ok post := by
  obtain ⟨-, u, hx⟩ := h.getNode_eq hget
  have hu : x.bagUpper = u := h.bagUpper_eq u x hx
  obtain ⟨A', B, hsplit⟩ := List.append_of_mem hx
  obtain ⟨R, hR⟩ := effectiveThresholds_split h.sorted h.bounded (h.mem_effective hx)
  obtain ⟨bag, hbag⟩ : ∃ bag, s.getBag u = some bag := by
    cases hbag : s.getBag u with
    | none => exact absurd hx (by simp [h.absent u hbag])
    | some bag => exact ⟨bag, rfl⟩
  -- the rest of the start's bag, along the links
  have hrest : bagIter s s.listNodes.entries.length x.next = B := by
    rw [bagIter_eq_walk]
    have hlink := (h.linked u bag hbag).1
    rw [hsplit] at hlink
    refine hlink.of_append_cons.walk_eq ?_
    have hlen := h.length_le u
    rw [hsplit] at hlen
    simp only [List.length_append, List.length_cons] at hlen
    omega
  refine ⟨R.reverse.flatMap content ++ A',
    B ++ (thresholds.take (thresholds.takeWhile fun t => decide (t < u)).length).reverse.flatMap content, ?_, ?_⟩
  · rw [iter_eq h, hR, List.reverse_append, List.reverse_cons]
    simp [List.flatMap_append, hsplit]
  · simp only [iterFrom, hget, hu, hrest, h.flatMap_bags]

end Iter

theorem iter_order (thresholds : List ℕ) (s : State A) (content : ℕ → List (Node A))
    (h : Repr thresholds s content) :
    iter thresholds s = (effectiveThresholds thresholds).reverse.flatMap content ∧
    (effectiveThresholds thresholds).reverse.Pairwise (fun u v => v < u) ∧
    (iter thresholds s).Perm (s.listNodes.entries.map Sigma.snd) ∧
    (iter thresholds s).IsChain (fun a b =>
      a.next = some b.id ∨ (a.next = none ∧ b.prev = none ∧ b.bagUpper < a.bagUpper)) ∧
    (iter thresholds s).Pairwise (fun a b => b.bagUpper ≤ a.bagUpper) ∧
    (iter thresholds s).Pairwise (fun a b => a.bagUpper ≠ b.bagUpper → b.score < a.score) ∧
    ∀ start x, s.getNode start = some x →
      ∃ pre post, iter thresholds s = pre ++ x :: post ∧ iterFrom thresholds s start = .ok post := by
  have hsorted : (effectiveThresholds thresholds).reverse.Pairwise fun u v => v < u :=
    List.pairwise_reverse.mpr (effectiveThresholds_sorted h.sorted h.bounded)
  have hpair := iter_pairwise h
  refine ⟨iter_eq h, hsorted, iter_perm h, ?_, hpair.imp And.left, hpair.imp And.right,
    fun _ _ hget => iterFrom_eq h hget⟩
  rw [iter_eq h]
  exact isChain_flatMap h _ hsorted

/-- Three accounts inserted under the thresholds `[10]`: `1` with score 100 goes to the last
bag, then `2` and `3` with scores 5 and 7 to the bag `10`, `3` behind `2`. -/
def threeNodes : State ℕ :=
  match insert [10] State.empty 1 100 with
  | .error _ => State.empty
  | .ok s => match insert [10] s 2 5 with
    | .error _ => s
    | .ok s => match insert [10] s 3 7 with
      | .error _ => s
      | .ok s => s

/-- The bags of `threeNodes`, head to tail. -/
def threeNodesContent (u : ℕ) : List (Node ℕ) :=
  if u = 10 then [⟨2, none, some 3, 10, 5⟩, ⟨3, some 2, none, 10, 7⟩]
  else if u = scoreMax then [⟨1, none, none, scoreMax, 100⟩] else []

theorem threeNodes_getBag (u : ℕ) : threeNodes.getBag u =
    if u = 10 then some ⟨some 2, some 3, 10⟩ else if u = scoreMax then some ⟨some 1, some 1, scoreMax⟩ else none := by
  have hbags : threeNodes.listBags.entries = [⟨10, (some 2, some 3)⟩, ⟨scoreMax, (some 1, some 1)⟩] := by decide
  have hne : scoreMax ≠ 10 := by decide
  unfold State.getBag
  rw [AList.lookup, hbags]
  by_cases h10 : u = 10
  · subst h10; rfl
  · by_cases hmax : u = scoreMax
    · subst hmax; simp [hne, Ne.symm hne, List.dlookup]
    · simp [h10, hmax, Ne.symm h10, Ne.symm hmax, List.dlookup]

theorem scoreMax_ne_ten : scoreMax ≠ 10 := by decide

theorem threeNodes_repr : Repr [10] threeNodes threeNodesContent where
  sorted := by decide
  bounded := by decide
  linked := by
    intro u bag hb
    rw [threeNodes_getBag] at hb
    by_cases h10 : u = 10
    · subst h10
      cases hb
      refine ⟨?_, ?_⟩ <;> simp [threeNodesContent] <;> decide
    · by_cases hmax : u = scoreMax
      · subst hmax
        simp [h10] at hb
        subst hb
        refine ⟨?_, ?_⟩ <;> simp [threeNodesContent, scoreMax_ne_ten] <;> decide
      · simp [h10, hmax] at hb
  absent := by
    intro u hb
    rw [threeNodes_getBag] at hb
    split_ifs at hb with h10 hmax
    simp [threeNodesContent, h10, hmax]
  bagUpper_eq := by
    intro u x hx
    unfold threeNodesContent at hx
    split_ifs at hx with h10 hmax
    · subst h10; simp at hx; rcases hx with rfl | rfl <;> rfl
    · subst hmax; simp at hx; subst hx; rfl
    · cases hx
  placed := by
    intro u x hx
    unfold threeNodesContent at hx
    split_ifs at hx with h10 hmax
    · subst h10; simp at hx; rcases hx with rfl | rfl <;> decide
    · subst hmax; simp at hx; subst hx; decide
    · cases hx
  nodup := by decide
  complete := by
    intro id hid
    have hnodes : threeNodes.listNodes.keys = [2, 3, 1] := by decide
    rw [AList.mem_keys, hnodes] at hid
    simp at hid
    rcases hid with rfl | rfl | rfl
    · exact ⟨10, ⟨2, none, some 3, 10, 5⟩, by simp [threeNodesContent], rfl⟩
    · exact ⟨10, ⟨3, some 2, none, 10, 7⟩, by simp [threeNodesContent], rfl⟩
    · exact ⟨scoreMax, ⟨1, none, none, scoreMax, 100⟩, by simp [threeNodesContent, scoreMax_ne_ten], rfl⟩

theorem iter_order_threeNodes :
    Repr [10] threeNodes threeNodesContent ∧
      iter [10] threeNodes =
        [⟨1, none, none, scoreMax, 100⟩, ⟨2, none, some 3, 10, 5⟩, ⟨3, some 2, none, 10, 7⟩] := by
  refine ⟨threeNodes_repr, ?_⟩
  rw [(iter_order [10] threeNodes threeNodesContent threeNodes_repr).1]
  decide

end PolkadotSdk.BagsList
