import Mathlib.Algebra.BigOperators.Group.List.Basic
import PolkadotSdk.GroupBy
import PolkadotSdk.NposPjr

/-!
# Supports and staked assignments

`to_support_map` turns the voter-major view of an election outcome (each voter's stake on each
target) into the target-major one (each target's voters and its total), pushing every edge onto
the entry of its target in a `BTreeMap`; `to_supports` lists that map in target order.
`supports_to_staked_assignment` groups the edges the other way, by voter. A lookup after either
loop sees the edges of its key in the order they were pushed (`toSupportMap_getElem?`,
`stakedMap_getElem?`).

The two conversions undo each other up to order. Assignments come back sorted by voter, each
distribution sorted by target. Supports come back with each voter list permuted, when the
supports are sorted by target and none is empty: the target of a support without voters has no
edge left to carry it back.
-/

namespace PolkadotSdk.Npos

open GroupBy

variable {A : Type} [LinearOrder A]

/-- `Support::default`. -/
instance : Inhabited (Support A) := ⟨⟨0, []⟩⟩

/-- One push of `to_support_map` onto a target's support. -/
def pushSupport (support : Support A) (vote : A × ℕ) : Support A :=
  ⟨saturatingAdd support.total vote.2, support.voters ++ [vote]⟩

/-- `to_support_map`. -/
def toSupportMap (assignments : List (StakedAssignment A)) : Std.TreeMap A (Support A) compare :=
  assignments.foldl (fun supports ⟨who, distribution⟩ =>
    distribution.foldl (fun supports (c, weightExtended) =>
      modifyOrDefault supports c default fun support => pushSupport support (who, weightExtended))
      supports) ∅

/-- `to_supports`. -/
def toSupports (assignments : List (StakedAssignment A)) : List (A × Support A) :=
  (toSupportMap assignments).toList

/-- The `staked` map that `supports_to_staked_assignment` builds. -/
def stakedMap (supports : List (A × Support A)) : Std.TreeMap A (List (A × ℕ)) compare :=
  supports.foldl (fun staked (target, support) =>
    support.voters.foldl (fun staked (voter, amount) =>
      modifyOrDefault staked voter [] fun distribution => distribution ++ [(target, amount)]) staked) ∅

/-- `supports_to_staked_assignment`. -/
def supportsToStakedAssignment (supports : List (A × Support A)) : List (StakedAssignment A) :=
  (stakedMap supports).toList.map fun (who, distribution) => ⟨who, distribution⟩

/-! ## The two loops as groupings of edges -/

/-- The edges of an assignment keyed by target, each carrying its voter and weight. -/
def StakedAssignment.edges (a : StakedAssignment A) : List (A × (A × ℕ)) :=
  a.distribution.map fun e => (e.1, (a.who, e.2))

/-- The edges of supports keyed by voter, each carrying its target and amount. -/
def supportEdges (supports : List (A × Support A)) : List (A × (A × ℕ)) :=
  supports.flatMap fun p => p.2.voters.map fun e => (e.1, (p.1, e.2))

/-- The voters `to_support_map` pushes onto target `c`, in order. -/
def votersOf (assignments : List (StakedAssignment A)) (c : A) : List (A × ℕ) :=
  valuesAt (assignments.flatMap StakedAssignment.edges) c

theorem toSupportMap_eq (assignments : List (StakedAssignment A)) :
    toSupportMap assignments = (assignments.flatMap StakedAssignment.edges).foldl
      (fun m e => modifyOrDefault m e.1 default (pushSupport · e.2)) ∅ := by
  simp only [toSupportMap, List.foldl_flatMap, StakedAssignment.edges, List.foldl_map]

theorem stakedMap_eq (supports : List (A × Support A)) :
    stakedMap supports = (supportEdges supports).foldl
      (fun m e => modifyOrDefault m e.1 [] (· ++ [e.2])) ∅ := by
  simp only [stakedMap, supportEdges, List.foldl_flatMap, List.foldl_map]

/-- The saturating running total is the sum, capped once at the end. -/
theorem foldl_saturatingAdd (l : List ℕ) {a : ℕ} (ha : a ≤ extendedBalanceMax) :
    l.foldl saturatingAdd a = min (a + l.sum) extendedBalanceMax := by
  induction l generalizing a with
  | nil => simp [ha]
  | cons x l ih =>
    rw [List.foldl_cons, show saturatingAdd a x = min (a + x) extendedBalanceMax from rfl,
      ih (min_le_right _ _), List.sum_cons]
    omega

theorem foldl_pushSupport (votes : List (A × ℕ)) (support : Support A) :
    votes.foldl pushSupport support =
      ⟨(votes.map (·.2)).foldl saturatingAdd support.total, support.voters ++ votes⟩ := by
  induction votes generalizing support with
  | nil => simp
  | cons v votes ih => simp [ih, pushSupport]

theorem foldl_push (l d : List (A × ℕ)) : l.foldl (· ++ [·]) d = d ++ l := by
  induction l generalizing d with
  | nil => simp
  | cons e l ih => simp [ih]

/-- A target's support holds its voters in push order and their capped sum. -/
theorem toSupportMap_getElem? (assignments : List (StakedAssignment A)) (c : A) :
    (toSupportMap assignments)[c]? =
      if votersOf assignments c = [] then none
      else some ⟨min ((votersOf assignments c).map (·.2)).sum extendedBalanceMax, votersOf assignments c⟩ := by
  rw [toSupportMap_eq, getElem?_foldl_modifyOrDefault, Std.TreeMap.getElem?_emptyc, Option.getD_none,
    foldl_pushSupport, show (default : Support A) = ⟨0, []⟩ from rfl]
  simp only [foldl_saturatingAdd _ (Nat.zero_le _), Nat.zero_add, List.nil_append, votersOf]
  -- the two sides decide emptiness with different instances
  exact if_congr Iff.rfl rfl rfl

/-- A voter's distribution holds its targets in the order the supports list them. -/
theorem stakedMap_getElem? (supports : List (A × Support A)) (v : A) :
    (stakedMap supports)[v]? =
      if valuesAt (supportEdges supports) v = [] then none else some (valuesAt (supportEdges supports) v) := by
  rw [stakedMap_eq]
  refine (getElem?_foldl_modifyOrDefault _ _ _ (fun d e => d ++ [e]) v).trans ?_
  rw [Std.TreeMap.getElem?_emptyc, Option.getD_none, foldl_push, List.nil_append]

theorem votersOf_eq (assignments : List (StakedAssignment A)) (c : A) :
    votersOf assignments c = assignments.flatMap fun a => (valuesAt a.distribution c).map (Prod.mk a.who) := by
  rw [votersOf, valuesAt_flatMap]
  exact List.flatMap_congr fun a _ => valuesAt_map_snd _ _ _

theorem valuesAt_supportEdges (supports : List (A × Support A)) (v : A) :
    valuesAt (supportEdges supports) v = supports.flatMap fun p => (valuesAt p.2.voters v).map (Prod.mk p.1) := by
  rw [supportEdges, valuesAt_flatMap]
  exact List.flatMap_congr fun p _ => valuesAt_map_snd _ _ _


/-! ## Assignments there and back -/

section Assignments

variable {assignments : List (StakedAssignment A)}

/-- `to_supports` lists every target that some edge reaches, with the voters pushed onto it. -/
theorem mem_toSupports_iff (p : A × Support A) :
    p ∈ toSupports assignments ↔ votersOf assignments p.1 ≠ [] ∧
      p.2 = ⟨min ((votersOf assignments p.1).map (·.2)).sum extendedBalanceMax, votersOf assignments p.1⟩ := by
  obtain ⟨t, sup⟩ := p
  rw [toSupports, Std.TreeMap.mem_toList_iff_getElem?_eq_some, toSupportMap_getElem?]
  by_cases h : votersOf assignments t = []
  · simp [h]
  · rw [if_neg h, Option.some.injEq]
    exact ⟨fun h' => ⟨h, h'.symm⟩, fun h' => h'.2.symm⟩

theorem mem_keys_toSupportMap {a : StakedAssignment A} (ha : a ∈ assignments) {e : A × ℕ}
    (he : e ∈ a.distribution) : e.1 ∈ (toSupportMap assignments).keys := by
  have hne : votersOf assignments e.1 ≠ [] := by
    rw [votersOf_eq]
    exact List.ne_nil_of_mem (List.mem_flatMap.mpr ⟨a, ha, List.mem_map_of_mem (mem_valuesAt_of_mem he)⟩)
  apply mem_keys_of_getElem? (v := _)
  rw [toSupportMap_getElem?, if_neg hne]

/-- Regrouped by voter, the supports give each voter the edges to every target in target
order; the edges of voter `v` to target `t` are those of the one assignment of `v`. -/
theorem valuesAt_supportEdges_toSupports (v : A) :
    valuesAt (supportEdges (toSupports assignments)) v =
      (toSupportMap assignments).keys.flatMap fun t =>
        (assignments.flatMap fun a => if a.who = v then valuesAt a.distribution t else []).map (Prod.mk t) := by
  rw [valuesAt_supportEdges, List.flatMap_congr fun p hp => by rw [((mem_toSupports_iff p).mp hp).2],
    toSupports, ← Std.TreeMap.map_fst_toList_eq_keys, List.flatMap_map]
  refine List.flatMap_congr fun p _ => ?_
  rw [votersOf_eq, valuesAt_flatMap]
  simp only [valuesAt_map_mk]

variable (hwho : (assignments.map (·.who)).Nodup) (hne : ∀ a ∈ assignments, a.distribution ≠ [])
  (htargets : ∀ a ∈ assignments, (a.distribution.map (·.1)).Nodup)

include hwho htargets in
/-- The voter of an assignment gets its own distribution back, sorted by target. -/
theorem valuesAt_supportEdges_toSupports_of_mem {a : StakedAssignment A} (ha : a ∈ assignments) :
    valuesAt (supportEdges (toSupports assignments)) a.who = a.distribution.mergeSort fun e f => e.1 ≤ f.1 := by
  rw [valuesAt_supportEdges_toSupports]
  simp only [flatMap_ite_of_mem hwho (fun b => valuesAt b.distribution _) ha, map_mk_valuesAt]
  exact flatMap_filter_eq_mergeSort (pairwise_keys _) (fun e he => mem_keys_toSupportMap ha he) (htargets a ha)

/-- A voter without an assignment gets nothing. -/
theorem valuesAt_supportEdges_toSupports_of_forall_ne {v : A} (hv : ∀ a ∈ assignments, a.who ≠ v) :
    valuesAt (supportEdges (toSupports assignments)) v = [] := by
  rw [valuesAt_supportEdges_toSupports]
  simp only [flatMap_ite_of_forall_ne _ hv, List.map_nil]
  exact List.flatMap_eq_nil_iff.mpr fun _ _ => rfl

include hwho hne htargets in
theorem mem_supportsToStakedAssignment_toSupports_iff (x : StakedAssignment A) :
    x ∈ supportsToStakedAssignment (toSupports assignments) ↔
      x ∈ assignments.map fun a => ⟨a.who, a.distribution.mergeSort fun e f => e.1 ≤ f.1⟩ := by
  obtain ⟨v, d⟩ := x
  simp only [supportsToStakedAssignment, List.mem_map, Prod.exists, StakedAssignment.mk.injEq,
    Std.TreeMap.mem_toList_iff_getElem?_eq_some, stakedMap_getElem?]
  constructor
  · rintro ⟨v, d, h, rfl, rfl⟩
    by_cases hv : ∃ a ∈ assignments, a.who = v
    · obtain ⟨a, ha, rfl⟩ := hv
      rw [valuesAt_supportEdges_toSupports_of_mem hwho htargets ha] at h
      refine ⟨a, ha, rfl, ?_⟩
      split at h <;> simp_all
    · push Not at hv
      simp [valuesAt_supportEdges_toSupports_of_forall_ne hv] at h
  · rintro ⟨a, ha, rfl, rfl⟩
    refine ⟨a.who, _, ?_, rfl, rfl⟩
    rw [valuesAt_supportEdges_toSupports_of_mem hwho htargets ha, if_neg]
    intro h
    exact hne a ha (List.eq_nil_of_length_eq_zero (by rw [← List.length_mergeSort, h, List.length_nil]))

include hwho hne htargets in
/-- Assignments with distinct voters and non-empty distributions to distinct targets come back
sorted by voter, each distribution sorted by target. -/
theorem supportsToStakedAssignment_toSupports :
    supportsToStakedAssignment (toSupports assignments) =
      (assignments.map fun a => ⟨a.who, a.distribution.mergeSort fun e f => e.1 ≤ f.1⟩).mergeSort
        fun a b => a.who ≤ b.who := by
  have hkeys : ((supportsToStakedAssignment (toSupports assignments)).map (·.who)).Nodup := by
    have hwhos : (supportsToStakedAssignment (toSupports assignments)).map (·.who) =
        (stakedMap (toSupports assignments)).keys := by
      rw [supportsToStakedAssignment, List.map_map, ← Std.TreeMap.map_fst_toList_eq_keys]
      rfl
    rw [hwhos]
    exact Std.TreeMap.nodup_keys
  have hnodup : (assignments.map fun a =>
      (⟨a.who, a.distribution.mergeSort fun e f => e.1 ≤ f.1⟩ : StakedAssignment A)).Nodup :=
    List.Nodup.of_map (·.who) (by rw [List.map_map]; exact hwho)
  have hperm := (List.perm_ext_iff_of_nodup (List.Nodup.of_map _ hkeys) hnodup).mpr
    (mem_supportsToStakedAssignment_toSupports_iff hwho hne htargets)
  refine eq_of_perm_of_pairwise_le (f := StakedAssignment.who) (hperm.trans (List.mergeSort_perm _ _).symm) ?_
    (pairwise_mergeSort_le StakedAssignment.who _) hkeys
  rw [supportsToStakedAssignment, List.pairwise_map]
  exact (pairwise_toList _).imp le_of_lt

end Assignments

/-! ## Supports there and back -/

section Supports

variable {supports : List (A × Support A)}

theorem mem_keys_stakedMap {p : A × Support A} (hp : p ∈ supports) {e : A × ℕ} (he : e ∈ p.2.voters) :
    e.1 ∈ (stakedMap supports).keys := by
  have hne : valuesAt (supportEdges supports) e.1 ≠ [] := by
    rw [valuesAt_supportEdges]
    exact List.ne_nil_of_mem (List.mem_flatMap.mpr ⟨p, hp, List.mem_map_of_mem (mem_valuesAt_of_mem he)⟩)
  apply mem_keys_of_getElem? (v := _)
  rw [stakedMap_getElem?, if_neg hne]

/-- Regrouped by target again, the edges to target `t` are, voter by voter in voter order, the
votes of that voter in the supports of `t`. -/
theorem votersOf_supportsToStakedAssignment (t : A) :
    votersOf (supportsToStakedAssignment supports) t =
      (stakedMap supports).keys.flatMap fun v =>
        (supports.flatMap fun p => if p.1 = t then valuesAt p.2.voters v else []).map (Prod.mk v) := by
  rw [votersOf_eq, supportsToStakedAssignment, List.flatMap_map, ← Std.TreeMap.map_fst_toList_eq_keys,
    List.flatMap_map]
  refine List.flatMap_congr fun ⟨v, d⟩ hq => ?_
  have hd := Std.TreeMap.mem_toList_iff_getElem?_eq_some.mp hq
  rw [stakedMap_getElem?] at hd
  split at hd
  · cases hd
  · cases hd
    rw [valuesAt_supportEdges, valuesAt_flatMap]
    simp only [valuesAt_map_mk]

variable (hsorted : supports.Pairwise fun p q => p.1 < q.1)

include hsorted in
/-- The voters of a support come back permuted: the one support of its target contributes,
voter by voter. -/
theorem votersOf_supportsToStakedAssignment_perm {p : A × Support A} (hp : p ∈ supports) :
    (votersOf (supportsToStakedAssignment supports) p.1).Perm p.2.voters := by
  have hnd : (supports.map (·.1)).Nodup := List.pairwise_map.mpr (hsorted.imp ne_of_lt)
  rw [votersOf_supportsToStakedAssignment]
  simp only [flatMap_ite_of_mem hnd (fun q => valuesAt q.2.voters _) hp, map_mk_valuesAt]
  exact flatMap_filter_perm Std.TreeMap.nodup_keys fun e he => mem_keys_stakedMap hp he

theorem votersOf_supportsToStakedAssignment_of_forall_ne {t : A} (ht : ∀ p ∈ supports, p.1 ≠ t) :
    votersOf (supportsToStakedAssignment supports) t = [] := by
  rw [votersOf_supportsToStakedAssignment]
  simp only [flatMap_ite_of_forall_ne _ ht, List.map_nil]
  exact List.flatMap_eq_nil_iff.mpr fun _ _ => rfl

variable (hne : ∀ p ∈ supports, p.2.voters ≠ [])
  (htotal : ∀ p ∈ supports, p.2.total = (p.2.voters.map (·.2)).sum ∧ p.2.total ≤ extendedBalanceMax)

include hsorted hne htotal in
/-- Supports sorted by target, none without voters and each with its exact total, come back
with each voter list permuted. -/
theorem toSupports_supportsToStakedAssignment :
    List.Forall₂ (fun q p => q.1 = p.1 ∧ q.2.total = p.2.total ∧ q.2.voters.Perm p.2.voters)
      (toSupports (supportsToStakedAssignment supports)) supports := by
  have hsupport : ∀ p ∈ supports, (toSupportMap (supportsToStakedAssignment supports))[p.1]? =
      some ⟨p.2.total, votersOf (supportsToStakedAssignment supports) p.1⟩ := by
    intro p hp
    have hperm := votersOf_supportsToStakedAssignment_perm hsorted hp
    have hsum := (hperm.map (·.2)).sum_eq
    rw [toSupportMap_getElem?, if_neg fun h => hne p hp (List.Perm.eq_nil (by rw [← h]; exact hperm.symm)), hsum,
      ← (htotal p hp).1, Nat.min_eq_left (htotal p hp).2]
  have hlist : toSupports (supportsToStakedAssignment supports) =
      supports.map fun p => (p.1, ⟨p.2.total, votersOf (supportsToStakedAssignment supports) p.1⟩) := by
    refine toList_eq_of_pairwise (List.pairwise_map.mpr hsorted) fun t sup => ⟨?_, fun h => ?_⟩
    · intro hmem
      obtain ⟨p, hp, hpt⟩ := List.mem_map.mp hmem
      cases hpt
      exact hsupport p hp
    · by_cases ht : ∃ p ∈ supports, p.1 = t
      · obtain ⟨p, hp, rfl⟩ := ht
        rw [hsupport p hp, Option.some.injEq] at h
        exact List.mem_map.mpr ⟨p, hp, by rw [h]⟩
      · push Not at ht
        rw [toSupportMap_getElem?, if_pos (votersOf_supportsToStakedAssignment_of_forall_ne ht)] at h
        cases h
  rw [hlist, List.forall₂_map_left_iff, List.forall₂_same]
  exact fun p hp => ⟨rfl, rfl, votersOf_supportsToStakedAssignment_perm hsorted hp⟩

end Supports

/-- `to_supports` and `supports_to_staked_assignment` undo each other: assignments with distinct
voters and non-empty distributions to distinct targets up to sorting, and supports sorted by
target, each with voters and its exact `u128` total, up to the order of each voter list. -/
theorem supports_assignments_round_trip :
    (∀ assignments : List (StakedAssignment A), (assignments.map (·.who)).Nodup →
      (∀ a ∈ assignments, a.distribution ≠ [] ∧ (a.distribution.map (·.1)).Nodup) →
        supportsToStakedAssignment (toSupports assignments) =
          (assignments.map fun a => ⟨a.who, a.distribution.mergeSort fun e f => e.1 ≤ f.1⟩).mergeSort
            fun a b => a.who ≤ b.who) ∧
    ∀ supports : List (A × Support A), supports.Pairwise (fun p q => p.1 < q.1) →
      (∀ p ∈ supports, p.2.voters ≠ [] ∧ p.2.total = (p.2.voters.map (·.2)).sum ∧
        p.2.total ≤ extendedBalanceMax) →
        List.Forall₂ (fun q p => q.1 = p.1 ∧ q.2.total = p.2.total ∧ q.2.voters.Perm p.2.voters)
          (toSupports (supportsToStakedAssignment supports)) supports := by
  refine ⟨fun assignments hwho h => ?_, fun supports hsorted h => ?_⟩
  · exact supportsToStakedAssignment_toSupports hwho (fun a ha => (h a ha).1) fun a ha => (h a ha).2
  · exact toSupports_supportsToStakedAssignment hsorted (fun p hp => (h p hp).1) fun p hp => (h p hp).2

theorem supports_assignments_round_trip_two_voters :
    (([2, 1].Nodup ∧ ∀ a ∈ [(⟨2, [(5, 10), (4, 20)]⟩ : StakedAssignment ℕ), ⟨1, [(4, 30)]⟩],
        a.distribution ≠ [] ∧ (a.distribution.map (·.1)).Nodup) ∧
      supportsToStakedAssignment (toSupports [(⟨2, [(5, 10), (4, 20)]⟩ : StakedAssignment ℕ), ⟨1, [(4, 30)]⟩]) =
        ([(⟨2, [(5, 10), (4, 20)]⟩ : StakedAssignment ℕ), ⟨1, [(4, 30)]⟩].map fun a =>
          ⟨a.who, a.distribution.mergeSort fun e f => e.1 ≤ f.1⟩).mergeSort fun a b => a.who ≤ b.who) ∧
    ((([((4 : ℕ), (⟨50, [(2, 20), (1, 30)]⟩ : Support ℕ)), (5, ⟨10, [(2, 10)]⟩)].Pairwise fun p q => p.1 < q.1) ∧
        ∀ p ∈ [((4 : ℕ), (⟨50, [(2, 20), (1, 30)]⟩ : Support ℕ)), (5, ⟨10, [(2, 10)]⟩)],
          p.2.voters ≠ [] ∧ p.2.total = (p.2.voters.map (·.2)).sum ∧ p.2.total ≤ extendedBalanceMax) ∧
      List.Forall₂ (fun q p => q.1 = p.1 ∧ q.2.total = p.2.total ∧ q.2.voters.Perm p.2.voters)
        (toSupports (supportsToStakedAssignment
          [((4 : ℕ), (⟨50, [(2, 20), (1, 30)]⟩ : Support ℕ)), (5, ⟨10, [(2, 10)]⟩)]))
        [((4 : ℕ), (⟨50, [(2, 20), (1, 30)]⟩ : Support ℕ)), (5, ⟨10, [(2, 10)]⟩)]) :=
  ⟨⟨⟨by decide, by decide⟩, supports_assignments_round_trip.1 _ (by decide) (by decide)⟩,
    ⟨⟨by decide, by decide⟩, supports_assignments_round_trip.2 _ (by decide) (by decide)⟩⟩

/-- A support without voters is lost on the way back, and supports out of target order come
back in target order. -/
theorem supports_round_trip_drops_empty_and_unsorted :
    toSupports (supportsToStakedAssignment [((1 : ℕ), (⟨0, []⟩ : Support ℕ))]) = [] ∧
      toSupports (supportsToStakedAssignment [((2 : ℕ), (⟨1, [(7, 1)]⟩ : Support ℕ)), (1, ⟨1, [(7, 1)]⟩)]) =
        [(1, ⟨1, [(7, 1)]⟩), (2, ⟨1, [(7, 1)]⟩)] := by
  decide

end PolkadotSdk.Npos
