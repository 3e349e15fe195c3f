import PolkadotSdk.BagsListIter

/-!
# The bags list's operations against its invariant

Naming the last bag `scoreMax` among the thresholds changes neither the bags nor where a
score lies (`Repr.append_scoreMax`). A migration from thresholds that name it to the same
thresholds without it deletes that bag, which is still the bag of every score above the
remaining thresholds: no state it leaves can hold a node of that bag where its score places
it.
-/

namespace PolkadotSdk.BagsList

/-- Naming `scoreMax` last adds no bag: it is the implicit last bag. -/
theorem effectiveThresholds_append_scoreMax {T : List ℕ} (hT : scoreMax ∉ T) :
    effectiveThresholds (T ++ [scoreMax]) = effectiveThresholds T := by
  have hlast : T.getLast? ≠ some scoreMax := fun hl => hT (List.mem_of_getLast? hl)
  simp [effectiveThresholds, hlast]

/-- Naming `scoreMax` last moves no score: a score above every other threshold goes to
`scoreMax` either way. -/
theorem notionalBagFor_append_scoreMax {T : List ℕ} {score : ℕ} (hscore : score ≤ scoreMax) :
    notionalBagFor (T ++ [scoreMax]) score = notionalBagFor T score := by
  rw [notionalBagFor_eq, notionalBagFor_eq, List.dropWhile_append]
  cases hd : T.dropWhile (fun t => decide (t < score)) with
  | nil => simp [not_lt.mpr hscore]
  | cons d D => simp

section Repr

variable {A : Type} [DecidableEq A] {T : List ℕ} {s : State A} {content : ℕ → List (Node A)}

/-- A state that keeps the invariant for thresholds without `scoreMax` keeps it for the
same thresholds with `scoreMax` named last. -/
theorem Repr.append_scoreMax (h : Repr T s content) (hT : scoreMax ∉ T) :
    Repr (T ++ [scoreMax]) s content where
  sorted := by
    refine List.pairwise_append.mpr ⟨h.sorted, List.pairwise_singleton _ _, ?_⟩
    intro t ht u hu
    rw [List.mem_singleton.mp hu]
    exact lt_of_le_of_ne (h.bounded t ht) fun e => hT (e ▸ ht)
  bounded := by
    intro t ht
    rcases List.mem_append.mp ht with ht | ht
    · exact h.bounded t ht
    · exact le_of_eq (List.mem_singleton.mp ht)
  linked := h.linked
  absent := h.absent
  bagUpper_eq := h.bagUpper_eq
  placed := by
    intro u x hx
    obtain ⟨hle, hbag⟩ := h.placed u x hx
    exact ⟨hle, by rw [notionalBagFor_append_scoreMax hle, hbag]⟩
  nodup := by
    rw [effectiveThresholds_append_scoreMax hT]
    exact h.nodup
  complete := h.complete

/-- Every threshold below the named last bag is below the score of a node in that bag. -/
theorem Repr.lt_score_of_mem_last (h : Repr (T ++ [scoreMax]) s content) {x : Node A}
    (hx : x ∈ content scoreMax) : ∀ t ∈ T, t < x.score := by
  intro t ht
  have hts : t < scoreMax := (List.pairwise_append.mp h.sorted).2.2 t ht scoreMax List.mem_cons_self
  have hbag : notionalBagFor (T ++ [scoreMax]) x.score = scoreMax := (h.placed scoreMax x hx).2
  rw [← hbag] at hts
  exact lt_of_lt_notionalBagFor h.sorted h.bounded (mem_effectiveThresholds.mpr (Or.inl (List.mem_append_left _ ht)))
    hts

end Repr

section Migrate

variable {A : Type} [LinearOrder A]

/-- Migrating from thresholds that name the last bag to the same thresholds without it
cannot restore the invariant with a node of that bag in the bag of its score: the migration
deletes the bag `scoreMax`, and the score of such a node, above every remaining threshold,
still belongs to it. -/
theorem migrate_unnamed_last_bag_breaks_repr (T : List ℕ) (hT : scoreMax ∉ T) (s : State A)
    (content : ℕ → List (Node A)) (hrepr : Repr (T ++ [scoreMax]) s content) (scoreOf : A → Option ℕ)
    {x : Node A} (hx : x ∈ content scoreMax) :
    ¬ ∃ content', Repr T (migrate T s (T ++ [scoreMax]) scoreOf).1 content' ∧
        ∃ y ∈ content' (notionalBagFor T x.score), y.id = x.id := by
  rintro ⟨content', hrepr', y, hy, -⟩
  have hbag : notionalBagFor T x.score = scoreMax := notionalBagFor_of_forall_lt (hrepr.lt_score_of_mem_last hx)
  have hgone : (migrate T s (T ++ [scoreMax]) scoreOf).1.getBag scoreMax = none :=
    migrate_getBag_removed T s (T ++ [scoreMax]) scoreOf (by simp) (by simp) hT
  rw [hbag, hrepr'.absent scoreMax hgone] at hy
  cases hy

/-- The scores `threeNodes` stores. -/
def threeNodesScore (id : ℕ) : Option ℕ :=
  if id = 1 then some 100 else if id = 2 then some 5 else some 7

theorem migrate_unnamed_last_bag_breaks_repr_threeNodes :
    ¬ ∃ content', Repr [10] (migrate [10] threeNodes ([10] ++ [scoreMax]) threeNodesScore).1 content' ∧
        ∃ y ∈ content' (notionalBagFor [10] 100), y.id = 1 :=
  migrate_unnamed_last_bag_breaks_repr [10] (by decide) threeNodes threeNodesContent
    (threeNodes_repr.append_scoreMax (by decide)) threeNodesScore
    (x := ⟨1, none, none, scoreMax, 100⟩) (by simp [threeNodesContent, scoreMax_ne_ten])

end Migrate

end PolkadotSdk.BagsList
