import PolkadotSdk.NposElection

/-!
# Checking a solution for PJR

`sp_npos_elections::pjr`: `prepare_pjr_input` rebuilds the election graph from the winners'
supports, all candidates and all voters; `pjr_check_core` takes the unelected candidate with the
largest pre-score and fails with it when that score reaches the threshold `t`, and
`validate_pjr_challenge_core` scores the first candidate with the challenged id, whether it is
elected or not. The numbers are `ExtendedBalance`, that is `u128`; a `VoteWeight` budget fits.
-/

namespace PolkadotSdk.Npos

open PerThings

variable {A : Type}

/-- `Support`: a winner's total backing and the stake each of its voters gives it. -/
structure Support (A : Type) where
  total : ℕ
  voters : List (A × ℕ)
  deriving DecidableEq, Repr

section Prepare

variable [DecidableEq A]

/-- `SupportMap::get` on the map collected from the supports: of a repeated winner, the last. -/
def supportOf (supports : List (A × Support A)) (who : A) : Option (Support A) :=
  supports.foldl (fun acc p => if p.1 = who then some p.2 else acc) none

/-- `assignment_map.get(&v)`: the winners voter `v` backs and the stakes, in the supports' order. -/
def assignmentsOf (supports : List (A × Support A)) (v : A) : List (A × ℕ) :=
  supports.flatMap fun p => (p.2.voters.filter (·.1 = v)).map fun q => (p.1, q.2)

/-- The weight of voter `v`'s edge to `t`: its first assignment to `t`, or zero. -/
def assignedWeight (supports : List (A × Support A)) (v t : A) : ℕ :=
  (((assignmentsOf supports v).find? (·.1 = t)).map (·.2)).getD 0

/-- The candidates of `prepare_pjr_input`: a winner is elected and backed by its support's total. -/
def pjrCandidates (supports : List (A × Support A)) (allCandidates : List A) : List (Candidate A) :=
  allCandidates.map fun who =>
    -- `score`, `approval_stake` and `round` are `Default::default()`
    ⟨who, ⟨0, 0⟩, 0, ((supportOf supports who).map (·.total)).getD 0, (supportOf supports who).isSome, 0⟩

/-- One target of a voter in `prepare_pjr_input`: a repeated target and a target that is not a
candidate are dropped, and a kept edge carries the voter's assigned stake on it. -/
def addPjrEdge (allCandidates : List A) (weightOf : A → ℕ) (edges : List (Edge A)) (t : A) : List (Edge A) :=
  if edges.any (·.who = t) then edges
  else
    match candidateIndex allCandidates t with
    | none => edges
    | some idx => edges ++ [⟨t, ⟨0, 0⟩, idx, weightOf t⟩]

/-- The voters of `prepare_pjr_input`, one for each of `all_voters`. -/
def pjrVoters (supports : List (A × Support A)) (allCandidates : List A) (allVoters : List (A × ℕ × List A)) :
    List (Voter A) :=
  allVoters.map fun v => ⟨v.1, v.2.2.foldl (addPjrEdge allCandidates (assignedWeight supports v.1)) [], v.2.1, ⟨0, 0⟩⟩

/-- `prepare_pjr_input`. -/
def preparePjrInput (supports : List (A × Support A)) (allCandidates : List A) (allVoters : List (A × ℕ × List A)) :
    List (Candidate A) × List (Voter A) :=
  (pjrCandidates supports allCandidates, pjrVoters supports allCandidates allVoters)

end Prepare

/-! ## Scores -/

/-- `Perbill`. -/
abbrev Perbill := PerThing (10 ^ 9)

/-- `Ord::min` of two per-things. -/
def PerThing.minOf {acc : ℕ} (p q : PerThing acc) : PerThing acc := if p.parts ≤ q.parts then p else q

/-- `slack`: the voter's budget less what its elected edges keep when each winner's backing is
brought down to `t`. -/
def slack (cands : List (Candidate A)) (t : ℕ) (v : Voter A) : ℕ :=
  let leftover := v.edges.foldl (fun acc e =>
    if isElected cands e.candidate then
      let extra := (PerThing.minOf (PerThing.one : Perbill) (PerThing.fromRational 128 t (backedOf cands e.candidate))).mul
        e.weight
      saturatingAdd acc extra
    else acc) 0
  v.budget - leftover

/-- `standard_threshold`: the stakes summed, saturating, over the committee size. -/
def standardThreshold (committeeSize : ℕ) (weights : List ℕ) : ℕ :=
  weights.foldl saturatingAdd 0 / max committeeSize 1

section Check

variable [DecidableEq A]

/-- `Voter::votes_for`. -/
def Voter.votesFor (v : Voter A) (target : A) : Bool := v.edges.any (·.who = target)

/-- `pre_score`: the slack of the voters of the candidate, summed. Only the candidate's id is read;
the source's `debug_assert!` that it is unelected is not a check of a release build. -/
def preScore (cands : List (Candidate A)) (unelected : Candidate A) (voters : List (Voter A)) (t : ℕ) : ℕ :=
  (voters.filter (·.votesFor unelected.who)).foldl (fun acc v => saturatingAdd acc (slack cands t v)) 0

/-- `validate_pjr_challenge_core`: the first candidate with the challenged id, scored. -/
def validatePjrChallengeCore (counterExample : A) (cands : List (Candidate A)) (voters : List (Voter A))
    (threshold : ℕ) : Bool :=
  match cands.find? (·.who = counterExample) with
  | none => false
  | some candidate => decide (threshold ≤ preScore cands candidate voters threshold)

/-- `validate_t_pjr_challenge`. -/
def validateTPjrChallenge (counterExample : A) (supports : List (A × Support A)) (allCandidates : List A)
    (allVoters : List (A × ℕ × List A)) (threshold : ℕ) : Bool :=
  let input := preparePjrInput supports allCandidates allVoters
  validatePjrChallengeCore counterExample input.1 input.2 threshold

/-- `validate_pjr_challenge`: `validate_t_pjr_challenge` at the standard threshold. -/
def validatePjrChallenge (counterExample : A) (supports : List (A × Support A)) (allCandidates : List A)
    (allVoters : List (A × ℕ × List A)) : Bool :=
  validateTPjrChallenge counterExample supports allCandidates allVoters
    (standardThreshold supports.length (allVoters.map (·.2.1)))

end Check

section Order

variable [LinearOrder A]

/-- One step of `Iterator::max` over `(score, id)` pairs, ordered by score and then by id: of equal
maxima, the later. -/
def maxStep (acc : Option (ℕ × A)) (x : ℕ × A) : Option (ℕ × A) :=
  match acc with
  | none => some x
  | some m => if m.1 < x.1 ∨ (m.1 = x.1 ∧ m.2 ≤ x.2) then some x else some m

/-- `Iterator::max` over `(score, id)` pairs. -/
def maxScored (l : List (ℕ × A)) : Option (ℕ × A) := l.foldl maxStep none

/-- `pjr_check_core`: the unelected candidate of the largest pre-score is a counterexample when its
score reaches `t`. -/
def pjrCheckCore (cands : List (Candidate A)) (voters : List (Voter A)) (t : ℕ) : Except A Unit :=
  match maxScored ((cands.filter (!·.elected)).map fun c => (preScore cands c voters t, c.who)) with
  | some (maxPreScore, counterExample) => if t ≤ maxPreScore then .error counterExample else .ok ()
  | none => .ok ()

/-- `t_pjr_check`. -/
def tPjrCheck (supports : List (A × Support A)) (allCandidates : List A)
    (allVoters : List (A × ℕ × List A)) (t : ℕ) : Except A Unit :=
  let input := preparePjrInput supports allCandidates allVoters
  pjrCheckCore input.1 input.2 t

/-- `pjr_check`: `t_pjr_check` at the standard threshold. -/
def pjrCheck (supports : List (A × Support A)) (allCandidates : List A)
    (allVoters : List (A × ℕ × List A)) : Except A Unit :=
  tPjrCheck supports allCandidates allVoters (standardThreshold supports.length (allVoters.map (·.2.1)))

end Order

/-! ## What the checker and the validator agree on -/

section Agreement

variable [LinearOrder A]

/-- A step of the maximum keeps the new pair or the old maximum, whichever is larger. -/
theorem maxStep_spec (acc : Option (ℕ × A)) (x : ℕ × A) :
    ∃ b, maxStep acc x = some b ∧ (b = x ∨ acc = some b) ∧ x.1 ≤ b.1 ∧ ∀ a, acc = some a → a.1 ≤ b.1 := by
  cases acc with
  | none => exact ⟨x, rfl, .inl rfl, le_rfl, fun _ h => by cases h⟩
  | some m =>
    by_cases h : m.1 < x.1 ∨ (m.1 = x.1 ∧ m.2 ≤ x.2)
    · refine ⟨x, by simp only [maxStep, if_pos h], .inl rfl, le_rfl, fun a ha => ?_⟩
      cases ha
      rcases h with h | ⟨h, -⟩ <;> omega
    · exact ⟨m, by simp only [maxStep, if_neg h], .inr rfl, Nat.le_of_not_lt fun hlt => h (.inl hlt),
        fun a ha => by cases ha; exact le_rfl⟩

/-- The maximum is one of the pairs, or the running maximum it started from, and no score exceeds it. -/
theorem foldl_maxStep_spec (l : List (ℕ × A)) (acc : Option (ℕ × A)) {m : ℕ × A}
    (h : l.foldl maxStep acc = some m) :
    (m ∈ l ∨ acc = some m) ∧ (∀ x ∈ l, x.1 ≤ m.1) ∧ ∀ a, acc = some a → a.1 ≤ m.1 := by
  induction l generalizing acc with
  | nil =>
    rw [List.foldl_nil] at h
    refine ⟨.inr h, fun _ hx => absurd hx List.not_mem_nil, fun a ha => ?_⟩
    rw [ha] at h
    cases h
    exact le_rfl
  | cons x l ih =>
    obtain ⟨b, hb, hbx, hxb, hab⟩ := maxStep_spec acc x
    rw [List.foldl_cons, hb] at h
    obtain ⟨hm, hle, hbm⟩ := ih (some b) h
    have hbm' := hbm b rfl
    refine ⟨?_, ?_, fun a ha => le_trans (hab a ha) hbm'⟩
    · rcases hm with hm | hm
      · exact .inl (List.mem_cons_of_mem _ hm)
      · cases hm
        rcases hbx with rfl | hacc
        · exact .inl List.mem_cons_self
        · exact .inr hacc
    · intro y hy
      rcases List.mem_cons.mp hy with rfl | hy
      · exact le_trans hxb hbm'
      · exact hle y hy

theorem foldl_maxStep_isSome (l : List (ℕ × A)) {acc : Option (ℕ × A)} (h : acc.isSome) :
    (l.foldl maxStep acc).isSome := by
  induction l generalizing acc with
  | nil => exact h
  | cons x l ih =>
    obtain ⟨b, hb, -⟩ := maxStep_spec acc x
    rw [List.foldl_cons, hb]
    exact ih rfl

theorem maxScored_mem {l : List (ℕ × A)} {m : ℕ × A} (h : maxScored l = some m) : m ∈ l :=
  (foldl_maxStep_spec l none h).1.resolve_right fun h' => by cases h'

/-- A list with a pair in it has a maximum, and the pair's score is at most the maximum's. -/
theorem maxScored_of_mem {l : List (ℕ × A)} {x : ℕ × A} (hx : x ∈ l) : ∃ m, maxScored l = some m ∧ x.1 ≤ m.1 := by
  have hsome : (maxScored l).isSome := by
    cases l with
    | nil => cases hx
    | cons y l => exact @foldl_maxStep_isSome _ _ l (some y) rfl
  obtain ⟨m, hm⟩ := Option.isSome_iff_exists.mp hsome
  exact ⟨m, hm, (foldl_maxStep_spec l none hm).2.1 x hx⟩

/-- The counterexample the check returns is a valid challenge: the validator finds a candidate with its
id, and the pre-score reads only the id. -/
theorem validate_of_pjrCheckCore_error {cands : List (Candidate A)} {voters : List (Voter A)} {t : ℕ} {c : A}
    (h : pjrCheckCore cands voters t = .error c) : validatePjrChallengeCore c cands voters t = true := by
  unfold pjrCheckCore at h
  split at h
  · rename_i s c' hmax
    split_ifs at h with ht
    cases h
    obtain ⟨X, hX, hXeq⟩ := List.mem_map.mp (maxScored_mem hmax)
    simp only [Prod.mk.injEq] at hXeq
    obtain ⟨hs, hw⟩ := hXeq
    have hfind : (cands.find? (·.who = c)).isSome :=
      List.find?_isSome.mpr ⟨X, (List.mem_filter.mp hX).1, by simp [hw]⟩
    obtain ⟨Y, hY⟩ := Option.isSome_iff_exists.mp hfind
    have hYwho : Y.who = c := by simpa using List.find?_some hY
    have hscore : preScore cands Y voters t = s := by
      rw [← hs]
      unfold preScore
      rw [hYwho, hw]
    unfold validatePjrChallengeCore
    rw [hY]
    simp [hscore, ht]
  · cases h

/-- When the check passes, no challenge naming an unelected candidate is valid: that candidate is
scored by the check, at most the maximum, which stays below `t`. -/
theorem validate_of_pjrCheckCore_ok {cands : List (Candidate A)} {voters : List (Voter A)} {t : ℕ}
    (h : pjrCheckCore cands voters t = .ok ()) {c : A} (hun : ∀ Y ∈ cands, Y.who = c → Y.elected = false) :
    validatePjrChallengeCore c cands voters t = false := by
  unfold validatePjrChallengeCore
  split
  · rfl
  · rename_i Y hY
    have hYmem := List.mem_of_find?_eq_some hY
    have hYun := hun Y hYmem (by simpa using List.find?_some hY)
    have hscored : (preScore cands Y voters t, Y.who) ∈
        (cands.filter (!·.elected)).map fun c => (preScore cands c voters t, c.who) :=
      List.mem_map_of_mem (List.mem_filter.mpr ⟨hYmem, by simp [hYun]⟩)
    obtain ⟨⟨s, w⟩, hm, hle⟩ := maxScored_of_mem hscored
    unfold pjrCheckCore at h
    rw [hm] at h
    dsimp only at h
    split_ifs at h with ht
    simp only [decide_eq_false_iff_not]
    dsimp only at hle
    omega

theorem elected_of_mem_pjrCandidates {supports : List (A × Support A)} {allCandidates : List A}
    {Y : Candidate A} (hY : Y ∈ pjrCandidates supports allCandidates) :
    Y.elected = (supportOf supports Y.who).isSome := by
  obtain ⟨who, -, rfl⟩ := List.mem_map.mp hY
  rfl

end Agreement

theorem pjr_challenge_accepts_winner :
    (∀ {A : Type} [LinearOrder A] (supports : List (A × Support A)) (allCandidates : List A)
        (allVoters : List (A × ℕ × List A)) (t : ℕ) (c : A),
      tPjrCheck supports allCandidates allVoters t = .error c →
        validateTPjrChallenge c supports allCandidates allVoters t = true) ∧
    (∀ {A : Type} [LinearOrder A] (supports : List (A × Support A)) (allCandidates : List A)
        (allVoters : List (A × ℕ × List A)) (t : ℕ) (c : A),
      tPjrCheck supports allCandidates allVoters t = .ok () → supportOf supports c = none →
        validateTPjrChallenge c supports allCandidates allVoters t = false) ∧
    tPjrCheck [(1, (⟨100, [(10, 100)]⟩ : Support ℕ))] [1] [(10, 100, [1])] 10 = .ok () ∧
      validateTPjrChallenge 1 [(1, (⟨100, [(10, 100)]⟩ : Support ℕ))] [1] [(10, 100, [1])] 10 = true := by
  refine ⟨fun _ _ _ _ _ h => validate_of_pjrCheckCore_error h,
    fun supports _ _ _ _ h hc => validate_of_pjrCheckCore_ok h fun Y hY hw => ?_, by decide, by decide⟩
  -- a candidate that is not a winner is unelected
  rw [elected_of_mem_pjrCandidates hY, hw, hc]
  rfl

theorem pjr_challenge_accepts_winner_loser :
    tPjrCheck [(1, (⟨100, [(10, 100)]⟩ : Support ℕ))] [1, 2] [(10, 100, [1, 2])] 10 = .error 2 ∧
      validateTPjrChallenge 2 [(1, (⟨100, [(10, 100)]⟩ : Support ℕ))] [1, 2] [(10, 100, [1, 2])] 10 = true ∧
      validateTPjrChallenge 5 [(1, (⟨100, [(10, 100)]⟩ : Support ℕ))] [1] [(10, 100, [1])] 10 = false := by
  have herr : tPjrCheck [(1, (⟨100, [(10, 100)]⟩ : Support ℕ))] [1, 2] [(10, 100, [1, 2])] 10 = .error 2 := by
    decide
  have hok : tPjrCheck [(1, (⟨100, [(10, 100)]⟩ : Support ℕ))] [1] [(10, 100, [1])] 10 = .ok () := by
    decide
  exact ⟨herr, pjr_challenge_accepts_winner.1 _ _ _ _ _ herr,
    pjr_challenge_accepts_winner.2.1 _ _ _ _ 5 hok (by decide)⟩

end PolkadotSdk.Npos
