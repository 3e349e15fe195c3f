import PolkadotSdk.NposBalancing

/-!
# Sequential Phragmén

`sp_npos_elections::phragmen`: each round gives every unelected candidate the score
`(1 + Σ stake * load) / approval_stake` over its voters and elects the one with the smallest;
the voters of the winner take its score as their load. At the end each voter's stake is split
over its elected candidates in proportion to the load each edge carries, the zero edges are
dropped and the voter is normalized. Scores and loads are `Rational128` with the lazy
arithmetic of the source.
-/

namespace PolkadotSdk.Npos

open PerThings Normalize

variable {A : Type} [DecidableEq A]

/-- `DEN`, the denominator of the loads. -/
def den : ℕ := extendedBalanceMax

/-- Loop 1: the score of every unelected candidate starts at `1 / approval_stake`, and at the
largest value when no stake approves it. -/
def initScores (cands : List (Candidate A)) : List (Candidate A) :=
  cands.map fun c =>
    if c.elected then c
    else { c with score := if c.approvalStake = 0 then Rational128.maxValue
      else Rational128.fromRaw (den / c.approvalStake) den }

/-- Loop 2 at one edge: the voter's load, scaled by its stake over the approval stake, is added
to the score of an unelected candidate with approval. -/
def addLoad (v : Voter A) (cands : List (Candidate A)) (e : Edge A) : List (Candidate A) :=
  match cands[e.candidate]? with
  | none => cands
  | some c =>
    if !c.elected ∧ c.approvalStake ≠ 0 then
      let tempN := (multiplyRational 128 v.load.n v.budget c.approvalStake .down).getD extendedBalanceMax
      cands.set e.candidate { c with score := c.score.lazySaturatingAdd (Rational128.fromRaw tempN v.load.d) }
    else cands

/-- Loop 3: the first unelected candidate of smallest score. -/
def findWinner (cands : List (Candidate A)) : Option ℕ :=
  (List.range cands.length).foldl (fun best i =>
    match cands[i]? with
    | none => best
    | some c =>
      if c.elected then best
      else
        match best.bind (cands[·]?) with
        | none => some i
        | some b => if c.score.cmp b.score = .lt then some i else best) none

/-- The load update of the winner's voters: the edge keeps what the winner's score adds to the
voter's load, and the voter's load becomes the score. -/
def takeLoad (winner : Candidate A) (v : Voter A) : Voter A :=
  let r := v.edges.foldl (fun acc e =>
    if e.who = winner.who then (acc.1 ++ [{ e with load := winner.score.lazySaturatingSub acc.2 }], winner.score)
    else (acc.1 ++ [e], acc.2)) ([], v.load)
  { v with edges := r.1, load := r.2 }

/-- The main election loop of `seq_phragmen_core` from `round`. -/
def phragmenRounds : ℕ → ℕ → List (Candidate A) × List (Voter A) → List (Candidate A) × List (Voter A)
  | 0, _, s => s
  | rounds + 1, round, s =>
    let cands := s.2.foldl (fun cands v => v.edges.foldl (addLoad v) cands) (initScores s.1)
    match findWinner cands with
    | none => (cands, s.2)
    | some w =>
      match cands[w]? with
      | none => (cands, s.2)
      | some winner =>
        let winner := { winner with elected := true, round := round }
        phragmenRounds rounds (round + 1) (cands.set w winner, s.2.map (takeLoad winner))

/-- The weight the final update of `seq_phragmen_core` gives an edge: the part of the budget its
load is of the voter's load when its candidate is elected, and nothing otherwise. -/
def finalWeight (cands : List (Candidate A)) (v : Voter A) (e : Edge A) : ℕ :=
  if isElected cands e.candidate then
    (multiplyRational 128 v.budget e.load.n v.load.n .down).getD extendedBalanceMax
  else 0

/-- The final update of `seq_phragmen_core` for one voter: every candidate's backed stake gains
its edges' weights, the zero edges are dropped and the voter is normalized. -/
def finalizeVoter (cands : List (Candidate A)) (v : Voter A) :
    Except ElectionError (List (Candidate A) × Voter A) :=
  let r := v.edges.foldl (fun acc e =>
    let w := finalWeight acc.1 v e
    (setBacked acc.1 e.candidate (saturatingAdd (backedOf acc.1 e.candidate) w), acc.2 ++ [{ e with weight := w }]))
    (cands, [])
  match ({ v with edges := r.2.filter fun e => 0 < e.weight } : Voter A).tryNormalizeElected r.1 with
  | .ok s => .ok s
  | .error _ => .error .arithmeticError

/-- `seq_phragmen_core`: the rounds, then the final update voter by voter, stopping at the first
voter whose normalization fails. -/
def seqPhragmenCore (toElect : ℕ) (cands : List (Candidate A)) (voters : List (Voter A)) :
    Except ElectionError (List (Candidate A) × List (Voter A)) :=
  let s := phragmenRounds (min toElect cands.length) 0 (cands, voters)
  s.2.foldlM (fun acc v => (finalizeVoter acc.1 v).map fun r => (r.1, acc.2 ++ [r.2])) (s.1, [])

/-- `seq_phragmen::<_, P>` for a `PerThing` of `ACCURACY` `acc` whose `UpperOf` has the largest
value `upperMax`; the winners are the elected candidates in the order of their rounds. -/
def seqPhragmen (acc upperMax : ℕ) (toElect : ℕ) (candidates : List A) (voters : List (A × ℕ × List A))
    (balancing : Option BalancingConfig) : Except ElectionError (ElectionResult A acc) := do
  let (cands, vs) := setupInputs candidates voters
  let (cands, vs) ← seqPhragmenCore toElect cands vs
  let (cands, vs) := match balancing with
    | some config => let b := balance config cands vs; (b.1, b.2.1)
    | none => (cands, vs)
  let winners := ((cands.filter (·.elected)).take toElect).insertionSort fun a b => a.round ≤ b.round
  let assignments ← normalizedAssignments acc upperMax vs
  pure ⟨winners.map fun c => (c.who, c.backedStake), assignments⟩

/-! ## The rounds leave the stakes alone -/

omit [DecidableEq A] in
/-- The state `setup_inputs` leaves, which the rounds keep: edges point to candidates and hold
nothing, and no candidate is backed. -/
structure Fresh (cands : List (Candidate A)) (voters : List (Voter A)) : Prop where
  points : ∀ v ∈ voters, ∀ e ∈ v.edges, e.candidate < cands.length
  weightless : ∀ v ∈ voters, ∀ e ∈ v.edges, e.weight = 0
  unbacked : ∀ c < cands.length, backedOf cands c = 0

section Rounds

omit [DecidableEq A]

instance (cands : List (Candidate A)) (voters : List (Voter A)) : Decidable (Fresh cands voters) :=
  decidable_of_iff ((∀ v ∈ voters, ∀ e ∈ v.edges, e.candidate < cands.length) ∧
      (∀ v ∈ voters, ∀ e ∈ v.edges, e.weight = 0) ∧ ∀ c < cands.length, backedOf cands c = 0)
    ⟨fun h => ⟨h.1, h.2.1, h.2.2⟩, fun h => ⟨h.1, h.2, h.3⟩⟩

theorem Fresh.inv {cands : List (Candidate A)} {voters : List (Voter A)} (h : Fresh cands voters) :
    Inv cands voters :=
  ⟨fun c hc => by rw [h.unbacked c hc, edgeSupport_eq_zero fun v hv e he _ => h.weightless v hv e he],
    fun v hv => ⟨h.points v hv, fun e he _ => h.weightless v hv e he,
      by rw [usedIn_eq_zero (h.weightless v hv)]; exact Nat.zero_le _⟩⟩

/-- A change of the candidates that keeps their number and backed stakes keeps a state fresh. -/
theorem Fresh.of_backedOf {cands cands' : List (Candidate A)} {voters : List (Voter A)} (h : Fresh cands voters)
    (hlen : cands'.length = cands.length) (hb : ∀ c, backedOf cands' c = backedOf cands c) : Fresh cands' voters :=
  ⟨fun v hv e he => hlen ▸ h.points v hv e he, h.weightless, fun c hc => (hb c).trans (h.unbacked c (hlen ▸ hc))⟩

theorem backedOf_set_of_getElem? {cands : List (Candidate A)} {i : ℕ} {x y : Candidate A} (hi : cands[i]? = some y)
    (hx : x.backedStake = y.backedStake) (c : ℕ) : backedOf (cands.set i x) c = backedOf cands c := by
  unfold backedOf
  rw [List.getElem?_set]
  split
  · rename_i hic
    subst hic
    rw [if_pos (List.getElem?_eq_some_iff.mp hi).1, hi]
    simp [hx]
  · rfl

theorem backedOf_initScores (cands : List (Candidate A)) (c : ℕ) : backedOf (initScores cands) c = backedOf cands c := by
  unfold backedOf initScores
  rw [List.getElem?_map]
  cases cands[c]? with
  | none => rfl
  | some x =>
    simp only [Option.map_some, Option.getD_some]
    split <;> rfl

theorem addLoad_stake (v : Voter A) (cands : List (Candidate A)) (e : Edge A) :
    (addLoad v cands e).length = cands.length ∧ ∀ c, backedOf (addLoad v cands e) c = backedOf cands c := by
  unfold addLoad
  cases hc : cands[e.candidate]? with
  | none => exact ⟨rfl, fun _ => rfl⟩
  | some x =>
    dsimp only
    split
    · exact ⟨List.length_set, backedOf_set_of_getElem? hc rfl⟩
    · exact ⟨rfl, fun _ => rfl⟩

/-- Loop 2 of the rounds, over every voter's edges, leaves the backed stakes alone. -/
theorem foldl_addLoad_stake (voters : List (Voter A)) (cands : List (Candidate A)) :
    (voters.foldl (fun cands v => v.edges.foldl (addLoad v) cands) cands).length = cands.length ∧
      ∀ c, backedOf (voters.foldl (fun cands v => v.edges.foldl (addLoad v) cands) cands) c = backedOf cands c := by
  have hedges : ∀ (v : Voter A) (es : List (Edge A)) (cands : List (Candidate A)),
      (es.foldl (addLoad v) cands).length = cands.length ∧
        ∀ c, backedOf (es.foldl (addLoad v) cands) c = backedOf cands c := by
    intro v es
    induction es with
    | nil => exact fun _ => ⟨rfl, fun _ => rfl⟩
    | cons e es ih =>
      intro cands
      obtain ⟨h1, h2⟩ := addLoad_stake v cands e
      obtain ⟨h3, h4⟩ := ih (addLoad v cands e)
      exact ⟨h3.trans h1, fun c => (h4 c).trans (h2 c)⟩
  induction voters generalizing cands with
  | nil => exact ⟨rfl, fun _ => rfl⟩
  | cons v voters ih =>
    obtain ⟨h1, h2⟩ := hedges v v.edges cands
    obtain ⟨h3, h4⟩ := ih (v.edges.foldl (addLoad v) cands)
    exact ⟨h3.trans h1, fun c => (h4 c).trans (h2 c)⟩

end Rounds

/-- The load update keeps every edge's candidate and weight. -/
theorem takeLoad_stake (winner : Candidate A) (v : Voter A) :
    (takeLoad winner v).edges.map (fun e => (e.candidate, e.weight)) = v.edges.map fun e => (e.candidate, e.weight) := by
  have hfold : ∀ (es : List (Edge A)) (acc : List (Edge A) × Rational128),
      (es.foldl (fun acc e =>
        if e.who = winner.who then (acc.1 ++ [{ e with load := winner.score.lazySaturatingSub acc.2 }], winner.score)
        else (acc.1 ++ [e], acc.2)) acc).1.map (fun e => (e.candidate, e.weight)) =
        acc.1.map (fun e => (e.candidate, e.weight)) ++ es.map fun e => (e.candidate, e.weight) := by
    intro es
    induction es with
    | nil => intro acc; simp
    | cons e es ih =>
      intro acc
      rw [List.foldl_cons, ih]
      split <;> simp
  simpa [takeLoad] using hfold v.edges ([], v.load)

theorem Fresh.takeLoad {cands : List (Candidate A)} {voters : List (Voter A)} (h : Fresh cands voters)
    (winner : Candidate A) : Fresh cands (voters.map (takeLoad winner)) := by
  -- an edge after the load update is an edge before it, for its candidate and weight
  have hedge : ∀ v ∈ voters, ∀ e ∈ (Npos.takeLoad winner v).edges, ∃ e' ∈ v.edges,
      e'.candidate = e.candidate ∧ e'.weight = e.weight := by
    intro v _ e he
    have hm : (e.candidate, e.weight) ∈ v.edges.map fun e => (e.candidate, e.weight) := by
      rw [← takeLoad_stake winner v]
      exact List.mem_map_of_mem he
    obtain ⟨e', he', heq⟩ := List.mem_map.mp hm
    exact ⟨e', he', (Prod.mk.inj heq).1, (Prod.mk.inj heq).2⟩
  refine ⟨fun v hv e he => ?_, fun v hv e he => ?_, h.unbacked⟩
  · obtain ⟨u, hu, rfl⟩ := List.mem_map.mp hv
    obtain ⟨e', he', hc, -⟩ := hedge u hu e he
    exact hc ▸ h.points u hu e' he'
  · obtain ⟨u, hu, rfl⟩ := List.mem_map.mp hv
    obtain ⟨e', he', -, hw⟩ := hedge u hu e he
    exact hw ▸ h.weightless u hu e' he'

/-- The rounds of `seq_phragmen_core` change scores, loads and elected flags only. -/
theorem Fresh.phragmenRounds (rounds round : ℕ) (s : List (Candidate A) × List (Voter A)) (h : Fresh s.1 s.2) :
    Fresh (Npos.phragmenRounds rounds round s).1 (Npos.phragmenRounds rounds round s).2 := by
  induction rounds generalizing round s with
  | zero => exact h
  | succ rounds ih =>
    obtain ⟨hl, hb⟩ := foldl_addLoad_stake s.2 (initScores s.1)
    have h₁ := h.of_backedOf (hl.trans (List.length_map _)) fun c => (hb c).trans (backedOf_initScores s.1 c)
    rw [Npos.phragmenRounds]
    dsimp only
    generalize s.2.foldl (fun cands v => v.edges.foldl (addLoad v) cands) (initScores s.1) = cands at h₁ ⊢
    split
    · exact h₁
    · split
      · exact h₁
      · rename_i w _ winner hw
        exact ih (round + 1) _ ((h₁.of_backedOf List.length_set
          (backedOf_set_of_getElem? (x := { winner with elected := true, round := round }) hw rfl)).takeLoad _)

/-! ## The final update leaves the invariant -/

section Final

omit [DecidableEq A]

/-- The weights of the final update fit in `u128` with the total budget. -/
def FinalWeightsFit (cands : List (Candidate A)) (voters : List (Voter A)) : Prop :=
  ∀ v ∈ voters, totalBudget voters + (v.edges.map (finalWeight cands v)).sum ≤ extendedBalanceMax

instance (cands : List (Candidate A)) (voters : List (Voter A)) : Decidable (FinalWeightsFit cands voters) :=
  inferInstanceAs (Decidable (∀ v ∈ voters, _))

theorem finalWeight_congr {cands cands' : List (Candidate A)} (h : ∀ c, isElected cands' c = isElected cands c)
    (v : Voter A) (e : Edge A) : finalWeight cands' v e = finalWeight cands v e := by
  unfold finalWeight
  rw [h]

theorem isElected_of_finalWeight_pos {cands : List (Candidate A)} {v : Voter A} {e : Edge A}
    (h : 0 < finalWeight cands v e) : isElected cands e.candidate = true := by
  unfold finalWeight at h
  split at h
  · assumption
  · exact absurd h (Nat.lt_irrefl 0)

/-- The loop of the final update over a voter's edges: each edge gets its weight, and its
candidate's backed stake gains it exactly while the sums fit. -/
theorem finalFold_spec (cands0 : List (Candidate A)) (v : Voter A) {base : ℕ → ℕ} (es : List (Edge A))
    (acc : List (Candidate A) × List (Edge A)) (ht : Tracks base acc.1 acc.2)
    (hel : ∀ c, isElected acc.1 c = isElected cands0 c) (hp : ∀ e ∈ es, e.candidate < acc.1.length)
    (hfit : ∀ c, base c + supportIn acc.2 c + (es.map (finalWeight cands0 v)).sum ≤ extendedBalanceMax) :
    let r := es.foldl (fun acc e =>
      let w := finalWeight acc.1 v e
      (setBacked acc.1 e.candidate (saturatingAdd (backedOf acc.1 e.candidate) w), acc.2 ++ [{ e with weight := w }]))
      acc
    Tracks base r.1 r.2 ∧ r.1.length = acc.1.length ∧ (∀ c, isElected r.1 c = isElected cands0 c) ∧
      r.2 = acc.2 ++ es.map fun e => { e with weight := finalWeight cands0 v e } := by
  induction es generalizing acc with
  | nil => exact ⟨ht, rfl, hel, by simp⟩
  | cons e es ih =>
    have hc := hp e List.mem_cons_self
    have hw : finalWeight acc.1 v e = finalWeight cands0 v e := finalWeight_congr hel v e
    have hf := hfit e.candidate
    rw [List.map_cons, List.sum_cons] at hf
    have hsat : saturatingAdd (backedOf acc.1 e.candidate) (finalWeight cands0 v e) =
        backedOf acc.1 e.candidate + finalWeight cands0 v e :=
      saturatingAdd_of_le (by rw [ht e.candidate hc]; omega)
    have ht₁ := ht.push (e := { e with weight := finalWeight cands0 v e }) hc
    obtain ⟨ht₂, hl₂, he₂, hr₂⟩ := ih (setBacked acc.1 e.candidate (backedOf acc.1 e.candidate + finalWeight cands0 v e),
        acc.2 ++ [{ e with weight := finalWeight cands0 v e }]) ht₁ (fun c => by rw [isElected_setBacked, hel])
      (fun e' he' => by rw [length_setBacked]; exact hp e' (List.mem_cons_of_mem _ he')) fun c => by
        have := hfit c
        rw [List.map_cons, List.sum_cons] at this
        rw [supportIn_append, supportIn_cons, supportIn_nil]
        dsimp only
        split <;> omega
    rw [List.foldl_cons]
    dsimp only
    rw [hw, hsat]
    exact ⟨ht₂, by rw [hl₂, length_setBacked], he₂, by rw [hr₂, List.map_cons, List.append_assoc]; rfl⟩

theorem usedIn_map_weight (es : List (Edge A)) (f : Edge A → ℕ) :
    usedIn (es.map fun e => { e with weight := f e }) = (es.map f).sum := by
  simp [usedIn, Function.comp_def]

/-- The final update of one voter, whose edges hold nothing yet, keeps the invariant. -/
theorem Inv.finalizeVoter {cands : List (Candidate A)} {pre post : List (Voter A)} {v : Voter A}
    (h : Inv cands (pre ++ v :: post)) (hv0 : ∀ e ∈ v.edges, e.weight = 0)
    (hfit : totalBudget (pre ++ v :: post) + (v.edges.map (finalWeight cands v)).sum ≤ extendedBalanceMax)
    {r : List (Candidate A) × Voter A} (hok : Npos.finalizeVoter cands v = .ok r) :
    Inv r.1 (pre ++ r.2 :: post) ∧ (∀ c, isElected r.1 c = isElected cands c) ∧ r.2.budget = v.budget := by
  have hvi := h.voter v (List.mem_append_right _ List.mem_cons_self)
  have hbase := h.base_le
  rw [totalBudget_append, totalBudget_cons] at hfit
  rw [totalBudget_append] at hbase
  -- before the loop the voter's edges hold nothing, so the others alone back every candidate
  have ht0 : Tracks (edgeSupport (pre ++ post)) cands [] := by
    intro c hc
    rw [h.tracks c hc, supportIn_eq_zero fun e he _ => hv0 e he]
    rfl
  obtain ⟨ht, hlen, hel, hes⟩ := finalFold_spec cands v v.edges (cands, []) ht0 (fun _ => rfl) hvi.points
    fun c => by
      have := hbase c
      simp only [supportIn_nil, Nat.add_zero]
      omega
  unfold Npos.finalizeVoter at hok
  dsimp only at hok
  generalize v.edges.foldl (fun acc e =>
      let w := finalWeight acc.1 v e
      (setBacked acc.1 e.candidate (saturatingAdd (backedOf acc.1 e.candidate) w), acc.2 ++ [{ e with weight := w }]))
      (cands, []) = r0 at ht hlen hel hes hok
  dsimp only at hlen hes
  rw [List.nil_append] at hes
  split at hok
  · rename_i s hs
    cases hok
    -- the weighted edges that are kept all point to elected candidates
    generalize hf : (r0.2.filter fun e => 0 < e.weight) = es at hs
    have hkept : ∀ e ∈ es, isElected r0.1 e.candidate = true := by
      intro e he
      rw [← hf, hes] at he
      obtain ⟨he, hpos⟩ := List.mem_filter.mp he
      obtain ⟨e0, -, rfl⟩ := List.mem_map.mp he
      rw [hel]
      exact isElected_of_finalWeight_pos (e := e0) (by simpa using hpos)
    have hused : usedIn es ≤ (v.edges.map (finalWeight cands v)).sum := by
      rw [← hf, hes, ← usedIn_map_weight]
      exact usedIn_filter_le _ _
    have hpoints : ∀ e ∈ es, e.candidate < r0.1.length := by
      intro e he
      rw [← hf, hes] at he
      obtain ⟨e0, he0, rfl⟩ := List.mem_map.mp (List.mem_filter.mp he).1
      rw [hlen]
      exact hvi.points e0 he0
    have htf : Tracks (edgeSupport (pre ++ post)) r0.1 es := by
      intro c hc
      rw [ht c hc, ← hf, supportIn_filter_pos]
    obtain ⟨ws, hn, rfl⟩ := tryNormalizeWith_eq_ok hs
    obtain ⟨hwlen, hws⟩ := normalize_weights hn
    have hws' : ws.sum ≤ v.budget := hws
    have htr := reweight_tracks (isElected r0.1) es ws r0.1 _ htf hpoints fun c => by
      have := hbase c
      have := supportIn_le_usedIn es c
      omega
    have hnone : es.filter (fun e => !isElected r0.1 e.candidate) = [] :=
      List.filter_eq_nil_iff.mpr fun e he => by simp [hkept e he]
    refine ⟨h.replace (by rw [length_reweight, hlen]) (fun c => by rw [isElected_reweight, hel]) htr
      ⟨fun e he => ?_, fun e he hu => ?_, ?_⟩, fun c => by rw [isElected_reweight, hel], rfl⟩
    · have hm : e.candidate ∈ es.map (·.candidate) := by
        rw [← map_candidate_reweight (isElected r0.1) es ws r0.1]
        exact List.mem_map_of_mem he
      obtain ⟨e', he', hce⟩ := List.mem_map.mp hm
      rw [length_reweight, ← hce]
      exact hpoints e' he'
    · -- every edge left points to an elected candidate
      rw [isElected_reweight] at hu
      have hmem : e ∈ es.filter fun e => !isElected r0.1 e.candidate := by
        rw [← filter_not_sel_reweight (isElected r0.1) es ws r0.1]
        exact List.mem_filter.mpr ⟨he, by simp [hu]⟩
      rw [hnone] at hmem
      cases hmem
    · have hsplit := usedIn_filter_add (fun e => isElected r0.1 e.candidate) (reweight (isElected r0.1) es ws r0.1).1
      rw [usedIn_filter_sel_reweight _ _ _ _ hwlen, filter_not_sel_reweight, hnone, usedIn_nil] at hsplit
      show usedIn (reweight (isElected r0.1) es ws r0.1).1 ≤ v.budget
      omega
  · cases hok

/-- The loop of the final update over the voters, stopping at the first failed normalization. -/
theorem inv_foldlM_finalizeVoter (cands0 : List (Candidate A)) (B : ℕ) (rest : List (Voter A))
    (acc : List (Candidate A) × List (Voter A)) (h : Inv acc.1 (acc.2 ++ rest))
    (hw : ∀ u ∈ rest, ∀ e ∈ u.edges, e.weight = 0) (hel : ∀ c, isElected acc.1 c = isElected cands0 c)
    (hB : totalBudget (acc.2 ++ rest) = B)
    (hfit : ∀ u ∈ rest, B + (u.edges.map (finalWeight cands0 u)).sum ≤ extendedBalanceMax)
    {r : List (Candidate A) × List (Voter A)}
    (hok : rest.foldlM (fun acc v => (Npos.finalizeVoter acc.1 v).map fun r => (r.1, acc.2 ++ [r.2])) acc = .ok r) :
    Inv r.1 r.2 := by
  induction rest generalizing acc with
  | nil =>
    cases hok
    simpa using h
  | cons v rest ih =>
    rw [List.foldlM_cons] at hok
    cases hf : Npos.finalizeVoter acc.1 v with
    | error e =>
      rw [hf] at hok
      cases hok
    | ok s =>
      rw [hf] at hok
      have hfw : (v.edges.map (finalWeight acc.1 v)).sum = (v.edges.map (finalWeight cands0 v)).sum := by
        rw [List.map_congr_left fun e _ => finalWeight_congr hel v e]
      obtain ⟨h', hel', hb'⟩ := h.finalizeVoter (hw v List.mem_cons_self)
        (by rw [hB, hfw]; exact hfit v List.mem_cons_self) hf
      exact ih (s.1, acc.2 ++ [s.2]) (by simpa using h') (fun u hu => hw u (List.mem_cons_of_mem _ hu))
        (fun c => (hel' c).trans (hel c)) (by rw [← hB]; simp [hb'])
        (fun u hu => hfit u (List.mem_cons_of_mem _ hu)) hok

end Final

/-- From a fresh state, `seq_phragmen_core` ends in the invariant when the weights of its final
update fit in `u128` with the total budget. -/
theorem Fresh.seqPhragmenCore_inv {toElect : ℕ} {cands : List (Candidate A)} {voters : List (Voter A)}
    (h : Fresh cands voters)
    (hfit : FinalWeightsFit (Npos.phragmenRounds (min toElect cands.length) 0 (cands, voters)).1
      (Npos.phragmenRounds (min toElect cands.length) 0 (cands, voters)).2)
    {r : List (Candidate A) × List (Voter A)} (hok : seqPhragmenCore toElect cands voters = .ok r) : Inv r.1 r.2 := by
  have hs := h.phragmenRounds (min toElect cands.length) 0 (cands, voters)
  unfold Npos.seqPhragmenCore at hok
  dsimp only at hok
  generalize Npos.phragmenRounds (min toElect cands.length) 0 (cands, voters) = s at hs hfit hok
  exact inv_foldlM_finalizeVoter s.1 (totalBudget s.2) s.2 (s.1, []) (by simpa using hs.inv) hs.weightless
    (fun _ => rfl) (by simp) hfit hok

/-- The source's test `phragmen_poc_works_with_balancing` with `Perbill`. -/
example : (seqPhragmen (10 ^ 9) (2 ^ 64 - 1) 2 [1, 2, 3] [(10, 10, [1, 2]), (20, 20, [1, 3]), (30, 30, [2, 3])]
    (some ⟨4, 0⟩)).map (fun r => (r.winners, r.assignments.map fun a => (a.who, a.distribution.map fun d => (d.1, d.2.parts)))) =
    .ok ([(3, 30), (2, 30)], [(10, [(2, 1000000000)]), (20, [(3, 1000000000)]),
      (30, [(2, 666666666), (3, 333333334)])]) := by
  decide

end PolkadotSdk.Npos
