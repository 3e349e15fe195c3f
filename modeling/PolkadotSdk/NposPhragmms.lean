import PolkadotSdk.NposBalancing

/-!
# PhragMMS

`sp_npos_elections::phragmms`: each round elects the unelected candidate of highest score, moves
to it the stake its voters have left and part of the stake they give to candidates backed above
its score, and then optionally balances. The result is the winners and the voters' normalized
ratio assignments.
-/

namespace PolkadotSdk.Npos

open PerThings Normalize

variable {A : Type} [DecidableEq A]

/-- The first loop of `calculate_max_score`: every unelected candidate's score is
`1 / ACCURACY`. -/
def resetScores (acc : ℕ) (cands : List (Candidate A)) : List (Candidate A) :=
  cands.map fun c => if c.elected then c else { c with score := Rational128.fromRaw 1 acc }

/-- The second loop of `calculate_max_score` for one voter: the parts of their backing it gives
its elected candidates are summed, and the sum is added to the score denominator of each
unelected candidate it votes for. -/
def addContribution (acc : ℕ) (cands : List (Candidate A)) (v : Voter A) : List (Candidate A) :=
  let contribution := (v.edges.map fun e =>
    if isElected cands e.candidate then (PerThing.fromRational 128 e.weight (backedOf cands e.candidate) : PerThing acc).parts
    else 0).sum
  v.edges.foldl (fun cands e =>
    if isElected cands e.candidate then cands
    else cands.modify e.candidate fun c => { c with score := Rational128.fromRaw 1 (contribution + c.score.d) })
    cands

/-- The last loop of `calculate_max_score` at candidate `i`: a candidate with approval stake gets
the score `approval_stake * ACCURACY / d`, and an unelected one above the best so far becomes the
best; the others get the score zero. -/
def finaliseScore (acc : ℕ) (s : List (Candidate A) × Rational128 × Option ℕ) (i : ℕ) :
    List (Candidate A) × Rational128 × Option ℕ :=
  match s.1[i]? with
  | none => s
  | some c =>
    if 0 < c.approvalStake then
      let scoreN := if c.approvalStake * acc ≤ extendedBalanceMax then c.approvalStake * acc else extendedBalanceMax
      let score := Rational128.fromRaw scoreN c.score.d
      let cands := s.1.set i { c with score := score }
      if !c.elected ∧ score.cmp s.2.1 = .gt then (cands, score, some i) else (cands, s.2)
    else (s.1.set i { c with score := Rational128.zero }, s.2)

/-- `calculate_max_score`: the candidates with their new scores, and the index of the winner. -/
def calculateMaxScore (acc : ℕ) (cands : List (Candidate A)) (voters : List (Voter A)) :
    List (Candidate A) × Option ℕ :=
  let cands := voters.foldl (addContribution acc) (resetScores acc cands)
  let r := (List.range cands.length).foldl (finaliseScore acc) (cands, Rational128.zero, none)
  (r.1, r.2.2)

/-- The loop of `apply_elected` over the other edges of one voter, the new edge at
`newEdgeIndex`: an edge with weight whose candidate is backed above `cutoff` gives up the part
`weight * cutoff / backed_stake`, which the new edge and the elected candidate gain. -/
def takeStake (cutoff newEdgeIndex : ℕ) (s : List (Candidate A) × List (Edge A) × ℕ × ℕ)
    (j : ℕ) : List (Candidate A) × List (Edge A) × ℕ × ℕ :=
  match s.2.1[j]? with
  | none => s
  | some e =>
    let backed := backedOf s.1 e.candidate
    if j ≠ newEdgeIndex ∧ 0 < e.weight ∧ cutoff < backed then
      let stakeToTake := saturatingMul e.weight cutoff / max backed 1
      (setBacked s.1 e.candidate (backed - stakeToTake), s.2.1.set j { e with weight := e.weight - stakeToTake },
        saturatingAdd s.2.2.1 stakeToTake, saturatingAdd s.2.2.2 stakeToTake)
    else s

/-- `apply_elected` for one voter: a voter of the elected candidate puts its unused budget and the
taken stake on its edge to it. The numbers are the running backed stake of the elected
candidate. -/
def applyElectedVoter (electedWho : A) (cutoff : ℕ) (s : List (Candidate A) × List (Voter A) × ℕ)
    (v : Voter A) : List (Candidate A) × List (Voter A) × ℕ :=
  match v.edges.findIdx? (·.who = electedWho) with
  | none => (s.1, s.2.1 ++ [v], s.2.2)
  | some newEdgeIndex =>
    let usedBudget := (v.edges.map (·.weight)).sum
    let newEdgeWeight := v.budget - usedBudget
    let r := (List.range v.edges.length).foldl (takeStake cutoff newEdgeIndex)
      (s.1, v.edges, saturatingAdd s.2.2 newEdgeWeight, newEdgeWeight)
    let edges := r.2.1.modify newEdgeIndex fun e => { e with weight := r.2.2.2 }
    (r.1, s.2.1 ++ [{ v with edges := edges }], r.2.2.1)

/-- `apply_elected`: the voters move stake to the elected candidate `w`, whose backed stake is set
last. The `expect` on `to_den(1)` never fails for a score that fits. -/
def applyElected (cands : List (Candidate A)) (voters : List (Voter A)) (w : ℕ) :
    List (Candidate A) × List (Voter A) :=
  match cands[w]? with
  | none => (cands, voters)
  | some elected =>
    let cutoff := ((elected.score.toDen 1).map (·.n)).getD 0
    let r := voters.foldl (applyElectedVoter elected.who cutoff) (cands, [], elected.backedStake)
    (setBacked r.1 w r.2.2, r.2.1)

/-! ## `apply_elected` moves stake between edges in step with the backed stakes -/

theorem modify_eq_set_of_getElem? {α : Type} {l : List α} {i : ℕ} {x : α} (hi : l[i]? = some x) (f : α → α) :
    l.modify i f = l.set i (f x) := by
  apply List.ext_getElem?
  intro j
  rw [List.getElem?_modify, List.getElem?_set]
  by_cases hij : i = j
  · subst hij
    obtain ⟨hlt, hx⟩ := List.getElem?_eq_some_iff.mp hi
    simp [hlt, hx]
  · simp [hij]

section TakeStake

omit [DecidableEq A]

variable {base : ℕ → ℕ} {cutoff p : ℕ}

/-- One step of the loop over a voter's other edges: the stake an edge gives up leaves its
candidate's backed stake, and joins the running stake of the winner and the new edge's weight. -/
theorem takeStake_spec {s : List (Candidate A) × List (Edge A) × ℕ × ℕ} (ht : Tracks base s.1 s.2.1)
    (hp : ∀ e ∈ s.2.1, e.candidate < s.1.length)
    (hun : ∀ e ∈ s.2.1, isElected s.1 e.candidate = false → e.weight = 0)
    (hfit : s.2.2.1 + usedIn s.2.1 ≤ extendedBalanceMax) (hfit' : s.2.2.2 + usedIn s.2.1 ≤ extendedBalanceMax)
    (j : ℕ) :
    let s' := takeStake cutoff p s j
    Tracks base s'.1 s'.2.1 ∧ s'.1.length = s.1.length ∧ (∀ c, isElected s'.1 c = isElected s.1 c) ∧
      s'.2.1.map (·.candidate) = s.2.1.map (·.candidate) ∧
      (∀ e ∈ s'.2.1, isElected s.1 e.candidate = false → e.weight = 0) ∧
      s'.2.2.1 + usedIn s'.2.1 = s.2.2.1 + usedIn s.2.1 ∧ s'.2.2.2 + usedIn s'.2.1 = s.2.2.2 + usedIn s.2.1 := by
  intro s'
  have hsame : s' = s →
      Tracks base s'.1 s'.2.1 ∧ s'.1.length = s.1.length ∧ (∀ c, isElected s'.1 c = isElected s.1 c) ∧
        s'.2.1.map (·.candidate) = s.2.1.map (·.candidate) ∧
        (∀ e ∈ s'.2.1, isElected s.1 e.candidate = false → e.weight = 0) ∧
        s'.2.2.1 + usedIn s'.2.1 = s.2.2.1 + usedIn s.2.1 ∧ s'.2.2.2 + usedIn s'.2.1 = s.2.2.2 + usedIn s.2.1 := by
    intro hs
    rw [hs]
    exact ⟨ht, rfl, fun _ => rfl, rfl, hun, rfl, rfl⟩
  cases hj : s.2.1[j]? with
  | none => exact hsame (by simp [s', takeStake, hj])
  | some e =>
    by_cases hc : j ≠ p ∧ 0 < e.weight ∧ cutoff < backedOf s.1 e.candidate
    · have hmem := List.mem_of_getElem? hj
      have hce := hp e hmem
      have hwb : e.weight ≤ backedOf s.1 e.candidate := by
        rw [ht e.candidate hce]
        have := weight_le_supportIn hmem
        omega
      have hwu : e.weight ≤ usedIn s.2.1 := le_trans (weight_le_supportIn hmem) (supportIn_le_usedIn _ _)
      -- the part taken is at most the edge's weight, since the cutoff is below the backed stake
      have htake : saturatingMul e.weight cutoff / max (backedOf s.1 e.candidate) 1 ≤ e.weight := by
        apply Nat.div_le_of_le_mul
        calc saturatingMul e.weight cutoff ≤ e.weight * cutoff := Nat.min_le_left _ _
          _ ≤ e.weight * backedOf s.1 e.candidate := Nat.mul_le_mul_left _ hc.2.2.le
          _ ≤ max (backedOf s.1 e.candidate) 1 * e.weight := by
            rw [Nat.mul_comm]
            exact Nat.mul_le_mul_right _ (le_max_left _ _)
      have hs0 : s' = (setBacked s.1 e.candidate (backedOf s.1 e.candidate -
            saturatingMul e.weight cutoff / max (backedOf s.1 e.candidate) 1),
          s.2.1.set j { e with weight := e.weight - saturatingMul e.weight cutoff / max (backedOf s.1 e.candidate) 1 },
          saturatingAdd s.2.2.1 (saturatingMul e.weight cutoff / max (backedOf s.1 e.candidate) 1),
          saturatingAdd s.2.2.2 (saturatingMul e.weight cutoff / max (backedOf s.1 e.candidate) 1)) := by
        simp only [s', takeStake, hj, if_pos hc]
      generalize saturatingMul e.weight cutoff / max (backedOf s.1 e.candidate) 1 = take at htake hs0
      have hs : s' = (setBacked s.1 e.candidate (backedOf s.1 e.candidate - e.weight + (e.weight - take)),
          s.2.1.set j { e with weight := e.weight - take }, s.2.2.1 + take, s.2.2.2 + take) := by
        rw [hs0, saturatingAdd_of_le (by omega), saturatingAdd_of_le (by omega),
          show backedOf s.1 e.candidate - take = backedOf s.1 e.candidate - e.weight + (e.weight - take) by omega]
      have hused := usedIn_set hj (e.weight - take)
      rw [hs]
      refine ⟨ht.set hj hce _, length_setBacked _ _ _, isElected_setBacked _ _ _, map_candidate_set hj _,
        fun e' he' hu => ?_, by dsimp only; omega, by dsimp only; omega⟩
      -- the edge that gave up stake had some, so its candidate is elected
      rcases List.mem_or_eq_of_mem_set he' with he' | rfl
      · exact hun e' he' hu
      · have := hun e hmem hu
        omega
    · exact hsame (by simp [s', takeStake, hj, hc])

/-- The loop over a voter's other edges. -/
theorem foldl_takeStake_spec (js : List ℕ) (s : List (Candidate A) × List (Edge A) × ℕ × ℕ)
    (ht : Tracks base s.1 s.2.1) (hp : ∀ e ∈ s.2.1, e.candidate < s.1.length)
    (hun : ∀ e ∈ s.2.1, isElected s.1 e.candidate = false → e.weight = 0)
    (hfit : s.2.2.1 + usedIn s.2.1 ≤ extendedBalanceMax) (hfit' : s.2.2.2 + usedIn s.2.1 ≤ extendedBalanceMax) :
    let s' := js.foldl (takeStake cutoff p) s
    Tracks base s'.1 s'.2.1 ∧ s'.1.length = s.1.length ∧ (∀ c, isElected s'.1 c = isElected s.1 c) ∧
      s'.2.1.map (·.candidate) = s.2.1.map (·.candidate) ∧
      (∀ e ∈ s'.2.1, isElected s.1 e.candidate = false → e.weight = 0) ∧
      s'.2.2.1 + usedIn s'.2.1 = s.2.2.1 + usedIn s.2.1 ∧ s'.2.2.2 + usedIn s'.2.1 = s.2.2.2 + usedIn s.2.1 := by
  induction js generalizing s with
  | nil => exact ⟨ht, rfl, fun _ => rfl, rfl, hun, rfl, rfl⟩
  | cons j js ih =>
    obtain ⟨ht₁, hl₁, he₁, hc₁, hun₁, hr₁, hn₁⟩ := @takeStake_spec _ _ cutoff p _ ht hp hun hfit hfit' j
    have hp₁ : ∀ e ∈ (takeStake cutoff p s j).2.1, e.candidate < (takeStake cutoff p s j).1.length := by
      intro e he
      have hm : e.candidate ∈ s.2.1.map (·.candidate) := hc₁ ▸ List.mem_map_of_mem he
      obtain ⟨e', he', hce⟩ := List.mem_map.mp hm
      rw [hl₁, ← hce]
      exact hp e' he'
    obtain ⟨ht₂, hl₂, he₂, hc₂, hun₂, hr₂, hn₂⟩ := ih _ ht₁ hp₁ (fun e he hu => hun₁ e he (by rw [← he₁]; exact hu))
      (by omega) (by omega)
    rw [List.foldl_cons]
    refine ⟨ht₂, hl₂.trans hl₁, fun c => (he₂ c).trans (he₁ c), hc₂.trans hc₁,
      fun e he hu => hun₂ e he (by rw [he₁]; exact hu), by omega, by omega⟩

end TakeStake

/-- The loop of `apply_elected` electing candidate `w`, with the voters of `acc` visited and those
of `rest` to come: every candidate but `w` is backed by the edges to it, the running stake is what
the edges give `w`, the voters to come give `w` nothing yet, and every voter keeps `VoterInv` with
`w` counted as elected. -/
structure ApplyInv (cands0 : List (Candidate A)) (w : ℕ) (acc : List (Candidate A) × List (Voter A) × ℕ)
    (rest : List (Voter A)) : Prop where
  length_eq : acc.1.length = cands0.length
  elected_eq : ∀ c, isElected acc.1 c = isElected cands0 c
  backed : ∀ c < cands0.length, c ≠ w → backedOf acc.1 c = edgeSupport (acc.2.1 ++ rest) c
  running : acc.2.2 = edgeSupport (acc.2.1 ++ rest) w
  pending : ∀ u ∈ rest, ∀ e ∈ u.edges, e.candidate = w → e.weight = 0
  points : ∀ u ∈ acc.2.1 ++ rest, ∀ e ∈ u.edges, e.candidate < cands0.length
  unelected : ∀ u ∈ acc.2.1 ++ rest, ∀ e ∈ u.edges, isElected cands0 e.candidate = false → e.candidate ≠ w →
    e.weight = 0
  withinBudget : ∀ u ∈ acc.2.1 ++ rest, usedIn u.edges ≤ u.budget

/-- One voter of `apply_elected`: a voter of the winner puts its unused budget and the stake its
other edges give up on its edge to the winner. -/
theorem ApplyInv.step {cands0 : List (Candidate A)} {w : ℕ} {W : A} {cutoff : ℕ}
    {acc : List (Candidate A) × List (Voter A) × ℕ} {v : Voter A} {rest : List (Voter A)}
    (hI : ApplyInv cands0 w acc (v :: rest)) (hun : isElected cands0 w = false)
    (hwho : ∀ e ∈ v.edges, e.who = W → e.candidate = w)
    (hB : totalBudget (acc.2.1 ++ v :: rest) ≤ extendedBalanceMax) :
    ApplyInv cands0 w (applyElectedVoter W cutoff acc v) rest ∧
      totalBudget ((applyElectedVoter W cutoff acc v).2.1 ++ rest) = totalBudget (acc.2.1 ++ v :: rest) := by
  have hvmem : v ∈ acc.2.1 ++ v :: rest := List.mem_append_right _ List.mem_cons_self
  have hmove : ∀ u, acc.2.1 ++ [u] ++ rest = acc.2.1 ++ u :: rest := fun u => by simp
  unfold applyElectedVoter
  split
  · -- no edge to the winner: the voter is visited unchanged
    refine ⟨⟨hI.length_eq, hI.elected_eq, ?_, ?_, fun u hu => hI.pending u (List.mem_cons_of_mem _ hu), ?_, ?_, ?_⟩,
      by rw [hmove]⟩ <;> simp only [hmove]
    · exact hI.backed
    · exact hI.running
    · exact hI.points
    · exact hI.unelected
    · exact hI.withinBudget
  · rename_i p hf
    dsimp only
    rw [show (v.edges.map (·.weight)).sum = usedIn v.edges from rfl]
    obtain ⟨hp, hpW, -⟩ := List.findIdx?_eq_some_iff_getElem.mp hf
    have hpw : v.edges[p].candidate = w := hwho _ (List.getElem_mem hp) (by simpa using hpW)
    have hpend := hI.pending v List.mem_cons_self
    have hbud := hI.withinBudget v hvmem
    have hdone : ∀ u ∈ acc.2.1, usedIn u.edges ≤ u.budget := fun u hu =>
      hI.withinBudget u (List.mem_append_left _ hu)
    -- the voter's edges track the others' support, and the stale stake of the winner
    have ht : Tracks (fun c => if c = w then backedOf acc.1 w else edgeSupport (acc.2.1 ++ rest) c) acc.1 v.edges := by
      intro c hc
      dsimp only
      by_cases hcw : c = w
      · subst hcw
        rw [if_pos rfl, supportIn_eq_zero hpend, Nat.add_zero]
      · rw [if_neg hcw, hI.backed c (hI.length_eq ▸ hc) hcw, edgeSupport_append, edgeSupport_cons,
          edgeSupport_append]
        omega
    have hp0 : ∀ e ∈ v.edges, e.candidate < acc.1.length := fun e he => hI.length_eq ▸ hI.points v hvmem e he
    have hun0 : ∀ e ∈ v.edges, isElected acc.1 e.candidate = false → e.weight = 0 := by
      intro e he hu
      by_cases hcw : e.candidate = w
      · exact hpend e he hcw
      · exact hI.unelected v hvmem e he (by rw [← hI.elected_eq]; exact hu) hcw
    -- the running stake is what the visited voters give the winner
    have hrun : acc.2.2 ≤ totalBudget acc.2.1 := by
      rw [hI.running, edgeSupport_append, edgeSupport_cons, supportIn_eq_zero hpend,
        edgeSupport_eq_zero fun u hu => hI.pending u (List.mem_cons_of_mem _ hu)]
      have := edgeSupport_le_totalBudget hdone w
      omega
    rw [totalBudget_append, totalBudget_cons] at hB
    have hadd : saturatingAdd acc.2.2 (v.budget - usedIn v.edges) = acc.2.2 + (v.budget - usedIn v.edges) :=
      saturatingAdd_of_le (by omega)
    obtain ⟨ht', hl', he', hc', hun', hr', hn'⟩ := @foldl_takeStake_spec _ _ cutoff p
      (List.range v.edges.length) (acc.1, v.edges, saturatingAdd acc.2.2 (v.budget - usedIn v.edges),
        v.budget - usedIn v.edges) ht hp0 hun0 (by dsimp only; omega) (by dsimp only; omega)
    generalize (List.range v.edges.length).foldl (takeStake cutoff p)
      (acc.1, v.edges, saturatingAdd acc.2.2 (v.budget - usedIn v.edges), v.budget - usedIn v.edges) = r
      at ht' hl' he' hc' hun' hr' hn'
    dsimp only at hl' he' hc' hun' hr' hn'
    rw [hadd] at hr'
    -- the edge to the winner is where it was, and still holds nothing
    have hlen : r.2.1.length = v.edges.length := by simpa using congrArg List.length hc'
    have hpr : p < r.2.1.length := by omega
    have hpc : r.2.1[p].candidate = w := by
      have := congrArg (·[p]?) hc'
      simp only [List.getElem?_map, List.getElem?_eq_getElem hpr, List.getElem?_eq_getElem hp,
        Option.map_some, Option.some.injEq] at this
      rw [this, hpw]
    have hunw : isElected acc.1 w = false := by rw [hI.elected_eq]; exact hun
    have hzero : ∀ e ∈ r.2.1, e.candidate = w → e.weight = 0 := fun e he hcw =>
      hun' e he (by rw [hcw]; exact hunw)
    rw [modify_eq_set_of_getElem? (List.getElem?_eq_getElem hpr)]
    have hsup := supportIn_set (List.getElem?_eq_getElem hpr) r.2.2.2
    have hused := usedIn_set (List.getElem?_eq_getElem hpr) r.2.2.2
    have hzp : r.2.1[p].weight = 0 := hzero _ (List.getElem_mem hpr) hpc
    have hsw := supportIn_eq_zero hzero
    refine ⟨⟨by rw [hl']; exact hI.length_eq, fun c => by rw [he', hI.elected_eq], fun c hc hcw => ?_, ?_,
      fun u hu => hI.pending u (List.mem_cons_of_mem _ hu), ?_, ?_, ?_⟩, by simp⟩
    · have hne : ¬ r.2.1[p].candidate = c := by rw [hpc]; exact Ne.symm hcw
      have := hsup c
      rw [if_neg hne, if_neg hne] at this
      rw [ht' c (by rw [hl']; exact hI.length_eq ▸ hc)]
      dsimp only
      rw [if_neg hcw]
      simp only [edgeSupport_append, edgeSupport_cons, edgeSupport_nil]
      omega
    · have := hsup w
      rw [if_pos hpc, if_pos hpc, hsw, hzp] at this
      rw [hI.running, edgeSupport_append, edgeSupport_cons, supportIn_eq_zero hpend] at hr'
      dsimp only
      simp only [edgeSupport_append, edgeSupport_cons, edgeSupport_nil]
      omega
    · intro u hu e he
      rw [hmove] at hu
      rcases List.mem_append.mp hu with hu | hu
      · exact hI.points u (List.mem_append_left _ hu) e he
      · rcases List.mem_cons.mp hu with rfl | hu
        · rcases List.mem_or_eq_of_mem_set he with he | rfl
          · have hm : e.candidate ∈ v.edges.map (·.candidate) := hc' ▸ List.mem_map_of_mem he
            obtain ⟨e', he', hce⟩ := List.mem_map.mp hm
            rw [← hce]
            exact hI.points v hvmem e' he'
          · show r.2.1[p].candidate < cands0.length
            rw [hpc, ← hpw]
            exact hI.points v hvmem _ (List.getElem_mem hp)
        · exact hI.points u (List.mem_append_right _ (List.mem_cons_of_mem _ hu)) e he
    · intro u hu e he hu' hcw
      rw [hmove] at hu
      rcases List.mem_append.mp hu with hu | hu
      · exact hI.unelected u (List.mem_append_left _ hu) e he hu' hcw
      · rcases List.mem_cons.mp hu with rfl | hu
        · rcases List.mem_or_eq_of_mem_set he with he | rfl
          · exact hun' e he (by rw [hI.elected_eq]; exact hu')
          · exact absurd hpc hcw
        · exact hI.unelected u (List.mem_append_right _ (List.mem_cons_of_mem _ hu)) e he hu' hcw
    · intro u hu
      rw [hmove] at hu
      rcases List.mem_append.mp hu with hu | hu
      · exact hI.withinBudget u (List.mem_append_left _ hu)
      · rcases List.mem_cons.mp hu with rfl | hu
        · -- the voter ends with exactly its budget on its edges
          show usedIn (r.2.1.set p _) ≤ v.budget
          omega
        · exact hI.withinBudget u (List.mem_append_right _ (List.mem_cons_of_mem _ hu))

theorem ApplyInv.foldl {cands0 : List (Candidate A)} {w : ℕ} {W : A} {cutoff : ℕ} (hun : isElected cands0 w = false)
    (rest : List (Voter A)) (acc : List (Candidate A) × List (Voter A) × ℕ) (hI : ApplyInv cands0 w acc rest)
    (hwho : ∀ u ∈ rest, ∀ e ∈ u.edges, e.who = W → e.candidate = w)
    (hB : totalBudget (acc.2.1 ++ rest) ≤ extendedBalanceMax) :
    ApplyInv cands0 w (rest.foldl (applyElectedVoter W cutoff) acc) [] := by
  induction rest generalizing acc with
  | nil => exact hI
  | cons v rest ih =>
    obtain ⟨hI', hB'⟩ := hI.step hun (hwho v List.mem_cons_self) hB
    rw [List.foldl_cons]
    exact ih _ hI' (fun u hu => hwho u (List.mem_cons_of_mem _ hu)) (hB' ▸ hB)

omit [DecidableEq A] in
theorem backedOf_markElected (cands : List (Candidate A)) (w round c : ℕ) :
    backedOf (cands.modify w fun x => { x with round := round, elected := true }) c = backedOf cands c := by
  unfold backedOf
  rw [List.getElem?_modify]
  split <;> cases cands[c]? <;> rfl

omit [DecidableEq A] in
theorem isElected_markElected (cands : List (Candidate A)) {w : ℕ} (hw : w < cands.length) (round c : ℕ) :
    isElected (cands.modify w fun x => { x with round := round, elected := true }) c =
      if c = w then true else isElected cands c := by
  unfold isElected
  rw [List.getElem?_modify]
  by_cases hc : c = w
  · subst hc
    simp [List.getElem?_eq_getElem hw]
  · simp [hc, Ne.symm hc]

/-- `apply_elected` keeps the invariant once the winner is marked elected, which `phragmms` does
right after it: the winner `w` is an unelected candidate, and an edge naming it points to it. -/
theorem Inv.applyElected_elect {cands : List (Candidate A)} {voters : List (Voter A)} (h : Inv cands voters)
    (hB : totalBudget voters ≤ extendedBalanceMax) {w : ℕ} (hw : w < cands.length)
    (hun : isElected cands w = false) (hwho : ∀ v ∈ voters, ∀ e ∈ v.edges, e.who = cands[w].who → e.candidate = w)
    (round : ℕ) :
    Inv ((applyElected cands voters w).1.modify w fun c => { c with round := round, elected := true })
      (applyElected cands voters w).2 := by
  -- before the loop: the winner is backed by nothing but its edges, which hold nothing
  have h0 : ApplyInv cands w (cands, [], cands[w].backedStake) voters := by
    have hbw : cands[w].backedStake = edgeSupport voters w := by
      rw [← h.backed w hw]
      simp [backedOf, List.getElem?_eq_getElem hw]
    refine ⟨rfl, fun _ => rfl, fun c hc _ => by simpa using h.backed c hc, by simpa using hbw,
      fun u hu e he hcw => (h.voter u hu).unelected e he (hcw ▸ hun), fun u hu => (h.voter u (by simpa using hu)).points,
      fun u hu e he hu' _ => (h.voter u (by simpa using hu)).unelected e he hu',
      fun u hu => (h.voter u (by simpa using hu)).withinBudget⟩
  unfold Npos.applyElected
  simp only [List.getElem?_eq_getElem hw]
  generalize ((cands[w].score.toDen 1).map (·.n)).getD 0 = cutoff
  have hI := @ApplyInv.foldl _ _ _ _ _ cutoff hun voters _ h0 hwho (by simpa using hB)
  generalize voters.foldl (applyElectedVoter cands[w].who cutoff) (cands, [], cands[w].backedStake) = r at hI ⊢
  have hlen : r.1.length = cands.length := hI.length_eq
  refine ⟨fun c hc => ?_, fun u hu => ⟨fun e he => ?_, fun e he hu' => ?_, hI.withinBudget u (by simpa using hu)⟩⟩
  · rw [backedOf_markElected, backedOf_setBacked _ (by omega)]
    simp only [List.length_modify, length_setBacked] at hc
    split
    · rename_i hcw
      rw [hcw]
      simpa using hI.running
    · rename_i hcw
      simpa using hI.backed c (by omega) hcw
  · simp only [List.length_modify, length_setBacked, hlen]
    exact hI.points u (by simpa using hu) e he
  · rw [isElected_markElected _ (by simp; omega), isElected_setBacked] at hu'
    split at hu'
    · cases hu'
    · rename_i hcw
      exact hI.unelected u (by simpa using hu) e he (by rw [← hI.elected_eq]; exact hu') hcw

/-- The rounds of `phragmms` from `round`: elect, apply, mark elected, balance. -/
def phragmmsRounds (acc : ℕ) (balancing : Option BalancingConfig) :
    ℕ → ℕ → List (Candidate A) × List (Voter A) × List ℕ → List (Candidate A) × List (Voter A) × List ℕ
  | 0, _, s => s
  | rounds + 1, round, s =>
    let scored := calculateMaxScore acc s.1 s.2.1
    match scored.2 with
    | none => (scored.1, s.2)
    | some w =>
      let applied := applyElected scored.1 s.2.1 w
      let cands := applied.1.modify w fun c => { c with round := round, elected := true }
      let balanced := match balancing with
        | some config => let b := balance config cands applied.2; (b.1, b.2.1)
        | none => (cands, applied.2)
      phragmmsRounds acc balancing rounds (round + 1) (balanced.1, balanced.2, s.2.2 ++ [w])

/-- `phragmms::<_, P>` for a `PerThing` of `ACCURACY` `acc` whose `UpperOf` has the largest value
`upperMax`. -/
def phragmms (acc upperMax : ℕ) (toElect : ℕ) (candidates : List A) (voters : List (A × ℕ × List A))
    (balancing : Option BalancingConfig) : Except ElectionError (ElectionResult A acc) :=
  let (cands, vs) := setupInputs candidates voters
  let r := phragmmsRounds acc balancing toElect 0 (cands, vs, [])
  (normalizedAssignments acc upperMax r.2.1).map fun assignments =>
    ⟨r.2.2.filterMap fun w => r.1[w]?.map fun c => (c.who, c.backedStake), assignments⟩

/-- The source's test `basic_election_works` with `Perbill`: after two rounds with balancing,
voter `30` splits its stake two to one. -/
example : (phragmms (10 ^ 9) (2 ^ 64 - 1) 2 [1, 2, 3] [(10, 10, [1, 2]), (20, 20, [1, 3]), (30, 30, [2, 3])]
    (some ⟨2, 0⟩)).map (fun r => (r.winners, r.assignments.map fun a => (a.who, a.distribution.map fun d => (d.1, d.2.parts)))) =
    .ok ([(3, 30), (2, 30)], [(10, [(2, 1000000000)]), (20, [(3, 1000000000)]),
      (30, [(2, 666666666), (3, 333333334)])]) := by
  decide

/-- Voter `10` has no stake and votes for candidate `2`; voter `11` has stake `5` and votes for
candidate `1`. -/
def zeroStakeVoters : List (ℕ × ℕ × List ℕ) := [(10, 0, [2]), (11, 5, [1])]

theorem phragmms_assigns_zero_stake_to_loser :
    phragmms 100 (2 ^ 16 - 1) 1 [1, 2] zeroStakeVoters none =
      .ok ⟨[(1, 5)], [⟨10, [(2, PerThing.one)]⟩, ⟨11, [(1, PerThing.one)]⟩]⟩ := by
  decide

end PolkadotSdk.Npos
