import PolkadotSdk.NposInvariant
import Mathlib.Algebra.Order.BigOperators.Group.List
import Mathlib.Data.List.GetD

/-!
# Balancing

`sp_npos_elections::balancing`: `balance_voter` takes a voter's stake off its elected candidates
and pours it back as water fills a basin, lifting the least backed of them to one level, and
then normalizes the voter; `balance` repeats that for every voter until no voter's spread is
above the tolerance or the iterations run out.
-/

namespace PolkadotSdk.Npos

open PerThings Normalize

variable {A : Type}

/-- `saturating_mul` of `ExtendedBalance`. -/
def saturatingMul (a b : ℕ) : ℕ := min (a * b) extendedBalanceMax

theorem saturatingMul_of_le {a b : ℕ} (h : a * b ≤ extendedBalanceMax) : saturatingMul a b = a * b :=
  Nat.min_eq_left h

/-- The candidate of the edge at `i`. -/
def candidateAt (v : Voter A) (i : ℕ) : ℕ := (v.edges[i]?.map (·.candidate)).getD 0

/-- The weight of the edge at `i`. -/
def weightAt (v : Voter A) (i : ℕ) : ℕ := (v.edges[i]?.map (·.weight)).getD 0

/-- The backed stake of the candidate of the edge at `i`. -/
def backedAt (cands : List (Candidate A)) (v : Voter A) (i : ℕ) : ℕ := backedOf cands (candidateAt v i)

/-- The positions of the edges to elected candidates: the `elected_edges` references. -/
def electedPositions (cands : List (Candidate A)) (v : Voter A) : List ℕ :=
  (List.range v.edges.length).filter fun i => isElected cands (candidateAt v i)

/-- "remove all backings": the edge at `i` gives its weight back and holds nothing. -/
def removeBacking (s : List (Candidate A) × Voter A) (i : ℕ) : List (Candidate A) × Voter A :=
  match s.2.edges[i]? with
  | none => s
  | some e =>
    (setBacked s.1 e.candidate (backedOf s.1 e.candidate - e.weight),
      { s.2 with edges := s.2.edges.set i { e with weight := 0 } })

/-- "the final update": the edge at `i` gets the weight `w`, which its candidate's backed stake
gains. -/
def giveWeight (s : List (Candidate A) × Voter A) (i w : ℕ) : List (Candidate A) × Voter A :=
  match s.2.edges[i]? with
  | none => s
  | some e =>
    (setBacked s.1 e.candidate (saturatingAdd (backedOf s.1 e.candidate) w),
      { s.2 with edges := s.2.edges.set i { e with weight := w } })

/-- The loop that fixes `last_index` over the backed stakes in increasing order: the stakes are
summed while each, times its index, exceeds the sum before it by at most the budget. The result
is that sum and the index of the first stake that does not pass, if any. -/
def thresholdScan (budget : ℕ) : List ℕ → ℕ → ℕ → ℕ × Option ℕ
  | [], _, cumulative => (cumulative, none)
  | b :: bs, index, cumulative =>
    if budget < saturatingMul b index - cumulative then (cumulative, some index)
    else thresholdScan budget bs (index + 1) (saturatingAdd cumulative b)

/-- While the sums fit, the scan stops at the first stake `m` that fails, returns the sum of the
stakes before it, and every stake before it passed. -/
theorem thresholdScan_spec (budget M : ℕ) (bs : List ℕ) (index cum : ℕ) (hM : ∀ b ∈ bs, b ≤ M)
    (hcum : cum + bs.length * M ≤ extendedBalanceMax) (hidx : (index + bs.length) * M ≤ extendedBalanceMax) :
    ∃ m ≤ bs.length, (thresholdScan budget bs index cum).1 = cum + (bs.take m).sum ∧
      (thresholdScan budget bs index cum).2 = (if m = bs.length then none else some (index + m)) ∧
      (m < bs.length → budget + (cum + (bs.take m).sum) < bs.getD m 0 * (index + m)) ∧
      ∀ t < m, bs.getD t 0 * (index + t) ≤ budget + (cum + (bs.take t).sum) := by
  induction bs generalizing index cum with
  | nil => exact ⟨0, le_rfl, rfl, rfl, fun h => absurd h (Nat.lt_irrefl 0), fun t ht => absurd ht (Nat.not_lt_zero t)⟩
  | cons b bs ih =>
    rw [List.length_cons] at hcum hidx
    have hb := hM b List.mem_cons_self
    have hsucc : (bs.length + 1) * M = bs.length * M + M := Nat.succ_mul bs.length M
    have hmul : saturatingMul b index = b * index := saturatingMul_of_le (le_trans
      (Nat.mul_le_mul hb (Nat.le_add_right index (bs.length + 1))) (by rw [Nat.mul_comm]; exact hidx))
    by_cases hbrk : budget < saturatingMul b index - cum
    · -- the scan stops at this stake
      have hstep : thresholdScan budget (b :: bs) index cum = (cum, some index) := by
        rw [thresholdScan, if_pos hbrk]
      rw [hmul] at hbrk
      refine ⟨0, Nat.zero_le _, by rw [hstep]; rfl, by rw [hstep]; simp, fun _ => ?_,
        fun t ht => absurd ht (Nat.not_lt_zero t)⟩
      simp only [List.take_zero, List.sum_nil, List.getD_cons_zero, Nat.add_zero]
      omega
    · have hstep : thresholdScan budget (b :: bs) index cum =
          thresholdScan budget bs (index + 1) (saturatingAdd cum b) := by
        rw [thresholdScan, if_neg hbrk]
      rw [hmul] at hbrk
      have hadd : saturatingAdd cum b = cum + b := saturatingAdd_of_le (by omega)
      obtain ⟨m, hm, h1, h2, h3, h4⟩ := ih (index + 1) (saturatingAdd cum b)
        (fun b' hb' => hM b' (List.mem_cons_of_mem _ hb')) (by rw [hadd]; omega)
        (by rw [show index + 1 + bs.length = index + (bs.length + 1) by omega]; exact hidx)
      rw [hadd] at h1 h3 h4
      refine ⟨m + 1, by simpa using hm, ?_, ?_, fun hlt => ?_, fun t ht => ?_⟩
      · rw [hstep, hadd, h1, List.take_succ_cons, List.sum_cons]
        omega
      · rw [hstep, h2, List.length_cons]
        by_cases hml : m = bs.length
        · rw [if_pos hml, if_pos (by omega)]
        · rw [if_neg hml, if_neg (by omega), show index + 1 + m = index + (m + 1) by omega]
      · have := h3 (by simpa using hlt)
        rw [List.getD_cons_succ, List.take_succ_cons, List.sum_cons, show index + (m + 1) = index + 1 + m by omega]
        omega
      · cases t with
        | zero =>
          simp only [List.getD_cons_zero, List.take_zero, List.sum_nil, Nat.add_zero]
          omega
        | succ t =>
          have := h4 t (by omega)
          rw [List.getD_cons_succ, List.take_succ_cons, List.sum_cons, show index + (t + 1) = index + 1 + t by omega]
          omega

/-- The distances of values below a level to it, with the values, make up the level that many
times. -/
theorem sum_map_sub_add_sum {ι : Type} (key : ι → ℕ) (Y : ℕ) (l : List ι) (h : ∀ i ∈ l, key i ≤ Y) :
    (l.map fun i => Y - key i).sum + (l.map key).sum = l.length * Y := by
  induction l with
  | nil => simp
  | cons i l ih =>
    have hi := h i List.mem_cons_self
    have := ih fun j hj => h j (List.mem_cons_of_mem _ hj)
    simp only [List.map_cons, List.sum_cons, List.length_cons, Nat.succ_mul]
    omega

/-- The level `balance_voter` fills to costs at most the budget: lifting the `ways` least backed
stakes to `excess / ways + last_stake` takes `ways * (excess / ways)` on top of what lifts them to
the last one, and `excess` is the budget less that. -/
theorem waterFill_le {ι : Type} (key : ι → ℕ) (sorted : List ι) (d : ι) (budget M : ℕ)
    (hs : sorted.Pairwise fun i j => key i ≤ key j) (hM : ∀ i ∈ sorted, key i ≤ M)
    (hfit : budget + (sorted.length + 1) * M ≤ extendedBalanceMax) (lastIndex : ℕ)
    (hL : lastIndex = ((thresholdScan budget (sorted.map key) 0 0).2.map (· - 1)).getD (sorted.length - 1)) :
    ((sorted.take (lastIndex + 1)).map fun i =>
      saturatingAdd ((saturatingAdd budget (thresholdScan budget (sorted.map key) 0 0).1 -
        saturatingMul (key (sorted.getD lastIndex d)) (lastIndex + 1)) / (lastIndex + 1))
        (key (sorted.getD lastIndex d)) - key i).sum ≤ budget := by
  by_cases hnil : sorted = []
  · subst hnil
    simp
  have hn : 0 < sorted.length := List.length_pos_iff.mpr hnil
  have hbs : ∀ b ∈ sorted.map key, b ≤ M := by
    intro b hb
    obtain ⟨i, hi, rfl⟩ := List.mem_map.mp hb
    exact hM i hi
  have hsucc : (sorted.length + 1) * M = sorted.length * M + M := Nat.succ_mul sorted.length M
  obtain ⟨m, hm, h1, h2, h3, h4⟩ := thresholdScan_spec budget M (sorted.map key) 0 0 hbs
    (by rw [List.length_map]; omega) (by rw [List.length_map, Nat.zero_add]; omega)
  rw [List.length_map] at hm h2 h3
  -- the scan passes the first stake, so `m` stakes are lifted
  have hm0 : 0 < m := by
    rcases Nat.eq_zero_or_pos m with rfl | hpos
    · have := h3 hn
      simp at this
    · exact hpos
  have hways : lastIndex + 1 = m := by
    rw [hL, h2]
    by_cases hml : m = sorted.length
    · rw [if_pos hml]
      simp only [Option.map_none, Option.getD_none]
      omega
    · rw [if_neg hml]
      simp only [Option.map_some, Option.getD_some]
      omega
  have hlast : lastIndex < sorted.length := by omega
  -- the last lifted stake, and the stakes below it
  have hℓ : key (sorted.getD lastIndex d) = key sorted[lastIndex] := by rw [List.getD_eq_getElem _ _ hlast]
  have hmapℓ : (sorted.map key).getD lastIndex 0 = key sorted[lastIndex] := by
    rw [List.getD_eq_getElem _ _ (by simpa using hlast), List.getElem_map]
  have hbelow : ∀ i ∈ sorted.take m, key i ≤ key sorted[lastIndex] := by
    intro i hi
    obtain ⟨t, ht, rfl⟩ := List.mem_iff_getElem.mp hi
    rw [List.getElem_take]
    rw [List.length_take] at ht
    rcases Nat.lt_or_ge t lastIndex with htl | htl
    · exact List.pairwise_iff_getElem.mp hs t lastIndex (by omega) hlast htl
    · have : t = lastIndex := by omega
      subst this
      exact le_rfl
  rw [hways, h1, Nat.zero_add, hℓ]
  set ℓ := key sorted[lastIndex] with hℓdef
  have hℓM : ℓ ≤ M := hM _ (List.getElem_mem hlast)
  set cum := ((sorted.map key).take m).sum with hcumdef
  have hcum' : cum = ((sorted.take m).map key).sum := by rw [hcumdef, List.map_take]
  -- the stakes summed are at most `M` each
  have hcumM : cum ≤ sorted.length * M := by
    have := List.sum_le_card_nsmul ((sorted.map key).take m) M
      fun b hb => hbs b (List.mem_of_mem_take hb)
    rw [nsmul_eq_mul, List.length_take, List.length_map] at this
    exact le_trans this (Nat.mul_le_mul_right M (Nat.min_le_right _ _))
  -- the condition at the last lifted stake: it is at most the budget above the ones before it
  have hcond : ℓ * m ≤ budget + cum := by
    have h := h4 lastIndex (by omega)
    rw [hmapℓ, Nat.zero_add, Nat.zero_add] at h
    have hsplit : cum = ((sorted.map key).take lastIndex).sum + ℓ := by
      rw [hcumdef, ← hways, List.take_add_one, List.sum_append, List.getElem?_map,
        List.getElem?_eq_getElem hlast]
      simp [hℓdef]
    rw [← hways, Nat.mul_succ]
    omega
  have hadd : saturatingAdd budget cum = budget + cum := saturatingAdd_of_le (by omega)
  have hmulℓ : saturatingMul ℓ m = ℓ * m := saturatingMul_of_le (le_trans
    (Nat.mul_le_mul hℓM (show m ≤ sorted.length from hm)) (by rw [Nat.mul_comm]; omega))
  rw [hadd, hmulℓ]
  -- lift to the unsaturated level `Y`, which the level reached is at most
  set Y := (budget + cum - ℓ * m) / m + ℓ with hY
  have hXY : ∀ i, saturatingAdd ((budget + cum - ℓ * m) / m) ℓ - key i ≤ Y - key i :=
    fun i => Nat.sub_le_sub_right (Nat.min_le_left _ _) _
  have hle := List.sum_le_sum (l := sorted.take m) fun i _ => hXY i
  have hsum := sum_map_sub_add_sum key Y (sorted.take m) fun i hi => le_trans (hbelow i hi) (Nat.le_add_left _ _)
  rw [← hcum', List.length_take, Nat.min_eq_left hm] at hsum
  have hdiv := Nat.mul_div_le (budget + cum - ℓ * m) m
  have hmY : m * Y = m * ((budget + cum - ℓ * m) / m) + m * ℓ := by rw [hY, Nat.mul_add]
  rw [Nat.mul_comm m ℓ] at hmY
  omega


/-- The first part of `balance_voter`: the spread it measures over the elected edges, and whether
it returns there, which it does for a voter with at most one elected edge and for a spread below
the tolerance. -/
def measureSpread (tolerance : ℕ) (cands : List (Candidate A)) (v : Voter A) : ℕ × Bool :=
  let elected := electedPositions cands v
  -- either empty, or a self vote
  if elected.length ≤ 1 then (0, true)
  else
    let stakeUsed := (elected.map (weightAt v)).foldl saturatingAdd 0
    let backedStakes := elected.map (backedAt cands v)
    let backingBackedStake := (elected.filter fun i => 0 < weightAt v i).map (backedAt cands v)
    let difference :=
      if backingBackedStake = [] then v.budget
      else saturatingAdd (backingBackedStake.foldl max 0 - backedStakes.foldl min (backedStakes.headD 0))
        (v.budget - stakeUsed)
    (difference, backingBackedStake ≠ [] ∧ difference < tolerance)

/-- The rest of `balance_voter` up to its normalization: "remove all backings", sort the elected
edges by backed stake, find `last_index`, and "the final update". -/
def fillElected (cands : List (Candidate A)) (v : Voter A) : List (Candidate A) × Voter A :=
  let elected := electedPositions cands v
  let s := elected.foldl removeBacking (cands, v)
  let sorted := elected.insertionSort fun i j => backedAt s.1 s.2 i ≤ backedAt s.1 s.2 j
  let scan := thresholdScan v.budget (sorted.map (backedAt s.1 s.2)) 0 0
  -- `index.saturating_sub(1)` at the first stake that does not pass
  let lastIndex := (scan.2.map (· - 1)).getD (sorted.length - 1)
  let lastStake := backedAt s.1 s.2 (sorted.getD lastIndex 0)
  let waysToSplit := lastIndex + 1
  let excess := saturatingAdd v.budget scan.1 - saturatingMul lastStake waysToSplit
  (sorted.take waysToSplit).foldl (fun s i =>
    giveWeight s i (saturatingAdd (excess / waysToSplit) lastStake - backedAt s.1 s.2 i)) s

/-- `balance_voter`: the voter's new stake distribution over its elected candidates, and the
spread it measured. -/
def balanceVoter (tolerance : ℕ) (cands : List (Candidate A)) (v : Voter A) :
    List (Candidate A) × Voter A × ℕ :=
  let spread := measureSpread tolerance cands v
  if spread.2 then (cands, v, spread.1)
  else
    let s := fillElected cands v
    -- a failed normalization leaves the voter as it is
    match s.2.tryNormalizeElected s.1 with
    | .ok r => (r.1, r.2, spread.1)
    | .error _ => (s.1, s.2, spread.1)

/-! ## The steps of `balance_voter` keep the stakes in step -/

/-- The candidates keep their number and elected flags, and the voter its edges' candidates and
its budget. -/
structure SameGraph (s s' : List (Candidate A) × Voter A) : Prop where
  length_eq : s'.1.length = s.1.length
  elected_eq : ∀ c, isElected s'.1 c = isElected s.1 c
  candidates_eq : s'.2.edges.map (·.candidate) = s.2.edges.map (·.candidate)
  budget_eq : s'.2.budget = s.2.budget

theorem SameGraph.refl (s : List (Candidate A) × Voter A) : SameGraph s s := ⟨rfl, fun _ => rfl, rfl, rfl⟩

theorem SameGraph.trans {s s' s'' : List (Candidate A) × Voter A} (h : SameGraph s s') (h' : SameGraph s' s'') :
    SameGraph s s'' :=
  ⟨h'.length_eq.trans h.length_eq, fun c => (h'.elected_eq c).trans (h.elected_eq c),
    h'.candidates_eq.trans h.candidates_eq, h'.budget_eq.trans h.budget_eq⟩

theorem SameGraph.candidateAt {s s' : List (Candidate A) × Voter A} (h : SameGraph s s') (i : ℕ) :
    candidateAt s'.2 i = candidateAt s.2 i := by
  unfold Npos.candidateAt
  rw [← List.getElem?_map, ← List.getElem?_map, h.candidates_eq]

theorem SameGraph.points {s s' : List (Candidate A) × Voter A} (h : SameGraph s s')
    (hp : ∀ e ∈ s.2.edges, e.candidate < s.1.length) : ∀ e ∈ s'.2.edges, e.candidate < s'.1.length := by
  intro e he
  have hm : e.candidate ∈ s.2.edges.map (·.candidate) := h.candidates_eq ▸ List.mem_map_of_mem he
  obtain ⟨e', he', hce⟩ := List.mem_map.mp hm
  rw [h.length_eq, ← hce]
  exact hp e' he'

/-- The update both loops of `balance_voter` make at an edge keeps the graph. -/
theorem sameGraph_set (s : List (Candidate A) × Voter A) {i : ℕ} {e : Edge A} (hi : s.2.edges[i]? = some e)
    (b w : ℕ) :
    SameGraph s (setBacked s.1 e.candidate b, { s.2 with edges := s.2.edges.set i { e with weight := w } }) :=
  ⟨length_setBacked _ _ _, isElected_setBacked _ _ _, map_candidate_set hi w, rfl⟩

theorem weightAt_set {v : Voter A} {i : ℕ} {e : Edge A} (hi : v.edges[i]? = some e) (w j : ℕ) :
    weightAt { v with edges := v.edges.set i { e with weight := w } } j = if j = i then w else weightAt v j := by
  unfold weightAt
  rw [List.getElem?_set]
  by_cases hj : j = i
  · subst hj
    simp [(List.getElem?_eq_some_iff.mp hi).1]
  · simp [Ne.symm hj, hj]

theorem weightAt_of_getElem? {v : Voter A} {i : ℕ} {e : Edge A} (hi : v.edges[i]? = some e) :
    weightAt v i = e.weight := by
  simp [weightAt, hi]

theorem candidateAt_of_getElem? {v : Voter A} {i : ℕ} {e : Edge A} (hi : v.edges[i]? = some e) :
    candidateAt v i = e.candidate := by
  simp [candidateAt, hi]

/-- A voter whose edges are weightless at every position holds no stake. -/
theorem usedIn_of_weightAt {v : Voter A} (h : ∀ j, weightAt v j = 0) : usedIn v.edges = 0 :=
  usedIn_eq_zero fun e he => by
    obtain ⟨j, hj, rfl⟩ := List.mem_iff_getElem.mp he
    rw [← weightAt_of_getElem? (List.getElem?_eq_getElem hj)]
    exact h j

section Steps

variable {base : ℕ → ℕ}

/-- "remove all backings" at one edge. -/
theorem removeBacking_spec {s : List (Candidate A) × Voter A} (ht : Tracks base s.1 s.2.edges)
    (hp : ∀ e ∈ s.2.edges, e.candidate < s.1.length) (i : ℕ) :
    Tracks base (removeBacking s i).1 (removeBacking s i).2.edges ∧ SameGraph s (removeBacking s i) ∧
      ∀ j, weightAt (removeBacking s i).2 j = if j = i then 0 else weightAt s.2 j := by
  cases hi : s.2.edges[i]? with
  | none =>
    have hs : removeBacking s i = s := by simp [removeBacking, hi]
    rw [hs]
    refine ⟨ht, SameGraph.refl s, fun j => ?_⟩
    split
    · subst j
      simp [weightAt, hi]
    · rfl
  | some e =>
    have hs : removeBacking s i = (setBacked s.1 e.candidate (backedOf s.1 e.candidate - e.weight + 0),
        { s.2 with edges := s.2.edges.set i { e with weight := 0 } }) := by
      simp [removeBacking, hi]
    rw [hs]
    exact ⟨ht.set hi (hp e (List.mem_of_getElem? hi)) 0, sameGraph_set s hi _ 0, weightAt_set hi 0⟩

/-- The loop "remove all backings" over the positions `ps`. -/
theorem foldl_removeBacking_spec (ps : List ℕ) (s : List (Candidate A) × Voter A)
    (ht : Tracks base s.1 s.2.edges) (hp : ∀ e ∈ s.2.edges, e.candidate < s.1.length) :
    Tracks base (ps.foldl removeBacking s).1 (ps.foldl removeBacking s).2.edges ∧
      SameGraph s (ps.foldl removeBacking s) ∧
      ∀ j, weightAt (ps.foldl removeBacking s).2 j = if j ∈ ps then 0 else weightAt s.2 j := by
  induction ps generalizing s with
  | nil => exact ⟨ht, SameGraph.refl s, fun j => by simp⟩
  | cons i ps ih =>
    obtain ⟨ht₁, hg₁, hw₁⟩ := removeBacking_spec ht hp i
    obtain ⟨ht₂, hg₂, hw₂⟩ := ih (removeBacking s i) ht₁ (hg₁.points hp)
    refine ⟨ht₂, hg₁.trans hg₂, fun j => ?_⟩
    rw [List.foldl_cons, hw₂, hw₁]
    by_cases hj : j = i
    · simp [hj]
    · by_cases hjp : j ∈ ps <;> simp [hj, hjp]

/-- "the final update" at one edge, which holds nothing yet: the edge takes what lifts its
candidate to `X`. The backed stake ends at the larger of its own and `X`, so it stays within
`u128`, and the voter pays at most what lifts the other voters' stake to `X`. -/
theorem giveWeight_spec {s : List (Candidate A) × Voter A} (ht : Tracks base s.1 s.2.edges)
    (hp : ∀ e ∈ s.2.edges, e.candidate < s.1.length) (hmax : ∀ c, backedOf s.1 c ≤ extendedBalanceMax)
    {X : ℕ} (hX : X ≤ extendedBalanceMax) {i : ℕ} (hw : weightAt s.2 i = 0) :
    let s' := giveWeight s i (X - backedAt s.1 s.2 i)
    Tracks base s'.1 s'.2.edges ∧ SameGraph s s' ∧ (∀ c, backedOf s'.1 c ≤ extendedBalanceMax) ∧
      usedIn s'.2.edges ≤ usedIn s.2.edges + (X - base (candidateAt s.2 i)) ∧
      ∀ j, j ≠ i → weightAt s'.2 j = weightAt s.2 j := by
  intro s'
  cases hi : s.2.edges[i]? with
  | none =>
    have hs : s' = s := by simp [s', giveWeight, hi]
    rw [hs]
    exact ⟨ht, SameGraph.refl s, hmax, Nat.le_add_right _ _, fun _ _ => rfl⟩
  | some e =>
    have he0 : e.weight = 0 := by rw [← weightAt_of_getElem? hi]; exact hw
    have hc := hp e (List.mem_of_getElem? hi)
    have hbi : backedAt s.1 s.2 i = backedOf s.1 e.candidate := by
      rw [backedAt, candidateAt_of_getElem? hi]
    have hb := hmax e.candidate
    -- the new backed stake is exact: it is the larger of the old one and `X`
    have hsat : saturatingAdd (backedOf s.1 e.candidate) (X - backedOf s.1 e.candidate) =
        backedOf s.1 e.candidate - e.weight + (X - backedOf s.1 e.candidate) := by
      rw [he0, Nat.sub_zero]
      exact saturatingAdd_of_le (by omega)
    have hs : s' = (setBacked s.1 e.candidate (backedOf s.1 e.candidate - e.weight + (X - backedOf s.1 e.candidate)),
        { s.2 with edges := s.2.edges.set i { e with weight := X - backedOf s.1 e.candidate } }) := by
      simp only [s', giveWeight, hi, hbi, hsat]
    have hused := usedIn_set hi (X - backedOf s.1 e.candidate)
    have hbase := ht.base_le_backed hc
    rw [hs]
    refine ⟨ht.set hi hc _, sameGraph_set s hi _ _, fun c => ?_, ?_, fun j hj => ?_⟩
    · rw [backedOf_setBacked _ hc]
      split
      · omega
      · exact hmax c
    · show usedIn (s.2.edges.set i { e with weight := X - backedOf s.1 e.candidate }) ≤ _
      rw [candidateAt_of_getElem? hi]
      omega
    · rw [weightAt_set hi, if_neg hj]

/-- "the final update" over the positions `qs`, each visited once, with the level `X`. -/
theorem foldl_giveWeight_spec {X : ℕ} (hX : X ≤ extendedBalanceMax) (qs : List ℕ)
    (s : List (Candidate A) × Voter A) (ht : Tracks base s.1 s.2.edges)
    (hp : ∀ e ∈ s.2.edges, e.candidate < s.1.length) (hmax : ∀ c, backedOf s.1 c ≤ extendedBalanceMax)
    (hnd : qs.Nodup) (hw : ∀ i ∈ qs, weightAt s.2 i = 0) :
    let s' := qs.foldl (fun s i => giveWeight s i (X - backedAt s.1 s.2 i)) s
    Tracks base s'.1 s'.2.edges ∧ SameGraph s s' ∧
      usedIn s'.2.edges ≤ usedIn s.2.edges + (qs.map fun i => X - base (candidateAt s.2 i)).sum ∧
      ∀ j ∉ qs, weightAt s'.2 j = weightAt s.2 j := by
  induction qs generalizing s with
  | nil => exact ⟨ht, SameGraph.refl s, by simp, fun _ _ => rfl⟩
  | cons i qs ih =>
    obtain ⟨hi, hnd'⟩ := List.nodup_cons.mp hnd
    obtain ⟨ht₁, hg₁, hmax₁, hused₁, hw₁⟩ := giveWeight_spec ht hp hmax hX (hw i List.mem_cons_self)
    obtain ⟨ht₂, hg₂, hused₂, hw₂⟩ := ih _ ht₁ (hg₁.points hp) hmax₁ hnd' fun j hj => by
      rw [hw₁ j (fun h => hi (h ▸ hj))]
      exact hw j (List.mem_cons_of_mem _ hj)
    refine ⟨ht₂, hg₁.trans hg₂, ?_, fun j hj => ?_⟩
    · rw [List.foldl_cons, List.map_cons, List.sum_cons]
      rw [List.map_congr_left fun j _ => by rw [hg₁.candidateAt j]] at hused₂
      omega
    · rw [List.foldl_cons, hw₂ j fun h => hj (List.mem_cons_of_mem _ h)]
      exact hw₁ j fun h => hj (h ▸ List.mem_cons_self)

end Steps

theorem mem_electedPositions {cands : List (Candidate A)} {v : Voter A} {i : ℕ} :
    i ∈ electedPositions cands v ↔ i < v.edges.length ∧ isElected cands (candidateAt v i) = true := by
  simp [electedPositions]

theorem nodup_electedPositions (cands : List (Candidate A)) (v : Voter A) : (electedPositions cands v).Nodup :=
  List.nodup_range.filter _

/-- After "remove all backings" every edge of the voter is weightless, and the other voters alone
back every candidate. -/
theorem Inv.removeAll {cands : List (Candidate A)} {pre post : List (Voter A)} {v : Voter A}
    (h : Inv cands (pre ++ v :: post)) {s : List (Candidate A) × Voter A}
    (hs : s = (electedPositions cands v).foldl removeBacking (cands, v)) :
    Tracks (edgeSupport (pre ++ post)) s.1 s.2.edges ∧ SameGraph (cands, v) s ∧ (∀ j, weightAt s.2 j = 0) ∧
      ∀ c < cands.length, backedOf s.1 c = edgeSupport (pre ++ post) c := by
  subst hs
  have hvi := h.voter v (List.mem_append_right _ List.mem_cons_self)
  obtain ⟨ht, hg, hw⟩ := foldl_removeBacking_spec (electedPositions cands v) (cands, v) h.tracks hvi.points
  -- an edge at a position that is not elected points to an unelected candidate: it held nothing
  have hzero : ∀ j, weightAt ((electedPositions cands v).foldl removeBacking (cands, v)).2 j = 0 := by
    intro j
    rw [hw j]
    split
    · rfl
    · rename_i hj
      cases hj' : v.edges[j]? with
      | none => simp [weightAt, hj']
      | some e =>
        have hjlt := (List.getElem?_eq_some_iff.mp hj').1
        rw [mem_electedPositions, candidateAt_of_getElem? hj'] at hj
        exact (weightAt_of_getElem? hj').trans
          (hvi.unelected e (List.mem_of_getElem? hj') (by simpa [hjlt] using hj))
  refine ⟨ht, hg, hzero, fun c hc => ?_⟩
  rw [ht c (by rw [hg.length_eq]; exact hc)]
  have := supportIn_le_usedIn ((electedPositions cands v).foldl removeBacking (cands, v)).2.edges c
  have := usedIn_of_weightAt hzero
  omega

/-- "the final update" keeps the invariant when the level it fills to costs at most the budget. -/
theorem Inv.giveAll {cands : List (Candidate A)} {pre post : List (Voter A)} {v : Voter A}
    (h : Inv cands (pre ++ v :: post)) {s : List (Candidate A) × Voter A}
    (ht : Tracks (edgeSupport (pre ++ post)) s.1 s.2.edges) (hg : SameGraph (cands, v) s)
    (hzero : ∀ j, weightAt s.2 j = 0) (hmax : ∀ c, backedOf s.1 c ≤ extendedBalanceMax) {X : ℕ}
    (hX : X ≤ extendedBalanceMax) {qs : List ℕ} (hnd : qs.Nodup)
    (hel : ∀ i ∈ qs, isElected cands (candidateAt v i) = true)
    (hsum : (qs.map fun i => X - edgeSupport (pre ++ post) (candidateAt v i)).sum ≤ v.budget) :
    Inv (qs.foldl (fun s i => giveWeight s i (X - backedAt s.1 s.2 i)) s).1
        (pre ++ (qs.foldl (fun s i => giveWeight s i (X - backedAt s.1 s.2 i)) s).2 :: post) ∧
      SameGraph (cands, v) (qs.foldl (fun s i => giveWeight s i (X - backedAt s.1 s.2 i)) s) := by
  have hvi := h.voter v (List.mem_append_right _ List.mem_cons_self)
  obtain ⟨ht', hg', hused, hw'⟩ :=
    foldl_giveWeight_spec hX qs s ht (hg.points hvi.points) hmax hnd fun i _ => hzero i
  have hg'' := hg.trans hg'
  refine ⟨h.replace hg''.length_eq hg''.elected_eq ht' ⟨hg''.points hvi.points, ?_, ?_⟩, hg''⟩
  · -- the edges to unelected candidates are outside `qs`, so they stay weightless
    intro e he hu
    obtain ⟨j, hj, rfl⟩ := List.mem_iff_getElem.mp he
    have hje := List.getElem?_eq_getElem hj
    have hjq : j ∉ qs := fun hq => by
      have hc := hel j hq
      rw [← hg''.candidateAt j, candidateAt_of_getElem? hje, ← hg''.elected_eq] at hc
      rw [hc] at hu
      exact Bool.noConfusion hu
    rw [← weightAt_of_getElem? hje, hw' j hjq, hzero j]
  · -- the voter pays at most what lifts the others' stake to the level
    have hmap : (qs.map fun i => X - edgeSupport (pre ++ post) (candidateAt s.2 i)) =
        qs.map fun i => X - edgeSupport (pre ++ post) (candidateAt v i) :=
      List.map_congr_left fun i _ => by rw [hg.candidateAt i]
    rw [hg''.budget_eq]
    rw [usedIn_of_weightAt hzero, Nat.zero_add, hmap] at hused
    exact le_trans hused hsum

/-- `balance_voter` up to its normalization keeps the invariant. -/
theorem Inv.fillElected {cands : List (Candidate A)} {pre post : List (Voter A)} {v : Voter A}
    (h : Inv cands (pre ++ v :: post))
    (hfit : (v.edges.length + 2) * totalBudget (pre ++ v :: post) ≤ extendedBalanceMax) :
    Inv (fillElected cands v).1 (pre ++ (fillElected cands v).2 :: post) ∧
      SameGraph (cands, v) (fillElected cands v) := by
  have hvi := h.voter v (List.mem_append_right _ List.mem_cons_self)
  have hbase : ∀ c, edgeSupport (pre ++ post) c ≤ totalBudget (pre ++ post) := h.base_le
  rw [totalBudget_append, totalBudget_cons, ← Nat.add_assoc, Nat.add_right_comm,
    ← totalBudget_append] at hfit
  obtain ⟨ht, hg, hzero, hbacked⟩ := h.removeAll rfl
  unfold Npos.fillElected
  dsimp only
  generalize (electedPositions cands v).foldl removeBacking (cands, v) = s at ht hg hzero hbacked ⊢
  -- the stakes the loop sorts by are the other voters' support
  have hkey : ∀ i ∈ electedPositions cands v, backedAt s.1 s.2 i = edgeSupport (pre ++ post) (candidateAt v i) := by
    intro i hi
    obtain ⟨hik, -⟩ := mem_electedPositions.mp hi
    have hc : candidateAt s.2 i = v.edges[i].candidate :=
      (hg.candidateAt i).trans (candidateAt_of_getElem? (List.getElem?_eq_getElem hik))
    rw [backedAt, hc, candidateAt_of_getElem? (List.getElem?_eq_getElem hik),
      hbacked _ (hvi.points _ (List.getElem_mem hik))]
  have hmax : ∀ c, backedOf s.1 c ≤ extendedBalanceMax := by
    intro c
    by_cases hc : c < cands.length
    · rw [hbacked c hc]
      have := hbase c
      have : totalBudget (pre ++ post) ≤ (v.edges.length + 2) * (totalBudget (pre ++ post) + v.budget) :=
        le_trans (Nat.le_add_right _ _) (Nat.le_mul_of_pos_left _ (by omega))
      omega
    · have hl : s.1.length = cands.length := hg.length_eq
      simp [backedOf, List.getElem?_eq_none (show s.1.length ≤ c by omega)]
  -- the elected positions sorted by those stakes
  have htot : Std.Total fun i j : ℕ => backedAt s.1 s.2 i ≤ backedAt s.1 s.2 j := ⟨fun a b => le_total _ _⟩
  have htrans : IsTrans ℕ fun i j : ℕ => backedAt s.1 s.2 i ≤ backedAt s.1 s.2 j := ⟨fun _ _ _ => le_trans⟩
  have hsorted := List.pairwise_insertionSort (fun i j => backedAt s.1 s.2 i ≤ backedAt s.1 s.2 j)
    (electedPositions cands v)
  have hperm := List.perm_insertionSort (fun i j => backedAt s.1 s.2 i ≤ backedAt s.1 s.2 j) (electedPositions cands v)
  generalize (electedPositions cands v).insertionSort (fun i j => backedAt s.1 s.2 i ≤ backedAt s.1 s.2 j) = sorted
    at hperm hsorted ⊢
  generalize hL : ((thresholdScan v.budget (sorted.map (backedAt s.1 s.2)) 0 0).2.map (· - 1)).getD
    (sorted.length - 1) = L
  have hmem : ∀ i ∈ sorted, i ∈ electedPositions cands v := fun i hi => hperm.subset hi
  refine Inv.giveAll h ht hg hzero hmax (Nat.min_le_right _ _) ?_ ?_ ?_
  · exact (hperm.nodup_iff.mpr (nodup_electedPositions cands v)).sublist (List.take_sublist _ _)
  · intro i hi
    exact (mem_electedPositions.mp (hmem i (List.mem_of_mem_take hi))).2
  · -- the water-filling bound, over the sorted stakes
    have hlen : sorted.length ≤ v.edges.length := by
      rw [hperm.length_eq, electedPositions]
      exact le_trans (List.length_filter_le _ _) (le_of_eq List.length_range)
    have hfitW : v.budget + (sorted.length + 1) * totalBudget (pre ++ post) ≤ extendedBalanceMax := by
      have h1 : (sorted.length + 1) * totalBudget (pre ++ post) ≤ (v.edges.length + 2) * totalBudget (pre ++ post) :=
        Nat.mul_le_mul_right _ (by omega)
      have h2 : v.budget ≤ (v.edges.length + 2) * v.budget := Nat.le_mul_of_pos_left _ (by omega)
      rw [Nat.mul_add] at hfit
      omega
    have hw := waterFill_le (backedAt s.1 s.2) sorted 0 v.budget (totalBudget (pre ++ post)) hsorted
      (fun i hi => by rw [hkey i (hmem i hi)]; exact hbase _) hfitW L hL.symm
    refine (congrArg List.sum (List.map_congr_left fun i hi => ?_)).trans_le hw
    rw [hkey i (hmem i (List.mem_of_mem_take hi))]
    rfl
theorem sameGraph_removeBacking (s : List (Candidate A) × Voter A) (i : ℕ) : SameGraph s (removeBacking s i) := by
  cases hi : s.2.edges[i]? with
  | none =>
    have hs : removeBacking s i = s := by simp [removeBacking, hi]
    rw [hs]
    exact SameGraph.refl s
  | some e =>
    have hs : removeBacking s i = (setBacked s.1 e.candidate (backedOf s.1 e.candidate - e.weight),
        { s.2 with edges := s.2.edges.set i { e with weight := 0 } }) := by
      simp [removeBacking, hi]
    rw [hs]
    exact sameGraph_set s hi _ _

theorem sameGraph_giveWeight (s : List (Candidate A) × Voter A) (i w : ℕ) : SameGraph s (giveWeight s i w) := by
  cases hi : s.2.edges[i]? with
  | none =>
    have hs : giveWeight s i w = s := by simp [giveWeight, hi]
    rw [hs]
    exact SameGraph.refl s
  | some e =>
    have hs : giveWeight s i w = (setBacked s.1 e.candidate (saturatingAdd (backedOf s.1 e.candidate) w),
        { s.2 with edges := s.2.edges.set i { e with weight := w } }) := by
      simp [giveWeight, hi]
    rw [hs]
    exact sameGraph_set s hi _ _

theorem sameGraph_foldl {f : List (Candidate A) × Voter A → ℕ → List (Candidate A) × Voter A}
    (hf : ∀ s i, SameGraph s (f s i)) (l : List ℕ) (s : List (Candidate A) × Voter A) : SameGraph s (l.foldl f s) := by
  induction l generalizing s with
  | nil => exact SameGraph.refl s
  | cons i l ih => exact (hf s i).trans (ih (f s i))

theorem sameGraph_fillElected (cands : List (Candidate A)) (v : Voter A) :
    SameGraph (cands, v) (fillElected cands v) :=
  (sameGraph_foldl sameGraph_removeBacking _ _).trans (sameGraph_foldl (fun s i => sameGraph_giveWeight s i _) _ _)

/-- `balance_voter` keeps the invariant, the voter's budget and its number of edges. -/
theorem Inv.balanceVoter {cands : List (Candidate A)} {pre post : List (Voter A)} {v : Voter A}
    (h : Inv cands (pre ++ v :: post))
    (hfit : (v.edges.length + 2) * totalBudget (pre ++ v :: post) ≤ extendedBalanceMax) (tolerance : ℕ) :
    Inv (balanceVoter tolerance cands v).1 (pre ++ (balanceVoter tolerance cands v).2.1 :: post) ∧
      (balanceVoter tolerance cands v).2.1.budget = v.budget ∧
      (balanceVoter tolerance cands v).2.1.edges.length = v.edges.length := by
  have hg := sameGraph_fillElected cands v
  have hb : (Npos.fillElected cands v).2.budget = v.budget := hg.budget_eq
  have hlen : (Npos.fillElected cands v).2.edges.length = v.edges.length := by
    simpa using congrArg List.length hg.candidates_eq
  unfold Npos.balanceVoter
  dsimp only
  split
  · exact ⟨h, rfl, rfl⟩
  · have hf := (h.fillElected hfit).1
    split
    · rename_i r hr
      obtain ⟨hb', hl'⟩ := tryNormalizeWith_shape hr
      refine ⟨hf.tryNormalizeElected ?_ hr, hb'.trans hb, hl'.trans hlen⟩
      rw [totalBudget_append, totalBudget_cons, hb, ← totalBudget_cons, ← totalBudget_append]
      exact le_trans (Nat.mul_le_mul_right _ (by omega)) hfit
    · exact ⟨hf, hb, hlen⟩

/-- When `balance_voter` does not return early and its normalization succeeds, the voter's
elected edges hold exactly its budget. -/
theorem balanceVoter_electedUsed (tolerance : ℕ) (cands : List (Candidate A)) (v : Voter A)
    (hrw : (measureSpread tolerance cands v).2 = false) {r : List (Candidate A) × Voter A}
    (hok : (fillElected cands v).2.tryNormalizeElected (fillElected cands v).1 = .ok r) :
    balanceVoter tolerance cands v = (r.1, r.2, (measureSpread tolerance cands v).1) ∧
      usedIn (r.2.edges.filter (isElected r.1 ·.candidate)) = v.budget := by
  have hg := sameGraph_fillElected cands v
  refine ⟨by simp [balanceVoter, hrw, hok], ?_⟩
  rw [← hg.budget_eq]
  refine electedUsed_tryNormalizeElected hok ?_
  -- the voter has at least two elected edges, and the loops keep them
  have hpos : 0 < (electedPositions cands v).length := by
    unfold measureSpread at hrw
    dsimp only at hrw
    split at hrw
    · cases hrw
    · omega
  obtain ⟨i, hi⟩ := List.exists_mem_of_length_pos hpos
  obtain ⟨hik, hel⟩ := mem_electedPositions.mp hi
  have hik' : i < (fillElected cands v).2.edges.length := by
    have hlen : (fillElected cands v).2.edges.length = v.edges.length := by
      simpa using congrArg List.length hg.candidates_eq
    omega
  intro hnil
  have hmem : (fillElected cands v).2.edges[i] ∈ (fillElected cands v).2.edges.filter
      (isElected (fillElected cands v).1 ·.candidate) := by
    refine List.mem_filter.mpr ⟨List.getElem_mem hik', ?_⟩
    rw [← candidateAt_of_getElem? (List.getElem?_eq_getElem hik'), hg.elected_eq, hg.candidateAt]
    exact hel
  rw [hnil] at hmem
  cases hmem

/-- One iteration of `balance`: every voter in order, and the largest spread measured. -/
def balanceRound (tolerance : ℕ) (cands : List (Candidate A)) (voters : List (Voter A)) :
    List (Candidate A) × List (Voter A) × ℕ :=
  voters.foldl (fun acc v =>
    let r := balanceVoter tolerance acc.1 v
    (r.1, acc.2.1 ++ [r.2.1], max acc.2.2 r.2.2)) (cands, [], 0)

/-- The loop of `balance` after `iter` iterations. It stops once an iteration's spread is within
the tolerance or `iterations` are done, so `iterations` is enough fuel. -/
def balanceLoop (config : BalancingConfig) :
    ℕ → ℕ → List (Candidate A) × List (Voter A) → List (Candidate A) × List (Voter A) × ℕ
  | 0, iter, s => (s.1, s.2, iter)
  | fuel + 1, iter, s =>
    let r := balanceRound config.tolerance s.1 s.2
    if r.2.2 ≤ config.tolerance ∨ config.iterations ≤ iter + 1 then (r.1, r.2.1, iter + 1)
    else balanceLoop config fuel (iter + 1) (r.1, r.2.1)

/-- `balance`: the balanced candidates and voters, and the number of iterations done. -/
def balance (config : BalancingConfig) (cands : List (Candidate A)) (voters : List (Voter A)) :
    List (Candidate A) × List (Voter A) × ℕ :=
  if config.iterations = 0 then (cands, voters, 0)
  else balanceLoop config config.iterations 0 (cands, voters)

/-! ## `balance` keeps the invariant -/

/-- The loop of one iteration of `balance`, from the voters already balanced. -/
theorem inv_foldl_balanceVoter (tolerance : ℕ) (rest : List (Voter A)) (acc : List (Candidate A) × List (Voter A) × ℕ)
    (h : Inv acc.1 (acc.2.1 ++ rest)) (hfit : StakesFit (acc.2.1 ++ rest)) :
    Inv (rest.foldl (fun acc v =>
        let r := balanceVoter tolerance acc.1 v
        (r.1, acc.2.1 ++ [r.2.1], max acc.2.2 r.2.2)) acc).1
      (rest.foldl (fun acc v =>
        let r := balanceVoter tolerance acc.1 v
        (r.1, acc.2.1 ++ [r.2.1], max acc.2.2 r.2.2)) acc).2.1 ∧
    StakesFit (rest.foldl (fun acc v =>
        let r := balanceVoter tolerance acc.1 v
        (r.1, acc.2.1 ++ [r.2.1], max acc.2.2 r.2.2)) acc).2.1 := by
  induction rest generalizing acc with
  | nil =>
    rw [List.append_nil] at h hfit
    exact ⟨h, hfit⟩
  | cons v rest ih =>
    -- the voter balanced now moves to the balanced ones
    obtain ⟨h', hb, hl⟩ := h.balanceVoter (hfit v (List.mem_append_right _ List.mem_cons_self)) tolerance
    rw [List.foldl_cons]
    exact ih _ (by simpa using h') (by simpa using hfit.replace hb hl)

theorem Inv.balanceRound {cands : List (Candidate A)} {voters : List (Voter A)} (h : Inv cands voters)
    (hfit : StakesFit voters) (tolerance : ℕ) :
    Inv (Npos.balanceRound tolerance cands voters).1 (Npos.balanceRound tolerance cands voters).2.1 ∧
      StakesFit (Npos.balanceRound tolerance cands voters).2.1 :=
  inv_foldl_balanceVoter tolerance voters (cands, [], 0) (by simpa using h) (by simpa using hfit)

theorem Inv.balanceLoop (config : BalancingConfig) (fuel iter : ℕ) (s : List (Candidate A) × List (Voter A))
    (h : Inv s.1 s.2) (hfit : StakesFit s.2) :
    Inv (Npos.balanceLoop config fuel iter s).1 (Npos.balanceLoop config fuel iter s).2.1 ∧
      StakesFit (Npos.balanceLoop config fuel iter s).2.1 := by
  induction fuel generalizing iter s with
  | zero => exact ⟨h, hfit⟩
  | succ fuel ih =>
    obtain ⟨h', hfit'⟩ := h.balanceRound hfit config.tolerance
    rw [Npos.balanceLoop]
    split
    · exact ⟨h', hfit'⟩
    · exact ih (iter + 1) _ h' hfit'

/-- `balance` keeps the invariant. -/
theorem Inv.balance (config : BalancingConfig) {cands : List (Candidate A)} {voters : List (Voter A)}
    (h : Inv cands voters) (hfit : StakesFit voters) :
    Inv (Npos.balance config cands voters).1 (Npos.balance config cands voters).2.1 := by
  unfold Npos.balance
  split
  · exact h
  · exact (h.balanceLoop config config.iterations 0 (cands, voters) hfit).1

end PolkadotSdk.Npos
