import PolkadotSdk.NposElection

/-!
# The invariant of the election graph

A candidate's backed stake is the stake of the edges pointing to it, an edge to an unelected
candidate holds nothing, and no voter puts more than its budget on its edges. An operation on one
voter keeps the invariant when it keeps the backed stakes in step with that voter's edges over
what the other voters give (`Tracks`): `Inv.replace` says so once, and the normalizations of a
voter are the first operations shown to do it.
-/

namespace PolkadotSdk.Npos

open PerThings Normalize

variable {A : Type}

/-! ## Stake on edges -/

/-- The stake the edges `es` give candidate `c`. -/
def supportIn (es : List (Edge A)) (c : ℕ) : ℕ := ((es.filter (·.candidate = c)).map (·.weight)).sum

/-- The stake the edges `es` hold. -/
def usedIn (es : List (Edge A)) : ℕ := (es.map (·.weight)).sum

/-- The stake all voters' edges give candidate `c`. -/
def edgeSupport (voters : List (Voter A)) (c : ℕ) : ℕ := (voters.map (supportIn ·.edges c)).sum

/-- The voters' budgets together. -/
def totalBudget (voters : List (Voter A)) : ℕ := (voters.map (·.budget)).sum

@[simp] theorem supportIn_nil (c : ℕ) : supportIn ([] : List (Edge A)) c = 0 := rfl

@[simp] theorem supportIn_cons (e : Edge A) (es : List (Edge A)) (c : ℕ) :
    supportIn (e :: es) c = (if e.candidate = c then e.weight else 0) + supportIn es c := by
  by_cases h : e.candidate = c <;> simp [supportIn, h]

@[simp] theorem usedIn_nil : usedIn ([] : List (Edge A)) = 0 := rfl

@[simp] theorem usedIn_cons (e : Edge A) (es : List (Edge A)) : usedIn (e :: es) = e.weight + usedIn es := by
  simp [usedIn]

@[simp] theorem edgeSupport_nil (c : ℕ) : edgeSupport ([] : List (Voter A)) c = 0 := rfl

@[simp] theorem edgeSupport_cons (v : Voter A) (voters : List (Voter A)) (c : ℕ) :
    edgeSupport (v :: voters) c = supportIn v.edges c + edgeSupport voters c := by
  simp [edgeSupport]

@[simp] theorem edgeSupport_append (pre post : List (Voter A)) (c : ℕ) :
    edgeSupport (pre ++ post) c = edgeSupport pre c + edgeSupport post c := by
  simp [edgeSupport]

@[simp] theorem totalBudget_cons (v : Voter A) (voters : List (Voter A)) :
    totalBudget (v :: voters) = v.budget + totalBudget voters := by
  simp [totalBudget]

@[simp] theorem totalBudget_append (pre post : List (Voter A)) :
    totalBudget (pre ++ post) = totalBudget pre + totalBudget post := by
  simp [totalBudget]

theorem supportIn_le_usedIn (es : List (Edge A)) (c : ℕ) : supportIn es c ≤ usedIn es := by
  induction es with
  | nil => exact Nat.le_refl 0
  | cons e es ih =>
    rw [supportIn_cons, usedIn_cons]
    split <;> omega

theorem weight_le_supportIn {es : List (Edge A)} {e : Edge A} (he : e ∈ es) :
    e.weight ≤ supportIn es e.candidate := by
  induction es with
  | nil => cases he
  | cons e' es ih =>
    rw [supportIn_cons]
    rcases List.mem_cons.mp he with rfl | he
    · simp
    · have := ih he
      split <;> omega

theorem usedIn_eq_zero {es : List (Edge A)} (h : ∀ e ∈ es, e.weight = 0) : usedIn es = 0 := by
  induction es with
  | nil => rfl
  | cons e es ih =>
    rw [usedIn_cons, h e List.mem_cons_self, ih fun e' he' => h e' (List.mem_cons_of_mem _ he')]

theorem supportIn_eq_zero {es : List (Edge A)} {c : ℕ} (h : ∀ e ∈ es, e.candidate = c → e.weight = 0) :
    supportIn es c = 0 := by
  induction es with
  | nil => rfl
  | cons e es ih =>
    rw [supportIn_cons, ih fun e' he' => h e' (List.mem_cons_of_mem _ he')]
    split
    · rename_i hc
      rw [h e List.mem_cons_self hc]
    · rfl

theorem edgeSupport_eq_zero {voters : List (Voter A)} {c : ℕ}
    (h : ∀ v ∈ voters, ∀ e ∈ v.edges, e.candidate = c → e.weight = 0) : edgeSupport voters c = 0 := by
  induction voters with
  | nil => rfl
  | cons v voters ih =>
    rw [edgeSupport_cons, supportIn_eq_zero (h v List.mem_cons_self),
      ih fun u hu => h u (List.mem_cons_of_mem _ hu)]

/-- The edges' stake split by any test on the edges. -/
theorem usedIn_filter_add (p : Edge A → Bool) (es : List (Edge A)) :
    usedIn (es.filter p) + usedIn (es.filter fun e => !p e) = usedIn es := by
  induction es with
  | nil => rfl
  | cons e es ih =>
    cases hp : p e <;> simp [hp] <;> omega

/-- Dropping the weightless edges changes no candidate's support. -/
theorem supportIn_filter_pos (es : List (Edge A)) (c : ℕ) :
    supportIn (es.filter fun e => 0 < e.weight) c = supportIn es c := by
  induction es with
  | nil => rfl
  | cons e es ih =>
    by_cases hw : 0 < e.weight
    · rw [List.filter_cons_of_pos (by simpa using hw), supportIn_cons, supportIn_cons, ih]
    · rw [List.filter_cons_of_neg (by simpa using hw), supportIn_cons, ih]
      split <;> omega

theorem usedIn_filter_le (p : Edge A → Bool) (es : List (Edge A)) : usedIn (es.filter p) ≤ usedIn es := by
  have := usedIn_filter_add p es
  omega

/-- Setting the weight of the edge at `i` moves the support of its candidate by the difference
of the weights, and no other. -/
theorem supportIn_set {es : List (Edge A)} {i : ℕ} {e : Edge A} (hi : es[i]? = some e) (w c : ℕ) :
    supportIn (es.set i { e with weight := w }) c + (if e.candidate = c then e.weight else 0) =
      supportIn es c + (if e.candidate = c then w else 0) := by
  induction es generalizing i with
  | nil => simp at hi
  | cons e' es ih =>
    cases i with
    | zero =>
      simp only [List.getElem?_cons_zero, Option.some.injEq] at hi
      subst hi
      rw [List.set_cons_zero, supportIn_cons, supportIn_cons]
      dsimp only
      split <;> omega
    | succ i =>
      have := ih (by simpa using hi)
      rw [List.set_cons_succ, supportIn_cons, supportIn_cons]
      omega

theorem usedIn_set {es : List (Edge A)} {i : ℕ} {e : Edge A} (hi : es[i]? = some e) (w : ℕ) :
    usedIn (es.set i { e with weight := w }) + e.weight = usedIn es + w := by
  induction es generalizing i with
  | nil => simp at hi
  | cons e' es ih =>
    cases i with
    | zero =>
      simp only [List.getElem?_cons_zero, Option.some.injEq] at hi
      subst hi
      rw [List.set_cons_zero, usedIn_cons, usedIn_cons]
      dsimp only
      omega
    | succ i =>
      have := ih (by simpa using hi)
      rw [List.set_cons_succ, usedIn_cons, usedIn_cons]
      omega

theorem map_candidate_set {es : List (Edge A)} {i : ℕ} {e : Edge A} (hi : es[i]? = some e) (w : ℕ) :
    (es.set i { e with weight := w }).map (·.candidate) = es.map (·.candidate) := by
  induction es generalizing i with
  | nil => simp at hi
  | cons e' es ih =>
    cases i with
    | zero =>
      simp only [List.getElem?_cons_zero, Option.some.injEq] at hi
      subst hi
      rfl
    | succ i =>
      rw [List.set_cons_succ, List.map_cons, List.map_cons, ih (by simpa using hi)]

/-! ## The invariant -/

/-- What the invariant asks of one voter: its edges point to candidates (the index model's
counterpart of a live `Rc`), those to unelected candidates hold nothing, and together they hold
at most its budget. -/
structure VoterInv (cands : List (Candidate A)) (v : Voter A) : Prop where
  points : ∀ e ∈ v.edges, e.candidate < cands.length
  unelected : ∀ e ∈ v.edges, isElected cands e.candidate = false → e.weight = 0
  withinBudget : usedIn v.edges ≤ v.budget

/-- The invariant of the election graph: every backed stake is the stake of the edges to the
candidate, and every voter keeps `VoterInv`. -/
structure Inv (cands : List (Candidate A)) (voters : List (Voter A)) : Prop where
  backed : ∀ c < cands.length, backedOf cands c = edgeSupport voters c
  voter : ∀ v ∈ voters, VoterInv cands v

instance (cands : List (Candidate A)) (v : Voter A) : Decidable (VoterInv cands v) :=
  decidable_of_iff ((∀ e ∈ v.edges, e.candidate < cands.length) ∧
      (∀ e ∈ v.edges, isElected cands e.candidate = false → e.weight = 0) ∧ usedIn v.edges ≤ v.budget)
    ⟨fun h => ⟨h.1, h.2.1, h.2.2⟩, fun h => ⟨h.1, h.2, h.3⟩⟩

instance (cands : List (Candidate A)) (voters : List (Voter A)) : Decidable (Inv cands voters) :=
  decidable_of_iff ((∀ c < cands.length, backedOf cands c = edgeSupport voters c) ∧
      ∀ v ∈ voters, VoterInv cands v)
    ⟨fun h => ⟨h.1, h.2⟩, fun h => ⟨h.1, h.2⟩⟩

/-- The stake sums of the methods fit in `u128`: a voter with `k` edges sums up to `k` backed
stakes, each at most the total budget, and adds its budget and the stake it moves. -/
def StakesFit (voters : List (Voter A)) : Prop :=
  ∀ v ∈ voters, (v.edges.length + 2) * totalBudget voters ≤ extendedBalanceMax

instance (voters : List (Voter A)) : Decidable (StakesFit voters) :=
  inferInstanceAs (Decidable (∀ v ∈ voters, _))

theorem VoterInv.congr {cands cands' : List (Candidate A)} {v : Voter A} (h : VoterInv cands v)
    (hlen : cands'.length = cands.length) (hel : ∀ c, isElected cands' c = isElected cands c) :
    VoterInv cands' v :=
  ⟨fun e he => hlen ▸ h.points e he, fun e he hu => h.unelected e he (hel _ ▸ hu), h.withinBudget⟩

theorem edgeSupport_le_totalBudget {voters : List (Voter A)} (h : ∀ v ∈ voters, usedIn v.edges ≤ v.budget)
    (c : ℕ) : edgeSupport voters c ≤ totalBudget voters := by
  induction voters with
  | nil => exact Nat.le_refl 0
  | cons v voters ih =>
    have hv := h v List.mem_cons_self
    have hrest := ih fun u hu => h u (List.mem_cons_of_mem _ hu)
    have hsup := supportIn_le_usedIn v.edges c
    rw [edgeSupport_cons, totalBudget_cons]
    omega

theorem StakesFit.two_mul {voters : List (Voter A)} (h : StakesFit voters) {v : Voter A} (hv : v ∈ voters) :
    2 * totalBudget voters ≤ extendedBalanceMax :=
  le_trans (Nat.mul_le_mul_right _ (by omega)) (h v hv)

theorem StakesFit.totalBudget_le {voters : List (Voter A)} (h : StakesFit voters) :
    totalBudget voters ≤ extendedBalanceMax := by
  cases voters with
  | nil => exact Nat.zero_le _
  | cons v voters =>
    have := h.two_mul List.mem_cons_self
    omega

/-! ## One voter against the others -/

/-- The backed stakes are `base` and what the edges `es` give. -/
def Tracks (base : ℕ → ℕ) (cands : List (Candidate A)) (es : List (Edge A)) : Prop :=
  ∀ c < cands.length, backedOf cands c = base c + supportIn es c

theorem tracks_cons {base : ℕ → ℕ} {cands : List (Candidate A)} {e : Edge A} {es : List (Edge A)} :
    Tracks base cands (e :: es) ↔
      Tracks (fun c => base c + if e.candidate = c then e.weight else 0) cands es := by
  simp only [Tracks, supportIn_cons, Nat.add_assoc]

/-- Setting the weight of an edge and moving its candidate's backed stake by the difference keeps
the stakes in step: the update every operation on a voter is made of. -/
theorem Tracks.set {base : ℕ → ℕ} {cands : List (Candidate A)} {es : List (Edge A)} (h : Tracks base cands es)
    {i : ℕ} {e : Edge A} (hi : es[i]? = some e) (hc : e.candidate < cands.length) (w : ℕ) :
    Tracks base (setBacked cands e.candidate (backedOf cands e.candidate - e.weight + w))
      (es.set i { e with weight := w }) := by
  intro c hc'
  rw [length_setBacked] at hc'
  have hset := supportIn_set hi w c
  have hle := weight_le_supportIn (List.mem_of_getElem? hi)
  have hb := h e.candidate hc
  rw [backedOf_setBacked cands hc]
  by_cases hce : c = e.candidate
  · subst hce
    simp only [if_true] at hset ⊢
    omega
  · have hec : ¬ e.candidate = c := Ne.symm hce
    simp only [if_neg hce, if_neg hec] at hset ⊢
    rw [h c hc']
    omega

theorem Tracks.base_le_backed {base : ℕ → ℕ} {cands : List (Candidate A)} {es : List (Edge A)}
    (h : Tracks base cands es) {c : ℕ} (hc : c < cands.length) : base c ≤ backedOf cands c := by
  rw [h c hc]
  omega

theorem supportIn_append (es es' : List (Edge A)) (c : ℕ) :
    supportIn (es ++ es') c = supportIn es c + supportIn es' c := by
  simp [supportIn]

/-- Adding an edge and its weight to its candidate's backed stake keeps the stakes in step. -/
theorem Tracks.push {base : ℕ → ℕ} {cands : List (Candidate A)} {es : List (Edge A)} (h : Tracks base cands es)
    {e : Edge A} (hc : e.candidate < cands.length) :
    Tracks base (setBacked cands e.candidate (backedOf cands e.candidate + e.weight)) (es ++ [e]) := by
  intro c hc'
  rw [length_setBacked] at hc'
  rw [backedOf_setBacked cands hc, supportIn_append, supportIn_cons, supportIn_nil]
  by_cases hce : c = e.candidate
  · subst hce
    rw [if_pos rfl, if_pos rfl, h _ hc]
    omega
  · rw [if_neg hce, if_neg (Ne.symm hce), h c hc']
    omega

/-- Inside the invariant, a voter's edges track the stake of the other voters. -/
theorem Inv.tracks {cands : List (Candidate A)} {pre post : List (Voter A)} {v : Voter A}
    (h : Inv cands (pre ++ v :: post)) : Tracks (edgeSupport (pre ++ post)) cands v.edges := by
  intro c hc
  rw [h.backed c hc, edgeSupport_append, edgeSupport_cons, edgeSupport_append]
  omega

/-- The other voters give a candidate at most their budgets. -/
theorem Inv.base_le {cands : List (Candidate A)} {pre post : List (Voter A)} {v : Voter A}
    (h : Inv cands (pre ++ v :: post)) (c : ℕ) :
    edgeSupport (pre ++ post) c ≤ totalBudget (pre ++ post) :=
  edgeSupport_le_totalBudget (fun u hu => (h.voter u (by
    rcases List.mem_append.mp hu with hu | hu
    · exact List.mem_append_left _ hu
    · exact List.mem_append_right _ (List.mem_cons_of_mem _ hu))).withinBudget) c

/-- An operation on one voter keeps the invariant when it keeps the candidates and their elected
flags, keeps the backed stakes in step with the voter's new edges, and leaves the voter within
`VoterInv`. -/
theorem Inv.replace {cands cands' : List (Candidate A)} {pre post : List (Voter A)} {v v' : Voter A}
    (h : Inv cands (pre ++ v :: post)) (hlen : cands'.length = cands.length)
    (hel : ∀ c, isElected cands' c = isElected cands c)
    (ht : Tracks (edgeSupport (pre ++ post)) cands' v'.edges) (hv : VoterInv cands' v') :
    Inv cands' (pre ++ v' :: post) := by
  refine ⟨fun c hc => ?_, fun u hu => ?_⟩
  · rw [ht c hc, edgeSupport_append, edgeSupport_append, edgeSupport_cons]
    omega
  · rcases List.mem_append.mp hu with hu | hu
    · exact (h.voter u (List.mem_append_left _ hu)).congr hlen hel
    · rcases List.mem_cons.mp hu with rfl | hu
      · exact hv
      · exact (h.voter u (List.mem_append_right _ (List.mem_cons_of_mem _ hu))).congr hlen hel

/-! ## The normalization loop -/

section Reweight

variable (sel : ℕ → Bool)

theorem reweight_of_not_sel {e : Edge A} (hs : sel e.candidate = false) (es : List (Edge A)) (ws : List ℕ)
    (cands : List (Candidate A)) :
    reweight sel (e :: es) ws cands = (e :: (reweight sel es ws cands).1, (reweight sel es ws cands).2) := by
  simp [reweight, hs]

theorem reweight_of_sel {e : Edge A} (hs : sel e.candidate = true) (es : List (Edge A)) (w : ℕ) (ws : List ℕ)
    (cands : List (Candidate A)) :
    reweight sel (e :: es) (w :: ws) cands =
      let cands' := setBacked cands e.candidate (saturatingAdd (backedOf cands e.candidate - e.weight) w)
      ({ e with weight := w } :: (reweight sel es ws cands').1, (reweight sel es ws cands').2) := by
  simp [reweight, hs]

theorem reweight_of_sel_nil {e : Edge A} (hs : sel e.candidate = true) (es : List (Edge A))
    (cands : List (Candidate A)) : reweight sel (e :: es) [] cands = (e :: es, cands) := by
  simp [reweight, hs]

@[simp] theorem length_reweight (es : List (Edge A)) (ws : List ℕ) (cands : List (Candidate A)) :
    (reweight sel es ws cands).2.length = cands.length := by
  induction es generalizing ws cands with
  | nil => rfl
  | cons e es ih =>
    cases hs : sel e.candidate
    · rw [reweight_of_not_sel sel hs, ih]
    · cases ws with
      | nil => rw [reweight_of_sel_nil sel hs]
      | cons w ws => rw [reweight_of_sel sel hs, ih, length_setBacked]

@[simp] theorem isElected_reweight (es : List (Edge A)) (ws : List ℕ) (cands : List (Candidate A)) (c : ℕ) :
    isElected (reweight sel es ws cands).2 c = isElected cands c := by
  induction es generalizing ws cands with
  | nil => rfl
  | cons e es ih =>
    cases hs : sel e.candidate
    · rw [reweight_of_not_sel sel hs, ih]
    · cases ws with
      | nil => rw [reweight_of_sel_nil sel hs]
      | cons w ws => rw [reweight_of_sel sel hs, ih, isElected_setBacked]

theorem map_candidate_reweight (es : List (Edge A)) (ws : List ℕ) (cands : List (Candidate A)) :
    (reweight sel es ws cands).1.map (·.candidate) = es.map (·.candidate) := by
  induction es generalizing ws cands with
  | nil => rfl
  | cons e es ih =>
    cases hs : sel e.candidate
    · rw [reweight_of_not_sel sel hs, List.map_cons, List.map_cons, ih]
    · cases ws with
      | nil => rw [reweight_of_sel_nil sel hs]
      | cons w ws => rw [reweight_of_sel sel hs, List.map_cons, List.map_cons, ih]

/-- The loop leaves the edges it does not pick as they were. -/
theorem filter_not_sel_reweight (es : List (Edge A)) (ws : List ℕ) (cands : List (Candidate A)) :
    (reweight sel es ws cands).1.filter (fun e => !sel e.candidate) = es.filter fun e => !sel e.candidate := by
  induction es generalizing ws cands with
  | nil => rfl
  | cons e es ih =>
    cases hs : sel e.candidate
    · rw [reweight_of_not_sel sel hs, List.filter_cons_of_pos (by simp [hs]),
        List.filter_cons_of_pos (by simp [hs]), ih]
    · cases ws with
      | nil => rw [reweight_of_sel_nil sel hs]
      | cons w ws =>
        rw [reweight_of_sel sel hs, List.filter_cons_of_neg (by simp [hs]),
          List.filter_cons_of_neg (by simp [hs]), ih]

/-- With one weight for each edge it picks, the loop puts exactly the weights on those edges. -/
theorem usedIn_filter_sel_reweight (es : List (Edge A)) (ws : List ℕ) (cands : List (Candidate A))
    (hlen : ws.length = (es.filter (sel ·.candidate)).length) :
    usedIn ((reweight sel es ws cands).1.filter (sel ·.candidate)) = ws.sum := by
  induction es generalizing ws cands with
  | nil =>
    simp only [List.filter_nil, List.length_nil, List.length_eq_zero_iff] at hlen
    subst hlen
    rfl
  | cons e es ih =>
    cases hs : sel e.candidate
    · rw [List.filter_cons_of_neg (by simp [hs])] at hlen
      rw [reweight_of_not_sel sel hs, List.filter_cons_of_neg (by simp [hs]), ih ws cands hlen]
    · rw [List.filter_cons_of_pos (by simp [hs])] at hlen
      cases ws with
      | nil => simp at hlen
      | cons w ws =>
        rw [reweight_of_sel sel hs]
        dsimp only
        rw [List.filter_cons_of_pos (by simpa using hs), usedIn_cons, List.sum_cons,
          ih ws _ (by simpa using hlen)]

/-- The loop keeps the backed stakes in step with the edges, as long as no sum saturates. -/
theorem reweight_tracks (es : List (Edge A)) (ws : List ℕ) (cands : List (Candidate A)) (base : ℕ → ℕ)
    (ht : Tracks base cands es) (hp : ∀ e ∈ es, e.candidate < cands.length)
    (hfit : ∀ c, base c + supportIn es c + ws.sum ≤ extendedBalanceMax) :
    Tracks base (reweight sel es ws cands).2 (reweight sel es ws cands).1 := by
  induction es generalizing ws cands base with
  | nil => exact ht
  | cons e es ih =>
    have hp' : ∀ e' ∈ es, e'.candidate < cands.length := fun e' he' => hp e' (List.mem_cons_of_mem _ he')
    cases hs : sel e.candidate
    · -- an edge the loop skips joins the base
      rw [reweight_of_not_sel sel hs]
      refine tracks_cons.mpr (ih ws cands _ (tracks_cons.mp ht) hp' fun c => ?_)
      have := hfit c
      rw [supportIn_cons] at this
      omega
    · cases ws with
      | nil => rw [reweight_of_sel_nil sel hs]; exact ht
      | cons w ws =>
        rw [reweight_of_sel sel hs]
        have hc := hp e List.mem_cons_self
        have hle := weight_le_supportIn (List.mem_cons_self (a := e) (l := es))
        have hb := ht e.candidate hc
        have hfe := hfit e.candidate
        rw [List.sum_cons] at hfe
        -- the new stake is exact: the base, the rest of the support and the new weight fit
        have hsat : saturatingAdd (backedOf cands e.candidate - e.weight) w =
            backedOf cands e.candidate - e.weight + w :=
          saturatingAdd_of_le (by omega)
        have hset := ht.set (i := 0) (by simp) hc w
        rw [List.set_cons_zero, ← hsat] at hset
        refine tracks_cons.mpr (ih ws _ _ (tracks_cons.mp hset) (fun e' he' => by simpa using hp' e' he')
          fun c => ?_)
        have := hfit c
        rw [supportIn_cons, List.sum_cons] at this
        simp only
        split <;> omega

end Reweight

/-! ## Normalizing a voter -/

theorem tryNormalizeWith_eq_ok {sel : ℕ → Bool} {cands : List (Candidate A)} {v : Voter A}
    {r : List (Candidate A) × Voter A} (h : v.tryNormalizeWith sel cands = .ok r) :
    ∃ ws, normalize extendedBalanceMax ((v.edges.filter (sel ·.candidate)).map (·.weight)) v.budget = .ok ws ∧
      r = ((reweight sel v.edges ws cands).2, { v with edges := (reweight sel v.edges ws cands).1 }) := by
  unfold Voter.tryNormalizeWith at h
  split at h
  · cases h
  · rename_i ws hws
    cases h
    exact ⟨ws, hws, rfl⟩

/-- The normalized weights: one for each picked edge, summing to the budget when there is one. -/
theorem normalize_weights {es : List (Edge A)} {p : Edge A → Bool} {budget : ℕ} {ws : List ℕ}
    (h : normalize extendedBalanceMax ((es.filter p).map (·.weight)) budget = .ok ws) :
    ws.length = (es.filter p).length ∧ ws.sum ≤ budget := by
  obtain ⟨-, -, hlen, hsum⟩ := normalize_eq_ok h
  rw [List.length_map] at hlen
  refine ⟨hlen, ?_⟩
  by_cases hne : (es.filter p).map (·.weight) = []
  · rw [List.map_eq_nil_iff] at hne
    rw [hne, List.length_nil, List.length_eq_zero_iff] at hlen
    simp [hlen]
  · exact (hsum hne).le

/-- `try_normalize_elected` keeps the invariant. -/
theorem Inv.tryNormalizeElected {cands : List (Candidate A)} {pre post : List (Voter A)} {v : Voter A}
    {r : List (Candidate A) × Voter A} (h : Inv cands (pre ++ v :: post))
    (hfit : 2 * totalBudget (pre ++ v :: post) ≤ extendedBalanceMax)
    (hok : v.tryNormalizeElected cands = .ok r) : Inv r.1 (pre ++ r.2 :: post) := by
  obtain ⟨ws, hn, rfl⟩ := tryNormalizeWith_eq_ok hok
  obtain ⟨hwlen, hws⟩ := normalize_weights hn
  have hvi := h.voter v (List.mem_append_right _ List.mem_cons_self)
  have hbase := h.base_le
  have hused := hvi.withinBudget
  rw [totalBudget_append, totalBudget_cons] at hfit
  rw [totalBudget_append] at hbase
  have htr := reweight_tracks (isElected cands) v.edges ws cands _ h.tracks hvi.points fun c => by
    have := hbase c
    have := supportIn_le_usedIn v.edges c
    omega
  refine h.replace (length_reweight _ _ _ _) (isElected_reweight _ _ _ _) htr ⟨?_, ?_, ?_⟩
  · intro e he
    have hm : e.candidate ∈ v.edges.map (·.candidate) := by
      rw [← map_candidate_reweight (isElected cands) v.edges ws cands]
      exact List.mem_map_of_mem he
    obtain ⟨e', he', hce⟩ := List.mem_map.mp hm
    rw [length_reweight, ← hce]
    exact hvi.points e' he'
  · intro e he hu
    rw [isElected_reweight] at hu
    -- an edge to an unelected candidate is one the loop does not pick
    have hmem : e ∈ v.edges.filter fun e => !isElected cands e.candidate := by
      rw [← filter_not_sel_reweight (isElected cands) v.edges ws cands]
      exact List.mem_filter.mpr ⟨he, by simp [hu]⟩
    exact hvi.unelected e (List.mem_filter.mp hmem).1 hu
  · have hsplit := usedIn_filter_add (fun e => isElected cands e.candidate) (reweight (isElected cands) v.edges ws cands).1
    rw [usedIn_filter_sel_reweight _ _ _ _ hwlen, filter_not_sel_reweight,
      usedIn_eq_zero fun e he => hvi.unelected e (List.mem_filter.mp he).1 (by simpa using (List.mem_filter.mp he).2)] at hsplit
    show usedIn (reweight (isElected cands) v.edges ws cands).1 ≤ v.budget
    omega

/-- A successful `try_normalize_elected` puts exactly the budget on the elected edges, when there
is one. -/
theorem electedUsed_tryNormalizeElected {cands : List (Candidate A)} {v : Voter A}
    {r : List (Candidate A) × Voter A} (hok : v.tryNormalizeElected cands = .ok r)
    (hne : v.edges.filter (isElected cands ·.candidate) ≠ []) :
    usedIn (r.2.edges.filter (isElected r.1 ·.candidate)) = v.budget := by
  obtain ⟨ws, hn, rfl⟩ := tryNormalizeWith_eq_ok hok
  obtain ⟨-, -, hlen, hsum⟩ := normalize_eq_ok hn
  rw [List.length_map] at hlen
  simp only [isElected_reweight]
  rw [usedIn_filter_sel_reweight _ _ _ _ hlen]
  exact hsum (by simpa using hne)

/-- A successful normalization keeps the voter's budget and number of edges. -/
theorem tryNormalizeWith_shape {sel : ℕ → Bool} {cands : List (Candidate A)} {v : Voter A}
    {r : List (Candidate A) × Voter A} (hok : v.tryNormalizeWith sel cands = .ok r) :
    r.2.budget = v.budget ∧ r.2.edges.length = v.edges.length := by
  obtain ⟨ws, -, rfl⟩ := tryNormalizeWith_eq_ok hok
  refine ⟨rfl, ?_⟩
  simpa using congrArg List.length (map_candidate_reweight sel v.edges ws cands)

theorem StakesFit.replace {pre post : List (Voter A)} {v v' : Voter A} (h : StakesFit (pre ++ v :: post))
    (hb : v'.budget = v.budget) (hl : v'.edges.length = v.edges.length) : StakesFit (pre ++ v' :: post) := by
  have ht : totalBudget (pre ++ v' :: post) = totalBudget (pre ++ v :: post) := by simp [hb]
  intro u hu
  rw [ht]
  rcases List.mem_append.mp hu with hu | hu
  · exact h u (List.mem_append_left _ hu)
  · rcases List.mem_cons.mp hu with rfl | hu
    · rw [hl]
      exact h v (List.mem_append_right _ List.mem_cons_self)
    · exact h u (List.mem_append_right _ (List.mem_cons_of_mem _ hu))

theorem reweight_congr {sel sel' : ℕ → Bool} (es : List (Edge A)) (ws : List ℕ) (cands : List (Candidate A))
    (h : ∀ e ∈ es, sel e.candidate = sel' e.candidate) : reweight sel es ws cands = reweight sel' es ws cands := by
  induction es generalizing ws cands with
  | nil => rfl
  | cons e es ih =>
    have h' : ∀ e' ∈ es, sel e'.candidate = sel' e'.candidate := fun e' he' => h e' (List.mem_cons_of_mem _ he')
    simp only [reweight, h e List.mem_cons_self, ih _ _ h']

/-- On a voter whose edges all point to elected candidates, `try_normalize` is
`try_normalize_elected`. -/
theorem tryNormalize_eq_tryNormalizeElected {cands : List (Candidate A)} {v : Voter A}
    (h : ∀ e ∈ v.edges, isElected cands e.candidate = true) :
    v.tryNormalize cands = v.tryNormalizeElected cands := by
  have hf : v.edges.filter (fun e => (fun _ => true : ℕ → Bool) e.candidate) =
      v.edges.filter (isElected cands ·.candidate) :=
    List.filter_congr fun e he => (h e he).symm
  have hr : ∀ ws, reweight (fun _ => true) v.edges ws cands = reweight (isElected cands) v.edges ws cands :=
    fun ws => reweight_congr v.edges ws cands fun e he => (h e he).symm
  unfold Voter.tryNormalize Voter.tryNormalizeElected Voter.tryNormalizeWith
  simp only [hf, hr]

end PolkadotSdk.Npos
