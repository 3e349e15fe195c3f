import PolkadotSdk.NposReduce
import PolkadotSdk.PerThings
import PolkadotSdk.Normalize

/-!
# The election graph

The types `sp_npos_elections` elects with: candidates, voters, and the edges from a voter to the
candidates it votes for. An edge holds a shared pointer to its candidate; here the candidates
are one list and an edge holds the candidate's index in it, which `setup_inputs` fixes. The
module also has the operations on one voter that the methods share: the two normalizations of
its edge weights and its conversion into a ratio assignment.
-/

namespace PolkadotSdk.Npos

open PerThings Normalize

variable {A : Type}

/-- `Candidate`. -/
structure Candidate (A : Type) where
  who : A
  score : Rational128
  approvalStake : ℕ
  backedStake : ℕ
  elected : Bool
  round : ℕ
  deriving DecidableEq, Repr

/-- `Edge`: `candidate` is the index of the candidate it points to. -/
structure Edge (A : Type) where
  who : A
  load : Rational128
  candidate : ℕ
  weight : ℕ
  deriving DecidableEq, Repr

/-- `Voter`. -/
structure Voter (A : Type) where
  who : A
  edges : List (Edge A)
  budget : ℕ
  load : Rational128
  deriving DecidableEq, Repr

/-- `Assignment`: a voter and the part of its stake that each target gets. -/
structure Assignment (A : Type) (acc : ℕ) where
  who : A
  distribution : List (A × PerThing acc)
  deriving DecidableEq

/-- `crate::Error`, in the one variant these methods return. -/
inductive ElectionError where
  | arithmeticError
  deriving DecidableEq, Repr

/-- `ElectionResult`: the winners with their backed stake, and the assignments. -/
structure ElectionResult (A : Type) (acc : ℕ) where
  winners : List (A × ℕ)
  assignments : List (Assignment A acc)
  deriving DecidableEq

/-- `BalancingConfig`. -/
structure BalancingConfig where
  iterations : ℕ
  tolerance : ℕ
  deriving DecidableEq, Repr

/-! ## Candidates by index -/

/-- Whether candidate `c` is elected: `edge.candidate.borrow().elected`. -/
def isElected (cands : List (Candidate A)) (c : ℕ) : Bool := (cands[c]?.map (·.elected)).getD false

/-- The backed stake of candidate `c`. -/
def backedOf (cands : List (Candidate A)) (c : ℕ) : ℕ := (cands[c]?.map (·.backedStake)).getD 0

/-- Candidate `c` with the backed stake `b`. -/
def setBacked (cands : List (Candidate A)) (c b : ℕ) : List (Candidate A) :=
  cands.modify c fun x => { x with backedStake := b }

@[simp] theorem length_setBacked (cands : List (Candidate A)) (c b : ℕ) :
    (setBacked cands c b).length = cands.length := List.length_modify _ _ _

theorem backedOf_setBacked (cands : List (Candidate A)) {c : ℕ} (hc : c < cands.length) (b c' : ℕ) :
    backedOf (setBacked cands c b) c' = if c' = c then b else backedOf cands c' := by
  unfold backedOf setBacked
  rw [List.getElem?_modify]
  by_cases h : c = c'
  · subst h
    simp [List.getElem?_eq_getElem hc]
  · simp [h, Ne.symm h]

@[simp] theorem isElected_setBacked (cands : List (Candidate A)) (c b c' : ℕ) :
    isElected (setBacked cands c b) c' = isElected cands c' := by
  unfold isElected setBacked
  rw [List.getElem?_modify]
  split <;> cases cands[c']? <;> rfl

/-! ## `setup_inputs` -/

/-- `c_idx_cache`: the index of a candidate id, the last one when it is repeated. -/
def candidateIndex [DecidableEq A] (initialCandidates : List A) (v : A) : Option ℕ :=
  initialCandidates.zipIdx.foldl (fun acc p => if p.1 = v then some p.2 else acc) none

/-- One vote of a voter in `setup_inputs`: a repeated vote and a vote for a non-candidate are
dropped; a kept vote adds the voter's stake to the candidate's approval stake. -/
def addVote [DecidableEq A] (index : A → Option ℕ) (stake : ℕ) (acc : List (Candidate A) × List (Edge A)) (v : A) :
    List (Candidate A) × List (Edge A) :=
  if acc.2.any (·.who = v) then acc
  else
    match index v with
    | none => acc
    | some idx =>
      (acc.1.modify idx fun c => { c with approvalStake := saturatingAdd c.approvalStake stake },
        -- `load` and `weight` are `Default::default()`
        acc.2 ++ [⟨v, ⟨0, 0⟩, idx, 0⟩])

/-- `setup_inputs`: the candidates, and the voters that keep at least one vote. -/
def setupInputs [DecidableEq A] (initialCandidates : List A) (initialVoters : List (A × ℕ × List A)) :
    List (Candidate A) × List (Voter A) :=
  let candidates := initialCandidates.map fun who => (⟨who, ⟨0, 0⟩, 0, 0, false, 0⟩ : Candidate A)
  initialVoters.foldl (fun acc voter =>
    let r := voter.2.2.foldl (addVote (candidateIndex initialCandidates) voter.2.1) (acc.1, [])
    if r.2 = [] then (r.1, acc.2)
    else (r.1, acc.2 ++ [⟨voter.1, r.2, voter.2.1, Rational128.zero⟩])) (candidates, [])

/-! ## Normalizing a voter -/

/-- The loop of `try_normalize`: the edges whose candidate `sel` picks take, in order, the
normalized weights, and each one's candidate loses the old weight from its backed stake and gains
the new one. The loop stops with the weights. -/
def reweight (sel : ℕ → Bool) :
    List (Edge A) → List ℕ → List (Candidate A) → List (Edge A) × List (Candidate A)
  | [], _, cands => ([], cands)
  | e :: es, ws, cands =>
    if sel e.candidate then
      match ws with
      | [] => (e :: es, cands)
      | w :: ws =>
        let r := reweight sel es ws
          (setBacked cands e.candidate (saturatingAdd (backedOf cands e.candidate - e.weight) w))
        ({ e with weight := w } :: r.1, r.2)
    else
      let r := reweight sel es ws cands
      (e :: r.1, r.2)

/-- The normalization to the voter's budget of the weights of the edges whose candidate `sel`
picks. -/
def Voter.tryNormalizeWith (sel : ℕ → Bool) (cands : List (Candidate A)) (v : Voter A) :
    Except String (List (Candidate A) × Voter A) :=
  match normalize extendedBalanceMax ((v.edges.filter (sel ·.candidate)).map (·.weight)) v.budget with
  | .error e => .error e
  | .ok ws =>
    let r := reweight sel v.edges ws cands
    .ok (r.2, { v with edges := r.1 })

/-- `Voter::try_normalize`: every edge, elected or not. -/
def Voter.tryNormalize (cands : List (Candidate A)) (v : Voter A) :
    Except String (List (Candidate A) × Voter A) :=
  v.tryNormalizeWith (fun _ => true) cands

/-- `Voter::try_normalize_elected`: the edges to elected candidates. -/
def Voter.tryNormalizeElected (cands : List (Candidate A)) (v : Voter A) :
    Except String (List (Candidate A) × Voter A) :=
  v.tryNormalizeWith (isElected cands) cands

/-! ## Assignments -/

/-- `Voter::into_assignment`: each edge's weight as a part of the budget, rounded down, without
the zero parts; `None` when no part is left. -/
def Voter.intoAssignment (acc : ℕ) (v : Voter A) : Option (Assignment A acc) :=
  let distribution := v.edges.filterMap fun e =>
    let perThing : PerThing acc := PerThing.fromRational 128 e.weight v.budget
    if perThing.parts = 0 then none else some (e.who, perThing)
  if 0 < distribution.length then some ⟨v.who, distribution⟩ else none

/-- The loop of `Assignment::try_normalize`: the ratios take the normalized parts in order,
through `P::from_parts(i.saturated_into())`, which caps them at `ACCURACY`. -/
def replaceParts {acc : ℕ} : List (A × PerThing acc) → List ℕ → List (A × PerThing acc)
  | d :: ds, n :: ns => (d.1, ⟨min n acc, Nat.min_le_right _ _⟩) :: replaceParts ds ns
  | ds, _ => ds

/-- `Assignment::try_normalize`: the parts are normalized to `ACCURACY` in `UpperOf<P>`, whose
largest value is `upperMax`. -/
def Assignment.tryNormalize {acc : ℕ} (upperMax : ℕ) (a : Assignment A acc) :
    Except String (Assignment A acc) :=
  match normalize upperMax (a.distribution.map (·.2.parts)) acc with
  | .error e => .error e
  | .ok ns => .ok { a with distribution := replaceParts a.distribution ns }

/-- The assignments of the voters, normalized: the tail shared by `seq_phragmen` and
`phragmms`. -/
def normalizedAssignments (acc upperMax : ℕ) (voters : List (Voter A)) :
    Except ElectionError (List (Assignment A acc)) :=
  ((voters.filterMap (Voter.intoAssignment acc)).mapM (Assignment.tryNormalize upperMax)).mapError
    fun _ => .arithmeticError

end PolkadotSdk.Npos
