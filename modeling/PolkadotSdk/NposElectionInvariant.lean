import PolkadotSdk.NposPhragmen
import PolkadotSdk.NposPhragmms

/-!
# The invariant over the election methods

`try_normalize` puts stake on unelected candidates, and `apply_elected` on its own leaves the
winner unelected with stake on it; with the winner marked elected, as `phragmms` does next, every
operation keeps the invariant of the election graph while the stake sums fit in `u128`.
-/

namespace PolkadotSdk.Npos

open PerThings

/-- Candidate `1` is elected and backed by `5`, candidate `2` is not. -/
def mixedCands : List (Candidate ℕ) := [⟨1, Rational128.zero, 5, 5, true, 0⟩, ⟨2, Rational128.zero, 5, 0, false, 0⟩]

/-- Voter `10` has budget `10` and puts `5` on candidate `1` and nothing on candidate `2`. -/
def mixedVoter : Voter ℕ := ⟨10, [⟨1, ⟨0, 0⟩, 0, 5⟩, ⟨2, ⟨0, 0⟩, 1, 0⟩], 10, ⟨0, 0⟩⟩

/-- Candidate `1`, unelected and unbacked, about to be elected. -/
def winnerCands : List (Candidate ℕ) := [⟨1, Rational128.zero, 10, 0, false, 0⟩]

/-- Voter `10` has budget `10` and votes for candidate `1` with nothing on the edge. -/
def winnerVoter : Voter ℕ := ⟨10, [⟨1, ⟨0, 0⟩, 0, 0⟩], 10, ⟨0, 0⟩⟩

theorem tryNormalize_applyElected_break_invariant :
    Inv mixedCands [mixedVoter] ∧ StakesFit [mixedVoter] ∧
      mixedVoter.tryNormalize mixedCands =
        .ok (setBacked mixedCands 1 5, { mixedVoter with edges := [⟨1, ⟨0, 0⟩, 0, 5⟩, ⟨2, ⟨0, 0⟩, 1, 5⟩] }) ∧
      ¬ Inv (setBacked mixedCands 1 5) [{ mixedVoter with edges := [⟨1, ⟨0, 0⟩, 0, 5⟩, ⟨2, ⟨0, 0⟩, 1, 5⟩] }] ∧
      Inv winnerCands [winnerVoter] ∧ StakesFit [winnerVoter] ∧
      ¬ Inv (applyElected winnerCands [winnerVoter] 0).1 (applyElected winnerCands [winnerVoter] 0).2 := by
  decide

theorem election_graph_invariant {A : Type} [DecidableEq A] :
    (∀ (cands : List (Candidate A)) (pre post : List (Voter A)) (v : Voter A) (r : List (Candidate A) × Voter A),
      Inv cands (pre ++ v :: post) → StakesFit (pre ++ v :: post) → v.tryNormalizeElected cands = .ok r →
        Inv r.1 (pre ++ r.2 :: post)) ∧
    (∀ (cands : List (Candidate A)) (pre post : List (Voter A)) (v : Voter A) (r : List (Candidate A) × Voter A),
      Inv cands (pre ++ v :: post) → StakesFit (pre ++ v :: post) →
        (∀ e ∈ v.edges, isElected cands e.candidate = true) → v.tryNormalize cands = .ok r →
        Inv r.1 (pre ++ r.2 :: post)) ∧
    (∀ (tolerance : ℕ) (cands : List (Candidate A)) (pre post : List (Voter A)) (v : Voter A),
      Inv cands (pre ++ v :: post) → StakesFit (pre ++ v :: post) →
        Inv (balanceVoter tolerance cands v).1 (pre ++ (balanceVoter tolerance cands v).2.1 :: post)) ∧
    (∀ (config : BalancingConfig) (cands : List (Candidate A)) (voters : List (Voter A)),
      Inv cands voters → StakesFit voters → Inv (balance config cands voters).1 (balance config cands voters).2.1) ∧
    (∀ (cands : List (Candidate A)) (voters : List (Voter A)) (w round : ℕ) (hw : w < cands.length),
      Inv cands voters → StakesFit voters → isElected cands w = false →
        (∀ v ∈ voters, ∀ e ∈ v.edges, e.who = cands[w].who → e.candidate = w) →
        Inv ((applyElected cands voters w).1.modify w fun c => { c with round := round, elected := true })
          (applyElected cands voters w).2) ∧
    (∀ (toElect : ℕ) (cands : List (Candidate A)) (voters : List (Voter A)) (r : List (Candidate A) × List (Voter A)),
      Fresh cands voters →
        FinalWeightsFit (phragmenRounds (min toElect cands.length) 0 (cands, voters)).1
          (phragmenRounds (min toElect cands.length) 0 (cands, voters)).2 →
        seqPhragmenCore toElect cands voters = .ok r → Inv r.1 r.2) ∧
    (∀ (tolerance : ℕ) (cands : List (Candidate A)) (v : Voter A) (r : List (Candidate A) × Voter A),
      (measureSpread tolerance cands v).2 = false →
        (fillElected cands v).2.tryNormalizeElected (fillElected cands v).1 = .ok r →
        balanceVoter tolerance cands v = (r.1, r.2, (measureSpread tolerance cands v).1) ∧
          usedIn (r.2.edges.filter (isElected r.1 ·.candidate)) = v.budget) := by
  -- the voter an operation works on is one of the voters
  have hmem : ∀ (pre post : List (Voter A)) (v : Voter A), v ∈ pre ++ v :: post :=
    fun _ _ _ => List.mem_append_right _ List.mem_cons_self
  refine ⟨fun cands pre post v r h hfit hok => h.tryNormalizeElected (hfit.two_mul (hmem pre post v)) hok,
    fun cands pre post v r h hfit hel hok => ?_,
    fun tolerance cands pre post v h hfit => (h.balanceVoter (hfit v (hmem pre post v)) tolerance).1,
    fun config cands voters h hfit => h.balance config hfit,
    fun cands voters w round hw h hfit hun hwho => h.applyElected_elect hfit.totalBudget_le hw hun hwho round,
    fun toElect cands voters r h hfit hok => h.seqPhragmenCore_inv hfit hok,
    fun tolerance cands v r hrw hok => balanceVoter_electedUsed tolerance cands v hrw hok⟩
  -- on a voter whose edges are all elected, `try_normalize` is `try_normalize_elected`
  rw [tryNormalize_eq_tryNormalizeElected hel] at hok
  exact h.tryNormalizeElected (hfit.two_mul (hmem pre post v)) hok

/-- The candidates and voters of the source's test `phragmen_poc_works`. -/
def pocSetup : List (Candidate ℕ) × List (Voter ℕ) :=
  setupInputs [1, 2, 3] [(10, 10, [1, 2]), (20, 20, [1, 3]), (30, 30, [2, 3])]

/-- The same after `seq_phragmen_core` electing two. -/
def pocCore : List (Candidate ℕ) × List (Voter ℕ) :=
  match seqPhragmenCore 2 pocSetup.1 pocSetup.2 with
  | .ok r => r
  | .error _ => ([], [])

theorem election_graph_invariant_poc :
    Fresh pocSetup.1 pocSetup.2 ∧
      FinalWeightsFit (phragmenRounds (min 2 pocSetup.1.length) 0 pocSetup).1
        (phragmenRounds (min 2 pocSetup.1.length) 0 pocSetup).2 ∧
      seqPhragmenCore 2 pocSetup.1 pocSetup.2 = .ok pocCore ∧ Inv pocCore.1 pocCore.2 ∧ StakesFit pocCore.2 ∧
      Inv (balance ⟨4, 0⟩ pocCore.1 pocCore.2).1 (balance ⟨4, 0⟩ pocCore.1 pocCore.2).2.1 := by
  have hfresh : Fresh pocSetup.1 pocSetup.2 := by decide
  have hfit : FinalWeightsFit (phragmenRounds (min 2 pocSetup.1.length) 0 pocSetup).1
      (phragmenRounds (min 2 pocSetup.1.length) 0 pocSetup).2 := by decide
  have hcore : seqPhragmenCore 2 pocSetup.1 pocSetup.2 = .ok pocCore := by decide
  have hinv := election_graph_invariant.2.2.2.2.2.1 2 pocSetup.1 pocSetup.2 pocCore hfresh hfit hcore
  have hstakes : StakesFit pocCore.2 := by decide
  exact ⟨hfresh, hfit, hcore, hinv, hstakes, election_graph_invariant.2.2.2.1 ⟨4, 0⟩ _ _ hinv hstakes⟩

end PolkadotSdk.Npos
