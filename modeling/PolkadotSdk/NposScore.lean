import PolkadotSdk.PerThingsPrune
import PolkadotSdk.NposReduce

/-!
# Comparing election scores

`ElectionScore` ranks solutions by the least stake, then the total stake, both to be
maximised, then the sum of squared stakes, to be minimised. `strict_better` is the threshold
comparison at `Perbill::zero()`, where `tcmp` is `cmp`, and it agrees with the `Ord`
instance, which gets the reversed third comparison by swapping the third components
(`ElectionScore.strictBetter_iff`, `ElectionScore.cmp_eq_gt_iff`). `tcmp` answers by where `x` lies against the band
`y ± threshold`, saturated at the type's bounds; its defensive branch is unreachable for a
value of the type. A smaller threshold narrows every band, which keeps each accepting case
of `strict_threshold_better` accepting.
-/

namespace PolkadotSdk.Npos

open PerThings

/-- `ThresholdOrd::tcmp` on an unsigned type whose largest value is `max`. -/
def tcmp (max x y threshold : ℕ) : Ordering :=
  if threshold = 0 then compare x y
  else
    let upperBound := min (y + threshold) max
    let lowerBound := y - threshold
    if upperBound ≤ lowerBound then compare x y
    else
      match compare x lowerBound, compare x upperBound with
      | .gt, .gt => .gt
      | .lt, .lt => .lt
      | _, _ => .eq

/-- `ElectionScore`. -/
structure ElectionScore where
  minimalStake : ℕ
  sumStake : ℕ
  sumStakeSquared : ℕ
  deriving DecidableEq, Repr

namespace ElectionScore

/-- `iter_by_significance`. -/
def iterBySignificance (s : ElectionScore) : List ℕ := [s.minimalStake, s.sumStake, s.sumStakeSquared]

/-- `strict_threshold_better`: each component compared by `ge` and by `tcmp` against the
threshold's share of the other's component, then matched against the three accepting
patterns. -/
def strictThresholdBetter {acc : ℕ} (self other : ElectionScore) (threshold : PerThing acc) : Bool :=
  let comparisons : List (Bool × Ordering) :=
    (self.iterBySignificance.zip other.iterBySignificance).map fun (this, that) =>
      (decide (this ≥ that), tcmp extendedBalanceMax this that (threshold.mulCeil that))
  match comparisons with
  | [(_, .gt), _, _] => true
  | [(true, .eq), (_, .gt), _] => true
  | [(true, .eq), (true, .eq), (_, .lt)] => true
  | _ => false

/-- `strict_better`: the threshold is `Perbill::zero()`. -/
def strictBetter (self other : ElectionScore) : Bool :=
  self.strictThresholdBetter other (PerThing.zero : PerThing (10 ^ 9))

/-- `impl Ord for ElectionScore`: the slices compared lexicographically, with the third
components swapped so that the smaller sum of squares wins. -/
def cmp (self other : ElectionScore) : Ordering :=
  List.compareLex compare [self.minimalStake, self.sumStake, other.sumStakeSquared]
    [other.minimalStake, other.sumStake, self.sumStakeSquared]

/-- The order the comparisons are meant to decide: more least stake, then more total stake,
then less sum of squares. -/
def LexBetter (a b : ElectionScore) : Prop :=
  b.minimalStake < a.minimalStake ∨ (a.minimalStake = b.minimalStake ∧ b.sumStake < a.sumStake) ∨
    (a.minimalStake = b.minimalStake ∧ a.sumStake = b.sumStake ∧ a.sumStakeSquared < b.sumStakeSquared)

/-- Each component of a score is a `u128`. -/
def InRange (s : ElectionScore) : Prop :=
  s.minimalStake ≤ extendedBalanceMax ∧ s.sumStake ≤ extendedBalanceMax ∧ s.sumStakeSquared ≤ extendedBalanceMax

end ElectionScore

section Tcmp

variable {max x y threshold : ℕ}

theorem tcmp_zero (max x y : ℕ) : tcmp max x y 0 = compare x y := if_pos rfl

/-- `tcmp` places `x` against the band from `y - threshold` to `y + threshold`, saturated:
above it, below it, or inside. -/
theorem tcmp_spec (hx : x ≤ max) (hy : y ≤ max) :
    (tcmp max x y threshold = .gt ↔ min (y + threshold) max < x) ∧
      (tcmp max x y threshold = .lt ↔ x < y - threshold) := by
  unfold tcmp
  split
  · -- no threshold: the plain comparison
    rename_i hzero
    subst hzero
    simp [min_eq_left hy, Nat.compare_eq_gt, Nat.compare_eq_lt]
  · rename_i hpos
    dsimp only
    split
    · -- the defensive branch: only at `max = 0`, where `x` and `y` are both `0`
      rename_i hband
      have hx0 : x = 0 := by omega
      have hy0 : y = 0 := by omega
      subst hx0 hy0
      simp
    · rename_i hband
      simp only [not_le] at hband
      constructor
      · constructor
        · intro h
          split at h <;> simp_all [Nat.compare_eq_gt]
        · intro h
          have hlow : y - threshold < x := lt_of_le_of_lt (le_of_lt hband) h
          rw [(Nat.compare_eq_gt).mpr hlow, (Nat.compare_eq_gt).mpr h]
      · constructor
        · intro h
          split at h <;> simp_all [Nat.compare_eq_lt]
        · intro h
          have hup : x < min (y + threshold) max := lt_trans h hband
          rw [(Nat.compare_eq_lt).mpr h, (Nat.compare_eq_lt).mpr hup]

/-- A smaller threshold keeps a `Greater`. -/
theorem tcmp_gt_of_le {threshold' : ℕ} (hx : x ≤ max) (hy : y ≤ max) (hth : threshold' ≤ threshold)
    (h : tcmp max x y threshold = .gt) : tcmp max x y threshold' = .gt := by
  have hup : min (y + threshold') max ≤ min (y + threshold) max := min_le_min_right _ (by omega)
  exact (tcmp_spec hx hy).1.mpr (lt_of_le_of_lt hup ((tcmp_spec hx hy).1.mp h))

/-- A smaller threshold keeps a `Less`. -/
theorem tcmp_lt_of_le {threshold' : ℕ} (hx : x ≤ max) (hy : y ≤ max) (hth : threshold' ≤ threshold)
    (h : tcmp max x y threshold = .lt) : tcmp max x y threshold' = .lt :=
  (tcmp_spec hx hy).2.mpr (lt_of_lt_of_le ((tcmp_spec hx hy).2.mp h) (by omega))

/-- What is at least `y` is never `Less`. -/
theorem tcmp_ne_lt_of_ge (hx : x ≤ max) (hy : y ≤ max) (hge : y ≤ x) : tcmp max x y threshold ≠ .lt := by
  intro h
  have := (tcmp_spec hx hy).2.mp h
  omega

end Tcmp

namespace ElectionScore

variable {acc : ℕ}

/-- The three accepting patterns of `strict_threshold_better`, spelled out. -/
theorem strictThresholdBetter_iff (a b : ElectionScore) (t : PerThing acc) :
    a.strictThresholdBetter b t = true ↔
      tcmp extendedBalanceMax a.minimalStake b.minimalStake (t.mulCeil b.minimalStake) = .gt ∨
      (b.minimalStake ≤ a.minimalStake ∧
        tcmp extendedBalanceMax a.minimalStake b.minimalStake (t.mulCeil b.minimalStake) = .eq ∧
        tcmp extendedBalanceMax a.sumStake b.sumStake (t.mulCeil b.sumStake) = .gt) ∨
      (b.minimalStake ≤ a.minimalStake ∧
        tcmp extendedBalanceMax a.minimalStake b.minimalStake (t.mulCeil b.minimalStake) = .eq ∧
        b.sumStake ≤ a.sumStake ∧ tcmp extendedBalanceMax a.sumStake b.sumStake (t.mulCeil b.sumStake) = .eq ∧
        tcmp extendedBalanceMax a.sumStakeSquared b.sumStakeSquared (t.mulCeil b.sumStakeSquared) = .lt) := by
  simp only [strictThresholdBetter, iterBySignificance, List.zip_cons_cons, List.zip_nil_right, List.map_cons,
    List.map_nil, ge_iff_le]
  generalize tcmp extendedBalanceMax a.minimalStake b.minimalStake (t.mulCeil b.minimalStake) = c₁
  generalize tcmp extendedBalanceMax a.sumStake b.sumStake (t.mulCeil b.sumStake) = c₂
  generalize tcmp extendedBalanceMax a.sumStakeSquared b.sumStakeSquared (t.mulCeil b.sumStakeSquared) = c₃
  by_cases h₁ : b.minimalStake ≤ a.minimalStake <;> by_cases h₂ : b.sumStake ≤ a.sumStake <;>
    cases c₁ <;> cases c₂ <;> cases c₃ <;> simp [h₁, h₂]

theorem mulCeil_zero (x : ℕ) : (PerThing.zero : PerThing acc).mulCeil x = 0 := by
  simp [PerThing.mulCeil, PerThing.zero, overflowPruneMul, rationalMulCorrection, Rounding.bumps]

theorem strictBetter_iff (a b : ElectionScore) : a.strictBetter b = true ↔ LexBetter a b := by
  rw [strictBetter, strictThresholdBetter_iff]
  simp only [mulCeil_zero, tcmp_zero, Nat.compare_eq_gt, Nat.compare_eq_lt, Nat.compare_eq_eq, LexBetter]
  constructor
  · rintro (h | ⟨-, h₁, h₂⟩ | ⟨-, h₁, -, h₂, h₃⟩)
    · exact Or.inl h
    · exact Or.inr (Or.inl ⟨h₁, h₂⟩)
    · exact Or.inr (Or.inr ⟨h₁, h₂, h₃⟩)
  · rintro (h | ⟨h₁, h₂⟩ | ⟨h₁, h₂, h₃⟩)
    · exact Or.inl h
    · exact Or.inr (Or.inl ⟨le_of_eq h₁.symm, h₁, h₂⟩)
    · exact Or.inr (Or.inr ⟨le_of_eq h₁.symm, h₁, le_of_eq h₂.symm, h₂, h₃⟩)

theorem cmp_eq_gt_iff (a b : ElectionScore) : a.cmp b = .gt ↔ LexBetter a b := by
  simp only [cmp, List.compareLex, LexBetter]
  rcases lt_trichotomy a.minimalStake b.minimalStake with h₁ | h₁ | h₁
  · simp [Nat.compare_eq_lt.mpr h₁, not_lt.mpr (le_of_lt h₁), ne_of_lt h₁]
  · rcases lt_trichotomy a.sumStake b.sumStake with h₂ | h₂ | h₂
    · simp [h₁, Nat.compare_eq_lt.mpr h₂, not_lt.mpr (le_of_lt h₂), ne_of_lt h₂]
    · rcases lt_trichotomy a.sumStakeSquared b.sumStakeSquared with h₃ | h₃ | h₃
      · simp [h₁, h₂, Nat.compare_eq_gt.mpr h₃, h₃]
      · simp [h₁, h₂, h₃]
      · simp [h₁, h₂, Nat.compare_eq_lt.mpr h₃, not_lt.mpr (le_of_lt h₃)]
    · simp [h₁, Nat.compare_eq_gt.mpr h₂, h₂]
  · simp [Nat.compare_eq_gt.mpr h₁, h₁]

/-- `mul_ceil` grows with the parts. -/
theorem mulCeil_mono {t t' : PerThing acc} (h : t'.parts ≤ t.parts) (x : ℕ) : t'.mulCeil x ≤ t.mulCeil x := by
  rcases Nat.eq_zero_or_pos acc with hacc | hacc
  · -- a per-thing of accuracy zero has no parts
    subst hacc
    have ht : t.parts = 0 := Nat.le_zero.mp t.parts_le
    have ht' : t'.parts = 0 := Nat.le_zero.mp t'.parts_le
    simp [PerThing.mulCeil, ht, ht']
  · simp only [PerThing.mulCeil, overflowPruneMul_eq hacc]
    exact Helpers128.roundedDiv_mono acc (Nat.mul_le_mul_left x h) .up

end ElectionScore

theorem strictBetter_iff_cmp_and_threshold :
    (∀ a b : ElectionScore, a.strictBetter b = true ↔ a.cmp b = .gt) ∧
    (∀ a b : ElectionScore, a.strictBetter b = true ↔ a.LexBetter b) ∧
    (∀ {acc : ℕ} (a b : ElectionScore) (t t' : PerThing acc), a.InRange → b.InRange → t'.parts ≤ t.parts →
      a.strictThresholdBetter b t = true → a.strictThresholdBetter b t' = true) ∧
    (∀ max x y threshold : ℕ, x ≤ max → y ≤ max →
      (tcmp max x y threshold = .gt ↔ min (y + threshold) max < x) ∧
      (tcmp max x y threshold = .lt ↔ x < y - threshold) ∧
      (tcmp max x y threshold = .eq ↔ x ≤ min (y + threshold) max ∧ y - threshold ≤ x)) := by
  refine ⟨fun a b => (ElectionScore.strictBetter_iff a b).trans (ElectionScore.cmp_eq_gt_iff a b).symm,
    ElectionScore.strictBetter_iff, ?_, ?_⟩
  · intro acc a b t t' ha hb hle h
    obtain ⟨ha₁, ha₂, ha₃⟩ := ha
    obtain ⟨hb₁, hb₂, hb₃⟩ := hb
    have hth := fun x => ElectionScore.mulCeil_mono hle x
    rw [ElectionScore.strictThresholdBetter_iff] at h ⊢
    -- a component that stays `Equal` with a narrower band either stays so or becomes `Greater`
    have hstep : ∀ {x y : ℕ}, x ≤ extendedBalanceMax → y ≤ extendedBalanceMax → y ≤ x →
        tcmp extendedBalanceMax x y (t'.mulCeil y) = .gt ∨ tcmp extendedBalanceMax x y (t'.mulCeil y) = .eq := by
      intro x y hx hy hge
      have hne : tcmp extendedBalanceMax x y (t'.mulCeil y) ≠ .lt := tcmp_ne_lt_of_ge hx hy hge
      cases hc : tcmp extendedBalanceMax x y (t'.mulCeil y)
      · exact absurd hc hne
      · exact Or.inr rfl
      · exact Or.inl rfl
    rcases h with h | ⟨hge₁, -, h₂⟩ | ⟨hge₁, -, hge₂, -, h₃⟩
    · exact Or.inl (tcmp_gt_of_le ha₁ hb₁ (hth _) h)
    · rcases hstep ha₁ hb₁ hge₁ with h₁' | h₁'
      · exact Or.inl h₁'
      · exact Or.inr (Or.inl ⟨hge₁, h₁', tcmp_gt_of_le ha₂ hb₂ (hth _) h₂⟩)
    · rcases hstep ha₁ hb₁ hge₁ with h₁' | h₁'
      · exact Or.inl h₁'
      · rcases hstep ha₂ hb₂ hge₂ with h₂' | h₂'
        · exact Or.inr (Or.inl ⟨hge₁, h₁', h₂'⟩)
        · exact Or.inr (Or.inr ⟨hge₁, h₁', hge₂, h₂', tcmp_lt_of_le ha₃ hb₃ (hth _) h₃⟩)
  · intro max x y threshold hx hy
    obtain ⟨hgt, hlt⟩ := @tcmp_spec max x y threshold hx hy
    refine ⟨hgt, hlt, ?_⟩
    cases hc : tcmp max x y threshold
    · simp only [reduceCtorEq, false_iff, not_and, not_le]
      intro _
      exact hlt.mp hc
    · simp only [true_iff]
      constructor
      · exact not_lt.mp fun h => absurd (hgt.mpr h) (by rw [hc]; decide)
      · exact not_lt.mp fun h => absurd (hlt.mpr h) (by rw [hc]; decide)
    · simp only [reduceCtorEq, false_iff, not_and, not_le]
      intro h
      exact absurd (hgt.mp hc) (not_lt.mpr h)

/-- A least stake of 12 against 10 is better by more than 10% of 10, and so by more than 5%. -/
theorem strictThresholdBetter_tenth :
    ElectionScore.InRange ⟨12, 0, 0⟩ ∧ ElectionScore.InRange ⟨10, 0, 0⟩ ∧
      ElectionScore.strictThresholdBetter ⟨12, 0, 0⟩ ⟨10, 0, 0⟩ (⟨10 ^ 8, by decide⟩ : PerThing (10 ^ 9)) = true ∧
      ElectionScore.strictThresholdBetter ⟨12, 0, 0⟩ ⟨10, 0, 0⟩ (⟨5 * 10 ^ 7, by decide⟩ : PerThing (10 ^ 9)) = true := by
  have ha : ElectionScore.InRange ⟨12, 0, 0⟩ := ⟨by decide, by decide, by decide⟩
  have hb : ElectionScore.InRange ⟨10, 0, 0⟩ := ⟨by decide, by decide, by decide⟩
  have h : ElectionScore.strictThresholdBetter ⟨12, 0, 0⟩ ⟨10, 0, 0⟩ (⟨10 ^ 8, by decide⟩ : PerThing (10 ^ 9)) = true := by
    decide
  exact ⟨ha, hb, h, strictBetter_iff_cmp_and_threshold.2.2.1 _ _ _ _ ha hb (by decide) h⟩

end PolkadotSdk.Npos
