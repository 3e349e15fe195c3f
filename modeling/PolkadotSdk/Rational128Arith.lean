import PolkadotSdk.Helpers128Gcd
import Mathlib.Algebra.Order.Field.Rat
import Mathlib.Data.Rat.Cast.Order

/-!
# `Rational128` comparison and checked arithmetic

`cmp` and `eq` cross-multiply the numerators by the other denominator in a big integer, which
for nonzero denominators is the comparison of the two rationals. `checked_add` and
`checked_sub` bring both sides to the least common multiple of the denominators: `lcm` is the
product over the binary `gcd`, and `to_den` rescales a numerator by `den / d`. Both go through
the rounding `multiply_by_rational_with_rounding`, which is exact here because each divisor
divides its dividend; so the result is the exact sum or difference over the `lcm`, and an error
comes exactly from a value that does not fit a `u128` or from a negative difference.
-/

namespace PolkadotSdk.PerThings

open Helpers128

namespace Rational128

/-- `Rational128::lcm`: equal denominators are their own multiple; otherwise their product over
their `gcd`, `None` when it does not fit a `u128`. -/
def lcm (self other : Rational128) : Option ℕ :=
  if self.d = other.d then some self.d
  else multiplyRational 128 self.d other.d (Helpers128.gcd self.d other.d) .nearestPrefDown

/-- `impl PartialEq for Rational128`: equal denominators compare the numerators, others the
cross products in a big integer. -/
def eq (self other : Rational128) : Bool :=
  if self.d = other.d then self.n == other.n else self.n * other.d == other.n * self.d

/-- `Rational128::checked_add`, with the source's error texts. -/
def checkedAdd (self other : Rational128) : Except String Rational128 :=
  match self.lcm other with
  | none => .error "failed to scale to denominator"
  | some lcm =>
    match self.toDen lcm with
    | none => .error "failed to scale to denominator"
    | some selfScaled =>
      match other.toDen lcm with
      | none => .error "failed to scale to denominator"
      | some otherScaled =>
        match addChecked 128 selfScaled.n otherScaled.n with
        | none => .error "overflow while adding numerators"
        | some n => .ok ⟨n, selfScaled.d⟩

/-- `Rational128::checked_sub`, with the source's error texts. -/
def checkedSub (self other : Rational128) : Except String Rational128 :=
  match self.lcm other with
  | none => .error "failed to scale to denominator"
  | some lcm =>
    match self.toDen lcm with
    | none => .error "failed to scale to denominator"
    | some selfScaled =>
      match other.toDen lcm with
      | none => .error "failed to scale to denominator"
      | some otherScaled =>
        match subChecked selfScaled.n otherScaled.n with
        | none => .error "overflow while subtracting numerators"
        | some n => .ok ⟨n, selfScaled.d⟩

/-- The number `n / d` a `Rational128` stands for. -/
def value (x : Rational128) : ℚ := x.n / x.d

/-! ## Exact rescaling -/

/-- `multiply_rational` of a product its divisor divides is the exact quotient, when it fits. -/
theorem multiplyRational_of_dvd {w a b c : ℕ} (hc : 0 < c) (hdvd : c ∣ a * b) (r : Rounding) :
    multiplyRational w a b c r = if a * b / c ≤ 2 ^ w - 1 then some (a * b / c) else none := by
  have hmod : a * b % c = 0 := Nat.mod_eq_zero_of_dvd hdvd
  have hbump : r.bumps 0 c = false := by
    rw [Rounding.bumps_eq_roundsUp, roundsUp_zero r hc]
  rw [multiplyRational, if_neg (Nat.pos_iff_ne_zero.mp hc)]
  dsimp only
  rw [hmod, hbump, if_neg Bool.false_ne_true, Nat.add_zero]

section Bounded

variable {a b x : Rational128}

/-- `lcm` is the least common multiple of two `u128` denominators when it fits. -/
theorem lcm_eq (ha : 0 < a.d) (ha' : a.d < 2 ^ 128) (hb' : b.d < 2 ^ 128) :
    a.lcm b = if Nat.lcm a.d b.d < 2 ^ 128 then some (Nat.lcm a.d b.d) else none := by
  unfold lcm
  by_cases hd : a.d = b.d
  · rw [if_pos hd, ← hd, Nat.lcm_self, if_pos ha']
  · have hg : 0 < Nat.gcd a.d b.d := Nat.gcd_pos_of_pos_left _ ha
    have hdvd : Nat.gcd a.d b.d ∣ a.d * b.d := Dvd.dvd.mul_right (Nat.gcd_dvd_left _ _) _
    rw [if_neg hd, gcd_eq ha' hb', multiplyRational_of_dvd hg hdvd]
    -- `Nat.lcm` is the product over the gcd
    change (if Nat.lcm a.d b.d ≤ 2 ^ 128 - 1 then some (Nat.lcm a.d b.d) else none) = _
    by_cases hfit : Nat.lcm a.d b.d < 2 ^ 128
    · rw [if_pos (by omega), if_pos hfit]
    · rw [if_neg (by omega), if_neg hfit]

/-- `to_den` onto a multiple of the denominator rescales the numerator exactly. -/
theorem toDen_eq (hx : 0 < x.d) (hn : x.n < 2 ^ 128) {den : ℕ} (hdvd : x.d ∣ den) :
    x.toDen den = if x.n * (den / x.d) < 2 ^ 128 then some ⟨x.n * (den / x.d), den⟩ else none := by
  unfold toDen
  by_cases hden : den = x.d
  · subst hden
    rw [if_pos rfl, Nat.div_self hx, Nat.mul_one, if_pos hn]
  · have hexact : x.n * den / x.d = x.n * (den / x.d) := Nat.mul_div_assoc _ hdvd
    rw [if_neg hden, multiplyRational_of_dvd hx (Dvd.dvd.mul_left hdvd _), hexact]
    by_cases hfit : x.n * (den / x.d) < 2 ^ 128
    · rw [if_pos (by omega), if_pos hfit]
      rfl
    · rw [if_neg (by omega), if_neg hfit]
      rfl

/-- Rescaling to a multiple keeps the value. -/
theorem value_rescale (hx : 0 < x.d) {den : ℕ} (hdvd : x.d ∣ den) (hden : 0 < den) :
    ((x.n * (den / x.d) : ℕ) : ℚ) / den = x.value := by
  have hk : 0 < den / x.d := Nat.div_pos (Nat.le_of_dvd hden hdvd) hx
  have hsplit : (den : ℚ) = ((den / x.d : ℕ) : ℚ) * x.d := by exact_mod_cast (Nat.div_mul_cancel hdvd).symm
  rw [value, hsplit, Nat.cast_mul, mul_comm (x.n : ℚ), mul_div_mul_left _ _ (by exact_mod_cast hk.ne')]

end Bounded

/-- `compare` agrees on two pairs ordered alike. -/
theorem compare_congr {α β : Type} [LinearOrder α] [LinearOrder β] {x y : α} {x' y' : β}
    (hlt : x < y ↔ x' < y') (heq : x = y ↔ x' = y') : compare x y = compare x' y' := by
  cases h : compare x' y'
  · exact compare_lt_iff_lt.mpr (hlt.mpr (compare_lt_iff_lt.mp h))
  · exact compare_eq_iff_eq.mpr (heq.mpr (compare_eq_iff_eq.mp h))
  · -- neither smaller nor equal: greater
    have hgt : ¬ (x' < y' ∨ x' = y') := by
      rw [compare_gt_iff_gt] at h
      exact fun h' => h'.elim (fun h₁ => lt_asymm h₁ h) (fun h₂ => h.ne' h₂)
    rw [compare_gt_iff_gt]
    rcases lt_trichotomy x y with h₁ | h₂ | h₃
    · exact absurd (Or.inl (hlt.mp h₁)) hgt
    · exact absurd (Or.inr (heq.mp h₂)) hgt
    · exact h₃

section Compare

variable {a b : Rational128} (ha : 0 < a.d) (hb : 0 < b.d)
include ha hb

theorem value_lt_iff : a.value < b.value ↔ a.n * b.d < b.n * a.d := by
  rw [value, value, div_lt_div_iff₀ (by exact_mod_cast ha) (by exact_mod_cast hb)]
  exact_mod_cast Iff.rfl

theorem value_eq_iff : a.value = b.value ↔ a.n * b.d = b.n * a.d := by
  rw [value, value, div_eq_div_iff (by exact_mod_cast ha.ne') (by exact_mod_cast hb.ne')]
  exact_mod_cast Iff.rfl

/-- `cmp` compares the rationals. -/
theorem cmp_eq_compare : a.cmp b = compare a.value b.value := by
  unfold cmp
  by_cases hd : a.d = b.d
  · -- a common denominator: the numerators decide
    rw [if_pos hd]
    apply compare_congr
    · rw [value_lt_iff ha hb, hd]
      exact (Nat.mul_lt_mul_right hb).symm
    · rw [value_eq_iff ha hb, hd]
      exact (Nat.mul_left_inj hb.ne').symm
  · rw [if_neg hd, if_neg ha.ne', if_neg hb.ne']
    exact compare_congr (value_lt_iff ha hb).symm (value_eq_iff ha hb).symm

omit ha in
theorem eq_iff : a.eq b = true ↔ a.n * b.d = b.n * a.d := by
  unfold eq
  by_cases hd : a.d = b.d
  · rw [if_pos hd, beq_iff_eq, hd]
    exact (Nat.mul_left_inj hb.ne').symm
  · rw [if_neg hd, beq_iff_eq]

end Compare

section Checked

variable {a b : Rational128} (han : a.n < 2 ^ 128) (ha : 0 < a.d) (ha' : a.d < 2 ^ 128)
  (hbn : b.n < 2 ^ 128) (hb : 0 < b.d) (hb' : b.d < 2 ^ 128)
include han ha ha' hbn hb hb'

/-- `checked_add` fails to scale unless the `lcm` and both rescaled numerators fit, and then adds
them with an overflow check. -/
theorem checkedAdd_eq : a.checkedAdd b =
    if Nat.lcm a.d b.d < 2 ^ 128 ∧ a.n * (Nat.lcm a.d b.d / a.d) < 2 ^ 128 ∧
        b.n * (Nat.lcm a.d b.d / b.d) < 2 ^ 128 then
      if a.n * (Nat.lcm a.d b.d / a.d) + b.n * (Nat.lcm a.d b.d / b.d) < 2 ^ 128 then
        .ok ⟨a.n * (Nat.lcm a.d b.d / a.d) + b.n * (Nat.lcm a.d b.d / b.d), Nat.lcm a.d b.d⟩
      else .error "overflow while adding numerators"
    else .error "failed to scale to denominator" := by
  unfold checkedAdd
  rw [lcm_eq ha ha' hb']
  by_cases hL : Nat.lcm a.d b.d < 2 ^ 128
  · rw [if_pos hL]
    dsimp only
    rw [toDen_eq ha han (Nat.dvd_lcm_left _ _), toDen_eq hb hbn (Nat.dvd_lcm_right _ _)]
    by_cases hA : a.n * (Nat.lcm a.d b.d / a.d) < 2 ^ 128
    · by_cases hB : b.n * (Nat.lcm a.d b.d / b.d) < 2 ^ 128
      · simp only [if_pos hA, if_pos hB, if_pos (And.intro hL (And.intro hA hB)), addChecked]
        split_ifs <;> rfl
      · simp only [if_pos hA, if_neg hB, if_neg (fun h : _ ∧ _ ∧ _ => hB h.2.2)]
    · simp only [if_neg hA, if_neg (fun h : _ ∧ _ ∧ _ => hA h.2.1)]
  · rw [if_neg hL, if_neg (fun h : _ ∧ _ ∧ _ => hL h.1)]

/-- `checked_sub` fails to scale unless the `lcm` and both rescaled numerators fit, and then
subtracts them, failing when the difference is negative. -/
theorem checkedSub_eq : a.checkedSub b =
    if Nat.lcm a.d b.d < 2 ^ 128 ∧ a.n * (Nat.lcm a.d b.d / a.d) < 2 ^ 128 ∧
        b.n * (Nat.lcm a.d b.d / b.d) < 2 ^ 128 then
      if b.n * (Nat.lcm a.d b.d / b.d) ≤ a.n * (Nat.lcm a.d b.d / a.d) then
        .ok ⟨a.n * (Nat.lcm a.d b.d / a.d) - b.n * (Nat.lcm a.d b.d / b.d), Nat.lcm a.d b.d⟩
      else .error "overflow while subtracting numerators"
    else .error "failed to scale to denominator" := by
  unfold checkedSub
  rw [lcm_eq ha ha' hb']
  by_cases hL : Nat.lcm a.d b.d < 2 ^ 128
  · rw [if_pos hL]
    dsimp only
    rw [toDen_eq ha han (Nat.dvd_lcm_left _ _), toDen_eq hb hbn (Nat.dvd_lcm_right _ _)]
    by_cases hA : a.n * (Nat.lcm a.d b.d / a.d) < 2 ^ 128
    · by_cases hB : b.n * (Nat.lcm a.d b.d / b.d) < 2 ^ 128
      · simp only [if_pos hA, if_pos hB, if_pos (And.intro hL (And.intro hA hB)), subChecked]
        split_ifs <;> rfl
      · simp only [if_pos hA, if_neg hB, if_neg (fun h : _ ∧ _ ∧ _ => hB h.2.2)]
    · simp only [if_neg hA, if_neg (fun h : _ ∧ _ ∧ _ => hA h.2.1)]
  · rw [if_neg hL, if_neg (fun h : _ ∧ _ ∧ _ => hL h.1)]

end Checked

theorem rational128_exact (a b : Rational128) (han : a.n < 2 ^ 128) (ha : 0 < a.d) (ha' : a.d < 2 ^ 128)
    (hbn : b.n < 2 ^ 128) (hb : 0 < b.d) (hb' : b.d < 2 ^ 128) :
    a.cmp b = compare a.value b.value ∧ (a.eq b = true ↔ a.n * b.d = b.n * a.d) ∧
      (∀ c, a.checkedAdd b = .ok c → c.d = Nat.lcm a.d b.d ∧ c.value = a.value + b.value) ∧
      ((∃ e, a.checkedAdd b = .error e) ↔
        2 ^ 128 ≤ Nat.lcm a.d b.d ∨ 2 ^ 128 ≤ a.n * (Nat.lcm a.d b.d / a.d) ∨
          2 ^ 128 ≤ b.n * (Nat.lcm a.d b.d / b.d) ∨
          2 ^ 128 ≤ a.n * (Nat.lcm a.d b.d / a.d) + b.n * (Nat.lcm a.d b.d / b.d)) ∧
      (∀ c, a.checkedSub b = .ok c → c.d = Nat.lcm a.d b.d ∧ c.value = a.value - b.value) ∧
      ((∃ e, a.checkedSub b = .error e) ↔
        2 ^ 128 ≤ Nat.lcm a.d b.d ∨ 2 ^ 128 ≤ a.n * (Nat.lcm a.d b.d / a.d) ∨
          2 ^ 128 ≤ b.n * (Nat.lcm a.d b.d / b.d) ∨
          a.n * (Nat.lcm a.d b.d / a.d) < b.n * (Nat.lcm a.d b.d / b.d)) := by
  have hL : 0 < Nat.lcm a.d b.d := Nat.lcm_pos ha hb
  -- both scaled numerators keep their side's value over the common multiple
  have hva := value_rescale ha (Nat.dvd_lcm_left a.d b.d) hL
  have hvb := value_rescale hb (Nat.dvd_lcm_right a.d b.d) hL
  refine ⟨cmp_eq_compare ha hb, eq_iff hb, fun c hc => ?_, ?_, fun c hc => ?_, ?_⟩
  · rw [checkedAdd_eq han ha ha' hbn hb hb'] at hc
    split_ifs at hc with hfit hsum
    cases hc
    refine ⟨rfl, ?_⟩
    rw [value, Nat.cast_add, add_div, ← hva, ← hvb]
  · rw [checkedAdd_eq han ha ha' hbn hb hb']
    split_ifs with hfit hsum
    · simp only [exists_false, false_iff]
      omega
    · simp only [Except.error.injEq, exists_eq', true_iff]
      omega
    · simp only [Except.error.injEq, exists_eq', true_iff]
      omega
  · rw [checkedSub_eq han ha ha' hbn hb hb'] at hc
    split_ifs at hc with hfit hle
    cases hc
    refine ⟨rfl, ?_⟩
    rw [value, Nat.cast_sub hle, sub_div, ← hva, ← hvb]
  · rw [checkedSub_eq han ha ha' hbn hb hb']
    split_ifs with hfit hle
    · simp only [exists_false, false_iff]
      omega
    · simp only [Except.error.injEq, exists_eq', true_iff]
      omega
    · simp only [Except.error.injEq, exists_eq', true_iff]
      omega

/-- `1/2 + 1/3` is `5/6`, over the common denominator `6`. -/
theorem rational128_exact_halves :
    (⟨1, 2⟩ : Rational128).checkedAdd ⟨1, 3⟩ = .ok ⟨5, 6⟩ ∧
      (⟨5, 6⟩ : Rational128).value = (⟨1, 2⟩ : Rational128).value + (⟨1, 3⟩ : Rational128).value := by
  have hadd : (⟨1, 2⟩ : Rational128).checkedAdd ⟨1, 3⟩ = .ok ⟨5, 6⟩ := by
    rw [checkedAdd_eq (by decide) (by decide) (by decide) (by decide) (by decide) (by decide)]
    decide
  exact ⟨hadd, (rational128_exact ⟨1, 2⟩ ⟨1, 3⟩ (by decide) (by decide) (by decide) (by decide) (by decide)
    (by decide)).2.2.1 _ hadd |>.2⟩

end Rational128

end PolkadotSdk.PerThings
