import PolkadotSdk.Helpers128

/-!
# Saturating multiplication by the reciprocal of a per-thing

`PerThing::saturating_reciprocal_mul`, `_floor` and `_ceil`: `x / part` saturating-multiplied by
`ACCURACY`, saturating-plus the `rational_mul_correction` of the remainder. Here the correction
is computed with the widths of the per-thing's `Inner` and `Upper` types, and `none` is a panic of
the source: the remainder and the quotient by `part` are not guarded, so a zero per-thing panics.
-/

namespace PolkadotSdk.PerThings

open Helpers128

namespace PerThingType

variable (P : PerThingType)

/-- `saturated_into::<P::Inner>()`. -/
def saturateInner (n : ℕ) : ℕ := min n (2 ^ P.innerBits - 1)

/-- `rational_mul_correction` with the panics of the source: `x.rem(denom)` panics on a zero
`denom`, and the product in `P::Upper` and the `+= 1` in `P::Inner` panic on overflow. -/
def rationalMulCorrectionChecked (x numer denom : ℕ) (r : Rounding) : Option ℕ :=
  if denom = 0 then none
  else
    let remMulUpper := P.saturateInner (x % denom) * numer
    if 2 ^ P.upperBits ≤ remMulUpper then none
    else
      let remMulDivInner := P.saturateInner (remMulUpper / denom)
      if r.bumps (remMulUpper % denom) denom then
        if 2 ^ P.innerBits ≤ remMulDivInner + 1 then none else some (remMulDivInner + 1)
      else some remMulDivInner

/-- The free function `saturating_reciprocal_mul` for an unsigned `N` of `w` bits. -/
def saturatingReciprocalMul (w x part : ℕ) (r : Rounding) : Option ℕ :=
  match P.rationalMulCorrectionChecked x P.accuracy part r with
  | none => none
  | some c =>
    -- `x / part.into()`, then `saturating_mul(maximum).saturating_add(c)`
    if part = 0 then none else some (min (min (x / part * P.accuracy) (2 ^ w - 1) + c) (2 ^ w - 1))

end PerThingType

namespace PerThing

/-- `PerThing::saturating_reciprocal_mul`: rounds to the nearest, halves up. -/
def saturatingReciprocalMul (P : PerThingType) (w : ℕ) (p : PerThing P.accuracy) (b : ℕ) : Option ℕ :=
  P.saturatingReciprocalMul w b p.parts .nearestPrefUp

/-- `PerThing::saturating_reciprocal_mul_floor`. -/
def saturatingReciprocalMulFloor (P : PerThingType) (w : ℕ) (p : PerThing P.accuracy) (b : ℕ) : Option ℕ :=
  P.saturatingReciprocalMul w b p.parts .down

/-- `PerThing::saturating_reciprocal_mul_ceil`. -/
def saturatingReciprocalMulCeil (P : PerThingType) (w : ℕ) (p : PerThing P.accuracy) (b : ℕ) : Option ℕ :=
  P.saturatingReciprocalMul w b p.parts .up

end PerThing

/-! ## The correction cannot overflow -/

/-- The two saturations compose to one: once `x / part * ACCURACY` saturates, so does the sum. -/
theorem min_min_add (a c M : ℕ) : min (min a M + c) M = min (a + c) M := by
  omega

namespace PerThingType

variable (P : PerThingType)

theorem saturateInner_of_lt {n : ℕ} (h : n < 2 ^ P.innerBits) : P.saturateInner n = n :=
  Nat.min_eq_left (by omega)

/-- Dividing first loses the rounded product of the remainder: `round(x * n / d)` is
`x / d * n` plus the correction. -/
theorem roundedDiv_mul_eq (x n : ℕ) {d : ℕ} (hd : 0 < d) (r : Rounding) :
    roundedDiv (x * n) d r = x / d * n + rationalMulCorrection x n d r := by
  have hsplit : x * n = d * (x / d * n) + x % d * n := by
    rw [← Nat.mul_assoc, ← Nat.add_mul, Nat.div_add_mod]
  have hdiv : x * n / d = x / d * n + x % d * n / d := by
    rw [hsplit, Nat.mul_add_div hd]
  have hmod : x * n % d = x % d * n % d := by
    rw [hsplit, Nat.mul_add_mod]
  rw [roundedDiv, rationalMulCorrection, hdiv, hmod, ← Rounding.bumps_eq_roundsUp, Nat.add_assoc]

/-- On a divisor within the accuracy, `rational_mul_correction` by the accuracy cannot panic:
the remainder fits in `Inner`, its product with the accuracy in `Upper`, and the rounded quotient
stays at most the accuracy. -/
theorem rationalMulCorrectionChecked_eq (x : ℕ) {denom : ℕ} (hd : 0 < denom) (hle : denom ≤ P.accuracy)
    (r : Rounding) :
    P.rationalMulCorrectionChecked x P.accuracy denom r = some (rationalMulCorrection x P.accuracy denom r) := by
  have hacc := P.accuracy_lt
  have hrem : x % denom < denom := Nat.mod_lt x hd
  have hupper : x % denom * P.accuracy < 2 ^ P.upperBits :=
    lt_of_le_of_lt (Nat.mul_le_mul_right _ (by omega)) P.square_lt
  -- the remainder is below the divisor, so its share of the accuracy is below the accuracy
  have hquot : x % denom * P.accuracy / denom < P.accuracy :=
    Nat.div_lt_of_lt_mul (Nat.mul_lt_mul_of_pos_right hrem (by omega))
  unfold rationalMulCorrectionChecked rationalMulCorrection
  dsimp only
  rw [if_neg (by omega), P.saturateInner_of_lt (by omega), if_neg (by omega),
    P.saturateInner_of_lt (by omega)]
  split
  · -- the bumped quotient is at most the accuracy, so it fits in `Inner`
    rw [if_neg (by omega)]
  · rfl

@[simp] theorem rationalMulCorrectionChecked_zero (x numer : ℕ) (r : Rounding) :
    P.rationalMulCorrectionChecked x numer 0 r = none := by
  simp [rationalMulCorrectionChecked]

/-- `saturating_reciprocal_mul` panics exactly on a zero part, and otherwise is the rounded
`x * ACCURACY / part`, saturated at `N::MAX`. -/
theorem saturatingReciprocalMul_eq (w x : ℕ) {part : ℕ} (hle : part ≤ P.accuracy) (r : Rounding) :
    P.saturatingReciprocalMul w x part r =
      if part = 0 then none else some (min (roundedDiv (x * P.accuracy) part r) (2 ^ w - 1)) := by
  by_cases hzero : part = 0
  · rw [if_pos hzero, saturatingReciprocalMul, hzero, rationalMulCorrectionChecked_zero]
  · have hd : 0 < part := Nat.pos_of_ne_zero hzero
    rw [if_neg hzero, saturatingReciprocalMul, P.rationalMulCorrectionChecked_eq x hd hle]
    dsimp only
    rw [if_neg hzero, min_min_add, roundedDiv_mul_eq x _ hd]

end PerThingType

theorem saturating_reciprocal_mul_exact (P : PerThingType) (w : ℕ) (p : PerThing P.accuracy) (x : ℕ) :
    p.saturatingReciprocalMul P w x =
        (if p.parts = 0 then none else some (min (roundedDiv (x * P.accuracy) p.parts .nearestPrefUp) (2 ^ w - 1))) ∧
      p.saturatingReciprocalMulFloor P w x =
        (if p.parts = 0 then none else some (min (roundedDiv (x * P.accuracy) p.parts .down) (2 ^ w - 1))) ∧
      p.saturatingReciprocalMulCeil P w x =
        (if p.parts = 0 then none else some (min (roundedDiv (x * P.accuracy) p.parts .up) (2 ^ w - 1))) :=
  ⟨P.saturatingReciprocalMul_eq w x p.parts_le _, P.saturatingReciprocalMul_eq w x p.parts_le _,
    P.saturatingReciprocalMul_eq w x p.parts_le _⟩

example : (⟨60, by decide⟩ : PerThing percent.accuracy).saturatingReciprocalMul percent 64 10 = some 17 := by
  decide

example : (⟨61, by decide⟩ : PerThing percent.accuracy).saturatingReciprocalMulCeil percent 64 10 = some 17 := by
  decide

/-- `Percent::zero().saturating_reciprocal_mul(10u64)` and its floor and ceiling variants panic. -/
theorem saturating_reciprocal_mul_zero_panics :
    (PerThing.zero : PerThing percent.accuracy).saturatingReciprocalMul percent 64 10 = none ∧
      (PerThing.zero : PerThing percent.accuracy).saturatingReciprocalMulFloor percent 64 10 = none ∧
      (PerThing.zero : PerThing percent.accuracy).saturatingReciprocalMulCeil percent 64 10 = none := by
  decide

end PolkadotSdk.PerThings
