import PolkadotSdk.PerThingsPrune

/-!
# `from_rational_with_rounding` is exact

`PerThing::from_rational_with_rounding(p, q, r)` refuses `q = 0` and `p > q`, and otherwise
computes `ACCURACY * p / q` rounded through `MultiplyRational` in the numeric type `N`. The trait
bound `Self::Inner: Into<N>` makes `ACCURACY` fit `N`, and for `p ≤ q` the rounded quotient is at
most `ACCURACY`, so neither the overflow check of `multiply_rational` nor the `try_into` of the
inner type can fail: the result is the rounded quotient, for every width of `N`. `from_rational`
and `saturating_div` fall back to `one` exactly where it refuses.

`RoundsTo` says what each rounding mode asks of a quotient: floor, ceiling, and the nearest
integer with ties up or down.
-/

namespace PolkadotSdk.PerThings

open Helpers128

/-- `v` is `n / d` rounded as `r` asks. -/
def RoundsTo : Rounding → ℕ → ℕ → ℕ → Prop
  | .down, n, d, v => d * v ≤ n ∧ n < d * v + d
  | .up, n, d, v => n ≤ d * v ∧ d * v < n + d
  | .nearestPrefUp, n, d, v => 2 * n < 2 * d * v + d ∧ 2 * d * v ≤ 2 * n + d
  | .nearestPrefDown, n, d, v => 2 * n ≤ 2 * d * v + d ∧ 2 * d * v < 2 * n + d

namespace PerThing

variable {acc : ℕ}

/-- `PerThing::saturating_div` on a per-thing whose `Inner` type has `w` bits: the ratio of the
parts, or `one` where `from_rational_with_rounding` refuses. -/
def saturatingDiv (w : ℕ) (self rhs : PerThing acc) (r : Rounding) : PerThing acc :=
  (fromRationalWithRounding w self.parts rhs.parts r).getD one

end PerThing

theorem roundedDiv_nearestPrefUp_spec {n d : ℕ} (hd : 0 < d) :
    2 * n < 2 * d * roundedDiv n d .nearestPrefUp + d ∧ 2 * d * roundedDiv n d .nearestPrefUp ≤ 2 * n + d := by
  have h := Nat.div_add_mod n d
  have hlt := Nat.mod_lt n hd
  simp only [roundedDiv, roundsUp, decide_eq_true_eq]
  split
  · -- at least half a divisor left raises the quotient by one
    rw [Nat.mul_add, Nat.mul_assoc]
    constructor <;> omega
  · rw [Nat.add_zero, Nat.mul_assoc]
    constructor <;> omega

/-- `roundedDiv` rounds as each mode asks. -/
theorem roundedDiv_roundsTo {n d : ℕ} (hd : 0 < d) (r : Rounding) : RoundsTo r n d (roundedDiv n d r) := by
  cases r with
  | up => exact roundedDiv_up_spec hd
  | down => exact roundedDiv_down_spec hd
  | nearestPrefUp => exact roundedDiv_nearestPrefUp_spec hd
  | nearestPrefDown => exact roundedDiv_nearestPrefDown_spec hd

/-- `multiply_rational` of the accuracy by `p / q` with `p ≤ q` is the rounded quotient, which
never exceeds the accuracy and so fits any `N` that holds it. -/
theorem multiplyRational_accuracy {P : PerThingType} {w : ℕ} (hw : P.innerBits ≤ w) {p q : ℕ} (hq : 0 < q)
    (hpq : p ≤ q) (r : Rounding) :
    multiplyRational w P.accuracy p q r = some (roundedDiv (P.accuracy * p) q r) := by
  have hle : roundedDiv (P.accuracy * p) q r ≤ P.accuracy :=
    roundedDiv_le_of_le_mul hq (by rw [Nat.mul_comm q]; exact Nat.mul_le_mul_left _ hpq) r
  have hfit : P.accuracy < 2 ^ w := lt_of_lt_of_le P.accuracy_lt (Nat.pow_le_pow_right (by decide) hw)
  have hround : P.accuracy * p / q + (if r.bumps (P.accuracy * p % q) q then 1 else 0) =
      roundedDiv (P.accuracy * p) q r := by
    rw [roundedDiv, Rounding.bumps_eq_roundsUp]
  rw [multiplyRational, if_neg (Nat.pos_iff_ne_zero.mp hq)]
  dsimp only
  rw [hround, if_pos (by omega)]

/-- `from_rational_with_rounding` refuses `q = 0` and `p > q`, and is otherwise the rounded
quotient. -/
theorem map_parts_fromRationalWithRounding (P : PerThingType) {w : ℕ} (hw : P.innerBits ≤ w) (p q : ℕ)
    (r : Rounding) :
    (PerThing.fromRationalWithRounding w p q r : Option (PerThing P.accuracy)).map PerThing.parts =
      if q = 0 ∨ q < p then none else some (roundedDiv (P.accuracy * p) q r) := by
  unfold PerThing.fromRationalWithRounding
  by_cases hq : q = 0
  · simp [hq]
  · by_cases hpq : q < p
    · simp [hq, hpq]
    · have hle : roundedDiv (P.accuracy * p) q r ≤ P.accuracy :=
        roundedDiv_le_of_le_mul (Nat.pos_of_ne_zero hq)
          (by rw [Nat.mul_comm q]; exact Nat.mul_le_mul_left _ (by omega)) r
      rw [if_neg hq, if_neg hpq, if_neg (by omega),
        multiplyRational_accuracy hw (Nat.pos_of_ne_zero hq) (by omega)]
      simp [hle]

theorem fromRationalWithRounding_exact (P : PerThingType) (w : ℕ) (hw : P.innerBits ≤ w) (p q : ℕ)
    (r : Rounding) :
    ((PerThing.fromRationalWithRounding w p q r : Option (PerThing P.accuracy)).map PerThing.parts =
        if q = 0 ∨ q < p then none else some (roundedDiv (P.accuracy * p) q r)) ∧
      (0 < q → RoundsTo r (P.accuracy * p) q (roundedDiv (P.accuracy * p) q r)) ∧
      (0 < q → p ≤ q → (PerThing.fromRational w p q : PerThing P.accuracy).parts = P.accuracy * p / q) ∧
      ∀ a b : PerThing P.accuracy, (a.saturatingDiv P.innerBits b r).parts =
        if b.parts = 0 ∨ b.parts < a.parts then P.accuracy else roundedDiv (P.accuracy * a.parts) b.parts r := by
  refine ⟨map_parts_fromRationalWithRounding P hw p q r, fun hq => roundedDiv_roundsTo hq r,
    fun hq hpq => ?_, fun a b => ?_⟩
  · -- rounded down, the quotient is the floor
    have h := map_parts_fromRationalWithRounding P hw p q .down
    rw [if_neg (by omega)] at h
    obtain ⟨x, hx, hparts⟩ := Option.map_eq_some_iff.mp h
    rw [PerThing.fromRational, hx, Option.getD_some, hparts, roundedDiv]
    simp [roundsUp]
  · have h := map_parts_fromRationalWithRounding P le_rfl a.parts b.parts r
    unfold PerThing.saturatingDiv
    split_ifs with hrefuse
    · rw [if_pos hrefuse, Option.map_eq_none_iff] at h
      rw [h]
      rfl
    · rw [if_neg hrefuse] at h
      obtain ⟨x, hx, hparts⟩ := Option.map_eq_some_iff.mp h
      rw [hx, Option.getD_some, hparts]

/-- `Percent::from_rational_with_rounding(1u64, 3, Up)` is `34%`. -/
theorem fromRationalWithRounding_exact_percent :
    percent.innerBits ≤ 64 ∧
      (PerThing.fromRationalWithRounding 64 1 3 .up : Option (PerThing percent.accuracy)).map PerThing.parts = some 34 := by
  refine ⟨by decide, ?_⟩
  rw [(fromRationalWithRounding_exact percent 64 (by decide) 1 3 .up).1]
  decide

end PolkadotSdk.PerThings
