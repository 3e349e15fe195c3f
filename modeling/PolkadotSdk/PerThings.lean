import Mathlib.Tactic.Ring
import Mathlib.Tactic.Linarith

/-!
# Per-things and rational multiplication

A model of the parts of `sp_arithmetic` that the pallets use to scale balances:
`Rounding`, `MultiplyRational` on an unsigned type of `w` bits, and the
`PerThing` operations `from_rational_with_rounding`, `mul_floor`, `mul_ceil` and
`Mul`. Numbers are natural numbers; the width `w` bounds the result where the
Rust code checks for overflow.
-/

namespace PolkadotSdk.PerThings

/-- `sp_arithmetic::per_things::Rounding`. -/
inductive Rounding where
  | up
  | down
  | nearestPrefUp
  | nearestPrefDown
  deriving DecidableEq, Repr

/-- Whether a quotient whose remainder is `rem` modulo `d` is raised by one. -/
def Rounding.bumps : Rounding → ℕ → ℕ → Bool
  | .up, rem, _ => decide (0 < rem)
  | .down, _, _ => false
  | .nearestPrefUp, rem, d => decide (d / 2 + d % 2 ≤ rem)
  | .nearestPrefDown, rem, d => decide (d / 2 < rem)

/-- `MultiplyRational::multiply_rational` for `w`-bit unsigned integers
(`impl_rrm!`): `a * n / d` in the double width, rounded, `None` when `d = 0` or
when the result does not fit in `w` bits. -/
def multiplyRational (w : ℕ) (a n d : ℕ) (r : Rounding) : Option ℕ :=
  if d = 0 then none
  else
    let result := a * n / d + if r.bumps (a * n % d) d then 1 else 0
    if result ≤ 2 ^ w - 1 then some result else none

/-- `sp_arithmetic::per_things::SignedRounding`. -/
inductive SignedRounding where
  | high
  | low
  | nearestPrefHigh
  | nearestPrefLow
  | major
  | minor
  | nearestPrefMajor
  | nearestPrefMinor
  deriving DecidableEq, Repr

/-- `Rounding::from_signed`: the rounding of the magnitude that rounds a value of the given
sign as `rounding` asks. -/
def Rounding.fromSigned : SignedRounding → Bool → Rounding
  | .low, true | .major, _ | .high, false => .up
  | .high, true | .minor, _ | .low, false => .down
  | .nearestPrefMajor, _ | .nearestPrefHigh, false | .nearestPrefLow, true => .nearestPrefUp
  | .nearestPrefMinor, _ | .nearestPrefLow, false | .nearestPrefHigh, true => .nearestPrefDown

/-- A quotient rounded up is at least the exact value. -/
theorem le_up_quot_mul (n : ℕ) {d : ℕ} (hd : 0 < d) :
    n ≤ (n / d + if Rounding.up.bumps (n % d) d then 1 else 0) * d := by
  have hdiv := Nat.div_add_mod n d
  have hmod := Nat.mod_lt n hd
  by_cases hr : 0 < n % d
  · simp only [Rounding.bumps, hr, decide_true, if_true]
    nlinarith
  · simp only [Rounding.bumps, hr, decide_false, Bool.false_eq_true, if_false]
    nlinarith

/-- Rounded up, `multiply_rational` is at least the exact quotient. -/
theorem multiplyRational_up_lower {w a n d x : ℕ} (h : multiplyRational w a n d .up = some x) :
    a * n ≤ x * d := by
  by_cases hd : d = 0
  · simp [multiplyRational, hd] at h
  · simp only [multiplyRational, hd, if_false, Option.ite_none_right_eq_some, Option.some.injEq] at h
    obtain ⟨-, rfl⟩ := h
    exact le_up_quot_mul (a * n) (Nat.pos_of_ne_zero hd)

/-- A `PerThing` value with `ACCURACY` `accuracy`: `Perbill` is `PerThing (10 ^ 9)`,
`Perquintill` is `PerThing (10 ^ 18)`. -/
structure PerThing (accuracy : ℕ) where
  parts : ℕ
  parts_le : parts ≤ accuracy

namespace PerThing

variable {acc : ℕ}

/-- `PerThing::one`. -/
def one : PerThing acc := ⟨acc, le_rfl⟩

/-- `PerThing::zero`. -/
def zero : PerThing acc := ⟨0, Nat.zero_le _⟩

/-- `from_rational_with_rounding` for a `w`-bit numerator type: `Err` when `q = 0`
or `p > q`, else `ACCURACY * p / q` rounded. The result never exceeds `ACCURACY`
because `p ≤ q`, so the `try_into` of the Rust code cannot fail. -/
def fromRationalWithRounding (w : ℕ) (p q : ℕ) (r : Rounding) : Option (PerThing acc) :=
  if q = 0 then none
  else if q < p then none
  else
    match multiplyRational w acc p q r with
    | none => none
    | some x => if h : x ≤ acc then some ⟨x, h⟩ else none

/-- `from_rational_with_rounding` rounded up is at least `p / q`. -/
theorem fromRationalWithRounding_up_lower {w p q : ℕ} {r : PerThing acc}
    (h : fromRationalWithRounding w p q .up = some r) : acc * p ≤ r.parts * q := by
  unfold fromRationalWithRounding at h
  split_ifs at h with hq hpq
  split at h
  · cases h
  · rename_i x hx
    split_ifs at h with hle
    cases h
    exact multiplyRational_up_lower hx

end PerThing

/-- `rational_mul_correction`: the rounded value of `(x % denom) * numer / denom`,
the part of `x * numer / denom` lost by dividing first. -/
def rationalMulCorrection (x numer denom : ℕ) (r : Rounding) : ℕ :=
  let remMul := x % denom * numer
  remMul / denom + if r.bumps (remMul % denom) denom then 1 else 0

/-- `overflow_prune_mul`: `x * part / ACCURACY` without forming `x * part`. -/
def overflowPruneMul (acc x part : ℕ) (r : Rounding) : ℕ :=
  x / acc * part + rationalMulCorrection x part acc r

/-- A `PerThing` implementation: its `ACCURACY` and the widths of `Inner` and `Upper`, which hold
`ACCURACY` and, as the trait asks, `ACCURACY^2`. -/
structure PerThingType where
  accuracy : ℕ
  innerBits : ℕ
  upperBits : ℕ
  accuracy_lt : accuracy < 2 ^ innerBits
  square_lt : accuracy * accuracy < 2 ^ upperBits

/-- `Percent`: parts per `100` in a `u8`, with `u16` above. -/
def percent : PerThingType := ⟨100, 8, 16, by decide, by decide⟩

/-- `PerU16`. -/
def perU16 : PerThingType := ⟨65535, 16, 32, by decide, by decide⟩

/-- `Permill`. -/
def permill : PerThingType := ⟨1000000, 32, 64, by decide, by decide⟩

/-- `Perbill`. -/
def perbill : PerThingType := ⟨1000000000, 32, 64, by decide, by decide⟩

/-- `Perquintill`. -/
def perquintill : PerThingType := ⟨1000000000000000000, 64, 128, by decide, by decide⟩

/-- `a * b` in an unsigned type of `w` bits; `none` is the overflow panic. -/
def mulChecked (w a b : ℕ) : Option ℕ := if a * b < 2 ^ w then some (a * b) else none

/-- `a + b` in an unsigned type of `w` bits; `none` is the overflow panic. -/
def addChecked (w a b : ℕ) : Option ℕ := if a + b < 2 ^ w then some (a + b) else none

/-- `a / b`; `none` is the panic on a zero divisor. -/
def divChecked (a b : ℕ) : Option ℕ := if b = 0 then none else some (a / b)

/-- `a % b`; `none` is the panic on a zero divisor. -/
def remChecked (a b : ℕ) : Option ℕ := if b = 0 then none else some (a % b)

/-- `saturated_into` an unsigned type of `w` bits. -/
def saturatedInto (w a : ℕ) : ℕ := min a (2 ^ w - 1)

/-- `rational_mul_correction` at the widths of `P`, each operation in the type the source
computes it in; the conversions `P::Upper::from` and `Into<N>` widen and lose nothing. -/
def rationalMulCorrectionIn (P : PerThingType) (x numer denom : ℕ) (r : Rounding) : Option ℕ := do
  let rem ← remChecked x denom
  let remInner := saturatedInto P.innerBits rem
  let remMulUpper ← mulChecked P.upperBits remInner numer
  let remMulDivInner := saturatedInto P.innerBits (← divChecked remMulUpper denom)
  if r.bumps (← remChecked remMulUpper denom) denom then addChecked P.innerBits remMulDivInner 1
  else pure remMulDivInner

/-- `overflow_prune_mul` at the widths of `P` and of an operand type `N` of `n` bits. -/
def overflowPruneMulIn (P : PerThingType) (n x part : ℕ) (r : Rounding) : Option ℕ := do
  let maximum := P.accuracy
  let c ← rationalMulCorrectionIn P x part P.accuracy r
  addChecked n (← mulChecked n (← divChecked x maximum) part) c

namespace PerThing

variable {acc : ℕ}

/-- `PerThing::mul_floor`. -/
def mulFloor (p : PerThing acc) (x : ℕ) : ℕ := overflowPruneMul acc x p.parts .down

/-- `PerThing::mul_ceil`. -/
def mulCeil (p : PerThing acc) (x : ℕ) : ℕ := overflowPruneMul acc x p.parts .up

/-- `impl Mul<N> for PerThing`: rounds to the nearest, halves down. -/
def mul (p : PerThing acc) (x : ℕ) : ℕ := overflowPruneMul acc x p.parts .nearestPrefDown

/-- `mul_ceil` is at least the exact product `x * parts / ACCURACY`. -/
theorem mulCeil_lower (p : PerThing acc) (x : ℕ) (hacc : 0 < acc) :
    p.parts * x ≤ acc * p.mulCeil x := by
  have hsplit : x * p.parts = acc * (x / acc) * p.parts + x % acc * p.parts := by
    rw [← Nat.add_mul, Nat.div_add_mod]
  have hcorr := le_up_quot_mul (x % acc * p.parts) hacc
  simp only [mulCeil, overflowPruneMul, rationalMulCorrection]
  nlinarith

end PerThing

namespace PerThing

variable {acc : ℕ}

instance : DecidableEq (PerThing acc) := fun a b =>
  decidable_of_iff (a.parts = b.parts) ⟨fun h => by cases a; cases b; simp_all, fun h => h ▸ rfl⟩

/-- `PerThing::from_rational`: `p / q` rounded down, and `one` where the rounding fails (`q = 0`
or `p > q`). -/
def fromRational (w p q : ℕ) : PerThing acc := (fromRationalWithRounding w p q .down).getD one

end PerThing

/-- `Rational128`: a `u128` numerator over a `u128` denominator. -/
structure Rational128 where
  n : ℕ
  d : ℕ
  deriving DecidableEq, Repr

namespace Rational128

/-- `Rational128::zero`. -/
def zero : Rational128 := ⟨0, 1⟩

/-- `Bounded::max_value`. -/
def maxValue : Rational128 := ⟨2 ^ 128 - 1, 1⟩

/-- `Rational128::from`: a zero denominator becomes one. -/
def fromRaw (n d : ℕ) : Rational128 := ⟨n, max d 1⟩

/-- `lazy_saturating_add`: the numerators are added as if the denominators were equal. -/
def lazySaturatingAdd (self other : Rational128) : Rational128 :=
  if other.n = 0 then self else ⟨min (self.n + other.n) (2 ^ 128 - 1), self.d⟩

/-- `lazy_saturating_sub`: the numerators are subtracted as if the denominators were equal. -/
def lazySaturatingSub (self other : Rational128) : Rational128 :=
  if other.n = 0 then self else ⟨self.n - other.n, self.d⟩

/-- `impl Ord for Rational128`: the cross products are compared in a big integer. -/
def cmp (self other : Rational128) : Ordering :=
  if self.d = other.d then compare self.n other.n
  else if self.d = 0 then .gt
  else if other.d = 0 then .lt
  else compare (self.n * other.d) (other.n * self.d)

/-- `to_den`: the same value over `den`, rounded to the nearest, or `None` when it does not fit. -/
def toDen (self : Rational128) (den : ℕ) : Option Rational128 :=
  if den = self.d then some self
  else (multiplyRational 128 self.n den self.d .nearestPrefDown).map fun n => ⟨n, den⟩

end Rational128

end PolkadotSdk.PerThings
