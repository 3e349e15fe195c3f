import PolkadotSdk.WideArith
import PolkadotSdk.PerThings

/-!
# `multiply_by_rational_with_rounding` on `u128`

A model of `helpers_128bit`: the 256-bit `Double128` built from two `u128` halves, its
product of two `u128` from four 64-bit partial products, its division by a `u128`
through the reciprocal of `2^128`, and `multiply_by_rational_with_rounding`, which rounds
the quotient of `a * b` by `c` and fails when it does not fit in 128 bits. A `u128` is a
`BitVec 128`, so every wrapping operation of the source wraps here too.
-/

namespace PolkadotSdk.Helpers128

open WideArith PerThings

/-- `Double128`: the number `high * 2^128 + low`. -/
structure Double128 where
  high : BitVec 128
  low : BitVec 128
  deriving DecidableEq, Repr

/-- `low_64`: the least significant 64 bits. -/
def low64 (a : BitVec 128) : BitVec 128 := a &&& ((1 <<< 64) - 1)

/-- `high_64`: the most significant 64 bits. -/
def high64 (a : BitVec 128) : BitVec 128 := a >>> 64

/-- `neg128`: `2^128 - a`, wrapping. -/
def neg128 (a : BitVec 128) : BitVec 128 := ~~~a + 1

/-- `div128`: `2^128 / a`. -/
def div128 (a : BitVec 128) : BitVec 128 := neg128 a / a + 1

/-- `mod128`: `2^128 % a`. -/
def mod128 (a : BitVec 128) : BitVec 128 := neg128 a % a

namespace Double128

/-- `Double128::try_into_u128`. -/
def tryIntoU128 (self : Double128) : Except Unit (BitVec 128) :=
  if self.high = 0 then .ok self.low else .error ()

/-- `Double128::zero`. -/
def zero : Double128 := ⟨0, 0⟩

/-- `Double128::left_shift_64`. -/
def leftShift64 (scaledValue : BitVec 128) : Double128 := ⟨scaledValue >>> 64, scaledValue <<< 64⟩

/-- `Double128::from_low`. -/
def fromLow (low : BitVec 128) : Double128 := ⟨0, low⟩

/-- `Double128::low_part`. -/
def lowPart (self : Double128) : Double128 := ⟨0, self.low⟩

/-- `Double128::add`: the low halves with `overflowing_add`, the high halves and the carry
with `wrapping_add`. -/
def add (self b : Double128) : Double128 :=
  let (low, overflow) := overflowingAdd self.low b.low
  let carry : BitVec 128 := if overflow then 1 else 0
  let high := self.high + b.high + carry
  ⟨high, low⟩

/-- `Double128::product_of`. -/
def productOf (a b : BitVec 128) : Double128 :=
  let (aLow, aHigh) := (low64 a, high64 a)
  let (bLow, bHigh) := (low64 b, high64 b)
  let (f, o, i, l) := (aLow * bLow, aLow * bHigh, aHigh * bLow, aHigh * bHigh)
  let fl : Double128 := ⟨l, f⟩
  let i := leftShift64 i
  let o := leftShift64 o
  (fl.add i).add o

/-- The number a `Double128` stands for. -/
def val (d : Double128) : ℕ := d.high.toNat * 2 ^ 128 + d.low.toNat

theorem val_lt (d : Double128) : d.val < 2 ^ 256 := by
  have hh := d.high.isLt
  have hl := d.low.isLt
  unfold val
  omega

@[simp] theorem val_zero : zero.val = 0 := rfl

@[simp] theorem val_fromLow (low : BitVec 128) : (fromLow low).val = low.toNat := by
  simp [fromLow, val]

@[simp] theorem val_lowPart (d : Double128) : d.lowPart.val = d.low.toNat := by
  simp [lowPart, val]

/-- `add` is the sum modulo `2^256`: the carry of the low halves moves into the high half. -/
theorem val_add (a b : Double128) : (a.add b).val = (a.val + b.val) % 2 ^ 256 := by
  have hspec := overflowingAdd_spec a.low b.low
  have hah := a.high.isLt
  have hbh := b.high.isLt
  unfold add val
  generalize overflowingAdd a.low b.low = ov at hspec ⊢
  obtain ⟨low, overflow⟩ := ov
  have hl := low.isLt
  have h0 : (0 : BitVec 128).toNat = 0 := rfl
  have h1 : (1 : BitVec 128).toNat = 1 := rfl
  cases overflow
  · simp only [Bool.false_eq_true, if_false, BitVec.toNat_add, h0] at hspec ⊢
    omega
  · simp only [if_true, BitVec.toNat_add, h1] at hspec ⊢
    omega

theorem toNat_low64 (a : BitVec 128) : (low64 a).toNat = a.toNat % 2 ^ 64 := by
  have hmask : ((1 <<< 64 : BitVec 128) - 1).toNat = 2 ^ 64 - 1 := by decide
  rw [low64, BitVec.toNat_and, hmask, Nat.and_two_pow_sub_one_eq_mod]

theorem toNat_high64 (a : BitVec 128) : (high64 a).toNat = a.toNat / 2 ^ 64 := by
  rw [high64, BitVec.toNat_ushiftRight, Nat.shiftRight_eq_div_pow]

@[simp] theorem val_leftShift64 (x : BitVec 128) : (leftShift64 x).val = x.toNat * 2 ^ 64 := by
  have hx := x.isLt
  simp only [leftShift64, val, BitVec.toNat_ushiftRight, Nat.shiftRight_eq_div_pow, BitVec.toNat_shiftLeft,
    Nat.shiftLeft_eq]
  omega

/-- A product of two 64-bit halves does not wrap. -/
theorem toNat_mul_of_lt {x y : BitVec 128} (hx : x.toNat < 2 ^ 64) (hy : y.toNat < 2 ^ 64) :
    (x * y).toNat = x.toNat * y.toNat := by
  rw [BitVec.toNat_mul, Nat.mod_eq_of_lt]
  calc x.toNat * y.toNat < 2 ^ 64 * 2 ^ 64 := Nat.mul_lt_mul'' hx hy
    _ = 2 ^ 128 := by norm_num

/-- `product_of` is the exact 256-bit product. -/
theorem val_productOf (a b : BitVec 128) : (productOf a b).val = a.toNat * b.toNat := by
  have haL : (low64 a).toNat < 2 ^ 64 := by rw [toNat_low64]; exact Nat.mod_lt _ (by norm_num)
  have hbL : (low64 b).toNat < 2 ^ 64 := by rw [toNat_low64]; exact Nat.mod_lt _ (by norm_num)
  have haH : (high64 a).toNat < 2 ^ 64 := by rw [toNat_high64]; have := a.isLt; omega
  have hbH : (high64 b).toNat < 2 ^ 64 := by rw [toNat_high64]; have := b.isLt; omega
  -- the four partial products, and the product they make up
  have hab : a.toNat * b.toNat = (high64 a).toNat * (high64 b).toNat * 2 ^ 128 +
      ((low64 a).toNat * (high64 b).toNat + (high64 a).toNat * (low64 b).toNat) * 2 ^ 64 +
      (low64 a).toNat * (low64 b).toNat := by
    rw [toNat_low64, toNat_high64, toNat_low64, toNat_high64]
    conv_lhs => rw [← Nat.div_add_mod a.toNat (2 ^ 64), ← Nat.div_add_mod b.toNat (2 ^ 64)]
    ring
  have hlt : a.toNat * b.toNat < 2 ^ 256 := by
    calc a.toNat * b.toNat < 2 ^ 128 * 2 ^ 128 := Nat.mul_lt_mul'' a.isLt b.isLt
      _ = 2 ^ 256 := by norm_num
  simp only [productOf, val_add, val_leftShift64]
  rw [show (⟨high64 a * high64 b, low64 a * low64 b⟩ : Double128).val =
      (high64 a * high64 b).toNat * 2 ^ 128 + (low64 a * low64 b).toNat from rfl]
  rw [toNat_mul_of_lt haH hbH, toNat_mul_of_lt haL hbL, toNat_mul_of_lt haL hbH, toNat_mul_of_lt haH hbL]
  omega

/-- One pass of the division loop trades a nonzero high half `h` for the smaller rest
`h * r + low`, whatever `r` is below `2^128`. -/
theorem val_divStep_lt (r : BitVec 128) {a : Double128} (h : a.high ≠ 0) :
    ((productOf a.high r).add a.lowPart).val < a.val := by
  have hr := r.isLt
  have hh : 0 < a.high.toNat := by
    rw [Nat.pos_iff_ne_zero]
    intro h0
    exact h (BitVec.eq_of_toNat_eq (by rw [h0]; rfl))
  rw [val_add, val_productOf, val_lowPart]
  calc _ ≤ a.high.toNat * r.toNat + a.low.toNat := Nat.mod_le _ _
    _ < a.val := by unfold val; nlinarith

/-- The `while self.high != 0` loop of `Double128::div`, on the quotient `x` found so far and
the rest `self`: the high half `h` adds `h * q` to the quotient and leaves `h * r + low`. -/
def divLoop (q r : BitVec 128) (x self : Double128) : Double128 × Double128 :=
  if _h : self.high ≠ 0 then
    divLoop q r (x.add (productOf self.high q)) ((productOf self.high r).add self.lowPart)
  else (x, self)
termination_by self.val
decreasing_by exact val_divStep_lt r _h

/-- `Double128::div`: the quotient and the remainder of the division by `rhs`. -/
def div (self : Double128) (rhs : BitVec 128) : Double128 × BitVec 128 :=
  if rhs = 1 then (self, 0)
  else
    let q := div128 rhs
    let r := mod128 rhs
    -- the loop's final quotient `.1` and rest `.2`
    let res := divLoop q r zero self
    (res.1.add (fromLow (res.2.low / rhs)), res.2.low % rhs)

theorem toNat_neg128 {a : BitVec 128} (ha : a ≠ 0) : (neg128 a).toNat = 2 ^ 128 - a.toNat := by
  have hpos : 0 < a.toNat := by
    rw [Nat.pos_iff_ne_zero]
    intro h0
    exact ha (BitVec.eq_of_toNat_eq (by rw [h0]; rfl))
  have hlt := a.isLt
  have h1 : (1 : BitVec 128).toNat = 1 := rfl
  rw [neg128, BitVec.toNat_add, BitVec.toNat_not, h1]
  omega

/-- `div128` is the quotient of `2^128` by a divisor of at least two. -/
theorem toNat_div128 {a : BitVec 128} (ha : 2 ≤ a.toNat) : (div128 a).toNat = 2 ^ 128 / a.toNat := by
  have ha0 : a ≠ 0 := fun h => by rw [h] at ha; exact absurd ha (by decide)
  have h1 : (1 : BitVec 128).toNat = 1 := rfl
  have hsplit : (2 ^ 128 - a.toNat) / a.toNat + 1 = 2 ^ 128 / a.toNat := by
    rw [← Nat.add_div_right _ (by omega), Nat.sub_add_cancel a.isLt.le]
  have hsmall : 2 ^ 128 / a.toNat < 2 ^ 128 := Nat.div_lt_self (by norm_num) (by omega)
  rw [div128, BitVec.toNat_add, BitVec.toNat_udiv, toNat_neg128 ha0, h1, hsplit, Nat.mod_eq_of_lt hsmall]

/-- `mod128` is the remainder of `2^128` by a nonzero divisor. -/
theorem toNat_mod128 {a : BitVec 128} (ha : a ≠ 0) : (mod128 a).toNat = 2 ^ 128 % a.toNat := by
  rw [mod128, BitVec.toNat_umod, toNat_neg128 ha]
  conv_rhs => rw [← Nat.sub_add_cancel a.isLt.le]
  rw [Nat.add_mod_right]

/-- The loop keeps `x * d + self` at the dividend and ends with no high half. -/
theorem divLoop_spec {q r : BitVec 128} {d A : ℕ} (hd : 0 < d) (hq : q.toNat = 2 ^ 128 / d)
    (hr : r.toNat = 2 ^ 128 % d) (hA : A < 2 ^ 256) (x self : Double128) (hinv : x.val * d + self.val = A) :
    (divLoop q r x self).1.val * d + (divLoop q r x self).2.val = A ∧ (divLoop q r x self).2.high = 0 := by
  fun_induction divLoop q r x self with
  | case1 x self _ ih =>
    apply ih
    -- the high half is traded for `high * q` times `d` and the smaller rest `high * r + low`
    have hkey : (x.val + self.high.toNat * q.toNat) * d + (self.high.toNat * r.toNat + self.low.toNat) = A := by
      rw [hq, hr]
      calc (x.val + self.high.toNat * (2 ^ 128 / d)) * d + (self.high.toNat * (2 ^ 128 % d) + self.low.toNat)
          = x.val * d + (self.high.toNat * (2 ^ 128 / d) * d +
              (self.high.toNat * (2 ^ 128 % d) + self.low.toNat)) := by ring
        _ = x.val * d + (self.high.toNat * 2 ^ 128 + self.low.toNat) := by rw [← high_digit_trade]
        _ = A := hinv
    have hquot : x.val + self.high.toNat * q.toNat < 2 ^ 256 :=
      lt_of_le_of_lt (Nat.le_mul_of_pos_right _ hd) (by omega)
    rw [val_add, val_add, val_productOf, val_productOf, val_lowPart, Nat.mod_eq_of_lt hquot,
      Nat.mod_eq_of_lt (by omega)]
    exact hkey
  | case2 x self h =>
    exact ⟨hinv, by simpa using h⟩

/-- `div` by a nonzero `rhs` is the quotient and the remainder of the 256-bit number. -/
theorem div_spec (self : Double128) {rhs : BitVec 128} (hrhs : rhs ≠ 0) :
    (self.div rhs).1.val = self.val / rhs.toNat ∧ (self.div rhs).2.toNat = self.val % rhs.toNat := by
  by_cases h1 : rhs = 1
  · subst h1
    rw [div, if_pos rfl]
    exact ⟨by simp, by simp [Nat.mod_one]⟩
  have hpos : 0 < rhs.toNat := by
    rw [Nat.pos_iff_ne_zero]
    intro h0
    exact hrhs (BitVec.eq_of_toNat_eq (by rw [h0]; rfl))
  have htwo : 2 ≤ rhs.toNat := by
    by_contra hc
    have h1' : rhs.toNat = (1 : BitVec 128).toNat := by
      show rhs.toNat = 1
      omega
    exact h1 (BitVec.eq_of_toNat_eq h1')
  have hdiv : self.div rhs = ((divLoop (div128 rhs) (mod128 rhs) zero self).1.add
      (fromLow ((divLoop (div128 rhs) (mod128 rhs) zero self).2.low / rhs)),
      (divLoop (div128 rhs) (mod128 rhs) zero self).2.low % rhs) := by
    rw [div, if_neg h1]
  obtain ⟨hinv, hhigh⟩ := divLoop_spec hpos (toNat_div128 htwo) (toNat_mod128 hrhs) self.val_lt zero self
    (by simp)
  rw [hdiv]
  generalize divLoop (div128 rhs) (mod128 rhs) zero self = res at hinv hhigh ⊢
  obtain ⟨x, rest⟩ := res
  have hrest : rest.val = rest.low.toNat := by
    simp only at hhigh
    simp [val, hhigh]
  simp only at hinv ⊢
  rw [hrest] at hinv
  obtain ⟨hquot, hrem⟩ := div_mod_of_mul_add hinv hpos
  refine ⟨?_, ?_⟩
  · have hlt : self.val / rhs.toNat < 2 ^ 256 := lt_of_le_of_lt (Nat.div_le_self _ _) self.val_lt
    rw [val_add, val_fromLow, BitVec.toNat_udiv, ← hquot, Nat.mod_eq_of_lt hlt]
  · rw [BitVec.toNat_umod, hrem]

/-- The halves are ordered lexicographically as the number they denote. -/
theorem lex_of_val_lt {a b : Double128} (h : a.val < b.val) :
    Prod.Lex (· < ·) (· < ·) (a.high.toNat, a.low.toNat) (b.high.toNat, b.low.toNat) := by
  have hal := a.low.isLt
  have hbl := b.low.isLt
  unfold val at h
  rw [Prod.lex_def]
  by_cases hh : a.high.toNat = b.high.toNat
  · -- equal high halves: the low halves decide
    exact Or.inr ⟨hh, by omega⟩
  · -- a larger high half would outweigh any low half
    exact Or.inl (by omega)

theorem div_terminates_exact (self : Double128) (rhs : BitVec 128) (hrhs : 1 ≤ rhs.toNat) :
    (self.div rhs).1.val * rhs.toNat + (self.div rhs).2.toNat = self.high.toNat * 2 ^ 128 + self.low.toNat ∧
      (self.div rhs).2.toNat < rhs.toNat ∧
      (2 ≤ rhs.toNat → (div128 rhs).toNat = 2 ^ 128 / rhs.toNat ∧ (mod128 rhs).toNat = 2 ^ 128 % rhs.toNat ∧
        ∀ x a : Double128, x.val * rhs.toNat + a.val < 2 ^ 256 →
          (divLoop (div128 rhs) (mod128 rhs) x a).1.val * rhs.toNat + (divLoop (div128 rhs) (mod128 rhs) x a).2.val =
            x.val * rhs.toNat + a.val ∧ (divLoop (div128 rhs) (mod128 rhs) x a).2.high = 0) ∧
      ∀ r : BitVec 128, ∀ a : Double128, a.high ≠ 0 →
        Prod.Lex (· < ·) (· < ·) (((productOf a.high r).add a.lowPart).high.toNat,
          ((productOf a.high r).add a.lowPart).low.toNat) (a.high.toNat, a.low.toNat) := by
  have hne : rhs ≠ 0 := fun h0 => by rw [h0] at hrhs; exact absurd hrhs (by decide)
  obtain ⟨hquot, hrem⟩ := div_spec self hne
  have hpos : 0 < rhs.toNat := hrhs
  refine ⟨?_, ?_, ?_, ?_⟩
  · rw [hquot, hrem]
    exact Nat.div_add_mod' self.val rhs.toNat
  · rw [hrem]
    exact Nat.mod_lt _ hpos
  · intro htwo
    refine ⟨toNat_div128 htwo, toNat_mod128 hne, fun x a hA => ?_⟩
    -- the loop's invariant, from any starting quotient and rest whose sum does not wrap
    exact divLoop_spec hpos (toNat_div128 htwo) (toNat_mod128 hne) hA x a rfl
  · intro r a ha
    exact lex_of_val_lt (val_divStep_lt r ha)

/-- Dividing `2^128 + 5` by `3`: the remainder is below the divisor. -/
theorem div_terminates_exact_three :
    1 ≤ (3 : BitVec 128).toNat ∧ (Double128.div ⟨1, 5⟩ 3).2.toNat < (3 : BitVec 128).toNat :=
  ⟨by decide, (div_terminates_exact ⟨1, 5⟩ 3 (by decide)).2.1⟩

-- the high half can stay: `1 * (2^127 - 1) + (2^128 - 1)` carries back into it
example : ((productOf 1 170141183460469231731687303715884105727).add
    (⟨1, 340282366920938463463374607431768211455⟩ : Double128).lowPart).high = 1 := by
  decide

theorem tryIntoU128_ok_iff {d : Double128} {v : BitVec 128} :
    d.tryIntoU128 = .ok v ↔ d.val < 2 ^ 128 ∧ v = d.low := by
  have hl := d.low.isLt
  unfold tryIntoU128 val
  by_cases h : d.high = 0
  · rw [if_pos h, h]
    simp only [Except.ok.injEq]
    exact ⟨fun hv => ⟨by simp; omega, hv.symm⟩, fun hv => hv.2.symm⟩
  · rw [if_neg h]
    have hpos : 0 < d.high.toNat := by
      rw [Nat.pos_iff_ne_zero]
      intro h0
      exact h (BitVec.eq_of_toNat_eq (by rw [h0]; rfl))
    simp only [reduceCtorEq, false_iff, not_and]
    intro hlt
    nlinarith

end Double128

open Double128

/-- The claimed rounding: whether the quotient with remainder `rem` modulo `d` is raised. -/
def roundsUp : Rounding → ℕ → ℕ → Bool
  | .down, _, _ => false
  | .up, rem, _ => decide (0 < rem)
  | .nearestPrefUp, rem, d => decide (d ≤ 2 * rem)
  | .nearestPrefDown, rem, d => decide (d < 2 * rem)

/-- `n / d` rounded as `r` asks. -/
def roundedDiv (n d : ℕ) (r : Rounding) : ℕ := n / d + if roundsUp r (n % d) d then 1 else 0

/-- The rounding test of `multiply_by_rational_with_rounding` on the remainder; `c / 2 + c % 2`
is `(c + 1) / 2` without the overflow at `c = u128::MAX`. -/
def remainderBumps (r : Rounding) (c remainder : BitVec 128) : Bool :=
  match r with
  | .up => decide (0 < remainder)
  | .nearestPrefUp => decide (c / 2 + c % 2 ≤ remainder)
  | .nearestPrefDown => decide (c / 2 < remainder)
  | .down => false

/-- `multiply_by_rational_with_rounding`: `a * b / c` rounded, or `None` when `c = 0` or the
result does not fit. -/
def multiplyByRationalWithRounding (a b c : BitVec 128) (r : Rounding) : Option (BitVec 128) :=
  if c = 0 then none
  else
    let (result, remainder) := (productOf a b).div c
    match result.tryIntoU128 with
    | .error _ => none
    | .ok result => if remainderBumps r c remainder then checkedAdd result 1 else some result

/-- The source's rounding test is the claimed one. -/
theorem remainderBumps_eq (r : Rounding) (c remainder : BitVec 128) :
    remainderBumps r c remainder = roundsUp r remainder.toNat c.toNat := by
  have h2 : (2 : BitVec 128).toNat = 2 := rfl
  have hc := c.isLt
  cases r with
  | up => simp [remainderBumps, roundsUp, BitVec.lt_def]
  | down => rfl
  | nearestPrefUp =>
    have hsum : (c / 2 + c % 2).toNat = c.toNat / 2 + c.toNat % 2 := by
      rw [BitVec.toNat_add, BitVec.toNat_udiv, BitVec.toNat_umod, h2]
      omega
    simp only [remainderBumps, roundsUp, BitVec.le_def, hsum, decide_eq_decide]
    omega
  | nearestPrefDown =>
    simp only [remainderBumps, roundsUp, BitVec.lt_def, BitVec.toNat_udiv, h2, decide_eq_decide]
    omega

@[simp] theorem multiplyByRationalWithRounding_zero (a b : BitVec 128) (r : Rounding) :
    multiplyByRationalWithRounding a b 0 r = none := by
  simp [multiplyByRationalWithRounding]

/-- For `c ≠ 0` the result is the rounded quotient of the exact product when it fits. -/
theorem map_toNat_multiplyByRationalWithRounding {c : BitVec 128} (hc : c ≠ 0) (a b : BitVec 128)
    (r : Rounding) :
    (multiplyByRationalWithRounding a b c r).map BitVec.toNat =
      if roundedDiv (a.toNat * b.toNat) c.toNat r ≤ 2 ^ 128 - 1 then
        some (roundedDiv (a.toNat * b.toNat) c.toNat r)
      else none := by
  obtain ⟨hq, hrem⟩ := div_spec (productOf a b) hc
  rw [val_productOf] at hq hrem
  have hmul : multiplyByRationalWithRounding a b c r =
      match ((productOf a b).div c).1.tryIntoU128 with
      | .error _ => none
      | .ok result =>
        if remainderBumps r c ((productOf a b).div c).2 then checkedAdd result 1 else some result := by
    rw [multiplyByRationalWithRounding, if_neg hc]
  rw [hmul]
  generalize (productOf a b).div c = res at hq hrem ⊢
  obtain ⟨q, rem⟩ := res
  simp only at hq hrem ⊢
  unfold roundedDiv
  rw [← hrem, ← remainderBumps_eq]
  cases hres : q.tryIntoU128 with
  | error e =>
    -- the quotient has a high half, so it is at least `2^128`
    have hbig : ¬q.val < 2 ^ 128 := fun hlt => by
      have hok := tryIntoU128_ok_iff.mpr ⟨hlt, rfl⟩
      rw [hres] at hok
      cases hok
    rw [hq] at hbig
    have hnot : ¬(a.toNat * b.toNat / c.toNat + (if remainderBumps r c rem = true then 1 else 0) ≤
        2 ^ 128 - 1) := by
      split <;> omega
    rw [if_neg hnot]
    rfl
  | ok v =>
    obtain ⟨hlt, rfl⟩ := tryIntoU128_ok_iff.mp hres
    have hv : q.low.toNat = a.toNat * b.toNat / c.toNat := by
      rw [← hq]
      unfold val at hlt ⊢
      have : q.high.toNat = 0 := by nlinarith
      omega
    have hlow := q.low.isLt
    cases remainderBumps r c rem with
    | false =>
      simp only [Bool.false_eq_true, if_false, Option.map_some, Nat.add_zero, hv]
      rw [if_pos (by omega)]
    | true =>
      simp only [if_true]
      cases hadd : checkedAdd q.low 1 with
      | none =>
        have hover := checkedAdd_eq_none_iff.mp hadd
        have h1 : (1 : BitVec 128).toNat = 1 := rfl
        rw [h1] at hover
        simp only [Option.map_none]
        rw [if_neg (by omega)]
      | some w =>
        obtain ⟨hfit, hw⟩ := checkedAdd_eq_some_iff.mp hadd
        have h1 : (1 : BitVec 128).toNat = 1 := rfl
        rw [h1] at hfit hw
        simp only [Option.map_some]
        rw [if_pos (by omega), hw, hv]

/-- `multiply_by_rational_with_rounding` is `None` for `c = 0`, and otherwise the rounded
quotient of the exact product exactly when it fits in 128 bits. -/
theorem multiplyByRationalWithRounding_eq (a b c : BitVec 128) (r : Rounding) :
    (multiplyByRationalWithRounding a b c r).map BitVec.toNat =
      if c = 0 then none
      else if roundedDiv (a.toNat * b.toNat) c.toNat r ≤ 2 ^ 128 - 1 then
        some (roundedDiv (a.toNat * b.toNat) c.toNat r)
      else none := by
  by_cases hc : c = 0
  · rw [if_pos hc, hc, multiplyByRationalWithRounding_zero]
    rfl
  · rw [if_neg hc]
    exact map_toNat_multiplyByRationalWithRounding hc a b r

/-- The source's and the claimed rounding agree on a remainder below the divisor. -/
theorem Rounding.bumps_eq_roundsUp (r : Rounding) (rem d : ℕ) : r.bumps rem d = roundsUp r rem d := by
  cases r <;> simp only [Rounding.bumps, roundsUp, decide_eq_decide] <;> omega

/-- The `u128` instance of `MultiplyRational` is `multiply_by_rational_with_rounding`. -/
theorem multiplyRational_eq {c : BitVec 128} (hc : c ≠ 0) (a b : BitVec 128) (r : Rounding) :
    multiplyRational 128 a.toNat b.toNat c.toNat r = (multiplyByRationalWithRounding a b c r).map BitVec.toNat := by
  have hc' : c.toNat ≠ 0 := fun h0 => hc (BitVec.eq_of_toNat_eq (by rw [h0]; rfl))
  rw [map_toNat_multiplyByRationalWithRounding hc, multiplyRational, if_neg hc', roundedDiv,
    Rounding.bumps_eq_roundsUp]

/-! ## The rounded quotient -/

@[simp] theorem roundsUp_zero (r : Rounding) {d : ℕ} (hd : 0 < d) : roundsUp r 0 d = false := by
  cases r <;> simp [roundsUp, Nat.pos_iff_ne_zero.mp hd]

/-- Every rounding that raises a remainder also raises a larger one. -/
theorem roundsUp_mono (r : Rounding) {a b : ℕ} (d : ℕ) (h : a ≤ b) (ha : roundsUp r a d = true) :
    roundsUp r b d = true := by
  cases r <;> simp [roundsUp] at ha ⊢ <;> omega

/-- The rounded quotient is monotone in the dividend, for every rounding. -/
theorem roundedDiv_mono {n m : ℕ} (d : ℕ) (h : n ≤ m) (r : Rounding) :
    roundedDiv n d r ≤ roundedDiv m d r := by
  have hq : n / d ≤ m / d := Nat.div_le_div_right h
  unfold roundedDiv
  rcases Nat.lt_or_ge (n / d) (m / d) with hlt | hge
  · -- a larger quotient outweighs the rounding of the smaller one
    split <;> split <;> omega
  · -- equal quotients: the remainders compare as the dividends do
    have heq : n / d = m / d := le_antisymm hq hge
    have hn := Nat.div_add_mod n d
    have hm := Nat.div_add_mod m d
    rw [heq] at hn
    have hrem : n % d ≤ m % d := by omega
    rw [heq]
    cases hup : roundsUp r (n % d) d with
    | false => simp
    | true => simp [roundsUp_mono r d hrem hup]

/-- A quotient of at most `k` rounds to at most `k`: at `k` itself nothing is left to round. -/
theorem roundedDiv_le_of_le_mul {n d k : ℕ} (hd : 0 < d) (h : n ≤ d * k) (r : Rounding) :
    roundedDiv n d r ≤ k := by
  have hq : n / d ≤ k := Nat.div_le_of_le_mul h
  unfold roundedDiv
  rcases Nat.lt_or_ge (n / d) k with hlt | hge
  · split <;> omega
  · -- the quotient is `k`, so the remainder is zero
    have hn := Nat.div_add_mod n d
    have hk : n / d = k := le_antisymm hq hge
    rw [hk] at hn
    have hrem : n % d = 0 := by
      have : d * k ≤ n := by omega
      omega
    rw [hrem, roundsUp_zero r hd, hk]
    rfl

theorem roundedDiv_mul_self (k : ℕ) {d : ℕ} (hd : 0 < d) (r : Rounding) : roundedDiv (k * d) d r = k := by
  rw [roundedDiv, Nat.mul_div_cancel k hd, Nat.mul_mod_left, roundsUp_zero r hd]
  rfl

end PolkadotSdk.Helpers128
