import PolkadotSdk.Helpers128

/-!
# Fixed-point numbers: truncation, floor, ceiling and rounding

A model of the `FixedPointNumber` operations of `sp_arithmetic::fixed_point` that round a
value to an integer: `trunc`, `frac`, `ceil`, `floor` and `round`, with the saturating
addition, subtraction, absolute value and multiplication they are built from. A value is
its inner integer, kept in the range of the inner type by the structure; `FixedI64`,
`FixedU64`, `FixedI128` and `FixedU128` differ only in the sign and width of that type
and in `DIV`. Multiplication goes through `I129` and `multiply_by_rational_with_rounding`.
-/

namespace PolkadotSdk.FixedPoint

open Helpers128 PerThings

/-- The largest value of a signed or unsigned integer type of `bits` bits. -/
def innerMax (signed : Bool) (bits : ℕ) : ℤ := if signed then 2 ^ (bits - 1) - 1 else 2 ^ bits - 1

/-- The smallest value of a signed or unsigned integer type of `bits` bits. -/
def innerMin (signed : Bool) (bits : ℕ) : ℤ := if signed then -2 ^ (bits - 1) else 0

/-- The arguments of `implement_fixed!`: the inner type's sign and width, and `DIV`. -/
structure FixedSpec where
  signed : Bool
  bits : ℕ
  div : ℕ
  bits_pos : 0 < bits
  bits_le : bits ≤ 128
  div_pos : 0 < div
  ten_div_le : 10 * (div : ℤ) ≤ innerMax signed bits

namespace FixedSpec

/-- `Inner::max_value()`. -/
def max (F : FixedSpec) : ℤ := innerMax F.signed F.bits

/-- `Inner::min_value()`. -/
def min (F : FixedSpec) : ℤ := innerMin F.signed F.bits

end FixedSpec

/-- `FixedI64`. -/
def fixedI64 : FixedSpec where
  signed := true
  bits := 64
  div := 1000000000
  bits_pos := by decide
  bits_le := by decide
  div_pos := by decide
  ten_div_le := by decide

/-- `FixedU64`. -/
def fixedU64 : FixedSpec where
  signed := false
  bits := 64
  div := 1000000000
  bits_pos := by decide
  bits_le := by decide
  div_pos := by decide
  ten_div_le := by decide

/-- `FixedI128`. -/
def fixedI128 : FixedSpec where
  signed := true
  bits := 128
  div := 1000000000000000000
  bits_pos := by decide
  bits_le := by decide
  div_pos := by decide
  ten_div_le := by decide

/-- `FixedU128`. -/
def fixedU128 : FixedSpec where
  signed := false
  bits := 128
  div := 1000000000000000000
  bits_pos := by decide
  bits_le := by decide
  div_pos := by decide
  ten_div_le := by decide

/-- A value of the fixed-point type `F`: its inner integer, in the inner type's range. -/
structure Fixed (F : FixedSpec) where
  inner : ℤ
  min_le : F.min ≤ inner
  le_max : inner ≤ F.max
  deriving DecidableEq

namespace FixedSpec

variable (F : FixedSpec)

theorem min_le_zero : F.min ≤ 0 := by
  unfold min innerMin
  split <;> simp

theorem max_pos : 0 < F.max := by
  have := F.ten_div_le
  have := F.div_pos
  unfold max
  omega

theorem ten_div_le_max : 10 * (F.div : ℤ) ≤ F.max := F.ten_div_le

theorem div_le_max : (F.div : ℤ) ≤ F.max := by
  have := F.ten_div_le
  unfold max
  omega

theorem max_lt : F.max < 2 ^ 128 := by
  have h1 : (2 : ℤ) ^ (F.bits - 1) ≤ 2 ^ 128 := pow_le_pow_right₀ (by norm_num) (by have := F.bits_le; omega)
  have h2 : (2 : ℤ) ^ F.bits ≤ 2 ^ 128 := pow_le_pow_right₀ (by norm_num) F.bits_le
  unfold max innerMax
  split <;> omega

/-- A signed inner type reaches one below the negated maximum. -/
theorem min_eq_of_neg (h : F.min < 0) : F.min = -F.max - 1 := by
  unfold max min innerMax innerMin at *
  split
  · ring
  · rename_i hs
    rw [if_neg hs] at h
    exact absurd h (lt_irrefl 0)

end FixedSpec

namespace Fixed

variable {F : FixedSpec}

/-- The value `z`, when it is in range: a checked conversion or negation into the inner type. -/
def ofInner? (F : FixedSpec) (z : ℤ) : Option (Fixed F) :=
  if h : F.min ≤ z ∧ z ≤ F.max then some ⟨z, h.1, h.2⟩ else none

/-- The value `z` saturated into the inner type's range. -/
def clamp (F : FixedSpec) (z : ℤ) : Fixed F :=
  ⟨max F.min (Min.min z F.max), by omega, by have := F.min_le_zero; have := F.max_pos; omega⟩

/-- `Zero::zero`. -/
def zero : Fixed F := ⟨0, F.min_le_zero, F.max_pos.le⟩

/-- `One::one`: `DIV`. -/
def one : Fixed F := ⟨F.div, by have := F.min_le_zero; omega, F.div_le_max⟩

/-- `Bounded::min_value`. -/
def minValue : Fixed F := ⟨F.min, le_rfl, by have := F.min_le_zero; have := F.max_pos; omega⟩

/-- `Bounded::max_value`. -/
def maxValue : Fixed F := ⟨F.max, by have := F.min_le_zero; have := F.max_pos; omega, le_rfl⟩

/-- `is_negative`. -/
def isNegative (x : Fixed F) : Bool := decide (x.inner < 0)

/-- `is_positive`. -/
def isPositive (x : Fixed F) : Bool := decide (0 < x.inner)

/-- `Saturating::saturating_add` of the inner values. -/
def saturatingAdd (x y : Fixed F) : Fixed F := clamp F (x.inner + y.inner)

/-- `Saturating::saturating_sub` of the inner values. -/
def saturatingSub (x y : Fixed F) : Fixed F := clamp F (x.inner - y.inner)

/-- `saturating_abs`: `checked_neg`, or the maximum for `min_value`. -/
def saturatingAbs (x : Fixed F) : Fixed F :=
  if 0 ≤ x.inner then x else (ofInner? F (-x.inner)).getD maxValue

/-- The truncated multiple of `d` is between `0` and `z`. -/
theorem tdiv_mul_between (z : ℤ) {d : ℤ} (hd : 0 < d) :
    (0 ≤ z → 0 ≤ z.tdiv d * d ∧ z.tdiv d * d ≤ z) ∧ (z ≤ 0 → z ≤ z.tdiv d * d ∧ z.tdiv d * d ≤ 0) := by
  have hsum := Int.tmod_def z d
  rw [Int.mul_comm] at hsum
  refine ⟨fun hz => ?_, fun hz => ?_⟩
  · have h1 := Int.tdiv_nonneg hz hd.le
    have h2 := Int.tmod_nonneg d hz
    constructor
    · exact Int.mul_nonneg h1 hd.le
    · omega
  · have h1 : z.tdiv d ≤ 0 := by
      have := Int.tdiv_nonneg (Int.neg_nonneg_of_nonpos hz) hd.le
      rw [Int.neg_tdiv] at this
      omega
    have h2 : z.tmod d ≤ 0 := by
      have := Int.tmod_nonneg d (Int.neg_nonneg_of_nonpos hz)
      rw [Int.neg_tmod] at this
      omega
    constructor
    · omega
    · exact Int.mul_nonpos_of_nonpos_of_nonneg h1 hd.le

/-- `trunc`: the integer part, `inner` divided by `DIV` towards zero and multiplied back;
it cannot overflow. -/
def trunc (x : Fixed F) : Fixed F :=
  ⟨x.inner.tdiv F.div * F.div,
    by
      have h := tdiv_mul_between x.inner (Int.natCast_pos.mpr F.div_pos)
      have := x.min_le
      have := F.min_le_zero
      rcases le_total 0 x.inner with hx | hx
      · have := (h.1 hx).1; omega
      · have := (h.2 hx).1; omega,
    by
      have h := tdiv_mul_between x.inner (Int.natCast_pos.mpr F.div_pos)
      have := x.le_max
      have := F.max_pos
      rcases le_total 0 x.inner with hx | hx
      · have := (h.1 hx).2; omega
      · have := (h.2 hx).2; omega⟩

/-- `frac`: the fractional part, non-negative except when the integer part is zero. -/
def frac (x : Fixed F) : Fixed F :=
  let integer := x.trunc
  let fractional := x.saturatingSub integer
  if integer = zero then fractional else fractional.saturatingAbs

/-- `ceil`. -/
def ceil (x : Fixed F) : Fixed F :=
  if x.isNegative then x.trunc
  else if x.frac = zero then x
  else (x.saturatingAdd one).trunc

/-- `floor`. -/
def floor (x : Fixed F) : Fixed F :=
  if x.isNegative then (x.saturatingSub one).trunc
  else x.trunc

/-- `I129`: a magnitude and a sign. -/
structure I129 where
  value : BitVec 128
  negative : Bool
  deriving DecidableEq, Repr

/-- `impl From<N> for I129`: the magnitude, `checked_neg` falling back to `max + 1` for the
minimum, which is the magnitude too. -/
def I129.ofInt (n : ℤ) : I129 := ⟨BitVec.ofNat 128 n.natAbs, decide (n < 0)⟩

/-- `from_i129` into the inner type. -/
def fromI129 (F : FixedSpec) (n : I129) : Option (Fixed F) :=
  -- `max_value() as u128 + 1`, saturating
  let maxPlusOne : ℕ := Min.min (F.max.toNat + 1) (2 ^ 128 - 1)
  if n.negative ∧ F.min < 0 ∧ n.value.toNat = maxPlusOne then some minValue
  else if n.value.toNat ≤ F.max.toNat then
    ofInner? F (if n.negative then -(n.value.toNat : ℤ) else n.value.toNat)
  else none

/-- `to_bound`: the maximum when `n * m` is positive, the minimum otherwise. -/
def toBound (F : FixedSpec) (n m : ℤ) : Fixed F :=
  if decide (n < 0) ≠ decide (m < 0) then minValue else maxValue

/-- `CheckedMul::checked_mul`: the product of the magnitudes divided by `DIV`, rounded
towards zero. -/
def checkedMul (x y : Fixed F) : Option (Fixed F) :=
  let lhs := I129.ofInt x.inner
  let rhs := I129.ofInt y.inner
  let negative := lhs.negative != rhs.negative
  (multiplyByRationalWithRounding lhs.value rhs.value (BitVec.ofNat 128 F.div)
    (Rounding.fromSigned .minor negative)).bind fun value => fromI129 F ⟨value, negative⟩

/-- `Saturating::saturating_mul`. -/
def saturatingMul (x y : Fixed F) : Fixed F := (x.checkedMul y).getD (toBound F x.inner y.inner)

/-- `saturating_from_integer`: `int * DIV`, saturating. -/
def saturatingFromInteger (F : FixedSpec) (int : ℤ) : Fixed F :=
  let n := I129.ofInt int
  -- `n.value.saturating_mul(DIV)` on `u128`
  let value := BitVec.ofNat 128 (Min.min (n.value.toNat * F.div) (2 ^ 128 - 1))
  (fromI129 F ⟨value, n.negative⟩).getD (toBound F int 0)

/-- `round`: the nearest integer, comparing ten times the fraction with five. -/
def round (x : Fixed F) : Fixed F :=
  let n := x.frac.saturatingMul (saturatingFromInteger F 10)
  if n.inner < (saturatingFromInteger F 5).inner then x.trunc
  else if x.isPositive then (x.saturatingAdd one).trunc
  else (x.saturatingSub one).trunc

/-- `from_rational_with_rounding`: `DIV * a / b` rounded; `none` is its panic on a zero `b` or
on a result outside the inner type. -/
def fromRationalWithRounding (F : FixedSpec) (a b : ℕ) (rounding : Rounding) : Option (Fixed F) :=
  if b = 0 then none
  else
    match multiplyByRationalWithRounding (BitVec.ofNat 128 F.div) (BitVec.ofNat 128 a) (BitVec.ofNat 128 b)
        rounding with
    | some value => fromI129 F ⟨value, false⟩
    | none => none

/-- `from_rational`: to the nearest, ties down. -/
def fromRational (F : FixedSpec) (a b : ℕ) : Option (Fixed F) :=
  fromRationalWithRounding F a b .nearestPrefDown

/-- `from_i129` into an unsigned integer type of `w` bits: the magnitude when it fits, and a
negative one only when it is zero, which `checked_neg` keeps. -/
def fromI129Unsigned (w : ℕ) (n : I129) : Option ℕ :=
  if n.value.toNat ≤ 2 ^ w - 1 then
    if n.negative then (if n.value.toNat = 0 then some 0 else none) else some n.value.toNat
  else none

/-- `checked_mul_int` into an unsigned `N` of `w` bits: the product of the magnitudes divided by
`DIV`, rounded towards zero. -/
def checkedMulInt (x : Fixed F) (w n : ℕ) : Option ℕ :=
  let lhs := I129.ofInt x.inner
  let rhs := I129.ofInt n
  let negative := lhs.negative != rhs.negative
  (multiplyByRationalWithRounding lhs.value rhs.value (BitVec.ofNat 128 F.div)
    (Rounding.fromSigned .minor negative)).bind fun value => fromI129Unsigned w ⟨value, negative⟩

/-- `saturating_mul_int`: `to_bound` when the product does not fit, which for an unsigned `N` is
`0` below zero and `N::max_value()` otherwise. -/
def saturatingMulInt (x : Fixed F) (w n : ℕ) : ℕ :=
  (x.checkedMulInt w n).getD (if x.inner < 0 then 0 else 2 ^ w - 1)

theorem ofInner?_eq_some {z : ℤ} (h1 : F.min ≤ z) (h2 : z ≤ F.max) : ofInner? F z = some ⟨z, h1, h2⟩ := by
  simp [ofInner?, h1, h2]

theorem inner_clamp {z : ℤ} (h1 : F.min ≤ z) (h2 : z ≤ F.max) : (clamp F z).inner = z := by
  simp only [clamp]
  omega

@[simp] theorem inner_zero : (zero : Fixed F).inner = 0 := rfl

@[simp] theorem inner_one : (one : Fixed F).inner = F.div := rfl

theorem inner_trunc (x : Fixed F) : x.trunc.inner = x.inner.tdiv F.div * F.div := rfl

theorem ext_inner {x y : Fixed F} (h : x.inner = y.inner) : x = y := by
  cases x
  cases y
  simp only at h
  subst h
  rfl

/-- The floor of a negative integer that is not the lowest one is one below it. -/
theorem inner_floor_of_neg_multiple {x : Fixed F} {k : ℤ} (hx : x.inner = -(k * F.div)) (hk : 0 < k)
    (hmin : F.min ≤ x.inner - F.div) : x.floor.inner = x.inner - F.div := by
  have hdiv : (0 : ℤ) < F.div := Int.natCast_pos.mpr F.div_pos
  have hneg : x.isNegative = true := by
    simp only [isNegative, decide_eq_true_eq, hx]
    nlinarith
  have hsub : (x.saturatingSub one).inner = x.inner - F.div := by
    rw [saturatingSub, inner_one]
    exact inner_clamp hmin (by have := x.le_max; omega)
  have hmul : x.inner - F.div = -(k + 1) * F.div := by rw [hx]; ring
  rw [floor, if_pos hneg, inner_trunc, hsub, hmul, Int.mul_tdiv_cancel _ hdiv.ne']

/-- A value strictly between `-1` and `1` truncates to zero. -/
theorem trunc_eq_zero {x : Fixed F} (h1 : -(F.div : ℤ) < x.inner) (h2 : x.inner < F.div) : x.trunc = zero := by
  apply ext_inner
  rw [inner_trunc, inner_zero]
  rcases le_total 0 x.inner with hx | hx
  · rw [Int.tdiv_eq_zero_of_lt hx h2, Int.zero_mul]
  · have h := Int.tdiv_eq_zero_of_lt (Int.neg_nonneg_of_nonpos hx) (by omega : -x.inner < F.div)
    rw [Int.neg_tdiv] at h
    have h' : x.inner.tdiv F.div = 0 := by omega
    rw [h', Int.zero_mul]

/-- With a zero integer part, the fraction is the value itself, sign included. -/
theorem frac_eq_self {x : Fixed F} (h : x.trunc = zero) : x.frac = x := by
  simp only [frac, h, if_true]
  apply ext_inner
  rw [saturatingSub, inner_zero, Int.sub_zero]
  exact inner_clamp x.min_le x.le_max

theorem fromI129_of_nonneg {v : BitVec 128} (h : (v.toNat : ℤ) ≤ F.max) :
    fromI129 F ⟨v, false⟩ = some ⟨v.toNat, by have := F.min_le_zero; omega, h⟩ := by
  have hle : v.toNat ≤ F.max.toNat := by omega
  simp only [fromI129, Bool.false_eq_true, false_and, if_false, if_pos hle]
  exact ofInner?_eq_some _ h

/-- A negative magnitude below the maximum converts to its negation. -/
theorem fromI129_of_neg {v : BitVec 128} (h : (v.toNat : ℤ) < F.max) (hmin : F.min ≤ -(v.toNat : ℤ)) :
    fromI129 F ⟨v, true⟩ = some ⟨-(v.toNat : ℤ), hmin, by have := F.max_pos; omega⟩ := by
  have hle : v.toNat ≤ F.max.toNat := by omega
  have hne : v.toNat ≠ Min.min (F.max.toNat + 1) (2 ^ 128 - 1) := by
    have := F.max_lt
    omega
  simp only [fromI129, if_true, hne, and_false, if_false, if_pos hle]
  exact ofInner?_eq_some hmin _

/-- `saturating_from_integer` of a natural whose multiple of `DIV` fits is that multiple. -/
theorem inner_saturatingFromInteger_of_le {n : ℕ} (hn : ((n * F.div : ℕ) : ℤ) ≤ F.max) :
    (saturatingFromInteger F n).inner = n * F.div := by
  have hmax := F.max_lt
  have hfit : n * F.div < 2 ^ 128 := by omega
  have hn128 : n < 2 ^ 128 := lt_of_le_of_lt (Nat.le_mul_of_pos_right n F.div_pos) hfit
  have hval : (BitVec.ofNat 128 (Min.min ((BitVec.ofNat 128 (n : ℤ).natAbs).toNat * F.div) (2 ^ 128 - 1))).toNat =
      n * F.div := by
    rw [Int.natAbs_natCast, BitVec.toNat_ofNat, BitVec.toNat_ofNat, Nat.mod_eq_of_lt hn128]
    omega
  have hneg : decide ((n : ℤ) < 0) = false := by simp
  simp only [saturatingFromInteger, I129.ofInt, hneg]
  rw [fromI129_of_nonneg (by rw [hval]; exact hn)]
  simp only [Option.getD_some, hval]
  push_cast
  rfl

/-- `saturating_from_integer` of a small natural is that many times `DIV`. -/
theorem inner_saturatingFromInteger {n : ℕ} (hn : n ≤ 10) :
    (saturatingFromInteger F n).inner = n * F.div := by
  have hten := F.ten_div_le_max
  apply inner_saturatingFromInteger_of_le
  have : (n : ℤ) * F.div ≤ 10 * F.div := Int.mul_le_mul_of_nonneg_right (by omega) (by omega)
  push_cast
  omega

/-- Ten times a value strictly between `-1` and `0` is exact: the magnitudes are multiplied by
`multiply_by_rational_with_rounding`, rounded towards zero, and the sign put back. -/
theorem inner_saturatingMul_ten_of_neg {x : Fixed F} (h1 : -(F.div : ℤ) < x.inner) (h2 : x.inner < 0) :
    (x.saturatingMul (saturatingFromInteger F 10)).inner = 10 * x.inner := by
  have hten := F.ten_div_le_max
  have hmax := F.max_lt
  have hmin := F.min_eq_of_neg (lt_of_le_of_lt x.min_le h2)
  have hy : (saturatingFromInteger F 10).inner = 10 * F.div := by
    have h := @inner_saturatingFromInteger F 10 (by norm_num)
    push_cast at h
    exact h
  have habs : (x.inner.natAbs : ℤ) = -x.inner := by omega
  have hxa : (BitVec.ofNat 128 x.inner.natAbs).toNat = x.inner.natAbs := by
    rw [BitVec.toNat_ofNat, Nat.mod_eq_of_lt (by omega)]
  have hya : (BitVec.ofNat 128 (saturatingFromInteger F 10).inner.natAbs).toNat = 10 * F.div := by
    rw [hy, BitVec.toNat_ofNat, Nat.mod_eq_of_lt (by omega)]
    omega
  have hc : (BitVec.ofNat 128 F.div).toNat = F.div := by
    rw [BitVec.toNat_ofNat, Nat.mod_eq_of_lt (by omega)]
  have hc0 : BitVec.ofNat 128 F.div ≠ 0 := by
    intro h0
    have := congrArg BitVec.toNat h0
    rw [hc] at this
    exact absurd this (by have := F.div_pos; simp; omega)
  -- the quotient of the magnitudes is `10 * |x|`, far below `2^128`
  have hq : x.inner.natAbs * (10 * F.div) / F.div = 10 * x.inner.natAbs := by
    rw [show x.inner.natAbs * (10 * F.div) = 10 * x.inner.natAbs * F.div by ring]
    exact Nat.mul_div_cancel _ F.div_pos
  have hm := map_toNat_multiplyByRationalWithRounding hc0 (BitVec.ofNat 128 x.inner.natAbs)
    (BitVec.ofNat 128 (saturatingFromInteger F 10).inner.natAbs) .down
  rw [hxa, hya, hc] at hm
  simp only [roundedDiv, roundsUp, Bool.false_eq_true, if_false, Nat.add_zero, hq] at hm
  rw [if_pos (by omega)] at hm
  obtain ⟨v, hv, hvt⟩ := Option.map_eq_some_iff.mp hm
  have hneg : (decide (x.inner < 0) != decide ((saturatingFromInteger F 10).inner < 0)) = true := by
    rw [hy]
    simp [h2]
  have hround : Rounding.fromSigned .minor true = .down := rfl
  simp only [saturatingMul, checkedMul, I129.ofInt, hneg, hround, hv, Option.bind_some]
  rw [fromI129_of_neg (by rw [hvt]; omega) (by rw [hvt]; omega)]
  simp only [Option.getD_some, hvt]
  omega

/-- A value strictly between `-1` and `0` rounds to zero: its fraction keeps its sign, so ten
times it is below five. -/
theorem inner_round_of_neg_gt {x : Fixed F} (h1 : -(F.div : ℤ) < x.inner) (h2 : x.inner < 0) :
    x.round.inner = 0 := by
  have htrunc := trunc_eq_zero h1 (by omega)
  have hfrac := frac_eq_self htrunc
  have hfive : (saturatingFromInteger F 5).inner = 5 * F.div := by
    have h := @inner_saturatingFromInteger F 5 (by norm_num)
    push_cast at h
    exact h
  have hn := inner_saturatingMul_ten_of_neg h1 h2
  have hlt : (x.frac.saturatingMul (saturatingFromInteger F 10)).inner < (saturatingFromInteger F 5).inner := by
    rw [hfrac, hn, hfive]
    have := F.div_pos
    omega
  rw [round, if_pos hlt, htrunc, inner_zero]

/-! ### Rationals and integers -/

theorem toNat_ofNat_div : (BitVec.ofNat 128 F.div).toNat = F.div := by
  have := F.div_le_max
  have := F.max_lt
  rw [BitVec.toNat_ofNat, Nat.mod_eq_of_lt (by omega)]

theorem ofNat_div_ne_zero : BitVec.ofNat 128 F.div ≠ 0 := by
  intro h0
  have := congrArg BitVec.toNat h0
  rw [toNat_ofNat_div] at this
  exact absurd this (by have := F.div_pos; simp; omega)

/-- `from_rational_with_rounding` of `u128` arguments is `DIV * a / b` rounded, when that fits. -/
theorem inner_fromRationalWithRounding {a b : ℕ} (ha : a < 2 ^ 128) (hb : 0 < b) (hb' : b < 2 ^ 128)
    (r : Rounding) (hfit : (roundedDiv (F.div * a) b r : ℤ) ≤ F.max) :
    (fromRationalWithRounding F a b r).map inner = some (roundedDiv (F.div * a) b r) := by
  have hmax := F.max_lt
  have ha' : (BitVec.ofNat 128 a).toNat = a := by rw [BitVec.toNat_ofNat, Nat.mod_eq_of_lt ha]
  have hb'' : (BitVec.ofNat 128 b).toNat = b := by rw [BitVec.toNat_ofNat, Nat.mod_eq_of_lt hb']
  have hc0 : BitVec.ofNat 128 b ≠ 0 := by
    intro h0
    have := congrArg BitVec.toNat h0
    rw [hb''] at this
    simp at this
    omega
  have hm := map_toNat_multiplyByRationalWithRounding hc0 (BitVec.ofNat 128 F.div) (BitVec.ofNat 128 a) r
  rw [toNat_ofNat_div, ha', hb'', if_pos (by omega)] at hm
  obtain ⟨v, hv, hvt⟩ := Option.map_eq_some_iff.mp hm
  rw [fromRationalWithRounding, if_neg (by omega), hv]
  dsimp only
  rw [fromI129_of_nonneg (by rw [hvt]; exact hfit)]
  simp [hvt]

/-- `checked_mul_int` of a non-negative value is the floored product, when it fits in `N`. -/
theorem checkedMulInt_of_nonneg {x : Fixed F} (hx : 0 ≤ x.inner) {w n : ℕ} (hn : n < 2 ^ 128) (hw : w ≤ 128) :
    x.checkedMulInt w n =
      if x.inner.toNat * n / F.div ≤ 2 ^ w - 1 then some (x.inner.toNat * n / F.div) else none := by
  have hmax := F.max_lt
  have hle := x.le_max
  have hxa : (BitVec.ofNat 128 x.inner.natAbs).toNat = x.inner.toNat := by
    rw [BitVec.toNat_ofNat, Nat.mod_eq_of_lt (by omega)]
    omega
  have hna : (BitVec.ofNat 128 (n : ℤ).natAbs).toNat = n := by
    rw [Int.natAbs_natCast, BitVec.toNat_ofNat, Nat.mod_eq_of_lt hn]
  have hneg : (decide (x.inner < 0) != decide ((n : ℤ) < 0)) = false := by
    simp [Int.not_lt.mpr hx]
  have hround : Rounding.fromSigned .minor false = .down := rfl
  have hw' : 2 ^ w ≤ 2 ^ 128 := Nat.pow_le_pow_right (by norm_num) hw
  have hm := map_toNat_multiplyByRationalWithRounding (@ofNat_div_ne_zero F) (BitVec.ofNat 128 x.inner.natAbs)
    (BitVec.ofNat 128 (n : ℤ).natAbs) .down
  rw [hxa, hna, toNat_ofNat_div] at hm
  simp only [roundedDiv, roundsUp, Bool.false_eq_true, if_false, Nat.add_zero] at hm
  simp only [checkedMulInt, I129.ofInt, hneg, hround]
  by_cases hfit : x.inner.toNat * n / F.div ≤ 2 ^ 128 - 1
  · -- the `u128` quotient is the product; `N` may still be narrower
    rw [if_pos hfit] at hm
    obtain ⟨v, hv, hvt⟩ := Option.map_eq_some_iff.mp hm
    rw [hv, Option.bind_some, fromI129Unsigned, hvt]
    simp
  · rw [if_neg hfit] at hm
    rw [Option.map_eq_none_iff.mp hm, Option.bind_none, if_neg (by omega)]

/-- A non-negative value times an integer is exact while the product fits: the magnitudes are
multiplied and divided by `DIV` again. -/
theorem inner_saturatingMul_integer {x : Fixed F} (hx : 0 ≤ x.inner) {k : ℕ}
    (hk : ((k * F.div : ℕ) : ℤ) ≤ F.max) (hfit : ((k * x.inner.toNat : ℕ) : ℤ) ≤ F.max) :
    (x.saturatingMul (saturatingFromInteger F k)).inner = k * x.inner := by
  have hmax := F.max_lt
  have hle := x.le_max
  have hy := inner_saturatingFromInteger_of_le hk
  have hxa : (BitVec.ofNat 128 x.inner.natAbs).toNat = x.inner.toNat := by
    rw [BitVec.toNat_ofNat, Nat.mod_eq_of_lt (by omega)]
    omega
  have hya : (BitVec.ofNat 128 (saturatingFromInteger F k).inner.natAbs).toNat = k * F.div := by
    rw [hy, Int.natAbs_mul, Int.natAbs_natCast, Int.natAbs_natCast, BitVec.toNat_ofNat,
      Nat.mod_eq_of_lt (by omega)]
  have hq : x.inner.toNat * (k * F.div) / F.div = k * x.inner.toNat := by
    rw [show x.inner.toNat * (k * F.div) = k * x.inner.toNat * F.div by ring]
    exact Nat.mul_div_cancel _ F.div_pos
  have hm := map_toNat_multiplyByRationalWithRounding (@ofNat_div_ne_zero F) (BitVec.ofNat 128 x.inner.natAbs)
    (BitVec.ofNat 128 (saturatingFromInteger F k).inner.natAbs) .down
  rw [hxa, hya, toNat_ofNat_div] at hm
  simp only [roundedDiv, roundsUp, Bool.false_eq_true, if_false, Nat.add_zero, hq] at hm
  rw [if_pos (by omega)] at hm
  obtain ⟨v, hv, hvt⟩ := Option.map_eq_some_iff.mp hm
  have hneg : (decide (x.inner < 0) != decide ((saturatingFromInteger F k).inner < 0)) = false := by
    rw [hy]
    simp only [Int.not_lt.mpr hx, Int.not_lt.mpr (by positivity : (0 : ℤ) ≤ k * F.div), decide_false,
      bne_self_eq_false]
  have hround : Rounding.fromSigned .minor false = .down := rfl
  simp only [saturatingMul, checkedMul, I129.ofInt, hneg, hround, hv, Option.bind_some]
  rw [fromI129_of_nonneg (by rw [hvt]; exact hfit)]
  simp only [Option.getD_some, hvt]
  push_cast
  rw [Int.toNat_of_nonneg hx]

/-- `saturating_mul_int` of a non-negative value is the floored product, saturated at `N::MAX`. -/
theorem saturatingMulInt_of_nonneg {x : Fixed F} (hx : 0 ≤ x.inner) {w n : ℕ} (hn : n < 2 ^ 128) (hw : w ≤ 128) :
    x.saturatingMulInt w n = Min.min (x.inner.toNat * n / F.div) (2 ^ w - 1) := by
  rw [saturatingMulInt, checkedMulInt_of_nonneg hx hn hw]
  split
  · rename_i hfit
    rw [Option.getD_some, Nat.min_eq_left hfit]
  · rename_i hfit
    rw [Option.getD_none, if_neg (Int.not_lt.mpr hx), Nat.min_eq_right (by omega)]

end Fixed

open Fixed

/-- On `FixedI64` and `FixedI128`, the floor of `-1` is `-2` and `-1/2` rounds to `0`. -/
theorem floor_round_below_zero :
    (floor (⟨-1000000000, by decide, by decide⟩ : Fixed fixedI64)).inner = -2000000000 ∧
      (round (⟨-500000000, by decide, by decide⟩ : Fixed fixedI64)).inner = 0 ∧
      (floor (⟨-1000000000000000000, by decide, by decide⟩ : Fixed fixedI128)).inner = -2000000000000000000 ∧
      (round (⟨-500000000000000000, by decide, by decide⟩ : Fixed fixedI128)).inner = 0 := by
  refine ⟨?_, ?_, ?_, ?_⟩
  · exact inner_floor_of_neg_multiple (k := 1) rfl (by decide) (by decide)
  · exact inner_round_of_neg_gt (by decide) (by decide)
  · exact inner_floor_of_neg_multiple (k := 1) rfl (by decide) (by decide)
  · exact inner_round_of_neg_gt (by decide) (by decide)

end PolkadotSdk.FixedPoint
