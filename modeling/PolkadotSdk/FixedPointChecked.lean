import PolkadotSdk.FixedPoint

/-!
# Checked multiplication and division of fixed-point numbers

`CheckedMul` and `CheckedDiv` go through the sign and magnitude of an `I129`: the magnitudes
are multiplied and divided in 256 bits, rounded towards zero (`SignedRounding::Minor`), and the
sign is put back by `from_i129`. The result is the truncated quotient `a * b / DIV` (or
`a * DIV / b`) whenever it is a value of the inner type, and `None` otherwise.

The `const` functions of `implement_fixed!` convert with casts instead: `into_i129` and the
`const` `from_i129`, which casts the magnitude into the inner type and rejects it when the cast
changed its bits or its sign. Both conversions agree with the generic ones on every input, so
the generic `checked_mul` and `checked_div` are the `const` ones at `SignedRounding::Minor`.
-/

namespace PolkadotSdk.FixedPoint

open Helpers128 PerThings

/-- `n as $inner_type` for a `u128` value `n`: its low `bits` bits, read in two's complement
when the inner type is signed. -/
def castInner (F : FixedSpec) (n : ℕ) : ℤ :=
  if F.signed ∧ 2 ^ (F.bits - 1) ≤ n % 2 ^ F.bits then (n % 2 ^ F.bits : ℕ) - (2 ^ F.bits : ℤ)
  else (n % 2 ^ F.bits : ℕ)

/-- `x as u128` for a value of the inner type: its two's complement in 128 bits. -/
def innerAsU128 (z : ℤ) : ℕ := (z % 2 ^ 128).toNat

namespace Fixed

variable {F : FixedSpec}

/-- The number an `I129` stands for. -/
def I129.toInt (n : I129) : ℤ := if n.negative then -(n.value.toNat : ℤ) else n.value.toNat

/-- The `const fn into_i129` of `implement_fixed!`: `checked_neg`, or `max_value() as u128 + 1`
for the minimum. -/
def intoI129 (x : Fixed F) : I129 :=
  if x.inner < 0 then
    ⟨BitVec.ofNat 128 (if F.min < x.inner then (-x.inner).toNat else Min.min (F.max.toNat + 1) (2 ^ 128 - 1)),
      true⟩
  else ⟨BitVec.ofNat 128 x.inner.toNat, false⟩

/-- The `const fn from_i129` of `implement_fixed!`: the minimum for the magnitude one above the
maximum, and otherwise the magnitude cast into the inner type, rejected when the cast changed its
bits or its sign, then negated with `checked_neg`. -/
def constFromI129 (F : FixedSpec) (n : I129) : Option (Fixed F) :=
  let maxPlusOne : ℕ := Min.min (F.max.toNat + 1) (2 ^ 128 - 1)
  if n.negative ∧ F.min < 0 ∧ n.value.toNat = maxPlusOne then some minValue
  else
    let unsignedInner := castInner F n.value.toNat
    if innerAsU128 unsignedInner ≠ n.value.toNat ∨ decide (0 < unsignedInner) ≠ decide (0 < n.value.toNat) then none
    else if n.negative then ofInner? F (-unsignedInner)
    else ofInner? F unsignedInner

/-- `const_checked_mul_with_rounding`. -/
def constCheckedMulWithRounding (x other : Fixed F) (rounding : SignedRounding) : Option (Fixed F) :=
  let lhs := x.intoI129
  let rhs := other.intoI129
  let negative := lhs.negative != rhs.negative
  match multiplyByRationalWithRounding lhs.value rhs.value (BitVec.ofNat 128 F.div)
      (Rounding.fromSigned rounding negative) with
  | some value => constFromI129 F ⟨value, negative⟩
  | none => none

/-- `checked_rounding_div`. -/
def checkedRoundingDiv (x other : Fixed F) (rounding : SignedRounding) : Option (Fixed F) :=
  if other.inner = 0 then none
  else
    let lhs := x.intoI129
    let rhs := other.intoI129
    let negative := lhs.negative != rhs.negative
    match multiplyByRationalWithRounding lhs.value (BitVec.ofNat 128 F.div) rhs.value
        (Rounding.fromSigned rounding negative) with
    | some value => constFromI129 F ⟨value, negative⟩
    | none => none

/-- `CheckedDiv::checked_div`: the magnitude times `DIV` over the divisor's, rounded towards
zero. -/
def checkedDiv (x other : Fixed F) : Option (Fixed F) :=
  if other.inner = 0 then none
  else
    let lhs := I129.ofInt x.inner
    let rhs := I129.ofInt other.inner
    let negative := lhs.negative != rhs.negative
    (multiplyByRationalWithRounding lhs.value (BitVec.ofNat 128 F.div) rhs.value
      (Rounding.fromSigned .minor negative)).bind fun value => fromI129 F ⟨value, negative⟩

/-! ## The two `I129` conversions -/

theorem ofInner?_eq_some_iff {z : ℤ} {c : Fixed F} :
    ofInner? F z = some c ↔ F.min ≤ z ∧ z ≤ F.max ∧ c.inner = z := by
  unfold ofInner?
  split
  · rename_i h
    constructor
    · intro hc
      cases hc
      exact ⟨h.1, h.2, rfl⟩
    · rintro ⟨-, -, hc⟩
      exact congrArg some (ext_inner hc.symm)
  · rename_i h
    simp only [reduceCtorEq, false_iff, not_and]
    intro h1 h2
    exact absurd ⟨h1, h2⟩ h

/-- A signed inner type has its maximum below `2^127`. -/
theorem max_lt_of_min_neg (h : F.min < 0) : F.max < 2 ^ 127 := by
  have hmin : F.min = -2 ^ (F.bits - 1) := by
    unfold FixedSpec.min innerMin at *
    split at h
    · rename_i hs
      rw [if_pos hs]
    · exact absurd h (lt_irrefl 0)
  have hpow : (2 : ℤ) ^ (F.bits - 1) ≤ 2 ^ 127 :=
    pow_le_pow_right₀ (by norm_num) (by have := F.bits_le; omega)
  have := F.min_eq_of_neg h
  omega

/-- The magnitude of an inner value is below `2^128`. -/
theorem natAbs_lt (x : Fixed F) : x.inner.natAbs < 2 ^ 128 := by
  have hmax := F.max_lt
  have hle := x.le_max
  have hge := x.min_le
  rcases lt_or_ge F.min 0 with hneg | hnn
  · have := max_lt_of_min_neg hneg
    have := F.min_eq_of_neg hneg
    omega
  · omega

/-- The generic `from_i129` is the checked conversion of the number the `I129` stands for. -/
theorem fromI129_eq (n : I129) : fromI129 F n = ofInner? F n.toInt := by
  have hmax := F.max_lt
  have hpos := F.max_pos
  unfold fromI129
  dsimp only
  by_cases hspecial : n.negative ∧ F.min < 0 ∧ n.value.toNat = Min.min (F.max.toNat + 1) (2 ^ 128 - 1)
  · -- the magnitude one above a signed maximum is the minimum
    obtain ⟨hneg, hmin, hval⟩ := hspecial
    have hsmall := max_lt_of_min_neg hmin
    have hm := F.min_eq_of_neg hmin
    have hv : (n.value.toNat : ℤ) = F.max + 1 := by
      rw [hval, min_eq_left (by omega)]
      omega
    have ht : n.toInt = F.min := by
      rw [I129.toInt, if_pos hneg, hv, hm]
      ring
    rw [if_pos ⟨hneg, hmin, hval⟩, ht]
    exact (ofInner?_eq_some_iff.mpr ⟨le_rfl, by omega, rfl⟩).symm
  · rw [if_neg hspecial]
    by_cases hle : n.value.toNat ≤ F.max.toNat
    · rw [if_pos hle]
      rfl
    · -- past the maximum, and not the minimum's magnitude: out of range with either sign
      rw [if_neg hle]
      symm
      unfold ofInner?
      rw [dif_neg]
      rintro ⟨h1, h2⟩
      unfold I129.toInt at h1 h2
      cases hn : n.negative
      · simp only [hn, Bool.false_eq_true, if_false] at h2
        omega
      · simp only [hn, if_true, true_and] at h1 hspecial
        rcases lt_or_ge F.min 0 with hmin | hmin
        · have hsmall := max_lt_of_min_neg hmin
          have hm := F.min_eq_of_neg hmin
          rw [min_eq_left (by omega)] at hspecial
          have hne : n.value.toNat ≠ F.max.toNat + 1 := fun he => hspecial ⟨hmin, he⟩
          omega
        · omega

theorem toNat_two_pow_sub_one (k : ℕ) : ((2 : ℤ) ^ k - 1).toNat = 2 ^ k - 1 := by
  have hP : 1 ≤ 2 ^ k := Nat.one_le_two_pow
  have hcast : (2 : ℤ) ^ k = ((2 ^ k : ℕ) : ℤ) := by push_cast; rfl
  rw [hcast]
  omega

/-- `castInner` of a magnitude at most the maximum is that magnitude. -/
theorem castInner_of_le {v : ℕ} (h : v ≤ F.max.toNat) : castInner F v = v := by
  have hb := F.bits_pos
  have hlt : 2 ^ (F.bits - 1) < 2 ^ F.bits := Nat.pow_lt_pow_right (by decide) (by omega)
  unfold castInner
  unfold FixedSpec.max innerMax at h
  cases hs : F.signed
  · -- unsigned: the magnitude is below `2^bits`
    simp only [hs, Bool.false_eq_true, if_false, toNat_two_pow_sub_one] at h
    have hv : v < 2 ^ F.bits := by have := Nat.one_le_two_pow (n := F.bits); omega
    rw [if_neg (by simp), Nat.mod_eq_of_lt hv]
  · -- signed: the magnitude is below `2^(bits - 1)`, where the cast reads it unchanged
    simp only [hs, if_true, toNat_two_pow_sub_one] at h
    have hv : v < 2 ^ (F.bits - 1) := by have := Nat.one_le_two_pow (n := F.bits - 1); omega
    rw [Nat.mod_eq_of_lt (by omega), if_neg (by omega)]

theorem innerAsU128_of_lt {z : ℤ} (h0 : 0 ≤ z) (h : z < 2 ^ 128) : innerAsU128 z = z.toNat := by
  rw [innerAsU128, Int.emod_eq_of_lt h0 h]

/-- A magnitude past the maximum does not survive the cast: its bits change, or, when the cast
lands on a negative value, its sign does. -/
theorem castInner_changes {v : ℕ} (hv : v < 2 ^ 128) (h : F.max.toNat < v) :
    innerAsU128 (castInner F v) ≠ v ∨ decide (0 < castInner F v) ≠ decide (0 < v) := by
  have hb := F.bits_pos
  have hle := F.bits_le
  have hQ : 2 ^ F.bits = 2 * 2 ^ (F.bits - 1) := by
    rw [← Nat.pow_succ']
    congr 1
    omega
  have hQ128 : 2 ^ F.bits ≤ 2 ^ 128 := Nat.pow_le_pow_right (by decide) hle
  have hmod : v % 2 ^ F.bits < 2 ^ F.bits := Nat.mod_lt _ (by positivity)
  have hmodle : v % 2 ^ F.bits ≤ v := Nat.mod_le _ _
  unfold castInner
  unfold FixedSpec.max innerMax at h
  cases hs : F.signed
  · -- unsigned: the low bits of a magnitude of `2^bits` or more are not the magnitude
    simp only [hs, Bool.false_eq_true, if_false, toNat_two_pow_sub_one] at h
    left
    rw [if_neg (by simp), innerAsU128_of_lt (by positivity) (by omega), Int.toNat_natCast]
    have := Nat.one_le_two_pow (n := F.bits)
    omega
  · simp only [hs, if_true, toNat_two_pow_sub_one] at h
    have := Nat.one_le_two_pow (n := F.bits - 1)
    by_cases htop : 2 ^ (F.bits - 1) ≤ v % 2 ^ F.bits
    · -- the cast reads a negative value: the sign differs
      right
      rw [if_pos ⟨rfl, htop⟩]
      have hneg : ((v % 2 ^ F.bits : ℕ) : ℤ) - 2 ^ F.bits < 0 := by
        have : (2 : ℤ) ^ F.bits = ((2 ^ F.bits : ℕ) : ℤ) := by push_cast; rfl
        omega
      simp only [ne_eq, decide_eq_decide, not_iff]
      omega
    · -- the cast reads the low bits, which lose the high ones
      left
      rw [if_neg (fun hc => htop hc.2), innerAsU128_of_lt (by positivity) (by omega), Int.toNat_natCast]
      omega

/-- The `const` `from_i129` agrees with the generic one. -/
theorem constFromI129_eq (n : I129) : constFromI129 F n = fromI129 F n := by
  unfold constFromI129 fromI129
  dsimp only
  by_cases hspecial : n.negative ∧ F.min < 0 ∧ n.value.toNat = Min.min (F.max.toNat + 1) (2 ^ 128 - 1)
  · rw [if_pos hspecial, if_pos hspecial]
  · rw [if_neg hspecial, if_neg hspecial]
    by_cases hle : n.value.toNat ≤ F.max.toNat
    · -- the cast keeps the magnitude, and `checked_neg` is the checked negation
      have hlt := n.value.isLt
      rw [if_pos hle, castInner_of_le hle, innerAsU128_of_lt (by positivity) (by exact_mod_cast hlt),
        Int.toNat_natCast, if_neg (by simp)]
      cases n.negative <;> rfl
    · rw [if_neg hle, if_pos (castInner_changes n.value.isLt (by omega))]

/-- The `const` `into_i129` agrees with the generic `From`. -/
theorem intoI129_eq (x : Fixed F) : x.intoI129 = I129.ofInt x.inner := by
  unfold intoI129 I129.ofInt
  by_cases hneg : x.inner < 0
  · rw [if_pos hneg, decide_eq_true hneg]
    by_cases hmin : F.min < x.inner
    · rw [if_pos hmin]
      congr 2
      omega
    · -- the minimum: its magnitude is one above the maximum
      rw [if_neg hmin]
      have hx : x.inner = F.min := le_antisymm (not_lt.mp hmin) x.min_le
      have hsmall := max_lt_of_min_neg (hx ▸ hneg)
      have hm := F.min_eq_of_neg (hx ▸ hneg)
      have hpos := F.max_pos
      rw [min_eq_left (by omega)]
      congr 2
      omega
  · rw [if_neg hneg, decide_eq_false hneg]
    congr 2
    omega

/-! ## Sign and magnitude -/

/-- Truncating division is the quotient of the magnitudes, negated when exactly one side is
negative. -/
theorem tdiv_eq_signMagnitude (z w : ℤ) :
    z.tdiv w = if (decide (z < 0) != decide (w < 0)) = true then -((z.natAbs / w.natAbs : ℕ) : ℤ)
      else ((z.natAbs / w.natAbs : ℕ) : ℤ) := by
  rcases Int.natAbs_eq z with hz | hz <;> rcases Int.natAbs_eq w with hw | hw
  · -- both non-negative
    conv_lhs => rw [hz, hw]
    rw [← Int.ofNat_tdiv, if_neg (by simp; omega)]
  · conv_lhs => rw [hz, hw]
    rw [Int.tdiv_neg, ← Int.ofNat_tdiv]
    by_cases h0 : w.natAbs = 0
    · simp [h0]
    · by_cases hz0 : z.natAbs = 0
      · simp [hz0]
      · rw [if_pos (by simp; omega)]
  · conv_lhs => rw [hz, hw]
    rw [Int.neg_tdiv, ← Int.ofNat_tdiv]
    by_cases hz0 : z.natAbs = 0
    · simp [hz0]
    · rw [if_pos (by simp; omega)]
  · -- both negative
    conv_lhs => rw [hz, hw]
    rw [Int.neg_tdiv, Int.tdiv_neg, neg_neg, ← Int.ofNat_tdiv]
    by_cases hz0 : z.natAbs = 0
    · simp [hz0]
    · by_cases h0 : w.natAbs = 0
      · simp [h0]
      · rw [if_neg (by simp; omega)]

theorem roundedDiv_down (n d : ℕ) : roundedDiv n d .down = n / d := by
  simp [roundedDiv, roundsUp]

theorem fromSigned_minor (b : Bool) : Rounding.fromSigned .minor b = .down := by
  cases b <;> rfl

theorem toNat_ofNat_natAbs (x : Fixed F) : (BitVec.ofNat 128 x.inner.natAbs).toNat = x.inner.natAbs := by
  rw [BitVec.toNat_ofNat, Nat.mod_eq_of_lt x.natAbs_lt]

/-- A value whose magnitude does not fit a `u128` is out of range. -/
theorem ofInner?_of_le_natAbs {t : ℤ} (ht : 2 ^ 128 ≤ t.natAbs) : ofInner? F t = none := by
  have hmax := F.max_lt
  unfold ofInner?
  rw [dif_neg]
  rintro ⟨h1, h2⟩
  rcases lt_or_ge F.min 0 with hmin | hmin
  · have := max_lt_of_min_neg hmin
    have := F.min_eq_of_neg hmin
    omega
  · omega

/-- The magnitudes divided in 256 bits towards zero, and the sign put back: the signed quotient
when it is a value of the inner type. -/
theorem bind_fromI129_down {a b c : BitVec 128} (hc : c ≠ 0) (negative : Bool) {t : ℤ}
    (ht : t = if negative then -((a.toNat * b.toNat / c.toNat : ℕ) : ℤ) else ((a.toNat * b.toNat / c.toNat : ℕ) : ℤ)) :
    (multiplyByRationalWithRounding a b c .down).bind (fun value => fromI129 F ⟨value, negative⟩) = ofInner? F t := by
  have hm := map_toNat_multiplyByRationalWithRounding hc a b .down
  rw [roundedDiv_down] at hm
  by_cases hq : a.toNat * b.toNat / c.toNat ≤ 2 ^ 128 - 1
  · rw [if_pos hq] at hm
    obtain ⟨v, hv, hvq⟩ := Option.map_eq_some_iff.mp hm
    rw [hv, Option.bind_some, fromI129_eq, ht, I129.toInt, hvq]
  · -- the quotient does not fit, and neither does the value
    rw [if_neg hq, Option.map_eq_none_iff] at hm
    rw [hm, Option.bind_none, ofInner?_of_le_natAbs]
    rw [ht]
    cases negative <;>
      simp only [Bool.false_eq_true, if_false, if_true, Int.natAbs_neg, Int.natAbs_natCast] <;> omega

/-- `checked_mul` is the product truncated towards zero, checked against the inner range. -/
theorem checkedMul_eq (x y : Fixed F) : x.checkedMul y = ofInner? F ((x.inner * y.inner).tdiv F.div) := by
  unfold checkedMul I129.ofInt
  dsimp only
  rw [fromSigned_minor]
  apply bind_fromI129_down ofNat_div_ne_zero
  rw [tdiv_eq_signMagnitude, toNat_ofNat_natAbs, toNat_ofNat_natAbs, toNat_ofNat_div, Int.natAbs_mul,
    Int.natAbs_natCast]
  by_cases hq : x.inner.natAbs * y.inner.natAbs / F.div = 0
  · simp [hq]
  · -- a nonzero quotient has nonzero factors, whose signs give the product's
    have hx : x.inner ≠ 0 := by rintro h0; simp [h0] at hq
    have hy : y.inner ≠ 0 := by rintro h0; simp [h0] at hq
    have hsign : decide (x.inner * y.inner < 0) = (decide (x.inner < 0) != decide (y.inner < 0)) := by
      rcases lt_or_gt_of_ne hx with hx' | hx' <;> rcases lt_or_gt_of_ne hy with hy' | hy' <;>
        simp [hx', hy', mul_neg_iff, not_lt.mpr hx'.le, not_lt.mpr hy'.le]
    have hdiv : ¬ ((F.div : ℤ) < 0) := by omega
    rw [hsign, decide_eq_false hdiv, Bool.bne_false]

/-- `checked_div` by a nonzero value is `a * DIV / b` truncated towards zero, checked against the
inner range. -/
theorem checkedDiv_eq (x y : Fixed F) (hy : y.inner ≠ 0) :
    x.checkedDiv y = ofInner? F ((x.inner * F.div).tdiv y.inner) := by
  have hy0 : BitVec.ofNat 128 y.inner.natAbs ≠ 0 := by
    intro h0
    have := congrArg BitVec.toNat h0
    rw [toNat_ofNat_natAbs] at this
    exact hy (Int.natAbs_eq_zero.mp this)
  unfold checkedDiv I129.ofInt
  rw [if_neg hy]
  dsimp only
  rw [fromSigned_minor]
  apply bind_fromI129_down hy0
  rw [tdiv_eq_signMagnitude, toNat_ofNat_natAbs, toNat_ofNat_natAbs, toNat_ofNat_div, Int.natAbs_mul,
    Int.natAbs_natCast]
  -- `DIV` is positive, so the dividend has the sign of `x`
  have hdiv : (0 : ℤ) < F.div := by have := F.div_pos; omega
  have hsign : decide (x.inner * F.div < 0) = decide (x.inner < 0) := by
    rw [decide_eq_decide]
    constructor
    · intro h
      by_contra hx
      exact absurd h (not_lt.mpr (mul_nonneg (not_lt.mp hx) hdiv.le))
    · intro h
      exact mul_neg_of_neg_of_pos h hdiv
  rw [hsign]

/-- The generic `checked_mul` is the `const` one at `SignedRounding::Minor`. -/
theorem checkedMul_eq_const (x y : Fixed F) : x.checkedMul y = x.constCheckedMulWithRounding y .minor := by
  unfold checkedMul constCheckedMulWithRounding
  rw [intoI129_eq, intoI129_eq]
  dsimp only
  cases multiplyByRationalWithRounding _ _ _ _ with
  | none => rfl
  | some v => exact (constFromI129_eq _).symm

/-- The generic `checked_div` is `checked_rounding_div` at `SignedRounding::Minor`. -/
theorem checkedDiv_eq_const (x y : Fixed F) : x.checkedDiv y = x.checkedRoundingDiv y .minor := by
  unfold checkedDiv checkedRoundingDiv
  rw [intoI129_eq, intoI129_eq]
  split
  · rfl
  · dsimp only
    cases multiplyByRationalWithRounding _ _ _ _ with
    | none => rfl
    | some v => exact (constFromI129_eq _).symm

theorem checked_mul_div_trunc (x y : Fixed F) :
    (∀ c : Fixed F, x.checkedMul y = some c ↔ F.min ≤ (x.inner * y.inner).tdiv F.div ∧
      (x.inner * y.inner).tdiv F.div ≤ F.max ∧ c.inner = (x.inner * y.inner).tdiv F.div) ∧
      (y.inner = 0 → x.checkedDiv y = none) ∧
      (y.inner ≠ 0 → ∀ c : Fixed F, x.checkedDiv y = some c ↔ F.min ≤ (x.inner * F.div).tdiv y.inner ∧
        (x.inner * F.div).tdiv y.inner ≤ F.max ∧ c.inner = (x.inner * F.div).tdiv y.inner) ∧
      x.checkedMul y = x.constCheckedMulWithRounding y .minor ∧
      x.checkedDiv y = x.checkedRoundingDiv y .minor := by
  refine ⟨fun c => ?_, fun hy => ?_, fun hy c => ?_, checkedMul_eq_const x y, checkedDiv_eq_const x y⟩
  · rw [checkedMul_eq]
    exact ofInner?_eq_some_iff
  · unfold checkedDiv
    rw [if_pos hy]
  · rw [checkedDiv_eq x y hy]
    exact ofInner?_eq_some_iff

end Fixed

/-- `FixedI64`: `-1.5 * 2` is `-3`, and `-3 / 2` is `-1.5`. -/
theorem checked_mul_div_trunc_i64 :
    (⟨-1500000000, by decide, by decide⟩ : Fixed fixedI64).checkedMul ⟨2000000000, by decide, by decide⟩ =
        some ⟨-3000000000, by decide, by decide⟩ ∧
      (⟨-3000000000, by decide, by decide⟩ : Fixed fixedI64).checkedDiv ⟨2000000000, by decide, by decide⟩ =
        some ⟨-1500000000, by decide, by decide⟩ := by
  constructor
  · exact ((Fixed.checked_mul_div_trunc _ _).1 _).mpr ⟨by decide, by decide, by decide⟩
  · exact ((Fixed.checked_mul_div_trunc _ _).2.2.1 (by decide) _).mpr ⟨by decide, by decide, by decide⟩

end PolkadotSdk.FixedPoint
