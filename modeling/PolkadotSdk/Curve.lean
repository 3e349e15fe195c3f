import Mathlib.Algebra.Order.Field.Basic
import Mathlib.Algebra.Order.Floor.Semifield
import Mathlib.Data.Rat.Floor
import Mathlib.Tactic.FieldSimp
import PolkadotSdk.Interpolation
import PolkadotSdk.PerThingsPrune

/-!
# Piecewise linear curves

`sp_runtime::curve`: a `PiecewiseLinear` curve is a list of `Perbill` points, and
`calculate_for_fraction_times_denominator(n, d)` evaluates `d * f(n / d)` in the unsigned type
`N` without leaving it. The breakpoints `x * d` and the ordinates `y * d` are rounded by
`Perbill`'s multiplication, the segment is the first whose right end lies beyond `n`, and the
slope term `|n - x * d| * |Δy| / Δx` is computed by `multiply_by_rational_saturating`, which
divides before it multiplies and adds back the share of the remainder.

`multiply_by_rational_saturating` is exact up to saturation (`multiplyByRationalSaturating_eq`).
The curve is within `3/2 + 3/2 S` of `d * f(n / d)`, `S` the steepest slope, when the abscissas
increase strictly; a vertical step, two points with one abscissa, can land on the wrong side of
a rounded breakpoint and miss by its whole height.
-/

namespace PolkadotSdk.Curve

open PerThings Helpers128

/-- `Perbill`. -/
abbrev Perbill := PerThing 1000000000

/-- `PiecewiseLinear`: the points from the lowest abscissa up, and the unused `maximum`. -/
structure PiecewiseLinear where
  points : List (Perbill × Perbill)
  maximum : Perbill

/-- `abs_sub`. -/
def absSub (a b : ℕ) : ℕ := max a b - min a b

/-- `saturating_mul` of a `w`-bit unsigned type. -/
def saturatingMul (w a b : ℕ) : ℕ := min (a * b) (2 ^ w - 1)

/-- `saturating_add` of a `w`-bit unsigned type; `saturating_sub` is truncated subtraction. -/
def saturatingAdd (w a b : ℕ) : ℕ := min (a + b) (2 ^ w - 1)

/-- `multiply_by_rational_saturating` in a `w`-bit type, `p` and `q` being `u32`. -/
def multiplyByRationalSaturating (w value p q : ℕ) : ℕ :=
  let q := max q 1
  let resultDivisorPart := saturatingMul w (value / q) p
  let resultRemainderPart :=
    let rem := value % q
    let remU32 := saturatedInto 32 rem
    -- the product of two `u32` fits the `u64` it is computed in
    let remPart := remU32 * p / q
    saturatedInto w remPart
  saturatingAdd w resultDivisorPart resultRemainderPart

/-- `self.points[i]`; the index is always in range where the source indexes. -/
def pointAt (points : List (Perbill × Perbill)) (i : ℕ) : Perbill × Perbill :=
  points.getD i (PerThing.zero, PerThing.zero)

/-- The value at `n` between the breakpoints of `prev` and `next`: `prev`'s ordinate times `d`,
moved by the slope term. -/
def interpolateBetween (w : ℕ) (prev next : Perbill × Perbill) (n d : ℕ) : ℕ :=
  let deltaY := multiplyByRationalSaturating w (absSub n (prev.1.mul d))
    (absSub next.2.parts prev.2.parts) (next.1.parts - prev.1.parts)
  -- the slope term is added when the offset and the ordinate change have one sign
  if decide (prev.1.mul d < n) = decide (prev.2.parts < next.2.parts) then
    saturatingAdd w (prev.2.mul d) deltaY
  else prev.2.mul d - deltaY

/-- `calculate_for_fraction_times_denominator` in a `w`-bit type. -/
def calculateForFractionTimesDenominator (w : ℕ) (c : PiecewiseLinear) (n d : ℕ) : ℕ :=
  let n := min n d
  if c.points = [] then 0
  else
    match c.points.findIdx? fun p => decide (n < p.1.mul d) with
    | some nextPointIndex =>
      if nextPointIndex = 0 then
        -- no previous point: the first point's ordinate
        ((c.points.head?.map (·.2)).getD PerThing.zero).mul d
      else interpolateBetween w (pointAt c.points (nextPointIndex - 1)) (pointAt c.points nextPointIndex) n d
    -- no next point: the last point's ordinate
    | none => ((c.points.getLast?.map (·.2)).getD PerThing.zero).mul d

/-! ## `multiply_by_rational_saturating` -/

/-- Dividing first and adding back the remainder's share loses nothing: the result is
`value * p / q` capped at the type's maximum. -/
theorem multiplyByRationalSaturating_eq {w value p q : ℕ} (hw : 32 ≤ w) (hp : p < 2 ^ 32)
    (hq : q < 2 ^ 32) : multiplyByRationalSaturating w value p q = min (value * p / max q 1) (2 ^ w - 1) := by
  set q' := max q 1 with hq'
  have hqpos : 0 < q' := lt_max_of_lt_right Nat.one_pos
  have hqlt : q' < 2 ^ 32 := max_lt hq (by norm_num)
  have h32 : 2 ^ 32 ≤ 2 ^ w := Nat.pow_le_pow_right (by norm_num) hw
  have hrem : value % q' < q' := Nat.mod_lt _ hqpos
  -- the remainder's share is below `p`, so neither `saturated_into` bites
  have hshare : value % q' * p / q' < 2 ^ w := by
    have : value % q' * p / q' ≤ p := Nat.div_le_of_le_mul (Nat.mul_le_mul_right p hrem.le)
    omega
  have hsplit : value * p / q' = value / q' * p + value % q' * p / q' := by
    have hv : value * p = value % q' * p + value / q' * p * q' := by
      conv_lhs => rw [← Nat.div_add_mod value q']
      ring
    rw [hv, Nat.add_mul_div_right _ _ hqpos, Nat.add_comm]
  simp only [multiplyByRationalSaturating, ← hq', saturatedInto, saturatingMul, saturatingAdd]
  rw [min_eq_left (by omega : value % q' ≤ 2 ^ 32 - 1), min_eq_left (by omega : value % q' * p / q' ≤ 2 ^ w - 1),
    hsplit]
  -- a capped quotient part stays capped once the share is added
  generalize value / q' * p = a at *
  generalize value % q' * p / q' = r at *
  generalize 2 ^ w = M at *
  omega

/-! ## The curve as a function on the rationals -/

open Interpolation

/-- A `Perbill` as the fraction it stands for. -/
def toRat (p : Perbill) : ℚ := p.parts / 1000000000

/-- A point of the curve in the plane. -/
def pointRat (p : Perbill × Perbill) : ℚ × ℚ := (toRat p.1, toRat p.2)

theorem toRat_nonneg (p : Perbill) : 0 ≤ toRat p := by
  unfold toRat
  positivity

/-- `Perbill * d` is `d` times the fraction, rounded to the nearest. -/
theorem mul_near (p : Perbill) (d : ℕ) : |(p.mul d : ℚ) - toRat p * d| ≤ 1 / 2 := by
  obtain ⟨h1, h2⟩ := roundedDiv_nearestPrefDown_spec (n := d * p.parts) (d := 1000000000) (by norm_num)
  rw [PerThing.mul, overflowPruneMul_eq (by norm_num)]
  have h1' : (2 * (d * p.parts) : ℚ) ≤ 2 * 1000000000 * (roundedDiv (d * p.parts) 1000000000 .nearestPrefDown : ℕ)
      + 1000000000 := by exact_mod_cast h1
  have h2' : (2 * 1000000000 * (roundedDiv (d * p.parts) 1000000000 .nearestPrefDown : ℕ) : ℚ) <
      2 * (d * p.parts) + 1000000000 := by exact_mod_cast h2
  have hx : toRat p * d = (d * p.parts : ℚ) / 1000000000 := by
    rw [toRat]
    ring
  rw [abs_le, hx]
  constructor <;> linarith

theorem mul_le (p : Perbill) (d : ℕ) : p.mul d ≤ d := by
  obtain ⟨-, h2⟩ := roundedDiv_nearestPrefDown_spec (n := d * p.parts) (d := 1000000000) (by norm_num)
  rw [PerThing.mul, overflowPruneMul_eq (by norm_num)]
  have : d * p.parts ≤ d * 1000000000 := Nat.mul_le_mul_left d p.parts_le
  omega

theorem absSub_cast (a b : ℕ) : (absSub a b : ℚ) = |(a : ℚ) - b| := by
  rcases le_total a b with h | h
  · rw [absSub, max_eq_right h, min_eq_left h, Nat.cast_sub h, abs_of_nonpos (sub_nonpos.mpr (Nat.cast_le.mpr h)),
      neg_sub]
  · rw [absSub, max_eq_left h, min_eq_right h, Nat.cast_sub h, abs_of_nonneg (sub_nonneg.mpr (Nat.cast_le.mpr h))]

section Ends

variable {points : List (Perbill × Perbill)} (hinc : Increasing (points.map pointRat))

include hinc in
/-- Moving `d` times a rounding away from a point of the curve costs at most the slope. -/
theorem mul_interp_sub_le {x u : ℚ} {d : ℕ} (hxu : (d : ℚ) * |x - u| ≤ 1 / 2) :
    (d : ℚ) * |interp (points.map pointRat) x - interp (points.map pointRat) u| ≤
      maxSlope (points.map pointRat) / 2 := by
  have hS := maxSlope_nonneg (points.map pointRat)
  calc (d : ℚ) * |interp (points.map pointRat) x - interp (points.map pointRat) u|
      ≤ d * (maxSlope (points.map pointRat) * |x - u|) :=
        mul_le_mul_of_nonneg_left (interp_lipschitz hinc x u) (Nat.cast_nonneg d)
    _ = maxSlope (points.map pointRat) * (d * |x - u|) := by ring
    _ ≤ maxSlope (points.map pointRat) * (1 / 2) := mul_le_mul_of_nonneg_left hxu hS
    _ = maxSlope (points.map pointRat) / 2 := by ring

include hinc in
/-- Past the last rounded breakpoint the curve gives the last ordinate, within half a unit and
half the slope of `d` times the curve. -/
theorem error_of_le_last {l : Perbill × Perbill} (hl : points.getLast? = some l) {n d : ℕ} (hX : l.1.mul d ≤ n) :
    |(l.2.mul d : ℚ) - d * interp (points.map pointRat) (n / d)| ≤ 1 / 2 + maxSlope (points.map pointRat) / 2 := by
  have hlast : (points.map pointRat).getLast? = some (pointRat l) := by simp [List.getLast?_map, hl]
  have hS := maxSlope_nonneg (points.map pointRat)
  have hy := mul_near l.2 d
  rcases Nat.eq_zero_or_pos d with rfl | hd
  · rw [Nat.cast_zero, zero_mul, sub_zero]
    rw [Nat.cast_zero, mul_zero, sub_zero] at hy
    linarith
  have hdq : (0 : ℚ) < d := by exact_mod_cast hd
  have hx := mul_near l.1 d
  set x : ℚ := (n : ℚ) / d
  have hnx : (d : ℚ) * x = n := mul_div_cancel₀ _ hdq.ne'
  have hXn : (l.1.mul d : ℚ) ≤ n := by exact_mod_cast hX
  -- from the last breakpoint on the curve is flat
  have hflat : interp (points.map pointRat) (max x (toRat l.1)) = toRat l.2 :=
    interp_of_getLast_le hinc hlast (le_max_right _ _)
  have hgap : (d : ℚ) * |x - max x (toRat l.1)| ≤ 1 / 2 := by
    rcases le_total x (toRat l.1) with h | h
    · rw [max_eq_right h, abs_of_nonpos (by linarith), neg_sub, mul_sub, hnx]
      rw [abs_le] at hx
      linarith
    · rw [max_eq_left h, sub_self, abs_zero, mul_zero]
      norm_num
  have hmove := mul_interp_sub_le hinc hgap
  rw [hflat] at hmove
  calc |(l.2.mul d : ℚ) - d * interp (points.map pointRat) x|
      = |((l.2.mul d : ℚ) - toRat l.2 * d) + d * (toRat l.2 - interp (points.map pointRat) x)| := by ring_nf
    _ ≤ |(l.2.mul d : ℚ) - toRat l.2 * d| + d * |interp (points.map pointRat) x - toRat l.2| := by
        refine (abs_add_le _ _).trans (le_of_eq ?_)
        rw [abs_mul, abs_of_pos hdq, abs_sub_comm (toRat l.2)]
    _ ≤ 1 / 2 + maxSlope (points.map pointRat) / 2 := add_le_add hy hmove

include hinc in
/-- Before the first rounded breakpoint the curve gives the first ordinate, within half a unit
and half the slope of `d` times the curve. -/
theorem error_of_lt_head {h : Perbill × Perbill} (hh : points.head? = some h) {n d : ℕ} (hX : n < h.1.mul d) :
    |(h.2.mul d : ℚ) - d * interp (points.map pointRat) (n / d)| ≤ 1 / 2 + maxSlope (points.map pointRat) / 2 := by
  obtain ⟨tl, rfl⟩ := List.head?_eq_some_iff.mp hh
  have hd : 0 < d := Nat.pos_of_ne_zero fun hd0 => by
    have := mul_le h.1 d
    omega
  have hdq : (0 : ℚ) < d := by exact_mod_cast hd
  have hS := maxSlope_nonneg ((h :: tl).map pointRat)
  have hx := mul_near h.1 d
  have hy := mul_near h.2 d
  set x : ℚ := (n : ℚ) / d
  have hnx : (d : ℚ) * x = n := mul_div_cancel₀ _ hdq.ne'
  have hXn : (n : ℚ) < h.1.mul d := by exact_mod_cast hX
  -- up to the first breakpoint the curve is flat
  have hflat : interp ((h :: tl).map pointRat) (min x (toRat h.1)) = toRat h.2 :=
    interp_of_le_head (a := pointRat h) (min_le_right _ _) _
  have hgap : (d : ℚ) * |x - min x (toRat h.1)| ≤ 1 / 2 := by
    rcases le_total x (toRat h.1) with h' | h'
    · rw [min_eq_left h', sub_self, abs_zero, mul_zero]
      norm_num
    · rw [min_eq_right h', abs_of_nonneg (by linarith), mul_sub, hnx]
      rw [abs_le] at hx
      linarith
  have hmove := mul_interp_sub_le hinc hgap
  rw [hflat] at hmove
  calc |(h.2.mul d : ℚ) - d * interp ((h :: tl).map pointRat) x|
      = |((h.2.mul d : ℚ) - toRat h.2 * d) + d * (toRat h.2 - interp ((h :: tl).map pointRat) x)| := by ring_nf
    _ ≤ |(h.2.mul d : ℚ) - toRat h.2 * d| + d * |interp ((h :: tl).map pointRat) x - toRat h.2| := by
        refine (abs_add_le _ _).trans (le_of_eq ?_)
        rw [abs_mul, abs_of_pos hdq, abs_sub_comm (toRat h.2)]
    _ ≤ 1 / 2 + maxSlope ((h :: tl).map pointRat) / 2 := add_le_add hy hmove

end Ends

theorem absSub_of_le {a b : ℕ} (h : b ≤ a) : absSub a b = a - b := by
  rw [absSub, max_eq_left h, min_eq_right h]

/-- `2 ^ w - 1` as a rational. -/
theorem cast_maxValue (w : ℕ) : ((2 ^ w - 1 : ℕ) : ℚ) = 2 ^ w - 1 := by
  rw [Nat.cast_sub Nat.one_le_two_pow, Nat.cast_pow, Nat.cast_two, Nat.cast_one]

theorem toRat_lt_toRat {a b : Perbill} : toRat a < toRat b ↔ a.parts < b.parts := by
  rw [toRat, toRat, div_lt_div_iff_of_pos_right (by norm_num), Nat.cast_lt]

/-- The slope of a segment in `Perbill` parts: `|Δy| / Δx`, the two factors the code hands to
`multiply_by_rational_saturating`. -/
theorem abs_slope_eq {p q : Perbill × Perbill} (h : p.1.parts < q.1.parts) :
    |(toRat q.2 - toRat p.2) / (toRat q.1 - toRat p.1)| =
      (absSub q.2.parts p.2.parts : ℚ) / (q.1.parts - p.1.parts : ℕ) := by
  rw [absSub_cast, Nat.cast_sub h.le, toRat, toRat, toRat, toRat, ← sub_div, ← sub_div,
    div_div_div_cancel_right₀ (by norm_num), abs_div,
    abs_of_pos (a := (q.1.parts : ℚ) - p.1.parts) (sub_pos.mpr (by exact_mod_cast h))]

/-- The quotient `m * a / b` rounded down is within one below `m` times `a / b`. -/
theorem div_floor_bounds (m a : ℕ) {b : ℕ} (hb : 0 < b) :
    ((m * a / b : ℕ) : ℚ) ≤ m * ((a : ℚ) / b) ∧ (m : ℚ) * ((a : ℚ) / b) < (m * a / b : ℕ) + 1 := by
  have hfl : ((m * a : ℕ) : ℚ) / b = m * ((a : ℚ) / b) := by
    push_cast
    ring
  rw [← hfl, ← Nat.floor_div_eq_div (K := ℚ)]
  exact ⟨Nat.floor_le (by positivity), Nat.lt_floor_add_one _⟩

/-- A list cut around two neighbours. -/
theorem eq_take_append_pair {α : Type} (l : List α) {j : ℕ} (hj : j + 1 < l.length) :
    l = l.take j ++ l[j] :: l[j + 1] :: l.drop (j + 1 + 1) := by
  rw [← List.drop_eq_getElem_cons, ← List.drop_eq_getElem_cons, List.take_append_drop]

section Segment

variable {pre post : List (Perbill × Perbill)} {p q : Perbill × Perbill}
  (hinc : Increasing ((pre ++ p :: q :: post).map pointRat))

theorem map_pointRat_split :
    (pre ++ p :: q :: post).map pointRat = pre.map pointRat ++ pointRat p :: pointRat q :: post.map pointRat := by
  simp

include hinc in
theorem toRat_lt_of_increasing : toRat p.1 < toRat q.1 := by
  rw [Increasing, map_pointRat_split, List.pairwise_append] at hinc
  exact List.rel_of_pairwise_cons hinc.2.1 List.mem_cons_self

include hinc in
theorem abs_slope_le_maxSlope :
    |(toRat q.2 - toRat p.2) / (toRat q.1 - toRat p.1)| ≤ maxSlope ((pre ++ p :: q :: post).map pointRat) := by
  have hpq := toRat_lt_of_increasing hinc
  have h := slope_le_maxSlope (a := pointRat p) (b := pointRat q) hpq (pre.map pointRat) (post.map pointRat)
  rw [← map_pointRat_split] at h
  rw [abs_div, abs_of_pos (sub_pos.mpr hpq)]
  exact h

include hinc in
/-- Between two breakpoints the curve is the chord. -/
theorem interp_of_mem_between {z : ℚ} (hz : toRat p.1 ≤ z) (hz' : z ≤ toRat q.1) :
    interp ((pre ++ p :: q :: post).map pointRat) z =
      toRat p.2 + (z - toRat p.1) * ((toRat q.2 - toRat p.2) / (toRat q.1 - toRat p.1)) := by
  have hinc' := hinc
  rw [Increasing, map_pointRat_split] at hinc'
  rw [map_pointRat_split, interp_append_of_le hinc' (b := pointRat p) rfl hz, interp_of_mem_segment hz hz',
    mul_div_assoc]
  rfl

include hinc in
/-- Near its segment, `d` times the curve is within the steepest slope of `d` times the
segment's line. -/
theorem mul_interp_near_line {n d : ℕ} (hd : 0 < d) (hp : p.1.mul d ≤ n) (hq : n < q.1.mul d) :
    |(d : ℚ) * interp ((pre ++ p :: q :: post).map pointRat) (n / d) -
      (d * toRat p.2 + (n - d * toRat p.1) * ((toRat q.2 - toRat p.2) / (toRat q.1 - toRat p.1)))| ≤
      maxSlope ((pre ++ p :: q :: post).map pointRat) := by
  set P := (pre ++ p :: q :: post).map pointRat
  set sl := (toRat q.2 - toRat p.2) / (toRat q.1 - toRat p.1)
  have hpq := toRat_lt_of_increasing hinc
  have hs : |sl| ≤ maxSlope P := abs_slope_le_maxSlope hinc
  have hdq : (0 : ℚ) < d := by exact_mod_cast hd
  have hx := mul_near p.1 d
  have hx' := mul_near q.1 d
  rw [abs_le] at hx hx'
  have hpn : (p.1.mul d : ℚ) ≤ n := by exact_mod_cast hp
  have hnq : (n : ℚ) < q.1.mul d := by exact_mod_cast hq
  set x : ℚ := (n : ℚ) / d
  have hnx : (d : ℚ) * x = n := mul_div_cancel₀ _ hdq.ne'
  -- `x` is within half a unit over `d` of the segment
  set z := min (max x (toRat p.1)) (toRat q.1) with hzdef
  have hz : toRat p.1 ≤ z := le_min (le_max_right _ _) hpq.le
  have hgap : (d : ℚ) * |x - z| ≤ 1 / 2 := by
    rcases le_total x (toRat p.1) with h1 | h1
    · rw [show z = toRat p.1 by rw [hzdef, max_eq_right h1, min_eq_left hpq.le], abs_of_nonpos (by linarith),
        neg_sub, mul_sub, hnx]
      linarith
    · rcases le_total x (toRat q.1) with h2 | h2
      · rw [show z = x by rw [hzdef, max_eq_left h1, min_eq_left h2], sub_self, abs_zero, mul_zero]
        norm_num
      · rw [show z = toRat q.1 by rw [hzdef, max_eq_left h1, min_eq_right h2], abs_of_nonneg (by linarith),
          mul_sub, hnx]
        linarith
  have hcurve := mul_interp_sub_le hinc hgap
  have hchord := interp_of_mem_between hinc hz (min_le_right _ _)
  have hline : (d : ℚ) * |(toRat p.2 + (z - toRat p.1) * sl) - (toRat p.2 + (x - toRat p.1) * sl)| ≤
      maxSlope P / 2 := by
    rw [show toRat p.2 + (z - toRat p.1) * sl - (toRat p.2 + (x - toRat p.1) * sl) = (z - x) * sl by ring, abs_mul,
      abs_sub_comm, ← mul_assoc]
    calc (d : ℚ) * |x - z| * |sl| ≤ 1 / 2 * maxSlope P :=
          mul_le_mul hgap hs (abs_nonneg _) (by norm_num)
      _ = maxSlope P / 2 := by ring
  rw [hchord] at hcurve
  calc |(d : ℚ) * interp P x - (d * toRat p.2 + (n - d * toRat p.1) * sl)|
      = |d * (interp P x - (toRat p.2 + (z - toRat p.1) * sl)) +
          d * ((toRat p.2 + (z - toRat p.1) * sl) - (toRat p.2 + (x - toRat p.1) * sl))| := by
        rw [← hnx]
        ring_nf
    _ ≤ d * |interp P x - (toRat p.2 + (z - toRat p.1) * sl)| +
          d * |(toRat p.2 + (z - toRat p.1) * sl) - (toRat p.2 + (x - toRat p.1) * sl)| := by
        refine (abs_add_le _ _).trans (le_of_eq ?_)
        rw [abs_mul, abs_mul, abs_of_pos hdq]
    _ ≤ maxSlope P / 2 + maxSlope P / 2 := add_le_add hcurve hline
    _ = maxSlope P := by ring

include hinc in
/-- A slope term `v` within one of the exact `(n - x * d) * slope` puts `y * d + v` within
`3/2 + 3/2 S` of `d` times the curve: half a unit from the ordinate, one from `v`, half the
slope from the rounded breakpoint and the slope from the distance to the segment. -/
theorem error_of_slope_term {n d : ℕ} (hp : p.1.mul d ≤ n) (hq : n < q.1.mul d) {v : ℚ}
    (hv : |v - ((n - p.1.mul d : ℕ) : ℚ) * ((toRat q.2 - toRat p.2) / (toRat q.1 - toRat p.1))| ≤ 1) :
    |(p.2.mul d : ℚ) + v - d * interp ((pre ++ p :: q :: post).map pointRat) (n / d)| ≤
      3 / 2 + 3 / 2 * maxSlope ((pre ++ p :: q :: post).map pointRat) := by
  set P := (pre ++ p :: q :: post).map pointRat
  set S := maxSlope P
  set sl := (toRat q.2 - toRat p.2) / (toRat q.1 - toRat p.1)
  have hd : 0 < d := by
    have := mul_le q.1 d
    omega
  have hs : |sl| ≤ S := abs_slope_le_maxSlope hinc
  have hY := mul_near p.2 d
  have hX := mul_near p.1 d
  have hline := mul_interp_near_line hinc hd hp hq
  have hbreak : |((n - p.1.mul d : ℕ) : ℚ) * sl - (n - d * toRat p.1) * sl| ≤ S / 2 := by
    rw [Nat.cast_sub hp, ← sub_mul, abs_mul,
      show (n : ℚ) - p.1.mul d - (n - d * toRat p.1) = -(p.1.mul d - toRat p.1 * d) by ring, abs_neg]
    calc |(p.1.mul d : ℚ) - toRat p.1 * d| * |sl| ≤ 1 / 2 * S := mul_le_mul hX hs (abs_nonneg _) (by norm_num)
      _ = S / 2 := by ring
  calc |(p.2.mul d : ℚ) + v - d * interp P (n / d)|
      = |((p.2.mul d : ℚ) - toRat p.2 * d) + (v - (n - p.1.mul d : ℕ) * sl) +
          (((n - p.1.mul d : ℕ) : ℚ) * sl - (n - d * toRat p.1) * sl) -
          (d * interp P (n / d) - (d * toRat p.2 + (n - d * toRat p.1) * sl))| := by
        congr 1
        ring
    _ ≤ 1 / 2 + 1 + S / 2 + S :=
        (abs_sub _ _).trans (add_le_add ((abs_add_le _ _).trans (add_le_add
          ((abs_add_le _ _).trans (add_le_add hY hv)) hbreak)) hline)
    _ = 3 / 2 + 3 / 2 * S := by ring

include hinc in
/-- Between two rounded breakpoints the code's value is within `3/2 + 3/2 S` of `d` times the
curve, as long as `d * (1 + S)` fits in `N`. -/
theorem error_of_between {w n d : ℕ} (hw : 32 ≤ w) (hp : p.1.mul d ≤ n) (hq : n < q.1.mul d)
    (hfit : (d : ℚ) * (1 + maxSlope ((pre ++ p :: q :: post).map pointRat)) ≤ 2 ^ w - 1) :
    |(interpolateBetween w p q n d : ℚ) - d * interp ((pre ++ p :: q :: post).map pointRat) (n / d)| ≤
      3 / 2 + 3 / 2 * maxSlope ((pre ++ p :: q :: post).map pointRat) := by
  set P := (pre ++ p :: q :: post).map pointRat
  set S := maxSlope P
  set sl := (toRat q.2 - toRat p.2) / (toRat q.1 - toRat p.1)
  have hpq := toRat_lt_of_increasing hinc
  have hparts : p.1.parts < q.1.parts := toRat_lt_toRat.mp hpq
  have hs : |sl| ≤ S := abs_slope_le_maxSlope hinc
  have hnd : n ≤ d := by
    have := mul_le q.1 d
    omega
  -- the code's slope term is `m * |sl|` rounded down
  set m := n - p.1.mul d
  set D0 := m * absSub q.2.parts p.2.parts / (q.1.parts - p.1.parts)
  obtain ⟨h1, h2⟩ := div_floor_bounds m (absSub q.2.parts p.2.parts) (Nat.sub_pos_of_lt hparts)
  rw [← abs_slope_eq hparts] at h1 h2
  have hD0 : |(D0 : ℚ) - m * (|sl|)| ≤ 1 := abs_le.mpr ⟨by linarith, by linarith⟩
  have hmd : (m : ℚ) ≤ d := by exact_mod_cast (Nat.sub_le n _).trans hnd
  have hD0S : (D0 : ℚ) ≤ d * S := h1.trans (mul_le_mul hmd hs (abs_nonneg _) (Nat.cast_nonneg _))
  -- neither the slope term nor the sum saturates
  have hsum : p.2.mul d + D0 ≤ 2 ^ w - 1 := by
    have hYd : (p.2.mul d : ℚ) ≤ d := by exact_mod_cast mul_le p.2 d
    have : ((p.2.mul d + D0 : ℕ) : ℚ) ≤ ((2 ^ w - 1 : ℕ) : ℚ) := by
      rw [cast_maxValue, Nat.cast_add]
      linarith
    exact_mod_cast this
  have hdelta :
      multiplyByRationalSaturating w (absSub n (p.1.mul d)) (absSub q.2.parts p.2.parts)
        (q.1.parts - p.1.parts) = D0 := by
    have ha : absSub q.2.parts p.2.parts < 2 ^ 32 := by
      have := q.2.parts_le
      have := p.2.parts_le
      simp only [absSub]
      omega
    have hb : q.1.parts - p.1.parts < 2 ^ 32 := by
      have := q.1.parts_le
      omega
    rw [absSub_of_le hp, multiplyByRationalSaturating_eq hw ha hb, max_eq_left (Nat.sub_pos_of_lt hparts),
      min_eq_left (show D0 ≤ 2 ^ w - 1 by omega)]
  unfold interpolateBetween
  simp only [hdelta]
  by_cases hpn : p.1.mul d < n
  · by_cases hy : p.2.parts < q.2.parts
    · -- rising segment: the code adds the slope term
      have hsl : 0 < sl := div_pos (sub_pos.mpr (toRat_lt_toRat.mpr hy)) (sub_pos.mpr hpq)
      rw [abs_of_pos hsl] at hD0
      rw [if_pos (by simp [hpn, hy]), saturatingAdd, min_eq_left hsum, Nat.cast_add]
      exact error_of_slope_term hinc hp hq hD0
    · -- falling segment: the code subtracts it, saturating at zero
      have hsl : sl ≤ 0 := div_nonpos_of_nonpos_of_nonneg
        (sub_nonpos.mpr (not_lt.mp (mt toRat_lt_toRat.mp hy))) (sub_pos.mpr hpq).le
      rw [abs_of_nonpos hsl] at hD0
      have hneg := error_of_slope_term hinc hp hq (v := -D0) (by
        rw [show -(D0 : ℚ) - m * sl = -(D0 - m * -sl) by ring, abs_neg]
        exact hD0)
      rw [if_neg (by simp [hpn, hy])]
      rcases le_total D0 (p.2.mul d) with hle | hlt
      · rw [Nat.cast_sub hle, ← sub_eq_add_neg] at *
        simpa only [sub_eq_add_neg] using hneg
      · -- zero is no further than `y * d - D0` from the nonnegative curve
        have hT : 0 ≤ (d : ℚ) * interp P (n / d) :=
          mul_nonneg (Nat.cast_nonneg d) (interp_nonneg hinc (fun r hr => by
            obtain ⟨r', -, rfl⟩ := List.mem_map.mp hr
            exact toRat_nonneg _) _)
        have hlt' : (p.2.mul d : ℚ) ≤ D0 := by exact_mod_cast hlt
        rw [Nat.sub_eq_zero_of_le hlt, Nat.cast_zero, zero_sub, abs_neg, abs_of_nonneg hT]
        rw [abs_le] at hneg
        linarith [hneg.1]
  · -- the rounded breakpoint is `n` itself: no slope term
    have hn : p.1.mul d = n := le_antisymm hp (not_lt.mp hpn)
    have hD : D0 = 0 := by simp [D0, m, hn]
    have h0 := error_of_slope_term hinc hp hq (v := 0) (by simp [hn])
    rw [add_zero] at h0
    split_ifs
    · rw [hD, saturatingAdd, Nat.add_zero, min_eq_left (by omega)]
      exact h0
    · rw [hD, Nat.sub_zero]
      exact h0

end Segment

/-! ## The whole curve -/

/-- The code's value is within `3/2 + 3/2 S` of `d` times the curve at `min n d / d` when the
abscissas increase strictly and `d * (1 + S)` fits in `N`: each of the code's three exits is
one of the bounds above. -/
theorem calculateForFractionTimesDenominator_near (c : PiecewiseLinear)
    (hinc : Increasing (c.points.map pointRat)) {w : ℕ} (hw : 32 ≤ w) (n d : ℕ)
    (hfit : (d : ℚ) * (1 + maxSlope (c.points.map pointRat)) ≤ 2 ^ w - 1) :
    |(calculateForFractionTimesDenominator w c n d : ℚ) - d * interp (c.points.map pointRat) ((min n d : ℕ) / d)| ≤
      3 / 2 + 3 / 2 * maxSlope (c.points.map pointRat) := by
  have hS := maxSlope_nonneg (c.points.map pointRat)
  unfold calculateForFractionTimesDenominator
  dsimp only
  set m := min n d
  split_ifs with hemp
  · rw [hemp, List.map_nil] at hS ⊢
    simp only [interp, Nat.cast_zero, mul_zero, sub_zero, abs_zero]
    linarith
  cases hfind : c.points.findIdx? (fun p => decide (m < p.1.mul d)) with
  | none =>
    -- every rounded breakpoint is at or below `n`: the last ordinate
    obtain ⟨l, hl⟩ : ∃ l, c.points.getLast? = some l :=
      Option.isSome_iff_exists.mp (List.getLast?_isSome.mpr hemp)
    have hX : l.1.mul d ≤ m := by
      simpa using List.findIdx?_eq_none_iff.mp hfind l (List.mem_of_getLast? hl)
    simp only [hl, Option.map_some, Option.getD_some]
    linarith [error_of_le_last hinc hl hX]
  | some i =>
    obtain ⟨hi, hqi, hbefore⟩ := List.findIdx?_eq_some_iff_getElem.mp hfind
    have hq : m < c.points[i].1.mul d := by simpa using hqi
    dsimp only
    split_ifs with hi0
    · -- already the first rounded breakpoint is beyond `n`: the first ordinate
      subst hi0
      have hh : c.points.head? = some c.points[0] := by rw [List.head?_eq_getElem?, List.getElem?_eq_getElem hi]
      simp only [hh, Option.map_some, Option.getD_some]
      linarith [error_of_lt_head hinc hh hq]
    · -- `n` lies between the rounded breakpoints `i - 1` and `i`
      obtain ⟨j, rfl⟩ : ∃ j, i = j + 1 := ⟨i - 1, by omega⟩
      have hp : c.points[j].1.mul d ≤ m := by simpa using hbefore j (by omega)
      have hsplit := eq_take_append_pair c.points hi
      have hinc' : Increasing ((c.points.take j ++ c.points[j] :: c.points[j + 1] :: c.points.drop (j + 1 + 1)).map
          pointRat) := by
        rw [← hsplit]
        exact hinc
      have h := error_of_between hinc' hw hp hq (by rw [← hsplit]; exact hfit)
      rw [← hsplit] at h
      rw [pointAt, pointAt, Nat.add_sub_cancel, List.getD_eq_getElem?_getD, List.getD_eq_getElem?_getD,
        List.getElem?_eq_getElem (by omega : j < c.points.length), List.getElem?_eq_getElem hi, Option.getD_some,
        Option.getD_some]
      exact h

/-- `calculate_for_fraction_times_denominator` is within `2 + 2 S` of `d * f(min(n, d) / d)` in
every unsigned type of at least 32 bits, for a curve whose abscissas increase strictly and a `d`
with `d * (1 + S) ≤ N::MAX`; and `multiply_by_rational_saturating` is `v * p / max(q, 1)` capped
at `N::MAX`. -/
theorem curve_evaluation_error_bound (c : PiecewiseLinear) (hinc : Increasing (c.points.map pointRat)) {w : ℕ}
    (hw : 32 ≤ w) (n d : ℕ) (hfit : (d : ℚ) * (1 + maxSlope (c.points.map pointRat)) ≤ 2 ^ w - 1) :
    |(calculateForFractionTimesDenominator w c n d : ℚ) - d * interp (c.points.map pointRat) ((min n d : ℕ) / d)| ≤
      2 + 2 * maxSlope (c.points.map pointRat) ∧
    ∀ value p q : ℕ, p < 2 ^ 32 → q < 2 ^ 32 →
      multiplyByRationalSaturating w value p q = min (value * p / max q 1) (2 ^ w - 1) := by
  refine ⟨?_, fun value p q hp hq => multiplyByRationalSaturating_eq hw hp hq⟩
  have hS := maxSlope_nonneg (c.points.map pointRat)
  linarith [calculateForFractionTimesDenominator_near c hinc hw n d hfit]

/-- The diagonal `f(x) = x`. -/
def diagonal : PiecewiseLinear :=
  ⟨[(PerThing.zero, PerThing.zero), (PerThing.one, PerThing.one)], PerThing.one⟩

theorem curve_evaluation_error_bound_diagonal :
    |(calculateForFractionTimesDenominator 64 diagonal 1 3 : ℚ) -
        (3 : ℕ) * interp (diagonal.points.map pointRat) ((min 1 3 : ℕ) / (3 : ℕ))| ≤
      2 + 2 * maxSlope (diagonal.points.map pointRat) ∧
    ∀ value p q : ℕ, p < 2 ^ 32 → q < 2 ^ 32 →
      multiplyByRationalSaturating 64 value p q = min (value * p / max q 1) (2 ^ 64 - 1) :=
  curve_evaluation_error_bound diagonal
    (by simp [diagonal, Increasing, pointRat, toRat, PerThing.zero, PerThing.one]) (by norm_num) 1 3
    (by norm_num [diagonal, maxSlope, pointRat, toRat, PerThing.zero, PerThing.one])

/-- A vertical step at `1/2`: two points share the abscissa. -/
def verticalStep : PiecewiseLinear :=
  ⟨[(PerThing.zero, PerThing.zero), (⟨500000000, by norm_num⟩, PerThing.zero),
    (⟨500000000, by norm_num⟩, PerThing.one), (PerThing.one, PerThing.one)], PerThing.one⟩

/-- With abscissas that only do not decrease the bound fails: `1/2 * 3` rounds down to the
breakpoint `1`, so `n = 1` is placed past the step and gets its top `3`, where `3 f(1/3) = 0`
and every sloped segment is flat. -/
theorem vertical_step_exceeds_error_bound :
    (verticalStep.points.map pointRat).Pairwise (fun a b => a.1 ≤ b.1) ∧
    (3 : ℚ) * (1 + maxSlope (verticalStep.points.map pointRat)) ≤ 2 ^ 64 - 1 ∧
    2 + 2 * maxSlope (verticalStep.points.map pointRat) <
      |(calculateForFractionTimesDenominator 64 verticalStep 1 3 : ℚ) -
        (3 : ℕ) * interp (verticalStep.points.map pointRat) ((min 1 3 : ℕ) / (3 : ℕ))| := by
  have h : calculateForFractionTimesDenominator 64 verticalStep 1 3 = 3 := by decide
  rw [h]
  norm_num [verticalStep, maxSlope, interp, pointRat, toRat, PerThing.zero, PerThing.one]

end PolkadotSdk.Curve
