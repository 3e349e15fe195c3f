import PolkadotSdk.PerThingsPrune
import Mathlib.Data.Nat.Bitwise
import Mathlib.Data.Nat.Prime.Basic

/-!
# `gcd` and `sqrt` of `helpers_128bit`

`gcd` is the binary algorithm: equal or zero arguments end it, an even argument against an odd
one is halved, two even ones are halved together and the result doubled, and two odd ones give
way to half their difference and the smaller one. Every arm lowers `a + b` and keeps the greatest
common divisor, so the result is `Nat.gcd` for all `u128` arguments.

`sqrt` is the digit-by-digit root. `bit` runs down the powers of four from the largest one at
most `n`; with `bit = c`, the partial root `result` is `4 * y * c` and the rest of `n` is
`n - 4 * y * y * c`, where `y` is the root of `n / (4 * c)`. Its additions stay below `2^128`, so
it never panics, and it ends with the integer square root.
-/

namespace PolkadotSdk.Helpers128

open PerThings

/-- `helpers_128bit::gcd`, its arms in the source's order; `<< 1` on a `u128` drops the bit
shifted out. Once neither argument is zero and they differ, the low bits form one of four pairs,
so the source's `unreachable!()` arm is never taken and the last arm is the pair `(1, 1)`. -/
def gcd (a b : ℕ) : ℕ :=
  if _hab : a = b then b
  else if _ha : a = 0 then b
  else if _hb : b = 0 then a
  else if a &&& 1 = 0 ∧ b &&& 1 = 1 then gcd (a >>> 1) b
  else if a &&& 1 = 1 ∧ b &&& 1 = 0 then gcd (b >>> 1) a
  else if a &&& 1 = 0 ∧ b &&& 1 = 0 then (gcd (a >>> 1) (b >>> 1) <<< 1) % 2 ^ 128
  else gcd ((max a b - min a b) >>> 1) (min a b)
termination_by a + b
decreasing_by
  all_goals simp only [Nat.shiftRight_eq_div_pow, pow_one]
  all_goals omega

/-- `u128::leading_zeros`. -/
def leadingZeros (n : ℕ) : ℕ := if n = 0 then 128 else 127 - n.log2

/-- `checked_sub` of unsigned integers; `none` is an underflow. -/
def subChecked (a b : ℕ) : Option ℕ := if b ≤ a then some (a - b) else none

/-- The `while bit != 0` loop of `sqrt` on the rest `n` of the argument, the partial root
`result` and the current power of four `bit`; `none` is an overflow panic of an addition. -/
def sqrtLoop (n result bit : ℕ) : Option ℕ :=
  if _h : bit = 0 then some result
  else
    match addChecked 128 result bit with
    | none => none
    | some s =>
      if s ≤ n then
        match addChecked 128 (result >>> 1) bit with
        | none => none
        | some result' => sqrtLoop (n - s) result' (bit >>> 2)
      else sqrtLoop n (result >>> 1) (bit >>> 2)
termination_by bit
decreasing_by
  all_goals simp only [Nat.shiftRight_eq_div_pow]
  all_goals omega

/-- `helpers_128bit::sqrt`; `none` is an overflow panic. -/
def sqrt (n : ℕ) : Option ℕ :=
  if n = 0 then some 0
  else
    match subChecked (leadingZeros 0) 1 with
    | none => none
    | some maxShift =>
      match subChecked maxShift (leadingZeros n) with
      | none => none
      | some d =>
        -- `& !1` on a `u32` clears the lowest bit; `1u128 << shift` panics from `128` on
        let shift := d &&& (2 ^ 32 - 2)
        if shift < 128 then sqrtLoop n 0 (1 <<< shift) else none

/-! ## `gcd` -/

/-- Halving an even argument against an odd one keeps the greatest common divisor. -/
theorem gcd_half_left {a b : ℕ} (ha : a % 2 = 0) (hb : b % 2 = 1) : Nat.gcd (a / 2) b = Nat.gcd a b := by
  have hcop : Nat.Coprime 2 b := Nat.coprime_two_left.mpr (Nat.odd_iff.mpr hb)
  conv_rhs => rw [← Nat.mul_div_cancel' (Nat.dvd_of_mod_eq_zero ha)]
  exact (Nat.Coprime.gcd_mul_left_cancel (a / 2) hcop).symm

/-- Two odd arguments give way to half their difference and the smaller one. -/
theorem gcd_half_sub {x y : ℕ} (hxy : x ≤ y) (hx : x % 2 = 1) (hy : y % 2 = 1) :
    Nat.gcd ((y - x) / 2) x = Nat.gcd y x := by
  rw [gcd_half_left (by omega) hx, Nat.gcd_sub_self_left hxy]

@[simp] theorem shiftRight_one_eq (a : ℕ) : a >>> 1 = a / 2 := by
  rw [Nat.shiftRight_eq_div_pow, pow_one]

theorem gcd_eq {a b : ℕ} (ha : a < 2 ^ 128) (hb : b < 2 ^ 128) : gcd a b = Nat.gcd a b := by
  fun_induction gcd a b with
  | case1 b => exact (Nat.gcd_self b).symm
  | case2 b => exact (Nat.gcd_zero_left b).symm
  | case3 a => exact (Nat.gcd_zero_right a).symm
  | case4 a b _ _ _ hbits ih =>
    simp only [Nat.and_one_is_mod] at hbits
    rw [shiftRight_one_eq] at ih ⊢
    rw [ih (by omega) hb, gcd_half_left hbits.1 hbits.2]
  | case5 a b _ _ _ _ hbits ih =>
    simp only [Nat.and_one_is_mod] at hbits
    rw [shiftRight_one_eq] at ih ⊢
    rw [ih (by omega) ha, gcd_half_left hbits.2 hbits.1, Nat.gcd_comm]
  | case6 a b _ ha0 _ _ _ hbits ih =>
    simp only [Nat.and_one_is_mod] at hbits
    simp only [shiftRight_one_eq] at ih ⊢
    -- both halves are exact, and the doubled gcd is at most `a`, so `<< 1` loses nothing
    have hsplit : Nat.gcd a b = 2 * Nat.gcd (a / 2) (b / 2) := by
      conv_lhs => rw [← Nat.mul_div_cancel' (Nat.dvd_of_mod_eq_zero hbits.1),
        ← Nat.mul_div_cancel' (Nat.dvd_of_mod_eq_zero hbits.2)]
      exact Nat.gcd_mul_left 2 (a / 2) (b / 2)
    have hle : Nat.gcd a b ≤ a := Nat.gcd_le_left b (Nat.pos_of_ne_zero ha0)
    rw [ih (by omega) (by omega), Nat.shiftLeft_eq, pow_one, Nat.mul_comm, ← hsplit, Nat.mod_eq_of_lt (by omega)]
  | case7 a b _ _ _ hbits₁ hbits₂ hbits₃ ih =>
    simp only [Nat.and_one_is_mod] at hbits₁ hbits₂ hbits₃
    rw [shiftRight_one_eq] at ih ⊢
    -- the low bits are `(1, 1)`: both arguments are odd
    have hodd : a % 2 = 1 ∧ b % 2 = 1 := by omega
    rw [ih (by omega) (by omega)]
    rcases le_total a b with hab | hba
    · rw [min_eq_left hab, max_eq_right hab, gcd_half_sub hab hodd.1 hodd.2, Nat.gcd_comm]
    · rw [min_eq_right hba, max_eq_left hba, gcd_half_sub hba hodd.2 hodd.1]

/-! ## `sqrt` -/

theorem sqrtLoop_zero (n result : ℕ) : sqrtLoop n result 0 = some result := by
  rw [sqrtLoop, dif_pos rfl]

/-- One pass of the loop when `result + bit` fits, which makes `(result >> 1) + bit` fit too. -/
theorem sqrtLoop_step {n result bit : ℕ} (hbit : bit ≠ 0) (hfit : result + bit < 2 ^ 128) :
    sqrtLoop n result bit =
      if result + bit ≤ n then sqrtLoop (n - (result + bit)) (result / 2 + bit) (bit / 4)
      else sqrtLoop n (result / 2) (bit / 4) := by
  have hhalf : result / 2 + bit < 2 ^ 128 := by omega
  have hquarter : bit >>> 2 = bit / 4 := by rw [Nat.shiftRight_eq_div_pow]
  rw [sqrtLoop, dif_neg hbit, addChecked_of_lt hfit]
  simp only [shiftRight_one_eq, hquarter]
  split
  · rw [addChecked_of_lt hhalf]
  · rfl

/-- The additions of a pass fit in a `u128`: with `4 * y * y * 4^m ≤ N`, the partial root
`4 * y * 4^m` is below `2^127` and the power of four at most `2^124`, unless `y` is zero. -/
theorem sqrt_add_lt {N y m : ℕ} (hN : N < 2 ^ 128) (hm : m ≤ 63) (hlo : 4 * y * y * 4 ^ m ≤ N) :
    4 * y * 4 ^ m + 4 ^ m < 2 ^ 128 := by
  have he4 : (4 : ℕ) ^ m = 2 ^ m * 2 ^ m := by rw [← Nat.mul_pow]
  rcases Nat.eq_zero_or_pos y with rfl | hy
  · have : (4 : ℕ) ^ m ≤ 4 ^ 63 := Nat.pow_le_pow_right (by decide) hm
    omega
  · -- a nonzero root forces `4^(m+1) ≤ N`, so `2^m ≤ 2^62`
    have hpow : (4 : ℕ) ^ (m + 1) < 4 ^ 64 := by
      have : 4 * 4 ^ m ≤ 4 * y * y * 4 ^ m := Nat.mul_le_mul_right _ (by nlinarith)
      rw [Nat.pow_succ]
      calc 4 ^ m * 4 = 4 * 4 ^ m := Nat.mul_comm _ _
        _ < 4 ^ 64 := by omega
    have hm62 : m ≤ 62 := by
      have := (Nat.pow_lt_pow_iff_right (by decide : 1 < 4)).mp hpow
      omega
    have he : 2 ^ m ≤ 2 ^ 62 := Nat.pow_le_pow_right (by decide) hm62
    have hroot : 2 * y * 2 ^ m < 2 ^ 64 := by
      apply Nat.mul_self_lt_mul_self_iff.mp
      calc 2 * y * 2 ^ m * (2 * y * 2 ^ m) = 4 * y * y * 4 ^ m := by rw [he4]; ring
        _ < 2 ^ 64 * 2 ^ 64 := by omega
    have hres : 4 * y * 4 ^ m ≤ 2 * 2 ^ 64 * 2 ^ 62 := by
      calc 4 * y * 4 ^ m = 2 * (2 * y * 2 ^ m) * 2 ^ m := by rw [he4]; ring
        _ ≤ 2 * 2 ^ 64 * 2 ^ 62 := Nat.mul_le_mul (Nat.mul_le_mul_left 2 hroot.le) he
    have hbit : (4 : ℕ) ^ m ≤ 2 ^ 62 * 2 ^ 62 := by rw [he4]; exact Nat.mul_le_mul he he
    omega

/-- A pass at `bit = 4^m` doubles the root `y` of the digits above, adding one when
`(2 * y + 1)^2 * 4^m` still fits in `N`; the rest and the partial root keep their form. -/
theorem sqrtLoop_descend {N y m : ℕ} (hN : N < 2 ^ 128) (hm : m ≤ 63) (hlo : 4 * y * y * 4 ^ m ≤ N)
    (hhi : N < 4 * (y + 1) * (y + 1) * 4 ^ m) :
    ∃ y', y' * y' * 4 ^ m ≤ N ∧ N < (y' + 1) * (y' + 1) * 4 ^ m ∧
      sqrtLoop (N - 4 * y * y * 4 ^ m) (4 * y * 4 ^ m) (4 ^ m) = sqrtLoop (N - y' * y' * 4 ^ m) (y' * 4 ^ m) (4 ^ m / 4) := by
  have hc : (4 : ℕ) ^ m ≠ 0 := by positivity
  have hhalf : 4 * y * 4 ^ m / 2 = 2 * y * 4 ^ m := by
    rw [show 4 * y * 4 ^ m = 2 * y * 4 ^ m * 2 by ring, Nat.mul_div_cancel _ (by decide)]
  rw [sqrtLoop_step hc (sqrt_add_lt hN hm hlo), hhalf]
  have hsq : (2 * y + 1) * (2 * y + 1) * 4 ^ m = 4 * y * y * 4 ^ m + (4 * y * 4 ^ m + 4 ^ m) := by ring
  split
  · -- the next digit of the root is one
    rename_i hle
    refine ⟨2 * y + 1, by omega, ?_, ?_⟩
    · calc N < 4 * (y + 1) * (y + 1) * 4 ^ m := hhi
        _ = (2 * y + 1 + 1) * (2 * y + 1 + 1) * 4 ^ m := by ring
    · rw [hsq, Nat.sub_sub, show 2 * y * 4 ^ m + 4 ^ m = (2 * y + 1) * 4 ^ m by ring]
  · -- the next digit of the root is zero
    rename_i hlt
    have hsq₀ : 2 * y * (2 * y) * 4 ^ m = 4 * y * y * 4 ^ m := by ring
    refine ⟨2 * y, by rw [hsq₀]; exact hlo, by rw [hsq]; omega, ?_⟩
    rw [hsq₀]

/-- The loop from `bit = 4^m` on a partial root `y` of the digits above returns the integer
square root; by induction on `m`, one pass per power of four. -/
theorem sqrtLoop_pow_four {N : ℕ} (hN : N < 2 ^ 128) (m : ℕ) (hm : m ≤ 63) (y : ℕ)
    (hlo : 4 * y * y * 4 ^ m ≤ N) (hhi : N < 4 * (y + 1) * (y + 1) * 4 ^ m) :
    ∃ r, sqrtLoop (N - 4 * y * y * 4 ^ m) (4 * y * 4 ^ m) (4 ^ m) = some r ∧ r * r ≤ N ∧ N < (r + 1) * (r + 1) := by
  induction m generalizing y with
  | zero =>
    obtain ⟨y', hlo', hhi', heq⟩ := sqrtLoop_descend hN hm hlo hhi
    refine ⟨y', ?_, by simpa using hlo', by simpa using hhi'⟩
    rw [heq]
    simpa using sqrtLoop_zero (N - y' * y') y'
  | succ m ih =>
    obtain ⟨y', hlo', hhi', heq⟩ := sqrtLoop_descend hN hm hlo hhi
    -- the next power of four is `4^m`, and `y'` is the partial root at its scale
    have hquarter : 4 ^ (m + 1) / 4 = 4 ^ m := by rw [Nat.pow_succ, Nat.mul_div_cancel _ (by decide)]
    have hlo'' : 4 * y' * y' * 4 ^ m ≤ N := by rw [Nat.pow_succ] at hlo'; linarith
    have hhi'' : N < 4 * (y' + 1) * (y' + 1) * 4 ^ m := by rw [Nat.pow_succ] at hhi'; linarith
    have hform : N - y' * y' * 4 ^ (m + 1) = N - 4 * y' * y' * 4 ^ m ∧ y' * 4 ^ (m + 1) = 4 * y' * 4 ^ m := by
      constructor <;> ring_nf
    rw [heq, hquarter, hform.1, hform.2]
    exact ih (by omega) y' hlo'' hhi''

/-- `!1` on a `u32` below `128` clears the lowest bit. -/
theorem and_not_one_eq {d : ℕ} (hd : d < 128) : d &&& (2 ^ 32 - 2) = d / 2 * 2 := by
  revert d
  decide

/-- `sqrt` starts at the largest power of four at most `n`, with an empty root. -/
theorem sqrt_eq_loop {n : ℕ} (hn : n ≠ 0) (hlt : n < 2 ^ 128) :
    sqrt n = sqrtLoop n 0 (4 ^ (n.log2 / 2)) := by
  have hlog : n.log2 < 128 := (Nat.log2_lt hn).mpr hlt
  have hshift : n.log2 / 2 * 2 < 128 := by omega
  have hzero : leadingZeros 0 = 128 := rfl
  have hlz : leadingZeros n = 127 - n.log2 := if_neg hn
  have hbit : 1 <<< (n.log2 / 2 * 2) = 4 ^ (n.log2 / 2) := by
    rw [Nat.shiftLeft_eq, Nat.one_mul, Nat.mul_comm, Nat.pow_mul]
  simp only [sqrt, if_neg hn, hzero, hlz, subChecked, show 1 ≤ 128 from by decide, if_true,
    show 127 - n.log2 ≤ 128 - 1 from by omega, show 128 - 1 - (127 - n.log2) = n.log2 from by omega,
    and_not_one_eq hlog, if_pos hshift, hbit]

theorem sqrt_gcd_exact :
    (∀ n : ℕ, n < 2 ^ 128 → ∃ r, sqrt n = some r ∧ r * r ≤ n ∧ n < (r + 1) * (r + 1)) ∧
      ∀ a b : ℕ, a < 2 ^ 128 → b < 2 ^ 128 → gcd a b = Nat.gcd a b := by
  refine ⟨fun n hn => ?_, fun a b ha hb => gcd_eq ha hb⟩
  by_cases hzero : n = 0
  · subst hzero
    exact ⟨0, rfl, le_rfl, by decide⟩
  · -- the loop from the largest power of four at most `n`, with nothing above it
    have hlog : n.log2 < 128 := (Nat.log2_lt hzero).mpr hn
    have hhi : n < 4 * (0 + 1) * (0 + 1) * 4 ^ (n.log2 / 2) := by
      calc n < 2 ^ (n.log2 + 1) := Nat.lt_log2_self
        _ ≤ 2 ^ (2 * (n.log2 / 2 + 1)) := Nat.pow_le_pow_right (by decide) (by omega)
        _ = 4 * (0 + 1) * (0 + 1) * 4 ^ (n.log2 / 2) := by rw [Nat.pow_mul]; ring
    obtain ⟨r, hr, hbracket⟩ := sqrtLoop_pow_four hn (n.log2 / 2) (by omega) 0 (by simp) hhi
    exact ⟨r, by simpa [sqrt_eq_loop hzero hn] using hr, hbracket⟩

/-- `sqrt(10) = 3`, `gcd(12, 18) = 6` and `gcd(0, 0) = 0`. -/
theorem sqrt_gcd_exact_small : sqrt 10 = some 3 ∧ gcd 12 18 = 6 ∧ gcd 0 0 = 0 := by
  obtain ⟨r, hr, hlo, hhi⟩ := sqrt_gcd_exact.1 10 (by decide)
  have hr4 : r < 4 := Nat.mul_self_lt_mul_self_iff.mp (by omega)
  have hr3 : 3 < r + 1 := Nat.mul_self_lt_mul_self_iff.mp (by omega)
  obtain rfl : r = 3 := by omega
  exact ⟨hr, (sqrt_gcd_exact.2 12 18 (by decide) (by decide)).trans (by decide),
    (sqrt_gcd_exact.2 0 0 (by decide) (by decide)).trans (by decide)⟩

end PolkadotSdk.Helpers128
