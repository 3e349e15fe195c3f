import Mathlib.Tactic.Ring
import Mathlib.Tactic.Linarith

/-!
# Unsigned words and division through the reciprocal of the base

Rust's carrying operations on unsigned `w`-bit words, as functions on `BitVec w` whose
values are read back as natural numbers, and the arithmetic behind dividing a two-digit
number by a one-digit divisor `d` in base `B` without a wide divider: the high digit `h`
is worth `h * (B / d)` times `d` plus `h * (B % d)`, so it can be traded for a part of
the quotient and a smaller number, until no high digit is left.
-/

namespace PolkadotSdk.WideArith

variable {w : ℕ}

/-- `overflowing_add`: the wrapped sum and whether it wrapped. -/
def overflowingAdd (a b : BitVec w) : BitVec w × Bool := (a + b, BitVec.uaddOverflow a b)

/-- `checked_add`. -/
def checkedAdd (a b : BitVec w) : Option (BitVec w) :=
  if BitVec.uaddOverflow a b then none else some (a + b)

theorem uaddOverflow_iff (a b : BitVec w) : BitVec.uaddOverflow a b = true ↔ 2 ^ w ≤ a.toNat + b.toNat := by
  simp [BitVec.uaddOverflow]

/-- The wrapped sum of `overflowing_add` and its carry make up the exact sum. -/
theorem overflowingAdd_spec (a b : BitVec w) :
    (overflowingAdd a b).1.toNat + (if (overflowingAdd a b).2 then 2 ^ w else 0) = a.toNat + b.toNat := by
  have ha := a.isLt
  have hb := b.isLt
  show (a + b).toNat + (if BitVec.uaddOverflow a b = true then 2 ^ w else 0) = _
  rw [BitVec.toNat_add]
  by_cases h : BitVec.uaddOverflow a b = true
  · have h' := (uaddOverflow_iff a b).mp h
    rw [if_pos h, Nat.mod_eq_sub_mod h', Nat.mod_eq_of_lt (by omega)]
    omega
  · have h' : a.toNat + b.toNat < 2 ^ w := by
      by_contra hc
      exact h ((uaddOverflow_iff a b).mpr (by omega))
    rw [if_neg h, Nat.mod_eq_of_lt h']
    omega

theorem checkedAdd_eq_some_iff {a b c : BitVec w} :
    checkedAdd a b = some c ↔ a.toNat + b.toNat < 2 ^ w ∧ c.toNat = a.toNat + b.toNat := by
  unfold checkedAdd
  split
  · rename_i h
    have := (uaddOverflow_iff a b).mp h
    simp only [reduceCtorEq, false_iff, not_and]
    omega
  · rename_i h
    have hlt : a.toNat + b.toNat < 2 ^ w := by
      by_contra hc
      exact h ((uaddOverflow_iff a b).mpr (by omega))
    constructor
    · rintro ⟨⟩
      rw [BitVec.toNat_add, Nat.mod_eq_of_lt hlt]
      exact ⟨hlt, rfl⟩
    · rintro ⟨-, hc⟩
      congr 1
      apply BitVec.eq_of_toNat_eq
      rw [BitVec.toNat_add, Nat.mod_eq_of_lt hlt, hc]

theorem checkedAdd_eq_none_iff {a b : BitVec w} : checkedAdd a b = none ↔ 2 ^ w ≤ a.toNat + b.toNat := by
  unfold checkedAdd
  split
  · rename_i h
    simpa using (uaddOverflow_iff a b).mp h
  · rename_i h
    simp only [reduceCtorEq, false_iff, not_le]
    by_contra hc
    exact h ((uaddOverflow_iff a b).mpr (by omega))

section Reciprocal

variable {B d : ℕ}

/-- Trading the high digit of `h * B + l`: `h * (B / d)` multiples of `d` go to the quotient. -/
theorem high_digit_trade (h l : ℕ) : h * B + l = h * (B / d) * d + (h * (B % d) + l) := by
  have hB := Nat.div_add_mod' B d
  calc h * B + l = h * (B / d * d + B % d) + l := by rw [hB]
    _ = h * (B / d) * d + (h * (B % d) + l) := by ring

/-- When `x * d + v` is the dividend, the rest `v` is divided directly. -/
theorem div_mod_of_mul_add {x v A : ℕ} (hinv : x * d + v = A) (hd : 0 < d) :
    A / d = x + v / d ∧ A % d = v % d := by
  subst hinv
  constructor
  · rw [Nat.add_comm, Nat.add_mul_div_right _ _ hd, Nat.add_comm]
  · rw [Nat.add_comm, Nat.add_mul_mod_self_right]

end Reciprocal

end PolkadotSdk.WideArith
