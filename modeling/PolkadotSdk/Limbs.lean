import Mathlib.Tactic.Ring

/-!
# Numbers written in limbs

A number in radix `b` whose limbs, from the least significant, are `f 0, f 1, …`:
`limbsValue b f n` is the number of its first `n` limbs. Schoolbook arithmetic reads and
writes one limb at a time, so its loops need what replacing one limb does to the number, that
zero limbs on top add nothing, and that `n` limbs below the radix stay below `b ^ n`.
-/

namespace PolkadotSdk.Limbs

/-- The number with limbs `f 0, …, f (n - 1)` in radix `b`, least significant first. -/
def limbsValue (b : ℕ) (f : ℕ → ℕ) : ℕ → ℕ
  | 0 => 0
  | n + 1 => limbsValue b f n + f n * b ^ n

variable {b : ℕ}

@[simp] theorem limbsValue_zero (f : ℕ → ℕ) : limbsValue b f 0 = 0 := rfl

theorem limbsValue_succ (f : ℕ → ℕ) (n : ℕ) : limbsValue b f (n + 1) = limbsValue b f n + f n * b ^ n := rfl

/-- Only the first `n` limbs count. -/
theorem limbsValue_congr {f g : ℕ → ℕ} {n : ℕ} (h : ∀ i < n, f i = g i) : limbsValue b f n = limbsValue b g n := by
  induction n with
  | zero => rfl
  | succ n ih => rw [limbsValue_succ, limbsValue_succ, ih fun i hi => h i (by omega), h n (by omega)]

/-- Limbs below the radix make a number below `b ^ n`. -/
theorem limbsValue_lt {f : ℕ → ℕ} {n : ℕ} (h : ∀ i < n, f i < b) : limbsValue b f n < b ^ n := by
  induction n with
  | zero => simp
  | succ n ih =>
    have hn := h n (by omega)
    have ih' := ih fun i hi => h i (by omega)
    calc limbsValue b f n + f n * b ^ n < b ^ n + f n * b ^ n := by omega
      _ = (f n + 1) * b ^ n := by ring
      _ ≤ b * b ^ n := Nat.mul_le_mul_right _ hn
      _ = b ^ (n + 1) := by ring

/-- Zero limbs from `n` on add nothing. -/
theorem limbsValue_of_eq_zero {f : ℕ → ℕ} {n N : ℕ} (hnN : n ≤ N) (h : ∀ i, n ≤ i → i < N → f i = 0) :
    limbsValue b f N = limbsValue b f n := by
  induction N with
  | zero => rw [Nat.le_zero.mp hnN]
  | succ N ih =>
    rcases Nat.lt_or_ge N n with hN | hN
    · rw [show n = N + 1 by omega]
    · rw [limbsValue_succ, h N hN (by omega), Nat.zero_mul, Nat.add_zero, ih hN fun i h1 h2 => h i h1 (by omega)]

/-- Replacing limb `idx` by `v` trades the old limb's weight for the new one's. -/
theorem limbsValue_update {f : ℕ → ℕ} {N idx : ℕ} (hidx : idx < N) (v : ℕ) :
    limbsValue b (Function.update f idx v) N + f idx * b ^ idx = limbsValue b f N + v * b ^ idx := by
  induction N with
  | zero => omega
  | succ N ih =>
    rw [limbsValue_succ, limbsValue_succ]
    rcases Nat.lt_or_ge idx N with h | h
    · rw [Function.update_of_ne (by omega)]
      have := ih h
      omega
    · obtain rfl : idx = N := by omega
      rw [Function.update_self, limbsValue_congr fun i hi => Function.update_of_ne (by omega) _ _]
      omega

end PolkadotSdk.Limbs
