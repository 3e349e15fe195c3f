import Mathlib.Data.List.Basic

/-!
# Relative paths in a tree

A place in a tree is the list of edges from the root. Seen from a place `base`, another place
is addressed by going up some steps and then down a list of edges; `resolve` gives the place
such an address denotes. The shortest address of `x` from `base` goes up to their longest
common prefix and down the rest of `x`: `relative base x`, which `resolve` sends back to `x`.
-/

namespace PolkadotSdk.RelPath

variable {α : Type} [DecidableEq α]

/-- The length of the longest common prefix of two lists. -/
def commonPrefixLen : List α → List α → ℕ
  | a :: s, b :: t => if a = b then commonPrefixLen s t + 1 else 0
  | _, _ => 0

/-- The place that going up `up` edges from `base` and then down `down` reaches. -/
def resolve (base : List α) (up : ℕ) (down : List α) : List α :=
  base.take (base.length - up) ++ down

/-- The shortest address of `x` from `base`. -/
def relative (base x : List α) : ℕ × List α :=
  (base.length - commonPrefixLen base x, x.drop (commonPrefixLen base x))

@[simp] theorem commonPrefixLen_nil_left (t : List α) : commonPrefixLen [] t = 0 := rfl

@[simp] theorem commonPrefixLen_nil_right (s : List α) : commonPrefixLen s [] = 0 := by
  cases s <;> rfl

theorem commonPrefixLen_cons_cons (a b : α) (s t : List α) :
    commonPrefixLen (a :: s) (b :: t) = if a = b then commonPrefixLen s t + 1 else 0 := rfl

@[simp] theorem commonPrefixLen_cons_self (a : α) (s t : List α) :
    commonPrefixLen (a :: s) (a :: t) = commonPrefixLen s t + 1 := by
  simp [commonPrefixLen_cons_cons]

theorem commonPrefixLen_le_left : ∀ s t : List α, commonPrefixLen s t ≤ s.length
  | [], _ => by simp
  | _ :: _, [] => by simp
  | a :: s, b :: t => by
    rw [commonPrefixLen_cons_cons]
    split
    · simpa using commonPrefixLen_le_left s t
    · exact Nat.zero_le _

theorem commonPrefixLen_le_right : ∀ s t : List α, commonPrefixLen s t ≤ t.length
  | [], _ => by simp
  | _ :: _, [] => by simp
  | a :: s, b :: t => by
    rw [commonPrefixLen_cons_cons]
    split
    · simpa using commonPrefixLen_le_right s t
    · exact Nat.zero_le _

theorem commonPrefixLen_comm : ∀ s t : List α, commonPrefixLen s t = commonPrefixLen t s
  | [], t => by simp
  | _ :: _, [] => by simp
  | a :: s, b :: t => by
    rw [commonPrefixLen_cons_cons, commonPrefixLen_cons_cons, commonPrefixLen_comm s t]
    by_cases h : a = b
    · rw [if_pos h, if_pos h.symm]
    · rw [if_neg h, if_neg (Ne.symm h)]

/-- Both lists start with the common prefix. -/
theorem take_commonPrefixLen : ∀ s t : List α, s.take (commonPrefixLen s t) = t.take (commonPrefixLen s t)
  | [], _ => by simp
  | _ :: _, [] => by simp
  | a :: s, b :: t => by
    rw [commonPrefixLen_cons_cons]
    split
    case isTrue h =>
      rw [List.take_succ_cons, List.take_succ_cons, h, take_commonPrefixLen s t]
    case isFalse => simp

/-- A shared prefix adds its length to the common prefix. -/
theorem commonPrefixLen_append_left (c s t : List α) :
    commonPrefixLen (c ++ s) (c ++ t) = c.length + commonPrefixLen s t := by
  induction c with
  | nil => simp
  | cons a c ih =>
    rw [List.cons_append, List.cons_append, commonPrefixLen_cons_self, ih, List.length_cons]
    omega

/-- The common prefix is empty exactly when one list is empty or their heads differ. -/
theorem commonPrefixLen_eq_zero_iff {s t : List α} :
    commonPrefixLen s t = 0 ↔ s = [] ∨ t = [] ∨ s.head? ≠ t.head? := by
  match s, t with
  | [], _ => simp
  | _ :: _, [] => simp
  | a :: s, b :: t =>
    rw [commonPrefixLen_cons_cons]
    by_cases h : a = b
    · simp [h]
    · simp [h]

/-- Only the heads decide whether the common prefix is empty. -/
theorem commonPrefixLen_eq_zero_of_head? {s s' t : List α} (h : commonPrefixLen s t = 0)
    (hs : s ≠ []) (hhead : s'.head? = s.head?) : commonPrefixLen s' t = 0 := by
  rcases commonPrefixLen_eq_zero_iff.mp h with h | h | h
  · exact absurd h hs
  · simp [h]
  · exact commonPrefixLen_eq_zero_iff.mpr (Or.inr (Or.inr (by rw [hhead]; exact h)))

/-- The shortest address of `x` denotes `x`. -/
theorem resolve_relative (base x : List α) : resolve base (relative base x).1 (relative base x).2 = x := by
  have hle := commonPrefixLen_le_left base x
  unfold resolve relative
  rw [show base.length - (base.length - commonPrefixLen base x) = commonPrefixLen base x by omega,
    take_commonPrefixLen, List.take_append_drop]

/-- A shared prefix of the base and the place does not change the shortest address. -/
theorem relative_append_left (c s t : List α) : relative (c ++ s) (c ++ t) = relative s t := by
  unfold relative
  rw [commonPrefixLen_append_left, List.length_append, List.drop_append,
    List.drop_eq_nil_of_le (Nat.le_add_right _ _), List.nil_append, Nat.add_sub_cancel_left]
  congr 1
  omega

/-- With no common prefix, the shortest address goes up the whole base. -/
theorem relative_of_commonPrefixLen_eq_zero {s t : List α} (h : commonPrefixLen s t = 0) :
    relative s t = (s.length, t) := by
  rw [relative, h, Nat.sub_zero, List.drop_zero]

omit [DecidableEq α] in
/-- Going up less than the whole base keeps the part of it above. -/
theorem take_sub_eq_take_append {c : List α} {p q : ℕ} (hpq : p ≤ q) (hq : q ≤ c.length) :
    c.take (c.length - p) = c.take (c.length - q) ++ (c.drop (c.length - q)).take (q - p) := by
  rw [← List.take_add, show c.length - q + (q - p) = c.length - p by omega]

end PolkadotSdk.RelPath
