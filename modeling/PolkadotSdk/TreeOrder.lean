import Mathlib.Logic.Basic

/-!
# Tree orders

The ancestry relation of a rooted tree: a strict order in which the elements below any
element form a chain. Two elements are unrelated when they differ and neither is below
the other. Everything at or above one of two unrelated elements is unrelated to
everything at or above the other, which is what keeps the subtrees of siblings apart.
-/

namespace PolkadotSdk

/-- A strict order whose down-sets are chains. -/
structure TreeOrder (α : Type) where
  lt : α → α → Prop
  irrefl : ∀ a, ¬lt a a
  trans : ∀ {a b c}, lt a b → lt b c → lt a c
  chain : ∀ {a b c}, lt a c → lt b c → a = b ∨ lt a b ∨ lt b a

namespace TreeOrder

variable {α : Type} (o : TreeOrder α)

/-- `a` is `b` or below it. -/
def le (a b : α) : Prop := a = b ∨ o.lt a b

/-- Neither element is at or below the other. -/
def Unrelated (a b : α) : Prop := a ≠ b ∧ ¬o.lt a b ∧ ¬o.lt b a

instance decidableLe [DecidableEq α] [DecidableRel o.lt] : DecidableRel o.le :=
  fun a b => inferInstanceAs (Decidable (a = b ∨ o.lt a b))

variable {o} {a b c x y : α}

theorem le_refl (a : α) : o.le a a := Or.inl rfl

theorem le_of_lt (h : o.lt a b) : o.le a b := Or.inr h

theorem lt_of_le_of_lt (hab : o.le a b) (hbc : o.lt b c) : o.lt a c := by
  rcases hab with rfl | hab
  · exact hbc
  · exact o.trans hab hbc

theorem lt_of_lt_of_le (hab : o.lt a b) (hbc : o.le b c) : o.lt a c := by
  rcases hbc with rfl | hbc
  · exact hab
  · exact o.trans hab hbc

theorem le_trans (hab : o.le a b) (hbc : o.le b c) : o.le a c := by
  rcases hab with rfl | hab
  · exact hbc
  · exact le_of_lt (lt_of_lt_of_le hab hbc)

theorem ne_of_lt (h : o.lt a b) : a ≠ b := by
  rintro rfl
  exact o.irrefl a h

theorem not_lt_of_le (h : o.le a b) : ¬o.lt b a := by
  intro hba
  exact o.irrefl a (lt_of_le_of_lt h hba)

/-- Two elements at or below a third are comparable. -/
theorem comparable_of_le_of_le (ha : o.le a x) (hb : o.le b x) : o.le a b ∨ o.lt b a := by
  rcases ha with rfl | ha
  · rcases hb with rfl | hb
    · exact Or.inl (le_refl _)
    · exact Or.inr hb
  · rcases hb with rfl | hb
    · exact Or.inl (le_of_lt ha)
    · rcases o.chain ha hb with rfl | hab | hba
      · exact Or.inl (le_refl _)
      · exact Or.inl (le_of_lt hab)
      · exact Or.inr hba

theorem Unrelated.symm (h : o.Unrelated a b) : o.Unrelated b a :=
  ⟨h.1.symm, h.2.2, h.2.1⟩

theorem Unrelated.not_comparable (h : o.Unrelated a b) : ¬(o.le a b ∨ o.lt b a) := by
  rintro ((rfl | hab) | hba)
  · exact h.1 rfl
  · exact h.2.1 hab
  · exact h.2.2 hba

/-- No element is at or above two unrelated elements. -/
theorem Unrelated.not_le_of_le (h : o.Unrelated a b) (ha : o.le a x) : ¬o.le b x :=
  fun hb => h.not_comparable (comparable_of_le_of_le ha hb)

/-- Of two unrelated elements at most one is strictly below a given element. -/
theorem Unrelated.not_lt_of_lt (h : o.Unrelated a b) (ha : o.lt a x) : ¬o.lt b x :=
  fun hb => h.not_le_of_le (le_of_lt ha) (le_of_lt hb)

/-- What is unrelated to an element is unrelated to everything above it. -/
theorem Unrelated.of_lt (h : o.Unrelated a b) (ha : o.lt a x) : o.Unrelated b x := by
  refine ⟨?_, h.not_lt_of_lt ha, fun hxb => h.2.1 (o.trans ha hxb)⟩
  rintro rfl
  exact h.2.1 ha

theorem not_unrelated_iff : ¬o.Unrelated a b ↔ o.lt a b ∨ a = b ∨ o.lt b a := by
  constructor
  · intro h
    by_cases hab : o.lt a b
    · exact Or.inl hab
    by_cases heq : a = b
    · exact Or.inr (Or.inl heq)
    by_cases hba : o.lt b a
    · exact Or.inr (Or.inr hba)
    exact absurd ⟨heq, hab, hba⟩ h
  · rintro (hab | rfl | hba) ⟨hne, h₁, h₂⟩
    · exact h₁ hab
    · exact hne rfl
    · exact h₂ hba

/-- What lies at or above two unrelated elements is unrelated. -/
theorem Unrelated.of_le_of_le (h : o.Unrelated a b) (hx : o.le a x) (hy : o.le b y) :
    o.Unrelated x y := by
  refine ⟨?_, ?_, ?_⟩
  · rintro rfl
    exact h.not_le_of_le hx hy
  · intro hxy
    exact h.not_le_of_le (le_of_lt (lt_of_le_of_lt hx hxy)) hy
  · intro hyx
    exact h.symm.not_le_of_le (le_of_lt (lt_of_le_of_lt hy hyx)) hx

end TreeOrder

end PolkadotSdk
