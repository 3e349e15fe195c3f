import Mathlib.Algebra.Order.Field.Basic
import Mathlib.Tactic.FieldSimp
import Mathlib.Tactic.Linarith
import Mathlib.Tactic.Ring

/-!
# Piecewise linear interpolation

The function through a list of points `(x, y)` of strictly increasing abscissas that is
linear between neighbours, constant before the first point and after the last (`interp`),
and the steepest slope between neighbours (`maxSlope`). The interpolation takes each point's
ordinate at its abscissa, follows the chord on each segment, and is Lipschitz with the
steepest slope as constant (`interp_lipschitz`).
-/

namespace PolkadotSdk.Interpolation

/-- The interpolation through `points`: constant before the first and after the last point,
linear between neighbours. -/
def interp : List (ℚ × ℚ) → ℚ → ℚ
  | [], _ => 0
  | [a], _ => a.2
  | a :: b :: rest, x =>
    if x ≤ a.1 then a.2
    else if x ≤ b.1 then a.2 + (x - a.1) * (b.2 - a.2) / (b.1 - a.1)
    else interp (b :: rest) x

/-- The steepest slope between neighbouring points of distinct abscissas. -/
def maxSlope : List (ℚ × ℚ) → ℚ
  | a :: b :: rest => max (if a.1 < b.1 then |b.2 - a.2| / (b.1 - a.1) else 0) (maxSlope (b :: rest))
  | _ => 0

/-- Abscissas that increase strictly. -/
def Increasing (points : List (ℚ × ℚ)) : Prop := points.Pairwise fun a b => a.1 < b.1

theorem maxSlope_nonneg : ∀ points : List (ℚ × ℚ), 0 ≤ maxSlope points
  | [] | [_] => le_rfl
  | _ :: b :: rest => le_max_of_le_right (maxSlope_nonneg (b :: rest))

theorem maxSlope_le_cons (a : ℚ × ℚ) : ∀ points : List (ℚ × ℚ), maxSlope points ≤ maxSlope (a :: points)
  | [] | [_] => maxSlope_nonneg _
  | _ :: _ :: _ => le_max_right _ _

/-- Each segment's slope is at most the steepest. -/
theorem slope_le_maxSlope {a b : ℚ × ℚ} (hab : a.1 < b.1) :
    ∀ pre post : List (ℚ × ℚ), |b.2 - a.2| / (b.1 - a.1) ≤ maxSlope (pre ++ a :: b :: post)
  | [], _ => by
    rw [List.nil_append, maxSlope, if_pos hab]
    exact le_max_left _ _
  | p :: pre, post => (slope_le_maxSlope hab pre post).trans (maxSlope_le_cons p _)

/-! ## Values -/

theorem interp_of_le_head {a : ℚ × ℚ} {x : ℚ} (hx : x ≤ a.1) : ∀ rest, interp (a :: rest) x = a.2
  | [] => rfl
  | _ :: _ => if_pos hx

/-- On a segment the interpolation is the chord. -/
theorem interp_of_mem_segment {a b : ℚ × ℚ} {x : ℚ} (hx : a.1 ≤ x) (hx' : x ≤ b.1)
    (rest : List (ℚ × ℚ)) : interp (a :: b :: rest) x = a.2 + (x - a.1) * (b.2 - a.2) / (b.1 - a.1) := by
  rw [interp]
  split_ifs with h
  · -- at the left end the chord is the left ordinate
    rw [le_antisymm h hx, sub_self, zero_mul, zero_div, add_zero]
  · rfl

/-- Past a segment the interpolation is that of the points from its right end on. -/
theorem interp_cons_of_le {a b : ℚ × ℚ} (hab : a.1 < b.1) {x : ℚ} (hx : b.1 ≤ x) (rest : List (ℚ × ℚ)) :
    interp (a :: b :: rest) x = interp (b :: rest) x := by
  rcases hx.lt_or_eq with hx | rfl
  · rw [interp, if_neg (by linarith), if_neg (not_le.mpr hx)]
  · have hne : b.1 - a.1 ≠ 0 := by linarith
    rw [interp_of_mem_segment hab.le le_rfl, interp_of_le_head le_rfl]
    field_simp
    ring

theorem interp_append_of_le {pre rest : List (ℚ × ℚ)} (h : Increasing (pre ++ rest)) {b : ℚ × ℚ}
    (hb : rest.head? = some b) {x : ℚ} (hx : b.1 ≤ x) : interp (pre ++ rest) x = interp rest x := by
  induction pre with
  | nil => rfl
  | cons p pre ih =>
    have h' : (∀ a' ∈ pre ++ rest, p.1 < a'.1) ∧ Increasing (pre ++ rest) := List.pairwise_cons.mp h
    obtain ⟨q, hq⟩ : ∃ q, (pre ++ rest).head? = some q := by
      cases pre with
      | nil => exact ⟨b, hb⟩
      | cons q _ => exact ⟨q, rfl⟩
    obtain ⟨tl, htl⟩ : ∃ tl, pre ++ rest = q :: tl := List.head?_eq_some_iff.mp hq
    -- every abscissa before `b` is at most `b`'s, so `x` is past `q`
    have hqx : q.1 ≤ x := by
      cases pre with
      | nil =>
        simp only [List.nil_append] at htl
        rw [htl] at hb
        simp only [List.head?_cons, Option.some.injEq] at hb
        rw [hb]; exact hx
      | cons r pre =>
        have hrb : r.1 < b.1 := by
          refine List.rel_of_pairwise_cons h'.2 (List.mem_append_right _ (List.mem_of_mem_head? hb))
        simp only [List.cons_append, List.cons.injEq] at htl
        rw [← htl.1]; linarith
    rw [List.cons_append, htl, interp_cons_of_le (h'.1 q (by rw [htl]; exact List.mem_cons_self)) hqx, ← htl, ih h'.2]

/-- After its last point the interpolation is constant. -/
theorem interp_of_getLast_le : ∀ {points : List (ℚ × ℚ)}, Increasing points → ∀ {b : ℚ × ℚ},
    points.getLast? = some b → ∀ {x : ℚ}, b.1 ≤ x → interp points x = b.2
  | [], _, _, hb, _, _ => by simp at hb
  | [a], _, b, hb, x, _ => by
    simp only [List.getLast?_singleton, Option.some.injEq] at hb
    rw [← hb]
    rfl
  | a :: c :: rest, h, b, hb, x, hx => by
    have hac : a.1 < c.1 := List.rel_of_pairwise_cons h List.mem_cons_self
    have hb' : (c :: rest).getLast? = some b := by simpa using hb
    -- `b` is `c` or comes after it
    have hcb : c.1 ≤ b.1 := by
      rcases List.mem_cons.mp (List.mem_of_getLast? hb') with hbc | hmem
      · rw [hbc]
      · exact (List.rel_of_pairwise_cons (List.Pairwise.of_cons h) hmem).le
    rw [interp_cons_of_le hac (hcb.trans hx)]
    exact interp_of_getLast_le (List.Pairwise.of_cons h) hb' hx

/-- Between nonnegative ordinates the chord stays nonnegative. -/
theorem chord_nonneg {a b : ℚ × ℚ} {x : ℚ} (ha : 0 ≤ a.2) (hb : 0 ≤ b.2) (hx : a.1 ≤ x) (hx' : x ≤ b.1)
    (hab : a.1 < b.1) : 0 ≤ a.2 + (x - a.1) * (b.2 - a.2) / (b.1 - a.1) := by
  have hd : 0 < b.1 - a.1 := by linarith
  have : 0 ≤ (x - a.1) * b.2 + (b.1 - x) * a.2 := by positivity
  have heq : a.2 + (x - a.1) * (b.2 - a.2) / (b.1 - a.1) = ((x - a.1) * b.2 + (b.1 - x) * a.2) / (b.1 - a.1) := by
    field_simp
    ring
  rw [heq]
  positivity

/-- Nonnegative ordinates make a nonnegative interpolation. -/
theorem interp_nonneg : ∀ {points : List (ℚ × ℚ)}, Increasing points → (∀ p ∈ points, 0 ≤ p.2) →
    ∀ x, 0 ≤ interp points x
  | [], _, _, _ => le_rfl
  | [a], _, h, _ => h a List.mem_cons_self
  | a :: b :: rest, hinc, h, x => by
    have hab : a.1 < b.1 := List.rel_of_pairwise_cons hinc List.mem_cons_self
    rw [interp]
    split_ifs with h1 h2
    · exact h a List.mem_cons_self
    · exact chord_nonneg (h a List.mem_cons_self) (h b (List.mem_cons_of_mem _ List.mem_cons_self))
        (le_of_not_ge h1) h2 hab
    · exact interp_nonneg (List.Pairwise.of_cons hinc) (fun p hp => h p (List.mem_cons_of_mem _ hp)) x

/-- Before its first point the interpolation is constant. -/
theorem interp_max_head (b : ℚ × ℚ) (rest : List (ℚ × ℚ)) (z : ℚ) :
    interp (b :: rest) (max z b.1) = interp (b :: rest) z := by
  rcases le_total z b.1 with h | h
  · rw [max_eq_right h, interp_of_le_head le_rfl, interp_of_le_head h]
  · rw [max_eq_left h]

/-- The interpolation through `a :: b :: rest` is the chord of the first segment, held
constant outside it, plus the rise of the interpolation through `b :: rest`. -/
theorem interp_cons_cons_eq {a b : ℚ × ℚ} (hab : a.1 < b.1) (rest : List (ℚ × ℚ)) (z : ℚ) :
    interp (a :: b :: rest) z =
      a.2 + (min (max z a.1) b.1 - a.1) * ((b.2 - a.2) / (b.1 - a.1)) + (interp (b :: rest) z - b.2) := by
  rcases le_total z a.1 with h | h
  · rw [interp_of_le_head h, max_eq_right h, min_eq_left hab.le, interp_of_le_head (h.trans hab.le)]
    ring
  · rcases le_total z b.1 with h' | h'
    · rw [interp_of_mem_segment h h', max_eq_left h, min_eq_left h', interp_of_le_head h']
      ring
    · rw [interp_cons_of_le hab h', max_eq_left h, min_eq_right h']
      have hne : b.1 - a.1 ≠ 0 := by linarith
      field_simp
      ring

/-- The interpolation moves at most at the steepest slope. -/
theorem interp_lipschitz : ∀ {points : List (ℚ × ℚ)}, Increasing points → ∀ x y : ℚ,
    |interp points x - interp points y| ≤ maxSlope points * |x - y|
  | [], _, x, y => by simp [interp, maxSlope]
  | [a], _, x, y => by simp [interp, maxSlope]
  | a :: b :: rest, h, x, y => by
    have hab : a.1 < b.1 := List.rel_of_pairwise_cons h List.mem_cons_self
    have ih := interp_lipschitz (List.Pairwise.of_cons h)
    wlog hxy : x ≤ y generalizing x y
    · rw [abs_sub_comm, abs_sub_comm x]
      exact this y x (le_of_not_ge hxy)
    rw [interp_cons_cons_eq hab, interp_cons_cons_eq hab, abs_of_nonpos (sub_nonpos.mpr hxy), neg_sub]
    set S := maxSlope (a :: b :: rest)
    have hS0 : |b.2 - a.2| / (b.1 - a.1) ≤ S := slope_le_maxSlope hab [] rest
    have hS' : maxSlope (b :: rest) ≤ S := maxSlope_le_cons a _
    have hd : 0 < b.1 - a.1 := by linarith
    set cx := min (max x a.1) b.1
    set cy := min (max y a.1) b.1
    set mx := max x b.1
    set my := max y b.1
    -- the clamped abscissa and the abscissa past `b` move together by what `x` moves
    have hsplit : ∀ z, min (max z a.1) b.1 + max z b.1 = max z a.1 + b.1 := fun z => by
      rw [← min_add_max (max z a.1) b.1, max_assoc, max_eq_right hab.le]
    have hcx : cx ≤ cy := min_le_min_right _ (max_le_max_right _ hxy)
    have hmx : mx ≤ my := max_le_max_right _ hxy
    have hax : max y a.1 - max x a.1 ≤ y - x := by
      rcases le_total x a.1 with h1 | h1 <;> rcases le_total y a.1 with h2 | h2 <;>
        simp only [max_eq_left, max_eq_right, h1, h2] <;> linarith
    have hchord : |(cx - a.1) * ((b.2 - a.2) / (b.1 - a.1)) - (cy - a.1) * ((b.2 - a.2) / (b.1 - a.1))| ≤
        (cy - cx) * S := by
      rw [← sub_mul, abs_mul, abs_of_nonpos (show cx - a.1 - (cy - a.1) ≤ 0 by linarith), neg_sub, abs_div,
        abs_of_pos hd, show cy - a.1 - (cx - a.1) = cy - cx by ring]
      exact mul_le_mul_of_nonneg_left hS0 (sub_nonneg.mpr hcx)
    have hrest : |interp (b :: rest) x - interp (b :: rest) y| ≤ S * (my - mx) := by
      rw [← interp_max_head b rest x, ← interp_max_head b rest y]
      have := ih mx my
      rw [abs_of_nonpos (sub_nonpos.mpr hmx), neg_sub] at this
      exact this.trans (mul_le_mul_of_nonneg_right hS' (by linarith))
    calc _ = |((cx - a.1) * ((b.2 - a.2) / (b.1 - a.1)) - (cy - a.1) * ((b.2 - a.2) / (b.1 - a.1))) +
          (interp (b :: rest) x - interp (b :: rest) y)| := by ring_nf
      _ ≤ (cy - cx) * S + S * (my - mx) := (abs_add_le _ _).trans (add_le_add hchord hrest)
      _ ≤ S * (y - x) := by
          have := hsplit x
          have := hsplit y
          nlinarith [maxSlope_nonneg (a :: b :: rest)]

end PolkadotSdk.Interpolation
