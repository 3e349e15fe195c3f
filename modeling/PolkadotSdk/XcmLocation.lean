import PolkadotSdk.RelPath

/-!
# XCM locations and `reanchor`

A model of `Junctions`, `Location` and `Location::reanchor` of XCM v5. A location goes up
`parents` levels from where it is read and then down its interior junctions; the interior
holds at most `MAX_JUNCTIONS` junctions and `parents` is a `u8`, and both bounds are fields
of the model's types. The junction type is a parameter with decidable equality and its
`OnlyChild` junction: the functions modelled here only compare junctions and write
`OnlyChild`.

`reanchor` inverts the target in the context, prepends the inverted target and then
simplifies against the target's interior. Read in the context's universe, a location denotes
`RelPath.resolve`; the main result is that when the context resolves both locations and
neither goes up and comes back down the same junction of the context, `reanchor` returns
the shortest address of the same place from the target, and fails exactly when that address
has more than `MAX_JUNCTIONS` junctions.
-/

namespace PolkadotSdk.Xcm

open RelPath

/-- `MAX_JUNCTIONS`. -/
def maxJunctions : ℕ := 8

/-- `Junctions`: `Here` and `X1` to `X8`, as the list of at most eight junctions. -/
structure Junctions (J : Type) where
  toList : List J
  length_le : toList.length ≤ maxJunctions
  deriving DecidableEq

/-- `Location`, with its `u8` parent count. -/
structure Location (J : Type) where
  parents : ℕ
  interior : Junctions J
  parents_lt : parents < 256
  deriving DecidableEq

variable {J : Type} [DecidableEq J]

namespace Junctions

/-- `Junctions::Here`. -/
def here : Junctions J := ⟨[], Nat.zero_le _⟩

def len (js : Junctions J) : ℕ := js.toList.length

/-- `take_last`: the junctions without the last, and the last. -/
def takeLast (js : Junctions J) : Junctions J × Option J :=
  (⟨js.toList.dropLast, by
    rw [List.length_dropLast]
    exact Nat.le_trans (Nat.sub_le _ _) js.length_le⟩, js.toList.getLast?)

/-- `pushed_front_with`, which fails on `X8`. -/
def pushedFrontWith (js : Junctions J) (new : J) : Except (Junctions J × J) (Junctions J) :=
  if h : js.len < maxJunctions then .ok ⟨new :: js.toList, h⟩ else .error (js, new)

omit [DecidableEq J] in
theorem len_le (js : Junctions J) : js.len ≤ maxJunctions := js.length_le

end Junctions

/-- The loop of `invert_target`: each round takes the context's last junction, or `OnlyChild`
once the context is used up, and pushes it to the front. -/
def invertLoop (onlyChild : J) : ℕ → Junctions J → Junctions J → Except Unit (Junctions J)
  | 0, _, junctions => .ok junctions
  | n + 1, itself, junctions =>
    match junctions.pushedFrontWith (itself.takeLast.2.getD onlyChild) with
    | .error _ => .error ()
    | .ok junctions => invertLoop onlyChild n itself.takeLast.1 junctions

/-- `Junctions::invert_target`: the local consensus system seen from `target`. -/
def invertTarget (onlyChild : J) (self : Junctions J) (target : Location J) : Except Unit (Location J) :=
  match invertLoop onlyChild target.parents self .here with
  | .error () => .error ()
  | .ok junctions =>
    .ok ⟨target.interior.len, junctions, Nat.lt_of_le_of_lt target.interior.len_le (by decide)⟩

/-- The loop of `prepend_with`: each of the suffix's parents cancels the prefix's last interior
junction, while there is one. -/
def cancelParents : ℕ → List J → ℕ × List J
  | 0, pre => (0, pre)
  | p + 1, pre =>
    match pre.getLast? with
    | none => (p + 1, pre)
    | some _ => cancelParents p pre.dropLast

omit [DecidableEq J] in
theorem cancelParents_eq : ∀ (p : ℕ) (pre : List J),
    cancelParents p pre = (p - pre.length, pre.take (pre.length - p))
  | 0, pre => by simp [cancelParents]
  | p + 1, pre => by
    rw [cancelParents]
    cases h : pre.getLast? with
    | none =>
      rw [List.getLast?_eq_none_iff] at h
      subst h
      simp
    | some a =>
      have hne : pre ≠ [] := by
        rintro rfl
        simp at h
      have hpos : 0 < pre.length := List.length_pos_iff.mpr hne
      rw [cancelParents_eq p pre.dropLast, List.length_dropLast, List.dropLast_eq_take, List.take_take,
        Prod.mk.injEq]
      constructor
      · omega
      · congr 1
        omega

theorem length_cancelParents (p : ℕ) (pre : List J) :
    (cancelParents p pre).2.length = pre.length - p := by
  rw [cancelParents_eq, List.length_take]
  omega

/-- `Location::prepend_with`, with the new value of `self` on success and `prefix` on failure.
The interior it builds fits: that is the check `final_interior > MAX_JUNCTIONS` the code makes
before it pushes the prefix's junctions with `expect`. -/
def prependWith (self pre : Location J) : Except (Location J) (Location J) :=
  -- `final_interior`
  if h : self.interior.len + (pre.interior.len - self.parents) > maxJunctions then .error pre
  -- `final_parents`
  else if pre.parents + (self.parents - pre.interior.len) > 255 then .error pre
  else
    .ok ⟨min ((cancelParents self.parents pre.interior.toList).1 + pre.parents) 255,
      ⟨(cancelParents self.parents pre.interior.toList).2 ++ self.interior.toList, by
        rw [List.length_append, length_cancelParents]
        unfold Junctions.len at h
        omega⟩,
      by omega⟩

/-- The loop of `simplify`: while the first interior junction is the context's junction that
the parents climb to, both cancel. -/
def simplifyLoop (context : List J) : ℕ → List J → ℕ × List J
  | 0, interior => (0, interior)
  | p + 1, interior =>
    match interior.head?, context[context.length - (p + 1)]? with
    | some i, some j => if i = j then simplifyLoop context p interior.tail else (p + 1, interior)
    | _, _ => (p + 1, interior)

theorem simplifyLoop_bounds (context : List J) : ∀ (p : ℕ) (interior : List J),
    (simplifyLoop context p interior).1 ≤ p ∧ (simplifyLoop context p interior).2.length ≤ interior.length
  | 0, interior => by simp [simplifyLoop]
  | p + 1, interior => by
    rw [simplifyLoop]
    split
    · split
      · have ih := simplifyLoop_bounds context p interior.tail
        rw [List.length_tail] at ih
        omega
      · simp
    · simp

/-- `Location::simplify`. -/
def simplify (self : Location J) (context : Junctions J) : Location J :=
  if context.len < self.parents then self
  else
    ⟨(simplifyLoop context.toList self.parents self.interior.toList).1,
      ⟨(simplifyLoop context.toList self.parents self.interior.toList).2,
        Nat.le_trans (simplifyLoop_bounds _ _ _).2 self.interior.length_le⟩,
      Nat.lt_of_le_of_lt (simplifyLoop_bounds _ _ _).1 self.parents_lt⟩

/-- `Location::reanchor`, with the new value of `self` and the result. -/
def reanchor (onlyChild : J) (self target : Location J) (context : Junctions J) : Location J × Except Unit Unit :=
  match invertTarget onlyChild context target with
  | .error () => (self, .error ())
  | .ok invertedTarget =>
    match prependWith self invertedTarget with
    | .error _ => (self, .error ())
    | .ok prepended => (simplify prepended target.interior, .ok ())

omit [DecidableEq J] in
/-- One round of `invert_target` on lists: the last junction, or `OnlyChild`, goes in front
of what the rounds before pushed. -/
theorem invert_round (onlyChild : J) (n : ℕ) (itself : List J) :
    List.replicate (n - (itself.length - 1)) onlyChild ++ itself.dropLast.drop (itself.length - 1 - n) ++
        [itself.getLast?.getD onlyChild] =
      List.replicate (n + 1 - itself.length) onlyChild ++ itself.drop (itself.length - (n + 1)) := by
  rcases List.eq_nil_or_concat itself with h | ⟨init, a, h⟩
  · subst h
    simp [List.replicate_succ']
  · subst h
    rw [List.concat_eq_append, List.dropLast_concat, List.getLast?_concat, Option.getD_some, List.length_append,
      List.length_singleton, Nat.add_sub_cancel, Nat.add_sub_add_right, Nat.add_sub_add_right,
      List.drop_append_of_le_length (Nat.sub_le _ _), List.append_assoc]

/-- `invert_target`'s loop pushes the context's last `n` junctions, padded in front with
`OnlyChild`, and fails when they do not fit. -/
theorem invertLoop_toList (onlyChild : J) : ∀ (n : ℕ) (itself junctions : Junctions J),
    (invertLoop onlyChild n itself junctions).map Junctions.toList =
      if n + junctions.len ≤ maxJunctions then
        .ok (List.replicate (n - itself.len) onlyChild ++ itself.toList.drop (itself.len - n) ++ junctions.toList)
      else .error ()
  | 0, itself, junctions => by
    rw [if_pos (by simpa using junctions.len_le)]
    simp [invertLoop, Junctions.len, Except.map]
  | n + 1, itself, junctions => by
    rw [invertLoop, Junctions.pushedFrontWith]
    by_cases h : junctions.len < maxJunctions
    · rw [dif_pos h]
      dsimp only
      rw [invertLoop_toList onlyChild n]
      -- the pushed junctions are one longer, so the two bounds agree
      split_ifs with h₁ h₂ h₂
      · have hround := invert_round onlyChild n itself.toList
        simp only [Junctions.takeLast, Junctions.len, List.length_dropLast] at hround ⊢
        rw [← hround, List.append_assoc, List.append_assoc, List.append_assoc, List.singleton_append]
      · simp only [Junctions.len, List.length_cons] at h₁ h₂
        omega
      · simp only [Junctions.len, List.length_cons] at h₁ h₂
        omega
      · rfl
    · rw [dif_neg h, if_neg (by omega)]
      rfl

/-- Inside the context, `invert_target` goes up the target's interior and down the context's
last junctions, as many as the target has parents. -/
theorem invertTarget_of_le (onlyChild : J) {self : Junctions J} {target : Location J}
    (h : target.parents ≤ self.len) :
    ∃ inv, invertTarget onlyChild self target = .ok inv ∧ inv.parents = target.interior.len ∧
      inv.interior.toList = self.toList.drop (self.len - target.parents) := by
  have hloop := invertLoop_toList onlyChild target.parents self .here
  have hfits : target.parents + (Junctions.here : Junctions J).len ≤ maxJunctions := by
    show target.parents + 0 ≤ maxJunctions
    have := self.len_le
    omega
  rw [if_pos hfits, Nat.sub_eq_zero_of_le h] at hloop
  unfold invertTarget
  cases hinv : invertLoop onlyChild target.parents self .here with
  | error e =>
    rw [hinv] at hloop
    cases hloop
  | ok js =>
    rw [hinv] at hloop
    refine ⟨_, rfl, rfl, ?_⟩
    simpa [Except.map, Junctions.here] using hloop

theorem prependWith_of_overflow {self pre : Location J}
    (h : self.interior.len + (pre.interior.len - self.parents) > maxJunctions) : prependWith self pre = .error pre := by
  rw [prependWith, dif_pos h]

/-- When both checks pass, the suffix's parents cancel the prefix's last junctions and what
is left of both is joined. -/
theorem prependWith_of_fits {self pre : Location J}
    (h₁ : self.interior.len + (pre.interior.len - self.parents) ≤ maxJunctions)
    (h₂ : pre.parents + (self.parents - pre.interior.len) ≤ 255) :
    ∃ s, prependWith self pre = .ok s ∧ s.parents = self.parents - pre.interior.len + pre.parents ∧
      s.interior.toList = pre.interior.toList.take (pre.interior.len - self.parents) ++ self.interior.toList := by
  rw [prependWith, dif_neg (by omega), if_neg (by omega)]
  refine ⟨_, rfl, ?_, ?_⟩
  · simp only [cancelParents_eq, Junctions.len]
    simp only [Junctions.len] at h₂
    omega
  · simp only [cancelParents_eq, Junctions.len]

/-- Within the context, `simplify`'s loop walks the common prefix of the context's junctions
the parents climb over and the interior. -/
theorem simplifyLoop_eq (context : List J) : ∀ (p : ℕ) (interior : List J), p ≤ context.length →
    simplifyLoop context p interior =
      (p - commonPrefixLen (context.drop (context.length - p)) interior,
        interior.drop (commonPrefixLen (context.drop (context.length - p)) interior))
  | 0, interior, _ => by simp [simplifyLoop]
  | p + 1, interior, hp => by
    have hlt : context.length - (p + 1) < context.length := by omega
    have hdrop : context.drop (context.length - (p + 1)) =
        context[context.length - (p + 1)] :: context.drop (context.length - p) := by
      rw [List.drop_eq_getElem_cons hlt]
      congr 2
      omega
    rw [simplifyLoop, hdrop, List.getElem?_eq_getElem hlt]
    cases interior with
    | nil => simp
    | cons a interior =>
      rw [List.head?_cons, commonPrefixLen_cons_cons]
      dsimp only
      by_cases ha : a = context[context.length - (p + 1)]
      · rw [if_pos ha, if_pos ha.symm, List.tail_cons, simplifyLoop_eq context p interior (by omega),
          List.drop_succ_cons]
        congr 1
        omega
      · rw [if_neg ha, if_neg (Ne.symm ha)]
        simp

theorem simplify_of_lt {self : Location J} {context : Junctions J} (h : context.len < self.parents) :
    simplify self context = self := by
  rw [simplify, if_pos h]

theorem simplify_of_le {self : Location J} {context : Junctions J} (h : self.parents ≤ context.len) :
    (simplify self context).parents =
        self.parents - commonPrefixLen (context.toList.drop (context.len - self.parents)) self.interior.toList ∧
      (simplify self context).interior.toList =
        self.interior.toList.drop (commonPrefixLen (context.toList.drop (context.len - self.parents))
          self.interior.toList) := by
  rw [simplify, if_neg (by omega)]
  dsimp only
  rw [simplifyLoop_eq _ _ _ h]
  exact ⟨rfl, rfl⟩

/-- A location that `simplify` leaves alone does not climb to a junction of the context and
come back down through it. -/
theorem commonPrefixLen_eq_zero_of_simplify {self : Location J} {context : Junctions J}
    (h : self.parents ≤ context.len) (hs : simplify self context = self) :
    commonPrefixLen (context.toList.drop (context.len - self.parents)) self.interior.toList = 0 := by
  have hp := congrArg Location.parents hs
  rw [(simplify_of_le h).1] at hp
  have hle := commonPrefixLen_le_left (context.toList.drop (context.len - self.parents)) self.interior.toList
  rw [List.length_drop, show context.toList.length = context.len from rfl] at hle
  omega

/-- The place a location read in `context` denotes. -/
def absolute (context : Junctions J) (l : Location J) : List J :=
  resolve context.toList l.parents l.interior.toList

/-- `reanchor` leaves `self` as it was whenever it fails. -/
theorem reanchor_of_error {onlyChild : J} {self target : Location J} {context : Junctions J}
    (h : (reanchor onlyChild self target context).2 = .error ()) : (reanchor onlyChild self target context).1 = self := by
  unfold reanchor at h ⊢
  split
  · rfl
  · split
    · rfl
    · rename_i heq _ _ hp
      rw [heq] at h
      simp only [hp] at h
      cases h

omit [DecidableEq J] in
theorem length_drop_context {context : Junctions J} {q : ℕ} (hq : q ≤ context.len) :
    (context.toList.drop (context.len - q)).length = q := by
  rw [List.length_drop, show context.toList.length = context.len from rfl]
  omega

/-- Inside the context, `reanchor` fails when the prepended interior does not fit. -/
theorem reanchor_of_overflow (onlyChild : J) {l target : Location J} {context : Junctions J}
    (hq : target.parents ≤ context.len) (hover : l.interior.len + (target.parents - l.parents) > maxJunctions) :
    reanchor onlyChild l target context = (l, .error ()) := by
  obtain ⟨inv, hinv, -, hi⟩ := invertTarget_of_le onlyChild hq
  have hlen : inv.interior.len = target.parents := by
    rw [Junctions.len, hi, length_drop_context hq]
  unfold reanchor
  rw [hinv]
  dsimp only
  rw [prependWith_of_overflow (by rw [hlen]; exact hover)]

/-- Inside the context, and when the prepended interior fits, `reanchor` simplifies the
prepended location: it goes up the suffix's parents the inverted target did not cancel and the
target's interior, and down the rest of the context's junctions and its own interior. -/
theorem reanchor_of_fits (onlyChild : J) {l target : Location J} {context : Junctions J}
    (hp : l.parents ≤ context.len) (hq : target.parents ≤ context.len)
    (hfit : l.interior.len + (target.parents - l.parents) ≤ maxJunctions) :
    ∃ prepended, reanchor onlyChild l target context = (simplify prepended target.interior, .ok ()) ∧
      prepended.parents = l.parents - target.parents + target.interior.len ∧
      prepended.interior.toList =
        (context.toList.drop (context.len - target.parents)).take (target.parents - l.parents) ++
          l.interior.toList := by
  obtain ⟨inv, hinv, hip, hi⟩ := invertTarget_of_le onlyChild hq
  have hlen : inv.interior.len = target.parents := by
    rw [Junctions.len, hi, length_drop_context hq]
  have hparents : inv.parents + (l.parents - inv.interior.len) ≤ 255 := by
    have := context.len_le
    have := target.interior.len_le
    unfold maxJunctions at *
    omega
  obtain ⟨prepended, hpre, hpp, hpi⟩ := prependWith_of_fits (by rw [hlen]; exact hfit) hparents
  refine ⟨prepended, ?_, ?_, ?_⟩
  · unfold reanchor
    rw [hinv]
    dsimp only
    rw [hpre]
  · rw [hpp, hlen, hip]
  · rw [hpi, hlen, hi]

/-- `simplify` against as many junctions as the location has parents leaves the shortest
address of its interior from them. -/
theorem simplify_of_parents_eq {self : Location J} {context : Junctions J} (h : self.parents = context.len) :
    ((simplify self context).parents, (simplify self context).interior.toList) =
      relative context.toList self.interior.toList := by
  obtain ⟨hp, hi⟩ := simplify_of_le (Nat.le_of_eq h)
  rw [hp, hi, relative, h, Nat.sub_self, List.drop_zero]
  rfl

/-- When the location goes up no more than the target, both places share the part of the
context above the target. -/
theorem relative_absolute_of_le {context : Junctions J} {l target : Location J}
    (hpq : l.parents ≤ target.parents) (hq : target.parents ≤ context.len) :
    relative (absolute context target) (absolute context l) =
      relative target.interior.toList
        ((context.toList.drop (context.len - target.parents)).take (target.parents - l.parents) ++
          l.interior.toList) := by
  unfold absolute resolve
  rw [take_sub_eq_take_append hpq hq, List.append_assoc, relative_append_left]
  rfl

/-- When the location goes up further than the target, both places share the part of the
context above the location. -/
theorem relative_absolute_of_lt {context : Junctions J} {l target : Location J}
    (hqp : target.parents < l.parents) (hp : l.parents ≤ context.len) :
    relative (absolute context target) (absolute context l) =
      relative ((context.toList.drop (context.len - l.parents)).take (l.parents - target.parents) ++
        target.interior.toList) l.interior.toList := by
  unfold absolute resolve
  rw [take_sub_eq_take_append (Nat.le_of_lt hqp) hp, List.append_assoc, relative_append_left]
  rfl

/-- A location that goes up further than the target and does not come back down through the
context keeps its interior: the shortest address has no common prefix to cancel. -/
theorem commonPrefixLen_absolute_of_lt {context : Junctions J} {l target : Location J}
    (hqp : target.parents < l.parents) (hp : l.parents ≤ context.len) (hls : simplify l context = l) :
    commonPrefixLen ((context.toList.drop (context.len - l.parents)).take (l.parents - target.parents) ++
      target.interior.toList) l.interior.toList = 0 := by
  have hlen := length_drop_context hp
  have hne : context.toList.drop (context.len - l.parents) ≠ [] := by
    intro h
    rw [h, List.length_nil] at hlen
    omega
  refine commonPrefixLen_eq_zero_of_head? (commonPrefixLen_eq_zero_of_simplify hp hls) hne ?_
  obtain ⟨a, d, hd⟩ := List.exists_cons_of_ne_nil hne
  rw [hd, show l.parents - target.parents = (l.parents - target.parents - 1) + 1 by omega, List.take_succ_cons,
    List.cons_append, List.head?_cons, List.head?_cons]

/-- Inside the context, when neither location comes back down through it, the interior
`prepend_with` builds fits exactly when the shortest address does. -/
theorem fits_iff_relative_length {context : Junctions J} {l target : Location J}
    (hp : l.parents ≤ context.len) (hq : target.parents ≤ context.len)
    (hls : simplify l context = l) (hts : simplify target context = target) :
    l.interior.len + (target.parents - l.parents) ≤ maxJunctions ↔
      (relative (absolute context target) (absolute context l)).2.length ≤ maxJunctions := by
  have hI := l.interior.len_le
  by_cases hpq : l.parents ≤ target.parents
  · rw [relative_absolute_of_le hpq hq]
    by_cases heq : l.parents = target.parents
    · -- nothing of the context is prepended, and the interior already fits
      rw [heq, Nat.sub_self, List.take_zero, List.nil_append, relative, List.length_drop]
      unfold Junctions.len at hI ⊢
      constructor <;> intro _ <;> omega
    · -- the target does not come back down through the context, so nothing cancels
      have hlen := length_drop_context hq
      have hne : context.toList.drop (context.len - target.parents) ≠ [] := by
        intro h
        rw [h, List.length_nil] at hlen
        omega
      have hzero : commonPrefixLen target.interior.toList
          ((context.toList.drop (context.len - target.parents)).take (target.parents - l.parents) ++
            l.interior.toList) = 0 := by
        rw [commonPrefixLen_comm]
        refine commonPrefixLen_eq_zero_of_head? (commonPrefixLen_eq_zero_of_simplify hq hts) hne ?_
        obtain ⟨a, d, hd⟩ := List.exists_cons_of_ne_nil hne
        rw [hd, show target.parents - l.parents = (target.parents - l.parents - 1) + 1 by omega,
          List.take_succ_cons, List.cons_append, List.head?_cons, List.head?_cons]
      rw [relative_of_commonPrefixLen_eq_zero hzero, List.length_append, List.length_take, hlen]
      unfold Junctions.len
      constructor <;> intro _ <;> omega
  · have hqp : target.parents < l.parents := Nat.lt_of_not_le hpq
    rw [relative_absolute_of_lt hqp hp, relative_of_commonPrefixLen_eq_zero
      (commonPrefixLen_absolute_of_lt hqp hp hls)]
    unfold Junctions.len at hI ⊢
    constructor <;> intro _ <;> omega

/-- Inside the context, when neither location comes back down through it and the prepended
interior fits, `reanchor` succeeds with the shortest address of the same place from the target. -/
theorem reanchor_eq_relative_of_fits (onlyChild : J) {context : Junctions J} {l target : Location J}
    (hp : l.parents ≤ context.len) (hq : target.parents ≤ context.len) (hls : simplify l context = l)
    (hfit : l.interior.len + (target.parents - l.parents) ≤ maxJunctions) :
    ((reanchor onlyChild l target context).1.parents, (reanchor onlyChild l target context).1.interior.toList) =
        relative (absolute context target) (absolute context l) ∧
      (reanchor onlyChild l target context).2 = .ok () := by
  obtain ⟨prepended, hre, hpp, hpi⟩ := reanchor_of_fits onlyChild hp hq hfit
  rw [hre]
  refine ⟨?_, rfl⟩
  by_cases hpq : l.parents ≤ target.parents
  · -- the prepended location goes up the target's interior, which `simplify` then walks
    rw [relative_absolute_of_le hpq hq, simplify_of_parents_eq (by rw [hpp]; omega), hpi]
  · -- the prepended location goes up past the target's interior, so `simplify` stops at once
    have hqp : target.parents < l.parents := Nat.lt_of_not_le hpq
    rw [relative_absolute_of_lt hqp hp, relative_of_commonPrefixLen_eq_zero
      (commonPrefixLen_absolute_of_lt hqp hp hls), simplify_of_lt (by rw [hpp]; omega), hpp, hpi,
      Nat.sub_eq_zero_of_le (Nat.le_of_lt hqp), List.take_zero, List.nil_append, List.length_append,
      List.length_take, length_drop_context hp]
    congr 1
    unfold Junctions.len
    omega

/-- `reanchor` inside the context of two locations that do not come back down through it:
it succeeds exactly when the shortest address of the same place from the target fits in
`MAX_JUNCTIONS` junctions, leaves that address, which denotes the place it denoted before,
and leaves the location as it was when it fails. -/
theorem reanchor_canonical (onlyChild : J) (context : Junctions J) (l target : Location J)
    (hp : l.parents ≤ context.len) (hq : target.parents ≤ context.len)
    (hls : simplify l context = l) (hts : simplify target context = target) :
    ((reanchor onlyChild l target context).2 = .ok () ↔
        (relative (absolute context target) (absolute context l)).2.length ≤ maxJunctions) ∧
      ((reanchor onlyChild l target context).2 = .ok () →
        ((reanchor onlyChild l target context).1.parents, (reanchor onlyChild l target context).1.interior.toList) =
            relative (absolute context target) (absolute context l) ∧
          resolve (absolute context target) (reanchor onlyChild l target context).1.parents
            (reanchor onlyChild l target context).1.interior.toList = absolute context l) ∧
      ((reanchor onlyChild l target context).2 = .error () → (reanchor onlyChild l target context).1 = l) := by
  have hiff := fits_iff_relative_length hp hq hls hts
  -- `reanchor` succeeds only when the prepended interior fits
  have hfit_of_ok : (reanchor onlyChild l target context).2 = .ok () →
      l.interior.len + (target.parents - l.parents) ≤ maxJunctions := by
    intro hok
    by_contra hover
    rw [reanchor_of_overflow onlyChild hq (Nat.lt_of_not_le hover)] at hok
    cases hok
  refine ⟨⟨fun hok => hiff.mp (hfit_of_ok hok),
    fun hlen => (reanchor_eq_relative_of_fits onlyChild hp hq hls (hiff.mpr hlen)).2⟩, ?_, reanchor_of_error⟩
  intro hok
  have hrel := (reanchor_eq_relative_of_fits onlyChild hp hq hls (hfit_of_ok hok)).1
  refine ⟨hrel, ?_⟩
  obtain ⟨hparents, hinterior⟩ := Prod.ext_iff.mp hrel
  dsimp only at hparents hinterior
  rw [hparents, hinterior]
  exact resolve_relative _ _

-- `reanchor_works`: from parachain 2000, its sibling 1000's general index 42, seen from 1000
example : reanchor 0 ⟨1, ⟨[1000, 42], by decide⟩, by decide⟩ ⟨1, ⟨[1000], by decide⟩, by decide⟩
    ⟨[2000], by decide⟩ = (⟨0, ⟨[42], by decide⟩, by decide⟩, .ok ()) := by decide

/-- A context of two junctions, a sibling of its last junction, and a child of the context. -/
def pairContext : Junctions ℕ := ⟨[1, 2], by decide⟩

def siblingTarget : Location ℕ := ⟨1, ⟨[3], by decide⟩, by decide⟩

def childLocation : Location ℕ := ⟨0, ⟨[4], by decide⟩, by decide⟩

theorem reanchor_canonical_sibling :
    childLocation.parents ≤ pairContext.len ∧ siblingTarget.parents ≤ pairContext.len ∧
      simplify childLocation pairContext = childLocation ∧ simplify siblingTarget pairContext = siblingTarget ∧
      (((reanchor 0 childLocation siblingTarget pairContext).2 = .ok () ↔
          (relative (absolute pairContext siblingTarget) (absolute pairContext childLocation)).2.length ≤
            maxJunctions) ∧
        ((reanchor 0 childLocation siblingTarget pairContext).2 = .ok () →
          ((reanchor 0 childLocation siblingTarget pairContext).1.parents,
              (reanchor 0 childLocation siblingTarget pairContext).1.interior.toList) =
            relative (absolute pairContext siblingTarget) (absolute pairContext childLocation) ∧
          resolve (absolute pairContext siblingTarget) (reanchor 0 childLocation siblingTarget pairContext).1.parents
            (reanchor 0 childLocation siblingTarget pairContext).1.interior.toList =
              absolute pairContext childLocation) ∧
        ((reanchor 0 childLocation siblingTarget pairContext).2 = .error () →
          (reanchor 0 childLocation siblingTarget pairContext).1 = childLocation)) := by
  have hp : childLocation.parents ≤ pairContext.len := by decide
  have hq : siblingTarget.parents ≤ pairContext.len := by decide
  have hls : simplify childLocation pairContext = childLocation := by decide
  have hts : simplify siblingTarget pairContext = siblingTarget := by decide
  exact ⟨hp, hq, hls, hts, reanchor_canonical 0 pairContext childLocation siblingTarget hp hq hls hts⟩

end PolkadotSdk.Xcm
