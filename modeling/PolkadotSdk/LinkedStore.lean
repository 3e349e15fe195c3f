import Mathlib.Data.List.Basic
import Mathlib.Data.List.Nodup

/-!
# Lists linked through a store

A list kept in a key-value store as records that name the key of the next record.
`Linked get key next start xs` says that following the links from `start` reads exactly
`xs`, each record stored under its own key, and then reaches no key. A doubly linked list
is linked by `next` from its head and, reversed, by `prev` from its tail. A walk along the
links with at least as much fuel as the list is long reads it back.
-/

namespace PolkadotSdk.LinkedStore

variable {α β : Type} (get : α → Option β) (key : β → α) (next : β → Option α)

/-- Following the links from `start` reads `xs` and then stops. -/
def Linked : Option α → List β → Prop
  | start, [] => start = none
  | start, x :: xs => start = some (key x) ∧ get (key x) = some x ∧ Linked (next x) xs

/-- The records read along the links from `start`, at most `fuel` of them. -/
def walk : ℕ → Option α → List β
  | 0, _ => []
  | _ + 1, none => []
  | fuel + 1, some a =>
    match get a with
    | none => []
    | some x => x :: walk fuel (next x)

variable {get key next}

@[simp] theorem linked_nil {start : Option α} : Linked get key next start [] ↔ start = none := Iff.rfl

@[simp] theorem linked_cons {start : Option α} {x : β} {xs : List β} :
    Linked get key next start (x :: xs) ↔
      start = some (key x) ∧ get (key x) = some x ∧ Linked get key next (next x) xs := Iff.rfl

@[simp] theorem walk_none (fuel : ℕ) : walk get next fuel none = [] := by
  cases fuel <;> rfl

/-- With enough fuel the walk reads the whole linked list. -/
theorem Linked.walk_eq {start : Option α} {xs : List β} (h : Linked get key next start xs) {fuel : ℕ}
    (hfuel : xs.length ≤ fuel) : walk get next fuel start = xs := by
  induction xs generalizing start fuel with
  | nil =>
    rw [linked_nil.mp h, walk_none]
  | cons x xs ih =>
    obtain ⟨rfl, hget, hrest⟩ := h
    obtain ⟨fuel, rfl⟩ : ∃ f, fuel = f + 1 := ⟨fuel - 1, by simp at hfuel; omega⟩
    simp only [walk, hget, ih hrest (by simpa using hfuel)]

theorem Linked.get_of_mem {start : Option α} {xs : List β} (h : Linked get key next start xs) {x : β}
    (hx : x ∈ xs) : get (key x) = some x := by
  induction xs generalizing start with
  | nil => cases hx
  | cons y ys ih =>
    obtain ⟨-, hget, hrest⟩ := h
    rcases List.mem_cons.mp hx with rfl | hx
    · exact hget
    · exact ih hrest hx

/-- What follows an element of a linked list is linked from its successor. -/
theorem Linked.of_append_cons {start : Option α} {A B : List β} {x : β}
    (h : Linked get key next start (A ++ x :: B)) : Linked get key next (next x) B := by
  induction A generalizing start with
  | nil => exact h.2.2
  | cons y A ih => exact ih h.2.2

/-- Each element of a linked list links to the one after it. -/
theorem Linked.chain {start : Option α} {xs : List β} (h : Linked get key next start xs) :
    xs.IsChain fun a b => next a = some (key b) := by
  induction xs generalizing start with
  | nil => exact .nil
  | cons x xs ih =>
    obtain ⟨-, -, hrest⟩ := h
    cases xs with
    | nil => exact .singleton x
    | cons y ys => exact .cons_cons hrest.1 (ih hrest)

/-- The last element of a linked list links to nothing. -/
theorem Linked.next_getLast {start : Option α} {xs : List β} (h : Linked get key next start xs) :
    ∀ x ∈ xs.getLast?, next x = none := by
  induction xs generalizing start with
  | nil => simp
  | cons x xs ih =>
    obtain ⟨-, -, hrest⟩ := h
    cases xs with
    | nil =>
      intro y hy
      simp only [List.getLast?_singleton, Option.mem_def, Option.some.injEq] at hy
      subst hy
      exact hrest
    | cons y ys =>
      intro z hz
      exact ih hrest z (by simpa [List.getLast?_cons_cons] using hz)

/-! ## Neighbours in a list of distinct keys -/

section Neighbours

variable {γ : Type} [DecidableEq γ]

/-- The element after the first `k` in `l`. -/
def nextOf : List γ → γ → Option γ
  | a :: b :: l, k => if a = k then some b else nextOf (b :: l) k
  | _, _ => none

/-- The element before the last `k` in `l`. -/
def prevOf (l : List γ) (k : γ) : Option γ := nextOf l.reverse k

@[simp] theorem nextOf_nil (k : γ) : nextOf [] k = none := rfl

theorem nextOf_cons (a : γ) (l : List γ) (k : γ) :
    nextOf (a :: l) k = if a = k then l.head? else nextOf l k := by
  cases l with
  | nil => split <;> rfl
  | cons b l => rfl

theorem nextOf_of_not_mem {l : List γ} {k : γ} (hk : k ∉ l) : nextOf l k = none := by
  induction l with
  | nil => rfl
  | cons a l ih =>
    rw [List.mem_cons, not_or] at hk
    rw [nextOf_cons, if_neg (Ne.symm hk.1), ih hk.2]

/-- The successor in an append: across the seam from the last of the left part, else within
the part that holds `k`. -/
theorem nextOf_append {P : List γ} (hP : P.Nodup) (Q : List γ) (k : γ) :
    nextOf (P ++ Q) k = if P.getLast? = some k then Q.head? else if k ∈ P then nextOf P k else nextOf Q k := by
  induction P with
  | nil => simp
  | cons a P ih =>
    rw [List.nodup_cons] at hP
    rw [List.cons_append, nextOf_cons, nextOf_cons, ih hP.2]
    by_cases hak : a = k
    · subst hak
      cases P with
      | nil => simp
      | cons b P =>
        have hlast : (b :: P).getLast? ≠ some a := fun h => hP.1 (List.mem_of_getLast? h)
        simp [List.getLast?_cons_cons, hlast]
    · cases P with
      | nil => simp [hak, Ne.symm hak]
      | cons b P => simp [List.getLast?_cons_cons, hak, Ne.symm hak]

theorem nextOf_append_cons_self {P : List γ} (hP : P.Nodup) {k : γ} (hk : k ∉ P) (Q : List γ) :
    nextOf (P ++ k :: Q) k = Q.head? := by
  have hlast : P.getLast? ≠ some k := fun h => hk (List.mem_of_getLast? h)
  rw [nextOf_append hP, if_neg hlast, if_neg hk, nextOf_cons, if_pos rfl]

/-- Taking `k` out from between two parts changes only the successor of the element before
it. -/
theorem nextOf_append_cons {P : List γ} (hP : P.Nodup) {k : γ} (Q : List γ) {j : γ} (hj : j ≠ k) :
    nextOf (P ++ k :: Q) j = if P.getLast? = some j then some k else nextOf (P ++ Q) j := by
  rw [nextOf_append hP, nextOf_append hP, nextOf_cons, if_neg (Ne.symm hj)]
  split_ifs <;> rfl

theorem prevOf_append_cons_self {Q : List γ} (hQ : Q.Nodup) {k : γ} (hk : k ∉ Q) (P : List γ) :
    prevOf (P ++ k :: Q) k = P.getLast? := by
  have h := nextOf_append_cons_self (List.nodup_reverse.mpr hQ) (mt List.mem_reverse.mp hk) P.reverse
  simpa [prevOf, List.reverse_append] using h

/-- Taking `k` out from between two parts changes only the predecessor of the element after
it. -/
theorem prevOf_append_cons {Q : List γ} (hQ : Q.Nodup) {k : γ} (P : List γ) {j : γ} (hj : j ≠ k) :
    prevOf (P ++ k :: Q) j = if Q.head? = some j then some k else prevOf (P ++ Q) j := by
  have h := nextOf_append_cons (List.nodup_reverse.mpr hQ) P.reverse hj
  simpa [prevOf, List.reverse_append, List.getLast?_reverse] using h

theorem nextOf_append_of_getLast {P : List γ} (hP : P.Nodup) (Q : List γ) {k : γ} (hk : P.getLast? = some k) :
    nextOf (P ++ Q) k = Q.head? := by
  rw [nextOf_append hP, if_pos hk]

theorem prevOf_append_of_head {Q : List γ} (hQ : Q.Nodup) (P : List γ) {k : γ} (hk : Q.head? = some k) :
    prevOf (P ++ Q) k = P.getLast? := by
  have h := nextOf_append_of_getLast (List.nodup_reverse.mpr hQ) P.reverse (k := k)
    (by rw [List.getLast?_reverse]; exact hk)
  simpa [prevOf, List.reverse_append] using h

/-- A listed element has no successor exactly when it is the last. -/
theorem nextOf_eq_none_iff {l : List γ} (hl : l.Nodup) {k : γ} (hk : k ∈ l) :
    nextOf l k = none ↔ l.getLast? = some k := by
  obtain ⟨P, Q, rfl⟩ := List.append_of_mem hk
  have hkP : k ∉ P := fun h => (List.nodup_append.mp hl).2.2 k h k List.mem_cons_self rfl
  have hkQ : k ∉ Q := (List.nodup_cons.mp (List.nodup_append.mp hl).2.1).1
  rw [nextOf_append_cons_self (List.nodup_append.mp hl).1 hkP]
  cases Q with
  | nil => simp
  | cons q Q =>
    have hlast : (q :: Q).getLast? ≠ some k := fun h => hkQ (List.mem_of_getLast? h)
    simp only [List.head?_cons, reduceCtorEq, false_iff]
    rw [List.getLast?_append_of_ne_nil _ (by simp), List.getLast?_cons_cons]
    exact hlast

/-- A listed element has no predecessor exactly when it is the first. -/
theorem prevOf_eq_none_iff {l : List γ} (hl : l.Nodup) {k : γ} (hk : k ∈ l) :
    prevOf l k = none ↔ l.head? = some k := by
  rw [prevOf, nextOf_eq_none_iff (List.nodup_reverse.mpr hl) (List.mem_reverse.mpr hk), List.getLast?_reverse]

end Neighbours

/-! ## Linked lists as neighbour lists -/

section LinkedNeighbours

variable {get : α → Option β} {key : β → α} {next : β → Option α} [DecidableEq α]

/-- Records stored under distinct keys, each linking to the key after its own, are linked
from the first key. -/
theorem linked_map_of_nextOf {f : α → β} {l : List α} (hl : l.Nodup) (hkey : ∀ k ∈ l, key (f k) = k)
    (hget : ∀ k ∈ l, get k = some (f k)) (hnext : ∀ k ∈ l, next (f k) = nextOf l k) :
    Linked get key next l.head? (l.map f) := by
  induction l with
  | nil => rfl
  | cons a l ih =>
    rw [List.nodup_cons] at hl
    have ha := hkey a List.mem_cons_self
    refine ⟨by rw [ha]; rfl, by rw [ha]; exact hget a List.mem_cons_self, ?_⟩
    rw [hnext a List.mem_cons_self, nextOf_cons, if_pos rfl]
    refine ih hl.2 (fun k hk => hkey k (List.mem_cons_of_mem _ hk))
      (fun k hk => hget k (List.mem_cons_of_mem _ hk)) (fun k hk => ?_)
    rw [hnext k (List.mem_cons_of_mem _ hk), nextOf_cons, if_neg]
    rintro rfl
    exact hl.1 hk

/-- A linked list starts at its first key and links each record to the key after its own. -/
theorem Linked.eq_nextOf {start : Option α} {xs : List β} (h : Linked get key next start xs)
    (hnd : (xs.map key).Nodup) : start = (xs.map key).head? ∧ ∀ x ∈ xs, next x = nextOf (xs.map key) (key x) := by
  induction xs generalizing start with
  | nil => exact ⟨h, fun x hx => absurd hx List.not_mem_nil⟩
  | cons x xs ih =>
    obtain ⟨hstart, -, hrest⟩ := h
    rw [List.map_cons, List.nodup_cons] at hnd
    obtain ⟨hhead, hnext⟩ := ih hrest hnd.2
    refine ⟨hstart, fun y hy => ?_⟩
    rw [List.map_cons, nextOf_cons]
    rcases List.mem_cons.mp hy with rfl | hy
    · rw [if_pos rfl, ← hhead]
    · have hne : key x ≠ key y := fun e => hnd.1 (e ▸ List.mem_map_of_mem hy)
      rw [if_neg hne, hnext y hy]

end LinkedNeighbours

end PolkadotSdk.LinkedStore
