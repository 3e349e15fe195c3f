import PolkadotSdk.LinkedStore
import Mathlib.Data.List.Rotate

/-!
# Rings of distinct keys

A ring is a list of distinct keys read round from its first one: after the last key comes the
first again. `ringNext l k` and `ringPrev l k` are the neighbours of `k` round `l`, and nothing
for a key off the ring. Turning a ring keeps every neighbour (`ringNext_rotate`); adding a key
after the last one (`ringNext_append_singleton`) and taking one out (`ringNext_erase`) change
the neighbours of the keys beside it only.
-/

namespace PolkadotSdk.LinkedStore

variable {γ : Type} [DecidableEq γ]

/-- The key after `k` round the ring `l`: after the last comes the first. -/
def ringNext (l : List γ) (k : γ) : Option γ := nextOf (l ++ l.take 1) k

/-- The key before `k` round the ring `l`. -/
def ringPrev (l : List γ) (k : γ) : Option γ := ringNext l.reverse k

theorem mem_of_nextOf {l : List γ} {k n : γ} (h : nextOf l k = some n) : n ∈ l := by
  induction l with
  | nil => simp at h
  | cons a l ih =>
    rw [nextOf_cons] at h
    split_ifs at h
    · exact List.mem_cons_of_mem a (List.mem_of_head? h)
    · exact List.mem_cons_of_mem a (ih h)

theorem mem_of_ringNext {l : List γ} {k n : γ} (h : ringNext l k = some n) : n ∈ l :=
  (List.mem_append.mp (mem_of_nextOf h)).elim id List.mem_of_mem_take

theorem mem_of_ringPrev {l : List γ} {k n : γ} (h : ringPrev l k = some n) : n ∈ l :=
  List.mem_reverse.mp (mem_of_ringNext h)

/-- Off the last key, the neighbour round the ring is the neighbour along the list. -/
theorem ringNext_of_getLast_ne {l : List γ} (hl : l.Nodup) {k : γ} (hk : l.getLast? ≠ some k) :
    ringNext l k = nextOf l k := by
  rw [ringNext, nextOf_append hl, if_neg hk]
  split_ifs with hmem
  · rfl
  · rw [nextOf_of_not_mem hmem, nextOf_of_not_mem fun h => hmem (List.mem_of_mem_take h)]

/-- The key after the first: the second, or the first itself in a ring of one. -/
theorem ringNext_cons_self (k : γ) (R : List γ) : ringNext (k :: R) k = (R ++ [k]).head? := by
  rw [ringNext, List.take_succ_cons, List.take_zero, List.cons_append, nextOf_cons, if_pos rfl]

/-- The key after any other key of a ring read from `k`: `k` after the last. -/
theorem ringNext_cons_of_ne {R : List γ} (hR : R.Nodup) (k : γ) {j : γ} (hj : j ≠ k) :
    ringNext (k :: R) j = if R.getLast? = some j then some k else nextOf R j := by
  rw [ringNext, List.take_succ_cons, List.take_zero, List.cons_append, nextOf_cons, if_neg (Ne.symm hj),
    nextOf_append hR]
  split_ifs with hlast hmem
  · rfl
  · rfl
  · rw [nextOf_of_not_mem hmem]
    rfl

/-- Reading a ring from another of its keys keeps every neighbour. -/
theorem ringNext_append_comm {A B : List γ} (h : (A ++ B).Nodup) (k : γ) :
    ringNext (A ++ B) k = ringNext (B ++ A) k := by
  cases A with
  | nil => simp
  | cons a A =>
    cases B with
    | nil => simp
    | cons b B =>
      obtain ⟨hA, hB, hAB⟩ := List.nodup_append.mp h
      have e₁ : ringNext (a :: A ++ b :: B) k = nextOf ((a :: A) ++ ((b :: B) ++ [a])) k := by
        rw [ringNext, List.append_assoc]
        rfl
      have e₂ : ringNext (b :: B ++ a :: A) k = nextOf ((b :: B) ++ ((a :: A) ++ [b])) k := by
        rw [ringNext, List.append_assoc]
        rfl
      rw [e₁, e₂, nextOf_append hA, nextOf_append hB, nextOf_append hB, nextOf_append hA]
      -- `k` lies in at most one of the two arcs, and ends at most one of them
      by_cases hkA : k ∈ a :: A
      · have hkB : k ∉ b :: B := fun hk => hAB k hkA k hk rfl
        have hlastB : (b :: B).getLast? ≠ some k := fun hl => hkB (List.mem_of_getLast? hl)
        simp [hkA, hkB, hlastB]
      · have hlastA : (a :: A).getLast? ≠ some k := fun hl => hkA (List.mem_of_getLast? hl)
        simp only [hkA, hlastA, if_false]
        split_ifs <;> rfl

/-- Turning a ring keeps every neighbour. -/
theorem ringNext_rotate {l : List γ} (hl : l.Nodup) (n : ℕ) (k : γ) : ringNext (l.rotate n) k = ringNext l k := by
  have hnd : (l.take (n % l.length) ++ l.drop (n % l.length)).Nodup := by rwa [List.take_append_drop]
  rw [List.rotate_eq_drop_append_take_mod, ← ringNext_append_comm hnd, List.take_append_drop]

theorem ringPrev_append_comm {A B : List γ} (h : (A ++ B).Nodup) (k : γ) :
    ringPrev (A ++ B) k = ringPrev (B ++ A) k := by
  have hrev : (B.reverse ++ A.reverse).Nodup := by
    rw [← List.reverse_append]
    exact List.nodup_reverse.mpr h
  rw [ringPrev, ringPrev, List.reverse_append, List.reverse_append, ringNext_append_comm hrev]

theorem ringPrev_rotate {l : List γ} (hl : l.Nodup) (n : ℕ) (k : γ) : ringPrev (l.rotate n) k = ringPrev l k := by
  have hnd : (l.take (n % l.length) ++ l.drop (n % l.length)).Nodup := by rwa [List.take_append_drop]
  rw [List.rotate_eq_drop_append_take_mod, ← ringPrev_append_comm hnd, List.take_append_drop]

/-- The last key is followed by the first. -/
theorem ringNext_of_getLast {l : List γ} (hl : l.Nodup) {k : γ} (hk : l.getLast? = some k) : ringNext l k = l.head? := by
  rw [ringNext, nextOf_append_of_getLast hl _ hk, List.head?_take, if_neg Nat.one_ne_zero]

/-- The first key is preceded by the last. -/
theorem ringPrev_of_head {l : List γ} (hl : l.Nodup) {k : γ} (hk : l.head? = some k) : ringPrev l k = l.getLast? := by
  rw [ringPrev, ringNext_of_getLast (List.nodup_reverse.mpr hl) (by rwa [List.getLast?_reverse]), List.head?_reverse]

/-- Exactly the keys of the ring have a neighbour round it. -/
theorem ringNext_eq_none_iff {l : List γ} (hl : l.Nodup) {k : γ} : ringNext l k = none ↔ k ∉ l := by
  constructor
  · intro h hk
    obtain ⟨P, Q, rfl⟩ := List.append_of_mem hk
    rw [ringNext_append_comm hl, List.cons_append, ringNext_cons_self] at h
    simp at h
  · intro hk
    exact nextOf_of_not_mem fun h => hk ((List.mem_append.mp h).elim id List.mem_of_mem_take)

theorem ringPrev_eq_none_iff {l : List γ} (hl : l.Nodup) {k : γ} : ringPrev l k = none ↔ k ∉ l := by
  rw [ringPrev, ringNext_eq_none_iff (List.nodup_reverse.mpr hl), List.mem_reverse]

/-- A key is its own successor only in a ring of one. -/
theorem ringNext_eq_self_iff {l : List γ} (hl : l.Nodup) {k : γ} (hk : k ∈ l) : ringNext l k = some k ↔ l = [k] := by
  obtain ⟨P, Q, rfl⟩ := List.append_of_mem hk
  have hkQP : k ∉ Q ++ P := by
    have hnd := List.nodup_append_comm.mp hl
    rw [List.cons_append, List.nodup_cons] at hnd
    exact hnd.1
  rw [ringNext_append_comm hl, List.cons_append, ringNext_cons_self]
  constructor
  · intro h
    cases hR : Q ++ P with
    | nil =>
      obtain ⟨rfl, rfl⟩ := List.append_eq_nil_iff.mp hR
      rfl
    | cons r R =>
      rw [hR, List.cons_append, List.head?_cons, Option.some.injEq] at h
      exact absurd (h ▸ hR ▸ List.mem_cons_self) hkQP
  · intro h
    obtain ⟨rfl, rfl⟩ : P = [] ∧ Q = [] := by
      cases P with
      | nil => exact ⟨rfl, (List.cons_eq_cons.mp h).2⟩
      | cons p P => simp at h
    rfl

/-- Adding `o` after the last key of a ring: `o` comes between the last and the first, and
only their neighbours change. -/
theorem ringNext_append_singleton {l : List γ} {o : γ} (h : (l ++ [o]).Nodup) (k : γ) :
    ringNext (l ++ [o]) k = if k = o then (l ++ [o]).head? else if l.getLast? = some k then some o else ringNext l k := by
  have hl : l.Nodup := (List.nodup_append.mp h).1
  rw [ringNext_append_comm h, List.singleton_append]
  split_ifs with hko hlast
  · rw [hko, ringNext_cons_self]
  · rw [ringNext_cons_of_ne hl o hko, if_pos hlast]
  · rw [ringNext_cons_of_ne hl o hko, if_neg hlast, ringNext_of_getLast_ne hl hlast]

theorem ringPrev_append_singleton {l : List γ} {o : γ} (h : (l ++ [o]).Nodup) (k : γ) :
    ringPrev (l ++ [o]) k = if k = o then (o :: l).getLast? else if l.head? = some k then some o else ringPrev l k := by
  have hr : l.reverse.Nodup := List.nodup_reverse.mpr (List.nodup_append.mp h).1
  rw [ringPrev, List.reverse_append, List.reverse_singleton, List.singleton_append]
  split_ifs with hko hhead
  · rw [hko, ringNext_cons_self, ← List.reverse_cons, List.head?_reverse]
  · rw [ringNext_cons_of_ne hr o hko, List.getLast?_reverse, if_pos hhead]
  · have hlast : l.reverse.getLast? ≠ some k := by rwa [List.getLast?_reverse]
    rw [ringNext_cons_of_ne hr o hko, if_neg hlast, ringPrev, ringNext_of_getLast_ne hr hlast]

/-- `k` precedes `j` round a ring exactly when `j` follows `k`. -/
theorem ringPrev_eq_some_iff {l : List γ} (hl : l.Nodup) {j k : γ} : ringPrev l j = some k ↔ ringNext l k = some j := by
  by_cases hk : k ∈ l
  · obtain ⟨P, Q, rfl⟩ := List.append_of_mem hk
    have hnd : (k :: (Q ++ P)).Nodup := by
      rw [← List.cons_append]
      exact List.nodup_append_comm.mp hl
    rw [ringPrev_append_comm hl, ringNext_append_comm hl, List.cons_append, ringNext_cons_self, ringPrev,
      List.reverse_cons, ringNext_append_singleton (by rw [← List.reverse_cons]; exact List.nodup_reverse.mpr hnd),
      List.getLast?_reverse]
    generalize Q ++ P = R at hnd ⊢
    have hkR := (List.nodup_cons.mp hnd).1
    -- read the ring from `k`: `j` follows `k` when it is the first of the rest, or `k` itself alone
    cases R with
    | nil => by_cases hjk : j = k <;> simp [hjk, ringNext, eq_comm]
    | cons r R =>
      have hrk : r ≠ k := fun h => hkR (h ▸ List.mem_cons_self)
      have hrhs : (r :: R ++ [k]).head? = some j ↔ r = j := by simp
      rw [hrhs]
      by_cases hjk : j = k
      · subst hjk
        rw [if_pos rfl, List.head?_append_of_ne_nil _ (by simp), List.head?_reverse]
        exact ⟨fun h => absurd (List.mem_of_getLast? h) hkR, fun h => absurd h hrk⟩
      · rw [if_neg hjk]
        by_cases hrj : r = j
        · simp [hrj]
        · rw [if_neg (by simpa using hrj)]
          exact ⟨fun h => absurd (List.mem_reverse.mp (mem_of_ringNext h)) hkR, fun h => absurd h hrj⟩
  · constructor
    · intro h
      exact absurd (mem_of_ringPrev h) hk
    · intro h
      rw [(ringNext_eq_none_iff hl).mpr hk] at h
      cases h

/-- Taking `k` out of a ring: the key before it is followed by the key after it. -/
theorem ringNext_erase {l : List γ} (hl : l.Nodup) {j k : γ} (hj : j ≠ k) :
    ringNext (l.erase k) j = if ringNext l j = some k then ringNext l k else ringNext l j := by
  by_cases hk : k ∈ l
  · obtain ⟨P, Q, rfl⟩ := List.append_of_mem hk
    have hkP : k ∉ P := fun h => (List.nodup_append.mp hl).2.2 k h k List.mem_cons_self rfl
    have hnd : (k :: (Q ++ P)).Nodup := by
      rw [← List.cons_append]
      exact List.nodup_append_comm.mp hl
    have hR := (List.nodup_cons.mp hnd).2
    have herase : (P ++ k :: Q).erase k = P ++ Q := by rw [List.erase_append_right _ hkP, List.erase_cons_head]
    rw [herase, ringNext_append_comm (List.nodup_append_comm.mp hR), ringNext_append_comm hl j, ringNext_append_comm hl k,
      List.cons_append,
      ringNext_cons_self, ringNext_cons_of_ne hR k hj]
    by_cases hlast : (Q ++ P).getLast? = some j
    · -- `j` is the key before `k`: its new successor is the one after `k`
      have hne : Q ++ P ≠ [] := fun h => by simp [h] at hlast
      rw [if_pos hlast, if_pos rfl, ringNext, nextOf_append_of_getLast hR _ hlast, List.head?_take,
        if_neg Nat.one_ne_zero, List.head?_append_of_ne_nil _ hne]
    · rw [if_neg hlast, if_neg fun h => (List.nodup_cons.mp hnd).1 (mem_of_nextOf h),
        ringNext_of_getLast_ne hR hlast]
  · rw [List.erase_of_not_mem hk, if_neg fun h => hk (mem_of_ringNext h)]

theorem ringPrev_erase {l : List γ} (hl : l.Nodup) {j k : γ} (hj : j ≠ k) :
    ringPrev (l.erase k) j = if ringPrev l j = some k then ringPrev l k else ringPrev l j := by
  have hrev : (l.erase k).reverse = l.reverse.erase k := by
    rw [hl.erase_eq_filter, (List.nodup_reverse.mpr hl).erase_eq_filter, List.filter_reverse]
  rw [ringPrev, ringPrev, ringPrev, hrev]
  exact ringNext_erase (List.nodup_reverse.mpr hl) hj

/-- Taking out the first key of a ring of more than one makes its successor the first. -/
theorem head?_erase_of_head? {l : List γ} {k : γ} (hk : l.head? = some k) (hne : l ≠ [k]) :
    (l.erase k).head? = ringNext l k := by
  obtain ⟨R, rfl⟩ : ∃ R, l = k :: R := by
    cases l with
    | nil => simp at hk
    | cons a R =>
      rw [List.head?_cons, Option.some.injEq] at hk
      exact ⟨R, by rw [hk]⟩
  have hR : R ≠ [] := fun h => hne (by rw [h])
  rw [List.erase_cons_head, ringNext_cons_self, List.head?_append_of_ne_nil _ hR]

theorem head?_erase_of_head?_ne {l : List γ} {k : γ} (hk : l.head? ≠ some k) : (l.erase k).head? = l.head? := by
  cases l with
  | nil => rfl
  | cons a R =>
    have hak : a ≠ k := fun h => hk (by rw [h]; rfl)
    rw [List.erase_cons_tail (by simpa using hak)]
    rfl

end PolkadotSdk.LinkedStore
