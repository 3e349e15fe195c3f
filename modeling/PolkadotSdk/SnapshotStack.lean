import Mathlib

/-!
# Stacks of snapshots

A store with nested transactions, seen from outside: the current view and, for each open
transaction, the view when it started, the innermost first. Starting a transaction saves the
view; rolling it back restores the saved view; committing drops the saved view and keeps the
current one. Closing is refused unless more than `floor` transactions are open, so the
`floor` outermost transactions are protected from whoever runs the operations.

Two facts carry everything built on this: a well-nested run (`Nested`: every transaction it
opens, it closes) gives back the saved views it found (`Nested.run_saved`), and no run ever
changes the protected views (`run_outermost`).
-/

namespace PolkadotSdk.SnapshotStack

variable {σ : Type}

/-- The current view and the views saved by the open transactions, the innermost first. -/
structure Stack (σ : Type) where
  view : σ
  saved : List σ

namespace Stack

/-- The number of open transactions. -/
def depth (a : Stack σ) : ℕ := a.saved.length

/-- A write changes the current view only. -/
def update (f : σ → σ) (a : Stack σ) : Stack σ := ⟨f a.view, a.saved⟩

/-- Start a transaction: save the current view. -/
def start (a : Stack σ) : Stack σ := ⟨a.view, a.view :: a.saved⟩

/-- Close the innermost transaction, unless only protected ones are open. A rollback
restores the view it saved; a commit keeps the current view. -/
def close (floor : ℕ) (rollback : Bool) (a : Stack σ) : Option (Stack σ) :=
  if floor < a.depth then
    match a.saved with
    | [] => none
    | s :: rest => some ⟨if rollback then s else a.view, rest⟩
  else none

/-- The `floor` outermost saved views, which no close may reach. -/
def outermost (floor : ℕ) (a : Stack σ) : List σ := a.saved.drop (a.depth - floor)

@[simp] theorem depth_update (f : σ → σ) (a : Stack σ) : (a.update f).depth = a.depth := rfl
@[simp] theorem saved_update (f : σ → σ) (a : Stack σ) : (a.update f).saved = a.saved := rfl
@[simp] theorem view_update (f : σ → σ) (a : Stack σ) : (a.update f).view = f a.view := rfl
@[simp] theorem depth_start (a : Stack σ) : a.start.depth = a.depth + 1 := rfl
@[simp] theorem saved_start (a : Stack σ) : a.start.saved = a.view :: a.saved := rfl
@[simp] theorem view_start (a : Stack σ) : a.start.view = a.view := rfl

theorem close_cons {floor : ℕ} (rollback : Bool) {a : Stack σ} {s : σ} {rest : List σ}
    (hs : a.saved = s :: rest) (hf : floor < a.depth) :
    a.close floor rollback = some ⟨if rollback then s else a.view, rest⟩ := by
  rw [close, if_pos hf]
  split <;> simp_all

theorem close_eq_none {floor : ℕ} {rollback : Bool} {a : Stack σ} (hf : a.depth ≤ floor) :
    a.close floor rollback = none := by
  rw [close, if_neg (Nat.not_lt.mpr hf)]

/-- A close is refused exactly when only protected transactions are open. -/
theorem close_eq_none_iff {floor : ℕ} {rollback : Bool} {a : Stack σ} :
    a.close floor rollback = none ↔ a.depth ≤ floor := by
  refine ⟨fun h => ?_, close_eq_none⟩
  by_contra hf
  have hpos : 0 < a.saved.length := by simp only [depth] at hf; omega
  obtain ⟨s, rest, hs⟩ := List.exists_cons_of_ne_nil (List.ne_nil_of_length_pos hpos)
  rw [close_cons rollback hs (Nat.lt_of_not_le hf)] at h
  cases h

/-- What a close can do: pop the innermost saved view, with more than `floor` open. -/
theorem close_eq_some {floor : ℕ} {rollback : Bool} {a b : Stack σ}
    (h : a.close floor rollback = some b) :
    floor < a.depth ∧ ∃ s, a.saved = s :: b.saved ∧ b.view = if rollback then s else a.view := by
  unfold close at h
  by_cases hf : floor < a.depth
  · rw [if_pos hf] at h
    split at h
    · cases h
    · next s rest hs =>
      cases h
      exact ⟨hf, s, hs, rfl⟩
  · rw [if_neg hf] at h
    cases h

end Stack

open Stack

/-- The operations on a stack of snapshots. -/
inductive Op (σ : Type) where
  | update (f : σ → σ)
  | start
  | close (rollback : Bool)

/-- One operation; a refused close leaves the stack as it is. -/
def Op.apply (floor : ℕ) (a : Stack σ) : Op σ → Stack σ
  | .update f => a.update f
  | .start => a.start
  | .close rollback => (a.close floor rollback).getD a

/-- A run of operations. -/
def run (floor : ℕ) (a : Stack σ) (ops : List (Op σ)) : Stack σ :=
  ops.foldl (Op.apply floor) a

@[simp] theorem run_nil (floor : ℕ) (a : Stack σ) : run floor a [] = a := rfl

@[simp] theorem run_cons (floor : ℕ) (a : Stack σ) (o : Op σ) (ops : List (Op σ)) :
    run floor a (o :: ops) = run floor (o.apply floor a) ops := rfl

theorem run_append (floor : ℕ) (a : Stack σ) (ops ops' : List (Op σ)) :
    run floor a (ops ++ ops') = run floor (run floor a ops) ops' := by
  simp [run, List.foldl_append]

/-- Runs whose transactions are all closed: every transaction they open, they close. -/
inductive Nested : List (Op σ) → Prop
  | nil : Nested []
  | update (f : σ → σ) {ops : List (Op σ)} : Nested ops → Nested (.update f :: ops)
  | block {body ops : List (Op σ)} (rollback : Bool) :
      Nested body → Nested ops → Nested (.start :: (body ++ .close rollback :: ops))

/-- A well-nested run, with the stack at or above the floor, gives back the saved views it
found. -/
theorem Nested.run_saved {floor : ℕ} {ops : List (Op σ)} (h : Nested ops) :
    ∀ a : Stack σ, floor ≤ a.depth → (run floor a ops).saved = a.saved := by
  induction h with
  | nil => intro a _; rfl
  | update f _ ih =>
    intro a ha
    exact ih (a.update f) ha
  | @block body ops rollback _ _ ihb iho =>
    intro a ha
    -- the body runs inside the new transaction and leaves its saved view on top
    have hbody : (run floor a.start body).saved = a.view :: a.saved := ihb a.start (by simp; omega)
    have hclose := close_cons rollback hbody
      (by simp only [depth, hbody, List.length_cons]; exact Nat.lt_succ_of_le ha)
    rw [run_cons, Op.apply, run_append, run_cons, Op.apply, hclose, Option.getD_some]
    exact iho _ ha

/-- A transaction that is rolled back, whatever it did in between, leaves the stack as it was
before it started. -/
theorem run_start_rollback {floor : ℕ} {ops : List (Op σ)} (h : Nested ops) {a : Stack σ}
    (ha : floor ≤ a.depth) : run floor a (.start :: (ops ++ [.close true])) = a := by
  have hbody : (run floor a.start ops).saved = a.view :: a.saved := h.run_saved a.start (by simp; omega)
  have hclose := close_cons true hbody
    (by simp only [depth, hbody, List.length_cons]; exact Nat.lt_succ_of_le ha)
  rw [run_cons, Op.apply, run_append, run_cons, Op.apply, hclose, Option.getD_some, run_nil]
  rfl

/-- A transaction that is committed keeps the view it ended with and the saved views of
before it started. -/
theorem run_start_commit {floor : ℕ} {ops : List (Op σ)} (h : Nested ops) {a : Stack σ}
    (ha : floor ≤ a.depth) :
    run floor a (.start :: (ops ++ [.close false])) = ⟨(run floor a.start ops).view, a.saved⟩ := by
  have hbody : (run floor a.start ops).saved = a.view :: a.saved := h.run_saved a.start (by simp; omega)
  have hclose := close_cons false hbody
    (by simp only [depth, hbody, List.length_cons]; exact Nat.lt_succ_of_le ha)
  rw [run_cons, Op.apply, run_append, run_cons, Op.apply, hclose, Option.getD_some, run_nil]
  rfl

/-- One operation keeps the stack at or above the floor and its protected views. -/
theorem Op.apply_outermost (floor : ℕ) (a : Stack σ) (ha : floor ≤ a.depth) (o : Op σ) :
    floor ≤ (o.apply floor a).depth ∧ (o.apply floor a).outermost floor = a.outermost floor := by
  cases o with
  | update f => exact ⟨ha, rfl⟩
  | start =>
    simp only [Op.apply, outermost, depth_start, saved_start]
    refine ⟨by omega, ?_⟩
    rw [show a.depth + 1 - floor = (a.depth - floor) + 1 by omega, List.drop_succ_cons]
  | close rollback =>
    simp only [Op.apply]
    cases hc : a.close floor rollback with
    | none => exact ⟨ha, rfl⟩
    | some b =>
      obtain ⟨hf, s, hs, -⟩ := close_eq_some hc
      have hd : a.depth = b.depth + 1 := by simp [depth, hs]
      refine ⟨by simp; omega, ?_⟩
      simp only [Option.getD_some, outermost, hd, hs]
      rw [show b.depth + 1 - floor = (b.depth - floor) + 1 by omega, List.drop_succ_cons]

/-- No run reaches below the floor: the protected views stay as they were. -/
theorem run_outermost (floor : ℕ) (ops : List (Op σ)) :
    ∀ a : Stack σ, floor ≤ a.depth →
      floor ≤ (run floor a ops).depth ∧ (run floor a ops).outermost floor = a.outermost floor := by
  induction ops with
  | nil => intro a ha; exact ⟨ha, rfl⟩
  | cons o ops ih =>
    intro a ha
    obtain ⟨h1, h2⟩ := o.apply_outermost floor a ha
    obtain ⟨h3, h4⟩ := ih _ h1
    exact ⟨h3, h4.trans h2⟩

/-- With no floor, `n` rollbacks drop the `n` innermost saved views. -/
theorem run_replicate_rollback {n : ℕ} :
    ∀ {a : Stack σ}, n ≤ a.depth → (run 0 a (List.replicate n (.close true))).saved = a.saved.drop n := by
  induction n with
  | zero => intro a _; rfl
  | succ n ih =>
    intro a hn
    have hpos : 0 < a.saved.length := by simp only [depth] at hn; omega
    obtain ⟨s, rest, hs⟩ := List.exists_cons_of_ne_nil (List.ne_nil_of_length_pos hpos)
    have hclose : a.close 0 true = some ⟨s, rest⟩ := by
      simpa using close_cons true hs (Nat.lt_of_lt_of_le (Nat.succ_pos n) hn)
    have hdepth : n ≤ (⟨s, rest⟩ : Stack σ).depth := by
      simp only [depth] at hn ⊢
      rw [hs] at hn
      simpa using hn
    rw [List.replicate_succ, run_cons, Op.apply, hclose, Option.getD_some, ih hdepth, hs]
    rfl

end PolkadotSdk.SnapshotStack
