import PolkadotSdk.OverlayVersions
import PolkadotSdk.SnapshotStack

/-!
# The change set refines a stack of snapshots

What the users of `OverlayedChangeSet` rely on, as an abstract machine (`Spec`): the overlay
shows a view of the storage, each transaction saves the view when it starts, a rollback restores
it and a commit keeps the current view, and in runtime mode the transactions the client opened
cannot be closed. `Refines` relates a change set to that machine key by key, through the versions
the key holds and the dirty sets of the open transactions (`Tracks`), and every operation keeps
it (`Refines.apply`). So every run of the change set reads what the machine shows, and the
machine's laws (`SnapshotStack`) hold of the change set itself.

`clear_where` is taken with a predicate on keys, as its callers use it.
-/

namespace PolkadotSdk.Overlay

variable {K : Type} [DecidableEq K]

/-- What the overlay shows of each key: nothing when it holds no version of it, else the
newest version's reading. -/
abbrev View (K : Type) := K → Option (Option StorageValue)

/-- The overlay as its users see it. -/
structure Spec (K : Type) where
  stack : SnapshotStack.Stack (View K)
  numClientTransactions : ℕ
  executionMode : ExecutionMode

namespace Spec

/-- How many transactions the caller may not close: in runtime mode, the client's. -/
def floor (a : Spec K) : ℕ :=
  if a.executionMode = .runtime then a.numClientTransactions else 0

def empty : Spec K := ⟨⟨fun _ => none, []⟩, 0, .client⟩

def setView (key : K) (value : Option StorageValue) (view : View K) : View K :=
  Function.update view key (some value)

def appendView (key : K) (element init : StorageValue) (view : View K) : View K :=
  Function.update view key (some (some (appendValue ((view key).getD (some init)) element)))

def clearView (predicate : K → Bool) (view : View K) : View K :=
  fun k => if predicate k = true ∧ (view k).isSome = true then some none else view k

/-- Entering the runtime hands the open transactions to the client. -/
def enterRuntime (a : Spec K) : Option (Spec K) :=
  match a.executionMode with
  | .runtime => none
  | .client => some ⟨a.stack, a.stack.depth, .runtime⟩

/-- Leaving the runtime rolls back the transactions the runtime left open. -/
def exitRuntime (a : Spec K) : Option (Spec K) :=
  match a.executionMode with
  | .client => none
  | .runtime =>
    some ⟨SnapshotStack.run 0 a.stack (List.replicate (a.stack.depth - a.numClientTransactions) (.close true)),
      a.numClientTransactions, .client⟩

end Spec

/-- The operations of a change set that run inside transactions. -/
inductive TxOp (K : Type) where
  | set (key : K) (value : Option StorageValue)
  | appendStorage (key : K) (value init : StorageValue)
  | storage (key : K)
  | clearWhere (predicate : K → Bool)
  | startTransaction
  | rollbackTransaction
  | commitTransaction

/-- The operations of a change set. -/
inductive Op (K : Type) where
  | tx (o : TxOp K)
  | enterRuntime
  | exitRuntime

/-- One operation; one that fails leaves the change set as it is. -/
def TxOp.apply (s : OverlayedChangeSet K) : TxOp K → OverlayedChangeSet K
  | .set key value => s.set key value
  | .appendStorage key value init => s.appendStorage key value init
  | .storage key => (s.storage key).2
  | .clearWhere predicate => (s.clearWhere fun k _ => predicate k).1
  | .startTransaction => s.startTransaction
  | .rollbackTransaction => s.rollbackTransaction.getD s
  | .commitTransaction => s.commitTransaction.getD s

def Op.apply (s : OverlayedChangeSet K) : Op K → OverlayedChangeSet K
  | .tx o => o.apply s
  | .enterRuntime => s.enterRuntime.getD s
  | .exitRuntime => s.exitRuntime.getD s

def run (s : OverlayedChangeSet K) (ops : List (Op K)) : OverlayedChangeSet K :=
  ops.foldl Op.apply s

/-- What an operation does to the stack of views. -/
def TxOp.toStack : TxOp K → SnapshotStack.Op (View K)
  | .set key value => .update (Spec.setView key value)
  | .appendStorage key value init => .update (Spec.appendView key value init)
  | .storage _ => .update id
  | .clearWhere predicate => .update (Spec.clearView predicate)
  | .startTransaction => .start
  | .rollbackTransaction => .close true
  | .commitTransaction => .close false

def Spec.apply (a : Spec K) : Op K → Spec K
  | .tx o => { a with stack := o.toStack.apply a.floor a.stack }
  | .enterRuntime => a.enterRuntime.getD a
  | .exitRuntime => a.exitRuntime.getD a

def Spec.run (a : Spec K) (ops : List (Op K)) : Spec K :=
  ops.foldl Spec.apply a

/-- The versions a change set holds of a key. -/
def OverlayedChangeSet.entry (s : OverlayedChangeSet K) (k : K) : OverlayedValue :=
  (s.changes.lookup k).getD []

/-- The versions of a key against the dirty sets of the open transactions, the innermost first,
and what each of them saved of the key: a transaction that wrote the key holds a version of its
own over those of the enclosing ones, one that did not still shows what it saved, and with no
transaction open a key holds at most one version. -/
inductive Tracks (k : K) : List (List K) → List (Option (Option StorageValue)) →
    Option (Option StorageValue) → List (Option StorageValue) → Prop
  | committed {vs : List (Option StorageValue)} : vs.length ≤ 1 → Tracks k [] [] vs.head? vs
  | written {D : List K} {ds : List (List K)} {saved : List (Option (Option StorageValue))}
      {s : Option (Option StorageValue)} {v : Option StorageValue} {vs : List (Option StorageValue)} :
      k ∈ D → Tracks k ds saved s vs → Tracks k (D :: ds) (s :: saved) (some v) (v :: vs)
  | untouched {D : List K} {ds : List (List K)} {saved : List (Option (Option StorageValue))}
      {s : Option (Option StorageValue)} {vs : List (Option StorageValue)} :
      k ∉ D → Tracks k ds saved s vs → Tracks k (D :: ds) (s :: saved) s vs

/-- A change set refines the abstract overlay: every key's versions hold together and track the
saved views, and both count the same transactions in the same mode. -/
structure Refines (s : OverlayedChangeSet K) (a : Spec K) : Prop where
  holds : ∀ k, Holds none (s.entry k)
  nonempty : ∀ k, s.changes.lookup k ≠ some []
  nodup : ∀ D ∈ s.dirtyKeys, D.Nodup
  depth : s.dirtyKeys.length = a.stack.depth
  tracks : ∀ k, Tracks k s.dirtyKeys (a.stack.saved.map fun view => view k) (a.stack.view k)
    (versions none (s.entry k))
  numClientTransactions : s.numClientTransactions = a.numClientTransactions
  executionMode : s.executionMode = a.executionMode

section Tracks

variable {k : K} {ds : List (List K)} {saved : List (Option (Option StorageValue))}
  {c : Option (Option StorageValue)} {vs : List (Option StorageValue)}

omit [DecidableEq K] in
/-- The view shows the newest version. -/
theorem Tracks.head (h : Tracks k ds saved c vs) : c = vs.head? := by
  induction h with
  | committed _ => rfl
  | written _ _ _ => rfl
  | untouched _ _ ih => exact ih

/-- Recording a write of another key changes nothing for this one. -/
theorem Tracks.insertDirty_of_ne (h : Tracks k ds saved c vs) {key : K} (hne : k ≠ key) :
    Tracks k (insertDirty ds key).1 saved c vs := by
  cases h with
  | committed hl => exact .committed hl
  | @written D ds _ _ _ _ hk hrest =>
    simp only [insertDirty]
    split_ifs
    · exact .written hk hrest
    · exact .written (List.mem_cons_of_mem key hk) hrest
  | @untouched D ds _ _ _ hk hrest =>
    simp only [insertDirty]
    split_ifs
    · exact .untouched hk hrest
    · exact .untouched (by simp [hk, hne]) hrest

/-- A write of the key: the first write in a transaction pushes a version, any other replaces
the newest. -/
theorem Tracks.write (h : Tracks k ds saved c vs) (v : Option StorageValue) :
    Tracks k (insertDirty ds k).1 saved (some v) (writeVersion (insertDirty ds k).2 v vs) := by
  cases h with
  | committed hl =>
    -- with no transaction open the key keeps one version
    have hw : writeVersion (insertDirty [] k).2 v vs = v :: vs.tail := by cases vs <;> rfl
    rw [hw]
    show Tracks k [] [] (v :: vs.tail).head? (v :: vs.tail)
    refine .committed ?_
    simp only [List.length_cons, List.length_tail]
    omega
  | written hk hrest =>
    simp only [insertDirty, if_pos hk, writeVersion, Bool.false_or, List.isEmpty_cons, Bool.false_eq_true,
      if_false, List.tail_cons]
    exact .written hk hrest
  | untouched hk hrest =>
    simp only [insertDirty, if_neg hk, writeVersion, Bool.true_or, if_true]
    exact .written List.mem_cons_self hrest

end Tracks

theorem length_insertDirty (ds : List (List K)) (key : K) : (insertDirty ds key).1.length = ds.length := by
  unfold insertDirty
  split
  · rfl
  · split_ifs <;> rfl

theorem nodup_insertDirty {ds : List (List K)} (h : ∀ D ∈ ds, D.Nodup) (key : K) :
    ∀ D ∈ (insertDirty ds key).1, D.Nodup := by
  unfold insertDirty
  split
  · simp
  · next top rest =>
    split_ifs with hk
    · exact h
    · intro D hD
      rcases List.mem_cons.mp hD with rfl | hD
      · exact List.nodup_cons.mpr ⟨hk, h top List.mem_cons_self⟩
      · exact h D (List.mem_cons_of_mem top hD)

theorem versions_eq_nil_iff {txs : OverlayedValue} : versions none txs = [] ↔ txs = [] := by
  cases txs with
  | nil => simp [versions]
  | cons e rest => cases e <;> simp [versions]

section Refines

variable {s : OverlayedChangeSet K} {a : Spec K}

theorem Refines.view_eq (h : Refines s a) (k : K) : a.stack.view k = (versions none (s.entry k)).head? :=
  (h.tracks k).head

/-- A read returns what the abstract overlay shows. -/
theorem Refines.storage_fst (h : Refines s a) (k : K) : (s.storage k).1 = a.stack.view k := by
  rw [h.view_eq k, OverlayedChangeSet.entry]
  unfold OverlayedChangeSet.storage
  cases hk : s.changes.lookup k with
  | none => rfl
  | some ov =>
    have hov : ov ≠ [] := fun hnil => h.nonempty k (hk ▸ hnil ▸ rfl)
    have hv := (value_versions (by simpa [OverlayedChangeSet.entry, hk] using h.holds k)).1
    rw [Option.getD_some, hv, if_neg hov]

/-- One key written: its versions written as `write` says and the write recorded in the dirty
sets, every other key left alone. -/
theorem Refines.write (h : Refines s a) (k : K) {ov : OverlayedValue} {v : Option StorageValue}
    (hov : versions none ov = writeVersion (insertDirty s.dirtyKeys k).2 v (versions none (s.entry k)))
    (hholds : Holds none ov) :
    Refines { s with dirtyKeys := (insertDirty s.dirtyKeys k).1, changes := s.changes.insert k ov }
      { a with stack := a.stack.update (Spec.setView k v) } where
  holds k' := by
    by_cases hk : k' = k
    · subst hk
      simpa [OverlayedChangeSet.entry, AList.lookup_insert] using hholds
    · simpa [OverlayedChangeSet.entry, AList.lookup_insert_ne hk] using h.holds k'
  nonempty k' := by
    by_cases hk : k' = k
    · subst hk
      rw [AList.lookup_insert]
      intro hnil
      have : versions none ov = [] := by rw [Option.some.inj hnil]; rfl
      rw [hov, writeVersion] at this
      split_ifs at this
    · rw [AList.lookup_insert_ne hk]
      exact h.nonempty k'
  nodup := nodup_insertDirty h.nodup k
  depth := by rw [length_insertDirty, h.depth]; rfl
  tracks k' := by
    by_cases hk : k' = k
    · subst hk
      simpa [OverlayedChangeSet.entry, AList.lookup_insert, Spec.setView, hov] using (h.tracks k').write v
    · simpa [OverlayedChangeSet.entry, AList.lookup_insert_ne hk, Spec.setView, Function.update_of_ne hk]
        using (h.tracks k').insertDirty_of_ne hk
  numClientTransactions := h.numClientTransactions
  executionMode := h.executionMode

theorem Refines.set (h : Refines s a) (k : K) (v : Option StorageValue) :
    Refines (s.set k v) { a with stack := a.stack.update (Spec.setView k v) } :=
  let hv := set_versions (h.holds k) v (insertDirty s.dirtyKeys k).2
  h.write k hv.1 hv.2

theorem Refines.appendStorage (h : Refines s a) (k : K) (element init : StorageValue) :
    Refines (s.appendStorage k element init) { a with stack := a.stack.update (Spec.appendView k element init) } := by
  have hv := append_versions (h.holds k) element init (insertDirty s.dirtyKeys k).2
  -- the element is appended to what the overlay shows, or to the stored value
  have hstack : a.stack.update (Spec.appendView k element init) =
      a.stack.update (Spec.setView k (some (appendValue (((versions none (s.entry k)).head?).getD (some init))
        element))) := by
    simp only [SnapshotStack.Stack.update, Spec.appendView, Spec.setView, h.view_eq k]
  rw [hstack]
  exact h.write k hv.1 hv.2

/-- A read materializes the newest version and changes nothing the overlay shows. -/
theorem Refines.storage (h : Refines s a) (k : K) : Refines (s.storage k).2 a := by
  unfold OverlayedChangeSet.storage
  cases hk : s.changes.lookup k with
  | none => exact h
  | some ov =>
    have hholds : Holds none ov := by simpa [OverlayedChangeSet.entry, hk] using h.holds k
    have hov : ov ≠ [] := fun hnil => h.nonempty k (hk ▸ hnil ▸ rfl)
    obtain ⟨-, hv, hh⟩ := value_versions hholds
    have hne : ov.value.2 ≠ [] := by
      cases ov with
      | nil => exact absurd rfl hov
      | cons e rest => simp [OverlayedValue.value]
    refine ⟨fun k' => ?_, fun k' => ?_, h.nodup, h.depth, fun k' => ?_, h.numClientTransactions, h.executionMode⟩
    all_goals by_cases hk' : k' = k
    · subst hk'; simpa [OverlayedChangeSet.entry, AList.lookup_insert] using hh
    · simpa [OverlayedChangeSet.entry, AList.lookup_insert_ne hk'] using h.holds k'
    · subst hk'; simpa [AList.lookup_insert] using hne
    · simpa [AList.lookup_insert_ne hk'] using h.nonempty k'
    · subst hk'
      have ht := h.tracks k'
      simp only [OverlayedChangeSet.entry, hk, Option.getD_some] at ht
      simpa [OverlayedChangeSet.entry, AList.lookup_insert, hv] using ht
    · simpa [OverlayedChangeSet.entry, AList.lookup_insert_ne hk'] using h.tracks k'

/-- Starting a transaction saves the view. -/
theorem Refines.startTransaction (h : Refines s a) :
    Refines s.startTransaction { a with stack := a.stack.start } where
  holds := h.holds
  nonempty := h.nonempty
  nodup D hD := by
    rcases List.mem_cons.mp hD with rfl | hD
    · exact List.nodup_nil
    · exact h.nodup D hD
  depth := by simp [OverlayedChangeSet.startTransaction, h.depth]
  tracks k := .untouched List.not_mem_nil (h.tracks k)
  numClientTransactions := h.numClientTransactions
  executionMode := h.executionMode

end Refines

section Close

/-- What closing the innermost transaction makes of a key it wrote: a rollback drops the newest
version; a commit merges it into the enclosing transaction's version when that transaction
wrote the key, or into the committed version when there is one. -/
def closedEntry (rollback : Bool) (enclosing : List (List K)) (key : K) (ov : OverlayedValue) :
    OverlayedValue :=
  if rollback then ov.rollback
  else match enclosing with
    | top :: _ => if key ∈ top then ov.commit else ov
    | [] => if 1 < ov.length then ov.commit else ov

@[simp] theorem closedEntry_true (enclosing : List (List K)) (key : K) (ov : OverlayedValue) :
    closedEntry true enclosing key ov = ov.rollback := rfl

@[simp] theorem closedEntry_false_cons (top : List K) (rest : List (List K)) (key : K) (ov : OverlayedValue) :
    closedEntry false (top :: rest) key ov = if key ∈ top then ov.commit else ov := rfl

@[simp] theorem closedEntry_false_nil (key : K) (ov : OverlayedValue) :
    closedEntry false [] key ov = if 1 < ov.length then ov.commit else ov := rfl

theorem length_versions (taken : Option Taken) (txs : OverlayedValue) : (versions taken txs).length = txs.length := by
  induction txs generalizing taken with
  | nil => rfl
  | cons e rest ih => cases e <;> simp [versions, ih]

theorem lookup_eq_some_entry {t : OverlayedChangeSet K} {key : K} (hkey : t.entry key ≠ []) :
    t.changes.lookup key = some (t.entry key) := by
  unfold OverlayedChangeSet.entry at hkey ⊢
  cases h : t.changes.lookup key <;> simp_all

theorem closeKey_true (t : OverlayedChangeSet K) (key : K) :
    t.closeKey true key =
      if (t.entry key).rollback.isEmpty then { t with changes := t.changes.erase key }
      else { t with changes := t.changes.insert key (t.entry key).rollback } := rfl

theorem closeKey_false_cons {t : OverlayedChangeSet K} {top : List K} {rest : List (List K)}
    (hd : t.dirtyKeys = top :: rest) (key : K) :
    t.closeKey false key =
      if key ∈ top then { t with changes := t.changes.insert key (t.entry key).commit }
      else { t with dirtyKeys := (key :: top) :: rest } := by
  simp only [OverlayedChangeSet.closeKey, Bool.false_eq_true, if_false, hd]
  rfl

theorem closeKey_false_nil {t : OverlayedChangeSet K} (hd : t.dirtyKeys = []) (key : K) :
    t.closeKey false key =
      if 1 < (t.entry key).length then { t with changes := t.changes.insert key (t.entry key).commit }
      else t := by
  simp only [OverlayedChangeSet.closeKey, Bool.false_eq_true, if_false, hd]
  rfl

/-- What closing does to the dirty sets, and that it keeps the count and the mode: a commit
records the key in the enclosing transaction's dirty set. -/
theorem closeKey_fields (rollback : Bool) (t : OverlayedChangeSet K) (key : K) :
    (t.closeKey rollback key).dirtyKeys = (if rollback then t.dirtyKeys else (insertDirty t.dirtyKeys key).1) ∧
      (t.closeKey rollback key).numClientTransactions = t.numClientTransactions ∧
      (t.closeKey rollback key).executionMode = t.executionMode := by
  cases rollback
  · rw [if_neg Bool.false_ne_true]
    cases hd : t.dirtyKeys with
    | nil =>
      rw [closeKey_false_nil hd]
      split_ifs <;> simp [hd, insertDirty]
    | cons top rest =>
      rw [closeKey_false_cons hd]
      split_ifs with hk <;> simp [hd, insertDirty, hk]
  · rw [if_pos rfl, closeKey_true]
    split_ifs <;> simp

/-- Closing touches only the key closed. -/
theorem closeKey_entry (rollback : Bool) (t : OverlayedChangeSet K) {key : K} (hkey : t.entry key ≠ [])
    (k : K) : (t.closeKey rollback key).entry k =
      if k = key then closedEntry rollback t.dirtyKeys key (t.entry key) else t.entry k := by
  have hlook := lookup_eq_some_entry hkey
  by_cases hk : k = key
  · subst hk
    rw [if_pos rfl]
    cases rollback
    · cases hd : t.dirtyKeys with
      | nil =>
        rw [closeKey_false_nil hd, closedEntry_false_nil]
        split_ifs <;> simp [OverlayedChangeSet.entry, AList.lookup_insert]
      | cons top rest =>
        rw [closeKey_false_cons hd, closedEntry_false_cons]
        split_ifs <;> simp [OverlayedChangeSet.entry, AList.lookup_insert]
    · rw [closeKey_true, closedEntry_true]
      split_ifs with he
      · -- nothing is left of the key, which leaves the overlay
        show ((t.changes.erase k).lookup k).getD [] = _
        rw [AList.lookup_erase]
        exact (List.isEmpty_iff.mp he).symm
      · simp [OverlayedChangeSet.entry, AList.lookup_insert]
  · rw [if_neg hk]
    cases rollback
    · cases hd : t.dirtyKeys with
      | nil =>
        rw [closeKey_false_nil hd]
        split_ifs <;> simp [OverlayedChangeSet.entry, AList.lookup_insert_ne hk]
      | cons top rest =>
        rw [closeKey_false_cons hd]
        split_ifs <;> simp [OverlayedChangeSet.entry, AList.lookup_insert_ne hk]
    · rw [closeKey_true]
      split_ifs <;> simp [OverlayedChangeSet.entry, AList.lookup_erase_ne hk, AList.lookup_insert_ne hk]

theorem commit_ne_nil {ov : OverlayedValue} (h : ov ≠ []) : ov.commit ≠ [] := by
  unfold OverlayedValue.commit
  split <;> simp_all

/-- Closing keeps every stored key with at least one version. -/
theorem closeKey_nonempty (rollback : Bool) (t : OverlayedChangeSet K) {key : K} (hkey : t.entry key ≠ [])
    (hne : ∀ k, t.changes.lookup k ≠ some []) (k : K) : (t.closeKey rollback key).changes.lookup k ≠ some [] := by
  by_cases hk : k = key
  · subst hk
    cases rollback
    · cases hd : t.dirtyKeys with
      | nil =>
        rw [closeKey_false_nil hd]
        split_ifs
        · simpa [AList.lookup_insert] using commit_ne_nil hkey
        · exact hne k
      | cons top rest =>
        rw [closeKey_false_cons hd]
        split_ifs
        · simpa [AList.lookup_insert] using commit_ne_nil hkey
        · exact hne k
    · rw [closeKey_true]
      split_ifs with he
      · simp [AList.lookup_erase]
      · simpa [AList.lookup_insert, List.isEmpty_iff] using he
  · cases rollback
    · cases hd : t.dirtyKeys with
      | nil =>
        rw [closeKey_false_nil hd]
        split_ifs <;> simp [AList.lookup_insert_ne hk, hne k]
      | cons top rest =>
        rw [closeKey_false_cons hd]
        split_ifs <;> simp [AList.lookup_insert_ne hk, hne k]
    · rw [closeKey_true]
      split_ifs <;> simp [AList.lookup_erase_ne hk, AList.lookup_insert_ne hk, hne k]

/-- What closing does to the readings of a key's versions. -/
def closedVersions (rollback : Bool) (enclosing : List (List K)) (key : K) (vs : List (Option StorageValue)) :
    List (Option StorageValue) :=
  if rollback then vs.tail
  else match enclosing with
    | top :: _ => if key ∈ top then commitVersions vs else vs
    | [] => commitVersions vs

theorem commitVersions_of_length_le {vs : List (Option StorageValue)} (h : vs.length ≤ 1) :
    commitVersions vs = vs := by
  match vs, h with
  | [], _ => rfl
  | [_], _ => rfl

/-- Closing acts on the readings as `closedVersions` says. -/
theorem closedEntry_versions (rollback : Bool) (enclosing : List (List K)) (key : K) {ov : OverlayedValue}
    (hov : Holds none ov) :
    versions none (closedEntry rollback enclosing key ov) = closedVersions rollback enclosing key (versions none ov) ∧
      Holds none (closedEntry rollback enclosing key ov) := by
  cases rollback
  · cases enclosing with
    | nil =>
      rw [closedEntry_false_nil]
      split_ifs with hl
      · exact commit_versions hov
      · -- one version at most: merging changes nothing
        have hvs : (versions none ov).length ≤ 1 := by rw [length_versions]; omega
        exact ⟨(commitVersions_of_length_le hvs).symm, hov⟩
    | cons top rest =>
      rw [closedEntry_false_cons]
      simp only [closedVersions, Bool.false_eq_true, if_false]
      split_ifs
      · exact commit_versions hov
      · exact ⟨rfl, hov⟩
  · exact rollback_versions hov

/-- The dirty sets after a commit: the closed keys join the enclosing transaction's set. -/
def mergeDirty (D : List K) (ds : List (List K)) : List (List K) :=
  D.foldl (fun ds key => (insertDirty ds key).1) ds

theorem mergeDirty_nil (D : List K) : mergeDirty D [] = [] := by
  induction D with
  | nil => rfl
  | cons key D ih => simpa [mergeDirty, insertDirty] using ih

theorem mergeDirty_cons (D : List K) (top : List K) (rest : List (List K)) (htop : top.Nodup) :
    ∃ T, mergeDirty D (top :: rest) = T :: rest ∧ T.Nodup ∧ ∀ k, k ∈ T ↔ k ∈ top ∨ k ∈ D := by
  induction D generalizing top with
  | nil => exact ⟨top, rfl, htop, by simp⟩
  | cons key D ih =>
    by_cases hk : key ∈ top
    · obtain ⟨T, hT, hnd, hmem⟩ := ih top htop
      refine ⟨T, by simpa [mergeDirty, insertDirty, hk] using hT, hnd, fun k => ?_⟩
      rw [hmem]
      constructor
      · rintro (h | h)
        · exact .inl h
        · exact .inr (List.mem_cons_of_mem key h)
      · rintro (h | h)
        · exact .inl h
        · rcases List.mem_cons.mp h with rfl | h
          · exact .inl hk
          · exact .inr h
    · obtain ⟨T, hT, hnd, hmem⟩ := ih (key :: top) (List.nodup_cons.mpr ⟨hk, htop⟩)
      refine ⟨T, by simpa [mergeDirty, insertDirty, hk] using hT, hnd, fun k => ?_⟩
      rw [hmem]
      simp only [List.mem_cons]
      tauto

theorem closedEntry_insertDirty (rollback : Bool) {ds : List (List K)} {key k : K} (hne : k ≠ key)
    (ov : OverlayedValue) :
    closedEntry rollback (if rollback then ds else (insertDirty ds key).1) k ov = closedEntry rollback ds k ov := by
  cases rollback
  · simp only [Bool.false_eq_true, if_false]
    cases ds with
    | nil => rfl
    | cons top rest =>
      simp only [insertDirty]
      split_ifs with hk
      · rfl
      · simp [hne]
  · rfl

/-- Closing the keys of the innermost transaction one after the other: each is closed against
the dirty sets it was found in, and every other key is left alone. -/
theorem foldl_closeKey_entry (rollback : Bool) :
    ∀ (D : List K) (t : OverlayedChangeSet K), D.Nodup → (∀ k ∈ D, t.entry k ≠ []) →
      (∀ k, t.changes.lookup k ≠ some []) →
      (∀ k, (D.foldl (OverlayedChangeSet.closeKey rollback) t).entry k =
        if k ∈ D then closedEntry rollback t.dirtyKeys k (t.entry k) else t.entry k) ∧
      ∀ k, (D.foldl (OverlayedChangeSet.closeKey rollback) t).changes.lookup k ≠ some [] := by
  intro D
  induction D with
  | nil => intro t _ _ hne; exact ⟨fun k => by simp, hne⟩
  | cons key D ih =>
    intro t hnd hD hne
    obtain ⟨hkey, hnd'⟩ := List.nodup_cons.mp hnd
    have hentry := closeKey_entry rollback t (hD key List.mem_cons_self)
    -- the keys still to close keep their versions
    have hD' : ∀ k ∈ D, (t.closeKey rollback key).entry k ≠ [] := by
      intro k hk
      rw [hentry, if_neg (show k ≠ key from fun h => hkey (h ▸ hk))]
      exact hD k (List.mem_cons_of_mem key hk)
    obtain ⟨ih1, ih2⟩ := ih (t.closeKey rollback key) hnd' hD'
      (closeKey_nonempty rollback t (hD key List.mem_cons_self) hne)
    refine ⟨fun k => ?_, ih2⟩
    rw [List.foldl_cons, ih1, hentry, (closeKey_fields rollback t key).1]
    by_cases hk : k = key
    · subst hk
      simp [hkey]
    · by_cases hkD : k ∈ D
      · simp [hkD, hk, closedEntry_insertDirty rollback hk]
      · simp [hkD, hk]

theorem foldl_closeKey_fields (rollback : Bool) :
    ∀ (D : List K) (t : OverlayedChangeSet K),
      (D.foldl (OverlayedChangeSet.closeKey rollback) t).dirtyKeys =
          (if rollback then t.dirtyKeys else mergeDirty D t.dirtyKeys) ∧
        (D.foldl (OverlayedChangeSet.closeKey rollback) t).numClientTransactions = t.numClientTransactions ∧
        (D.foldl (OverlayedChangeSet.closeKey rollback) t).executionMode = t.executionMode := by
  intro D
  induction D with
  | nil => intro t; cases rollback <;> exact ⟨rfl, rfl, rfl⟩
  | cons key D ih =>
    intro t
    obtain ⟨h1, h2, h3⟩ := ih (t.closeKey rollback key)
    obtain ⟨f1, f2, f3⟩ := closeKey_fields rollback t key
    refine ⟨?_, h2.trans f2, h3.trans f3⟩
    rw [List.foldl_cons, h1, f1]
    cases rollback <;> rfl

section Tracks

variable {k : K} {D : List K} {ds : List (List K)} {s0 : Option (Option StorageValue)}
  {saved : List (Option (Option StorageValue))} {c : Option (Option StorageValue)}
  {vs : List (Option StorageValue)}

omit [DecidableEq K] in
/-- A key written in the innermost transaction has a version. -/
theorem Tracks.ne_nil (h : Tracks k (D :: ds) (s0 :: saved) c vs) (hk : k ∈ D) : vs ≠ [] := by
  cases h with
  | written _ _ => simp
  | untouched hk' _ => exact absurd hk hk'

/-- A rollback restores what the transaction saved, dropping the version it wrote. -/
theorem Tracks.rollback (h : Tracks k (D :: ds) (s0 :: saved) c vs) :
    Tracks k ds saved s0 (if k ∈ D then closedVersions true ds k vs else vs) := by
  cases h with
  | written hk hrest => simpa [hk, closedVersions] using hrest
  | untouched hk hrest => simpa [hk] using hrest

/-- A commit into an enclosing transaction: a version written by both merges, and a key written
only by the closed one passes to the enclosing one. -/
theorem Tracks.commit_cons {D' : List K} {s1 : Option (Option StorageValue)} {T : List K}
    (h : Tracks k (D :: D' :: ds) (s0 :: s1 :: saved) c vs) (hT : k ∈ T ↔ k ∈ D' ∨ k ∈ D) :
    Tracks k (T :: ds) (s1 :: saved) c (if k ∈ D then closedVersions false (D' :: ds) k vs else vs) := by
  cases h with
  | written hk hrest =>
    rw [if_pos hk]
    cases hrest with
    | written hk' hrest' => simpa [closedVersions, hk', commitVersions] using .written (hT.mpr (.inr hk)) hrest'
    | untouched hk' hrest' => simpa [closedVersions, hk'] using .written (hT.mpr (.inr hk)) hrest'
  | untouched hk hrest =>
    rw [if_neg hk]
    cases hrest with
    | written hk' hrest' => exact .written (hT.mpr (.inl hk')) hrest'
    | untouched hk' hrest' => exact .untouched (fun h => (hT.mp h).elim hk' hk) hrest'

/-- A commit with no enclosing transaction merges into the committed version. -/
theorem Tracks.commit_nil (h : Tracks k [D] [s0] c vs) :
    Tracks k [] [] c (if k ∈ D then closedVersions false [] k vs else vs) := by
  cases h with
  | @written _ _ _ _ v older hk hrest =>
    rw [if_pos hk]
    cases hrest with
    | committed hl =>
      -- at most one committed version, which the closed one replaces
      match older, hl with
      | [], _ =>
        show Tracks k [] [] [v].head? [v]
        exact .committed (by simp)
      | [_], _ =>
        show Tracks k [] [] [v].head? [v]
        exact .committed (by simp)
  | untouched hk hrest =>
    rw [if_neg hk]
    exact hrest

end Tracks

/-- The change set refuses a close when no transaction is open, or, in runtime mode, when only
the client's are. -/
theorem closeTransaction_eq_none_iff (s : OverlayedChangeSet K) (rollback : Bool) :
    s.closeTransaction rollback = none ↔
      s.dirtyKeys.length ≤ (if s.executionMode = .runtime then s.numClientTransactions else 0) := by
  unfold OverlayedChangeSet.closeTransaction OverlayedChangeSet.hasOpenRuntimeTransactions
    OverlayedChangeSet.transactionDepth
  cases s.executionMode <;> cases s.dirtyKeys <;> simp

variable {s : OverlayedChangeSet K} {a : Spec K}

theorem Refines.closeTransaction_eq_none_iff (h : Refines s a) (rollback : Bool) :
    s.closeTransaction rollback = none ↔ a.stack.close a.floor rollback = none := by
  rw [Overlay.closeTransaction_eq_none_iff, SnapshotStack.Stack.close_eq_none_iff, Spec.floor, h.depth,
    h.executionMode, h.numClientTransactions]

/-- A close the change set makes is the close the abstract overlay makes. -/
theorem Refines.closeTransaction (h : Refines s a) {rollback : Bool} {s' : OverlayedChangeSet K}
    {st : SnapshotStack.Stack (View K)} (hs : s.closeTransaction rollback = some s')
    (ha : a.stack.close a.floor rollback = some st) : Refines s' { a with stack := st } := by
  obtain ⟨-, S, hsaved, hview⟩ := SnapshotStack.Stack.close_eq_some ha
  -- the innermost dirty set is popped and its keys are closed one by one
  obtain ⟨D, Ds, hd, rfl⟩ : ∃ D Ds, s.dirtyKeys = D :: Ds ∧
      s' = D.foldl (OverlayedChangeSet.closeKey rollback) { s with dirtyKeys := Ds } := by
    unfold OverlayedChangeSet.closeTransaction at hs
    split_ifs at hs
    split at hs
    · cases hs
    · next D Ds hd => exact ⟨D, Ds, hd, (Option.some.inj hs).symm⟩
  have htracks : ∀ k, Tracks k (D :: Ds) (S k :: st.saved.map fun view => view k) (a.stack.view k)
      (versions none (s.entry k)) := by
    intro k
    simpa [hd, hsaved] using h.tracks k
  -- every key the transaction wrote holds a version
  have hwritten : ∀ k ∈ D, ({ s with dirtyKeys := Ds } : OverlayedChangeSet K).entry k ≠ [] := by
    intro k hk hnil
    exact (htracks k).ne_nil hk (versions_eq_nil_iff.mpr hnil)
  obtain ⟨hentry, hnonempty⟩ := foldl_closeKey_entry rollback D { s with dirtyKeys := Ds }
    (h.nodup D (by simp [hd])) hwritten h.nonempty
  obtain ⟨hdirty, hnum, hmode⟩ := foldl_closeKey_fields rollback D { s with dirtyKeys := Ds }
  dsimp only at hentry hdirty hnum hmode
  have hdepth : Ds.length = st.depth := by
    have := h.depth
    rw [hd, SnapshotStack.Stack.depth, hsaved] at this
    simpa [SnapshotStack.Stack.depth] using this
  have hnodupDs : ∀ D' ∈ Ds, D'.Nodup := fun D' hD' => h.nodup D' (by simp [hd, hD'])
  refine ⟨fun k => ?_, hnonempty, ?_, ?_, fun k => ?_, hnum.trans h.numClientTransactions,
    hmode.trans h.executionMode⟩
  · rw [hentry k]
    split_ifs
    · exact (closedEntry_versions rollback Ds k (h.holds k)).2
    · exact h.holds k
  · rw [hdirty]
    cases rollback
    · cases Ds with
      | nil => simp [mergeDirty_nil]
      | cons top rest =>
        obtain ⟨T, hT, hnd, -⟩ := mergeDirty_cons D top rest (hnodupDs top (by simp))
        simp only [Bool.false_eq_true, if_false, hT]
        intro D' hD'
        rcases List.mem_cons.mp hD' with rfl | hD'
        · exact hnd
        · exact hnodupDs D' (by simp [hD'])
    · exact hnodupDs
  · rw [hdirty]
    show _ = st.depth
    rw [← hdepth]
    cases rollback
    · cases Ds with
      | nil => simp [mergeDirty_nil]
      | cons top rest =>
        obtain ⟨T, hT, -, -⟩ := mergeDirty_cons D top rest (hnodupDs top (by simp))
        simp [hT]
    · rfl
  · -- each key: rolled back to what the transaction saved, or merged into the enclosing one
    rw [hentry k, hdirty]
    have hcv : versions none (if k ∈ D then closedEntry rollback Ds k (s.entry k) else s.entry k) =
        if k ∈ D then closedVersions rollback Ds k (versions none (s.entry k)) else versions none (s.entry k) := by
      split_ifs
      · exact (closedEntry_versions rollback Ds k (h.holds k)).1
      · rfl
    simp only [OverlayedChangeSet.entry] at hcv ⊢
    rw [hcv, hview]
    cases rollback
    · simp only [Bool.false_eq_true, if_false]
      cases Ds with
      | nil =>
        have hst : st.saved = [] := by simpa [SnapshotStack.Stack.depth] using hdepth.symm
        rw [hst, mergeDirty_nil]
        have ht := htracks k
        rw [hst] at ht
        exact ht.commit_nil
      | cons top rest =>
        obtain ⟨T, hT, -, hmem⟩ := mergeDirty_cons D top rest (hnodupDs top (by simp))
        obtain ⟨S', saved', hst⟩ : ∃ S' saved', st.saved = S' :: saved' := by
          cases hs : st.saved with
          | nil => simp [SnapshotStack.Stack.depth, hs] at hdepth
          | cons S' saved' => exact ⟨S', saved', rfl⟩
        have ht := htracks k
        rw [hst] at ht
        rw [hT, hst]
        exact ht.commit_cons (hmem k)
    · simp only [if_true]
      exact (htracks k).rollback

/-- Closing as one operation: both refuse together, and a close made on both keeps the
refinement. -/
theorem Refines.close (h : Refines s a) (rollback : Bool) :
    Refines ((s.closeTransaction rollback).getD s) { a with stack := (a.stack.close a.floor rollback).getD a.stack } := by
  cases hs : s.closeTransaction rollback with
  | none =>
    rw [(h.closeTransaction_eq_none_iff rollback).mp hs]
    exact h
  | some s' =>
    cases ha : a.stack.close a.floor rollback with
    | none => exact absurd ((h.closeTransaction_eq_none_iff rollback).mpr ha) (by simp [hs])
    | some st => exact h.closeTransaction hs ha

end Close

section Clear

/-- The view with the given keys removed where the predicate holds. -/
def clearKeys (predicate : K → Bool) (keys : List K) (view : View K) : View K :=
  fun k => if predicate k = true ∧ k ∈ keys then some none else view k

variable {s : OverlayedChangeSet K} {a : Spec K}

theorem clearKeys_cons_setView (p : K → Bool) {key : K} {keys : List K} (hkey : key ∉ keys) (hp : p key = true)
    (view : View K) : clearKeys p keys (Spec.setView key none view) = clearKeys p (key :: keys) view := by
  funext k
  by_cases hk : k = key
  · subst hk
    simp [clearKeys, Spec.setView, hkey, hp]
  · simp [clearKeys, Spec.setView, hk]

theorem clearKeys_cons_of_not (p : K → Bool) {key : K} (keys : List K) (hp : p key = false) :
    clearKeys p (key :: keys) = clearKeys p keys := by
  funext view k
  by_cases hk : k = key
  · subst hk
    simp [clearKeys, hp]
  · simp [clearKeys, hk]

/-- Clearing the stored keys one after the other, each set to none where the predicate holds. -/
theorem Refines.foldl_clear (p : K → Bool)
    (g : OverlayedChangeSet K × ℕ → (Σ _ : K, OverlayedValue) → OverlayedChangeSet K × ℕ)
    (hg : ∀ acc e, acc.1.changes.lookup e.1 = some e.2 → (g acc e).1 = if p e.1 then acc.1.set e.1 none else acc.1) :
    ∀ (es : List (Σ _ : K, OverlayedValue)) (acc : OverlayedChangeSet K × ℕ) (b : Spec K), Refines acc.1 b →
      (∀ e ∈ es, acc.1.changes.lookup e.1 = some e.2) → es.keys.Nodup →
      Refines (es.foldl g acc).1 { b with stack := b.stack.update (clearKeys p es.keys) } := by
  intro es
  induction es with
  | nil =>
    intro acc b hb _ _
    have hid : ({ b with stack := b.stack.update (clearKeys p []) } : Spec K) = b := by
      have : clearKeys p [] = id := by funext view k; simp [clearKeys]
      rw [this]
      rfl
    show Refines acc.1 { b with stack := b.stack.update (clearKeys p []) }
    rw [hid]
    exact hb
  | cons e es ih =>
    intro acc b hb hlook hnd
    obtain ⟨hkey, hnd'⟩ : e.1 ∉ es.keys ∧ es.keys.Nodup := List.nodup_cons.mp hnd
    have hstep := hg acc e (hlook e List.mem_cons_self)
    show Refines (es.foldl g (g acc e)).1 { b with stack := b.stack.update (clearKeys p (e.1 :: es.keys)) }
    by_cases hp : p e.1 = true
    · -- the key is set to none and recorded as written
      rw [if_pos hp] at hstep
      have hset := hb.set e.1 none
      rw [← hstep] at hset
      have hlook' : ∀ e' ∈ es, (g acc e).1.changes.lookup e'.1 = some e'.2 := by
        intro e' he'
        have hne : e'.1 ≠ e.1 := fun h => hkey (h ▸ List.mem_map_of_mem he')
        rw [hstep]
        simp only [OverlayedChangeSet.set, AList.lookup_insert_ne hne]
        exact hlook e' (List.mem_cons_of_mem e he')
      have hstack : b.stack.update (clearKeys p (e.1 :: es.keys)) =
          (b.stack.update (Spec.setView e.1 none)).update (clearKeys p es.keys) := by
        simp only [SnapshotStack.Stack.update, clearKeys_cons_setView p hkey hp]
      rw [hstack]
      exact ih (g acc e) _ hset hlook' hnd'
    · -- the key is left alone
      rw [if_neg hp] at hstep
      have hb' : Refines (g acc e).1 b := hstep ▸ hb
      have hlook' : ∀ e' ∈ es, (g acc e).1.changes.lookup e'.1 = some e'.2 := by
        intro e' he'
        rw [hstep]
        exact hlook e' (List.mem_cons_of_mem e he')
      rw [clearKeys_cons_of_not p _ (by simpa using hp)]
      exact ih (g acc e) b hb' hlook' hnd'

/-- A stored key shows a value, or its removal; any other key shows nothing. -/
theorem Refines.isSome_view (h : Refines s a) (k : K) : (a.stack.view k).isSome = true ↔ k ∈ s.changes.keys := by
  rw [h.view_eq k, ← AList.mem_keys, ← AList.lookup_isSome, OverlayedChangeSet.entry]
  cases hk : s.changes.lookup k with
  | none => simp [versions]
  | some ov =>
    have hov : ov ≠ [] := fun hnil => h.nonempty k (hk ▸ hnil ▸ rfl)
    simpa [Option.isSome_iff_ne_none, List.head?_eq_none_iff] using mt versions_eq_nil_iff.mp hov

/-- `clear_where` removes every stored key the predicate selects. -/
theorem Refines.clearWhere (h : Refines s a) (p : K → Bool) :
    Refines (s.clearWhere fun k _ => p k).1 { a with stack := a.stack.update (Spec.clearView p) } := by
  -- the stored keys are those that show something
  have hfun : Spec.clearView p a.stack.view = clearKeys p s.changes.keys a.stack.view := by
    funext k
    simp only [Spec.clearView, clearKeys, h.isSome_view]
  have hview : a.stack.update (Spec.clearView p) = a.stack.update (clearKeys p s.changes.keys) := by
    simp only [SnapshotStack.Stack.update, hfun]
  rw [hview]
  refine Refines.foldl_clear p _ (fun acc e he => ?_) s.changes.entries (s, 0) a h
    (fun e he => AList.mem_lookup_iff.mpr (by simpa using he)) s.changes.nodupKeys
  by_cases hp : p e.1 = true <;> simp [hp, OverlayedChangeSet.set, he]

end Clear

section Runtime

variable {s : OverlayedChangeSet K} {a : Spec K}

theorem Refines.enterRuntime (h : Refines s a) : Refines (s.enterRuntime.getD s) (a.enterRuntime.getD a) := by
  unfold OverlayedChangeSet.enterRuntime Spec.enterRuntime
  rw [← h.executionMode]
  cases s.executionMode with
  | runtime => exact h
  | client =>
    -- the open transactions become the client's
    exact ⟨h.holds, h.nonempty, h.nodup, h.depth, h.tracks,
      by simp [OverlayedChangeSet.transactionDepth, h.depth], rfl⟩

/-- Rolling back `n` transactions in client mode. -/
theorem Refines.rollbackN (n : ℕ) :
    ∀ {t : OverlayedChangeSet K} {b : Spec K}, Refines t b → b.executionMode = .client →
      Refines (OverlayedChangeSet.rollbackN n t)
        { b with stack := SnapshotStack.run 0 b.stack (List.replicate n (.close true)) } := by
  induction n with
  | zero => intro t b h _; exact h
  | succ n ih =>
    intro t b h hb
    have hfloor : b.floor = 0 := by simp [Spec.floor, hb]
    have hstep := h.close true
    rw [hfloor] at hstep
    exact ih hstep hb

theorem Refines.exitRuntime (h : Refines s a) : Refines (s.exitRuntime.getD s) (a.exitRuntime.getD a) := by
  unfold OverlayedChangeSet.exitRuntime Spec.exitRuntime
  rw [← h.executionMode]
  cases s.executionMode with
  | client => exact h
  | runtime =>
    -- back in client mode, the transactions the runtime left open are rolled back
    have hc : Refines { s with executionMode := .client } ⟨a.stack, a.numClientTransactions, .client⟩ :=
      ⟨h.holds, h.nonempty, h.nodup, h.depth, h.tracks, h.numClientTransactions, rfl⟩
    have hn : s.transactionDepth - s.numClientTransactions = a.stack.depth - a.numClientTransactions := by
      rw [OverlayedChangeSet.transactionDepth, h.depth, h.numClientTransactions]
    rw [Option.getD_some, Option.getD_some, hn]
    exact hc.rollbackN _ rfl

end Runtime

section Run

variable {s : OverlayedChangeSet K} {a : Spec K}

/-- Every operation keeps the refinement. -/
theorem Refines.apply (h : Refines s a) (o : Op K) : Refines (o.apply s) (a.apply o) := by
  cases o with
  | tx o =>
    cases o with
    | set key value => exact h.set key value
    | appendStorage key value init => exact h.appendStorage key value init
    | storage key => exact h.storage key
    | clearWhere p => exact h.clearWhere p
    | startTransaction => exact h.startTransaction
    | rollbackTransaction => exact h.close true
    | commitTransaction => exact h.close false
  | enterRuntime => exact h.enterRuntime
  | exitRuntime => exact h.exitRuntime

theorem Refines.run (h : Refines s a) (ops : List (Op K)) : Refines (run s ops) (a.run ops) := by
  induction ops generalizing s a with
  | nil => exact h
  | cons o ops ih => exact ih (h.apply o)

theorem refines_empty : Refines (OverlayedChangeSet.empty : OverlayedChangeSet K) Spec.empty where
  holds _ := .nil
  nonempty _ := by simp [OverlayedChangeSet.empty]
  nodup _ h := by cases h
  depth := rfl
  tracks _ := by
    show Tracks _ [] [] ([] : List (Option StorageValue)).head? []
    exact .committed (by simp)
  numClientTransactions := rfl
  executionMode := rfl

theorem run_append (s : OverlayedChangeSet K) (ops ops' : List (Op K)) :
    run s (ops ++ ops') = run (run s ops) ops' := by
  simp [run, List.foldl_append]

theorem Spec.run_append (a : Spec K) (ops ops' : List (Op K)) :
    a.run (ops ++ ops') = (a.run ops).run ops' := by
  simp [Spec.run, List.foldl_append]

/-- Operations inside transactions keep the mode and the client's count, so they run on the
stack of views with one floor. -/
theorem Spec.run_tx (a : Spec K) (ops : List (TxOp K)) :
    a.run (ops.map .tx) = { a with stack := SnapshotStack.run a.floor a.stack (ops.map TxOp.toStack) } := by
  induction ops generalizing a with
  | nil => rfl
  | cons o ops ih => exact ih _

/-- The abstract overlay never has fewer transactions open than the caller may not close. -/
theorem Spec.floor_le_apply (ha : a.floor ≤ a.stack.depth) (o : Op K) :
    (a.apply o).floor ≤ (a.apply o).stack.depth := by
  cases o with
  | tx o => exact (o.toStack.apply_outermost a.floor a.stack ha).1
  | enterRuntime =>
    unfold Spec.apply Spec.enterRuntime
    cases a.executionMode <;> simp_all [Spec.floor]
  | exitRuntime =>
    unfold Spec.apply Spec.exitRuntime
    cases hm : a.executionMode <;> simp_all [Spec.floor]

theorem Spec.floor_le_run (ops : List (Op K)) : ∀ {a : Spec K}, a.floor ≤ a.stack.depth →
    (a.run ops).floor ≤ (a.run ops).stack.depth := by
  induction ops with
  | nil => intro a ha; exact ha
  | cons o ops ih => intro a ha; exact ih (Spec.floor_le_apply ha o)

end Run

section Isolation

theorem Spec.floor_le_empty_run (ops : List (Op K)) :
    ((Spec.empty : Spec K).run ops).floor ≤ ((Spec.empty : Spec K).run ops).stack.depth :=
  Spec.floor_le_run ops (by simp [Spec.floor, Spec.empty])

/-- Every run of the change set reads what the abstract overlay shows after the same run. -/
theorem run_storage_eq_view (ops : List (Op K)) (k : K) :
    ((run OverlayedChangeSet.empty ops).storage k).1 = ((Spec.empty : Spec K).run ops).stack.view k :=
  (refines_empty.run ops).storage_fst k

/-- A transaction that is rolled back leaves every read as it was before it started, whatever it
did in between, its own nested transactions included. -/
theorem rollback_restores_storage (ops₀ : List (Op K)) {ops : List (TxOp K)}
    (hops : SnapshotStack.Nested (ops.map TxOp.toStack)) (k : K) :
    ((run OverlayedChangeSet.empty
        (ops₀ ++ (TxOp.startTransaction :: (ops ++ [TxOp.rollbackTransaction])).map Op.tx)).storage k).1 =
      ((run OverlayedChangeSet.empty ops₀).storage k).1 := by
  rw [run_storage_eq_view, run_storage_eq_view, Spec.run_append, Spec.run_tx]
  simp only [List.map_cons, List.map_append, List.map_nil, TxOp.toStack]
  rw [SnapshotStack.run_start_rollback hops (Spec.floor_le_empty_run ops₀)]

theorem rollback_restores_storage_nested :
    SnapshotStack.Nested (([.set 0 (some [2]), .startTransaction, .appendStorage 0 [3] [], .commitTransaction] :
        List (TxOp ℕ)).map TxOp.toStack) ∧
      ((run OverlayedChangeSet.empty
          ([.tx (.set 0 (some [1]))] ++ (TxOp.startTransaction :: ([.set 0 (some [2]), .startTransaction,
            .appendStorage 0 [3] [], .commitTransaction] ++ [TxOp.rollbackTransaction])).map Op.tx)).storage 0).1 =
        ((run OverlayedChangeSet.empty [.tx (.set 0 (some [1]))]).storage 0).1 := by
  have hN : SnapshotStack.Nested (([.set 0 (some [2]), .startTransaction, .appendStorage 0 [3] [],
      .commitTransaction] : List (TxOp ℕ)).map TxOp.toStack) :=
    .update _ (.block false (.update _ .nil) .nil)
  exact ⟨hN, rollback_restores_storage _ hN 0⟩

/-- The runtime cannot escape a transaction the client opened: whatever it does in runtime mode,
committing or leaving its own transactions open, once control is back with the client and the
client rolls its transaction back, every read is as it was before that transaction. -/
theorem runtime_cannot_escape_client_transaction (ops₀ : List (Op K))
    (hclient : (run OverlayedChangeSet.empty ops₀).executionMode = .client) (rops : List (TxOp K)) (k : K) :
    ((run OverlayedChangeSet.empty (ops₀ ++ [.tx .startTransaction, .enterRuntime] ++ rops.map Op.tx ++
        [.exitRuntime, .tx .rollbackTransaction])).storage k).1 =
      ((run OverlayedChangeSet.empty ops₀).storage k).1 := by
  have hmode : ((Spec.empty : Spec K).run ops₀).executionMode = .client :=
    (refines_empty.run ops₀).executionMode ▸ hclient
  rw [run_storage_eq_view, run_storage_eq_view, Spec.run_append, Spec.run_append, Spec.run_append]
  generalize (Spec.empty : Spec K).run ops₀ = a at hmode ⊢
  -- the client's transaction is the innermost the client opened when the runtime starts
  have hentered : a.run [.tx .startTransaction, .enterRuntime] = ⟨a.stack.start, a.stack.depth + 1, .runtime⟩ := by
    simp [Spec.run, Spec.apply, Spec.enterRuntime, hmode, TxOp.toStack, SnapshotStack.Op.apply]
  have hfloor : (⟨a.stack.start, a.stack.depth + 1, .runtime⟩ : Spec K).floor = a.stack.depth + 1 := by
    simp [Spec.floor]
  rw [hentered, Spec.run_tx, hfloor]
  -- the runtime keeps the client's saved views
  obtain ⟨-, hout⟩ := SnapshotStack.run_outermost (a.stack.depth + 1) (rops.map TxOp.toStack) a.stack.start
    (by simp)
  generalize SnapshotStack.run (a.stack.depth + 1) a.stack.start (rops.map TxOp.toStack) = st at hout ⊢
  -- leaving the runtime rolls back to them
  have hback : (SnapshotStack.run 0 st (List.replicate (st.depth - (a.stack.depth + 1)) (.close true))).saved =
      a.stack.view :: a.stack.saved := by
    rw [SnapshotStack.run_replicate_rollback (Nat.sub_le _ _)]
    exact hout.trans (by simp [SnapshotStack.Stack.outermost, SnapshotStack.Stack.depth])
  -- and the client's rollback restores the view it saved
  have hclose := @SnapshotStack.Stack.close_cons (View K) 0 true _ _ _ hback
    (by rw [SnapshotStack.Stack.depth, hback]; simp)
  rw [if_pos rfl] at hclose
  simp [Spec.run, Spec.apply, Spec.exitRuntime, TxOp.toStack, SnapshotStack.Op.apply, Spec.floor, hclose]

theorem runtime_cannot_escape_client_transaction_commit :
    (run (OverlayedChangeSet.empty : OverlayedChangeSet ℕ) []).executionMode = .client ∧
      ((run OverlayedChangeSet.empty ([] ++ [.tx .startTransaction, .enterRuntime] ++
          ([.set 0 (some [9]), .startTransaction, .appendStorage 1 [4] [], .commitTransaction,
            .rollbackTransaction, .startTransaction] : List (TxOp ℕ)).map Op.tx ++
          [.exitRuntime, .tx .rollbackTransaction])).storage 0).1 =
        ((run (OverlayedChangeSet.empty : OverlayedChangeSet ℕ) []).storage 0).1 :=
  ⟨rfl, runtime_cannot_escape_client_transaction [] rfl _ 0⟩

end Isolation

end PolkadotSdk.Overlay
