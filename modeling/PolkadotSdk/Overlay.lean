import PolkadotSdk.ScaleCompact

/-!
# The storage overlay: transactional change sets with lazy appends

A model of `OverlayedChangeSet` of `sp-state-machine`. Each key holds the versions of its
value, one per transaction that wrote it, the newest first. An append does not decode the
stored list: it appends the raw element and counts the elements, and the `Compact<u32>`
length prefix is rewritten only when the value is read. The first append in a new
transaction moves the parent's buffer up instead of copying it, so that closing the
transaction or overwriting the append has to hand the buffer back, truncated to the
parent's size.

Lengths are `u32`; a release build does not check overflow, so `current_length + 1` wraps.
Extrinsic indices and the statistics of `OverlayedChanges` are left out.
-/

namespace PolkadotSdk.Overlay

open ScaleCompact

/-- `u32::MAX`. -/
def u32Max : ℕ := 2 ^ 32 - 1

/-- `u32` addition in a release build, which wraps. -/
def wrappingAddU32 (a b : ℕ) : ℕ := (a + b) % 2 ^ 32

/-- `StorageValue`. -/
abbrev StorageValue := List UInt8

section StorageAppend

/-- `StorageAppend::extract_length`. -/
def extractLength (data : StorageValue) : Option ℕ :=
  (compactDecode data).map Prod.fst

/-- `StorageAppend::replace_length`: the first `compact_len(old_length)` bytes, none when
there is no old length, are replaced by the encoded new length. -/
def replaceLength (data : StorageValue) (oldLength : Option ℕ) (newLength : ℕ) : StorageValue :=
  compactEncode newLength ++ data.drop ((oldLength.map compactLen).getD 0)

end StorageAppend

/-- `StorageEntry`: one version of a value. An `append` holds the raw `data`, the number
of elements `currentLength`, the length that the prefix of `data` encodes (none when
`data` has no prefix yet) and the size of `data` in the parent transaction when the
buffer was taken from there. -/
inductive StorageEntry where
  | set (value : StorageValue)
  | remove
  | append (data : StorageValue) (currentLength : ℕ) (materializedLength : Option ℕ)
      (parentSize : Option ℕ)
  deriving DecidableEq, Repr

namespace StorageEntry

/-- `StorageEntry::materialize_in_place`: write the current length into the prefix. -/
def materializeInPlace : StorageEntry → StorageEntry
  | .append data currentLength materializedLength parentSize =>
    if materializedLength = some currentLength then .append data currentLength materializedLength parentSize
    else .append (replaceLength data materializedLength currentLength) currentLength (some currentLength) parentSize
  | e => e

/-- `StorageEntry::to_option`. -/
def toOption (e : StorageEntry) : Option StorageValue :=
  match e.materializeInPlace with
  | .append data _ _ _ => some data
  | .set data => some data
  | .remove => none

/-- Whether `clear_where` counts the entry as a value it cleared. -/
def isSetOrAppend : StorageEntry → Bool
  | .remove => false
  | _ => true

end StorageEntry

open StorageEntry

/-- `restore_append_to_parent`: give the buffer back to an appending parent, truncated to
the parent's size corrected by the change in the prefix's length. -/
def restoreAppendToParent (parent : StorageEntry) (currentData : StorageValue)
    (currentMaterialized : Option ℕ) (targetParentSize : ℕ) : StorageEntry :=
  match parent with
  | .append _ currentLength parentMaterialized parentSize =>
    let prev := (parentMaterialized.map compactLen).getD 0
    let new := (currentMaterialized.map compactLen).getD 0
    let target := if new ≤ prev then targetParentSize - (prev - new) else targetParentSize + (new - prev)
    .append (currentData.take target) currentLength currentMaterialized parentSize
  | parent => parent

/-- `OverlayedValue`: the versions of one value, the newest first. -/
abbrev OverlayedValue := List StorageEntry

/-- The entry a first append writes over `value`: the element is appended to a value that
starts with a length, and replaces any other value. -/
def appendTo (value element : StorageValue) : StorageEntry :=
  match extractLength value with
  | some len => .append (value ++ element) (wrappingAddU32 len 1) (some len) none
  | none => .append element 1 none none

namespace OverlayedValue

/-- `OverlayedEntry::set`. Overwriting an append whose buffer came from the parent hands
the buffer back to the parent. -/
def set (txs : OverlayedValue) (value : Option StorageValue) (firstWriteInTx : Bool) : OverlayedValue :=
  let value := match value with
    | some v => StorageEntry.set v
    | none => .remove
  if firstWriteInTx || txs.isEmpty then value :: txs
  else match txs with
    | .append data _ materialized (some parentSize) :: parent :: rest =>
      value :: restoreAppendToParent parent data materialized parentSize :: rest
    | _ :: rest => value :: rest
    | [] => [value]

/-- `OverlayedEntry::append`. The first append in a transaction over an append takes the
parent's buffer and leaves the parent empty. -/
def append (txs : OverlayedValue) (element : StorageValue) (firstWriteInTx : Bool)
    (init : StorageValue) : OverlayedValue :=
  match txs with
  | [] => [appendTo init element]
  | top :: rest =>
    if firstWriteInTx then
      match top with
      | .remove => .append element 1 none none :: top :: rest
      | .append data currentLength materialized parentSize =>
        .append (data ++ element) (wrappingAddU32 currentLength 1) materialized (some data.length) ::
          .append [] currentLength materialized parentSize :: rest
      | .set prev => appendTo prev element :: top :: rest
    else
      match top with
      | .remove => .append element 1 none none :: rest
      | .set data => appendTo data element :: rest
      | .append data currentLength materialized parentSize =>
        .append (data ++ element) (wrappingAddU32 currentLength 1) materialized parentSize :: rest

/-- `OverlayedEntry::value`: the value, after materializing the newest version in place. -/
def value : OverlayedValue → Option StorageValue × OverlayedValue
  | [] => (none, [])
  | top :: rest => (top.toOption, top.materializeInPlace :: rest)

/-- Rolling back the newest version: an append whose buffer came from the parent hands
it back. -/
def rollback : OverlayedValue → OverlayedValue
  | .append data _ materialized (some parentSize) :: parent :: rest =>
    restoreAppendToParent parent data materialized parentSize :: rest
  | _ :: rest => rest
  | [] => []

/-- Committing the newest version over the one below: two appends merge, keeping the
lower one's parent size; any other overwritten append hands its buffer to its parent. -/
def commit : OverlayedValue → OverlayedValue
  | .append data currentLength materialized (some _) :: .append _ _ _ keep :: rest =>
    .append data currentLength materialized keep :: rest
  | top :: .append data _ materialized (some parentSize) :: parent :: rest =>
    top :: restoreAppendToParent parent data materialized parentSize :: rest
  | top :: _ :: rest => top :: rest
  | txs => txs

end OverlayedValue

/-- `ExecutionMode`. -/
inductive ExecutionMode where
  | client
  | runtime
  deriving DecidableEq, Repr

/-- `OverlayedChangeSet`: the values by key, the keys written in each open transaction
(the innermost first) and the number of transactions the client opened. -/
structure OverlayedChangeSet (K : Type) [DecidableEq K] where
  changes : AList fun _ : K => OverlayedValue
  dirtyKeys : List (List K)
  numClientTransactions : ℕ
  executionMode : ExecutionMode

variable {K : Type} [DecidableEq K]

/-- `insert_dirty`: record a write of `key` in the innermost transaction; whether it is
the transaction's first write of the key. Without a transaction it is not. -/
def insertDirty (sets : List (List K)) (key : K) : List (List K) × Bool :=
  match sets with
  | [] => ([], false)
  | top :: rest => if key ∈ top then (sets, false) else ((key :: top) :: rest, true)

namespace OverlayedChangeSet

/-- The empty change set, in client mode. -/
def empty : OverlayedChangeSet K := ⟨∅, [], 0, .client⟩

/-- `transaction_depth`. -/
def transactionDepth (s : OverlayedChangeSet K) : ℕ := s.dirtyKeys.length

/-- `has_open_runtime_transactions`. -/
def hasOpenRuntimeTransactions (s : OverlayedChangeSet K) : Bool :=
  s.numClientTransactions < s.transactionDepth

/-- `OverlayedMap::get`. -/
def get (s : OverlayedChangeSet K) (key : K) : Option OverlayedValue :=
  s.changes.lookup key

/-- `OverlayedChanges::storage`: `get(key).value()`, which materializes the value in
place; none when the overlay does not hold the key. -/
def storage (s : OverlayedChangeSet K) (key : K) : Option (Option StorageValue) × OverlayedChangeSet K :=
  match s.changes.lookup key with
  | none => (none, s)
  | some overlayed => (some overlayed.value.1, { s with changes := s.changes.insert key overlayed.value.2 })

/-- `OverlayedChangeSet::set`. -/
def set (s : OverlayedChangeSet K) (key : K) (value : Option StorageValue) : OverlayedChangeSet K :=
  let dirty := insertDirty s.dirtyKeys key
  { s with
    dirtyKeys := dirty.1
    changes := s.changes.insert key (((s.changes.lookup key).getD []).set value dirty.2) }

/-- `OverlayedChangeSet::append_storage`; `init` is the backend's value, read only when
the overlay has no version of the key. -/
def appendStorage (s : OverlayedChangeSet K) (key : K) (value init : StorageValue) : OverlayedChangeSet K :=
  let dirty := insertDirty s.dirtyKeys key
  { s with
    dirtyKeys := dirty.1
    changes := s.changes.insert key (((s.changes.lookup key).getD []).append value dirty.2 init) }

/-- `OverlayedChangeSet::clear_where`: remove every value the predicate selects, and count
those that were not removed already. -/
def clearWhere (s : OverlayedChangeSet K) (predicate : K → OverlayedValue → Bool) :
    OverlayedChangeSet K × ℕ :=
  s.changes.entries.foldl (fun acc e =>
    if predicate e.1 e.2 then
      let dirty := insertDirty acc.1.dirtyKeys e.1
      ({ acc.1 with dirtyKeys := dirty.1, changes := acc.1.changes.insert e.1 (e.2.set none dirty.2) },
        acc.2 + if (e.2.head?.map isSetOrAppend).getD false then 1 else 0)
    else acc) (s, 0)

/-- `start_transaction`. -/
def startTransaction (s : OverlayedChangeSet K) : OverlayedChangeSet K :=
  { s with dirtyKeys := [] :: s.dirtyKeys }

/-- Closing the innermost transaction for one key it wrote. A rollback drops the key's
newest version, and the key when no version is left. A commit merges the newest version
into the one below when the enclosing transaction, or the committed state when there is
none, has a version of the key. -/
def closeKey (rollback : Bool) (s : OverlayedChangeSet K) (key : K) : OverlayedChangeSet K :=
  let overlayed := (s.changes.lookup key).getD []
  if rollback then
    if overlayed.rollback.isEmpty then { s with changes := s.changes.erase key }
    else { s with changes := s.changes.insert key overlayed.rollback }
  else
    match s.dirtyKeys with
    | top :: rest =>
      if key ∈ top then { s with changes := s.changes.insert key overlayed.commit }
      else { s with dirtyKeys := (key :: top) :: rest }
    | [] =>
      if 1 < overlayed.length then { s with changes := s.changes.insert key overlayed.commit }
      else s

/-- `close_transaction`: none is `NoOpenTransaction`, also when the runtime tries to
close a transaction the client opened. -/
def closeTransaction (s : OverlayedChangeSet K) (rollback : Bool) : Option (OverlayedChangeSet K) :=
  if s.executionMode = .runtime ∧ !s.hasOpenRuntimeTransactions then none
  else match s.dirtyKeys with
    | [] => none
    | keys :: rest => some (keys.foldl (closeKey rollback) { s with dirtyKeys := rest })

/-- `rollback_transaction`. -/
def rollbackTransaction (s : OverlayedChangeSet K) : Option (OverlayedChangeSet K) :=
  s.closeTransaction true

/-- `commit_transaction`. -/
def commitTransaction (s : OverlayedChangeSet K) : Option (OverlayedChangeSet K) :=
  s.closeTransaction false

/-- `enter_runtime`: none is `AlreadyInRuntime`. -/
def enterRuntime (s : OverlayedChangeSet K) : Option (OverlayedChangeSet K) :=
  match s.executionMode with
  | .runtime => none
  | .client => some { s with executionMode := .runtime, numClientTransactions := s.transactionDepth }

/-- The loop of `exit_runtime`, `n` rollbacks. -/
def rollbackN : ℕ → OverlayedChangeSet K → OverlayedChangeSet K
  | 0, s => s
  | n + 1, s => rollbackN n ((s.rollbackTransaction).getD s)

/-- `exit_runtime`: back in client mode, the transactions the runtime left open are rolled
back; none is `NotInRuntime`. -/
def exitRuntime (s : OverlayedChangeSet K) : Option (OverlayedChangeSet K) :=
  match s.executionMode with
  | .client => none
  | .runtime =>
    some (rollbackN (s.transactionDepth - s.numClientTransactions) { s with executionMode := .client })

end OverlayedChangeSet

/-- The list semantics an append is meant to have: the element is added to a value that
starts with a canonical length below `u32::MAX`, and any other value is reset to the
one-element list. -/
def appendSem (current : Option StorageValue) (element : StorageValue) : StorageValue :=
  match current.bind compactDecode with
  | some (len, rest) => if len < u32Max then compactEncode (len + 1) ++ rest ++ element else compactEncode 1 ++ element
  | none => compactEncode 1 ++ element

/-- A backend list of `u32::MAX` elements: the first append counts `u32::MAX + 1`
elements, which wraps to zero, and the read writes the length `0` over the prefix, while
the list semantics resets the value to the one-element list. -/
theorem append_storage_wraps_max_length :
    compactEncode u32Max = [3, 255, 255, 255, 255] ∧
      (((OverlayedChangeSet.empty : OverlayedChangeSet StorageValue).appendStorage [1] [7]
        (compactEncode u32Max)).storage [1]).1 = some (some [0, 7]) ∧
      appendSem (some (compactEncode u32Max)) [7] = [4, 7] := by
  decide

end PolkadotSdk.Overlay
