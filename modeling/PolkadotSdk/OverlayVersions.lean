import PolkadotSdk.Overlay

/-!
# What the versions of one value read as

The versions of an `OverlayedValue`, the newest first, read as a stack of values, and each
operation of the value acts on that stack as its name says: `set` and `append` write the newest
version (pushing one on a first write in a transaction), `rollback` drops the newest, `commit`
merges the newest into the one below, and reading (`value`) changes no version's reading.

A version's reading is not always its own data. An append may keep its data without the length
prefix, or with a prefix that counts fewer elements than it holds, and the first append in a
transaction takes its parent's buffer, leaving the parent empty and remembering its size. So
`versions` follows the buffer down: the parent reads the elements of the version above, cut to
the size the buffer had. `Holds` keeps that reading sound: a materialized length prefixes the
data, counts are `u32`, and a taken buffer holds at least the size the parent kept.
-/

namespace PolkadotSdk.Overlay

open ScaleCompact StorageEntry

/-- The bytes of a materialized length. -/
def lengthPrefix (materialized : Option ℕ) : StorageValue :=
  (materialized.map compactEncode).getD []

/-- The size of that prefix, as `replace_length` and `restore_append_to_parent` count it. -/
def prefixSize (materialized : Option ℕ) : ℕ :=
  (materialized.map compactLen).getD 0

@[simp] theorem length_lengthPrefix (m : Option ℕ) : (lengthPrefix m).length = prefixSize m := by
  cases m <;> simp [lengthPrefix, prefixSize]

/-- A buffer that the version above took: the elements that version reads, and the size the
buffer had here. -/
abbrev Taken := StorageValue × ℕ

/-- The elements an append reads: its data after the prefix, or, when the version above took
the buffer, the elements of that version cut to the size the buffer had here. -/
def elements : Option Taken → StorageValue → Option ℕ → StorageValue
  | some (above, size), _, m => above.take (size - prefixSize m)
  | none, data, m => data.drop (prefixSize m)

/-- What each version reads as, the newest first. -/
def versions : Option Taken → OverlayedValue → List (Option StorageValue)
  | _, [] => []
  | _, .set v :: rest => some v :: versions none rest
  | _, .remove :: rest => none :: versions none rest
  | taken, .append data n m parentSize :: rest =>
    some (compactEncode n ++ elements taken data m) ::
      versions (parentSize.map (elements taken data m, ·)) rest

/-- Where an append's elements can be read: a materialized length stands in front of its own
data, and a buffer that the version above took holds at least the size kept here. -/
def Fits : Option Taken → StorageValue → Option ℕ → Prop
  | none, data, m => lengthPrefix m <+: data
  | some (above, size), _, m => prefixSize m ≤ size ∧ size - prefixSize m ≤ above.length

/-- The versions of a value hold together: every count is a `u32`, every append's elements can
be read, and only an append has its buffer taken, by a version right above it. -/
inductive Holds : Option Taken → OverlayedValue → Prop
  | nil : Holds none []
  | set (v : StorageValue) {rest : OverlayedValue} : Holds none rest → Holds none (.set v :: rest)
  | remove {rest : OverlayedValue} : Holds none rest → Holds none (.remove :: rest)
  | append {taken : Option Taken} {data : StorageValue} {n : ℕ} {m parentSize : Option ℕ}
      {rest : OverlayedValue} : n < 2 ^ 32 → Fits taken data m →
      Holds (parentSize.map (elements taken data m, ·)) rest →
      Holds taken (.append data n m parentSize :: rest)

/-- The size the parent kept when this version took its buffer. -/
def StorageEntry.takenSize : StorageEntry → Option ℕ
  | .append _ _ _ parentSize => parentSize
  | _ => none

/-- The entry `set` writes: a value, or its removal. -/
def setEntry : Option StorageValue → StorageEntry
  | some v => .set v
  | none => .remove

theorem set_of_first {txs : OverlayedValue} {first : Bool} (h : (first || txs.isEmpty) = true)
    (v : Option StorageValue) : txs.set v first = setEntry v :: txs := by
  cases v <;> simp [OverlayedValue.set, setEntry, h]

theorem set_cons_of_takenSize {e : StorageEntry} {rest : OverlayedValue} (he : e.takenSize = none)
    (v : Option StorageValue) : OverlayedValue.set (e :: rest) v false = setEntry v :: rest := by
  cases e <;> cases v <;> simp_all [OverlayedValue.set, setEntry, StorageEntry.takenSize]

theorem set_append_some {data : StorageValue} {n size : ℕ} {m : Option ℕ} {parent : StorageEntry}
    {rest : OverlayedValue} (v : Option StorageValue) :
    OverlayedValue.set (.append data n m (some size) :: parent :: rest) v false =
      setEntry v :: restoreAppendToParent parent data m size :: rest := by
  cases v <;> simp [OverlayedValue.set, setEntry]

section Stack

/-- Writing the newest version: a first write in a transaction, or a write to a value with no
version, pushes one; any other write replaces the newest. -/
def writeVersion (firstWriteInTx : Bool) (v : Option StorageValue) (vs : List (Option StorageValue)) :
    List (Option StorageValue) :=
  if firstWriteInTx || vs.isEmpty then v :: vs else v :: vs.tail

/-- Merging the newest version into the one below. -/
def commitVersions : List (Option StorageValue) → List (Option StorageValue)
  | v :: _ :: rest => v :: rest
  | vs => vs

/-- What an append makes of the value it reads: an element added to a value that starts with a
length, the count going up in `u32` (so it wraps), and any other value replaced by the
one-element list. -/
def appendValue (current : Option StorageValue) (element : StorageValue) : StorageValue :=
  match current.bind compactDecode with
  | some (len, rest) => compactEncode (wrappingAddU32 len 1) ++ rest ++ element
  | none => compactEncode 1 ++ element

end Stack

section Lemmas

theorem take_eq_of_prefix {l l' : List UInt8} (h : l <+: l') {k : ℕ} (hk : k ≤ l.length) :
    l'.take k = l.take k := by
  rw [List.prefix_iff_eq_take.mp h, List.take_take, Nat.min_eq_left hk]

theorem eq_lengthPrefix_append {data : StorageValue} {m : Option ℕ} (h : lengthPrefix m <+: data) :
    data = lengthPrefix m ++ elements none data m := by
  conv_lhs => rw [← List.take_append_drop (prefixSize m) data]
  rw [elements, ← length_lengthPrefix, ← List.prefix_iff_eq_take.mp h]

/-- The version a `set` writes reads as the value set. -/
theorem versions_cons_setEntry (v : Option StorageValue) (taken : Option Taken) (rest : OverlayedValue) :
    versions taken (setEntry v :: rest) = v :: versions none rest := by
  cases v <;> rfl

theorem holds_cons_setEntry (v : Option StorageValue) {rest : OverlayedValue} (h : Holds none rest) :
    Holds none (setEntry v :: rest) := by
  cases v with
  | some v => exact .set v h
  | none => exact .remove h

/-- Only an append has its buffer taken. -/
theorem Holds.exists_append {t : Taken} {e : StorageEntry} {rest : OverlayedValue}
    (h : Holds (some t) (e :: rest)) : ∃ data n m parentSize, e = .append data n m parentSize := by
  cases h
  exact ⟨_, _, _, _, rfl⟩

/-- `restore_append_to_parent` cuts the buffer to the parent's size, corrected by how much the
prefix grew or shrank while the buffer was away. -/
theorem restoreAppendToParent_append {pd data : StorageValue} {pn size : ℕ} {pm pps m : Option ℕ}
    (hsize : prefixSize pm ≤ size) :
    restoreAppendToParent (.append pd pn pm pps) data m size =
      .append (data.take (size - prefixSize pm + prefixSize m)) pn m pps := by
  simp only [restoreAppendToParent]
  congr 2
  unfold prefixSize at hsize ⊢
  split_ifs <;> omega

/-- Giving a taken buffer back, cut to the parent's size, changes no reading: the parent reads
as it did while the buffer was away. -/
theorem versions_restoreAppendToParent {parent : StorageEntry} {rest : OverlayedValue}
    {data : StorageValue} {m : Option ℕ} {size : ℕ} (hfit : lengthPrefix m <+: data)
    (h : Holds (some (elements none data m, size)) (parent :: rest)) :
    versions none (restoreAppendToParent parent data m size :: rest) =
        versions (some (elements none data m, size)) (parent :: rest) ∧
      Holds none (restoreAppendToParent parent data m size :: rest) := by
  cases h with
  | @append _ pd pn pm pps _ hn hfits hrest =>
    obtain ⟨hsize, -⟩ := hfits
    rw [restoreAppendToParent_append hsize]
    have hel : elements none (data.take (size - prefixSize pm + prefixSize m)) m =
        elements (some (elements none data m, size)) pd pm := by
      simp only [elements, List.drop_take]
      congr 1
      omega
    refine ⟨by simp only [versions, hel], .append hn ?_ (hel ▸ hrest)⟩
    -- the prefix survives the cut, which keeps at least the prefix
    exact List.prefix_take_iff.mpr ⟨hfit, by simp⟩

/-- A buffer taken back with more elements after the kept size reads the same below. -/
theorem versions_taken_extend {above above' : StorageValue} {size : ℕ} {rest : OverlayedValue}
    (hpre : above <+: above') (h : Holds (some (above, size)) rest) :
    versions (some (above', size)) rest = versions (some (above, size)) rest ∧
      Holds (some (above', size)) rest := by
  cases h with
  | @append _ pd pn pm pps _ hn hfits hrest =>
    obtain ⟨hsize, hlen⟩ := hfits
    have hel : elements (some (above', size)) pd pm = elements (some (above, size)) pd pm :=
      take_eq_of_prefix hpre hlen
    refine ⟨by simp only [versions, hel], .append hn ⟨hsize, Nat.le_trans hlen hpre.length_le⟩ (hel ▸ hrest)⟩

/-- Materializing the length rewrites the prefix and changes no reading. -/
theorem versions_materializeInPlace {e : StorageEntry} {rest : OverlayedValue} (h : Holds none (e :: rest)) :
    versions none (e.materializeInPlace :: rest) = versions none (e :: rest) ∧
      Holds none (e.materializeInPlace :: rest) := by
  cases h with
  | set v hrest => exact ⟨rfl, .set v hrest⟩
  | remove hrest => exact ⟨rfl, .remove hrest⟩
  | @append _ data n m ps _ hn hfit hrest =>
    simp only [materializeInPlace]
    split_ifs with hm
    · exact ⟨rfl, .append hn hfit hrest⟩
    · -- the new prefix is the encoded count, in front of the same elements
      have hel : elements none (replaceLength data m n) (some n) = elements none data m := by
        simp [elements, replaceLength, prefixSize, List.drop_left']
      refine ⟨by simp only [versions, hel], .append hn ?_ (hel ▸ hrest)⟩
      simp [Fits, lengthPrefix, replaceLength]

/-- The newest version's `to_option` is its reading. -/
theorem toOption_of_holds {e : StorageEntry} {rest : OverlayedValue} (h : Holds none (e :: rest)) :
    (versions none (e :: rest)).head? = some e.toOption := by
  cases h with
  | set v _ => rfl
  | remove _ => rfl
  | @append _ data n m ps _ _ hfit _ =>
    simp only [versions, List.head?_cons, toOption, materializeInPlace]
    split_ifs with hm
    · -- a prefix that counts every element: the data is already the reading
      subst hm
      exact congrArg (fun d => some (some d)) (eq_lengthPrefix_append hfit).symm
    · rfl

/-- Reading the value gives the newest version's reading and changes no reading. -/
theorem value_versions {txs : OverlayedValue} (h : Holds none txs) :
    (versions none txs).head? = (if txs = [] then none else some txs.value.1) ∧
      versions none txs.value.2 = versions none txs ∧ Holds none txs.value.2 := by
  cases txs with
  | nil => exact ⟨rfl, rfl, .nil⟩
  | cons e rest =>
    have hm := versions_materializeInPlace h
    exact ⟨toOption_of_holds h, hm.1, hm.2⟩

/-- The entry a first append makes of a stored value reads as the value appended to. -/
theorem versions_appendTo (value element : StorageValue) {rest : OverlayedValue} (h : Holds none rest) :
    versions none (appendTo value element :: rest) = some (appendValue (some value) element) :: versions none rest ∧
      Holds none (appendTo value element :: rest) := by
  cases hd : compactDecode value with
  | none =>
    -- a value without a length is replaced by the one-element list
    have happ : appendTo value element = .append element 1 none none := by
      simp [appendTo, extractLength, hd]
    rw [happ]
    refine ⟨?_, .append (by norm_num) List.nil_prefix h⟩
    simp [versions, elements, prefixSize, appendValue, hd]
  | some p =>
    obtain ⟨len, r⟩ := p
    have happ : appendTo value element = .append (value ++ element) (wrappingAddU32 len 1) (some len) none := by
      simp [appendTo, extractLength, hd]
    rw [happ]
    obtain ⟨hlen, rfl⟩ := compactDecode_eq_some_iff.mp hd
    have hel : elements none (compactEncode len ++ (r ++ element)) (some len) = r ++ element := by
      simp [elements, prefixSize, List.drop_left']
    refine ⟨?_, .append (Nat.mod_lt _ (by norm_num)) ?_ h⟩
    · simp [versions, hel, appendValue, compactDecode_compactEncode_append _ _ hlen]
    · simp [Fits, lengthPrefix, List.append_assoc]

end Lemmas

section Operations

variable {txs : OverlayedValue}

/-- `set` writes the newest version. -/
theorem set_versions (h : Holds none txs) (v : Option StorageValue) (first : Bool) :
    versions none (txs.set v first) = writeVersion first v (versions none txs) ∧
      Holds none (txs.set v first) := by
  by_cases hfirst : (first || txs.isEmpty) = true
  · -- a new version over the others
    have hvs : (first || (versions none txs).isEmpty) = true := by
      cases txs <;> simp_all [versions]
    rw [set_of_first hfirst, writeVersion, if_pos hvs]
    exact ⟨versions_cons_setEntry v none txs, holds_cons_setEntry v h⟩
  · obtain ⟨rfl, hne⟩ : first = false ∧ txs ≠ [] := by simpa using hfirst
    obtain ⟨top, rest, rfl⟩ := List.exists_cons_of_ne_nil hne
    rw [writeVersion, if_neg (by cases top <;> simp [versions])]
    cases h with
    | set w hrest =>
      rw [set_cons_of_takenSize rfl]
      exact ⟨versions_cons_setEntry v none rest, holds_cons_setEntry v hrest⟩
    | remove hrest =>
      rw [set_cons_of_takenSize rfl]
      exact ⟨versions_cons_setEntry v none rest, holds_cons_setEntry v hrest⟩
    | @append _ data n m ps _ hn hfit hrest =>
      cases ps with
      | none =>
        rw [set_cons_of_takenSize rfl]
        exact ⟨versions_cons_setEntry v none rest, holds_cons_setEntry v hrest⟩
      | some size =>
        -- the newest version took its buffer: the parent gets it back
        cases rest with
        | nil => cases hrest
        | cons parent rest =>
          obtain ⟨hv, hh⟩ := versions_restoreAppendToParent hfit hrest
          rw [set_append_some, versions_cons_setEntry, hv]
          exact ⟨rfl, holds_cons_setEntry v hh⟩

/-- `append` writes the newest version, the element appended to what the value reads, or to
the stored value when the overlay has no version. -/
theorem append_versions (h : Holds none txs) (element init : StorageValue) (first : Bool) :
    versions none (txs.append element first init) =
        writeVersion first (some (appendValue ((versions none txs).head?.getD (some init)) element))
          (versions none txs) ∧
      Holds none (txs.append element first init) := by
  cases h with
  | nil =>
    cases first <;> simpa [OverlayedValue.append, writeVersion, versions] using versions_appendTo init element .nil
  | set v hrest =>
    cases first
    · simpa [OverlayedValue.append, writeVersion, versions] using versions_appendTo v element hrest
    · simpa [OverlayedValue.append, writeVersion, versions] using versions_appendTo v element (.set v hrest)
  | remove hrest =>
    cases first
    · refine ⟨by simp [OverlayedValue.append, writeVersion, versions, appendValue, elements, prefixSize], ?_⟩
      exact .append (by norm_num) List.nil_prefix hrest
    · refine ⟨by simp [OverlayedValue.append, writeVersion, versions, appendValue, elements, prefixSize], ?_⟩
      exact .append (by norm_num) List.nil_prefix (.remove hrest)
  | @append _ data n m ps rest hn hfit hrest =>
    have hsize : prefixSize m ≤ data.length := by simpa using hfit.length_le
    -- the elements of the newest version, with the element after them
    have hel : elements none (data ++ element) m = elements none data m ++ element := by
      simp [elements, List.drop_append_of_le_length hsize]
    have hval : appendValue (some (compactEncode n ++ elements none data m)) element =
        compactEncode (wrappingAddU32 n 1) ++ (elements none data m ++ element) := by
      simp [appendValue, compactDecode_compactEncode_append _ _ hn]
    have hwrap : wrappingAddU32 n 1 < 2 ^ 32 := Nat.mod_lt _ (by norm_num)
    have hfit' : Fits none (data ++ element) m := hfit.trans (List.prefix_append _ _)
    cases first
    · -- the newest version grows in place; a buffer it took reads the same below
      cases ps with
      | none =>
        refine ⟨by simp [OverlayedValue.append, writeVersion, versions, hel, hval], ?_⟩
        exact .append hwrap hfit' hrest
      | some size =>
        obtain ⟨hv, hh⟩ := versions_taken_extend (List.prefix_append (elements none data m) element) hrest
        refine ⟨?_, .append hwrap hfit' ?_⟩
        · simp [OverlayedValue.append, writeVersion, versions, hel, hval, hv]
        · simpa [hel] using hh
    · -- a first append in the transaction takes the buffer of the version below
      have hlen : data.length - prefixSize m ≤ (elements none (data ++ element) m).length := by
        rw [hel, List.length_append, elements, List.length_drop]
        omega
      have hcut : elements (some (elements none (data ++ element) m, data.length)) [] m = elements none data m := by
        rw [hel]
        exact List.take_left' (by simp [elements])
      refine ⟨?_, .append hwrap hfit' (.append hn ⟨hsize, hlen⟩ ?_)⟩
      · simp [OverlayedValue.append, writeVersion, versions, hval, hcut]
        exact hel
      · simpa [hcut] using hrest

/-- `rollback` drops the newest version. -/
theorem rollback_versions (h : Holds none txs) :
    versions none txs.rollback = (versions none txs).tail ∧ Holds none txs.rollback := by
  cases h with
  | nil => exact ⟨rfl, .nil⟩
  | set v hrest => exact ⟨rfl, hrest⟩
  | remove hrest => exact ⟨rfl, hrest⟩
  | @append _ data n m ps rest _ hfit hrest =>
    cases ps with
    | none => exact ⟨rfl, hrest⟩
    | some size =>
      cases rest with
      | nil => cases hrest
      | cons parent rest => exact versions_restoreAppendToParent hfit hrest

/-- A version that took no buffer leaves the versions below reading on their own. -/
theorem versions_cons_of_takenSize {e : StorageEntry} (he : e.takenSize = none) (taken : Option Taken) :
    ∃ c, ∀ rest, versions taken (e :: rest) = c :: versions none rest := by
  cases e with
  | set v => exact ⟨some v, fun _ => rfl⟩
  | remove => exact ⟨none, fun _ => rfl⟩
  | append data n m ps =>
    simp only [StorageEntry.takenSize] at he
    subst he
    exact ⟨_, fun _ => rfl⟩

theorem Holds.tail_of_takenSize {e : StorageEntry} {rest : OverlayedValue} (h : Holds none (e :: rest))
    (he : e.takenSize = none) : Holds none rest := by
  cases h with
  | set _ hrest => exact hrest
  | remove hrest => exact hrest
  | append _ _ hrest =>
    simp only [StorageEntry.takenSize] at he
    subst he
    exact hrest

theorem Holds.cons_of_takenSize {e : StorageEntry} {rest rest' : OverlayedValue} (h : Holds none (e :: rest))
    (he : e.takenSize = none) (h' : Holds none rest') : Holds none (e :: rest') := by
  cases h with
  | set v _ => exact .set v h'
  | remove _ => exact .remove h'
  | append hn hfit _ =>
    simp only [StorageEntry.takenSize] at he
    subst he
    exact .append hn hfit h'

theorem commit_of_takenSize {top second : StorageEntry} {rest : OverlayedValue}
    (htop : top.takenSize = none) (hsecond : second.takenSize = none) :
    OverlayedValue.commit (top :: second :: rest) = top :: rest := by
  cases top <;> cases second <;> simp_all [StorageEntry.takenSize, OverlayedValue.commit]

theorem commit_of_takenSize_some {top parent : StorageEntry} {rest : OverlayedValue} {data : StorageValue}
    {n : ℕ} {m : Option ℕ} {size : ℕ} (htop : top.takenSize = none) :
    OverlayedValue.commit (top :: .append data n m (some size) :: parent :: rest) =
      top :: restoreAppendToParent parent data m size :: rest := by
  cases top <;> simp_all [StorageEntry.takenSize, OverlayedValue.commit]

/-- `commit` merges the newest version into the one below. -/
theorem commit_versions (h : Holds none txs) :
    versions none txs.commit = commitVersions (versions none txs) ∧ Holds none txs.commit := by
  rcases txs with _ | ⟨top, _ | ⟨second, rest⟩⟩
  · exact ⟨rfl, h⟩
  · rcases top with _ | _ | ⟨data, n, m, _ | size⟩ <;> exact ⟨rfl, h⟩
  · cases htop : top.takenSize with
    | some size =>
      -- two appends merge: the merged one takes its buffer from where the lower one did
      obtain ⟨data, n, m, ps, rfl⟩ : ∃ data n m ps, top = .append data n m ps := by
        cases top <;> simp_all [StorageEntry.takenSize]
      obtain rfl : ps = some size := htop
      cases h with
      | append hn hfit hrest =>
        obtain ⟨d2, n2, m2, keep, rfl⟩ := hrest.exists_append
        cases hrest with
        | append hn2 hfit2 hrest2 =>
          cases keep with
          | none => exact ⟨rfl, .append hn hfit hrest2⟩
          | some q =>
            obtain ⟨hv, hh⟩ := versions_taken_extend
              (List.take_prefix (size - prefixSize m2) (elements none data m)) hrest2
            refine ⟨?_, .append hn hfit hh⟩
            simp only [OverlayedValue.commit, versions, Option.map_some]
            rw [hv]
            rfl
    | none =>
      have hsecond := h.tail_of_takenSize htop
      obtain ⟨c, hc⟩ := versions_cons_of_takenSize htop none
      cases hsec : second.takenSize with
      | none =>
        -- neither took a buffer: the lower one is dropped
        obtain ⟨c2, hc2⟩ := versions_cons_of_takenSize hsec none
        rw [commit_of_takenSize htop hsec, hc, hc, hc2]
        exact ⟨rfl, h.cons_of_takenSize htop (hsecond.tail_of_takenSize hsec)⟩
      | some size =>
        -- the lower one took its buffer from the one below it, which gets it back
        obtain ⟨d2, n2, m2, ps2, rfl⟩ : ∃ d n m ps, second = .append d n m ps := by
          cases second <;> simp_all [StorageEntry.takenSize]
        obtain rfl : ps2 = some size := hsec
        cases hsecond with
        | append hn2 hfit2 hrest2 =>
          cases rest with
          | nil => cases hrest2
          | cons parent rest =>
            obtain ⟨hv, hh⟩ := versions_restoreAppendToParent hfit2 hrest2
            rw [commit_of_takenSize_some htop, hc, hc, hv]
            exact ⟨rfl, h.cons_of_takenSize htop hh⟩

end Operations

end PolkadotSdk.Overlay
