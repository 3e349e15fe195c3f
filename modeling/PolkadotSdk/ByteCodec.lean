import Mathlib.Data.List.Basic

/-!
# Prefix codecs of byte strings

A decoder reads a value from the front of its input and returns the rest. A codec's decoder
reads back what its encoder writes, followed by anything, and accepts nothing else. A codec
also says how much memory its decoder reserves for a value; a decoder run under a memory
limit fails on the values that reach it.
-/

namespace PolkadotSdk.ByteCodec

variable {α : Type}

/-- A decoder: the value read from the front of the input and the rest, or an error. -/
abbrev Decoder (α : Type) := List UInt8 → Except String (α × List UInt8)

/-- A codec whose decoder inverts its encoder, with the memory the decoder reserves. -/
structure Codec (α : Type) where
  encode : α → List UInt8
  decode : Decoder α
  heap : α → ℕ
  decode_encode : ∀ a rest, decode (encode a ++ rest) = .ok (a, rest)
  canonical : ∀ b a rest, decode b = .ok (a, rest) → b = encode a ++ rest

/-- A codec whose decoder is told the version of the value it reads. -/
structure VersionedCodec (α : Type) where
  version : α → UInt8
  encode : α → List UInt8
  decodeWithVersion : UInt8 → Decoder α
  heap : α → ℕ
  decode_encode : ∀ a rest, decodeWithVersion (version a) (encode a ++ rest) = .ok (a, rest)
  canonical : ∀ v b a rest, decodeWithVersion v b = .ok (a, rest) → version a = v ∧ b = encode a ++ rest

/-- A decoder under a memory limit: it fails on a value whose memory reaches the limit. -/
def withMemLimit (heap : α → ℕ) (limit : ℕ) (decode : Decoder α) : Decoder α := fun b =>
  match decode b with
  | .error e => .error e
  | .ok (a, rest) => if heap a < limit then .ok (a, rest) else .error "Heap memory limit exceeded"

theorem Codec.decode_eq_ok_iff (c : Codec α) {b rest : List UInt8} {a : α} :
    c.decode b = .ok (a, rest) ↔ b = c.encode a ++ rest := by
  constructor
  · exact c.canonical b a rest
  · rintro rfl
    exact c.decode_encode a rest

theorem withMemLimit_eq_ok_iff {heap : α → ℕ} {limit : ℕ} {decode : Decoder α} {b rest : List UInt8} {a : α} :
    withMemLimit heap limit decode b = .ok (a, rest) ↔ decode b = .ok (a, rest) ∧ heap a < limit := by
  unfold withMemLimit
  cases h : decode b with
  | error e => simp
  | ok r =>
    obtain ⟨a', rest'⟩ := r
    dsimp only
    by_cases hl : heap a' < limit
    · rw [if_pos hl]
      constructor
      · intro he
        cases he
        exact ⟨rfl, hl⟩
      · rintro ⟨he, _⟩
        exact he
    · rw [if_neg hl]
      constructor
      · intro he
        cases he
      · rintro ⟨he, hl'⟩
        cases he
        exact absurd hl' hl

/-- Under a limit the memory of the value stays below, a codec still reads back its encoding. -/
theorem Codec.withMemLimit_encode (c : Codec α) {limit : ℕ} (a : α) (rest : List UInt8) (h : c.heap a < limit) :
    withMemLimit c.heap limit c.decode (c.encode a ++ rest) = .ok (a, rest) :=
  withMemLimit_eq_ok_iff.mpr ⟨c.decode_encode a rest, h⟩

/-- The bytes a decoder read are the input without the rest it returned. -/
theorem take_sub_length_of_eq_append {b e rest : List UInt8} (h : b = e ++ rest) :
    b.take (b.length - rest.length) = e := by
  subst h
  rw [List.length_append, Nat.add_sub_cancel, List.take_left]

/-- A single byte, `u8`. -/
def Codec.byte : Codec UInt8 where
  encode a := [a]
  decode
    | [] => .error "Not enough data to fill buffer"
    | a :: rest => .ok (a, rest)
  heap _ := 0
  decode_encode _ _ := rfl
  canonical b a rest h := by
    cases b with
    | nil => cases h
    | cons x xs =>
      cases h
      rfl

theorem Codec.byte_decode_cons (a : UInt8) (rest : List UInt8) : Codec.byte.decode (a :: rest) = .ok (a, rest) := rfl

/-- `()`, which writes nothing. -/
def Codec.unit : Codec Unit where
  encode _ := []
  decode b := .ok ((), b)
  heap _ := 0
  decode_encode _ _ := rfl
  canonical b a rest h := by
    cases h
    rfl

end PolkadotSdk.ByteCodec
