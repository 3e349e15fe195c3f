import PolkadotSdk.ByteCodec
import PolkadotSdk.ScaleCompact

/-!
# The codec of `UncheckedExtrinsic`

A model of `Preamble`'s `Encode` and `Decode` and of `UncheckedExtrinsic`'s, over codecs of
its parts: address, signature, the version-0 extension, the other extension versions and the
call. An extrinsic is a SCALE `Vec<u8>`: a `Compact<u32>` length, then the preamble, whose
first byte holds a six-bit version and a two-bit type, then the call. `decode_with_len`
decodes the preamble and the call each under the memory limit `MAX_CALL_SIZE + 1`, keeps the
call's bytes (`CloneBytes`) and checks the prefix against the bytes it read. It reserves the
call's buffer with `Vec::with_capacity(len)` for the untrusted `len`, which panics above
`isize::MAX` bytes: the target's pointer width is a parameter of the model, and the decoder
returns the bytes it reserves.
-/

namespace PolkadotSdk.Extrinsic

open ByteCodec ScaleCompact

/-- `EXTRINSIC_FORMAT_VERSION`. -/
def extrinsicFormatVersion : UInt8 := 5

/-- `LEGACY_EXTRINSIC_FORMAT_VERSION`. -/
def legacyExtrinsicFormatVersion : UInt8 := 4

def versionMask : UInt8 := 0b0011_1111
def typeMask : UInt8 := 0b1100_0000
def bareExtrinsic : UInt8 := 0b0000_0000
def signedExtrinsic : UInt8 := 0b1000_0000
def generalExtrinsic : UInt8 := 0b0100_0000

/-- `EXTENSION_V0_VERSION`. -/
def extensionV0Version : UInt8 := 0

/-- `DEFAULT_MAX_CALL_SIZE`, 16 MiB. -/
def defaultMaxCallSize : ℕ := 16 * 1024 * 1024

/-- `isize::MAX` on a target whose `usize` has `bits` bits. -/
def isizeMax (bits : ℕ) : ℕ := 2 ^ (bits - 1) - 1

/-- `ExtensionVariant`. -/
inductive ExtensionVariant (Ext0 ExtO : Type) where
  | v0 (ext : Ext0)
  | other (ext : ExtO)
  deriving DecidableEq

/-- `Preamble`. -/
inductive Preamble (Addr Sig Ext0 ExtO : Type) where
  | bare (extrinsicVersion : UInt8)
  | signed (address : Addr) (signature : Sig) (ext : Ext0)
  | general (ext : ExtensionVariant Ext0 ExtO)
  deriving DecidableEq

/-- `UncheckedExtrinsic`. -/
structure UncheckedExtrinsic (Addr Call Sig Ext0 ExtO : Type) where
  preamble : Preamble Addr Sig Ext0 ExtO
  function : Call
  encodedCall : Option (List UInt8)
  encodedLen : Option ℕ
  deriving DecidableEq

/-- The codecs of an extrinsic's parts. -/
structure Components (Addr Call Sig Ext0 ExtO : Type) where
  address : Codec Addr
  call : Codec Call
  signature : Codec Sig
  extensionV0 : Codec Ext0
  otherVersions : VersionedCodec ExtO

/-- How a decode ends: with a value, with an error, or with a panic. -/
inductive Outcome (α : Type) where
  | ok (a : α)
  | err (msg : String)
  | panic
  deriving DecidableEq

variable {Addr Call Sig Ext0 ExtO : Type} (K : Components Addr Call Sig Ext0 ExtO)

namespace ExtensionVariant

/-- `PipelineVersion::version`. -/
def version : ExtensionVariant Ext0 ExtO → UInt8
  | .v0 _ => extensionV0Version
  | .other ext => K.otherVersions.version ext

def encode : ExtensionVariant Ext0 ExtO → List UInt8
  | .v0 ext => K.extensionV0.encode ext
  | .other ext => K.otherVersions.encode ext

def heap : ExtensionVariant Ext0 ExtO → ℕ
  | .v0 ext => K.extensionV0.heap ext
  | .other ext => K.otherVersions.heap ext

/-- `DecodeWithVersion for ExtensionVariant`: version 0 is the version-0 extension. -/
def decodeWithVersion (extensionVersion : UInt8) : Decoder (ExtensionVariant Ext0 ExtO) := fun input =>
  if extensionVersion = extensionV0Version then
    match K.extensionV0.decode input with
    | .error e => .error e
    | .ok (ext, input) => .ok (.v0 ext, input)
  else
    match K.otherVersions.decodeWithVersion extensionVersion input with
    | .error e => .error e
    | .ok (ext, input) => .ok (.other ext, input)

end ExtensionVariant

namespace Preamble

/-- `Decode for Preamble`. -/
def decode : Decoder (Preamble Addr Sig Ext0 ExtO)
  | [] => .error "Not enough data to fill buffer"
  | versionAndType :: input =>
    let version := versionAndType &&& versionMask
    let xtType := versionAndType &&& typeMask
    if legacyExtrinsicFormatVersion ≤ version ∧ version ≤ extrinsicFormatVersion ∧ xtType = bareExtrinsic then
      .ok (.bare version, input)
    else if version = legacyExtrinsicFormatVersion ∧ xtType = signedExtrinsic then
      match K.address.decode input with
      | .error e => .error e
      | .ok (address, input) =>
        match K.signature.decode input with
        | .error e => .error e
        | .ok (signature, input) =>
          match K.extensionV0.decode input with
          | .error e => .error e
          | .ok (ext, input) => .ok (.signed address signature ext, input)
    else if version = extrinsicFormatVersion ∧ xtType = generalExtrinsic then
      -- `ExtensionVersion::decode`, a `u8`
      match Codec.byte.decode input with
      | .error e => .error e
      | .ok (extVersion, input) =>
        match ExtensionVariant.decodeWithVersion K extVersion input with
        | .error e => .error e
        | .ok (ext, input) => .ok (.general ext, input)
    else .error "Invalid transaction version"

/-- `Encode for Preamble`. -/
def encode : Preamble Addr Sig Ext0 ExtO → List UInt8
  | .bare extrinsicVersion => [extrinsicVersion ||| bareExtrinsic]
  | .signed address signature ext =>
    [legacyExtrinsicFormatVersion ||| signedExtrinsic] ++ K.address.encode address ++
      K.signature.encode signature ++ K.extensionV0.encode ext
  | .general ext => [extrinsicFormatVersion ||| generalExtrinsic] ++ [ext.version K] ++ ext.encode K

/-- The memory the preamble's decoders reserve. -/
def heap : Preamble Addr Sig Ext0 ExtO → ℕ
  | .bare _ => 0
  | .signed address signature ext => K.address.heap address + K.signature.heap signature + K.extensionV0.heap ext
  | .general ext => ext.heap K

/-- The preambles the encoder and the decoder agree on: a bare extrinsic of version 4 or 5, and
an extension of another version than 0 only in the `Other` variant. -/
def WellFormed : Preamble Addr Sig Ext0 ExtO → Prop
  | .bare extrinsicVersion => extrinsicVersion = legacyExtrinsicFormatVersion ∨ extrinsicVersion = extrinsicFormatVersion
  | .signed _ _ _ => True
  | .general (.v0 _) => True
  | .general (.other ext) => K.otherVersions.version ext ≠ extensionV0Version

end Preamble

set_option maxRecDepth 20000 in
theorem nat_eq_or_masks : ∀ n < 256, n = (n &&& 63) ||| (n &&& 192) := by decide

/-- A byte is its version bits and its type bits. -/
theorem byte_eq_or_masks (x : UInt8) : x = (x &&& versionMask) ||| (x &&& typeMask) := by
  apply UInt8.toNat_inj.mp
  rw [UInt8.toNat_or, UInt8.toNat_and, UInt8.toNat_and, show versionMask.toNat = 63 from rfl,
    show typeMask.toNat = 192 from rfl]
  exact nat_eq_or_masks x.toNat x.toNat_lt

theorem byte_of_masks {x v t : UInt8} (hv : x &&& versionMask = v) (ht : x &&& typeMask = t) : x = v ||| t := by
  rw [← hv, ← ht]
  exact byte_eq_or_masks x

/-- The versions from `LEGACY_EXTRINSIC_FORMAT_VERSION` to `EXTRINSIC_FORMAT_VERSION`. -/
theorem version_cases {v : UInt8} (h4 : legacyExtrinsicFormatVersion ≤ v) (h5 : v ≤ extrinsicFormatVersion) :
    v = legacyExtrinsicFormatVersion ∨ v = extrinsicFormatVersion := by
  rw [UInt8.le_iff_toNat_le] at h4 h5
  have h4' : legacyExtrinsicFormatVersion.toNat = 4 := rfl
  have h5' : extrinsicFormatVersion.toNat = 5 := rfl
  rcases (by omega : v.toNat = 4 ∨ v.toNat = 5) with h | h
  · exact Or.inl (UInt8.toNat_inj.mp (h.trans h4'.symm))
  · exact Or.inr (UInt8.toNat_inj.mp (h.trans h5'.symm))

namespace ExtensionVariant

/-- What `decode_with_version` accepts is an extension of that version, encoded, followed by the
rest; the `Other` variant never has version 0. -/
theorem eq_encode_of_decodeWithVersion {v : UInt8} {b rest : List UInt8} {ext : ExtensionVariant Ext0 ExtO}
    (h : decodeWithVersion K v b = .ok (ext, rest)) :
    ext.version K = v ∧ b = ext.encode K ++ rest ∧ (Preamble.general ext).WellFormed K := by
  unfold decodeWithVersion at h
  by_cases hv : v = extensionV0Version
  · rw [if_pos hv] at h
    split at h
    · cases h
    · rename_i e input he
      cases h
      exact ⟨hv.symm, K.extensionV0.canonical _ _ _ he, trivial⟩
  · rw [if_neg hv] at h
    split at h
    · cases h
    · rename_i o input ho
      cases h
      obtain ⟨hver, hb⟩ := K.otherVersions.canonical _ _ _ _ ho
      refine ⟨hver, hb, ?_⟩
      show K.otherVersions.version o ≠ extensionV0Version
      rw [hver]
      exact hv

end ExtensionVariant

namespace Preamble

/-- The decoder reads back every preamble of the forms it knows. -/
theorem decode_encode {p : Preamble Addr Sig Ext0 ExtO} (hp : p.WellFormed K) (rest : List UInt8) :
    decode K (p.encode K ++ rest) = .ok (p, rest) := by
  cases p with
  | bare extrinsicVersion =>
    rcases hp with rfl | rfl <;> rfl
  | signed address signature ext =>
    simp only [encode, List.append_assoc, List.cons_append, List.nil_append]
    rw [decode.eq_2]
    rw [if_neg (by decide), if_pos (by decide), K.address.decode_encode]
    dsimp only
    rw [K.signature.decode_encode]
    dsimp only
    rw [K.extensionV0.decode_encode]
  | general ext =>
    cases ext with
    | v0 ext =>
      simp only [encode, ExtensionVariant.version, ExtensionVariant.encode, List.cons_append, List.nil_append]
      rw [decode.eq_2]
      rw [if_neg (by decide), if_neg (by decide), if_pos (by decide), Codec.byte_decode_cons]
      dsimp only
      rw [ExtensionVariant.decodeWithVersion, if_pos rfl, K.extensionV0.decode_encode]
    | other ext =>
      simp only [encode, ExtensionVariant.version, ExtensionVariant.encode, List.cons_append, List.nil_append]
      rw [decode.eq_2]
      rw [if_neg (by decide), if_neg (by decide), if_pos (by decide), Codec.byte_decode_cons]
      dsimp only
      rw [ExtensionVariant.decodeWithVersion, if_neg hp, K.otherVersions.decode_encode]

/-- What the decoder accepts is a preamble of the forms it knows, encoded, followed by the rest. -/
theorem eq_encode_of_decode {b rest : List UInt8} {p : Preamble Addr Sig Ext0 ExtO}
    (h : decode K b = .ok (p, rest)) : p.WellFormed K ∧ b = p.encode K ++ rest := by
  match b with
  | [] =>
    rw [decode.eq_1] at h
    cases h
  | x :: input =>
    rw [decode.eq_2] at h
    split_ifs at h with hbare hsigned hgeneral
    · -- `Bare`: the byte is the version with the type bits clear
      cases h
      obtain ⟨h4, h5, ht⟩ := hbare
      exact ⟨version_cases h4 h5, by rw [encode, ← byte_of_masks rfl ht]; rfl⟩
    · -- `Signed`: the byte is `0x84`, then the address, the signature and the extension
      obtain ⟨hv, ht⟩ := hsigned
      split at h
      · cases h
      · rename_i address input₁ ha
        split at h
        · cases h
        · rename_i signature input₂ hs
          split at h
          · cases h
          · rename_i ext input₃ he
            cases h
            refine ⟨trivial, ?_⟩
            rw [encode, byte_of_masks hv ht, K.address.canonical _ _ _ ha, K.signature.canonical _ _ _ hs,
              K.extensionV0.canonical _ _ _ he]
            simp only [List.append_assoc, List.cons_append, List.nil_append]
    · -- `General`: the byte is `0x45`, then the extension's version and the extension
      obtain ⟨hv, ht⟩ := hgeneral
      split at h
      · cases h
      · rename_i extVersion input₁ hb
        split at h
        · cases h
        · rename_i ext input₂ hx
          cases h
          obtain ⟨hver, hinput, hwf⟩ := ExtensionVariant.eq_encode_of_decodeWithVersion K hx
          refine ⟨hwf, ?_⟩
          rw [encode, byte_of_masks hv ht, Codec.byte.canonical _ _ _ hb, hinput, hver]
          rfl

/-- The decoder refuses every first byte but `0x04`, `0x05`, `0x84` and `0x45`. -/
theorem decode_of_invalid {x : UInt8} (hx : x ≠ 0x04 ∧ x ≠ 0x05 ∧ x ≠ 0x84 ∧ x ≠ 0x45) (input : List UInt8) :
    decode K (x :: input) = .error "Invalid transaction version" := by
  rw [decode.eq_2, if_neg, if_neg, if_neg]
  · rintro ⟨hv, ht⟩
    exact hx.2.2.2 ((byte_of_masks hv ht).trans (by decide))
  · rintro ⟨hv, ht⟩
    exact hx.2.2.1 ((byte_of_masks hv ht).trans (by decide))
  · rintro ⟨h4, h5, ht⟩
    rcases version_cases h4 h5 with h | h
    · exact hx.1 ((byte_of_masks h ht).trans (by decide))
    · exact hx.2.1 ((byte_of_masks h ht).trans (by decide))

end Preamble

namespace UncheckedExtrinsic

/-- `encode_without_prefix`: the kept call bytes when there are some. -/
def encodeWithoutPrefix (x : UncheckedExtrinsic Addr Call Sig Ext0 ExtO) : List UInt8 :=
  x.preamble.encode K ++
    match x.encodedCall with
    | some call => call
    | none => K.call.encode x.function

/-- `Encode for UncheckedExtrinsic`, whose length prefix is `tmp.len() as u32`. -/
def encode (x : UncheckedExtrinsic Addr Call Sig Ext0 ExtO) : List UInt8 :=
  compactEncode ((encodeWithoutPrefix K x).length % 2 ^ 32) ++ encodeWithoutPrefix K x

/-- `decode_with_len` with the limit `maxCallSize` on a target whose `usize` has `bits` bits:
the outcome and the rest of the input, and the bytes reserved for the call. -/
def decodeWithLen (maxCallSize bits : ℕ) (input : List UInt8) (len : ℕ) :
    Outcome (UncheckedExtrinsic Addr Call Sig Ext0 ExtO × List UInt8) × ℕ :=
  match withMemLimit (Preamble.heap K) (maxCallSize + 1) (Preamble.decode K) input with
  | .error e => (.err e, 0)
  | .ok (preamble, afterPreamble) =>
    -- `Vec::with_capacity(len)` panics with a capacity overflow above `isize::MAX` bytes
    if isizeMax bits < len then (.panic, 0)
    else
      match withMemLimit K.call.heap (maxCallSize + 1) K.call.decode afterPreamble with
      | .error e => (.err e, len)
      | .ok (function, rest) =>
        if input.length - rest.length ≠ len then (.err "Invalid length prefix", len)
        else
          -- `CloneBytes` has kept the bytes the call decoder read
          (.ok (⟨preamble, function, some (afterPreamble.take (afterPreamble.length - rest.length)), some len⟩,
            rest), len)

/-- `Decode for UncheckedExtrinsic`. -/
def decode (maxCallSize bits : ℕ) (b : List UInt8) :
    Outcome (UncheckedExtrinsic Addr Call Sig Ext0 ExtO × List UInt8) × ℕ :=
  match compactDecode b with
  | none => (.err "Could not decode Compact<u32>", 0)
  | some (len, input) => decodeWithLen K maxCallSize bits input len

variable (maxCallSize bits : ℕ)

/-- Once the preamble decodes, a `len` above `isize::MAX` makes `Vec::with_capacity` panic. -/
theorem decodeWithLen_of_capacity_overflow {input mid : List UInt8} {len : ℕ} {p : Preamble Addr Sig Ext0 ExtO}
    (hp : withMemLimit (Preamble.heap K) (maxCallSize + 1) (Preamble.decode K) input = .ok (p, mid))
    (hcap : isizeMax bits < len) : decodeWithLen K maxCallSize bits input len = (.panic, 0) := by
  rw [decodeWithLen, hp]
  dsimp only
  rw [if_pos hcap]

/-- Once the preamble decodes, `decode_with_len` reserves `len` bytes for the call, whatever
the input holds. -/
theorem decodeWithLen_reserves {input mid : List UInt8} {len : ℕ} {p : Preamble Addr Sig Ext0 ExtO}
    (hp : withMemLimit (Preamble.heap K) (maxCallSize + 1) (Preamble.decode K) input = .ok (p, mid))
    (hcap : len ≤ isizeMax bits) : (decodeWithLen K maxCallSize bits input len).2 = len := by
  rw [decodeWithLen, hp]
  dsimp only
  rw [if_neg (Nat.not_lt.mpr hcap)]
  split
  · rfl
  · split <;> rfl

/-- When the preamble and the call decode, `decode_with_len` compares the bytes they read with
`len`, and keeps the call's bytes. -/
theorem decodeWithLen_of_call {input mid rest : List UInt8} {len : ℕ} {p : Preamble Addr Sig Ext0 ExtO}
    {f : Call} (hp : withMemLimit (Preamble.heap K) (maxCallSize + 1) (Preamble.decode K) input = .ok (p, mid))
    (hcap : len ≤ isizeMax bits) (hc : withMemLimit K.call.heap (maxCallSize + 1) K.call.decode mid = .ok (f, rest)) :
    decodeWithLen K maxCallSize bits input len =
      if input.length - rest.length ≠ len then (.err "Invalid length prefix", len)
      else (.ok (⟨p, f, some (mid.take (mid.length - rest.length)), some len⟩, rest), len) := by
  rw [decodeWithLen, hp]
  dsimp only
  rw [if_neg (Nat.not_lt.mpr hcap), hc]

/-- An extrinsic whose kept call bytes are its call's encoding, whose parts decode within the
memory limit and whose body fits a `u32` and `Vec::with_capacity` is read back: the same
preamble and call, the call's encoding kept, and the body's length. -/
theorem decode_encode {x : UncheckedExtrinsic Addr Call Sig Ext0 ExtO} (hp : x.preamble.WellFormed K)
    (hcall : x.encodedCall = none ∨ x.encodedCall = some (K.call.encode x.function))
    (hpheap : x.preamble.heap K < maxCallSize + 1) (hcheap : K.call.heap x.function < maxCallSize + 1)
    (hlen : (encodeWithoutPrefix K x).length < 2 ^ 32) (hcap : (encodeWithoutPrefix K x).length ≤ isizeMax bits)
    (rest : List UInt8) :
    decode K maxCallSize bits (encode K x ++ rest) =
      (.ok (⟨x.preamble, x.function, some (K.call.encode x.function), some (encodeWithoutPrefix K x).length⟩, rest),
        (encodeWithoutPrefix K x).length) := by
  -- the body is the preamble's encoding and the call's
  have hbody : encodeWithoutPrefix K x = x.preamble.encode K ++ K.call.encode x.function := by
    unfold encodeWithoutPrefix
    rcases hcall with h | h <;> rw [h]
  have hcompact : compactDecode (encode K x ++ rest) =
      some ((encodeWithoutPrefix K x).length, encodeWithoutPrefix K x ++ rest) := by
    rw [encode, Nat.mod_eq_of_lt hlen, List.append_assoc]
    exact compactDecode_compactEncode_append _ _ hlen
  have hpre : withMemLimit (Preamble.heap K) (maxCallSize + 1) (Preamble.decode K) (encodeWithoutPrefix K x ++ rest) =
      .ok (x.preamble, K.call.encode x.function ++ rest) := by
    rw [hbody, List.append_assoc]
    exact withMemLimit_eq_ok_iff.mpr ⟨Preamble.decode_encode K hp _, hpheap⟩
  have hread : (encodeWithoutPrefix K x ++ rest).length - rest.length = (encodeWithoutPrefix K x).length := by
    rw [List.length_append, Nat.add_sub_cancel]
  rw [decode, hcompact]
  dsimp only
  rw [decodeWithLen_of_call K maxCallSize bits hpre hcap (K.call.withMemLimit_encode x.function rest hcheap),
    if_neg (by rw [hread]; exact fun h => h rfl), take_sub_length_of_eq_append rfl]

/-- What the decoder accepts is the encoding of what it returns, followed by the rest: it keeps
the call's bytes, and the body's length. -/
theorem eq_encode_of_decode {b rest : List UInt8} {x : UncheckedExtrinsic Addr Call Sig Ext0 ExtO} {reserved : ℕ}
    (h : decode K maxCallSize bits b = (.ok (x, rest), reserved)) :
    b = encode K x ++ rest ∧ x.encodedCall = some (K.call.encode x.function) ∧
      x.encodedLen = some (encodeWithoutPrefix K x).length := by
  unfold decode at h
  split at h
  · cases h
  · rename_i len input hcd
    obtain ⟨hlen, hb⟩ := eq_compactEncode_append_of_compactDecode hcd
    unfold decodeWithLen at h
    split at h
    · cases h
    · rename_i p mid hp
      have hinput := (Preamble.eq_encode_of_decode K (withMemLimit_eq_ok_iff.mp hp).1).2
      split at h
      · cases h
      · split at h
        · cases h
        · rename_i f rest' hc
          have hmid := K.call.canonical _ _ _ (withMemLimit_eq_ok_iff.mp hc).1
          split at h
          · cases h
          · rename_i hcount
            simp only [Prod.mk.injEq, Outcome.ok.injEq] at h
            obtain ⟨⟨rfl, rfl⟩, rfl⟩ := h
            -- the bytes read are the preamble's and the call's: the prefix holds their length
            have hlen' : len = (p.encode K ++ K.call.encode f).length := by
              rw [hinput, hmid] at hcount
              simp only [List.length_append] at hcount ⊢
              omega
            have hbody : encodeWithoutPrefix K ⟨p, f, some (mid.take (mid.length - rest'.length)), some len⟩ =
                p.encode K ++ K.call.encode f := by
              rw [encodeWithoutPrefix, take_sub_length_of_eq_append hmid]
            refine ⟨?_, by rw [take_sub_length_of_eq_append hmid], by rw [hbody, hlen']⟩
            rw [encode, hbody, ← hlen', Nat.mod_eq_of_lt hlen, hb, hinput, hmid]
            simp only [List.append_assoc]

/-- When the preamble and the call decode and the prefix differs from the bytes they read,
the decoder fails with `Invalid length prefix`, unless `Vec::with_capacity` has panicked. -/
theorem decode_of_length_ne {b input mid rest : List UInt8} {len : ℕ} {p : Preamble Addr Sig Ext0 ExtO} {f : Call}
    (hcd : compactDecode b = some (len, input))
    (hp : withMemLimit (Preamble.heap K) (maxCallSize + 1) (Preamble.decode K) input = .ok (p, mid))
    (hc : withMemLimit K.call.heap (maxCallSize + 1) K.call.decode mid = .ok (f, rest))
    (hcap : len ≤ isizeMax bits) (hne : input.length - rest.length ≠ len) :
    decode K maxCallSize bits b = (.err "Invalid length prefix", len) := by
  rw [decode, hcd]
  dsimp only
  rw [decodeWithLen_of_call K maxCallSize bits hp hcap hc, if_pos hne]

/-- Six bytes, a length prefix and the bare preamble `0x04`, make the decoder reserve the
prefix's length for the call, up to `u32::MAX` bytes; on a 32-bit target a length above
`isize::MAX` makes it panic. -/
theorem decode_reserves_length_prefix {len : ℕ} (hlen : len < 2 ^ 32) :
    (compactEncode len ++ [0x04]).length ≤ 6 ∧
      (decode K maxCallSize 64 (compactEncode len ++ [0x04])).2 = len ∧
      (isizeMax 32 < len → decode K maxCallSize 32 (compactEncode len ++ [0x04]) = (.panic, 0)) := by
  have hcd := compactDecode_compactEncode_append len [0x04] hlen
  -- the bare preamble reserves nothing and leaves nothing for the call
  have hpre : withMemLimit (Preamble.heap K) (maxCallSize + 1) (Preamble.decode K) [0x04] =
      .ok (.bare legacyExtrinsicFormatVersion, []) :=
    withMemLimit_eq_ok_iff.mpr
      ⟨Preamble.decode_encode K (p := .bare legacyExtrinsicFormatVersion) (Or.inl rfl) [], Nat.succ_pos _⟩
  refine ⟨?_, ?_, ?_⟩
  · rw [List.length_append, length_compactEncode]
    have := compactLen_le len
    simp only [List.length_singleton]
    omega
  · rw [decode, hcd]
    exact decodeWithLen_reserves K maxCallSize 64 hpre (by unfold isizeMax; omega)
  · intro hcap
    rw [decode, hcd]
    exact decodeWithLen_of_capacity_overflow K maxCallSize 32 hpre hcap

end UncheckedExtrinsic

/-- `InvalidVersion`: no value, and `decode_with_version` always fails. -/
def invalidVersion : VersionedCodec Empty where
  version e := e.elim
  encode e := e.elim
  decodeWithVersion _ _ := .error "Invalid extension version"
  heap e := e.elim
  decode_encode e := e.elim
  canonical _ _ _ _ h := by cases h

/-- Extrinsics with no address, signature or extension data, whose call is one byte. -/
def byteCallComponents : Components Unit UInt8 Unit Unit Empty :=
  ⟨Codec.unit, Codec.byte, Codec.unit, Codec.unit, invalidVersion⟩

theorem decode_reserves_u32_max :
    (2 ^ 32 - 1 : ℕ) < 2 ^ 32 ∧ (compactEncode (2 ^ 32 - 1) ++ [0x04]).length ≤ 6 ∧
      (UncheckedExtrinsic.decode byteCallComponents defaultMaxCallSize 64
        (compactEncode (2 ^ 32 - 1) ++ [0x04])).2 = 2 ^ 32 - 1 ∧
      (isizeMax 32 < 2 ^ 32 - 1 → UncheckedExtrinsic.decode byteCallComponents defaultMaxCallSize 32
        (compactEncode (2 ^ 32 - 1) ++ [0x04]) = (.panic, 0)) := by
  have hlen : (2 ^ 32 - 1 : ℕ) < 2 ^ 32 := by decide
  exact ⟨hlen, UncheckedExtrinsic.decode_reserves_length_prefix byteCallComponents defaultMaxCallSize hlen⟩

end PolkadotSdk.Extrinsic
