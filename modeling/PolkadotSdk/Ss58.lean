import Mathlib.Tactic.Ring
import Mathlib.Data.List.Basic

/-!
# SS58 addresses

A model of `Ss58Codec::to_ss58check_with_version` and `from_ss58check_with_version`: an
address is the base-58 string of a one- or two-byte prefix holding the 14-bit format, the
key's bytes and two bytes of `ss58hash` of both. The key type, base-58 and the hash are
parameters: the key type is a `ByteArray` of `LEN` bytes, base-58 is a bijection between
strings and byte vectors, and the hash is any function with at least two bytes of output.
-/

namespace PolkadotSdk.Ss58

/-- `PublicError`, the variants the decoder returns. -/
inductive PublicError where
  | badBase58
  | badLength
  | invalidPrefix
  | formatNotAllowed
  | invalidChecksum
  deriving DecidableEq, Repr

/-- A key type implementing `ByteArray`: `LEN` bytes, `as_ref` and `from_slice`. -/
structure ByteArrayCodec (K : Type) where
  len : ℕ
  asRef : K → List UInt8
  fromSlice : List UInt8 → Option K
  length_asRef : ∀ k, (asRef k).length = len
  fromSlice_asRef : ∀ k, fromSlice (asRef k) = some k
  asRef_of_fromSlice : ∀ b k, fromSlice b = some k → asRef k = b

/-- Base-58 as a bijection between the strings it accepts and byte vectors. -/
structure Base58 (S : Type) where
  encode : List UInt8 → S
  decode : S → Option (List UInt8)
  decode_encode : ∀ v, decode (encode v) = some v
  encode_of_decode : ∀ s v, decode s = some v → encode v = s

/-- The two bytes of an ident from 64 to 16383: the upper six bits of its lower byte, then its
two lowest bits and its upper byte. -/
def identBytes (ident : UInt16) : UInt8 × UInt8 :=
  let first := (ident &&& 0b0000_0000_1111_1100).toUInt8 >>> 2
  let second := (ident >>> 8).toUInt8 ||| ((ident &&& 0b0000_0000_0000_0011).toUInt8 <<< 6)
  (first ||| 0b01000000, second)

/-- The ident the decoder reads from a first byte in `64..=127` and the second byte. -/
def identOfBytes (d0 d1 : UInt8) : UInt16 :=
  let lower := (d0 <<< 2) ||| (d1 >>> 6)
  let upper := d1 &&& 0b00111111
  lower.toUInt16 ||| (upper.toUInt16 <<< 8)

/-- The decoder reads `4 * (d0 % 64) + d1 / 64` as the lower byte and `d1 % 64` as the upper. -/
theorem toNat_identOfBytes (d0 d1 : UInt8) :
    (identOfBytes d0 d1).toNat = 4 * (d0.toNat % 64) + d1.toNat / 64 + 256 * (d1.toNat % 64) := by
  have h0 := d0.toNat_lt
  have h1 := d1.toNat_lt
  have hshl : (d0 <<< 2).toNat = 4 * (d0.toNat % 64) := by
    rw [UInt8.toNat_shiftLeft, show (2 : UInt8).toNat % 8 = 2 from rfl, Nat.shiftLeft_eq]
    omega
  have hshr : (d1 >>> 6).toNat = d1.toNat / 64 := by
    rw [UInt8.toNat_shiftRight, Nat.shiftRight_eq_div_pow]
    simp
  have hlower : ((d0 <<< 2) ||| (d1 >>> 6)).toNat = 4 * (d0.toNat % 64) + d1.toNat / 64 := by
    rw [UInt8.toNat_or, hshl, hshr]
    exact (Nat.two_pow_add_eq_or_of_lt (by omega : d1.toNat / 64 < 2 ^ 2) _).symm
  have hupper : (d1 &&& 0b00111111).toNat = d1.toNat % 64 := by
    rw [UInt8.toNat_and, show (0b00111111 : UInt8).toNat = 2 ^ 6 - 1 from rfl, Nat.and_two_pow_sub_one_eq_mod]
  have hhigh : ((d1 &&& 0b00111111).toUInt16 <<< 8).toNat = 256 * (d1.toNat % 64) := by
    rw [UInt16.toNat_shiftLeft, UInt8.toNat_toUInt16, hupper, show (8 : UInt16).toNat % 16 = 8 from rfl,
      Nat.shiftLeft_eq]
    omega
  unfold identOfBytes
  rw [UInt16.toNat_or, UInt8.toNat_toUInt16, hlower, hhigh, Nat.or_comm]
  rw [← Nat.two_pow_add_eq_or_of_lt (by omega : 4 * (d0.toNat % 64) + d1.toNat / 64 < 2 ^ 8)]
  omega

theorem toNat_identBytes_fst (ident : UInt16) : (identBytes ident).1.toNat = ident.toNat / 4 % 64 + 64 := by
  have hand : (ident.toNat &&& 252) >>> 2 = ident.toNat / 4 % 64 := by
    rw [Nat.shiftRight_and_distrib, show (252 : ℕ) >>> 2 = 2 ^ 6 - 1 from rfl, Nat.and_two_pow_sub_one_eq_mod,
      Nat.shiftRight_eq_div_pow]
  have hlt : ident.toNat &&& 252 < 256 := Nat.lt_of_le_of_lt Nat.and_le_right (by decide)
  have hfirst : ((ident &&& 0b0000_0000_1111_1100).toUInt8 >>> 2).toNat = ident.toNat / 4 % 64 := by
    rw [UInt8.toNat_shiftRight, UInt16.toNat_toUInt8, UInt16.toNat_and]
    rw [show (0b0000_0000_1111_1100 : UInt16).toNat = 252 from rfl, Nat.mod_eq_of_lt hlt]
    exact hand
  unfold identBytes
  rw [UInt8.toNat_or, hfirst, show (0b01000000 : UInt8).toNat = 2 ^ 6 * 1 from rfl, Nat.or_comm,
    ← Nat.two_pow_add_eq_or_of_lt (by omega : ident.toNat / 4 % 64 < 2 ^ 6)]
  omega

theorem toNat_identBytes_snd {ident : UInt16} (h : ident.toNat < 2 ^ 14) :
    (identBytes ident).2.toNat = 64 * (ident.toNat % 4) + ident.toNat / 256 := by
  have hhigh : (ident >>> 8).toUInt8.toNat = ident.toNat / 256 := by
    rw [UInt16.toNat_toUInt8, UInt16.toNat_shiftRight, show (8 : UInt16).toNat % 16 = 8 from rfl,
      Nat.shiftRight_eq_div_pow]
    omega
  have hlow : ((ident &&& 0b0000_0000_0000_0011).toUInt8 <<< 6).toNat = 64 * (ident.toNat % 4) := by
    rw [UInt8.toNat_shiftLeft, UInt16.toNat_toUInt8, UInt16.toNat_and,
      show (0b0000_0000_0000_0011 : UInt16).toNat = 2 ^ 2 - 1 from rfl, Nat.and_two_pow_sub_one_eq_mod,
      show (6 : UInt8).toNat % 8 = 6 from rfl, Nat.shiftLeft_eq]
    omega
  unfold identBytes
  dsimp only
  rw [UInt8.toNat_or, hhigh, hlow, Nat.or_comm,
    ← Nat.two_pow_add_eq_or_of_lt (by omega : ident.toNat / 256 < 2 ^ 6)]

/-- The decoder reads back every ident the two-byte encoding writes, below `64` too. -/
theorem identOfBytes_identBytes {ident : UInt16} (h : ident.toNat < 2 ^ 14) :
    identOfBytes (identBytes ident).1 (identBytes ident).2 = ident := by
  apply UInt16.toNat_inj.mp
  rw [toNat_identOfBytes, toNat_identBytes_fst, toNat_identBytes_snd h]
  -- the second byte's top two bits are the ident's lowest two, its other six the upper byte
  have hlow : (64 * (ident.toNat % 4) + ident.toNat / 256) / 64 = ident.toNat % 4 := by omega
  have hhigh : (64 * (ident.toNat % 4) + ident.toNat / 256) % 64 = ident.toNat / 256 := by omega
  have hdiv : ident.toNat / 4 / 64 = ident.toNat / 256 := Nat.div_div_eq_div_mul _ _ _
  rw [hlow, hhigh]
  omega

variable {K S : Type} (C : ByteArrayCodec K) (B : Base58 S) (ss58hash : List UInt8 → List UInt8)

/-- The prefix the encoder writes for an ident below `2^14`: one byte below `64`, else the
two bytes of `identBytes`. -/
def identPrefix (ident : UInt16) : List UInt8 :=
  if ident < 64 then [ident.toUInt8] else [(identBytes ident).1, (identBytes ident).2]

/-- `to_ss58check_with_version`. -/
def toSs58checkWithVersion (k : K) (version : UInt16) : S :=
  -- the upper two bits of the ident are masked out, so only `0..=16383` remains
  let ident := version &&& 0b0011_1111_1111_1111
  let v := identPrefix ident ++ C.asRef k
  let r := ss58hash v
  B.encode (v ++ r.take 2)

/-- The prefix length and the ident that a first and a second byte start. -/
def prefixOf (d0 d1 : UInt8) : Option (ℕ × UInt16) :=
  if d0 < 64 then some (1, d0.toUInt16)
  else if d0 < 128 then some (2, identOfBytes d0 d1)
  else none

/-- `from_ss58check_with_version`, with the format filter `format_is_allowed`. -/
def fromSs58checkWithVersion (formatIsAllowed : UInt16 → Bool) (s : S) : Except PublicError (K × UInt16) :=
  match B.decode s with
  | none => .error .badBase58
  | some data =>
    match data with
    | d0 :: d1 :: _ =>
      match prefixOf d0 d1 with
      | none => .error .invalidPrefix
      | some (prefixLen, ident) =>
        if data.length ≠ prefixLen + C.len + 2 then .error .badLength
        else if !formatIsAllowed ident then .error .formatNotAllowed
        else
          let hash := ss58hash (data.take (C.len + prefixLen))
          if (data.drop (C.len + prefixLen)).take 2 ≠ hash.take 2 then .error .invalidChecksum
          else
            match C.fromSlice ((data.drop prefixLen).take C.len) with
            | none => .error .badLength
            | some result => .ok (result, ident)
    | _ => .error .badLength

/-- The decoder's accepting path: a decoded vector with a prefix it reads, the right length, an
allowed format, a matching checksum and a body the key type takes. -/
theorem fromSs58checkWithVersion_eq_ok {formatIsAllowed : UInt16 → Bool} {s : S} {d0 d1 : UInt8}
    {rest : List UInt8} {prefixLen : ℕ} {ident : UInt16} {k : K}
    (hdec : B.decode s = some (d0 :: d1 :: rest)) (hpre : prefixOf d0 d1 = some (prefixLen, ident))
    (hlen : (d0 :: d1 :: rest).length = prefixLen + C.len + 2) (hallowed : formatIsAllowed ident = true)
    (hsum : ((d0 :: d1 :: rest).drop (C.len + prefixLen)).take 2 =
      (ss58hash ((d0 :: d1 :: rest).take (C.len + prefixLen))).take 2)
    (hbody : C.fromSlice (((d0 :: d1 :: rest).drop prefixLen).take C.len) = some k) :
    fromSs58checkWithVersion C B ss58hash formatIsAllowed s = .ok (k, ident) := by
  rw [fromSs58checkWithVersion, hdec]
  simp only [hpre, hlen, hallowed, hsum, hbody]
  simp

/-- What the decoder cuts out of a vector the encoder writes: the prefix and the key, the
checksum after them, and the key after the prefix. -/
theorem encoded_parts (p body cs : List UInt8) :
    (p ++ body ++ cs).take (body.length + p.length) = p ++ body ∧
      (p ++ body ++ cs).drop (body.length + p.length) = cs ∧
      ((p ++ body ++ cs).drop p.length).take body.length = body := by
  have hlen : body.length + p.length = (p ++ body).length := by
    rw [List.length_append, Nat.add_comm]
  refine ⟨?_, ?_, ?_⟩
  · rw [hlen, List.take_left]
  · rw [hlen, List.drop_left]
  · rw [List.append_assoc, List.drop_left, List.take_left]

/-- The decoder accepts what the encoder writes after any prefix it reads as
`(p.length, ident)`. -/
theorem fromSs58checkWithVersion_encode {formatIsAllowed : UInt16 → Bool} {p : List UInt8} {ident : UInt16}
    (k : K) (hpre : ∀ d0 d1 rest, p ++ C.asRef k ++ (ss58hash (p ++ C.asRef k)).take 2 = d0 :: d1 :: rest →
      prefixOf d0 d1 = some (p.length, ident))
    (hhash : 2 ≤ (ss58hash (p ++ C.asRef k)).length) (hallowed : formatIsAllowed ident = true) :
    fromSs58checkWithVersion C B ss58hash formatIsAllowed
      (B.encode (p ++ C.asRef k ++ (ss58hash (p ++ C.asRef k)).take 2)) = .ok (k, ident) := by
  obtain ⟨htake, hdrop, hbody⟩ := encoded_parts p (C.asRef k) ((ss58hash (p ++ C.asRef k)).take 2)
  rw [C.length_asRef] at htake hdrop hbody
  have hcs : ((ss58hash (p ++ C.asRef k)).take 2).length = 2 := by
    rw [List.length_take]
    omega
  have hlen : (p ++ C.asRef k ++ (ss58hash (p ++ C.asRef k)).take 2).length = p.length + C.len + 2 := by
    rw [List.length_append, List.length_append, C.length_asRef, hcs]
  -- the checksum alone is two bytes, so the vector starts with two bytes
  obtain ⟨d0, d1, rest, hD⟩ : ∃ d0 d1 rest,
      p ++ C.asRef k ++ (ss58hash (p ++ C.asRef k)).take 2 = d0 :: d1 :: rest := by
    match hv : p ++ C.asRef k ++ (ss58hash (p ++ C.asRef k)).take 2, hlen with
    | d0 :: d1 :: rest, _ => exact ⟨d0, d1, rest, rfl⟩
  rw [hD] at htake hdrop hbody hlen
  refine fromSs58checkWithVersion_eq_ok C B ss58hash (by rw [B.decode_encode, hD]) (hpre d0 d1 rest hD) hlen
    hallowed ?_ ?_
  · rw [hdrop, htake, List.take_of_length_le (by omega)]
  · rw [hbody, C.fromSlice_asRef]

/-- The decoder reads the two-byte prefix of every ident below `2^14` back, below `64` too. -/
theorem prefixOf_identBytes {ident : UInt16} (h : ident.toNat < 2 ^ 14) :
    prefixOf (identBytes ident).1 (identBytes ident).2 = some (2, ident) := by
  have hfst := toNat_identBytes_fst ident
  have hge : ¬(identBytes ident).1 < 64 := by
    rw [UInt8.lt_iff_toNat_lt, hfst]
    exact Nat.not_lt.mpr (by simp)
  have hlt : (identBytes ident).1 < 128 := by
    rw [UInt8.lt_iff_toNat_lt, hfst]
    simp
    omega
  rw [prefixOf, if_neg hge, if_pos hlt, identOfBytes_identBytes h]

/-- The decoder reads the prefix the encoder writes as its length and the ident. -/
theorem prefixOf_identPrefix {ident : UInt16} (h : ident.toNat < 2 ^ 14) {t : List UInt8} {d0 d1 : UInt8}
    {rest : List UInt8} (hD : identPrefix ident ++ t = d0 :: d1 :: rest) :
    prefixOf d0 d1 = some ((identPrefix ident).length, ident) := by
  unfold identPrefix at hD ⊢
  by_cases hlt : ident < 64
  · -- one byte: the ident itself, below 64
    rw [if_pos hlt] at hD ⊢
    rw [List.singleton_append, List.cons.injEq] at hD
    rw [← hD.1, List.length_singleton, prefixOf]
    have hlt' : ident.toNat < 64 := UInt16.lt_iff_toNat_lt.mp hlt
    have hsmall : ident.toUInt8 < 64 := by
      rw [UInt8.lt_iff_toNat_lt, UInt16.toNat_toUInt8]
      simp
      omega
    rw [if_pos hsmall]
    congr
    apply UInt16.toNat_inj.mp
    rw [UInt8.toNat_toUInt16, UInt16.toNat_toUInt8]
    omega
  · rw [if_neg hlt] at hD ⊢
    simp only [List.cons_append, List.nil_append, List.cons.injEq] at hD
    rw [← hD.1, ← hD.2.1, List.length_cons, List.length_singleton]
    exact prefixOf_identBytes h

/-- Masking leaves an ident below `2^14` as it is. -/
theorem mask_of_lt {ident : UInt16} (h : ident.toNat < 2 ^ 14) : ident &&& 0b0011_1111_1111_1111 = ident := by
  apply UInt16.toNat_inj.mp
  rw [UInt16.toNat_and, show (0b0011_1111_1111_1111 : UInt16).toNat = 2 ^ 14 - 1 from rfl,
    Nat.and_two_pow_sub_one_eq_mod, Nat.mod_eq_of_lt h]

/-- The decoder reads back the key and the format of every address the encoder writes. -/
theorem fromSs58checkWithVersion_toSs58checkWithVersion {formatIsAllowed : UInt16 → Bool}
    (hhash : ∀ v, 2 ≤ (ss58hash v).length) (k : K) {ident : UInt16} (h : ident.toNat < 2 ^ 14)
    (hallowed : formatIsAllowed ident = true) :
    fromSs58checkWithVersion C B ss58hash formatIsAllowed (toSs58checkWithVersion C B ss58hash k ident) =
      .ok (k, ident) := by
  unfold toSs58checkWithVersion
  rw [mask_of_lt h]
  refine fromSs58checkWithVersion_encode C B ss58hash k ?_ (hhash _) hallowed
  intro d0 d1 rest hD
  exact prefixOf_identPrefix h ((List.append_assoc _ _ _).symm.trans hD)

/-- Below `64` the decoder also accepts the two-byte prefix of the ident, which the encoder
never writes. -/
theorem fromSs58checkWithVersion_identBytes {formatIsAllowed : UInt16 → Bool}
    (hhash : ∀ v, 2 ≤ (ss58hash v).length) (k : K) {ident : UInt16} (h : ident.toNat < 2 ^ 14)
    (hallowed : formatIsAllowed ident = true) :
    fromSs58checkWithVersion C B ss58hash formatIsAllowed
      (B.encode ([(identBytes ident).1, (identBytes ident).2] ++ C.asRef k ++
        (ss58hash ([(identBytes ident).1, (identBytes ident).2] ++ C.asRef k)).take 2)) = .ok (k, ident) := by
  refine fromSs58checkWithVersion_encode C B ss58hash k ?_ (hhash _) hallowed
  intro d0 d1 rest hD
  simp only [List.cons_append, List.nil_append, List.cons.injEq] at hD
  rw [← hD.1, ← hD.2.1]
  exact prefixOf_identBytes h

theorem Base58.encode_injective {v w : List UInt8} (h : B.encode v = B.encode w) : v = w := by
  have hdec := congrArg B.decode h
  rw [B.decode_encode, B.decode_encode] at hdec
  exact Option.some.inj hdec

/-- Every address the encoder writes decodes back to its key and format; but below `64` the
format has a second address, with the two-byte prefix, that decodes to the same pair. -/
theorem ss58check_roundtrip_not_canonical (formatIsAllowed : UInt16 → Bool)
    (hhash : ∀ v, 2 ≤ (ss58hash v).length) :
    (∀ (k : K) (ident : UInt16), ident.toNat < 2 ^ 14 → formatIsAllowed ident = true →
      fromSs58checkWithVersion C B ss58hash formatIsAllowed (toSs58checkWithVersion C B ss58hash k ident) =
        .ok (k, ident)) ∧
    (∀ (k : K) (ident : UInt16), ident < 64 → formatIsAllowed ident = true →
      ∃ s, fromSs58checkWithVersion C B ss58hash formatIsAllowed s = .ok (k, ident) ∧
        toSs58checkWithVersion C B ss58hash k ident ≠ s) := by
  refine ⟨fun k ident h hallowed => fromSs58checkWithVersion_toSs58checkWithVersion C B ss58hash hhash k h hallowed,
    fun k ident hlt hallowed => ?_⟩
  have hlt' : ident.toNat < 64 := UInt16.lt_iff_toNat_lt.mp hlt
  refine ⟨_, fromSs58checkWithVersion_identBytes C B ss58hash hhash k (by omega) hallowed, ?_⟩
  intro heq
  unfold toSs58checkWithVersion at heq
  dsimp only at heq
  rw [mask_of_lt (by omega), identPrefix, if_pos hlt] at heq
  -- the encoder's first byte is the ident, below 64; the two-byte prefix starts at 64
  have hfirst := congrArg List.head? (Base58.encode_injective B heq)
  simp only [List.cons_append, List.nil_append, List.head?_cons, Option.some.injEq] at hfirst
  have hval := congrArg UInt8.toNat hfirst
  rw [UInt16.toNat_toUInt8, toNat_identBytes_fst, Nat.mod_eq_of_lt (by omega : ident.toNat < 2 ^ 8)] at hval
  omega

/-- Keys of `n` bytes, as `[u8; n]` implements `ByteArray`. -/
def bytesCodec (n : ℕ) : ByteArrayCodec {l : List UInt8 // l.length = n} where
  len := n
  asRef k := k.1
  fromSlice b := if h : b.length = n then some ⟨b, h⟩ else none
  length_asRef k := k.2
  fromSlice_asRef k := by simp [k.2]
  asRef_of_fromSlice b k h := by
    split at h
    · cases h
      rfl
    · cases h

/-- The base-58 of a bijection between strings and byte vectors. -/
def Base58.ofEquiv (e : S ≃ List UInt8) : Base58 S where
  encode := e.symm
  decode s := some (e s)
  decode_encode v := by simp
  encode_of_decode s v h := by
    cases h
    simp

theorem ss58check_zero_two_addresses :
    (∀ v : List UInt8, 2 ≤ ((fun _ => [0, 0]) v : List UInt8).length) ∧
      ∃ s, fromSs58checkWithVersion (bytesCodec 32) (Base58.ofEquiv (Equiv.refl _)) (fun _ => [0, 0])
          (fun _ => true) s = .ok (⟨List.replicate 32 0, List.length_replicate⟩, 0) ∧
        toSs58checkWithVersion (bytesCodec 32) (Base58.ofEquiv (Equiv.refl _)) (fun _ => [0, 0])
          ⟨List.replicate 32 0, List.length_replicate⟩ 0 ≠ s := by
  have hhash : ∀ v : List UInt8, 2 ≤ ((fun _ => [0, 0]) v : List UInt8).length := fun _ => Nat.le_refl 2
  exact ⟨hhash, (ss58check_roundtrip_not_canonical (bytesCodec 32) (Base58.ofEquiv (Equiv.refl _))
    (fun _ => [0, 0]) (fun _ => true) hhash).2 _ 0 (by decide) rfl⟩

end PolkadotSdk.Ss58
