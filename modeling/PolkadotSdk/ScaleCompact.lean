import Mathlib

/-!
# The SCALE compact encoding of `u32`

`Compact<u32>` writes a number in one, two, four or five little-endian bytes; the two low
bits of the first byte say which. Decoding is canonical: a number is accepted only in the
shortest mode that holds it. Both round trips hold, so the decoder accepts exactly the
encodings.
-/

namespace PolkadotSdk.ScaleCompact

/-- The little-endian value of a byte string. -/
def leValue : List UInt8 → ℕ
  | [] => 0
  | b :: bs => b.toNat + 256 * leValue bs

/-- The `n` low bytes of `x`, little endian. -/
def leBytes (x : ℕ) : ℕ → List UInt8
  | 0 => []
  | n + 1 => UInt8.ofNat (x % 256) :: leBytes (x / 256) n

/-- `Compact::<u32>::compact_len`. -/
def compactLen (v : ℕ) : ℕ :=
  if v < 2 ^ 6 then 1 else if v < 2 ^ 14 then 2 else if v < 2 ^ 30 then 4 else 5

/-- `Compact::<u32>::encode`. -/
def compactEncode (v : ℕ) : List UInt8 :=
  if v < 2 ^ 6 then leBytes (v * 4) 1
  else if v < 2 ^ 14 then leBytes (v * 4 + 1) 2
  else if v < 2 ^ 30 then leBytes (v * 4 + 2) 4
  else 3 :: leBytes v 4

/-- `Compact::<u32>::decode`: the value and the rest of the input. -/
def compactDecode : List UInt8 → Option (ℕ × List UInt8)
  | [] => none
  | p :: rest =>
    if p.toNat % 4 = 0 then some (p.toNat / 4, rest)
    else if p.toNat % 4 = 1 then
      if 1 ≤ rest.length ∧ 2 ^ 6 ≤ leValue (p :: rest.take 1) / 4 then
        some (leValue (p :: rest.take 1) / 4, rest.drop 1)
      else none
    else if p.toNat % 4 = 2 then
      if 3 ≤ rest.length ∧ 2 ^ 14 ≤ leValue (p :: rest.take 3) / 4 then
        some (leValue (p :: rest.take 3) / 4, rest.drop 3)
      else none
    else if p.toNat / 4 = 0 ∧ 4 ≤ rest.length ∧ 2 ^ 30 ≤ leValue (rest.take 4) then
      some (leValue (rest.take 4), rest.drop 4)
    else none

@[simp]
theorem length_leBytes (x n : ℕ) : (leBytes x n).length = n := by
  induction n generalizing x with
  | zero => rfl
  | succ n ih => simp [leBytes, ih]

theorem leValue_leBytes (x n : ℕ) : leValue (leBytes x n) = x % 256 ^ n := by
  induction n generalizing x with
  | zero => simp [leBytes, leValue, Nat.mod_one]
  | succ n ih =>
    rw [leBytes, leValue, ih, UInt8.toNat_ofNat', show 256 ^ (n + 1) = 256 * 256 ^ n from Nat.pow_succ',
      Nat.mod_mul]
    omega

theorem leBytes_leValue (l : List UInt8) : leBytes (leValue l) l.length = l := by
  induction l with
  | nil => rfl
  | cons b bs ih =>
    have hb := b.toNat_lt
    have hm : (b.toNat + 256 * leValue bs) % 256 = b.toNat := by omega
    have hd : (b.toNat + 256 * leValue bs) / 256 = leValue bs := by omega
    simp only [leValue, List.length_cons, leBytes, hm, hd, ih, UInt8.ofNat_toNat]

theorem leValue_lt (l : List UInt8) : leValue l < 256 ^ l.length := by
  induction l with
  | nil => simp [leValue]
  | cons b bs ih =>
    have hb := b.toNat_lt
    rw [leValue, List.length_cons, show 256 ^ (bs.length + 1) = 256 * 256 ^ bs.length from Nat.pow_succ']
    omega

@[simp]
theorem length_compactEncode (v : ℕ) : (compactEncode v).length = compactLen v := by
  unfold compactEncode compactLen
  split_ifs <;> simp

theorem compactLen_le (v : ℕ) : compactLen v ≤ 5 := by
  unfold compactLen
  split_ifs <;> omega

/-- The first byte of a little-endian string, and the rest. -/
theorem leBytes_succ (x n : ℕ) : leBytes x (n + 1) = UInt8.ofNat (x % 256) :: leBytes (x / 256) n := rfl

theorem leValue_cons_mod_four (p : UInt8) (bs : List UInt8) : leValue (p :: bs) % 4 = p.toNat % 4 := by
  rw [leValue]
  omega

/-- Decoding an encoding gives the number back and leaves the rest of the input. -/
theorem compactDecode_compactEncode_append (v : ℕ) (rest : List UInt8) (hv : v < 2 ^ 32) :
    compactDecode (compactEncode v ++ rest) = some (v, rest) := by
  unfold compactEncode
  split_ifs with h0 h1 h2
  · have hp : (UInt8.ofNat (v * 4 % 256)).toNat = v * 4 := by
      rw [UInt8.toNat_ofNat']
      omega
    simp only [leBytes, List.cons_append, List.nil_append, compactDecode, hp]
    rw [if_pos (by omega), Nat.mul_div_cancel _ (by omega)]
  · have hx := leValue_leBytes (v * 4 + 1) 2
    rw [leBytes_succ] at hx ⊢
    have hp : (UInt8.ofNat ((v * 4 + 1) % 256)).toNat % 4 = 1 := by
      rw [UInt8.toNat_ofNat']
      omega
    have hv' : leValue (UInt8.ofNat ((v * 4 + 1) % 256) :: leBytes ((v * 4 + 1) / 256) 1) / 4 = v := by
      rw [hx]
      omega
    have hl : 1 ≤ (leBytes ((v * 4 + 1) / 256) 1 ++ rest).length := by
      simp only [List.length_append, length_leBytes]
      omega
    rw [List.cons_append, compactDecode, List.take_left' (length_leBytes _ 1),
      List.drop_left' (length_leBytes _ 1), hv', if_neg (by omega), if_pos hp, if_pos ⟨hl, by omega⟩]
  · have hx := leValue_leBytes (v * 4 + 2) 4
    rw [leBytes_succ] at hx ⊢
    have hp : (UInt8.ofNat ((v * 4 + 2) % 256)).toNat % 4 = 2 := by
      rw [UInt8.toNat_ofNat']
      omega
    have hv' : leValue (UInt8.ofNat ((v * 4 + 2) % 256) :: leBytes ((v * 4 + 2) / 256) 3) / 4 = v := by
      rw [hx]
      omega
    have hl : 3 ≤ (leBytes ((v * 4 + 2) / 256) 3 ++ rest).length := by
      simp only [List.length_append, length_leBytes]
      omega
    rw [List.cons_append, compactDecode, List.take_left' (length_leBytes _ 3),
      List.drop_left' (length_leBytes _ 3), hv', if_neg (by omega), if_neg (by omega), if_pos hp,
      if_pos ⟨hl, by omega⟩]
  · have hx : leValue (leBytes v 4) = v := by
      rw [leValue_leBytes]
      omega
    have hl : 4 ≤ (leBytes v 4 ++ rest).length := by
      simp only [List.length_append, length_leBytes]
      omega
    have h3 : (3 : UInt8).toNat = 3 := rfl
    rw [List.cons_append, compactDecode, List.take_left' (length_leBytes _ 4),
      List.drop_left' (length_leBytes _ 4), hx, h3, if_neg (by omega), if_neg (by omega), if_neg (by omega),
      if_pos ⟨rfl, hl, by omega⟩]

/-- What the decoder accepts is an encoding of a `u32`, followed by the rest. -/
theorem eq_compactEncode_append_of_compactDecode {data rest : List UInt8} {v : ℕ}
    (h : compactDecode data = some (v, rest)) : v < 2 ^ 32 ∧ data = compactEncode v ++ rest := by
  match data with
  | [] => simp [compactDecode] at h
  | p :: bs =>
    have hp := p.toNat_lt
    rw [compactDecode] at h
    split_ifs at h with h0 h1 h1' h2 h2' h3
    · obtain ⟨rfl, rfl⟩ := Prod.mk.inj (Option.some.inj h)
      have hv : p.toNat / 4 * 4 % 256 = p.toNat := by omega
      refine ⟨by omega, ?_⟩
      rw [compactEncode, if_pos (by omega)]
      simp [leBytes, hv]
    · obtain ⟨rfl, rfl⟩ := Prod.mk.inj (Option.some.inj h)
      have hl := leValue_lt (p :: bs.take 1)
      have hlen : (p :: bs.take 1).length = 2 := by simp; omega
      have hm := leValue_cons_mod_four p (bs.take 1)
      rw [hlen] at hl
      have hx : leValue (p :: bs.take 1) / 4 * 4 + 1 = leValue (p :: bs.take 1) := by omega
      have hb := leBytes_leValue (p :: bs.take 1)
      rw [hlen] at hb
      refine ⟨by omega, ?_⟩
      rw [compactEncode, if_neg (by omega), if_pos (by omega), hx, hb, List.cons_append, List.take_append_drop]
    · obtain ⟨rfl, rfl⟩ := Prod.mk.inj (Option.some.inj h)
      have hl := leValue_lt (p :: bs.take 3)
      have hlen : (p :: bs.take 3).length = 4 := by simp; omega
      have hm := leValue_cons_mod_four p (bs.take 3)
      rw [hlen] at hl
      have hx : leValue (p :: bs.take 3) / 4 * 4 + 2 = leValue (p :: bs.take 3) := by omega
      have hb := leBytes_leValue (p :: bs.take 3)
      rw [hlen] at hb
      refine ⟨by omega, ?_⟩
      rw [compactEncode, if_neg (by omega), if_neg (by omega), if_pos (by omega), hx, hb, List.cons_append,
        List.take_append_drop]
    · obtain ⟨rfl, rfl⟩ := Prod.mk.inj (Option.some.inj h)
      have hl := leValue_lt (bs.take 4)
      have hlen : (bs.take 4).length = 4 := by simp; omega
      rw [hlen] at hl
      have h3 : p = 3 := UInt8.toNat_inj.mp (by simp; omega)
      have hb := leBytes_leValue (bs.take 4)
      rw [hlen] at hb
      refine ⟨by omega, ?_⟩
      rw [compactEncode, if_neg (by omega), if_neg (by omega), if_neg (by omega), hb, h3, List.cons_append,
        List.take_append_drop]

/-- The decoder accepts exactly the encodings of `u32` numbers. -/
theorem compactDecode_eq_some_iff {data rest : List UInt8} {v : ℕ} :
    compactDecode data = some (v, rest) ↔ v < 2 ^ 32 ∧ data = compactEncode v ++ rest := by
  constructor
  · exact eq_compactEncode_append_of_compactDecode
  · rintro ⟨hv, rfl⟩
    exact compactDecode_compactEncode_append v rest hv

end PolkadotSdk.ScaleCompact
