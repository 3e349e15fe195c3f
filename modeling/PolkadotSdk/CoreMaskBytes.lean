import PolkadotSdk.Broker
import PolkadotSdk.ByteBits

/-!
# `CoreMask` as ten bytes

The pallet stores a `CoreMask` as `[u8; 10]`, part `i` in bit `128 >> (i % 8)` of byte `i / 8`,
and converts it to and from `u128` by folding over the bytes. Here that representation with its
operations and conversions, stated part by part through `ByteBits`, and the refinement of
`Broker.CoreMask`, a `BitVec 80` with part `i` at bit `i`, by it.
-/

namespace PolkadotSdk.Broker

open ByteBits

/-- `CoreMask` as the source stores it: ten bytes. -/
structure CoreMaskBytes where
  bytes : List (BitVec 8)
  length_eq : bytes.length = 10
  deriving DecidableEq

namespace CoreMaskBytes

/-- `CoreMask::void`. -/
def void : CoreMaskBytes := ⟨List.replicate 10 0, rfl⟩

/-- `CoreMask::complete`. -/
def complete : CoreMaskBytes := ⟨List.replicate 10 255, rfl⟩

/-- `CoreMask::is_void`. -/
def isVoid (m : CoreMaskBytes) : Bool := m.bytes == List.replicate 10 0

/-- `CoreMask::is_complete`. -/
def isComplete (m : CoreMaskBytes) : Bool := m.bytes == List.replicate 10 255

/-- `CoreMask::set`: parts from `80` on are ignored. -/
def set (m : CoreMaskBytes) (i : ℕ) : CoreMaskBytes :=
  if i < 80 then ⟨setFromTop m.bytes i, by rw [length_setFromTop, m.length_eq]⟩ else m

/-- `CoreMask::clear`: parts from `80` on are ignored. -/
def clear (m : CoreMaskBytes) (i : ℕ) : CoreMaskBytes :=
  if i < 80 then ⟨clearFromTop m.bytes i, by rw [length_clearFromTop, m.length_eq]⟩ else m

/-- `CoreMask::count_zeros`: the zeros of each byte, summed. -/
def countZeros (m : CoreMaskBytes) : ℕ := (m.bytes.map fun b => popCount (~~~b)).sum

/-- `CoreMask::count_ones`: the ones of each byte, summed. -/
def countOnes (m : CoreMaskBytes) : ℕ := (m.bytes.map popCount).sum

/-- `CoreMask::from_chunk`: the parts from `min(a, 80)` below `min(b, 80)` set, one after another. -/
def fromChunk (a b : ℕ) : CoreMaskBytes :=
  ⟨(List.range' (min a 80) (min b 80 - min a 80)).foldl setFromTop (List.replicate 10 0),
    by rw [length_foldl_setFromTop, List.length_replicate]⟩

/-- `From<u128> for CoreMask`: from the last byte, each the low byte of what is left. -/
def ofU128 (x : BitVec 128) : CoreMaskBytes := ⟨splitOff 10 x, length_splitOff 10 x⟩

/-- `From<CoreMask> for u128`: `(a << 8) | i as u128` over the bytes. -/
def toU128 (m : CoreMaskBytes) : BitVec 128 := shiftIn 0 m.bytes

/-- `BitAnd`, byte by byte. -/
instance : AndOp CoreMaskBytes :=
  ⟨fun m m' => ⟨List.zipWith (· &&& ·) m.bytes m'.bytes, by simp [m.length_eq, m'.length_eq]⟩⟩

/-- `BitOr`, byte by byte. -/
instance : OrOp CoreMaskBytes :=
  ⟨fun m m' => ⟨List.zipWith (· ||| ·) m.bytes m'.bytes, by simp [m.length_eq, m'.length_eq]⟩⟩

/-- `BitXor`, byte by byte. -/
instance : XorOp CoreMaskBytes :=
  ⟨fun m m' => ⟨List.zipWith (· ^^^ ·) m.bytes m'.bytes, by simp [m.length_eq, m'.length_eq]⟩⟩

/-- `Not`, byte by byte. -/
instance : Complement CoreMaskBytes := ⟨fun m => ⟨m.bytes.map (~~~·), by simp [m.length_eq]⟩⟩

/-- Part `i` of a mask: the bit that `set(i)` sets. -/
def bit (m : CoreMaskBytes) (i : ℕ) : Bool := bitFromTop m.bytes i

/-! ## Part by part -/

variable (m m' : CoreMaskBytes)

/-- Two masks are equal when their eighty parts are. -/
theorem ext_bit {m m' : CoreMaskBytes} (h : ∀ i < 80, m.bit i = m'.bit i) : m = m' := by
  obtain ⟨bytes, hb⟩ := m
  obtain ⟨bytes', hb'⟩ := m'
  obtain rfl : bytes = bytes' := ext_bitFromTop (hb.trans hb'.symm) (by rw [hb]; exact h)
  rfl

theorem bit_of_le {i : ℕ} (h : 80 ≤ i) : m.bit i = false :=
  bitFromTop_of_le (by rw [m.length_eq]; exact h)

theorem bit_set {i : ℕ} (hi : i < 80) (j : ℕ) : (m.set i).bit j = (m.bit j || decide (j = i)) := by
  rw [set, if_pos hi]
  exact bitFromTop_setFromTop (by rw [m.length_eq]; omega) j

theorem bit_clear {i : ℕ} (hi : i < 80) (j : ℕ) : (m.clear i).bit j = (m.bit j && !decide (j = i)) := by
  rw [clear, if_pos hi]
  exact bitFromTop_clearFromTop _ _ _

theorem set_of_le {i : ℕ} (hi : 80 ≤ i) : m.set i = m := if_neg (by omega)

theorem clear_of_le {i : ℕ} (hi : 80 ≤ i) : m.clear i = m := if_neg (by omega)

theorem bit_and {j : ℕ} (hj : j < 80) : (m &&& m').bit j = (m.bit j && m'.bit j) :=
  bitFromTop_zipWith (fun _ _ _ => BitVec.getLsbD_and) (m.length_eq.trans m'.length_eq.symm)
    (by rw [m.length_eq]; omega)

theorem bit_or {j : ℕ} (hj : j < 80) : (m ||| m').bit j = (m.bit j || m'.bit j) :=
  bitFromTop_zipWith (fun _ _ _ => BitVec.getLsbD_or) (m.length_eq.trans m'.length_eq.symm)
    (by rw [m.length_eq]; omega)

theorem bit_xor {j : ℕ} (hj : j < 80) : (m ^^^ m').bit j = (m.bit j ^^ m'.bit j) :=
  bitFromTop_zipWith (fun _ _ _ => BitVec.getLsbD_xor) (m.length_eq.trans m'.length_eq.symm)
    (by rw [m.length_eq]; omega)

theorem bit_not {j : ℕ} (hj : j < 80) : (~~~m).bit j = !m.bit j :=
  bitFromTop_map_not (by rw [m.length_eq]; omega)

theorem bit_void (j : ℕ) : void.bit j = false := by
  by_cases hj : j < 80
  · rw [bit, void, bitFromTop_replicate 10 _ hj]
    simp
  · exact bit_of_le _ (by omega)

theorem bit_complete {j : ℕ} (hj : j < 80) : complete.bit j = true := by
  have hall : ∀ k < 8, (255 : BitVec 8).getLsbD k = true := by decide
  rw [bit, complete, bitFromTop_replicate 10 _ hj, hall _ (by omega)]

/-- `from_chunk(a, b)` has exactly the parts from `min(a, 80)` below `min(b, 80)`. -/
theorem bit_fromChunk (a b j : ℕ) : (fromChunk a b).bit j = decide (min a 80 ≤ j ∧ j < min b 80) := by
  have hl : ∀ i ∈ List.range' (min a 80) (min b 80 - min a 80), i < 8 * (List.replicate 10 (0 : BitVec 8)).length := by
    intro i hi
    rw [List.mem_range'_1] at hi
    simp only [List.length_replicate]
    omega
  have hzero : bitFromTop (List.replicate 10 (0 : BitVec 8)) j = false := bit_void j
  rw [bit, fromChunk, bitFromTop_foldl_setFromTop _ hl, hzero, Bool.false_or]
  exact decide_eq_decide.mpr (by rw [List.mem_range'_1]; omega)

/-! ## The `u128` view -/

theorem getLsbD_toU128 {n : ℕ} (hn : n < 128) :
    (toU128 m).getLsbD n = if n < 80 then m.bit (79 - n) else false := by
  rw [toU128, getLsbD_shiftIn _ _ hn, m.length_eq]
  split
  · rfl
  · simp

theorem getLsbD_toU128_of_le {n : ℕ} (hn : 80 ≤ n) : (toU128 m).getLsbD n = false := by
  by_cases h128 : n < 128
  · rw [getLsbD_toU128 _ h128, if_neg (by omega)]
  · exact BitVec.getLsbD_of_ge _ _ (by omega)

/-- Part `i` is bit `79 - i` of the integer. -/
theorem bit_eq_getLsbD_toU128 {i : ℕ} (hi : i < 80) : m.bit i = (toU128 m).getLsbD (79 - i) := by
  rw [getLsbD_toU128 _ (by omega), if_pos (by omega), show 79 - (79 - i) = i by omega]

theorem bit_ofU128 (x : BitVec 128) {i : ℕ} (hi : i < 80) : (ofU128 x).bit i = x.getLsbD (79 - i) :=
  bitFromTop_splitOff 10 x (by omega)

/-- A word is the integer of a mask when it has the mask's parts, the first part highest, and
nothing above the eighty. -/
theorem toU128_eq_of_bits {x : BitVec 128} (hlow : ∀ i < 80, x.getLsbD (79 - i) = m.bit i)
    (hhigh : ∀ n, 80 ≤ n → x.getLsbD n = false) : toU128 m = x := by
  apply BitVec.eq_of_getLsbD_eq
  intro n hn
  rw [getLsbD_toU128 _ hn]
  split
  · rw [← hlow (79 - n) (by omega), show 79 - (79 - n) = n by omega]
  · rw [hhigh n (by omega)]

theorem toU128_ofU128 (x : BitVec 128) : toU128 (ofU128 x) = (x.setWidth 80).setWidth 128 := by
  apply toU128_eq_of_bits
  · intro i hi
    rw [bit_ofU128 _ hi, BitVec.getLsbD_setWidth, BitVec.getLsbD_setWidth]
    simp [show 79 - i < 80 by omega, show 79 - i < 128 by omega]
  · intro n hn
    rw [BitVec.getLsbD_setWidth, BitVec.getLsbD_setWidth]
    simp [show ¬n < 80 by omega]

theorem ofU128_toU128 : ofU128 (toU128 m) = m :=
  ext_bit fun i hi => by rw [bit_ofU128 _ hi, bit_eq_getLsbD_toU128 _ hi]

theorem toU128_set {i : ℕ} (hi : i < 80) : toU128 (m.set i) = toU128 m ||| BitVec.twoPow 128 (79 - i) := by
  apply toU128_eq_of_bits
  · intro j hj
    rw [BitVec.getLsbD_or, ← bit_eq_getLsbD_toU128 _ hj, BitVec.getLsbD_twoPow, bit_set _ hi]
    simp only [show 79 - i < 128 by omega, decide_true, Bool.true_and]
    congr 1
    exact decide_eq_decide.mpr (by omega)
  · intro n hn
    rw [BitVec.getLsbD_or, getLsbD_toU128_of_le _ hn, BitVec.getLsbD_twoPow]
    simp only [show ¬79 - i = n by omega, decide_false, Bool.and_false, Bool.or_false]

theorem toU128_clear {i : ℕ} (hi : i < 80) : toU128 (m.clear i) = toU128 m &&& ~~~BitVec.twoPow 128 (79 - i) := by
  apply toU128_eq_of_bits
  · intro j hj
    rw [BitVec.getLsbD_and, ← bit_eq_getLsbD_toU128 _ hj, BitVec.getLsbD_not, BitVec.getLsbD_twoPow, bit_clear _ hi]
    simp only [show 79 - j < 128 by omega, show 79 - i < 128 by omega, decide_true, Bool.true_and]
    congr 2
    exact decide_eq_decide.mpr (by omega)
  · intro n hn
    rw [BitVec.getLsbD_and, getLsbD_toU128_of_le _ hn, Bool.false_and]

theorem toU128_and : toU128 (m &&& m') = toU128 m &&& toU128 m' := by
  apply toU128_eq_of_bits
  · intro i hi
    rw [BitVec.getLsbD_and, ← bit_eq_getLsbD_toU128 _ hi, ← bit_eq_getLsbD_toU128 _ hi, bit_and _ _ hi]
  · intro n hn
    rw [BitVec.getLsbD_and, getLsbD_toU128_of_le _ hn, Bool.false_and]

theorem toU128_or : toU128 (m ||| m') = toU128 m ||| toU128 m' := by
  apply toU128_eq_of_bits
  · intro i hi
    rw [BitVec.getLsbD_or, ← bit_eq_getLsbD_toU128 _ hi, ← bit_eq_getLsbD_toU128 _ hi, bit_or _ _ hi]
  · intro n hn
    rw [BitVec.getLsbD_or, getLsbD_toU128_of_le _ hn, getLsbD_toU128_of_le _ hn, Bool.false_or]

theorem toU128_xor : toU128 (m ^^^ m') = toU128 m ^^^ toU128 m' := by
  apply toU128_eq_of_bits
  · intro i hi
    rw [BitVec.getLsbD_xor, ← bit_eq_getLsbD_toU128 _ hi, ← bit_eq_getLsbD_toU128 _ hi, bit_xor _ _ hi]
  · intro n hn
    rw [BitVec.getLsbD_xor, getLsbD_toU128_of_le _ hn, getLsbD_toU128_of_le _ hn, Bool.false_xor]

/-- `!` on the bytes complements the eighty parts only: the integer's complement masked to 80 bits. -/
theorem toU128_not : toU128 (~~~m) = ~~~(toU128 m) &&& BitVec.ofNat 128 (2 ^ 80 - 1) := by
  apply toU128_eq_of_bits
  · intro i hi
    rw [BitVec.getLsbD_and, BitVec.getLsbD_not, ← bit_eq_getLsbD_toU128 _ hi, BitVec.getLsbD_ofNat,
      Nat.testBit_two_pow_sub_one, bit_not _ hi]
    simp [show 79 - i < 128 by omega, show 79 - i < 80 by omega]
  · intro n hn
    rw [BitVec.getLsbD_and, BitVec.getLsbD_ofNat, Nat.testBit_two_pow_sub_one]
    simp [show ¬n < 80 by omega]

theorem countOnes_eq_popCount : m.countOnes = popCount (toU128 m) :=
  (popCount_shiftIn_zero m.bytes (by rw [m.length_eq]; omega)).symm

theorem countOnes_add_countZeros : m.countOnes + m.countZeros = 80 := by
  rw [countOnes, countZeros, sum_popCount_add_sum_popCount_not, m.length_eq]

example : ofU128 (BitVec.ofNat 128 0x1234567890abcdef0123) =
    ⟨[0x12, 0x34, 0x56, 0x78, 0x90, 0xab, 0xcd, 0xef, 0x01, 0x23], rfl⟩ := by
  decide

example : fromChunk 40 60 = ofU128 (BitVec.ofNat 128 0x0000000000fffff00000) := by
  decide

/-! ## The part view -/

/-- `Broker.CoreMask`, part `i` at bit `i`: the low eighty bits of the integer, read from the top. -/
def toMask (m : CoreMaskBytes) : CoreMask := ((toU128 m).setWidth 80).reverse

theorem getLsbD_toMask {i : ℕ} (hi : i < 80) : (toMask m).getLsbD i = m.bit i := by
  rw [toMask, BitVec.getLsbD_reverse, BitVec.getMsbD, BitVec.getLsbD_setWidth, bit_eq_getLsbD_toU128 _ hi]
  simp [hi, show 80 - 1 - i < 80 by omega]

theorem toMask_and : toMask (m &&& m') = toMask m &&& toMask m' :=
  BitVec.eq_of_getLsbD_eq fun i hi => by
    rw [BitVec.getLsbD_and, getLsbD_toMask _ hi, getLsbD_toMask _ hi, getLsbD_toMask _ hi, bit_and _ _ hi]

theorem toMask_or : toMask (m ||| m') = toMask m ||| toMask m' :=
  BitVec.eq_of_getLsbD_eq fun i hi => by
    rw [BitVec.getLsbD_or, getLsbD_toMask _ hi, getLsbD_toMask _ hi, getLsbD_toMask _ hi, bit_or _ _ hi]

theorem toMask_xor : toMask (m ^^^ m') = toMask m ^^^ toMask m' :=
  BitVec.eq_of_getLsbD_eq fun i hi => by
    rw [BitVec.getLsbD_xor, getLsbD_toMask _ hi, getLsbD_toMask _ hi, getLsbD_toMask _ hi, bit_xor _ _ hi]

theorem toMask_not : toMask (~~~m) = ~~~toMask m :=
  BitVec.eq_of_getLsbD_eq fun i hi => by
    rw [BitVec.getLsbD_not, getLsbD_toMask _ hi, getLsbD_toMask _ hi, bit_not _ hi, decide_eq_true hi, Bool.true_and]

theorem toMask_set {i : ℕ} (hi : i < 80) : toMask (m.set i) = toMask m ||| BitVec.twoPow 80 i :=
  BitVec.eq_of_getLsbD_eq fun j hj => by
    rw [BitVec.getLsbD_or, getLsbD_toMask _ hj, getLsbD_toMask _ hj, BitVec.getLsbD_twoPow, bit_set _ hi,
      decide_eq_true hi, Bool.true_and]
    congr 1
    exact decide_eq_decide.mpr eq_comm

theorem toMask_void : toMask void = 0 :=
  BitVec.eq_of_getLsbD_eq fun i hi => by
    rw [getLsbD_toMask _ hi, bit_void]
    exact BitVec.getLsbD_zero.symm

theorem toMask_complete : toMask complete = CoreMask.complete :=
  BitVec.eq_of_getLsbD_eq fun i hi => by
    rw [getLsbD_toMask _ hi, bit_complete hi, CoreMask.complete, BitVec.getLsbD_allOnes, decide_eq_true hi]

/-- `count_ones` of the bytes is `CoreMask::count_ones` of the parts. -/
theorem countOnes_toMask : CoreMask.countOnes (toMask m) = m.countOnes := by
  have hpop : CoreMask.countOnes (toMask m) = popCount (toMask m) := List.countP_eq_length_filter.symm
  rw [hpop, toMask, popCount_reverse, popCount_setWidth _ (by omega) fun n hn => getLsbD_toU128_of_le _ hn,
    countOnes_eq_popCount]

/-! ## The mask and its integer -/

theorem coreMask_u128_homomorphism :
    (∀ x : BitVec 128, (toU128 (ofU128 x)).toNat = x.toNat % 2 ^ 80) ∧
      (∀ m : CoreMaskBytes, ofU128 (toU128 m) = m) ∧
      (∀ (m : CoreMaskBytes) (i : ℕ), i < 80 →
        m.bit i = (toU128 m).getLsbD (79 - i) ∧ (m.set i).bit i = true ∧ (m.clear i).bit i = false ∧
          toU128 (m.set i) = toU128 m ||| BitVec.twoPow 128 (79 - i) ∧
          toU128 (m.clear i) = toU128 m &&& ~~~BitVec.twoPow 128 (79 - i)) ∧
      (∀ (m : CoreMaskBytes) (i : ℕ), 80 ≤ i → m.set i = m ∧ m.clear i = m) ∧
      (∀ m m' : CoreMaskBytes, toU128 (m &&& m') = toU128 m &&& toU128 m' ∧
        toU128 (m ||| m') = toU128 m ||| toU128 m' ∧ toU128 (m ^^^ m') = toU128 m ^^^ toU128 m') ∧
      (∀ m : CoreMaskBytes, toU128 (~~~m) = ~~~(toU128 m) &&& BitVec.ofNat 128 (2 ^ 80 - 1)) ∧
      (∀ m : CoreMaskBytes, m.countOnes = popCount (toU128 m)) ∧
      (∀ a b i : ℕ, (fromChunk a b).bit i = decide (min a 80 ≤ i ∧ i < min b 80)) := by
  refine ⟨fun x => ?_, ofU128_toU128, fun m i hi => ⟨bit_eq_getLsbD_toU128 m hi, ?_, ?_, toU128_set m hi,
    toU128_clear m hi⟩, fun m i hi => ⟨set_of_le m hi, clear_of_le m hi⟩,
    fun m m' => ⟨toU128_and m m', toU128_or m m', toU128_xor m m'⟩, toU128_not, countOnes_eq_popCount,
    bit_fromChunk⟩
  · -- the integer keeps the low eighty bits
    have hlt : x.toNat % 2 ^ 80 < 2 ^ 128 :=
      (Nat.mod_lt _ (Nat.two_pow_pos 80)).trans_le (Nat.pow_le_pow_right (by decide) (by decide))
    rw [toU128_ofU128, BitVec.toNat_setWidth, BitVec.toNat_setWidth, Nat.mod_eq_of_lt hlt]
  · rw [bit_set m hi]
    simp
  · rw [bit_clear m hi]
    simp

/-- Setting part `0` of the void mask. -/
theorem coreMask_u128_homomorphism_void : (0 : ℕ) < 80 ∧ (void.set 0).bit 0 = true :=
  ⟨by decide, (coreMask_u128_homomorphism.2.2.1 void 0 (by decide)).2.1⟩

end CoreMaskBytes

end PolkadotSdk.Broker
