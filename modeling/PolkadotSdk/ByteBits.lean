import Mathlib.Data.BitVec
import Mathlib.Data.List.GetD

/-!
# Byte strings as bit strings, most significant bit first

A string of bytes read as one bit string from the top: bit `i` is bit `7 - i % 8` of byte `i / 8`,
as a byte array that stores a big-endian number or a bit set numbered from the left has it. The
fold that shifts the bytes into a word and the recursion that splits a word into its last bytes
are the two conversions to a fixed-width word; setting and clearing a bit, the bitwise operations
byte by byte and the count of ones are stated bit by bit, and two strings of one length are equal
exactly when their bits are.
-/

namespace PolkadotSdk.ByteBits

variable {w : ℕ}

/-- The bytes shifted into a `w`-bit word, most significant first: `(a << 8) | b as uw` for each. -/
def shiftIn (acc : BitVec w) (bytes : List (BitVec 8)) : BitVec w :=
  bytes.foldl (fun a b => (a <<< 8) ||| b.setWidth w) acc

/-- The last `n` bytes of a word, most significant first: the last is the low byte, and the ones
before it are split off what is left above it. -/
def splitOff : ℕ → BitVec w → List (BitVec 8)
  | 0, _ => []
  | n + 1, a => splitOff n (a >>> 8) ++ [a.setWidth 8]

/-- Bit `i` of a byte string from the top: bit `7 - i % 8` of byte `i / 8`. -/
def bitFromTop (bytes : List (BitVec 8)) (i : ℕ) : Bool := (bytes.getD (i / 8) 0).getLsbD (7 - i % 8)

/-- Setting bit `i` from the top: `bytes[i / 8] |= 128 >> (i % 8)`. -/
def setFromTop (bytes : List (BitVec 8)) (i : ℕ) : List (BitVec 8) :=
  bytes.modify (i / 8) (· ||| (128 : BitVec 8) >>> (i % 8))

/-- Clearing bit `i` from the top: `bytes[i / 8] &= !(128 >> (i % 8))`. -/
def clearFromTop (bytes : List (BitVec 8)) (i : ℕ) : List (BitVec 8) :=
  bytes.modify (i / 8) (· &&& ~~~((128 : BitVec 8) >>> (i % 8)))

/-- The number of ones of a word. -/
def popCount (x : BitVec w) : ℕ := (List.range w).countP x.getLsbD

@[simp] theorem length_setFromTop (bytes : List (BitVec 8)) (i : ℕ) : (setFromTop bytes i).length = bytes.length :=
  List.length_modify _ _ _

@[simp] theorem length_clearFromTop (bytes : List (BitVec 8)) (i : ℕ) :
    (clearFromTop bytes i).length = bytes.length :=
  List.length_modify _ _ _

theorem length_foldl_setFromTop (l : List ℕ) (bytes : List (BitVec 8)) :
    (l.foldl setFromTop bytes).length = bytes.length := by
  induction l generalizing bytes with
  | nil => rfl
  | cons i l ih => rw [List.foldl_cons, ih, length_setFromTop]

@[simp] theorem length_splitOff (n : ℕ) (a : BitVec w) : (splitOff n a).length = n := by
  induction n generalizing a with
  | zero => rfl
  | succ n ih => rw [splitOff, List.length_append, ih, List.length_singleton]

/-! ## Bits of the string -/

/-- The bits of the bytes before `rest` do not see it. -/
theorem bitFromTop_append_of_lt {bytes : List (BitVec 8)} (rest : List (BitVec 8)) {i : ℕ}
    (h : i < 8 * bytes.length) : bitFromTop (bytes ++ rest) i = bitFromTop bytes i := by
  rw [bitFromTop, bitFromTop, List.getD_append _ _ _ _ (by omega)]

/-- The bits of a last byte are its bits from the top. -/
theorem bitFromTop_append_singleton (bytes : List (BitVec 8)) (b : BitVec 8) {i : ℕ}
    (h1 : 8 * bytes.length ≤ i) (h2 : i < 8 * bytes.length + 8) :
    bitFromTop (bytes ++ [b]) i = b.getLsbD (7 - i % 8) := by
  have hidx : i / 8 = bytes.length := by omega
  rw [bitFromTop, hidx, List.getD_eq_getElem _ _ (by simp)]
  simp

/-- Past the string every bit is clear. -/
theorem bitFromTop_of_le {bytes : List (BitVec 8)} {i : ℕ} (h : 8 * bytes.length ≤ i) :
    bitFromTop bytes i = false := by
  rw [bitFromTop, List.getD_eq_default _ _ (by omega)]
  exact BitVec.getLsbD_zero

/-- A byte at a position of the string holds the bits from the top at that position. -/
theorem getLsbD_getElem {bytes : List (BitVec 8)} {j : ℕ} (hj : j < bytes.length) {k : ℕ} (hk : k < 8) :
    bytes[j].getLsbD k = bitFromTop bytes (8 * j + 7 - k) := by
  have hidx : (8 * j + 7 - k) / 8 = j := by omega
  have hbit : 7 - (8 * j + 7 - k) % 8 = k := by omega
  rw [bitFromTop, hidx, hbit, List.getD_eq_getElem _ _ hj]

/-- Two strings of one length are equal exactly when their bits are. -/
theorem ext_bitFromTop {bytes bytes' : List (BitVec 8)} (hlen : bytes.length = bytes'.length)
    (h : ∀ i < 8 * bytes.length, bitFromTop bytes i = bitFromTop bytes' i) : bytes = bytes' := by
  apply List.ext_getElem hlen
  intro j hj hj'
  apply BitVec.eq_of_getLsbD_eq
  intro k hk
  rw [getLsbD_getElem hj hk, getLsbD_getElem hj' hk]
  exact h _ (by omega)

/-- `128 >> k` is the single bit `7 - k`. -/
theorem getLsbD_ushiftRight_128 : ∀ k < 8, ∀ t < 8, ((128 : BitVec 8) >>> k).getLsbD t = decide (t + k = 7) := by
  decide

/-- A byte changed at the byte of bit `i`, read at bit `j`. -/
theorem bitFromTop_modify {bytes : List (BitVec 8)} (f : BitVec 8 → BitVec 8) (i : ℕ) {j : ℕ}
    (hj : j < 8 * bytes.length) :
    bitFromTop (bytes.modify (i / 8) f) j =
      if i / 8 = j / 8 then (f (bytes.getD (j / 8) 0)).getLsbD (7 - j % 8) else bitFromTop bytes j := by
  unfold bitFromTop
  rw [List.getD_eq_getElem _ _ (by rw [List.length_modify]; omega), List.getElem_modify,
    List.getD_eq_getElem _ _ (by omega)]
  split <;> rfl

theorem bitFromTop_setFromTop {bytes : List (BitVec 8)} {i : ℕ} (hi : i < 8 * bytes.length) (j : ℕ) :
    bitFromTop (setFromTop bytes i) j = (bitFromTop bytes j || decide (j = i)) := by
  by_cases hj : j < 8 * bytes.length
  · rw [setFromTop, bitFromTop_modify _ _ hj]
    split
    · -- the byte of bit `i`: one bit more, at `7 - i % 8`
      rename_i hidx
      rw [BitVec.getLsbD_or, getLsbD_ushiftRight_128 _ (Nat.mod_lt _ (by omega)) _ (by omega)]
      congr 1
      exact decide_eq_decide.mpr (by omega)
    · rename_i hidx
      simp only [show ¬j = i by omega, decide_false, Bool.or_false]
  · rw [bitFromTop_of_le (by rw [length_setFromTop]; omega), bitFromTop_of_le (by omega)]
    simp only [show ¬j = i by omega, decide_false, Bool.or_false]

theorem bitFromTop_clearFromTop (bytes : List (BitVec 8)) (i j : ℕ) :
    bitFromTop (clearFromTop bytes i) j = (bitFromTop bytes j && !decide (j = i)) := by
  by_cases hj : j < 8 * bytes.length
  · rw [clearFromTop, bitFromTop_modify _ _ hj]
    split
    · rename_i hidx
      rw [BitVec.getLsbD_and, BitVec.getLsbD_not, getLsbD_ushiftRight_128 _ (Nat.mod_lt _ (by omega)) _ (by omega)]
      simp only [show 7 - j % 8 < 8 by omega, decide_true, Bool.true_and]
      congr 2
      exact decide_eq_decide.mpr (by omega)
    · rename_i hidx
      simp only [show ¬j = i by omega, decide_false, Bool.not_false, Bool.and_true]
  · rw [bitFromTop_of_le (by rw [length_clearFromTop]; omega), bitFromTop_of_le (by omega), Bool.false_and]

/-- Setting the bits of a list of positions, one after another. -/
theorem bitFromTop_foldl_setFromTop (l : List ℕ) {bytes : List (BitVec 8)} (hl : ∀ i ∈ l, i < 8 * bytes.length)
    (j : ℕ) : bitFromTop (l.foldl setFromTop bytes) j = (bitFromTop bytes j || decide (j ∈ l)) := by
  induction l generalizing bytes with
  | nil => simp
  | cons i l ih =>
    have hi := hl i List.mem_cons_self
    rw [List.foldl_cons, ih (fun i' hi' => by rw [length_setFromTop]; exact hl i' (List.mem_cons_of_mem _ hi')),
      bitFromTop_setFromTop hi]
    simp only [List.mem_cons, Bool.decide_or, Bool.or_assoc]

/-- A byte operation that acts bit by bit acts so on the bits of the string. -/
theorem bitFromTop_zipWith {f : BitVec 8 → BitVec 8 → BitVec 8} {g : Bool → Bool → Bool}
    (hf : ∀ x y k, (f x y).getLsbD k = g (x.getLsbD k) (y.getLsbD k)) {bytes bytes' : List (BitVec 8)}
    (hlen : bytes.length = bytes'.length) {j : ℕ} (hj : j < 8 * bytes.length) :
    bitFromTop (List.zipWith f bytes bytes') j = g (bitFromTop bytes j) (bitFromTop bytes' j) := by
  unfold bitFromTop
  rw [List.getD_eq_getElem _ _ (by simp; omega), List.getD_eq_getElem _ _ (by omega),
    List.getD_eq_getElem _ _ (by omega), List.getElem_zipWith, hf]

theorem bitFromTop_map_not {bytes : List (BitVec 8)} {j : ℕ} (hj : j < 8 * bytes.length) :
    bitFromTop (bytes.map (~~~·)) j = !bitFromTop bytes j := by
  unfold bitFromTop
  rw [List.getD_eq_getElem _ _ (by simp; omega), List.getD_eq_getElem _ _ (by omega), List.getElem_map,
    BitVec.getLsbD_not]
  simp only [show 7 - j % 8 < 8 by omega, decide_true, Bool.true_and]

theorem bitFromTop_replicate (n : ℕ) (b : BitVec 8) {j : ℕ} (hj : j < 8 * n) :
    bitFromTop (List.replicate n b) j = b.getLsbD (7 - j % 8) := by
  rw [bitFromTop, List.getD_eq_getElem _ _ (by simp; omega), List.getElem_replicate]

/-! ## Words -/

theorem shiftIn_append_singleton (acc : BitVec w) (bytes : List (BitVec 8)) (b : BitVec 8) :
    shiftIn acc (bytes ++ [b]) = (shiftIn acc bytes <<< 8) ||| b.setWidth w := by
  rw [shiftIn, List.foldl_append]
  rfl

/-- One shift: the new byte below, the word moved up by eight. -/
theorem getLsbD_shiftLeft_or (a : BitVec w) (b : BitVec 8) {n : ℕ} (hn : n < w) :
    ((a <<< 8) ||| b.setWidth w).getLsbD n = if n < 8 then b.getLsbD n else a.getLsbD (n - 8) := by
  rw [BitVec.getLsbD_or, BitVec.getLsbD_shiftLeft, BitVec.getLsbD_setWidth]
  by_cases h8 : n < 8
  · simp [h8, hn]
  · simp [h8, hn, BitVec.getLsbD_of_ge b n (by omega)]

/-- The bits of the word: the string's from the top, below the accumulator's. -/
theorem getLsbD_shiftIn (acc : BitVec w) (bytes : List (BitVec 8)) {n : ℕ} (hn : n < w) :
    (shiftIn acc bytes).getLsbD n =
      if n < 8 * bytes.length then bitFromTop bytes (8 * bytes.length - 1 - n)
      else acc.getLsbD (n - 8 * bytes.length) := by
  -- induction from the last byte, the one shifted in last
  induction bytes using List.reverseRecOn generalizing n with
  | nil => simp [shiftIn]
  | append_singleton bytes b ih =>
    rw [shiftIn_append_singleton, getLsbD_shiftLeft_or _ _ hn, List.length_append, List.length_singleton]
    by_cases h8 : n < 8
    · rw [if_pos h8, if_pos (by omega), bitFromTop_append_singleton _ _ (by omega) (by omega)]
      congr 1
      omega
    · rw [if_neg h8, ih (by omega)]
      by_cases hlow : n - 8 < 8 * bytes.length
      · rw [if_pos hlow, if_pos (by omega), bitFromTop_append_of_lt _ (by omega)]
        congr 1
        omega
      · rw [if_neg hlow, if_neg (by omega)]
        congr 1
        omega

/-- The bits split off a word are its bits, from the top of the last `n` bytes. -/
theorem bitFromTop_splitOff (n : ℕ) (a : BitVec w) {i : ℕ} (hi : i < 8 * n) :
    bitFromTop (splitOff n a) i = a.getLsbD (8 * n - 1 - i) := by
  induction n generalizing a with
  | zero => omega
  | succ n ih =>
    rw [splitOff]
    by_cases hlow : i < 8 * n
    · rw [bitFromTop_append_of_lt _ (by rw [length_splitOff]; exact hlow), ih _ hlow,
        BitVec.getLsbD_ushiftRight]
      congr 1
      omega
    · -- the last byte: the low byte of the word
      rw [bitFromTop_append_singleton _ _ (by rw [length_splitOff]; omega) (by rw [length_splitOff]; omega),
        BitVec.getLsbD_setWidth]
      simp only [show 7 - i % 8 < 8 by omega, decide_true, Bool.true_and]
      congr 1
      omega

/-! ## Counting ones -/

/-- A count over a range stops at the last position that can count. -/
theorem countP_range_of_ge {p : ℕ → Bool} {m n : ℕ} (hmn : m ≤ n) (hp : ∀ k, m ≤ k → k < n → p k = false) :
    (List.range n).countP p = (List.range m).countP p := by
  obtain ⟨d, rfl⟩ := Nat.exists_eq_add_of_le hmn
  have hzero : (List.range d).countP (p ∘ (m + ·)) = 0 := by
    apply List.countP_eq_zero.mpr
    intro k hk
    have := List.mem_range.mp hk
    simpa using hp (m + k) (by omega) (by omega)
  rw [List.range_add, List.countP_append, List.countP_map, hzero, Nat.add_zero]

/-- One shift adds the ones of the new byte, while the word's ones stay below its top byte. -/
theorem popCount_shiftLeft_or {a : BitVec w} (b : BitVec 8) (hw : 8 ≤ w)
    (ha : ∀ n, w - 8 ≤ n → a.getLsbD n = false) :
    popCount ((a <<< 8) ||| b.setWidth w) = popCount a + popCount b := by
  obtain ⟨d, rfl⟩ := Nat.exists_eq_add_of_le hw
  have hlow : (List.range 8).countP ((a <<< 8) ||| b.setWidth (8 + d)).getLsbD = popCount b := by
    apply List.countP_congr
    intro k hk
    rw [getLsbD_shiftLeft_or _ _ (by have := List.mem_range.mp hk; omega), if_pos (List.mem_range.mp hk)]
  -- the word's ones all lie below `w - 8`, where the shift moves them
  have hhigh : popCount a = (List.range d).countP a.getLsbD :=
    countP_range_of_ge (by omega) fun k hk _ => ha k (by omega)
  rw [popCount, List.range_add, List.countP_append, hlow, List.countP_map, hhigh, Nat.add_comm]
  congr 1
  apply List.countP_congr
  intro k hk
  rw [Function.comp_apply, getLsbD_shiftLeft_or _ _ (by have := List.mem_range.mp hk; omega),
    if_neg (by omega), Nat.add_sub_cancel_left]

/-- The ones of the bytes shifted into a zero word that holds them all. -/
theorem popCount_shiftIn_zero (bytes : List (BitVec 8)) (h : 8 * bytes.length ≤ w) :
    popCount (shiftIn (0 : BitVec w) bytes) = (bytes.map popCount).sum := by
  induction bytes using List.reverseRecOn with
  | nil => simp [shiftIn, popCount]
  | append_singleton bytes b ih =>
    rw [List.length_append, List.length_singleton] at h
    have hzero : ∀ n, w - 8 ≤ n → (shiftIn (0 : BitVec w) bytes).getLsbD n = false := by
      intro n hn
      by_cases hnw : n < w
      · rw [getLsbD_shiftIn _ _ hnw, if_neg (by omega)]
        simp
      · exact BitVec.getLsbD_of_ge _ _ (by omega)
    rw [shiftIn_append_singleton, popCount_shiftLeft_or _ (by omega) hzero, ih (by omega), List.map_append,
      List.sum_append, List.map_singleton, List.sum_singleton]

/-- Reading a word from the other end keeps its ones. -/
theorem popCount_reverse (x : BitVec w) : popCount x.reverse = popCount x := by
  have hrev : (List.range w).reverse = (List.range w).map (fun i => w - 1 - i) := by
    rw [List.range_eq_range', List.reverse_range', Nat.zero_add, ← List.range_eq_range']
  calc popCount x.reverse = (List.range w).countP (x.getLsbD ∘ fun i => w - 1 - i) := by
        apply List.countP_congr
        intro i hi
        rw [Function.comp_apply, BitVec.getLsbD_reverse, BitVec.getMsbD, decide_eq_true (List.mem_range.mp hi),
          Bool.true_and]
    _ = (List.range w).reverse.countP x.getLsbD := by rw [hrev, List.countP_map]
    _ = popCount x := List.countP_reverse

/-- Cutting a word above its ones keeps them. -/
theorem popCount_setWidth {v : ℕ} (x : BitVec w) (hv : v ≤ w) (hx : ∀ n, v ≤ n → x.getLsbD n = false) :
    popCount (x.setWidth v) = popCount x := by
  rw [popCount, popCount, countP_range_of_ge hv fun k hk _ => hx k hk]
  apply List.countP_congr
  intro k hk
  rw [BitVec.getLsbD_setWidth, decide_eq_true (List.mem_range.mp hk), Bool.true_and]

/-- Every position of a word is a one of it or of its complement. -/
theorem popCount_add_popCount_not (x : BitVec w) : popCount x + popCount (~~~x) = w := by
  have hsplit := List.length_eq_countP_add_countP x.getLsbD (l := List.range w)
  rw [List.length_range] at hsplit
  have hnot : popCount (~~~x) = (List.range w).countP fun k => decide ¬x.getLsbD k = true := by
    apply List.countP_congr
    intro k hk
    simp [List.mem_range.mp hk]
  rw [hnot, popCount, ← hsplit]

/-- Over a string, the ones and the zeros of the bytes add up to eight a byte. -/
theorem sum_popCount_add_sum_popCount_not (bytes : List (BitVec 8)) :
    (bytes.map popCount).sum + (bytes.map fun b => popCount (~~~b)).sum = 8 * bytes.length := by
  induction bytes with
  | nil => rfl
  | cons b bytes ih =>
    have hb := popCount_add_popCount_not b
    simp only [List.map_cons, List.sum_cons, List.length_cons]
    omega

end PolkadotSdk.ByteBits
