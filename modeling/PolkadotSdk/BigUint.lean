import PolkadotSdk.Limbs
import Mathlib.Tactic.Linarith

/-!
# `BigUint`: schoolbook arithmetic on limbs

`sp_arithmetic::biguint::BigUint` keeps its limbs (`Single = u32`) most significant first.
`get`, `checked_get` and `set` index them from the least significant end, and `add`, `sub` and
`mul` are Knuth's algorithms A, S and M over that indexing, with the intermediate sums in
`Double = u64`; those sums stay below `B^2`, which the lemmas here check, so they are modelled
as naturals. `cmp` skips the leading zero limbs, compares the lengths of what is left and then
the limbs lexicographically.

Each loop keeps a conservation law over the limbs it has written: what is written plus the
carry (or minus the borrow) at the current weight is what has been read. At the end of the
loop that gives the value of the result.
-/

namespace PolkadotSdk

open Limbs

/-- `BigUint`: its limbs, most significant first. -/
structure BigUint where
  digits : List UInt32
  deriving DecidableEq

namespace BigUint

/-- `B`: one more than the largest limb. -/
def base : ℕ := 2 ^ 32

/-- `with_capacity`: `size` zero limbs, and at least one. -/
def withCapacity (size : ℕ) : BigUint := ⟨List.replicate (max size 1) 0⟩

/-- `len`. -/
def len (x : BigUint) : ℕ := x.digits.length

/-- `get`: limb `index` counted from the least significant; out of range the source panics. -/
def get (x : BigUint) (index : ℕ) : UInt32 := x.digits.getD (x.len - 1 - index) 0

/-- `checked_get`. -/
def checkedGet (x : BigUint) (index : ℕ) : Option UInt32 :=
  if x.len = 0 then none else if x.len - 1 < index then none else x.digits[x.len - 1 - index]?

/-- `set`: replace limb `index`; out of range the source panics. -/
def set (x : BigUint) (index : ℕ) (value : UInt32) : BigUint := ⟨x.digits.set (x.len - 1 - index) value⟩

/-! ## Addition, subtraction and multiplication -/

/-- Round `j` of the loop of `add`: the limbs and the carry are added and the low limb written. -/
def addStep (self other : BigUint) (acc : ℕ × BigUint) (j : ℕ) : ℕ × BigUint :=
  let u := ((self.checkedGet j).getD 0).toNat
  let v := ((other.checkedGet j).getD 0).toNat
  let s := u + v + acc.1
  (s / base, acc.2.set j (UInt32.ofNat (s % base)))

/-- `add`: `n + 1` limbs, for `n` the longer length. -/
def add (self other : BigUint) : BigUint :=
  let n := max self.len other.len
  let r := (List.range n).foldl (addStep self other) (0, withCapacity (n + 1))
  r.2.set n (UInt32.ofNat r.1)

/-- Round `j` of the loop of `sub`: the limb of `other` and the borrow are taken from the limb of
`self`, borrowing `B` when they do not fit. -/
def subStep (self other : BigUint) (acc : ℕ × BigUint) (j : ℕ) : ℕ × BigUint :=
  let u := ((self.checkedGet j).getD 0).toNat
  let v := ((other.checkedGet j).getD 0).toNat
  let k := acc.1
  -- `u.checked_sub(v).and_then(|v1| v1.checked_sub(k))`
  if v ≤ u ∧ k ≤ u - v then (0, acc.2.set j (UInt32.ofNat (u - v - k)))
  else (1, acc.2.set j (UInt32.ofNat (u + base - v - k)))

/-- `sub`: `Ok` when no borrow is left, `Err` with the limbs otherwise. -/
def sub (self other : BigUint) : Except BigUint BigUint :=
  let n := max self.len other.len
  let r := (List.range n).foldl (subStep self other) (0, withCapacity n)
  if r.1 = 0 then .ok r.2 else .error r.2

/-- Round `i` of the inner loop of `mul` for row `j`: limb `i + j` takes the product of limbs `j`
of `self` and `i` of `other`, with the carry. -/
def mulInnerStep (self other : BigUint) (j : ℕ) (acc : ℕ × BigUint) (i : ℕ) : ℕ × BigUint :=
  let t := (self.get j).toNat * (other.get i).toNat + (acc.2.get (i + j)).toNat + acc.1
  ((t / base) % base, acc.2.set (i + j) (UInt32.ofNat (t % base)))

/-- Row `j` of `mul`, skipped where limb `j` of `self` is zero: `with_capacity` has zero-filled
limb `j + m` already. -/
def mulStep (self other : BigUint) (w : BigUint) (j : ℕ) : BigUint :=
  if self.get j = 0 then w
  else
    let r := (List.range other.len).foldl (mulInnerStep self other j) (0, w)
    r.2.set (j + other.len) (UInt32.ofNat r.1)

/-- `mul`. -/
def mul (self other : BigUint) : BigUint :=
  (List.range self.len).foldl (mulStep self other) (withCapacity (other.len + self.len))

/-! ## Comparison -/

/-- `Ord` on `[u32]`: lexicographic, a proper prefix first. -/
def lexCmp : List UInt32 → List UInt32 → Ordering
  | [], [] => .eq
  | [], _ :: _ => .lt
  | _ :: _, [] => .gt
  | a :: as, b :: bs =>
    match compare a.toNat b.toNat with
    | .eq => lexCmp as bs
    | c => c

/-- `Ord::cmp`: past the leading zero limbs, the longer number is the larger, and numbers of one
length compare limb by limb. -/
def cmp (self other : BigUint) : Ordering :=
  match self.digits.findIdx? (fun e => e != 0), other.digits.findIdx? (fun e => e != 0) with
  | none, none => .eq
  | some _, none => .gt
  | none, some _ => .lt
  | some lhsIdx, some rhsIdx =>
    let lhs := self.digits.drop lhsIdx
    let rhs := other.digits.drop rhsIdx
    match compare lhs.length rhs.length with
    | .eq => lexCmp lhs rhs
    | c => c

/-- `PartialEq::eq`. -/
def eq (self other : BigUint) : Bool := self.cmp other == .eq

/-! ## Values -/

/-- The number the limbs stand for, most significant first. -/
def digitsValue : List UInt32 → ℕ
  | [] => 0
  | d :: ds => d.toNat * base ^ ds.length + digitsValue ds

/-- The number a `BigUint` stands for. -/
def value (x : BigUint) : ℕ := digitsValue x.digits

/-- Limb `i` as a number, counted from the least significant, zero above the top. -/
def limb (x : BigUint) (i : ℕ) : ℕ := if i < x.len then (x.get i).toNat else 0

theorem base_eq : base = 4294967296 := rfl

theorem limb_lt (x : BigUint) (i : ℕ) : x.limb i < base := by
  unfold limb
  split
  · exact (x.get i).toNat_lt
  · decide

theorem limb_of_le {x : BigUint} {i : ℕ} (h : x.len ≤ i) : x.limb i = 0 := by
  rw [limb, if_neg (by omega)]

theorem get_toNat {x : BigUint} {i : ℕ} (h : i < x.len) : (x.get i).toNat = x.limb i := by
  rw [limb, if_pos h]

theorem checkedGet_toNat (x : BigUint) (j : ℕ) : ((x.checkedGet j).getD 0).toNat = x.limb j := by
  unfold checkedGet limb get
  by_cases h0 : x.len = 0
  · rw [if_pos h0, if_neg (by omega)]
    rfl
  · by_cases hj : x.len - 1 < j
    · rw [if_neg h0, if_pos hj, if_neg (by omega)]
      rfl
    · rw [if_neg h0, if_neg hj, if_pos (by omega), List.getD_eq_getElem?_getD]

theorem len_set (x : BigUint) (idx : ℕ) (v : UInt32) : (x.set idx v).len = x.len :=
  List.length_set

/-- Writing a limb in range replaces that limb and no other. -/
theorem limb_set {x : BigUint} {idx : ℕ} (h : idx < x.len) (v : UInt32) :
    (x.set idx v).limb = Function.update x.limb idx v.toNat := by
  funext i
  unfold limb get
  rw [len_set]
  by_cases hi : i < x.len
  · rw [if_pos hi]
    by_cases hii : i = idx
    · subst hii
      rw [Function.update_self, set, List.getD_eq_getElem?_getD, List.getElem?_set, if_pos rfl,
        if_pos (by unfold len at *; omega)]
      rfl
    · rw [Function.update_of_ne hii, if_pos hi, set, List.getD_eq_getElem?_getD, List.getElem?_set,
        if_neg (by unfold len at *; omega), ← List.getD_eq_getElem?_getD]
  · rw [if_neg hi, Function.update_of_ne (by omega), if_neg hi]

@[simp] theorem len_withCapacity (size : ℕ) : (withCapacity size).len = max size 1 := List.length_replicate

theorem limb_withCapacity (size i : ℕ) : (withCapacity size).limb i = 0 := by
  unfold limb get withCapacity
  split
  · rw [List.getD_eq_getElem?_getD, List.getElem?_replicate]
    split <;> rfl
  · rfl

theorem limbsValue_withCapacity (size N : ℕ) : limbsValue base (withCapacity size).limb N = 0 := by
  rw [limbsValue_of_eq_zero (n := 0) (Nat.zero_le N) fun i _ _ => limb_withCapacity size i, limbsValue_zero]

/-- The first limb, most significant, stands on top of the others. -/
theorem limb_cons_of_lt (d : UInt32) (ds : List UInt32) {i : ℕ} (hi : i < ds.length) :
    limb ⟨d :: ds⟩ i = limb ⟨ds⟩ i := by
  unfold limb get len
  simp only [List.length_cons]
  rw [if_pos (by omega), if_pos hi, show ds.length + 1 - 1 - i = (ds.length - 1 - i) + 1 by omega]
  rfl

theorem digitsValue_eq_limbsValue (ds : List UInt32) : digitsValue ds = limbsValue base (limb ⟨ds⟩) ds.length := by
  induction ds with
  | nil => rfl
  | cons d ds ih =>
    have htop : limb ⟨d :: ds⟩ ds.length = d.toNat := by
      unfold limb get len
      simp
    rw [digitsValue, List.length_cons, limbsValue_succ, htop,
      limbsValue_congr fun i hi => limb_cons_of_lt d ds hi, ← ih, Nat.add_comm]

/-- The value is the limbs' number, over any width that holds them. -/
theorem value_eq (x : BigUint) {N : ℕ} (hN : x.len ≤ N) : x.value = limbsValue base x.limb N := by
  rw [value, digitsValue_eq_limbsValue, limbsValue_of_eq_zero hN fun i hi _ => limb_of_le hi]
  rfl

theorem value_lt (x : BigUint) : x.value < base ^ x.len := by
  rw [value_eq x le_rfl]
  exact limbsValue_lt fun i _ => limb_lt x i

/-! ## The loops of `add` and `sub` -/

/-- After `j` rounds of `add` into `w0`: the written limbs and the carry at weight `B^j` hold
the sum of the limbs read, the carry is a bit, and the limbs from `j` on are untouched. -/
theorem foldl_addStep (self other w0 : BigUint) {j : ℕ} (hj : j ≤ w0.len) :
    let r := (List.range j).foldl (addStep self other) (0, w0)
    r.2.len = w0.len ∧ r.1 ≤ 1 ∧ (∀ i, j ≤ i → r.2.limb i = w0.limb i) ∧
      limbsValue base r.2.limb j + r.1 * base ^ j = limbsValue base self.limb j + limbsValue base other.limb j := by
  induction j with
  | zero => exact ⟨rfl, Nat.zero_le _, fun _ _ => rfl, by simp⟩
  | succ j ih =>
    obtain ⟨hlen, hk, hframe, hval⟩ := ih (by omega)
    rw [List.range_succ, List.foldl_append, List.foldl_cons, List.foldl_nil]
    set r := (List.range j).foldl (addStep self other) (0, w0)
    unfold addStep
    dsimp only
    rw [checkedGet_toNat, checkedGet_toNat]
    set s := self.limb j + other.limb j + r.1 with hs
    have hu := limb_lt self j
    have hv := limb_lt other j
    have hjr : j < r.2.len := by omega
    have hmod : (UInt32.ofNat (s % base)).toNat = s % base := by
      rw [UInt32.toNat_ofNat', Nat.mod_eq_of_lt (by rw [base_eq] at *; omega)]
    refine ⟨by rw [len_set, hlen], by rw [base_eq] at *; omega, fun i hi => ?_, ?_⟩
    · rw [limb_set hjr, Function.update_of_ne (by omega), hframe i (by omega)]
    · -- the new low limb and the new carry make up the sum at weight `B^j`
      have hsplit : s % base * base ^ j + s / base * base ^ (j + 1) = s * base ^ j := by
        rw [pow_succ, ← Nat.mod_add_div s base]
        simp only [Nat.add_mul_mod_self_left, Nat.mod_mod, Nat.add_mul_div_left _ _ (by decide : 0 < base),
          Nat.div_eq_of_lt (Nat.mod_lt s (by decide : 0 < base)), Nat.zero_add]
        ring
      rw [limb_set hjr, limbsValue_succ, Function.update_self, hmod,
        limbsValue_congr fun i hi => Function.update_of_ne (by omega) _ _, limbsValue_succ, limbsValue_succ]
      have hexp : s * base ^ j = self.limb j * base ^ j + other.limb j * base ^ j + r.1 * base ^ j := by
        rw [hs]
        ring
      omega

/-- `add` is the sum, in one limb more than the longer operand. -/
theorem add_spec (u v : BigUint) : (u.add v).value = u.value + v.value ∧ (u.add v).len = max u.len v.len + 1 := by
  set n := max u.len v.len
  obtain ⟨hlen, hk, -, hval⟩ := foldl_addStep u v (withCapacity (n + 1)) (j := n) (by simp)
  set r := (List.range n).foldl (addStep u v) (0, withCapacity (n + 1))
  have hlen' : r.2.len = n + 1 := by rw [hlen, len_withCapacity]; omega
  have hset : (u.add v).len = n + 1 := by
    unfold add
    rw [len_set, hlen']
  refine ⟨?_, hset⟩
  have hkt : (UInt32.ofNat r.1).toNat = r.1 := by rw [UInt32.toNat_ofNat', Nat.mod_eq_of_lt (by omega)]
  have hnr : n < r.2.len := by omega
  rw [value_eq _ hset.le, value_eq u (le_max_left _ _), value_eq v (le_max_right _ _), ← hval]
  unfold add
  dsimp only
  rw [limb_set hnr, limbsValue_succ, Function.update_self, hkt,
    limbsValue_congr fun i hi => Function.update_of_ne (by omega) _ _]

/-- After `j` rounds of `sub` into `w0`: the written limbs and the limbs of `other` hold the
limbs of `self` and the borrow at weight `B^j`, the borrow is a bit, and the limbs from `j` on
are untouched. -/
theorem foldl_subStep (self other w0 : BigUint) {j : ℕ} (hj : j ≤ w0.len) :
    let r := (List.range j).foldl (subStep self other) (0, w0)
    r.2.len = w0.len ∧ r.1 ≤ 1 ∧ (∀ i, j ≤ i → r.2.limb i = w0.limb i) ∧
      limbsValue base r.2.limb j + limbsValue base other.limb j = limbsValue base self.limb j + r.1 * base ^ j := by
  induction j with
  | zero => exact ⟨rfl, Nat.zero_le _, fun _ _ => rfl, by simp⟩
  | succ j ih =>
    obtain ⟨hlen, hk, hframe, hval⟩ := ih (by omega)
    rw [List.range_succ, List.foldl_append, List.foldl_cons, List.foldl_nil]
    set r := (List.range j).foldl (subStep self other) (0, w0)
    unfold subStep
    dsimp only
    rw [checkedGet_toNat, checkedGet_toNat]
    have hu := limb_lt self j
    have hv := limb_lt other j
    have hjr : j < r.2.len := by omega
    rw [base_eq] at hu hv
    have hpow : base ^ (j + 1) = base ^ j * 4294967296 := by rw [pow_succ, base_eq]
    split
    · -- no borrow: the difference is written as it is
      rename_i hno
      have hw : (UInt32.ofNat (self.limb j - other.limb j - r.1)).toNat = self.limb j - other.limb j - r.1 := by
        rw [UInt32.toNat_ofNat', Nat.mod_eq_of_lt (by omega)]
      refine ⟨by rw [len_set, hlen], Nat.zero_le _, fun i hi => ?_, ?_⟩
      · rw [limb_set hjr, Function.update_of_ne (by omega), hframe i (by omega)]
      · rw [limb_set hjr, limbsValue_succ, Function.update_self, hw,
          limbsValue_congr fun i hi => Function.update_of_ne (by omega) _ _, limbsValue_succ, limbsValue_succ]
        have hdiff : (self.limb j - other.limb j - r.1) * base ^ j + other.limb j * base ^ j + r.1 * base ^ j =
            self.limb j * base ^ j := by
          rw [← Nat.add_mul, ← Nat.add_mul]
          congr 1
          omega
        rw [Nat.zero_mul]
        omega
    · -- a borrow: `B` is added to the limb of `self` first, so nothing underflows
      rename_i hbor
      have hw : (UInt32.ofNat (self.limb j + base - other.limb j - r.1)).toNat =
          self.limb j + base - other.limb j - r.1 := by
        rw [UInt32.toNat_ofNat', base_eq, Nat.mod_eq_of_lt (by omega)]
      refine ⟨by rw [len_set, hlen], le_rfl, fun i hi => ?_, ?_⟩
      · rw [limb_set hjr, Function.update_of_ne (by omega), hframe i (by omega)]
      · rw [limb_set hjr, limbsValue_succ, Function.update_self, hw,
          limbsValue_congr fun i hi => Function.update_of_ne (by omega) _ _, limbsValue_succ, limbsValue_succ]
        have hdiff : (self.limb j + base - other.limb j - r.1) * base ^ j + other.limb j * base ^ j +
            r.1 * base ^ j = self.limb j * base ^ j + 1 * base ^ (j + 1) := by
          rw [hpow, ← Nat.add_mul, ← Nat.add_mul, Nat.one_mul, Nat.mul_comm (base ^ j), ← Nat.add_mul]
          congr 1
          rw [base_eq]
          omega
        omega

/-- `sub` is `Ok` with the difference when `other` is at most `self`, and `Err` with the
difference plus `B^n` otherwise. -/
theorem sub_spec (u v : BigUint) :
    (v.value ≤ u.value → ∃ w, u.sub v = .ok w ∧ w.value = u.value - v.value) ∧
      (u.value < v.value → ∃ w, u.sub v = .error w ∧
        (w.value : ℤ) = u.value - v.value + base ^ max u.len v.len) := by
  set n := max u.len v.len
  have hcap : n ≤ (withCapacity n).len := by simp
  obtain ⟨hlen, hk, hframe, hval⟩ := foldl_subStep u v (withCapacity n) hcap
  set r := (List.range n).foldl (subStep u v) (0, withCapacity n)
  -- the limbs of the result above `n` are those of `with_capacity`, all zero
  have hw : r.2.value = limbsValue base r.2.limb n := by
    rw [value_eq r.2 le_rfl, limbsValue_of_eq_zero (n := n) (by omega) fun i hi _ => by rw [hframe i hi, limb_withCapacity]]
  have hu : u.value = limbsValue base u.limb n := value_eq u (le_max_left _ _)
  have hv : v.value = limbsValue base v.limb n := value_eq v (le_max_right _ _)
  have hwlt : r.2.value < base ^ n := by
    rw [hw]
    exact limbsValue_lt fun i _ => limb_lt r.2 i
  have hsub : u.sub v = if r.1 = 0 then .ok r.2 else .error r.2 := rfl
  rcases Nat.le_one_iff_eq_zero_or_eq_one.mp hk with h0 | h1
  · have heq : r.2.value + v.value = u.value := by rw [hw, hu, hv, hval, h0, Nat.zero_mul, Nat.add_zero]
    refine ⟨fun _ => ⟨r.2, by rw [hsub, if_pos h0], by omega⟩, fun hlt => absurd hlt (by omega)⟩
  · have heq : r.2.value + v.value = u.value + base ^ n := by rw [hw, hu, hv, hval, h1, Nat.one_mul]
    have hz := congrArg (fun x : ℕ => (x : ℤ)) heq
    push_cast at hz
    refine ⟨fun hle => absurd hle (by omega), fun _ => ⟨r.2, by rw [hsub, if_neg (by omega)], by linarith⟩⟩

/-! ## The loops of `mul` -/

/-- After `i` rounds of row `j` into `w0`: the limbs written and the carry at weight `B^(i+j)`
add limb `j` of `self` times the first `i` limbs of `other` at weight `B^j`; the carry is a
limb, and only limbs `j` to `i + j - 1` have changed. -/
theorem foldl_mulInnerStep (self other w0 : BigUint) (j : ℕ) {i : ℕ} (hi : i + j ≤ w0.len) (him : i ≤ other.len) :
    let r := (List.range i).foldl (mulInnerStep self other j) (0, w0)
    r.2.len = w0.len ∧ r.1 < base ∧ (∀ p, i + j ≤ p → r.2.limb p = w0.limb p) ∧
      limbsValue base r.2.limb w0.len + r.1 * base ^ (i + j) =
        limbsValue base w0.limb w0.len + (self.get j).toNat * limbsValue base other.limb i * base ^ j := by
  induction i with
  | zero => exact ⟨rfl, show 0 < base by decide, fun _ _ => rfl, by simp⟩
  | succ i ih =>
    obtain ⟨hlen, hk, hframe, hval⟩ := ih (by omega) (by omega)
    rw [List.range_succ, List.foldl_append, List.foldl_cons, List.foldl_nil]
    set r := (List.range i).foldl (mulInnerStep self other j) (0, w0)
    unfold mulInnerStep
    dsimp only
    have hij : i + j < r.2.len := by omega
    set uj := (self.get j).toNat
    set t := uj * (other.get i).toNat + (r.2.get (i + j)).toNat + r.1 with ht
    -- `t` fits in two limbs, so the carry is a limb and nothing overflows a `u64`
    have huj : uj < base := (self.get j).toNat_lt
    have hvi : (other.get i).toNat < base := (other.get i).toNat_lt
    have hwij : (r.2.get (i + j)).toNat = r.2.limb (i + j) := get_toNat hij
    have hprod : uj * (other.get i).toNat ≤ (base - 1) * (base - 1) := Nat.mul_le_mul (by omega) (by omega)
    have hwl := limb_lt r.2 (i + j)
    rw [base_eq] at huj hvi hprod hwl hk
    have htlt : t < 4294967296 * 4294967296 := by omega
    have hcarry : t / base % base = t / base := Nat.mod_eq_of_lt (by rw [base_eq]; omega)
    have hlow : (UInt32.ofNat (t % base)).toNat = t % base := by
      rw [UInt32.toNat_ofNat', Nat.mod_eq_of_lt (by rw [base_eq]; omega)]
    refine ⟨by rw [len_set, hlen], by rw [hcarry, base_eq]; omega, fun p hp => ?_, ?_⟩
    · rw [limb_set hij, Function.update_of_ne (by omega), hframe p (by omega)]
    · have hupd := limbsValue_update (b := base) (f := r.2.limb) (show i + j < w0.len by omega) (t % base)
      rw [limb_set hij, hlow, hcarry]
      -- the other limb is `i`, which stands at weight `B^i` in the limbs of `other`
      have hvi' : (other.get i).toNat = other.limb i := get_toNat (by omega)
      have hsplit : t % base * base ^ (i + j) + t / base * base ^ (i + 1 + j) = t * base ^ (i + j) := by
        rw [show i + 1 + j = (i + j) + 1 by omega, pow_succ, ← Nat.mod_add_div t base]
        simp only [Nat.add_mul_mod_self_left, Nat.mod_mod, Nat.add_mul_div_left _ _ (by decide : 0 < base),
          Nat.div_eq_of_lt (Nat.mod_lt t (by decide : 0 < base)), Nat.zero_add]
        ring
      have hexp : t * base ^ (i + j) = uj * limbsValue base other.limb (i + 1) * base ^ j
          - uj * limbsValue base other.limb i * base ^ j + r.2.limb (i + j) * base ^ (i + j) + r.1 * base ^ (i + j) := by
        rw [ht, hwij, hvi', limbsValue_succ, pow_add]
        have : uj * (limbsValue base other.limb i + other.limb i * base ^ i) * base ^ j =
            uj * limbsValue base other.limb i * base ^ j + uj * other.limb i * (base ^ i * base ^ j) := by ring
        rw [this, Nat.add_sub_cancel_left]
        ring
      have hmono : uj * limbsValue base other.limb i * base ^ j ≤ uj * limbsValue base other.limb (i + 1) * base ^ j := by
        rw [limbsValue_succ]
        exact Nat.mul_le_mul_right _ (Nat.mul_le_mul_left _ (Nat.le_add_right _ _))
      omega

/-- After `j` rows of `mul` the result holds the first `j` limbs of `self` times `other`, and its
limbs from `j + m` on are still zero. -/
theorem foldl_mulStep (self other : BigUint) {j : ℕ} (hj : j ≤ self.len) :
    let w := (List.range j).foldl (mulStep self other) (withCapacity (other.len + self.len))
    w.len = max (other.len + self.len) 1 ∧ (∀ p, j + other.len ≤ p → w.limb p = 0) ∧
      limbsValue base w.limb w.len = limbsValue base self.limb j * other.value := by
  induction j with
  | zero =>
    refine ⟨len_withCapacity _, fun p _ => limb_withCapacity _ p, ?_⟩
    show limbsValue base (withCapacity _).limb _ = limbsValue base self.limb 0 * other.value
    rw [limbsValue_withCapacity, limbsValue_zero, Nat.zero_mul]
  | succ j ih =>
    obtain ⟨hlen, hzero, hval⟩ := ih (by omega)
    rw [List.range_succ, List.foldl_append, List.foldl_cons, List.foldl_nil]
    set w := (List.range j).foldl (mulStep self other) (withCapacity (other.len + self.len))
    have hjs : j < self.len := by omega
    have huj : (self.get j).toNat = self.limb j := get_toNat hjs
    unfold mulStep
    split
    · -- a zero limb of `self` adds nothing
      rename_i hz
      have h0 : self.limb j = 0 := by rw [← huj, hz]; rfl
      refine ⟨hlen, fun p hp => hzero p (by omega), ?_⟩
      rw [hval, limbsValue_succ, h0, Nat.zero_mul, Nat.add_zero]
    · dsimp only
      have hroom : other.len + j ≤ w.len := by omega
      obtain ⟨hlen', hk, hframe, hval'⟩ := foldl_mulInnerStep self other w j hroom le_rfl
      set r := (List.range other.len).foldl (mulInnerStep self other j) (0, w)
      have htop : j + other.len < r.2.len := by omega
      -- limb `j + m` is still the zero of `with_capacity`
      have hz : r.2.limb (j + other.len) = 0 := by rw [hframe _ (by omega), hzero _ (by omega)]
      have hkt : (UInt32.ofNat r.1).toNat = r.1 := by
        rw [UInt32.toNat_ofNat', Nat.mod_eq_of_lt (by rw [base_eq] at hk; omega)]
      refine ⟨by rw [len_set, hlen', hlen], fun p hp => ?_, ?_⟩
      · rw [limb_set htop, Function.update_of_ne (by omega), hframe p (by omega), hzero p (by omega)]
      · have hupd := limbsValue_update (b := base) (f := r.2.limb) htop (UInt32.ofNat r.1).toNat
        rw [hz, Nat.zero_mul, Nat.add_zero, hkt, hlen'] at hupd
        rw [len_set, hlen', limb_set htop, hkt, hupd, Nat.add_comm j, hval', hval, huj, value_eq other le_rfl,
          limbsValue_succ]
        ring

/-- `mul` is the product, in `n + m` limbs and at least one. -/
theorem mul_spec (u v : BigUint) : (u.mul v).value = u.value * v.value ∧ (u.mul v).len = max (u.len + v.len) 1 := by
  obtain ⟨hlen, -, hval⟩ := foldl_mulStep u v (j := u.len) le_rfl
  refine ⟨?_, by rw [mul, hlen, Nat.add_comm]⟩
  rw [mul, value_eq _ le_rfl, hval, ← value_eq u le_rfl]

/-! ## Comparison -/

theorem digitsValue_lt (ds : List UInt32) : digitsValue ds < base ^ ds.length := by
  have h := value_lt ⟨ds⟩
  exact h

theorem digitsValue_append (ds es : List UInt32) :
    digitsValue (ds ++ es) = digitsValue ds * base ^ es.length + digitsValue es := by
  induction ds with
  | nil => simp [digitsValue]
  | cons d ds ih =>
    rw [List.cons_append, digitsValue, ih, digitsValue, List.length_append, pow_add]
    ring

/-- Zero limbs on top add nothing. -/
theorem digitsValue_of_forall_eq_zero {ds : List UInt32} (h : ∀ d ∈ ds, d = 0) : digitsValue ds = 0 := by
  induction ds with
  | nil => rfl
  | cons d ds ih =>
    rw [digitsValue, h d (by simp), ih fun e he => h e (by simp [he])]
    simp

/-- A nonzero top limb puts the number at least at the weight of its position. -/
theorem pow_le_digitsValue {d : UInt32} (hd : d ≠ 0) (ds : List UInt32) :
    base ^ ds.length ≤ digitsValue (d :: ds) := by
  have : 1 ≤ d.toNat := by
    rcases Nat.eq_zero_or_pos d.toNat with h | h
    · exact absurd (UInt32.toNat_inj.mp (by rw [h]; rfl)) hd
    · exact h
  rw [digitsValue]
  calc base ^ ds.length = 1 * base ^ ds.length := (Nat.one_mul _).symm
    _ ≤ d.toNat * base ^ ds.length := Nat.mul_le_mul_right _ this
    _ ≤ _ := Nat.le_add_right _ _

/-- Past the leading zero limbs the number is the same, and its top limb is nonzero. -/
theorem digitsValue_drop_of_findIdx? {ds : List UInt32} {l : ℕ} (h : ds.findIdx? (fun e => e != 0) = some l) :
    digitsValue ds = digitsValue (ds.drop l) ∧ ∃ d rest, ds.drop l = d :: rest ∧ d ≠ 0 := by
  obtain ⟨hl, hne, hzero⟩ := List.findIdx?_eq_some_iff_getElem.mp h
  refine ⟨?_, ds[l], ds.drop (l + 1), List.drop_eq_getElem_cons hl, by simpa using hne⟩
  conv_lhs => rw [← List.take_append_drop l ds]
  rw [digitsValue_append, digitsValue_of_forall_eq_zero, Nat.zero_mul, Nat.zero_add]
  intro d hd
  obtain ⟨i, hi, rfl⟩ := List.getElem_of_mem hd
  rw [List.getElem_take]
  simpa using hzero i (by rw [List.length_take] at hi; omega)

/-- Lists of one length compare limb by limb as their numbers do. -/
theorem lexCmp_eq_compare {ds es : List UInt32} (h : ds.length = es.length) :
    lexCmp ds es = compare (digitsValue ds) (digitsValue es) := by
  induction ds generalizing es with
  | nil =>
    rw [List.length_nil, eq_comm, List.length_eq_zero_iff] at h
    subst h
    rfl
  | cons d ds ih =>
    obtain ⟨e, es, rfl⟩ := List.exists_cons_of_length_eq_add_one h.symm
    have hlen : ds.length = es.length := by simpa using h
    have hd := digitsValue_lt ds
    have he := digitsValue_lt es
    rw [lexCmp, digitsValue, digitsValue, hlen]
    rw [hlen] at hd
    rcases lt_trichotomy d.toNat e.toNat with hlt | heq | hgt
    · -- the top limbs decide: a smaller top limb leaves a whole weight below
      have hle : (d.toNat + 1) * base ^ es.length ≤ e.toNat * base ^ es.length := Nat.mul_le_mul_right _ hlt
      rw [(compare_lt_iff_lt).mpr hlt, eq_comm, compare_lt_iff_lt]
      rw [Nat.add_mul, Nat.one_mul] at hle
      omega
    · rw [(compare_eq_iff_eq).mpr heq, ih hlen, heq]
      rcases lt_trichotomy (digitsValue ds) (digitsValue es) with h1 | h1 | h1
      · rw [(compare_lt_iff_lt).mpr h1, eq_comm, compare_lt_iff_lt]
        omega
      · rw [h1, (compare_eq_iff_eq).mpr rfl, (compare_eq_iff_eq).mpr rfl]
      · rw [(compare_gt_iff_gt).mpr h1, eq_comm, compare_gt_iff_gt]
        omega
    · have hle : (e.toNat + 1) * base ^ es.length ≤ d.toNat * base ^ es.length := Nat.mul_le_mul_right _ hgt
      rw [(compare_gt_iff_gt).mpr hgt, eq_comm, compare_gt_iff_gt]
      rw [Nat.add_mul, Nat.one_mul] at hle
      omega

/-- Numbers with nonzero top limbs: the longer is the larger. -/
theorem digitsValue_lt_of_length_lt {ds es : List UInt32} {e : UInt32} (he : e ≠ 0)
    (h : ds.length < (e :: es).length) : digitsValue ds < digitsValue (e :: es) := by
  have h1 := digitsValue_lt ds
  have h2 := pow_le_digitsValue he es
  have h3 : base ^ ds.length ≤ base ^ es.length := Nat.pow_le_pow_right (by decide) (by simp at h; omega)
  omega

/-- `cmp` compares the numbers, whatever their leading zero limbs. -/
theorem cmp_eq_compare (u v : BigUint) : u.cmp v = compare u.value v.value := by
  unfold cmp value
  rcases hu : u.digits.findIdx? (fun e => e != 0) with _ | l <;>
    rcases hv : v.digits.findIdx? (fun e => e != 0) with _ | r
  · -- both zero
    have h0 (ds : List UInt32) (h : ds.findIdx? (fun e => e != 0) = none) : digitsValue ds = 0 :=
      digitsValue_of_forall_eq_zero fun d hd => by simpa using List.findIdx?_eq_none_iff.mp h d hd
    rw [h0 _ hu, h0 _ hv]
    rfl
  · have hzero : digitsValue u.digits = 0 :=
      digitsValue_of_forall_eq_zero fun d hd => by simpa using List.findIdx?_eq_none_iff.mp hu d hd
    obtain ⟨hvd, e, es, hes, he⟩ := digitsValue_drop_of_findIdx? hv
    have := pow_le_digitsValue he es
    rw [hzero, hvd, hes, eq_comm, compare_lt_iff_lt]
    have : 0 < base ^ es.length := Nat.pow_pos (by decide)
    omega
  · have hzero : digitsValue v.digits = 0 :=
      digitsValue_of_forall_eq_zero fun d hd => by simpa using List.findIdx?_eq_none_iff.mp hv d hd
    obtain ⟨hud, d, ds, hds, hd⟩ := digitsValue_drop_of_findIdx? hu
    have := pow_le_digitsValue hd ds
    rw [hzero, hud, hds, eq_comm, compare_gt_iff_gt]
    have : 0 < base ^ ds.length := Nat.pow_pos (by decide)
    omega
  · obtain ⟨hud, d, ds, hds, hd⟩ := digitsValue_drop_of_findIdx? hu
    obtain ⟨hvd, e, es, hes, he⟩ := digitsValue_drop_of_findIdx? hv
    dsimp only
    rw [hud, hvd, hds, hes]
    rcases lt_trichotomy (d :: ds).length (e :: es).length with hlt | heq | hgt
    · rw [(compare_lt_iff_lt).mpr hlt, eq_comm, compare_lt_iff_lt]
      exact digitsValue_lt_of_length_lt he hlt
    · rw [(compare_eq_iff_eq).mpr heq]
      exact lexCmp_eq_compare heq
    · rw [(compare_gt_iff_gt).mpr hgt, eq_comm, compare_gt_iff_gt]
      exact digitsValue_lt_of_length_lt hd hgt

theorem eq_iff (u v : BigUint) : u.eq v = true ↔ u.value = v.value := by
  rw [eq, cmp_eq_compare, beq_iff_eq, compare_eq_iff_eq]

/-- Two `BigUint`s with no limbs at all: their product has the one limb of `with_capacity`. -/
theorem mul_empty_limbs : (mul ⟨[]⟩ ⟨[]⟩).len = 1 ∧ (⟨[]⟩ : BigUint).len + (⟨[]⟩ : BigUint).len = 0 := by
  decide

/-- Addition, subtraction, multiplication and comparison of limb vectors of any lengths, leading
zero limbs allowed: each is exact on the numbers the limbs stand for. -/
theorem biguint_arith_exact (u v : BigUint) :
    (u.add v).value = u.value + v.value ∧ (u.add v).len = max u.len v.len + 1 ∧
      (v.value ≤ u.value → ∃ w, u.sub v = .ok w ∧ w.value = u.value - v.value) ∧
      (u.value < v.value → ∃ w, u.sub v = .error w ∧
        (w.value : ℤ) = u.value - v.value + base ^ max u.len v.len) ∧
      (u.mul v).value = u.value * v.value ∧ (u.mul v).len = max (u.len + v.len) 1 ∧
      u.cmp v = compare u.value v.value ∧ (u.eq v = true ↔ u.value = v.value) :=
  ⟨(add_spec u v).1, (add_spec u v).2, (sub_spec u v).1, (sub_spec u v).2, (mul_spec u v).1, (mul_spec u v).2,
    cmp_eq_compare u v, eq_iff u v⟩

end BigUint

end PolkadotSdk
