import PolkadotSdk.BigUint

/-!
# `BigUint` division

`div_unit` divides by one limb, from the most significant limb down, carrying the remainder
into the next limb's dividend. `div` is Knuth's algorithm D: it refuses divisors of fewer than
two limbs and operands with a zero top limb or a dividend no longer than the divisor, normalises
both by a power of two, estimates each quotient limb from the top two limbs of the window,
subtracts the estimate times the divisor, adds the divisor back once if that went negative, and
shifts the remainder back.

Its guard reads the top limb of `self` with `msb()`, which indexes `digits[0]`: a `self` with no
limbs (`BigUint::default()`) panics there instead of being refused, once the divisor has passed
its own checks.
-/

namespace PolkadotSdk

open Limbs

namespace BigUint

/-- `From<Single>`. -/
def ofSingle (a : UInt32) : BigUint := ⟨[a]⟩

/-- `From<Double>`: `split` into the high and the low limb. -/
def ofDouble (a : ℕ) : BigUint := ⟨[UInt32.ofNat (a / base), UInt32.ofNat a]⟩

/-- `msb`: the top limb, `digits[0]`, which panics on no limbs. -/
def msb (x : BigUint) : Except String UInt32 :=
  match x.digits with
  | [] => .error "index out of bounds"
  | d :: _ => .ok d

/-- `lstrip`: drop the leading zero limbs, keeping at least one. -/
def lstrip (x : BigUint) : BigUint :=
  if x.len = 0 then x
  else
    let index := (x.digits.findIdx? fun e => e != 0).getD (x.len - 1)
    if index > 0 then ⟨x.digits.drop index⟩ else x

/-- `lpad`: zero limbs on top up to `size` limbs. -/
def lpad (x : BigUint) (size : ℕ) : BigUint :=
  if x.len ≥ size then x else ⟨List.replicate (size - x.len) 0 ++ x.digits⟩

/-! ## `div_unit` -/

/-- Round `d` of `div_unit`: the remainder so far and limb `d` make a two-limb dividend. -/
def divUnitStep (self : BigUint) (other : ℕ) (acc : ℕ × BigUint) (d : ℕ) : ℕ × BigUint :=
  let dividend := acc.1 * base + (self.get d).toNat
  (dividend % other, acc.2.set d (UInt32.ofNat (dividend / other)))

/-- `div_unit`: the divisor is raised to one first. -/
def divUnit (self : BigUint) (other : UInt32) : BigUint :=
  let other := max other.toNat 1
  let n := self.len
  ((List.range n).reverse.foldl (divUnitStep self other) (0, withCapacity n)).2

/-! ## `div` -/

/-- The test of step D3: the estimate is lowered when it reaches `B`, or when its product with
the second limb of the divisor exceeds what the remainder and the next limb of the window allow. -/
def test (v1 v2 u2 : ℕ) (qr : ℕ × ℕ) : Option (ℕ × ℕ) :=
  if qr.1 ≥ base ∨ qr.1 * v2 > base * qr.2 + u2 then some (qr.1 - 1, qr.2 + v1) else none

theorem test_fst_lt {v1 v2 u2 : ℕ} {qr qr' : ℕ × ℕ} (h : test v1 v2 u2 qr = some qr') : qr'.1 < qr.1 := by
  unfold test at h
  split at h
  · rename_i hlow
    cases h
    have : 0 < qr.1 := by
      rcases hlow with h1 | h1
      · exact lt_of_lt_of_le (by decide) h1
      · exact Nat.pos_of_mul_pos_right (lt_of_le_of_lt (Nat.zero_le _) h1)
    show qr.1 - 1 < qr.1
    omega
  · cases h

/-- `while rhat < B { if !test() { break } }`. -/
def testLoop (v1 v2 u2 : ℕ) (qr : ℕ × ℕ) : ℕ × ℕ :=
  if qr.2 < base then
    match h : test v1 v2 u2 qr with
    | some qr' =>
      have := test_fst_lt h
      testLoop v1 v2 u2 qr'
    | none => qr
  else qr
termination_by qr.1

/-- Step D3: the estimate of quotient limb `j` from the top two limbs of the window and the top
limb of the divisor, tested once and then while the remainder stays below `B`. -/
def estimate (selfNorm otherNorm : BigUint) (n j : ℕ) : ℕ :=
  let dividend := (selfNorm.get (j + n)).toNat * base + (selfNorm.get (j + n - 1)).toNat
  let divisor := (otherNorm.get (n - 1)).toNat
  let v2 := (otherNorm.get (n - 2)).toNat
  let u2 := (selfNorm.get (j + n - 2)).toNat
  match test divisor v2 u2 (dividend / divisor, dividend % divisor) with
  | some qr => (testLoop divisor v2 u2 qr).1
  | none => dividend / divisor

/-- Limbs `j ..= j + n` of `x` as a number of their own. -/
def window (x : BigUint) (n j : ℕ) : BigUint := ⟨(List.range (n + 1)).reverse.map fun i => x.get (j + i)⟩

/-- Steps D3 to D6 for quotient limb `j`. -/
def divStep (otherNorm : BigUint) (n : ℕ) (acc : BigUint × BigUint) (j : ℕ) : BigUint × BigUint :=
  let qhat := estimate acc.2 otherNorm n j
  -- D4: multiply and subtract
  let rhs := otherNorm.mul (ofDouble qhat)
  let (negative, sub) := match (window acc.2 n j).sub rhs with
    | .ok t => (false, t)
    | .error t => (true, t)
  let selfNorm := (List.range (n + 1)).foldl (fun s i => s.set (j + i) (sub.get i)) acc.2
  -- D5
  let q := acc.1.set j (UInt32.ofNat qhat)
  -- D6: add back
  if negative then
    let q := q.set j (q.get j - 1)
    let r := otherNorm.add (window selfNorm n j)
    (q, (List.range (n + 1)).reverse.foldl (fun s i => s.set (j + i) (r.get i)) selfNorm)
  else (q, selfNorm)

/-- Undo the normalisation: shift the remainder's limbs right by `nb` bits. -/
def unnormalize (selfNorm r : BigUint) (n nb : ℕ) : BigUint :=
  let r := (List.range (n - 1)).foldl
    (fun r d => r.set d ((selfNorm.get d >>> UInt32.ofNat nb) ||| (selfNorm.get (d + 1) <<< UInt32.ofNat (32 - nb)))) r
  r.set (n - 1) (selfNorm.get (n - 1) >>> UInt32.ofNat nb)

/-- Steps D1 to D8 of `div`, past its guard: `otherMsb` is the nonzero top limb of the divisor. -/
def divCore (self other : BigUint) (otherMsb : UInt32) (rem : Bool) : BigUint × BigUint :=
  let n := other.len
  let m := self.len - n
  -- `leading_zeros` of the nonzero top limb of the divisor
  let normalizerBits := 31 - otherMsb.toNat.log2
  let normalizer : UInt32 := UInt32.ofNat (2 ^ normalizerBits)
  -- D1
  let selfNorm := (self.mul (ofSingle normalizer)).lpad (n + m + 1)
  let otherNorm := (other.mul (ofSingle normalizer)).lstrip
  -- D2 to D7
  let res := (List.range (m + 1)).reverse.foldl (divStep otherNorm n) (withCapacity (m + 1), selfNorm)
  -- D8
  let r := if rem then (if normalizerBits > 0 then unnormalize res.2 (withCapacity n) n normalizerBits else res.2)
    else withCapacity n
  (res.1, r)

/-- `div`: the quotient and, with `rem`, the remainder; `none` where the guard refuses, and an
error where the source panics. -/
def div (self other : BigUint) (rem : Bool) : Except String (Option (BigUint × BigUint)) :=
  if other.len ≤ 1 then .ok none
  else
    match other.msb with
    | .error e => .error e
    | .ok otherMsb =>
      if otherMsb = 0 then .ok none
      else
        match self.msb with
        | .error e => .error e
        | .ok selfMsb =>
          if selfMsb = 0 ∨ self.len ≤ other.len then .ok none
          else .ok (some (divCore self other otherMsb rem))

/-! ## The guard -/

/-- On a `self` with limbs, `div` refuses exactly the operands the algorithm does not take. -/
theorem div_eq_none_iff {self other : BigUint} (hself : self.digits ≠ []) (rem : Bool) :
    self.div other rem = .ok none ↔
      other.len ≤ 1 ∨ other.digits.head? = some 0 ∨ self.digits.head? = some 0 ∨ self.len ≤ other.len := by
  obtain ⟨d, ds, hds⟩ := List.exists_cons_of_ne_nil hself
  have hsmsb : self.msb = .ok d := by rw [msb, hds]
  unfold div
  by_cases ho : other.len ≤ 1
  · exact iff_of_true (by rw [if_pos ho]) (Or.inl ho)
  · obtain ⟨e, es, hes⟩ : ∃ e es, other.digits = e :: es := by
      cases h : other.digits with
      | nil => exact absurd (show other.len ≤ 1 by rw [len, h]; decide) ho
      | cons e es => exact ⟨e, es, rfl⟩
    have homsb : other.msb = .ok e := by rw [msb, hes]
    rw [if_neg ho, homsb, hsmsb, hds, hes]
    simp only [List.head?_cons, Option.some.injEq, ho, false_or]
    by_cases he : e = 0
    · simp only [he, if_true, true_or]
    · rw [if_neg he]
      -- past the guard the result is `some`
      split <;> simp_all

/-- `BigUint::default()` has no limbs: dividing it by a valid divisor panics in the guard's
`self.msb()` instead of returning `None`. -/
theorem div_panics_on_empty_self :
    (BigUint.div ⟨[]⟩ ⟨[1, 2]⟩ true = .error "index out of bounds") ∧ (⟨[]⟩ : BigUint).len ≤ (⟨[1, 2]⟩ : BigUint).len := by
  decide

/-! ## `div_unit` is the quotient -/

/-- Dividing limbs `p - 1` down to `0` after a remainder `r`: the quotient limbs written and the
remainder left make up `r` followed by those limbs; the limbs from `p` on are untouched. -/
theorem foldl_divUnitStep (self : BigUint) {D : ℕ} (hD : 0 < D) (p : ℕ) :
    ∀ (r : ℕ) (out : BigUint), r < D → p ≤ self.len → p ≤ out.len →
      let res := (List.range p).reverse.foldl (divUnitStep self D) (r, out)
      res.2.len = out.len ∧ res.1 < D ∧ (∀ i, p ≤ i → res.2.limb i = out.limb i) ∧
        limbsValue base res.2.limb p * D + res.1 = r * base ^ p + limbsValue base self.limb p := by
  induction p with
  | zero => exact fun r out hr _ _ => ⟨rfl, hr, fun _ _ => rfl, by simp⟩
  | succ p ih =>
    intro r out hr hps hp
    rw [List.range_succ, List.reverse_append, List.reverse_singleton, List.singleton_append, List.foldl_cons]
    have hup : (self.get p).toNat = self.limb p := get_toNat (by omega)
    set dividend := r * base + self.limb p with hdiv
    have hu := limb_lt self p
    -- the quotient limb fits: the remainder is below `D`
    have hq : dividend / D < base := by
      rw [Nat.div_lt_iff_lt_mul hD]
      have : (r + 1) * base ≤ D * base := Nat.mul_le_mul_right _ hr
      rw [Nat.add_mul, Nat.one_mul] at this
      rw [hdiv, Nat.mul_comm base D]
      omega
    have hpo : p < out.len := by omega
    set out1 := out.set p (UInt32.ofNat (dividend / D))
    have hlen1 : out1.len = out.len := len_set _ _ _
    have hstep : divUnitStep self D (r, out) p = (dividend % D, out1) := by
      rw [divUnitStep, hup]
    rw [hstep]
    obtain ⟨hlen, hlt, hframe, hval⟩ := ih (dividend % D) out1 (Nat.mod_lt _ hD) (by omega) (by omega)
    set res := (List.range p).reverse.foldl (divUnitStep self D) (dividend % D, out1)
    have hqt : (UInt32.ofNat (dividend / D)).toNat = dividend / D := by
      rw [UInt32.toNat_ofNat', Nat.mod_eq_of_lt (by rw [base_eq] at hq; omega)]
    have htop : res.2.limb p = dividend / D := by
      rw [hframe p le_rfl, limb_set hpo, Function.update_self, hqt]
    refine ⟨by rw [hlen, hlen1], hlt, fun i hi => ?_, ?_⟩
    · rw [hframe i (by omega), limb_set hpo, Function.update_of_ne (by omega)]
    · rw [limbsValue_succ, htop, limbsValue_succ]
      calc (limbsValue base res.2.limb p + dividend / D * base ^ p) * D + res.1
          = (limbsValue base res.2.limb p * D + res.1) + D * (dividend / D) * base ^ p := by ring
        _ = (dividend % D + D * (dividend / D)) * base ^ p + limbsValue base self.limb p := by
          rw [hval]
          ring
        _ = r * base ^ (p + 1) + (limbsValue base self.limb p + self.limb p * base ^ p) := by
          rw [Nat.mod_add_div, hdiv, pow_succ]
          ring

/-- `div_unit` is the quotient by the divisor raised to one. -/
theorem value_divUnit (u : BigUint) (d : UInt32) : (u.divUnit d).value = u.value / max d.toNat 1 := by
  have hD : 0 < max d.toNat 1 := lt_of_lt_of_le Nat.one_pos (le_max_right _ _)
  have hcap : u.len ≤ (withCapacity u.len).len := by simp
  obtain ⟨hlen, hlt, hframe, hval⟩ := foldl_divUnitStep u hD u.len 0 (withCapacity u.len) hD le_rfl hcap
  set res := (List.range u.len).reverse.foldl (divUnitStep u (max d.toNat 1)) (0, withCapacity u.len)
  -- the limbs above `n` are those of `with_capacity`, all zero
  have hres : res.2.value = limbsValue base res.2.limb u.len := by
    rw [value_eq res.2 le_rfl, limbsValue_of_eq_zero (n := u.len) (by omega)
      fun i hi _ => by rw [hframe i hi, limb_withCapacity]]
  rw [Nat.zero_mul, Nat.zero_add, ← value_eq u le_rfl] at hval
  show res.2.value = _
  rw [hres, ← hval, Nat.add_comm, Nat.add_mul_div_right _ _ hD, Nat.div_eq_of_lt hlt, Nat.zero_add]

end BigUint

end PolkadotSdk
