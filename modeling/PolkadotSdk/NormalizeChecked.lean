import PolkadotSdk.Normalize
import PolkadotSdk.PerThingsReciprocal
import Mathlib.Algebra.Order.BigOperators.Group.List

/-!
# `normalize` does not panic

The same loops as `Normalize`, now with the panics of the source: the `checked_add(..).expect(..)`
of the raising loops, the `leftover += remainder` of the lowering rounds (an overflow of `T` in a
debug build), the indexing of `output_with_idx`, the `while` loop of the lowering that never ends
when every value is zero, and the closing `debug_assert_eq!` on the sum. `none` is a panic or a
loop that does not end. Then `impl Normalizable<P> for Vec<P>` over it.
-/

namespace PolkadotSdk.Normalize

open PerThings

/-- `f` applied `k` times, stopping at the first `none`. -/
def iterateChecked {α : Type} (f : α → Option α) : ℕ → α → Option α
  | 0, a => some a
  | k + 1, a => (f a).bind (iterateChecked f k)

/-- `raiseAt` with its panics: the index must be in the list and the value plus `amount` must fit
in `T`. -/
def raiseAtChecked (tMax count threshold amount : ℕ) (s : Indexed × ℕ) : Option (Indexed × ℕ) :=
  if s.2 < s.1.length ∧ valueAt s.1 s.2 + amount ≤ tMax then some (raiseAt count threshold amount s) else none

/-- `lowerRound` with its panics: the index must be in the list and `leftover + remainder` must fit
in `T`. -/
def lowerRoundChecked (tMax count threshold perRound : ℕ) (s : Indexed × ℕ × ℕ) : Option (Indexed × ℕ × ℕ) :=
  if s.2.1 < s.1.length ∧ s.2.2 + (perRound - valueAt s.1 s.2.1) ≤ tMax then
    some (lowerRound count threshold perRound s)
  else none

/-- The `while !leftover.is_zero()` loop of the lowering, `none` where the source loops for ever:
when a lap from `max_index` meets only zeros. -/
def lowerLeftoverChecked (count threshold : ℕ) : ℕ → Indexed × ℕ → Option (Indexed × ℕ)
  | 0, s => some s
  | leftover + 1, s =>
    if s.2 < s.1.length then
      match skipZeros s.1 count count s.2 with
      | none => none
      | some j =>
        let out := s.1.modify j fun p => (p.1, p.2 - 1)
        lowerLeftoverChecked count threshold leftover (out, if valueAt out j ≤ threshold then prevCyclic count j else j)
    else none

/-- `normalize` with its panics as `none`. -/
def normalizeChecked (tMax : ℕ) (input : List ℕ) (targetedSum : ℕ) : Option (Except String (List ℕ)) :=
  let sum := input.sum
  let count := input.length
  if tMax < sum then some (.error "sum of input cannot fit in `T`")
  else if tMax < count then some (.error "length of `inputs` cannot fit in `T`")
  else if count = 0 then some (.ok [])
  else
    let diff := max targetedSum sum - min targetedSum sum
    if diff = 0 then some (.ok input)
    else
      let perRound := diff / count
      let leftover := diff % count
      let sorted := (input.zipIdx.map fun p => (p.2, p.1)).insertionSort fun a b => a.2 ≤ b.2
      let out : Option Indexed :=
        if sum < targetedSum then
          let threshold := targetedSum / count
          let s := if perRound = 0 then some (sorted, 0)
            else iterateChecked (raiseAtChecked tMax count threshold perRound) count (sorted, 0)
          s.bind fun s => (iterateChecked (raiseAtChecked tMax count threshold 1) leftover s).map Prod.fst
        else
          let threshold := valueAt sorted 0
          let s := if perRound = 0 then some (sorted, count - 1, leftover)
            else iterateChecked (lowerRoundChecked tMax count threshold perRound) count (sorted, count - 1, leftover)
          s.bind fun s => (lowerLeftoverChecked count threshold s.2.2 (s.1, s.2.1)).map Prod.fst
      out.bind fun out =>
        -- `debug_assert_eq!` on the sum before the values are put back in order
        if total out = targetedSum then some (.ok ((out.insertionSort fun a b => a.1 ≤ b.1).map Prod.snd))
        else none

/-! ## The checked loops run as the unchecked ones -/

/-- A checked loop does not stop when its step succeeds, as `g`, at every state of `g`'s run. -/
theorem iterateChecked_eq_some {α : Type} {f : α → Option α} {g : α → α} :
    ∀ (k : ℕ) (a : α), (∀ j < k, f (g^[j] a) = some (g (g^[j] a))) → iterateChecked f k a = some (g^[k] a)
  | 0, _, _ => rfl
  | k + 1, a, h => by
    have h0 : f a = some (g a) := h 0 (Nat.succ_pos k)
    rw [iterateChecked, h0, Option.bind_some, Function.iterate_succ_apply]
    exact iterateChecked_eq_some k (g a) fun j hj => by
      simpa only [Function.iterate_succ_apply] using h (j + 1) (by omega)

theorem valueAt_le_total (out : Indexed) (i : ℕ) : valueAt out i ≤ total out := by
  by_cases hi : i < out.length
  · have := total_modify out hi fun _ => 0
    omega
  · simp [valueAt, List.getD_eq_getElem?_getD, List.getElem?_eq_none (by omega : out.length ≤ i)]

/-- Raising never overflows while the sum after the last step fits in `T`: every value is at most
the sum. -/
theorem iterate_raiseAtChecked {tMax count threshold amount : ℕ} (k : ℕ) {s : Indexed × ℕ}
    (hlen : s.1.length = count) (hi : s.2 < count) (hfit : total s.1 + k * amount ≤ tMax) :
    iterateChecked (raiseAtChecked tMax count threshold amount) k s =
      some ((raiseAt count threshold amount)^[k] s) := by
  apply iterateChecked_eq_some
  intro j hj
  obtain ⟨hlen', hi', htotal⟩ := @iterate_raiseAt count threshold amount j s hlen hi
  have hv := valueAt_le_total ((raiseAt count threshold amount)^[j] s).1 ((raiseAt count threshold amount)^[j] s).2
  have hmul : j * amount + amount ≤ k * amount := by
    rw [← Nat.succ_mul]
    exact Nat.mul_le_mul_right amount hj
  rw [raiseAtChecked, if_pos ⟨by omega, by omega⟩]

/-- A lowering round adds at most `per_round` to the leftover. -/
theorem iterate_lowerRound_leftover_le {count threshold perRound : ℕ} (k : ℕ) (s : Indexed × ℕ × ℕ) :
    ((lowerRound count threshold perRound)^[k] s).2.2 ≤ s.2.2 + k * perRound := by
  induction k generalizing s with
  | zero => simp
  | succ k ih =>
    have h1 := ih (lowerRound count threshold perRound s)
    have h2 : (lowerRound count threshold perRound s).2.2 ≤ s.2.2 + perRound := by
      simp only [lowerRound]
      omega
    rw [Function.iterate_succ_apply, Nat.succ_mul]
    omega

/-- The lowering rounds never overflow the leftover: the sum only falls, and the leftover stays
below it while the rounds still to come could take `per_round` each. -/
theorem iterate_lowerRoundChecked {tMax count threshold perRound : ℕ} (k : ℕ) {s : Indexed × ℕ × ℕ}
    (hlen : s.1.length = count) (hi : s.2.1 < count) (hk : k * perRound + s.2.2 ≤ total s.1)
    (hmax : total s.1 ≤ tMax) :
    iterateChecked (lowerRoundChecked tMax count threshold perRound) k s =
      some ((lowerRound count threshold perRound)^[k] s) := by
  apply iterateChecked_eq_some
  intro j hj
  obtain ⟨hlen', hi', -⟩ := @iterate_lowerRound count threshold perRound j s hlen hi
  obtain ⟨-, -, hnext⟩ := @iterate_lowerRound count threshold perRound (j + 1) s hlen hi
  have hle := @iterate_lowerRound_leftover_le count threshold perRound (j + 1) s
  rw [Function.iterate_succ_apply'] at hnext hle
  have hmul : (j + 1) * perRound ≤ k * perRound := Nat.mul_le_mul_right perRound hj
  -- the new leftover is the leftover of the next state
  have hstep : (lowerRound count threshold perRound ((lowerRound count threshold perRound)^[j] s)).2.2 =
      ((lowerRound count threshold perRound)^[j] s).2.2 +
        (perRound - valueAt ((lowerRound count threshold perRound)^[j] s).1
          ((lowerRound count threshold perRound)^[j] s).2.1) := rfl
  rw [lowerRoundChecked, if_pos ⟨by omega, by omega⟩]

/-- While units are left the sum is positive, so the checked leftover loop of the lowering finds a
positive value at every turn and ends. -/
theorem lowerLeftoverChecked_eq {count threshold target : ℕ} :
    ∀ (leftover : ℕ) {s : Indexed × ℕ}, s.1.length = count → s.2 < count → total s.1 = target + leftover →
      lowerLeftoverChecked count threshold leftover s = some (lowerLeftover count threshold leftover s)
  | 0, _, _, _, _ => rfl
  | leftover + 1, s, hlen, hi, hsum => by
    rw [lowerLeftoverChecked, if_pos (hlen ▸ hi), lowerLeftover]
    cases hj : skipZeros s.1 count count s.2 with
    | none =>
      have := total_of_skipZeros_none hlen hi hj
      omega
    | some j =>
      obtain ⟨hv, hjc⟩ := skipZeros_some hj hi
      have hstep := total_modify s.1 (hlen ▸ hjc) (· - 1)
      dsimp only
      apply @lowerLeftoverChecked_eq count threshold target leftover
      · simp [hlen]
      · split
        · exact prevCyclic_lt hjc
        · exact hjc
      · dsimp only
        omega

/-! ## `normalize` does not panic -/

/-- The checked raising branch runs as the unchecked one: the sum after every step is at most the
target. -/
theorem raiseChecked_eq {tMax count target perRound leftover : ℕ} {sorted : Indexed}
    (hlen : sorted.length = count) (hcount : 0 < count)
    (hdiff : total sorted + (count * perRound + leftover) = target) (htarget : target ≤ tMax) :
    ((if perRound = 0 then some (sorted, 0)
        else iterateChecked (raiseAtChecked tMax count (target / count) perRound) count (sorted, 0)).bind
      fun s => (iterateChecked (raiseAtChecked tMax count (target / count) 1) leftover s).map Prod.fst) =
      some ((raiseAt count (target / count) 1)^[leftover]
        (if perRound = 0 then (sorted, 0) else (raiseAt count (target / count) perRound)^[count] (sorted, 0))).1 := by
  have hs := @raiseRounds_spec count (target / count) perRound sorted hlen hcount
  generalize hsdef : (if perRound = 0 then (sorted, 0)
    else (raiseAt count (target / count) perRound)^[count] (sorted, 0)) = s at hs ⊢
  have hrounds : (if perRound = 0 then some (sorted, 0)
      else iterateChecked (raiseAtChecked tMax count (target / count) perRound) count (sorted, 0)) = some s := by
    rw [← hsdef]
    split
    · rfl
    · exact iterate_raiseAtChecked count hlen hcount (by dsimp only; omega)
  obtain ⟨hslen, hsi, hstotal⟩ := hs
  rw [hrounds, Option.bind_some, iterate_raiseAtChecked leftover hslen hsi (by omega), Option.map_some]

/-- The checked lowering branch runs as the unchecked one. -/
theorem lowerChecked_eq {tMax count target perRound leftover threshold : ℕ} {sorted : Indexed}
    (hlen : sorted.length = count) (hcount : 0 < count)
    (hdiff : total sorted = target + (count * perRound + leftover)) (hmax : total sorted ≤ tMax) :
    ((if perRound = 0 then some (sorted, count - 1, leftover)
        else iterateChecked (lowerRoundChecked tMax count threshold perRound) count (sorted, count - 1, leftover)).bind
      fun s => (lowerLeftoverChecked count threshold s.2.2 (s.1, s.2.1)).map Prod.fst) =
      some (lowerLeftover count threshold
        (if perRound = 0 then (sorted, count - 1, leftover)
          else (lowerRound count threshold perRound)^[count] (sorted, count - 1, leftover)).2.2
        ((if perRound = 0 then (sorted, count - 1, leftover)
          else (lowerRound count threshold perRound)^[count] (sorted, count - 1, leftover)).1,
         (if perRound = 0 then (sorted, count - 1, leftover)
          else (lowerRound count threshold perRound)^[count] (sorted, count - 1, leftover)).2.1)).1 := by
  have hs := @lowerRounds_spec count target perRound leftover threshold sorted hlen hcount hdiff
  generalize hsdef : (if perRound = 0 then (sorted, count - 1, leftover)
    else (lowerRound count threshold perRound)^[count] (sorted, count - 1, leftover)) = s at hs ⊢
  have hrounds : (if perRound = 0 then some (sorted, count - 1, leftover)
      else iterateChecked (lowerRoundChecked tMax count threshold perRound) count (sorted, count - 1, leftover)) =
        some s := by
    rw [← hsdef]
    split
    · rfl
    · exact iterate_lowerRoundChecked count hlen (by dsimp only; omega) (by dsimp only; omega) hmax
  obtain ⟨hslen, hsi, hstotal⟩ := hs
  rw [hrounds, Option.bind_some, lowerLeftoverChecked_eq s.2.2 hslen hsi hstotal, Option.map_some]

/-- `normalize` never panics and never loops for ever on a target that is a value of `T`. -/
theorem normalizeChecked_eq {tMax target : ℕ} (input : List ℕ) (htarget : target ≤ tMax) :
    normalizeChecked tMax input target = some (normalize tMax input target) := by
  unfold normalizeChecked normalize
  dsimp only
  by_cases hsum : tMax < input.sum
  · rw [if_pos hsum, if_pos hsum]
  rw [if_neg hsum, if_neg hsum]
  by_cases hlen : tMax < input.length
  · rw [if_pos hlen, if_pos hlen]
  rw [if_neg hlen, if_neg hlen]
  by_cases hzero : input.length = 0
  · rw [if_pos hzero, if_pos hzero]
  rw [if_neg hzero, if_neg hzero]
  by_cases hdiff : max target input.sum - min target input.sum = 0
  · rw [if_pos hdiff, if_pos hdiff]
  rw [if_neg hdiff, if_neg hdiff]
  obtain ⟨hslen, hstotal⟩ := sorted_spec input (fun a b => a.2 ≤ b.2)
  have hcount : 0 < input.length := Nat.pos_of_ne_zero hzero
  have hdm := Nat.div_add_mod (max target input.sum - min target input.sum) input.length
  split
  · -- raising: the values before the final sort sum to the target, so the assertion holds
    have hup : total (List.insertionSort (fun a b => a.2 ≤ b.2) (input.zipIdx.map fun p => (p.2, p.1))) +
        (input.length * ((max target input.sum - min target input.sum) / input.length) +
          (max target input.sum - min target input.sum) % input.length) = target := by
      rw [hstotal]
      omega
    rw [raiseChecked_eq hslen hcount hup htarget, Option.bind_some, if_pos (raise_spec hslen hcount hup).2]
  · -- lowering: the same
    have hdown : total (List.insertionSort (fun a b => a.2 ≤ b.2) (input.zipIdx.map fun p => (p.2, p.1))) =
        target + (input.length * ((max target input.sum - min target input.sum) / input.length) +
          (max target input.sum - min target input.sum) % input.length) := by
      rw [hstotal]
      omega
    rw [lowerChecked_eq hslen hcount hdown (by omega), Option.bind_some,
      if_pos (lower_spec hslen hcount hdown).2]

/-- `normalize` fails exactly when the sum or the length of the input does not fit in `T`. -/
theorem normalize_isError_iff {tMax target : ℕ} {input : List ℕ} :
    (∃ e, normalize tMax input target = .error e) ↔ tMax < input.sum ∨ tMax < input.length := by
  constructor
  · rintro ⟨e, h⟩
    by_contra hfit
    unfold normalize at h
    dsimp only at h
    rw [if_neg (by omega), if_neg (by omega)] at h
    split_ifs at h
  · intro h
    by_cases hs : tMax < input.sum
    · exact ⟨_, by rw [normalize, if_pos hs]⟩
    · exact ⟨_, by rw [normalize, if_neg hs, if_pos (h.resolve_left hs)]⟩

end PolkadotSdk.Normalize

namespace PolkadotSdk.PerThings

/-- `PerThing::from_parts`: the parts, clamped to the accuracy. -/
def PerThing.fromParts {acc : ℕ} (parts : ℕ) : PerThing acc := ⟨min parts acc, Nat.min_le_right _ _⟩

theorem PerThingType.accuracy_lt_upper (P : PerThingType) : P.accuracy < 2 ^ P.upperBits := by
  have hsq := P.square_lt
  rcases Nat.eq_zero_or_pos P.accuracy with h | h
  · rw [h]
    exact Nat.two_pow_pos _
  · exact lt_of_le_of_lt (Nat.le_mul_of_pos_left _ h) hsq

/-- Parts within the accuracy come back unchanged through `saturated_into` and `from_parts`. -/
theorem parts_fromParts_saturateInner (P : PerThingType) {i : ℕ} (h : i ≤ P.accuracy) :
    (PerThing.fromParts (P.saturateInner i) : PerThing P.accuracy).parts = i := by
  have hacc := P.accuracy_lt
  rw [PerThing.fromParts, P.saturateInner_of_lt (by omega)]
  exact Nat.min_eq_left h

end PolkadotSdk.PerThings

namespace PolkadotSdk.Normalize

open PerThings

/-- `impl Normalizable<P> for Vec<P>`: the parts normalized in `P::Upper`, and each result saturated
into `P::Inner` and made a per-thing by `from_parts`. -/
def normalizePerThing (P : PerThingType) (input : List (PerThing P.accuracy)) (targetedSum : PerThing P.accuracy) :
    Option (Except String (List (PerThing P.accuracy))) :=
  (normalizeChecked (2 ^ P.upperBits - 1) (input.map (·.parts)) targetedSum.parts).map
    fun r => r.map fun out => out.map fun i => PerThing.fromParts (P.saturateInner i)

theorem except_map_isError {ε α β : Type} (f : α → β) (x : Except ε α) :
    (∃ e, x.map f = .error e) ↔ ∃ e, x = .error e := by
  cases x <;> simp [Except.map]

/-- The per-thing instance does not panic, fails as `normalize` does in `P::Upper`, and its parts sum
to the target's: the normalized parts are each at most the target, so within the accuracy, and
`from_parts` keeps them. -/
theorem normalizePerThing_spec (P : PerThingType) (input : List (PerThing P.accuracy))
    (target : PerThing P.accuracy) (hne : input ≠ []) :
    ∃ r, normalizePerThing P input target = some r ∧
      ((∃ e, r = .error e) ↔ 2 ^ P.upperBits - 1 < (input.map (·.parts)).sum ∨ 2 ^ P.upperBits - 1 < input.length) ∧
      ∀ out, r = .ok out → out.length = input.length ∧ (out.map (·.parts)).sum = target.parts := by
  have htarget : target.parts ≤ 2 ^ P.upperBits - 1 := by
    have := P.accuracy_lt_upper
    have := target.parts_le
    omega
  refine ⟨_, by rw [normalizePerThing, normalizeChecked_eq _ htarget, Option.map_some], ?_, ?_⟩
  · rw [except_map_isError, normalize_isError_iff, List.length_map]
  · intro out hout
    cases hn : normalize (2 ^ P.upperBits - 1) (input.map (·.parts)) target.parts with
    | error e =>
      rw [hn] at hout
      cases hout
    | ok parts =>
      rw [hn] at hout
      cases hout
      obtain ⟨-, -, hlen, hsum⟩ := normalize_eq_ok hn
      have hsum' := hsum (by simpa using hne)
      -- every normalized part is at most the target's, so within the accuracy
      have hle : ∀ i ∈ parts, i ≤ P.accuracy := fun i hi =>
        le_trans (hsum' ▸ List.le_sum_of_mem hi) target.parts_le
      refine ⟨by simp [hlen], ?_⟩
      have hparts : (parts.map fun i => (PerThing.fromParts (P.saturateInner i) : PerThing P.accuracy)).map
          (·.parts) = parts := by
        rw [List.map_map]
        exact (List.map_congr_left fun i hi => parts_fromParts_saturateInner P (hle i hi)).trans (List.map_id _)
      rw [hparts, hsum']

theorem normalize_safe_exact :
    (∀ (tMax : ℕ) (input : List ℕ) (target : ℕ), input ≠ [] → target ≤ tMax →
      normalizeChecked tMax input target = some (normalize tMax input target) ∧
        ((∃ e, normalize tMax input target = .error e) ↔ tMax < input.sum ∨ tMax < input.length) ∧
        ∀ out, normalize tMax input target = .ok out → out.length = input.length ∧ out.sum = target) ∧
    (∀ (P : PerThingType) (input : List (PerThing P.accuracy)) (target : PerThing P.accuracy), input ≠ [] →
      ∃ r, normalizePerThing P input target = some r ∧
        ((∃ e, r = .error e) ↔ 2 ^ P.upperBits - 1 < (input.map (·.parts)).sum ∨ 2 ^ P.upperBits - 1 < input.length) ∧
        ∀ out, r = .ok out → out.length = input.length ∧ (out.map (·.parts)).sum = target.parts) :=
  ⟨fun _ input _ hne htarget => ⟨normalizeChecked_eq input htarget, normalize_isError_iff,
      fun _ h => ⟨(normalize_eq_ok h).2.2.1, (normalize_eq_ok h).2.2.2 hne⟩⟩,
    normalizePerThing_spec⟩

theorem normalize_safe_exact_small :
    normalizeChecked (2 ^ 8 - 1) [1, 100, 100] 10 = some (normalize (2 ^ 8 - 1) [1, 100, 100] 10) ∧
      (normalizePerThing percent [PerThing.one, PerThing.one] (PerThing.fromParts 40)).isSome := by
  obtain ⟨hn, -⟩ := normalize_safe_exact.1 (2 ^ 8 - 1) [1, 100, 100] 10 (by decide) (by decide)
  obtain ⟨r, hr, -⟩ := normalize_safe_exact.2 percent [PerThing.one, PerThing.one] (PerThing.fromParts 40) (by simp)
  exact ⟨hn, by rw [hr]; rfl⟩

end PolkadotSdk.Normalize
