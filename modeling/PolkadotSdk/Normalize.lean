import Mathlib

/-!
# Normalizing a list to a target sum

`sp_arithmetic::normalize`: the values are sorted once, the difference to the target is split
into `per_round = diff / count` and `leftover = diff % count`, and then, to raise the sum,
`per_round` and then one unit at a time go to the smallest values, or, to lower it, are taken
from the largest, with what a value cannot give added to `leftover`. The values come back in
their original order. `T` is an unsigned type whose largest value is `tMax`.
-/

namespace PolkadotSdk.Normalize

/-- The values, each with its index in the input: `output_with_idx`. -/
abbrev Indexed := List (ℕ × ℕ)

/-- The sum of the values. -/
def total (out : Indexed) : ℕ := (out.map Prod.snd).sum

/-- The value at `i`. -/
def valueAt (out : Indexed) (i : ℕ) : ℕ := (out.getD i (0, 0)).2

/-- `max_index.checked_sub(1).unwrap_or(count - 1)`. -/
def prevCyclic (count i : ℕ) : ℕ := if i = 0 then count - 1 else i - 1

/-- One step of the raising loops: `amount` is added at `min_index`, which moves to the next
index once the value reaches `threshold`. -/
def raiseAt (count threshold amount : ℕ) (s : Indexed × ℕ) : Indexed × ℕ :=
  let out := s.1.modify s.2 fun p => (p.1, p.2 + amount)
  (out, if threshold ≤ valueAt out s.2 then (s.2 + 1) % count else s.2)

/-- One round of the lowering loop: `per_round` is taken from the value at `max_index`, what the
value lacks is added to `leftover`, and `max_index` moves down once the value reaches
`threshold`. -/
def lowerRound (count threshold perRound : ℕ) (s : Indexed × ℕ × ℕ) : Indexed × ℕ × ℕ :=
  let v := valueAt s.1 s.2.1
  let out := s.1.modify s.2.1 fun p => (p.1, p.2 - perRound)
  (out, if v - perRound ≤ threshold then prevCyclic count s.2.1 else s.2.1, s.2.2 + (perRound - v))

/-- The index the lowering loop reaches by stepping down from `i` past zero values, within
`fuel` steps. -/
def skipZeros (out : Indexed) (count : ℕ) : ℕ → ℕ → Option ℕ
  | 0, _ => none
  | fuel + 1, i => if 1 ≤ valueAt out i then some i else skipZeros out count fuel (prevCyclic count i)

/-- The `while !leftover.is_zero()` loop of the lowering: one unit is taken from the first
positive value at or below `max_index`. A lap of `count` steps meets every index; the source
would loop for ever on all zeros, which the sum rules out (`total_lowerLeftover`), and the model
stops there. -/
def lowerLeftover (count threshold : ℕ) : ℕ → Indexed × ℕ → Indexed × ℕ
  | 0, s => s
  | leftover + 1, s =>
    match skipZeros s.1 count count s.2 with
    | none => s
    | some j =>
      let out := s.1.modify j fun p => (p.1, p.2 - 1)
      lowerLeftover count threshold leftover (out, if valueAt out j ≤ threshold then prevCyclic count j else j)

/-- `normalize`: `Err` when the sum or the length does not fit in `T`, and otherwise the values
moved to sum to `targeted_sum`, in the input's order. Both sorts are stable sorts by a key, as
`sort_by_key`; insertion sort is one. -/
def normalize (tMax : ℕ) (input : List ℕ) (targetedSum : ℕ) : Except String (List ℕ) :=
  let sum := input.sum
  let count := input.length
  if tMax < sum then .error "sum of input cannot fit in `T`"
  else if tMax < count then .error "length of `inputs` cannot fit in `T`"
  else if count = 0 then .ok []
  else
    let diff := max targetedSum sum - min targetedSum sum
    if diff = 0 then .ok input
    else
      let perRound := diff / count
      let leftover := diff % count
      let sorted := (input.zipIdx.map fun p => (p.2, p.1)).insertionSort fun a b => a.2 ≤ b.2
      let out :=
        if sum < targetedSum then
          let threshold := targetedSum / count
          let s := if perRound = 0 then (sorted, 0) else (raiseAt count threshold perRound)^[count] (sorted, 0)
          ((raiseAt count threshold 1)^[leftover] s).1
        else
          let threshold := valueAt sorted 0
          let s := if perRound = 0 then (sorted, count - 1, leftover)
            else (lowerRound count threshold perRound)^[count] (sorted, count - 1, leftover)
          (lowerLeftover count threshold s.2.2 (s.1, s.2.1)).1
      .ok ((out.insertionSort fun a b => a.1 ≤ b.1).map Prod.snd)

/-! ## The sum after each loop -/

theorem total_modify (out : Indexed) {i : ℕ} (hi : i < out.length) (g : ℕ → ℕ) :
    total (out.modify i fun p => (p.1, g p.2)) + valueAt out i = total out + g (valueAt out i) := by
  induction out generalizing i with
  | nil => simp at hi
  | cons a out ih =>
    cases i with
    | zero => simp [total, valueAt]; omega
    | succ i =>
      have h := ih (i := i) (by simpa using hi)
      simp only [total, valueAt, List.modify_succ_cons, List.map_cons, List.sum_cons,
        List.getD_cons_succ] at h ⊢
      omega

theorem length_modify_pair (out : Indexed) (i : ℕ) (g : ℕ → ℕ) :
    (out.modify i fun p => (p.1, g p.2)).length = out.length :=
  List.length_modify _ _ _

theorem prevCyclic_lt {count i : ℕ} (hi : i < count) : prevCyclic count i < count := by
  unfold prevCyclic
  split <;> omega

/-- A raising step adds `amount` and keeps `min_index` inside the list. -/
theorem raiseAt_spec {count threshold amount : ℕ} {s : Indexed × ℕ} (hlen : s.1.length = count)
    (hi : s.2 < count) :
    (raiseAt count threshold amount s).1.length = count ∧ (raiseAt count threshold amount s).2 < count ∧
      total (raiseAt count threshold amount s).1 = total s.1 + amount := by
  have hsum := total_modify s.1 (hlen ▸ hi) (· + amount)
  refine ⟨by simp [raiseAt, hlen], ?_, by simp only [raiseAt]; omega⟩
  simp only [raiseAt]
  split
  · exact Nat.mod_lt _ (by omega)
  · exact hi

theorem iterate_raiseAt {count threshold amount : ℕ} (k : ℕ) {s : Indexed × ℕ} (hlen : s.1.length = count)
    (hi : s.2 < count) :
    ((raiseAt count threshold amount)^[k] s).1.length = count ∧
      ((raiseAt count threshold amount)^[k] s).2 < count ∧
      total ((raiseAt count threshold amount)^[k] s).1 = total s.1 + k * amount := by
  induction k generalizing s with
  | zero => simp [hlen, hi]
  | succ k ih =>
    obtain ⟨hlen', hi', hsum⟩ := @raiseAt_spec _ threshold amount _ hlen hi
    obtain ⟨h1, h2, h3⟩ := ih hlen' hi'
    rw [Function.iterate_succ_apply]
    refine ⟨h1, h2, ?_⟩
    rw [h3, hsum, Nat.succ_mul]
    omega

/-- A lowering round takes `per_round` from the sum and the leftover together. -/
theorem lowerRound_spec {count threshold perRound : ℕ} {s : Indexed × ℕ × ℕ}
    (hlen : s.1.length = count) (hi : s.2.1 < count) :
    (lowerRound count threshold perRound s).1.length = count ∧
      (lowerRound count threshold perRound s).2.1 < count ∧
      total (lowerRound count threshold perRound s).1 + perRound + s.2.2 =
        total s.1 + (lowerRound count threshold perRound s).2.2 := by
  have hsum := total_modify s.1 (hlen ▸ hi) (· - perRound)
  refine ⟨by simp [lowerRound, hlen], ?_, by simp only [lowerRound]; omega⟩
  simp only [lowerRound]
  split
  · exact prevCyclic_lt hi
  · exact hi

theorem iterate_lowerRound {count threshold perRound : ℕ} (k : ℕ) {s : Indexed × ℕ × ℕ}
    (hlen : s.1.length = count) (hi : s.2.1 < count) :
    ((lowerRound count threshold perRound)^[k] s).1.length = count ∧
      ((lowerRound count threshold perRound)^[k] s).2.1 < count ∧
      total ((lowerRound count threshold perRound)^[k] s).1 + k * perRound + s.2.2 =
        total s.1 + ((lowerRound count threshold perRound)^[k] s).2.2 := by
  induction k generalizing s with
  | zero => simp [hlen, hi]
  | succ k ih =>
    obtain ⟨hlen', hi', hsum⟩ := @lowerRound_spec _ threshold perRound _ hlen hi
    obtain ⟨h1, h2, h3⟩ := ih hlen' hi'
    rw [Function.iterate_succ_apply]
    refine ⟨h1, h2, ?_⟩
    rw [Nat.succ_mul]
    omega

/-! ## The lowering leftover loop meets every index -/

theorem iterate_prevCyclic_of_le {count i k : ℕ} (hk : k ≤ i) : (prevCyclic count)^[k] i = i - k := by
  induction k with
  | zero => rfl
  | succ k ih =>
    rw [Function.iterate_succ_apply', ih (by omega), prevCyclic, if_neg (by omega)]
    omega

/-- Within one lap from `i`, the lowering loop's index reaches every `j < count`. -/
theorem exists_iterate_prevCyclic {count i j : ℕ} (hi : i < count) (hj : j < count) :
    ∃ k < count, (prevCyclic count)^[k] i = j := by
  by_cases hji : j ≤ i
  · exact ⟨i - j, by omega, by rw [iterate_prevCyclic_of_le (by omega)]; omega⟩
  · -- down to `0`, one step to `count - 1`, and down again to `j`
    refine ⟨(count - 1 - j) + (i + 1), by omega, ?_⟩
    rw [Function.iterate_add_apply, Function.iterate_succ_apply', iterate_prevCyclic_of_le le_rfl,
      Nat.sub_self, prevCyclic, if_pos rfl, iterate_prevCyclic_of_le (by omega)]
    omega

theorem skipZeros_some {out : Indexed} {count : ℕ} :
    ∀ {fuel i j : ℕ}, skipZeros out count fuel i = some j → i < count → 1 ≤ valueAt out j ∧ j < count
  | 0, _, _, h, _ => by cases h
  | fuel + 1, i, j, h, hi => by
    simp only [skipZeros] at h
    split at h
    · cases h
      exact ⟨‹_›, hi⟩
    · exact skipZeros_some h (prevCyclic_lt hi)

theorem valueAt_of_skipZeros_none {out : Indexed} {count : ℕ} :
    ∀ {fuel i : ℕ}, skipZeros out count fuel i = none → ∀ k < fuel, valueAt out ((prevCyclic count)^[k] i) = 0
  | 0, _, _, k, hk => absurd hk (Nat.not_lt_zero k)
  | fuel + 1, i, h, k, hk => by
    simp only [skipZeros] at h
    split at h
    · cases h
    · rename_i hv
      cases k with
      | zero => simpa using hv
      | succ k =>
        rw [Function.iterate_succ_apply]
        exact valueAt_of_skipZeros_none h k (by omega)

theorem total_eq_zero {out : Indexed} (h : ∀ j < out.length, valueAt out j = 0) : total out = 0 := by
  unfold total
  apply List.sum_eq_zero
  intro x hx
  obtain ⟨⟨a, v⟩, hmem, rfl⟩ := List.mem_map.mp hx
  obtain ⟨j, hj, hget⟩ := List.mem_iff_getElem.mp hmem
  have := h j hj
  simp only [valueAt, List.getD_eq_getElem?_getD, List.getElem?_eq_getElem hj, Option.getD_some,
    hget] at this
  exact this

/-- A lap past zeros finds nothing only when every value is zero. -/
theorem total_of_skipZeros_none {out : Indexed} {count i : ℕ} (hlen : out.length = count)
    (hi : i < count) (h : skipZeros out count count i = none) : total out = 0 := by
  apply total_eq_zero
  intro j hj
  obtain ⟨k, hk, rfl⟩ := exists_iterate_prevCyclic hi (hlen ▸ hj)
  exact valueAt_of_skipZeros_none h k hk

/-- The leftover loop of the lowering ends at the target: each turn takes one unit from the sum,
and while units are left the sum is positive, so a positive value is found. -/
theorem total_lowerLeftover {count threshold target : ℕ} :
    ∀ (leftover : ℕ) {s : Indexed × ℕ}, s.1.length = count → s.2 < count → total s.1 = target + leftover →
      (lowerLeftover count threshold leftover s).1.length = count ∧
        total (lowerLeftover count threshold leftover s).1 = target
  | 0, s, hlen, _, hsum => ⟨hlen, hsum⟩
  | leftover + 1, s, hlen, hi, hsum => by
    simp only [lowerLeftover]
    split
    · rename_i hnone
      have := total_of_skipZeros_none hlen hi hnone
      omega
    · rename_i j hj
      obtain ⟨hv, hjc⟩ := skipZeros_some hj hi
      have hstep := total_modify s.1 (hlen ▸ hjc) (· - 1)
      apply total_lowerLeftover leftover
      · simp [hlen]
      · split
        · exact prevCyclic_lt hjc
        · exact hjc
      · dsimp only
        omega

/-! ## `normalize` -/

theorem total_perm {l l' : Indexed} (h : l.Perm l') : total l = total l' :=
  (h.map Prod.snd).sum_eq

/-- The sorted input keeps its length and its sum. -/
theorem sorted_spec (input : List ℕ) (r : ℕ × ℕ → ℕ × ℕ → Prop) [DecidableRel r] :
    ((input.zipIdx.map fun p => (p.2, p.1)).insertionSort r).length = input.length ∧
      total ((input.zipIdx.map fun p => (p.2, p.1)).insertionSort r) = input.sum := by
  have hperm := List.perm_insertionSort r (input.zipIdx.map fun p => (p.2, p.1))
  refine ⟨by rw [hperm.length_eq, List.length_map, List.length_zipIdx], ?_⟩
  rw [total_perm hperm, total, List.map_map]
  exact congrArg List.sum (by simp [Function.comp_def] : _ = input)

/-- The rounds of the raising branch add `count * per_round`, whether they run or not. -/
theorem raiseRounds_spec {count threshold perRound : ℕ} {sorted : Indexed} (hlen : sorted.length = count)
    (hcount : 0 < count) :
    let s := if perRound = 0 then (sorted, 0) else (raiseAt count threshold perRound)^[count] (sorted, 0)
    s.1.length = count ∧ s.2 < count ∧ total s.1 = total sorted + count * perRound := by
  intro s
  by_cases hp : perRound = 0
  · simp only [s, if_pos hp, hp]
    exact ⟨hlen, hcount, by simp⟩
  · simp only [s, if_neg hp]
    exact iterate_raiseAt count hlen hcount

/-- The raising branch reaches the target: `count * per_round + leftover` is the difference. -/
theorem raise_spec {count target perRound leftover : ℕ} {sorted : Indexed} (hlen : sorted.length = count)
    (hcount : 0 < count) (hdiff : total sorted + (count * perRound + leftover) = target) :
    let s := if perRound = 0 then (sorted, 0) else (raiseAt count (target / count) perRound)^[count] (sorted, 0)
    ((raiseAt count (target / count) 1)^[leftover] s).1.length = count ∧
      total ((raiseAt count (target / count) 1)^[leftover] s).1 = target := by
  intro s
  have hs : s.1.length = count ∧ s.2 < count ∧ total s.1 = total sorted + count * perRound :=
    raiseRounds_spec hlen hcount
  obtain ⟨h1, h2, h3⟩ := @iterate_raiseAt _ (target / count) 1 leftover _ hs.1 hs.2.1
  refine ⟨h1, ?_⟩
  rw [h3, hs.2.2]
  omega

/-- The rounds of the lowering branch keep the sum at the target plus the leftover. -/
theorem lowerRounds_spec {count target perRound leftover threshold : ℕ} {sorted : Indexed}
    (hlen : sorted.length = count) (hcount : 0 < count)
    (hdiff : total sorted = target + (count * perRound + leftover)) :
    let s := if perRound = 0 then (sorted, count - 1, leftover)
      else (lowerRound count threshold perRound)^[count] (sorted, count - 1, leftover)
    s.1.length = count ∧ s.2.1 < count ∧ total s.1 = target + s.2.2 := by
  intro s
  by_cases hp : perRound = 0
  · simp only [s, if_pos hp]
    refine ⟨hlen, by omega, ?_⟩
    rw [hdiff, hp, Nat.mul_zero, Nat.zero_add]
  · simp only [s, if_neg hp]
    obtain ⟨h1, h2, h3⟩ := @iterate_lowerRound _ threshold perRound count
      (sorted, count - 1, leftover) hlen (by simp only; omega)
    refine ⟨h1, h2, ?_⟩
    simp only at h3
    omega

/-- The lowering branch reaches the target: the leftover loop takes the leftover away. -/
theorem lower_spec {count target perRound leftover threshold : ℕ} {sorted : Indexed}
    (hlen : sorted.length = count) (hcount : 0 < count)
    (hdiff : total sorted = target + (count * perRound + leftover)) :
    let s := if perRound = 0 then (sorted, count - 1, leftover)
      else (lowerRound count threshold perRound)^[count] (sorted, count - 1, leftover)
    (lowerLeftover count threshold s.2.2 (s.1, s.2.1)).1.length = count ∧
      total (lowerLeftover count threshold s.2.2 (s.1, s.2.1)).1 = target := by
  intro s
  have hs : s.1.length = count ∧ s.2.1 < count ∧ total s.1 = target + s.2.2 :=
    lowerRounds_spec hlen hcount hdiff
  exact total_lowerLeftover s.2.2 hs.1 hs.2.1 hs.2.2

/-- `normalize` succeeds exactly when the sum and the length of the input fit in `T`; then it
returns as many values as it was given, and they sum to the target unless there were none. -/
theorem normalize_eq_ok {tMax target : ℕ} {input out : List ℕ} (h : normalize tMax input target = .ok out) :
    input.sum ≤ tMax ∧ input.length ≤ tMax ∧ out.length = input.length ∧
      (input ≠ [] → out.sum = target) := by
  unfold normalize at h
  dsimp only at h
  by_cases hsum : tMax < input.sum
  · rw [if_pos hsum] at h
    cases h
  rw [if_neg hsum] at h
  by_cases hlen : tMax < input.length
  · rw [if_pos hlen] at h
    cases h
  rw [if_neg hlen] at h
  by_cases hzero : input.length = 0
  · rw [if_pos hzero] at h
    cases h
    exact ⟨by omega, by omega, by simp [List.eq_nil_of_length_eq_zero hzero],
      fun hne => absurd (List.eq_nil_of_length_eq_zero hzero) hne⟩
  rw [if_neg hzero] at h
  by_cases hdiff : max target input.sum - min target input.sum = 0
  · rw [if_pos hdiff] at h
    cases h
    exact ⟨by omega, by omega, rfl, fun _ => by omega⟩
  · rw [if_neg hdiff] at h
    cases h
    obtain ⟨hslen, hstotal⟩ := sorted_spec input (fun a b => a.2 ≤ b.2)
    have hcount : 0 < input.length := Nat.pos_of_ne_zero hzero
    have hdm := Nat.div_add_mod (max target input.sum - min target input.sum) input.length
    -- the values before the final sort: the target is reached in both branches
    have hout : ∀ (out : Indexed), out.length = input.length → total out = target →
        (((out.insertionSort fun a b => a.1 ≤ b.1).map Prod.snd).length = input.length ∧
          ((out.insertionSort fun a b => a.1 ≤ b.1).map Prod.snd).sum = target) := by
      intro out hl ht
      have hperm := List.perm_insertionSort (fun a b : ℕ × ℕ => a.1 ≤ b.1) out
      exact ⟨by rw [List.length_map, hperm.length_eq, hl], (total_perm hperm).trans ht⟩
    refine ⟨by omega, by omega, ?_⟩
    split
    · rename_i hlt
      obtain ⟨h1, h2⟩ := @raise_spec _ target ((max target input.sum - min target input.sum) / input.length)
        ((max target input.sum - min target input.sum) % input.length) _ hslen hcount
        (by rw [hstotal]; omega)
      exact ⟨(hout _ h1 h2).1, fun _ => (hout _ h1 h2).2⟩
    · rename_i hge
      obtain ⟨h1, h2⟩ := @lower_spec _ target ((max target input.sum - min target input.sum) / input.length)
        ((max target input.sum - min target input.sum) % input.length) (valueAt _ 0) _ hslen hcount (by rw [hstotal]; omega)
      exact ⟨(hout _ h1 h2).1, fun _ => (hout _ h1 h2).2⟩

example : normalize (2 ^ 32 - 1) [7, 7, 7, 10] 40 = .ok [11, 11, 8, 10] := by decide
example : normalize (2 ^ 8 - 1) [1, 100, 100] 10 = .ok [1, 9, 0] := by decide

end PolkadotSdk.Normalize
