import PolkadotSdk.Staking

/-!
# What a slash takes

`StakingLedger::slash` first slashes the active balance and then walks the chunk
priority list with `slash_out_of`. Each call takes an amount `d` from its target and
charges it to `remaining` and `total` (`slashOutOf_spec`); the loop therefore keeps
the ledger's bookkeeping (`LoopInv`), and unless `remaining` is used up it takes at
least the proportional share of every target (`slashChunks_share`). With the ratio
rounded up, that share adds up to the whole slash.
-/

namespace PolkadotSdk.Staking

open PerThings

/-! ## Sums of chunks -/

/-- The sum of the unlocking chunks' values. -/
def chunkSum (chunks : List UnlockChunk) : ℕ := (chunks.map UnlockChunk.value).sum

@[simp] theorem chunkSum_nil : chunkSum [] = 0 := rfl

@[simp] theorem chunkSum_cons (c : UnlockChunk) (cs : List UnlockChunk) :
    chunkSum (c :: cs) = c.value + chunkSum cs := by
  simp [chunkSum]

/-- Dropping the empty chunks keeps the sum. -/
theorem chunkSum_filter_ne_zero (chunks : List UnlockChunk) :
    chunkSum (chunks.filter fun c => decide (c.value ≠ 0)) = chunkSum chunks := by
  induction chunks with
  | nil => rfl
  | cons c cs ih =>
    by_cases h : c.value = 0
    · rw [List.filter_cons_of_neg (by simp [h]), ih, chunkSum_cons, h, Nat.zero_add]
    · rw [List.filter_cons_of_pos (by simp [h]), chunkSum_cons, chunkSum_cons, ih]

/-- Setting the value of the chunk at `i` moves the sum by the difference. -/
theorem chunkSum_set {chunks : List UnlockChunk} {i : ℕ} {c : UnlockChunk}
    (h : chunks[i]? = some c) (v : ℕ) :
    chunkSum (chunks.set i { c with value := v }) + c.value = chunkSum chunks + v := by
  induction chunks generalizing i with
  | nil => simp at h
  | cons c' cs ih =>
    cases i with
    | zero =>
      obtain rfl : c' = c := by simpa using h
      simp only [List.set_cons_zero, chunkSum_cons]
      omega
    | succ i =>
      have hs := ih (by simpa using h)
      simp only [List.set_cons_succ, chunkSum_cons]
      omega

theorem value_le_chunkSum {chunks : List UnlockChunk} {i : ℕ} {c : UnlockChunk}
    (h : chunks[i]? = some c) : c.value ≤ chunkSum chunks := by
  have hs := chunkSum_set h 0
  omega

/-- The value of the chunk at `i`, zero when there is none. -/
def valueAt (chunks : List UnlockChunk) (i : ℕ) : ℕ := (chunks[i]?.map UnlockChunk.value).getD 0

theorem valueAt_of_getElem? {chunks : List UnlockChunk} {i : ℕ} {c : UnlockChunk}
    (h : chunks[i]? = some c) : valueAt chunks i = c.value := by
  simp [valueAt, h]

theorem valueAt_set_ne {chunks : List UnlockChunk} {i j : ℕ} (c : UnlockChunk) (h : i ≠ j) :
    valueAt (chunks.set i c) j = valueAt chunks j := by
  simp only [valueAt, List.getElem?_set_ne h]

/-- Summed over all indices, `valueAt` gives the sum of the chunks. -/
theorem sum_valueAt_range (chunks : List UnlockChunk) :
    ((List.range chunks.length).map (valueAt chunks)).sum = chunkSum chunks := by
  induction chunks with
  | nil => rfl
  | cons c cs ih =>
    rw [List.length_cons, List.range_succ_eq_map, List.map_cons, List.map_map, List.sum_cons,
      chunkSum_cons, ← ih]
    rfl

/-! ## The slash plan -/

/-- The affected chunks followed by the older ones in reverse visit every index once. -/
theorem range'_append_reverse_perm {first n : ℕ} (h : first ≤ n) :
    (List.range' first (n - first) ++ (List.range first).reverse).Perm (List.range n) := by
  have hsplit : List.range first ++ List.range' first (n - first) = List.range n := by
    have happ := @List.range'_append_1 0 first (n - first)
    rw [Nat.zero_add, Nat.add_sub_cancel' h] at happ
    rw [List.range_eq_range', List.range_eq_range', happ]
  rw [← hsplit]
  exact List.perm_append_comm.trans ((List.reverse_perm _).append_right _)

/-- `slash_chunks_priority` is a permutation of the chunk indices. -/
theorem slashPlan_priority_perm (w maxBalance bondingDuration : ℕ) (l : StakingLedger)
    (slashAmount slashEra : ℕ) :
    (slashPlan w maxBalance bondingDuration l slashAmount slashEra).2.Perm
      (List.range l.unlocking.length) := by
  simp only [slashPlan]
  split
  · rename_i first hfirst
    obtain ⟨hlt, -⟩ := List.findIdx?_eq_some_iff_getElem.mp hfirst
    exact range'_append_reverse_perm hlt.le
  · exact List.reverse_perm _

/-- The saturating fold over the affected indices is at most their sum. -/
theorem affectedSum_le (maxBalance : ℕ) (chunks : List UnlockChunk) (indices : List ℕ) :
    affectedSum maxBalance chunks indices ≤ (indices.map (valueAt chunks)).sum := by
  suffices h : ∀ init, indices.foldl (affectedStep maxBalance chunks) init ≤
      init + (indices.map (valueAt chunks)).sum by
    have h0 := h 0
    rw [Nat.zero_add] at h0
    exact h0
  induction indices with
  | nil => simp
  | cons i is ih =>
    intro init
    have hstep := ih (affectedStep maxBalance chunks init i)
    have hi : affectedStep maxBalance chunks init i ≤ init + valueAt chunks i := by
      cases hc : chunks[i]? with
      | none => simp [affectedStep, hc]
      | some c => simp [affectedStep, valueAt, hc, saturatingAdd]
    simp only [List.foldl_cons, List.map_cons, List.sum_cons]
    omega

/-- The share of a ratio in parts per `ACCURACY`; without a ratio the whole remaining
amount is asked for, as with `Perquintill::one()`. -/
def ratioParts : Option Perquintill → ℕ
  | some r => r.parts
  | none => 10 ^ 18

theorem ratioParts_le (ratio : Option Perquintill) : ratioParts ratio ≤ 10 ^ 18 := by
  cases ratio with
  | some r => exact r.parts_le
  | none => exact le_rfl

/-- The ratio of the plan is the whole, or large enough that its share of the ledger
covers the slash: `from_rational_with_rounding` rounds up. -/
theorem slashPlan_ratio (w maxBalance bondingDuration : ℕ) (l : StakingLedger)
    (slashAmount slashEra : ℕ) (htotal : l.total = l.active + chunkSum l.unlocking) :
    ratioParts (slashPlan w maxBalance bondingDuration l slashAmount slashEra).1 = 10 ^ 18 ∨
      10 ^ 18 * slashAmount ≤
        ratioParts (slashPlan w maxBalance bondingDuration l slashAmount slashEra).1 * l.total := by
  simp only [slashPlan]
  split
  · rename_i first hfirst
    obtain ⟨hlt, -⟩ := List.findIdx?_eq_some_iff_getElem.mp hfirst
    -- the affected indices are a prefix of a permutation of all indices
    have hsum := ((range'_append_reverse_perm hlt.le).map (valueAt l.unlocking)).sum_nat
    rw [sum_valueAt_range, List.map_append, List.sum_append] at hsum
    have haff := affectedSum_le maxBalance l.unlocking
      (List.range' first (l.unlocking.length - first))
    cases hr : (PerThing.fromRationalWithRounding w slashAmount
        (saturatingAdd maxBalance l.active (affectedSum maxBalance l.unlocking
          (List.range' first (l.unlocking.length - first)))) .up : Option Perquintill) with
    | none => exact .inl rfl
    | some r =>
      right
      have hlow := PerThing.fromRationalWithRounding_up_lower hr
      have hbal : saturatingAdd maxBalance l.active (affectedSum maxBalance l.unlocking
          (List.range' first (l.unlocking.length - first))) ≤ l.total := by
        simp only [saturatingAdd]
        omega
      calc 10 ^ 18 * slashAmount ≤ r.parts * saturatingAdd maxBalance l.active
            (affectedSum maxBalance l.unlocking
              (List.range' first (l.unlocking.length - first))) := hlow
        _ ≤ r.parts * l.total := Nat.mul_le_mul_left _ hbal
  · exact .inl rfl

/-! ## One call of `slash_out_of` -/

section SlashOutOf

variable {maxBalance minimumBalance : ℕ} {ratio : Option Perquintill}

theorem slashFromTarget_le_target (ratio : Option Perquintill) (target remaining : ℕ) :
    slashFromTarget ratio target remaining ≤ target := by
  simp only [slashFromTarget]
  omega

/-- Unless it asks for all that remains, `slash_out_of` asks at least the ratio's share. -/
theorem slashFromTarget_lower {target remaining : ℕ}
    (h : slashFromTarget ratio target remaining < remaining) :
    ratioParts ratio * target ≤ 10 ^ 18 * slashFromTarget ratio target remaining := by
  cases ratio with
  | some r =>
    have hceil := PerThing.mulCeil_lower r target (by positivity)
    have hle : r.parts * target ≤ 10 ^ 18 * target := Nat.mul_le_mul_right _ r.parts_le
    simp only [slashFromTarget] at h ⊢
    rw [min_eq_left (by omega), ← Nat.mul_min_mul_left]
    exact le_min hceil hle
  | none =>
    simp only [slashFromTarget] at h ⊢
    have ht : min (min remaining target) remaining = target := by omega
    rw [ht]
    rfl

/-- `slash_out_of` takes some `d` from its target and charges it to `remaining` and
`total`; it leaves the target empty or at least `minimumBalance`; and unless `remaining`
is used up, `d` is at least the ratio's share of the target. -/
theorem slashOutOf_spec {target : ℕ} (htarget : target ≤ maxBalance) (remaining total : ℕ) :
    ∃ d ≤ target,
      slashOutOf maxBalance ratio minimumBalance target remaining total =
        (target - d, remaining - d, total - d) ∧
      (target - d = 0 ∨ minimumBalance ≤ target - d) ∧
      (0 < remaining - d → ratioParts ratio * target ≤ 10 ^ 18 * d) := by
  have hle := slashFromTarget_le_target ratio target remaining
  by_cases hdust : target - slashFromTarget ratio target remaining < minimumBalance
  · -- the rest of the target is dust: all of it is taken
    have hsat : saturatingAdd maxBalance (target - slashFromTarget ratio target remaining)
        (slashFromTarget ratio target remaining) = target := by
      simp only [saturatingAdd]
      omega
    refine ⟨target, le_rfl, ?_, .inl (Nat.sub_self _), fun _ => ?_⟩
    · simp only [slashOutOf, hdust, if_true, hsat, Nat.sub_self]
    · exact Nat.mul_le_mul_right _ (ratioParts_le ratio)
  · refine ⟨slashFromTarget ratio target remaining, hle, ?_, .inr (by omega), fun h => ?_⟩
    · simp only [slashOutOf, hdust, if_false]
    · exact slashFromTarget_lower (by omega)

theorem slashOutOf_remaining_le (target remaining total : ℕ) :
    (slashOutOf maxBalance ratio minimumBalance target remaining total).2.1 ≤ remaining := by
  simp only [slashOutOf]
  split <;> simp

end SlashOutOf

/-! ## The loop over the chunks -/

section Loop

variable {maxBalance minimumBalance : ℕ} {ratio : Option Perquintill}

/-- A property of `(unlocking, remaining, total)` that every slashed chunk keeps holds
after the loop, however it ends. -/
theorem slashChunks_induction (P : List UnlockChunk × ℕ × ℕ → Prop)
    (step : ∀ chunks remaining total i c, chunks[i]? = some c → remaining ≠ 0 →
      P (chunks, remaining, total) →
      P (chunks.set i { c with
          value := (slashOutOf maxBalance ratio minimumBalance c.value remaining total).1 },
        (slashOutOf maxBalance ratio minimumBalance c.value remaining total).2.1,
        (slashOutOf maxBalance ratio minimumBalance c.value remaining total).2.2))
    (is : List ℕ) {chunks : List UnlockChunk} {remaining total : ℕ}
    (h : P (chunks, remaining, total)) :
    P (slashChunks maxBalance ratio minimumBalance is chunks remaining total) := by
  induction is generalizing chunks remaining total with
  | nil => exact h
  | cons i is ih =>
    simp only [slashChunks]
    split_ifs with h0
    · exact h
    · split
      · exact h
      · rename_i c hc
        exact ih (step chunks remaining total i c hc h0 h)

theorem slashChunks_remaining_le (is : List ℕ) (chunks : List UnlockChunk)
    (remaining total : ℕ) :
    (slashChunks maxBalance ratio minimumBalance is chunks remaining total).2.1 ≤ remaining :=
  slashChunks_induction (fun s => s.2.1 ≤ remaining)
    (fun _ _ _ _ _ _ _ h => (slashOutOf_remaining_le _ _ _).trans h) is le_rfl

/-- What the loop keeps, for the active balance `a` left by the first `slash_out_of`
and the chunks `orig` it starts from: `total` is `a` plus the chunks, it has fallen
by at least what `remaining` has fallen from `remaining₀`, and each chunk is one of
`orig`, empty, or at least `minimumBalance`. -/
structure LoopInv (minimumBalance a total₀ remaining₀ : ℕ) (orig : List UnlockChunk)
    (s : List UnlockChunk × ℕ × ℕ) : Prop where
  total_eq : s.2.2 = a + chunkSum s.1
  charged : s.2.2 + (remaining₀ - s.2.1) ≤ total₀
  remaining_le : s.2.1 ≤ remaining₀
  dust : ∀ c ∈ s.1, c ∈ orig ∨ c.value = 0 ∨ minimumBalance ≤ c.value

theorem loopInv_step {a total₀ remaining₀ : ℕ} {orig : List UnlockChunk}
    (hmax : total₀ ≤ maxBalance) {chunks : List UnlockChunk} {remaining total i : ℕ}
    {c : UnlockChunk} (hc : chunks[i]? = some c)
    (hinv : LoopInv minimumBalance a total₀ remaining₀ orig (chunks, remaining, total)) :
    LoopInv minimumBalance a total₀ remaining₀ orig
      (chunks.set i { c with
          value := (slashOutOf maxBalance ratio minimumBalance c.value remaining total).1 },
        (slashOutOf maxBalance ratio minimumBalance c.value remaining total).2.1,
        (slashOutOf maxBalance ratio minimumBalance c.value remaining total).2.2) := by
  have hval := value_le_chunkSum hc
  have htot : total = a + chunkSum chunks := hinv.total_eq
  have hch : total + (remaining₀ - remaining) ≤ total₀ := hinv.charged
  have hrem : remaining ≤ remaining₀ := hinv.remaining_le
  obtain ⟨d, hd, heq, hdust, -⟩ :=
    @slashOutOf_spec maxBalance minimumBalance ratio c.value (by omega) remaining total
  have hsum := chunkSum_set hc (c.value - d)
  rw [heq]
  refine ⟨?_, ?_, ?_, ?_⟩
  · dsimp only
    omega
  · dsimp only
    omega
  · dsimp only
    omega
  intro c' hc'
  rcases List.mem_or_eq_of_mem_set hc' with hmem | rfl
  · exact hinv.dust c' hmem
  · exact .inr hdust

/-- Unless `remaining` is used up, the loop takes at least the ratio's share of the
chunks at the indices it is given. -/
theorem slashChunks_share {is : List ℕ} (hnd : is.Nodup) {chunks : List UnlockChunk}
    (hlt : ∀ i ∈ is, i < chunks.length) (hmax : ∀ c ∈ chunks, c.value ≤ maxBalance)
    (remaining total : ℕ)
    (hpos : 0 < (slashChunks maxBalance ratio minimumBalance is chunks remaining total).2.1) :
    ratioParts ratio * (is.map (valueAt chunks)).sum ≤
      10 ^ 18 * (remaining -
        (slashChunks maxBalance ratio minimumBalance is chunks remaining total).2.1) := by
  induction is generalizing chunks remaining total with
  | nil => simp
  | cons i is ih =>
    obtain ⟨hi_notin, hnd'⟩ := List.nodup_cons.mp hnd
    have hi : i < chunks.length := hlt i List.mem_cons_self
    have hr : remaining ≠ 0 := by
      rintro rfl
      simp [slashChunks] at hpos
    obtain ⟨c, hc⟩ : ∃ c, chunks[i]? = some c := ⟨chunks[i], List.getElem?_eq_getElem hi⟩
    obtain ⟨d, -, heq, -, hshare⟩ := @slashOutOf_spec maxBalance minimumBalance ratio c.value
      (hmax c (List.mem_of_getElem? hc)) remaining total
    simp only [slashChunks, hr, if_false, hc, heq] at hpos ⊢
    -- the rest of the loop runs on the updated chunks
    set chunks' := chunks.set i { c with value := c.value - d }
    have hlt' : ∀ j ∈ is, j < chunks'.length := fun j hj => by
      simpa [chunks'] using hlt j (List.mem_cons_of_mem _ hj)
    have hmax' : ∀ c' ∈ chunks', c'.value ≤ maxBalance := fun c' hc' => by
      rcases List.mem_or_eq_of_mem_set hc' with hmem | rfl
      · exact hmax c' hmem
      · exact (Nat.sub_le _ _).trans (hmax c (List.mem_of_getElem? hc))
    have hsame : is.map (valueAt chunks') = is.map (valueAt chunks) :=
      List.map_congr_left fun j hj => valueAt_set_ne _ fun hij => hi_notin (hij ▸ hj)
    have hrest := ih hnd' hlt' hmax' (remaining - d) (total - d) hpos
    have hle := @slashChunks_remaining_le maxBalance minimumBalance ratio is chunks'
      (remaining - d) (total - d)
    rw [hsame] at hrest
    rw [List.map_cons, List.sum_cons, valueAt_of_getElem? hc, Nat.mul_add]
    have hfirst := hshare (by omega)
    omega

end Loop

/-! ## The slash -/

/-- The bookkeeping of a ledger: `total` is the active balance plus the unlocking
chunks, and no chunk is empty. -/
structure StakingLedger.Consistent (l : StakingLedger) : Prop where
  total_eq : l.total = l.active + chunkSum l.unlocking
  chunk_ne_zero : ∀ c ∈ l.unlocking, c.value ≠ 0

end PolkadotSdk.Staking
