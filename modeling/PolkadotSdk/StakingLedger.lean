import PolkadotSdk.Staking

/-!
# Rebonding, consolidating and lowering a staking ledger

`StakingLedger::rebond`, `consolidate_unlocked` and `update_total_stake`. The unlocking chunks are
kept with the oldest first; `rebond` and `update_total_stake` both work on `last_mut()`, so here
their loops run over the reversed list, newest first. The loops' `defensive_saturating_add` is
`saturatingAdd maxBalance`; the plain additions cannot overflow on a ledger whose total fits.
-/

namespace PolkadotSdk.Staking

/-- The sum of the chunks' values. -/
def unlockingSum (chunks : List UnlockChunk) : ℕ := (chunks.map (·.value)).sum

/-- The chunks left when `amount` is taken from the front of the list: whole chunks go while the
amount covers them, and the first chunk it does not cover is lowered by what is left. -/
def takeFront : ℕ → List UnlockChunk → List UnlockChunk
  | _, [] => []
  | amount, c :: cs =>
    if c.value ≤ amount then takeFront (amount - c.value) cs
    else { c with value := c.value - amount } :: cs

/-- The ledger invariant: the total is the active stake plus the chunks, and no chunk is empty. -/
structure LedgerInv (l : StakingLedger) : Prop where
  total_eq : l.total = l.active + unlockingSum l.unlocking
  chunk_pos : ∀ c ∈ l.unlocking, 0 < c.value

/-! ## The source's loops -/

/-- The loop of `rebond`, on the chunks newest first, from `(unlocking_balance, active)`: the amount
rebonded, the new active stake and the chunks left. -/
def rebondLoop (maxBalance value : ℕ) : List UnlockChunk → ℕ × ℕ → ℕ × ℕ × List UnlockChunk
  | [], (rebonded, active) => (rebonded, active, [])
  | last :: rest, (rebonded, active) =>
    if saturatingAdd maxBalance rebonded last.value ≤ value then
      if value ≤ rebonded + last.value then (rebonded + last.value, active + last.value, rest)
      else rebondLoop maxBalance value rest (rebonded + last.value, active + last.value)
    else
      -- `unlocking_balance` reaches `value` here, so the loop breaks
      let diff := value - rebonded
      (rebonded + diff, active + diff, { last with value := last.value - diff } :: rest)

/-- `StakingLedger::rebond`: the ledger and the amount rebonded. -/
def StakingLedger.rebond (maxBalance : ℕ) (l : StakingLedger) (value : ℕ) : StakingLedger × ℕ :=
  let r := rebondLoop maxBalance value l.unlocking.reverse (0, l.active)
  ({ l with active := r.2.1, unlocking := r.2.2.reverse }, r.1)

/-- `StakingLedger::consolidate_unlocked`: the chunks of eras up to `currentEra` go, and the total
loses their values. -/
def StakingLedger.consolidateUnlocked (l : StakingLedger) (currentEra : ℕ) : StakingLedger :=
  { l with
    total := l.unlocking.foldl (fun total chunk => if currentEra < chunk.era then total else total - chunk.value)
      l.total
    unlocking := l.unlocking.filter fun chunk => currentEra < chunk.era }

/-- The loop of `update_total_stake`, on the chunks newest first, from `withdrawn`: the chunks left. -/
def updateTotalLoop (maxBalance toWithdraw : ℕ) : List UnlockChunk → ℕ → List UnlockChunk
  | [], _ => []
  | last :: rest, withdrawn =>
    if saturatingAdd maxBalance withdrawn last.value ≤ toWithdraw then
      if toWithdraw ≤ withdrawn + last.value then rest
      else updateTotalLoop maxBalance toWithdraw rest (withdrawn + last.value)
    else
      -- `withdrawn` reaches `to_withdraw` here, so the loop breaks
      { last with value := last.value - (toWithdraw - withdrawn) } :: rest

/-- `StakingLedger::update_total_stake`: the total becomes `newTotal`, and the difference is taken
from the active stake and then from the chunks. -/
def StakingLedger.updateTotalStake (maxBalance : ℕ) (l : StakingLedger) (newTotal : ℕ) : StakingLedger :=
  let toWithdraw := l.total - newTotal
  if toWithdraw ≤ l.active then { l with total := newTotal, active := l.active - toWithdraw }
  else
    { l with
      total := newTotal
      active := 0
      unlocking := (updateTotalLoop maxBalance toWithdraw l.unlocking.reverse l.active).reverse }

/-! ## Taking from the front of the chunks -/

@[simp] theorem unlockingSum_nil : unlockingSum [] = 0 := rfl

@[simp] theorem unlockingSum_cons (c : UnlockChunk) (cs : List UnlockChunk) :
    unlockingSum (c :: cs) = c.value + unlockingSum cs := by
  simp [unlockingSum]

@[simp] theorem unlockingSum_reverse (cs : List UnlockChunk) : unlockingSum cs.reverse = unlockingSum cs := by
  simp [unlockingSum, List.map_reverse, List.sum_reverse]

theorem unlockingSum_filter_add (p : UnlockChunk → Bool) (cs : List UnlockChunk) :
    unlockingSum (cs.filter p) + unlockingSum (cs.filter fun c => !p c) = unlockingSum cs := by
  induction cs with
  | nil => rfl
  | cons c cs ih =>
    cases hp : p c <;> simp [hp] <;> omega

theorem takeFront_zero {cs : List UnlockChunk} (h : ∀ c ∈ cs, 0 < c.value) : takeFront 0 cs = cs := by
  cases cs with
  | nil => rfl
  | cons c cs =>
    have hc := h c List.mem_cons_self
    rw [takeFront, if_neg (by omega), Nat.sub_zero]

theorem unlockingSum_takeFront (amount : ℕ) (cs : List UnlockChunk) :
    unlockingSum (takeFront amount cs) = unlockingSum cs - amount := by
  induction cs generalizing amount with
  | nil => simp [takeFront]
  | cons c cs ih =>
    rw [takeFront]
    split
    · rw [ih, unlockingSum_cons]
      omega
    · rw [unlockingSum_cons, unlockingSum_cons]
      dsimp only
      omega

theorem takeFront_pos {cs : List UnlockChunk} (h : ∀ c ∈ cs, 0 < c.value) (amount : ℕ) :
    ∀ c ∈ takeFront amount cs, 0 < c.value := by
  induction cs generalizing amount with
  | nil => simp [takeFront]
  | cons c cs ih =>
    have hrest : ∀ c' ∈ cs, 0 < c'.value := fun c' hc' => h c' (List.mem_cons_of_mem _ hc')
    rw [takeFront]
    split
    · exact ih hrest _
    · rename_i hlt
      intro c' hc'
      rcases List.mem_cons.mp hc' with rfl | hc'
      · dsimp only
        omega
      · exact hrest c' hc'

/-! ## The loops take from the newest chunks -/

/-- The loop of `update_total_stake` takes what is left to withdraw from the front of the list it
runs on, that is from the newest chunks. -/
theorem updateTotalLoop_eq {maxBalance toWithdraw : ℕ} :
    ∀ (cs : List UnlockChunk) (withdrawn : ℕ), withdrawn ≤ toWithdraw →
      withdrawn + unlockingSum cs ≤ maxBalance → (∀ c ∈ cs, 0 < c.value) →
      updateTotalLoop maxBalance toWithdraw cs withdrawn = takeFront (toWithdraw - withdrawn) cs
  | [], _, _, _, _ => rfl
  | last :: rest, withdrawn, hle, hmax, hpos => by
    have hlast := hpos last List.mem_cons_self
    have hrest : ∀ c ∈ rest, 0 < c.value := fun c hc => hpos c (List.mem_cons_of_mem _ hc)
    rw [unlockingSum_cons] at hmax
    rw [updateTotalLoop, saturatingAdd, Nat.min_eq_left (by omega), takeFront]
    by_cases hfit : withdrawn + last.value ≤ toWithdraw
    · rw [if_pos hfit, if_pos (show last.value ≤ toWithdraw - withdrawn by omega)]
      by_cases hstop : toWithdraw ≤ withdrawn + last.value
      · -- the last chunk taken was exactly what was left
        rw [if_pos hstop, show toWithdraw - withdrawn - last.value = 0 by omega, takeFront_zero hrest]
      · rw [if_neg hstop, updateTotalLoop_eq rest _ (by omega) (by omega) hrest, Nat.sub_sub]
    · rw [if_neg hfit, if_neg (show ¬ last.value ≤ toWithdraw - withdrawn by omega)]

/-- The loop of `rebond` leaves the chunks that of `update_total_stake` leaves, and moves what the
chunks lose to the amount rebonded and to the active stake. -/
theorem rebondLoop_spec (maxBalance value : ℕ) :
    ∀ (cs : List UnlockChunk) (rebonded active : ℕ),
      (rebondLoop maxBalance value cs (rebonded, active)).2.2 = updateTotalLoop maxBalance value cs rebonded ∧
      (rebondLoop maxBalance value cs (rebonded, active)).1 +
          unlockingSum (rebondLoop maxBalance value cs (rebonded, active)).2.2 = rebonded + unlockingSum cs ∧
      (rebondLoop maxBalance value cs (rebonded, active)).2.1 +
          unlockingSum (rebondLoop maxBalance value cs (rebonded, active)).2.2 = active + unlockingSum cs
  | [], _, _ => ⟨rfl, rfl, rfl⟩
  | last :: rest, rebonded, active => by
    rw [rebondLoop, updateTotalLoop]
    split
    · split
      · refine ⟨rfl, ?_, ?_⟩ <;> simp only [unlockingSum_cons] <;> omega
      · obtain ⟨h1, h2, h3⟩ := rebondLoop_spec maxBalance value rest (rebonded + last.value) (active + last.value)
        rw [unlockingSum_cons]
        exact ⟨h1, by omega, by omega⟩
    · -- the last chunk covers what is left to rebond, even where the sum saturates
      rename_i hover
      have hle : value - rebonded ≤ last.value := by
        have := Nat.min_le_left (rebonded + last.value) maxBalance
        rw [saturatingAdd] at hover
        omega
      refine ⟨rfl, ?_, ?_⟩ <;> simp only [unlockingSum_cons] <;> omega

/-! ## The three operations -/

/-- `rebond` moves `min value (sum of the chunks)` from the newest chunks to the active stake. -/
theorem rebond_spec {maxBalance : ℕ} {l : StakingLedger} (h : LedgerInv l) (hmax : l.total ≤ maxBalance)
    (value : ℕ) :
    (l.rebond maxBalance value).2 = min value (unlockingSum l.unlocking) ∧
      (l.rebond maxBalance value).1.active = l.active + (l.rebond maxBalance value).2 ∧
      (l.rebond maxBalance value).1.total = l.total ∧
      (l.rebond maxBalance value).1.unlocking.reverse = takeFront value l.unlocking.reverse ∧
      LedgerInv (l.rebond maxBalance value).1 := by
  have htotal := h.total_eq
  have hpos : ∀ c ∈ l.unlocking.reverse, 0 < c.value := fun c hc => h.chunk_pos c (List.mem_reverse.mp hc)
  obtain ⟨hc, h1, h2⟩ := rebondLoop_spec maxBalance value l.unlocking.reverse 0 l.active
  have hloop := @updateTotalLoop_eq maxBalance value l.unlocking.reverse 0 (Nat.zero_le value)
    (by rw [unlockingSum_reverse]; omega) hpos
  have hsum := unlockingSum_takeFront value l.unlocking.reverse
  rw [hloop, Nat.sub_zero] at hc
  simp only [StakingLedger.rebond]
  generalize rebondLoop maxBalance value l.unlocking.reverse (0, l.active) = r at hc h1 h2
  rw [hc, hsum, unlockingSum_reverse] at h1 h2
  refine ⟨by omega, by omega, trivial, by rw [List.reverse_reverse, hc], ⟨?_, ?_⟩⟩
  · -- the chunks lost to the active stake what it gained
    show l.total = r.2.1 + unlockingSum r.2.2.reverse
    rw [unlockingSum_reverse, hc, hsum, unlockingSum_reverse]
    omega
  · intro c hc'
    rw [List.mem_reverse, hc] at hc'
    exact takeFront_pos hpos value c hc'

theorem foldl_consolidate (currentEra : ℕ) (cs : List UnlockChunk) (total : ℕ) :
    cs.foldl (fun total chunk => if currentEra < chunk.era then total else total - chunk.value) total =
      total - unlockingSum (cs.filter fun chunk => !decide (currentEra < chunk.era)) := by
  induction cs generalizing total with
  | nil => rfl
  | cons c cs ih =>
    rw [List.foldl_cons, ih]
    by_cases hc : currentEra < c.era
    · simp [hc]
    · simp [hc, Nat.sub_sub]

/-- `consolidate_unlocked` drops exactly the chunks of eras up to `currentEra` and lowers the total
by their sum. -/
theorem consolidateUnlocked_spec (l : StakingLedger) (currentEra : ℕ) :
    (l.consolidateUnlocked currentEra).unlocking = l.unlocking.filter (fun c => currentEra < c.era) ∧
      (l.consolidateUnlocked currentEra).total =
        l.total - unlockingSum (l.unlocking.filter fun c => c.era ≤ currentEra) ∧
      (LedgerInv l → LedgerInv (l.consolidateUnlocked currentEra)) := by
  have hremoved : (l.unlocking.filter fun c => c.era ≤ currentEra) =
      l.unlocking.filter fun c => !decide (currentEra < c.era) :=
    List.filter_congr fun c _ => by rw [← decide_not]; exact decide_eq_decide.mpr Nat.not_lt.symm
  have hsplit := unlockingSum_filter_add (fun c => decide (currentEra < c.era)) l.unlocking
  refine ⟨rfl, by rw [hremoved]; exact foldl_consolidate currentEra l.unlocking l.total, fun h => ⟨?_, ?_⟩⟩
  · -- the chunks kept and the chunks dropped make up the sum
    have htotal := h.total_eq
    show l.unlocking.foldl _ l.total = l.active + unlockingSum (l.unlocking.filter fun c => currentEra < c.era)
    rw [foldl_consolidate]
    omega
  · intro c hc
    exact h.chunk_pos c (List.mem_filter.mp hc).1

/-- `update_total_stake` takes the difference from the active stake and then from the newest chunks. -/
theorem updateTotalStake_spec {maxBalance : ℕ} {l : StakingLedger} (h : LedgerInv l) (hmax : l.total ≤ maxBalance)
    {newTotal : ℕ} (hnew : newTotal ≤ l.total) :
    (l.updateTotalStake maxBalance newTotal).total = newTotal ∧
      (l.updateTotalStake maxBalance newTotal).active = l.active - (l.total - newTotal) ∧
      (l.updateTotalStake maxBalance newTotal).unlocking.reverse =
        takeFront (l.total - newTotal - l.active) l.unlocking.reverse ∧
      LedgerInv (l.updateTotalStake maxBalance newTotal) := by
  have htotal := h.total_eq
  have hpos : ∀ c ∈ l.unlocking.reverse, 0 < c.value := fun c hc => h.chunk_pos c (List.mem_reverse.mp hc)
  unfold StakingLedger.updateTotalStake
  dsimp only
  split
  · rename_i hactive
    rw [show l.total - newTotal - l.active = 0 by omega, takeFront_zero hpos]
    exact ⟨rfl, rfl, rfl, ⟨by dsimp only; omega, h.chunk_pos⟩⟩
  · rename_i hactive
    have hloop := @updateTotalLoop_eq maxBalance (l.total - newTotal) l.unlocking.reverse l.active (by omega)
      (by rw [unlockingSum_reverse]; omega) hpos
    have hsum := unlockingSum_takeFront (l.total - newTotal - l.active) l.unlocking.reverse
    rw [unlockingSum_reverse] at hsum
    refine ⟨rfl, by dsimp only; omega, by rw [List.reverse_reverse, hloop], ⟨?_, ?_⟩⟩
    · dsimp only
      rw [unlockingSum_reverse, hloop, hsum]
      omega
    · intro c hc
      rw [List.mem_reverse, hloop] at hc
      exact takeFront_pos hpos _ c hc

theorem ledger_update_total_takes_newest :
    (∀ (maxBalance : ℕ) (l : StakingLedger) (value : ℕ), LedgerInv l → l.total ≤ maxBalance →
      (l.rebond maxBalance value).2 = min value (unlockingSum l.unlocking) ∧
        (l.rebond maxBalance value).1.active = l.active + (l.rebond maxBalance value).2 ∧
        (l.rebond maxBalance value).1.total = l.total ∧
        (l.rebond maxBalance value).1.unlocking.reverse = takeFront value l.unlocking.reverse ∧
        LedgerInv (l.rebond maxBalance value).1) ∧
    (∀ (l : StakingLedger) (currentEra : ℕ),
      (l.consolidateUnlocked currentEra).unlocking = l.unlocking.filter (fun c => currentEra < c.era) ∧
        (l.consolidateUnlocked currentEra).total =
          l.total - unlockingSum (l.unlocking.filter fun c => c.era ≤ currentEra) ∧
        (LedgerInv l → LedgerInv (l.consolidateUnlocked currentEra))) ∧
    (∀ (maxBalance : ℕ) (l : StakingLedger) (newTotal : ℕ), LedgerInv l → l.total ≤ maxBalance →
      newTotal ≤ l.total →
      (l.updateTotalStake maxBalance newTotal).total = newTotal ∧
        (l.updateTotalStake maxBalance newTotal).active = l.active - (l.total - newTotal) ∧
        (l.updateTotalStake maxBalance newTotal).unlocking.reverse =
          takeFront (l.total - newTotal - l.active) l.unlocking.reverse ∧
        LedgerInv (l.updateTotalStake maxBalance newTotal)) ∧
    (StakingLedger.updateTotalStake (2 ^ 128 - 1) ⟨20, 0, [⟨10, 1⟩, ⟨10, 2⟩]⟩ 10).unlocking = [⟨10, 1⟩] ∧
      takeFront 10 [⟨10, 1⟩, ⟨10, 2⟩] = [⟨10, 2⟩] :=
  ⟨fun _ _ value h hmax => rebond_spec h hmax value, consolidateUnlocked_spec,
    fun _ _ _ h hmax hnew => updateTotalStake_spec h hmax hnew, by decide, by decide⟩

/-- A ledger with `5` active and chunks of `10` at era `1` and `15` at era `2`, rebonding `20` and
lowered to a total of `12`. -/
theorem ledger_update_total_takes_newest_two_chunks :
    (StakingLedger.rebond (2 ^ 128 - 1) ⟨30, 5, [⟨10, 1⟩, ⟨15, 2⟩]⟩ 20).2 = 20 ∧
      (StakingLedger.updateTotalStake (2 ^ 128 - 1) ⟨30, 5, [⟨10, 1⟩, ⟨15, 2⟩]⟩ 12).unlocking.reverse =
        takeFront 13 [⟨15, 2⟩, ⟨10, 1⟩] := by
  have hinv : LedgerInv ⟨30, 5, [⟨10, 1⟩, ⟨15, 2⟩]⟩ := ⟨rfl, by decide⟩
  obtain ⟨hr, -⟩ := ledger_update_total_takes_newest.1 (2 ^ 128 - 1) _ 20 hinv (by decide)
  obtain ⟨-, -, hu, -⟩ := ledger_update_total_takes_newest.2.2.1 (2 ^ 128 - 1) _ 12 hinv (by decide) (by decide)
  exact ⟨hr, hu⟩

end PolkadotSdk.Staking
