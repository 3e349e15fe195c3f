import PolkadotSdk.PerThings

/-!
# Staking ledger slashing

A model of `StakingLedger::slash`, which has the same body in `pallet-staking`
and `pallet-staking-async` (the era argument is `slash_era` in one and
`offence_era` in the other). Balances are natural numbers bounded by `maxBalance`,
the largest value of `BalanceOf<T>`, where the code saturates.
-/

namespace PolkadotSdk.Staking

open PerThings

/-- `UnlockChunk`: `value` is unlocked at era `era`. -/
structure UnlockChunk where
  value : ℕ
  era : ℕ
  deriving DecidableEq, Repr

/-- The fields of `StakingLedger` that `slash` reads and writes. -/
structure StakingLedger where
  total : ℕ
  active : ℕ
  unlocking : List UnlockChunk
  deriving DecidableEq, Repr

/-- `Perquintill`. -/
abbrev Perquintill := PerThing (10 ^ 18)

/-- `Saturating::saturating_add` on `BalanceOf<T>`. -/
def saturatingAdd (maxBalance a b : ℕ) : ℕ := min (a + b) maxBalance

/-- `EraIndex::saturating_add` on `u32`. -/
def eraSaturatingAdd (a b : ℕ) : ℕ := min (a + b) (2 ^ 32 - 1)

/-- One step of the `fold` over `affected_indices`: adds the chunk at `i`, if any. -/
def affectedStep (maxBalance : ℕ) (chunks : List UnlockChunk) (sum i : ℕ) : ℕ :=
  match chunks[i]? with
  | some c => saturatingAdd maxBalance sum c.value
  | none => sum

/-- `unbonding_affected_balance`: the saturating sum of the chunks at `indices`. -/
def affectedSum (maxBalance : ℕ) (chunks : List UnlockChunk) (indices : List ℕ) : ℕ :=
  indices.foldl (affectedStep maxBalance chunks) 0

/-- The slash plan: `Some(ratio)` for a proportional slash, and the order in which
chunks are slashed after the active balance. -/
def slashPlan (w maxBalance bondingDuration : ℕ) (l : StakingLedger) (slashAmount slashEra : ℕ) :
    Option Perquintill × List ℕ :=
  let slashableChunksStart := eraSaturatingAdd slashEra bondingDuration
  match l.unlocking.findIdx? (fun c => decide (slashableChunksStart ≤ c.era)) with
  | some first =>
    let affected := List.range' first (l.unlocking.length - first)
    let affectedBalance :=
      saturatingAdd maxBalance l.active (affectedSum maxBalance l.unlocking affected)
    let ratio := (PerThing.fromRationalWithRounding w slashAmount affectedBalance .up).getD .one
    (some ratio, affected ++ (List.range first).reverse)
  | none => (none, (List.range l.unlocking.length).reverse)

/-- The amount `slash_out_of` asks of a target before the dust rule: the
proportional share (or all that remains), bounded by the target and by what remains. -/
def slashFromTarget (ratio : Option Perquintill) (target remaining : ℕ) : ℕ :=
  let share := match ratio with
    | some r => r.mulCeil target
    | none => remaining
  min (min share target) remaining

/-- The closure `slash_out_of`, on `(target, remaining, total)`: a target left below
`minimumBalance` is wiped, and the wiped dust is charged too. -/
def slashOutOf (maxBalance : ℕ) (ratio : Option Perquintill) (minimumBalance : ℕ)
    (target remaining total : ℕ) : ℕ × ℕ × ℕ :=
  let fromTarget := slashFromTarget ratio target remaining
  let target' := target - fromTarget
  let (target'', fromTarget') :=
    if target' < minimumBalance then (0, saturatingAdd maxBalance target' fromTarget)
    else (target', fromTarget)
  (target'', remaining - fromTarget', total - fromTarget')

/-- The loop over `slash_chunks_priority`, on `(unlocking, remaining, total)`. -/
def slashChunks (maxBalance : ℕ) (ratio : Option Perquintill) (minimumBalance : ℕ) :
    List ℕ → List UnlockChunk → ℕ → ℕ → List UnlockChunk × ℕ × ℕ
  | [], chunks, remaining, total => (chunks, remaining, total)
  | i :: is, chunks, remaining, total =>
    if remaining = 0 then (chunks, remaining, total)
    else
      match chunks[i]? with
      | none => (chunks, remaining, total)
      | some c =>
        let r := slashOutOf maxBalance ratio minimumBalance c.value remaining total
        slashChunks maxBalance ratio minimumBalance is
          (chunks.set i { c with value := r.1 }) r.2.1 r.2.2

/-- `StakingLedger::slash`: the slashed ledger and `final_slashed_amount`. `w` is
the bit width of the balance type, `maxBalance` its largest value. -/
def slash (w maxBalance bondingDuration : ℕ) (l : StakingLedger)
    (slashAmount minimumBalance slashEra : ℕ) : StakingLedger × ℕ :=
  if slashAmount = 0 then (l, 0)
  else
    let plan := slashPlan w maxBalance bondingDuration l slashAmount slashEra
    let a := slashOutOf maxBalance plan.1 minimumBalance l.active slashAmount l.total
    let c := slashChunks maxBalance plan.1 minimumBalance plan.2 l.unlocking a.2.1 a.2.2
    let l' : StakingLedger :=
      ⟨c.2.2, a.1, c.1.filter fun chunk => decide (chunk.value ≠ 0)⟩
    (l', l.total - l'.total)

end PolkadotSdk.Staking
