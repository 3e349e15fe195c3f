import Mathlib.Data.List.AList
import PolkadotSdk.PerThings

/-!
# Nomination pool reward accounting

A model of one pool of `pallet-nomination-pools` as its reward accounting sees it: the
bonded pool's points, active stake and commission, the `RewardPool` record, the reducible
balance of the reward account, and the members' points and recorded reward counters.
The calls are pool creation, a reward arriving in the reward account, `join`,
`bond_extra` (from free balance or from rewards), `claim_payout`, `unbond`,
`claim_commission` and `set_commission`, each returning the new pool or its error.

Balances and points are `u128`; the reward counter is a `FixedU128`, kept as its inner
value with `rewardCounterDiv` parts per unit. Unbonding pools, roles and permissions,
member limits and events are left out: the reward accounting never reads them.
-/

namespace PolkadotSdk.NominationPools

open PerThings

/-- `u128::MAX`, the bound of balances, points and the reward counter's inner value. -/
def balanceMax : ℕ := 2 ^ 128 - 1

/-- `FixedU128::DIV`. -/
def rewardCounterDiv : ℕ := 10 ^ 18

/-- `Perbill`. -/
abbrev Perbill := PerThing (10 ^ 9)

/-- `Saturating::saturating_add` on balances. -/
def saturatingAdd (a b : ℕ) : ℕ := min (a + b) balanceMax

/-- `FixedU128::checked_from_rational`: `n / d` rounded down, `none` when `d = 0` or on
overflow. -/
def checkedFromRational (n d : ℕ) : Option ℕ := multiplyRational 128 n rewardCounterDiv d .down

/-- `FixedU128::checked_mul_int`: the counter times `n`, rounded down. -/
def checkedMulInt (rc n : ℕ) : Option ℕ := multiplyRational 128 rc n rewardCounterDiv .down

/-- `Pallet::balance_to_point`: the points that `newFunds` buy in a pool of
`currentBalance` and `currentPoints`. -/
def balanceToPoint (currentBalance currentPoints newFunds : ℕ) : ℕ :=
  if currentPoints = 0 then min newFunds balanceMax
  else if currentBalance = 0 then min (newFunds * currentPoints) balanceMax
  else min (currentPoints * newFunds / currentBalance) balanceMax

/-- `Pallet::point_to_balance`: the balance that `points` stand for. -/
def pointToBalance (currentBalance currentPoints points : ℕ) : ℕ :=
  if currentBalance = 0 ∨ currentPoints = 0 ∨ points = 0 then 0
  else min (currentBalance * points / currentPoints) balanceMax

/-- `RewardPool`. -/
structure RewardPool where
  lastRecordedRewardCounter : ℕ
  lastRecordedTotalPayouts : ℕ
  totalRewardsClaimed : ℕ
  totalCommissionPending : ℕ
  totalCommissionClaimed : ℕ
  deriving DecidableEq, Repr

namespace RewardPool

/-- `RewardPool::register_claimed_reward`. -/
def registerClaimedReward (rp : RewardPool) (reward : ℕ) : RewardPool :=
  { rp with totalRewardsClaimed := saturatingAdd rp.totalRewardsClaimed reward }

/-- `RewardPool::current_reward_counter`: the reward counter with the rewards that arrived
since the last record shared over `bondedPoints`, and the commission taken from them. -/
def currentRewardCounter (rp : RewardPool) (balance bondedPoints : ℕ) (commission : Perbill) :
    Option (ℕ × ℕ) :=
  let currentPayoutBalance :=
    saturatingAdd (saturatingAdd balance rp.totalRewardsClaimed) rp.totalCommissionClaimed -
      rp.lastRecordedTotalPayouts
  let newPendingCommission := commission.mul currentPayoutBalance
  let newPendingRewards := currentPayoutBalance - newPendingCommission
  match checkedFromRational newPendingRewards bondedPoints with
  | none => none
  | some r =>
    if rp.lastRecordedRewardCounter + r ≤ balanceMax then
      some (rp.lastRecordedRewardCounter + r, newPendingCommission)
    else none

/-- `RewardPool::update_records`: record the current counter, the new pending commission
and the total paid out so far. -/
def updateRecords (rp : RewardPool) (balance bondedPoints : ℕ) (commission : Perbill) :
    Option RewardPool :=
  match rp.currentRewardCounter balance bondedPoints commission with
  | none => none
  | some (currentRewardCounter, newPendingCommission) =>
    let rp :=
      { rp with
        lastRecordedRewardCounter := currentRewardCounter
        totalCommissionPending := saturatingAdd rp.totalCommissionPending newPendingCommission }
    let lastRecordedTotalPayouts := balance + saturatingAdd rp.totalRewardsClaimed rp.totalCommissionClaimed
    if lastRecordedTotalPayouts ≤ balanceMax then
      some { rp with lastRecordedTotalPayouts := max rp.lastRecordedTotalPayouts lastRecordedTotalPayouts }
    else none

end RewardPool

/-- The fields of `PoolMember` that the reward accounting reads: the points in the bonded
pool and the reward counter of the member's last payout. -/
structure PoolMember where
  points : ℕ
  lastRecordedRewardCounter : ℕ
  deriving DecidableEq, Repr

/-- `PoolMember::pending_rewards`. -/
def PoolMember.pendingRewards (member : PoolMember) (currentRewardCounter : ℕ) : Option ℕ :=
  checkedMulInt (currentRewardCounter - member.lastRecordedRewardCounter) member.points

/-- `PoolState`. -/
inductive PoolState where
  | «open»
  | blocked
  | destroying
  deriving DecidableEq, Repr

/-- `BondExtra`. -/
inductive BondExtra where
  | freeBalance (amount : ℕ)
  | rewards
  deriving DecidableEq, Repr

/-- The errors the modelled calls return: the pallet's own, and `FundsUnavailable` of a
reward-account transfer that the balance cannot cover. -/
inductive Error where
  | poolMemberNotFound
  | minimumBondNotMet
  | accountBelongsToOtherPool
  | fullyUnbonding
  | overflowRisk
  | notOpen
  | canNotChangeState
  | noPendingCommission
  | noCommissionCurrentSet
  | fundsUnavailable
  deriving DecidableEq, Repr

/-- The constants of the pallet's `Config` and storage that the calls read. -/
structure Config where
  minJoinBond : ℕ
  depositorMinBond : ℕ
  maxPointsToBalance : ℕ
  globalMaxCommission : Option Perbill

/-- One pool: the bonded pool, its reward pool, the reducible balance of its reward
account (`RewardPool::current_balance`) and its members. -/
structure Pool (A : Type) [DecidableEq A] where
  state : PoolState
  points : ℕ
  activeStake : ℕ
  commission : Option (Perbill × A)
  rewardPool : RewardPool
  rewardBalance : ℕ
  members : AList fun _ : A => PoolMember

variable {A : Type} [DecidableEq A]

namespace Pool

/-- `Commission::current`: the current rate, capped by `GlobalMaxCommission`. -/
def currentCommission (c : Config) (pool : Pool A) : Perbill :=
  let rate := (pool.commission.map Prod.fst).getD PerThing.zero
  match c.globalMaxCommission with
  | none => rate
  | some max => if rate.parts ≤ max.parts then rate else max

/-- `BondedPool::ok_to_be_open`. -/
def okToBeOpen (c : Config) (pool : Pool A) : Option Error :=
  if pool.state = .destroying then some .canNotChangeState
  else if pool.activeStake = 0 then some .overflowRisk
  else if pool.points / pool.activeStake < c.maxPointsToBalance then none
  else some .overflowRisk

/-- `BondedPool::issue` with the bond of `try_bond_funds`: points for `amount`, which
joins the active stake. -/
def bondFunds (pool : Pool A) (amount : ℕ) : Pool A × ℕ :=
  let pointsIssued := balanceToPoint pool.activeStake pool.points amount
  ({ pool with points := saturatingAdd pool.points pointsIssued, activeStake := pool.activeStake + amount },
    pointsIssued)

/-- `RewardPool::update_records` on the pool's reward pool with its points and commission. -/
def updateRecords (c : Config) (pool : Pool A) : Except Error (Pool A) :=
  match pool.rewardPool.updateRecords pool.rewardBalance pool.points (pool.currentCommission c) with
  | none => .error .overflowRisk
  | some rp => .ok { pool with rewardPool := rp }

/-- The transfer out of the reward account, which keeps the existential deposit. -/
def transferOut (pool : Pool A) (amount : ℕ) : Except Error (Pool A) :=
  if pool.rewardBalance < amount then .error .fundsUnavailable
  else .ok { pool with rewardBalance := pool.rewardBalance - amount }

end Pool

/-- `do_create`: a new open pool whose depositor holds all its points. -/
def doCreate (c : Config) (depositor : A) (amount : ℕ) : Except Error (Pool A) :=
  if amount < c.depositorMinBond then .error .minimumBondNotMet
  else
    let points := balanceToPoint 0 0 amount
    .ok { state := .open
          points := points
          activeStake := amount
          commission := none
          rewardPool := ⟨0, 0, 0, 0, 0⟩
          rewardBalance := 0
          members := (∅ : AList fun _ : A => PoolMember).insert depositor ⟨points, 0⟩ }

/-- A reward arriving in the reward account. -/
def depositReward (pool : Pool A) (amount : ℕ) : Pool A :=
  { pool with rewardBalance := saturatingAdd pool.rewardBalance amount }

/-- `do_reward_payout`: pay the member its pending rewards and record the counter it was
paid at. A payout that rounds to zero returns at once, recording nothing. -/
def doRewardPayout (c : Config) (pool : Pool A) (member : PoolMember) :
    Except Error (Pool A × PoolMember × ℕ) :=
  if member.points = 0 then .error .fullyUnbonding
  else
    match pool.rewardPool.currentRewardCounter pool.rewardBalance pool.points (pool.currentCommission c) with
    | none => .error .overflowRisk
    | some (currentRewardCounter, _) =>
      match member.pendingRewards currentRewardCounter with
      | none => .error .overflowRisk
      | some pendingRewards =>
        if pendingRewards = 0 then .ok (pool, member, pendingRewards)
        else
          let member := { member with lastRecordedRewardCounter := currentRewardCounter }
          let pool := { pool with rewardPool := pool.rewardPool.registerClaimedReward pendingRewards }
          match pool.transferOut pendingRewards with
          | .error e => .error e
          | .ok pool => .ok (pool, member, pendingRewards)

/-- `join`: a new member bonds `amount` at the current reward counter. -/
def join (c : Config) (pool : Pool A) (who : A) (amount : ℕ) : Except Error (Pool A) :=
  if amount < c.minJoinBond then .error .minimumBondNotMet
  else if who ∈ pool.members then .error .accountBelongsToOtherPool
  else if pool.state ≠ .open then .error .notOpen
  else
    match pool.okToBeOpen c with
    | some e => .error e
    | none =>
      match pool.updateRecords c with
      | .error e => .error e
      | .ok pool =>
        let (pool, pointsIssued) := pool.bondFunds amount
        .ok { pool with
          members := pool.members.insert who ⟨pointsIssued, pool.rewardPool.lastRecordedRewardCounter⟩ }

/-- `do_bond_extra`: record the reward pool, pay the member out, then bond `extra` and
add its points to the member. -/
def doBondExtra (c : Config) (pool : Pool A) (who : A) (extra : BondExtra) : Except Error (Pool A) :=
  match pool.members.lookup who with
  | none => .error .poolMemberNotFound
  | some member =>
    match pool.updateRecords c with
    | .error e => .error e
    | .ok pool =>
      match doRewardPayout c pool member with
      | .error e => .error e
      | .ok (pool, member, claimed) =>
        let bonded := match extra with
          | .freeBalance amount => amount
          | .rewards => claimed
        let (pool, pointsIssued) := pool.bondFunds bonded
        match pool.okToBeOpen c with
        | some e => .error e
        | none =>
          if member.points + pointsIssued ≤ balanceMax then
            .ok { pool with members := pool.members.insert who { member with points := member.points + pointsIssued } }
          else .error .overflowRisk

/-- `do_claim_payout`. -/
def doClaimPayout (c : Config) (pool : Pool A) (who : A) : Except Error (Pool A) :=
  match pool.members.lookup who with
  | none => .error .poolMemberNotFound
  | some member =>
    match doRewardPayout c pool member with
    | .error e => .error e
    | .ok (pool, member, _) => .ok { pool with members := pool.members.insert who member }

/-- `unbond`, as far as the bonded pool and the member's points go: record the reward
pool, pay the member out, and dissolve `unbondingPoints` of its points. -/
def unbond (c : Config) (pool : Pool A) (who : A) (unbondingPoints : ℕ) : Except Error (Pool A) :=
  match pool.members.lookup who with
  | none => .error .poolMemberNotFound
  | some member =>
    match pool.updateRecords c with
    | .error e => .error e
    | .ok pool =>
      match doRewardPayout c pool member with
      | .error e => .error e
      | .ok (pool, member, _) =>
        let unbondingBalance := pointToBalance pool.activeStake pool.points unbondingPoints
        let pool := { pool with
          points := pool.points - unbondingPoints
          activeStake := pool.activeStake - unbondingBalance }
        if unbondingPoints ≤ member.points then
          .ok { pool with
            members := pool.members.insert who { member with points := member.points - unbondingPoints } }
        else .error .minimumBondNotMet

/-- `do_claim_commission`: pay all pending commission to the commission payee. -/
def doClaimCommission (c : Config) (pool : Pool A) : Except Error (Pool A) :=
  match pool.updateRecords c with
  | .error e => .error e
  | .ok pool =>
    let commission := pool.rewardPool.totalCommissionPending
    if commission = 0 then .error .noPendingCommission
    else
      match pool.commission with
      | none => .error .noCommissionCurrentSet
      | some _ =>
        match pool.transferOut commission with
        | .error e => .error e
        | .ok pool =>
          .ok { pool with
            rewardPool := { pool.rewardPool with
              totalCommissionClaimed := saturatingAdd pool.rewardPool.totalCommissionClaimed commission
              totalCommissionPending := 0 } }

/-- `set_commission`: record the reward pool at the old rate, then set the new one. -/
def setCommission (c : Config) (pool : Pool A) (newCommission : Option (Perbill × A)) :
    Except Error (Pool A) :=
  match pool.updateRecords c with
  | .error e => .error e
  | .ok pool => .ok { pool with commission := newCommission }

/-- The members' pending rewards at the current reward counter, summed as
`do_try_state` sums them. -/
def Pool.pendingRewardsSum (c : Config) (pool : Pool A) : Option ℕ :=
  match pool.rewardPool.currentRewardCounter pool.rewardBalance pool.points (pool.currentCommission c) with
  | none => none
  | some (currentRewardCounter, _) =>
    (pool.members.entries.mapM fun e : Sigma (fun _ : A => PoolMember) =>
      e.2.pendingRewards currentRewardCounter).map List.sum

end PolkadotSdk.NominationPools
