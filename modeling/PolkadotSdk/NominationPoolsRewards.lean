import PolkadotSdk.NominationPools

/-!
# Pending rewards after `bond_extra`

`do_reward_payout` records the counter a member was paid at only when the payout is not
zero (`doRewardPayout_of_pending_zero`). `do_bond_extra` pays out before it bonds, so a
member whose payout rounds to zero keeps its old counter while its points grow
(`doBondExtra_unpaid`): the counter's increase since then is later paid on the new points
too, and the members' pending rewards exceed the reward account
(`bond_extra_overpays_member`).
-/

namespace PolkadotSdk.NominationPools

variable {A : Type} [DecidableEq A]

/-- A payout that rounds to zero changes neither the pool nor the member. -/
theorem doRewardPayout_of_pending_zero {c : Config} {pool : Pool A} {member : PoolMember} {rc x : ℕ}
    (hpoints : member.points ≠ 0)
    (hrc : pool.rewardPool.currentRewardCounter pool.rewardBalance pool.points (pool.currentCommission c) =
      some (rc, x))
    (hzero : member.pendingRewards rc = some 0) :
    doRewardPayout c pool member = .ok (pool, member, 0) := by
  simp [doRewardPayout, hpoints, hrc, hzero]

/-- When the payout of `bond_extra` rounds to zero, the member gets the new points and
keeps the reward counter it had, and nothing leaves the reward account. -/
theorem doBondExtra_unpaid {c : Config} {pool pool₁ pool' : Pool A} {who : A} {member : PoolMember}
    {extra : BondExtra} {rc x : ℕ}
    (hmember : pool.members.lookup who = some member) (hrecords : pool.updateRecords c = .ok pool₁)
    (hrc : pool₁.rewardPool.currentRewardCounter pool₁.rewardBalance pool₁.points (pool₁.currentCommission c) =
      some (rc, x))
    (hzero : member.pendingRewards rc = some 0) (h : doBondExtra c pool who extra = .ok pool') :
    ∃ pointsIssued, pool'.members.lookup who =
      some ⟨member.points + pointsIssued, member.lastRecordedRewardCounter⟩ ∧
      pool'.rewardBalance = pool₁.rewardBalance := by
  have hpoints : member.points ≠ 0 := by
    intro h0
    simp [doBondExtra, hmember, hrecords, doRewardPayout, h0] at h
  simp only [doBondExtra, hmember, hrecords, doRewardPayout_of_pending_zero hpoints hrc hzero] at h
  cases extra with
  | freeBalance amount =>
    simp only at h
    split at h
    · cases h
    split at h
    · cases h
      exact ⟨(pool₁.bondFunds amount).2, by simp, rfl⟩
    · cases h
  | rewards =>
    simp only at h
    split at h
    · cases h
    split at h
    · cases h
      exact ⟨(pool₁.bondFunds 0).2, by simp, rfl⟩
    · cases h

/-- A pool where one point costs one unit: a join bond of 1, a depositor bond of 9 and a
points-to-balance cap of 10, with no commission. -/
def unitPoolConfig : Config := ⟨1, 9, 10, none⟩

/-- The depositor (account 0) creates a pool with 9; account 1 joins with 1; a reward of 5
arrives, so the counter rises by 1/2 per point. Account 1's bond of 10 more pays it
nothing (half a unit rounds down) and leaves its counter at 0, and with 11 points it is
now owed 5 of the 5 in the reward account, while the depositor is owed 4. Account 1
claims its 5, and the depositor's claim then fails for lack of funds. -/
theorem bond_extra_overpays_member :
    ∃ p₁ p₂ p₃ p₄, doCreate unitPoolConfig 0 9 = .ok p₁ ∧ join unitPoolConfig p₁ 1 1 = .ok p₂ ∧
      doBondExtra unitPoolConfig (depositReward p₂ 5) 1 (.freeBalance 10) = .ok p₃ ∧
      p₃.pendingRewardsSum unitPoolConfig = some 9 ∧ p₃.rewardBalance = 5 ∧
      doClaimPayout unitPoolConfig p₃ 1 = .ok p₄ ∧ p₄.rewardBalance = 0 ∧
      doClaimPayout unitPoolConfig p₄ 0 = .error .fundsUnavailable := by
  refine ⟨_, _, _, _, rfl, rfl, rfl, ?_, ?_, rfl, ?_, rfl⟩
  · decide
  · decide
  · decide

end PolkadotSdk.NominationPools
