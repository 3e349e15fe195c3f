import Mathlib.Tactic.SplitIfs
import PolkadotSdk.Broker

/-!
# Pool contributions and their revenue

How `do_pool` and `do_claim_revenue` move the keys of `InstaPoolContribution`.
`do_claim_revenue` moves a contribution's start past every timeslice it looks at,
also past one whose payout is not known yet (`doClaimRevenue_pending`), and never
reads a timeslice before the start again (`doClaimRevenue_history_lt`). `do_pool`
on a provisionally pooled region whose start is committed records a second
contribution beside the first (`doPool_committed`), since it does not unpool the
region first as `do_partition`, `do_interlace` and `do_assign` do.
-/

namespace PolkadotSdk.Broker

variable {A : Type}

namespace State

@[simp] theorem setContribution_contribution (s : State A) (regionId : RegionId)
    (c : Option (ContributionRecord A)) :
    (s.setContribution regionId c).instaPoolContribution =
      Function.update s.instaPoolContribution regionId c := rfl

@[simp] theorem setContribution_history (s : State A) (regionId : RegionId)
    (c : Option (ContributionRecord A)) :
    (s.setContribution regionId c).instaPoolHistory = s.instaPoolHistory := rfl

@[simp] theorem setRegion_contribution (s : State A) (regionId : RegionId)
    (r : Option (RegionRecord A)) :
    (s.setRegion regionId r).instaPoolContribution = s.instaPoolContribution := rfl

@[simp] theorem setRegion_status (s : State A) (regionId : RegionId) (r : Option (RegionRecord A)) :
    (s.setRegion regionId r).status = s.status := rfl

@[simp] theorem setRegion_workplan (s : State A) (regionId : RegionId)
    (r : Option (RegionRecord A)) :
    (s.setRegion regionId r).workplan = s.workplan := rfl

@[simp] theorem setWorkplan_contribution (s : State A) (key : ℕ × ℕ) (p : List ScheduleItem) :
    (s.setWorkplan key p).instaPoolContribution = s.instaPoolContribution := rfl

@[simp] theorem accruePrivate_contribution (s : State A) (when : ℕ) (delta : ℤ) :
    (s.accruePrivate when delta).instaPoolContribution = s.instaPoolContribution := rfl

end State

/-! ## Claiming revenue -/

section Claim

variable {maxBalance parts : ℕ}

/-- The claim loop stops at a timeslice whose payout is not known yet, with the region's
start already past it. -/
theorem claimLoop_cons_pending {r : ℕ} {rs : List ℕ} {region : RegionId}
    {c : ContributionRecord A} {payout : ℕ} {history : ℕ → Option InstaPoolHistoryRecord}
    {record : InstaPoolHistoryRecord} (h : history r = some record)
    (hp : record.maybePayout = none) :
    claimLoop maxBalance parts (r :: rs) region c payout history =
      ({ region with begin := r + 1 }, { c with length := c.length - 1 }, payout, history) := by
  simp [claimLoop, h, hp]

/-- The claim loop reads and writes only the history of the timeslices it is given. -/
theorem claimLoop_history_of_notMem {t : ℕ} (rs : List ℕ) (ht : t ∉ rs) (region : RegionId)
    (c : ContributionRecord A) (payout : ℕ) (history : ℕ → Option InstaPoolHistoryRecord) :
    (claimLoop maxBalance parts rs region c payout history).2.2.2 t = history t := by
  induction rs generalizing region c payout history with
  | nil => rfl
  | cons r rs ih =>
    obtain ⟨htr, hrs⟩ : t ≠ r ∧ t ∉ rs := by simpa using ht
    simp only [claimLoop]
    split
    · exact ih hrs _ _ _ _
    · split
      · rfl
      · rw [ih hrs]
        split_ifs <;> exact Function.update_of_ne htr _ _

/-- A claim that starts at a timeslice whose payout is not known yet pays nothing and
stores the contribution again one timeslice later: the share of that timeslice is
not claimed and can no longer be. -/
theorem doClaimRevenue_pending {s : State A} {region : RegionId} {c : ContributionRecord A}
    {maxTimeslices : ℕ} {record : InstaPoolHistoryRecord} (hmax : 0 < maxTimeslices)
    (hc : s.instaPoolContribution region = some c) (hlen : 2 ≤ c.length)
    (hr : s.instaPoolHistory region.begin = some record) (hp : record.maybePayout = none) :
    doClaimRevenue maxBalance s region maxTimeslices =
      .ok ((s.setContribution region none).setContribution { region with begin := region.begin + 1 }
        (some { c with length := c.length - 1 }), c.payee, 0) := by
  have hrange : List.range' region.begin
      (region.begin + min c.length maxTimeslices - region.begin) =
      region.begin :: List.range' (region.begin + 1) (min c.length maxTimeslices - 1) := by
    rw [Nat.add_sub_cancel_left, ← List.range'_succ]
    congr 1
    omega
  have hpos : 0 < c.length - 1 := by omega
  simp only [doClaimRevenue, Nat.pos_iff_ne_zero.mp hmax, if_false, hc, hrange, State.setContribution_history,
    claimLoop_cons_pending hr hp, hpos, if_true]
  rfl

/-- A claim leaves the history before the contribution's start as it was. -/
theorem doClaimRevenue_history_lt {s s' : State A} {region : RegionId} {maxTimeslices : ℕ}
    {payee : A} {payout t : ℕ}
    (h : doClaimRevenue maxBalance s region maxTimeslices = .ok (s', payee, payout))
    (ht : t < region.begin) : s'.instaPoolHistory t = s.instaPoolHistory t := by
  unfold doClaimRevenue at h
  by_cases hm : maxTimeslices = 0
  · simp only [hm, if_true] at h
    cases h
  cases hc : s.instaPoolContribution region with
  | none => simp [hm, hc] at h
  | some c =>
    simp only [hm, hc, if_false, bind, Except.bind, pure, Except.pure, Except.ok.injEq,
      Prod.mk.injEq] at h
    obtain ⟨rfl, -, -⟩ := h
    have hnot : t ∉ List.range' region.begin
        (region.begin + min c.length maxTimeslices - region.begin) := by
      simp only [List.mem_range']
      omega
    split <;> exact claimLoop_history_of_notMem _ hnot _ _ _ _

/-- The share of a timeslice whose payout is pending is lost to an early claim: a
contribution of the whole core at timeslice 5 for two timeslices, claimed for one
timeslice while the revenue of 5 is still unknown, is paid nothing and is stored again
from timeslice 6, while the history of 5 still counts its 80 parts. -/
theorem claim_revenue_forfeits_pending_share :
    let region : RegionId := ⟨5, 0, CoreMask.complete⟩
    let s : State ℕ := ⟨some ⟨80, 0, 4, 4⟩, fun _ => none, fun _ => none, fun _ => ⟨0, 0⟩,
      Function.update (fun _ => none) region (some ⟨2, 7⟩),
      Function.update (fun _ => none) 5 (some ⟨80, 0, none⟩)⟩
    ∃ s', doClaimRevenue (2 ^ 128 - 1) s region 1 = .ok (s', 7, 0) ∧
      s'.instaPoolContribution region = none ∧
      s'.instaPoolContribution { region with begin := 6 } = some ⟨1, 7⟩ ∧
      s'.instaPoolHistory 5 = some ⟨80, 0, none⟩ := by
  intro region s
  refine ⟨_, @doClaimRevenue_pending ℕ (2 ^ 128 - 1) s region ⟨2, 7⟩ 1 ⟨80, 0, none⟩ Nat.one_pos
    rfl (Nat.le_refl 2) rfl rfl, ?_, ?_, rfl⟩
  · decide
  · decide

end Claim

/-! ## Pooling -/

section Pool

variable [DecidableEq A]

/-- `utilize` of a region whose start is already committed moves it to the next
timeslice and, provisionally, stores it there. -/
theorem utilize_committed {s : State A} {regionId : RegionId} {status : StatusRecord}
    {region : RegionRecord A} (hs : s.status = some status) (hr : s.regions regionId = some region)
    (hb : regionId.begin ≤ status.lastCommittedTimeslice)
    (he : status.lastCommittedTimeslice + 1 < region.«end») :
    utilize s regionId none .provisional =
      .ok ((s.setRegion regionId none).setRegion
          { regionId with begin := status.lastCommittedTimeslice + 1 } (some region),
        some ({ regionId with begin := status.lastCommittedTimeslice + 1 }, region)) := by
  have hlt : ¬ region.«end» ≤ status.lastCommittedTimeslice + 1 := by omega
  simp only [utilize, hs, hr, checkOwner, hb, hlt, if_true, if_false, bind, Except.bind, pure,
    Except.pure]

section Committed

variable {s : State A} {regionId : RegionId} {status : StatusRecord} {region : RegionRecord A}
  {payee : A}

/-- Pooling provisionally a region whose start is committed: the region and its pool
record start at the next timeslice. -/
theorem doPool_committed (hs : s.status = some status) (hr : s.regions regionId = some region)
    (hb : regionId.begin ≤ status.lastCommittedTimeslice)
    (he : status.lastCommittedTimeslice + 1 < region.«end»)
    (hw : ((s.workplan (status.lastCommittedTimeslice + 1, regionId.core)).getD []).length <
      coreMaskBits) :
    let regionId' := { regionId with begin := status.lastCommittedTimeslice + 1 }
    let key := (regionId'.begin, regionId'.core)
    let size : ℤ := CoreMask.countOnes regionId.mask
    doPool s regionId none payee .provisional =
      .ok (((((s.setRegion regionId none).setRegion regionId' (some region)).setWorkplan key
        ((s.workplan key).getD [] ++ [⟨regionId.mask, .pool⟩])).accruePrivate regionId'.begin size
        |>.accruePrivate region.«end» (-size)).setContribution regionId'
          (some ⟨region.«end» - regionId'.begin, payee⟩)) := by
  intro regionId' key size
  simp only [doPool, utilize_committed hs hr hb he]
  simp only [bind, Except.bind, State.setRegion_workplan, hw, if_true]
  rfl

/-- Pooling provisionally a region whose start is committed adds a contribution from
the next timeslice on and keeps any contribution already recorded for the region. -/
theorem doPool_committed_contribution (hs : s.status = some status)
    (hr : s.regions regionId = some region)
    (hb : regionId.begin ≤ status.lastCommittedTimeslice)
    (he : status.lastCommittedTimeslice + 1 < region.«end»)
    (hw : ((s.workplan (status.lastCommittedTimeslice + 1, regionId.core)).getD []).length <
      coreMaskBits) :
    ∃ s', doPool s regionId none payee .provisional = .ok s' ∧
      s'.instaPoolContribution regionId = s.instaPoolContribution regionId ∧
      s'.instaPoolContribution { regionId with begin := status.lastCommittedTimeslice + 1 } =
        some ⟨region.«end» - (status.lastCommittedTimeslice + 1), payee⟩ := by
  have hne : regionId ≠ { regionId with begin := status.lastCommittedTimeslice + 1 } := by
    intro h
    have := congrArg RegionId.begin h
    simp only at this
    omega
  refine ⟨_, doPool_committed hs hr hb he hw, ?_, ?_⟩
  · simp [Function.update_of_ne hne]
  · simp

end Committed

/-- Pooling a region provisionally, and again once its start is committed, leaves two
contributions of the same parts: the region of core 0 from timeslice 3 to 10, pooled
while timeslice 2 is the last committed and again once 4 is, is recorded both from 3
for 7 timeslices and from 5 for 5. -/
theorem repool_contributions_overlap :
    let r : RegionId := ⟨3, 0, CoreMask.complete⟩
    let s : State ℕ := ⟨some ⟨0, 0, 2, 2⟩, Function.update (fun _ => none) r (some ⟨10, some 1, some 5⟩),
      fun _ => none, fun _ => ⟨0, 0⟩, fun _ => none, fun _ => none⟩
    ∃ s₁ s₂, doPool s r none 1 .provisional = .ok s₁ ∧
      doPool { s₁ with status := some ⟨80, 0, 4, 4⟩ } r none 1 .provisional = .ok s₂ ∧
      s₂.instaPoolContribution r = some ⟨7, 1⟩ ∧
      s₂.instaPoolContribution { r with begin := 5 } = some ⟨5, 1⟩ := by
  intro r s
  -- the first pooling: timeslice 3 is not committed yet
  obtain ⟨s₁, hs₁⟩ : ∃ s₁, doPool s r none 1 .provisional = .ok s₁ := ⟨_, rfl⟩
  have hc₁ : s₁.instaPoolContribution r = some ⟨7, 1⟩ := by
    cases hs₁
    decide
  have hr₁ : s₁.regions r = some ⟨10, some 1, some 5⟩ := by
    cases hs₁
    decide
  obtain ⟨s₂, hpool, hold, hnew⟩ := @doPool_committed_contribution ℕ _
    { s₁ with status := some ⟨80, 0, 4, 4⟩ } r ⟨80, 0, 4, 4⟩ ⟨10, some 1, some 5⟩ 1 rfl hr₁
    (by decide) (by decide) (by cases hs₁; decide)
  exact ⟨s₁, s₂, hs₁, hpool, hold.trans hc₁, hnew⟩

end Pool

end PolkadotSdk.Broker
