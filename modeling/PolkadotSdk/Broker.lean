import Mathlib

/-!
# The broker pallet: regions and the instantaneous coretime pool

A model of the storage of `pallet-broker` that regions and pool contributions live in,
and of the calls that move them: `utilize`, `force_unpool_region`, `do_pool`,
`do_partition`, `do_interlace`, `do_transfer`, `do_drop_region`,
`do_drop_contribution`, `do_claim_revenue`, `process_pool` and `process_revenue`.
Storage maps are functions, updated with `Function.update`; a dispatchable returns the
new state or its error (FRAME discards the writes of a failing call).
Timeslices and core indices are natural numbers; the pool's signed bit counts are
integers.
-/

namespace PolkadotSdk.Broker

/-- `CoreMask`: one bit for each of the 80 regularity parts of a core. -/
abbrev CoreMask := BitVec 80

/-- `CoreMask::count_ones`. -/
def CoreMask.countOnes (m : CoreMask) : ℕ := ((List.range 80).filter fun i => m.getLsbD i).length

/-- `CoreMask::complete`. -/
def CoreMask.complete : CoreMask := BitVec.allOnes 80

/-- `RegionId`: the region's first timeslice, its core and its parts. -/
structure RegionId where
  begin : ℕ
  core : ℕ
  mask : CoreMask
  deriving DecidableEq, Repr

/-- `RegionRecord`: where the region ends, who owns it and what was paid for it. -/
structure RegionRecord (A : Type) where
  «end» : ℕ
  owner : Option A
  paid : Option ℕ
  deriving DecidableEq, Repr

/-- `ContributionRecord`: a region given to the pool, for `length` timeslices. -/
structure ContributionRecord (A : Type) where
  length : ℕ
  payee : A
  deriving DecidableEq, Repr

/-- `InstaPoolHistoryRecord`: the pool of one timeslice, and its payout once known. -/
structure InstaPoolHistoryRecord where
  privateContributions : ℕ
  systemContributions : ℕ
  maybePayout : Option ℕ
  deriving DecidableEq, Repr

/-- `PoolIoRecord`: the change of the pool's size at a timeslice. -/
structure PoolIoRecord where
  «private» : ℤ
  system : ℤ
  deriving DecidableEq, Repr

/-- `CoreAssignment`. -/
inductive CoreAssignment where
  | idle
  | pool
  | task (id : ℕ)
  deriving DecidableEq, Repr

/-- `ScheduleItem`. -/
structure ScheduleItem where
  mask : CoreMask
  assignment : CoreAssignment
  deriving DecidableEq, Repr

/-- `Finality`. -/
inductive Finality where
  | provisional
  | final
  deriving DecidableEq, Repr

/-- The fields of `StatusRecord` that the modelled calls read. -/
structure StatusRecord where
  privatePoolSize : ℕ
  systemPoolSize : ℕ
  lastCommittedTimeslice : ℕ
  lastTimeslice : ℕ
  deriving DecidableEq, Repr

/-- The errors of the modelled calls. -/
inductive Error where
  | uninitialized
  | unknownRegion
  | notOwner
  | pivotTooLate
  | pivotTooEarly
  | exteriorPivot
  | voidPivot
  | completePivot
  | stillValid
  | unknownContribution
  | noClaimTimeslices
  deriving DecidableEq, Repr

/-- The storage items of the pallet that the modelled calls read and write. -/
structure State (A : Type) where
  status : Option StatusRecord
  regions : RegionId → Option (RegionRecord A)
  workplan : ℕ × ℕ → Option (List ScheduleItem)
  instaPoolIo : ℕ → PoolIoRecord
  instaPoolContribution : RegionId → Option (ContributionRecord A)
  instaPoolHistory : ℕ → Option InstaPoolHistoryRecord

/-- The capacity of a `Schedule`: `CORE_MASK_BITS`. -/
def coreMaskBits : ℕ := 80

variable {A : Type} [DecidableEq A]

namespace State

/-- `Regions::insert` (`some`) and `Regions::remove` (`none`). -/
def setRegion (s : State A) (regionId : RegionId) (r : Option (RegionRecord A)) : State A :=
  { s with regions := Function.update s.regions regionId r }

/-- `InstaPoolContribution::insert` and `remove`. -/
def setContribution (s : State A) (regionId : RegionId) (c : Option (ContributionRecord A)) :
    State A :=
  { s with instaPoolContribution := Function.update s.instaPoolContribution regionId c }

/-- `InstaPoolHistory::insert` and `remove`. -/
def setHistory (s : State A) (when : ℕ) (r : Option InstaPoolHistoryRecord) : State A :=
  { s with instaPoolHistory := Function.update s.instaPoolHistory when r }

/-- `Workplan::insert`. -/
def setWorkplan (s : State A) (key : ℕ × ℕ) (p : List ScheduleItem) : State A :=
  { s with workplan := Function.update s.workplan key (some p) }

/-- `InstaPoolIo::mutate(when, |a| a.private += delta)`. -/
def accruePrivate (s : State A) (when : ℕ) (delta : ℤ) : State A :=
  let io := s.instaPoolIo when
  { s with instaPoolIo := Function.update s.instaPoolIo when { io with «private» := io.«private» + delta } }

end State

/-- The owner check shared by the region calls: `ensure!(Some(check_owner) == region.owner)`
when an owner is given. -/
def checkOwner (maybeCheckOwner : Option A) (region : RegionRecord A) : Except Error Unit :=
  match maybeCheckOwner with
  | some owner => if some owner = region.owner then .ok () else .error .notOwner
  | none => .ok ()

/-- `utilize`: takes the region out of `Regions`, moves its start past the last committed
timeslice (dropping it when nothing is left), clears the parts it covers from an
uncommitted workplan, and puts it back when the use is provisional. -/
def utilize (s : State A) (regionId : RegionId) (maybeCheckOwner : Option A)
    (finality : Finality) : Except Error (State A × Option (RegionId × RegionRecord A)) := do
  let some status := s.status | .error .uninitialized
  let some region := s.regions regionId | .error .unknownRegion
  checkOwner maybeCheckOwner region
  let s := s.setRegion regionId none
  let lastCommittedTimeslice := status.lastCommittedTimeslice
  if regionId.begin ≤ lastCommittedTimeslice then
    let regionId := { regionId with begin := lastCommittedTimeslice + 1 }
    if region.«end» ≤ regionId.begin then return (s, none)
    let s := if finality = .provisional then s.setRegion regionId (some region) else s
    return (s, some (regionId, region))
  else
    let key := (regionId.begin, regionId.core)
    let s := match s.workplan key with
      | some p =>
        s.setWorkplan key (p.filter fun i => i.mask &&& regionId.mask = 0)
      | none => s
    let s := if finality = .provisional then s.setRegion regionId (some region) else s
    return (s, some (regionId, region))

/-- `force_unpool_region`: removes a provisional pool contribution of the region, and
takes its parts out of the pool from the next uncommitted timeslice on. -/
def forceUnpoolRegion (s : State A) (regionId : RegionId) (region : RegionRecord A)
    (status : StatusRecord) : State A :=
  match s.instaPoolContribution regionId with
  | none => s
  | some _ =>
    let s := s.setContribution regionId none
    let endTimeslice := status.lastCommittedTimeslice + 1
    if region.«end» ≤ endTimeslice then s
    else
      let size : ℤ := CoreMask.countOnes regionId.mask
      let unpooledAt := max endTimeslice regionId.begin
      (s.accruePrivate unpooledAt (-size)).accruePrivate region.«end» size

/-- `do_pool`: utilizes the region and, when the workplan has room, schedules it for the
pool, adds its parts to the pool for its duration and records the contribution. -/
def doPool (s : State A) (regionId : RegionId) (maybeCheckOwner : Option A) (payee : A)
    (finality : Finality) : Except Error (State A) := do
  let (s, utilized) ← utilize s regionId maybeCheckOwner finality
  match utilized with
  | none => return s
  | some (regionId, region) =>
    let key := (regionId.begin, regionId.core)
    let workplan := (s.workplan key).getD []
    let duration := region.«end» - regionId.begin
    if workplan.length < coreMaskBits then
      let s := s.setWorkplan key (workplan ++ [⟨regionId.mask, .pool⟩])
      let size : ℤ := CoreMask.countOnes regionId.mask
      let s := (s.accruePrivate regionId.begin size).accruePrivate region.«end» (-size)
      return s.setContribution regionId (some ⟨duration, payee⟩)
    else return s

/-- `do_partition`: splits a region in time at `begin + pivot_offset`. -/
def doPartition (s : State A) (regionId : RegionId) (maybeCheckOwner : Option A)
    (pivotOffset : ℕ) : Except Error (State A × RegionId × RegionId) := do
  let some status := s.status | .error .uninitialized
  let some region := s.regions regionId | .error .unknownRegion
  checkOwner maybeCheckOwner region
  let pivot := min (regionId.begin + pivotOffset) (2 ^ 32 - 1)
  if region.«end» ≤ pivot then throw .pivotTooLate
  if pivot ≤ regionId.begin then throw .pivotTooEarly
  let region := { region with paid := none }
  let newRegionIds := (regionId, { regionId with begin := pivot })
  let s := forceUnpoolRegion s regionId region status
  let s := s.setRegion newRegionIds.1 (some { region with «end» := pivot })
  let s := s.setRegion newRegionIds.2 (some region)
  return (s, newRegionIds)

/-- `do_interlace`: splits a region's parts into `pivot` and the rest. -/
def doInterlace (s : State A) (regionId : RegionId) (maybeCheckOwner : Option A)
    (pivot : CoreMask) : Except Error (State A × RegionId × RegionId) := do
  let some status := s.status | .error .uninitialized
  let some region := s.regions regionId | .error .unknownRegion
  checkOwner maybeCheckOwner region
  if pivot &&& ~~~regionId.mask ≠ 0 then throw .exteriorPivot
  if pivot = 0 then throw .voidPivot
  if pivot = regionId.mask then throw .completePivot
  let s := forceUnpoolRegion s regionId region status
  let s := s.setRegion regionId none
  let one := { regionId with mask := pivot }
  let s := s.setRegion one (some region)
  let other := { regionId with mask := regionId.mask ^^^ pivot }
  let s := s.setRegion other (some region)
  return (s, one, other)

/-- `do_transfer`. -/
def doTransfer (s : State A) (regionId : RegionId) (maybeCheckOwner : Option A)
    (newOwner : A) : Except Error (State A) := do
  let some region := s.regions regionId | .error .unknownRegion
  checkOwner maybeCheckOwner region
  return s.setRegion regionId (some { region with owner := some newOwner })

/-- `do_drop_region`: removes a region that has ended. -/
def doDropRegion (s : State A) (regionId : RegionId) : Except Error (State A) := do
  let some status := s.status | .error .uninitialized
  let some region := s.regions regionId | .error .unknownRegion
  if status.lastCommittedTimeslice < region.«end» then throw .stillValid
  return s.setRegion regionId none

/-- `do_drop_contribution`: removes a contribution `contributionTimeout` timeslices
after it ended. -/
def doDropContribution (contributionTimeout : ℕ) (s : State A) (regionId : RegionId) :
    Except Error (State A) := do
  let some status := s.status | .error .uninitialized
  let some contrib := s.instaPoolContribution regionId | .error .unknownContribution
  let «end» := min (regionId.begin + contrib.length) (2 ^ 32 - 1)
  if status.lastTimeslice < min («end» + contributionTimeout) (2 ^ 32 - 1) then
    throw .stillValid
  return s.setContribution regionId none

/-! ## Revenue -/

/-- The loop of `do_claim_revenue` over timeslices `r`, on `(region, contribution,
payout, InstaPoolHistory)`. The region's start and the contribution's length move on
before the history is read; a missing record is skipped (`continue`) and a record
whose payout is not known yet ends the loop (`break`). -/
def claimLoop (maxBalance parts : ℕ) :
    List ℕ → RegionId → ContributionRecord A → ℕ → (ℕ → Option InstaPoolHistoryRecord) →
      RegionId × ContributionRecord A × ℕ × (ℕ → Option InstaPoolHistoryRecord)
  | [], region, contribution, payout, history => (region, contribution, payout, history)
  | r :: rs, region, contribution, payout, history =>
    let region := { region with begin := r + 1 }
    let contribution := { contribution with length := contribution.length - 1 }
    match history r with
    | none => claimLoop maxBalance parts rs region contribution payout history
    | some poolRecord =>
      match poolRecord.maybePayout with
      | none => (region, contribution, payout, history)
      | some totalPayout =>
        let p := if poolRecord.privateContributions = 0 then 0
          else min (totalPayout * parts) maxBalance / poolRecord.privateContributions
        let payout := min (payout + p) maxBalance
        let privateContributions := poolRecord.privateContributions - parts
        let remainingPayout := totalPayout - p
        let history :=
          if remainingPayout ≠ 0 ∧ 0 < privateContributions then
            Function.update history r (some { poolRecord with
              privateContributions := privateContributions, maybePayout := some remainingPayout })
          else Function.update history r none
        claimLoop maxBalance parts rs region contribution payout history

/-- `do_claim_revenue`: pays the contribution of `region` its share of the payouts of
up to `maxTimeslices` timeslices, and stores what is left of it under its new start.
Returns the new state, the payee and the amount transferred to it. -/
def doClaimRevenue (maxBalance : ℕ) (s : State A) (region : RegionId) (maxTimeslices : ℕ) :
    Except Error (State A × A × ℕ) := do
  if maxTimeslices = 0 then throw .noClaimTimeslices
  let some contribution := s.instaPoolContribution region | .error .unknownContribution
  let s := s.setContribution region none
  let contributedParts := CoreMask.countOnes region.mask
  let last := region.begin + min contribution.length maxTimeslices
  let (region', contribution', payout, history) :=
    claimLoop maxBalance contributedParts (List.range' region.begin (last - region.begin))
      region contribution 0 s.instaPoolHistory
  let s := { s with instaPoolHistory := history }
  let s := if 0 < contribution'.length then s.setContribution region' (some contribution') else s
  return (s, contribution'.payee, payout)

/-- `process_pool`: the pool's size at `when`, from the status and the pool's changes,
recorded as the timeslice's history with its payout not known yet. The sizes are `u32`
converted to `i32` and back. -/
def processPool (s : State A) (when : ℕ) (status : StatusRecord) : State A × StatusRecord :=
  let poolIo := s.instaPoolIo when
  let s := { s with instaPoolIo := Function.update s.instaPoolIo when ⟨0, 0⟩ }
  let asI32 (x : ℕ) : ℤ := if x < 2 ^ 31 then x else x - 2 ^ 32
  let asU32 (y : ℤ) : ℕ := (y % 2 ^ 32).toNat
  let status := { status with
    privatePoolSize := asU32 (asI32 status.privatePoolSize + poolIo.«private»)
    systemPoolSize := asU32 (asI32 status.systemPoolSize + poolIo.system) }
  let record : InstaPoolHistoryRecord :=
    ⟨status.privatePoolSize, status.systemPoolSize, none⟩
  (s.setHistory when (some record), status)

/-- `process_revenue` for the revenue of timeslice `when`, already converted to the
balance type: the system's share goes out, and the rest becomes the payout of the
private contributions. -/
def processRevenue (maxBalance : ℕ) (s : State A) (when revenue : ℕ) : State A :=
  if revenue = 0 then s.setHistory when none
  else
    let r := (s.instaPoolHistory when).getD ⟨0, 0, none⟩
    if r.maybePayout.isSome then s
    else
      let totalContrib := r.systemContributions + r.privateContributions
      let systemPayout := if totalContrib = 0 then 0
        else min (revenue * r.systemContributions) maxBalance / totalContrib
      let revenue := revenue - systemPayout
      if revenue ≠ 0 ∧ 0 < r.privateContributions then
        s.setHistory when (some { r with maybePayout := some revenue })
      else s.setHistory when none

end PolkadotSdk.Broker
