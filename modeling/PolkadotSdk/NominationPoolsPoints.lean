import PolkadotSdk.NominationPools

/-!
# Points and balance of a pool

`UnbondPool::issue` and `dissolve` over `Pallet::balance_to_point` and `point_to_balance`, and the
merge of old unbonding pools into the era-less one in `SubPools::maybe_merge_pools`. A bonded pool
issues and dissolves the same amounts from its active stake, and the bond and unbond that follow
move that stake as `UnbondPool` moves its balance, so one pair of points and balance stands for both.
-/

namespace PolkadotSdk.NominationPools

/-- A pool as its conversions see it: `UnbondPool`, or a bonded pool with its active stake. -/
structure PointPool where
  points : ℕ
  balance : ℕ
  deriving DecidableEq, Repr

namespace PointPool

/-- `UnbondPool::issue`: the points `newFunds` buy, added with the funds. -/
def issue (pool : PointPool) (newFunds : ℕ) : PointPool × ℕ :=
  let newPoints := balanceToPoint pool.balance pool.points newFunds
  (⟨saturatingAdd pool.points newPoints, saturatingAdd pool.balance newFunds⟩, newPoints)

/-- `UnbondPool::dissolve`: the balance that `points` stand for, taken out with them. -/
def dissolve (pool : PointPool) (points : ℕ) : PointPool × ℕ :=
  let balanceToUnbond := pointToBalance pool.balance pool.points points
  (⟨pool.points - points, pool.balance - balanceToUnbond⟩, balanceToUnbond)

/-- The members' points dissolved one after another: the pool left and the balance paid out. -/
def dissolveEach (pool : PointPool) : List ℕ → PointPool × ℕ
  | [] => (pool, 0)
  | p :: ps =>
    let r := pool.dissolve p
    let rest := dissolveEach r.1 ps
    (rest.1, r.2 + rest.2)

end PointPool

/-- `SubPools`: the era-less pool and the pools by the era they unlock in, in era order. -/
structure SubPools where
  noEra : PointPool
  withEra : List (ℕ × PointPool)
  deriving DecidableEq, Repr

/-- `SubPools::maybe_merge_pools`: the pools of eras up to `active_era - window` are added into the
era-less pool, where the window is `MaxUnbondingPools - bonding_duration`. -/
def SubPools.maybeMergePools (s : SubPools) (maxUnbondingPools bondingDuration activeEra : ℕ) : SubPools :=
  let window := maxUnbondingPools - bondingDuration
  if window ≤ activeEra then
    let newestEraToRemove := activeEra - window
    ⟨s.withEra.foldl (fun noEra kv =>
        if newestEraToRemove < kv.1 then noEra
        else ⟨saturatingAdd noEra.points kv.2.points, saturatingAdd noEra.balance kv.2.balance⟩) s.noEra,
      s.withEra.filter fun kv => newestEraToRemove < kv.1⟩
  else s

/-- The state `do_try_state` expects of a pool: never fewer points than balance, no balance without
points, and the points a `u128`. -/
structure PoolInv (pool : PointPool) : Prop where
  balance_le_points : pool.balance ≤ pool.points
  balance_of_points : pool.points = 0 → pool.balance = 0
  points_le : pool.points ≤ balanceMax

/-- The invariant on every pool of a `SubPools`. -/
def SubPoolsInv (s : SubPools) : Prop :=
  PoolInv s.noEra ∧ ∀ kv ∈ s.withEra, PoolInv kv.2

theorem balanceMax_pos : 0 < balanceMax := by
  unfold balanceMax; omega

/-! ## The conversions -/

section Conversions

variable {balance points : ℕ}

/-- Below the points of the pool the `U256` quotient is at most the balance, so the conversion
back to `Balance` never saturates. -/
theorem pointToBalance_of_le {p : ℕ} (hp : p ≤ points) (hb : balance ≤ balanceMax) :
    pointToBalance balance points p = balance * p / points := by
  unfold pointToBalance
  split
  · rename_i hzero
    rcases hzero with h | h | h
    · rw [h, Nat.zero_mul, Nat.zero_div]
    · rw [show p = 0 by omega, Nat.mul_zero, Nat.zero_div]
    · rw [h, Nat.mul_zero, Nat.zero_div]
  · have hquot : balance * p / points ≤ balance :=
      Nat.div_le_of_le_mul (Nat.mul_comm points balance ▸ Nat.mul_le_mul_left balance hp)
    exact Nat.min_eq_left (hquot.trans hb)

theorem pointToBalance_le {p : ℕ} (hp : p ≤ points) : pointToBalance balance points p ≤ balance := by
  unfold pointToBalance
  split
  · exact Nat.zero_le _
  · exact (Nat.min_le_left _ _).trans
      (Nat.div_le_of_le_mul (Nat.mul_comm points balance ▸ Nat.mul_le_mul_left balance hp))

/-- From the points of the pool up, the balance is paid whole. -/
theorem le_pointToBalance {p : ℕ} (h0 : points = 0 → balance = 0) (hp : points ≤ p)
    (hb : balance ≤ balanceMax) : balance ≤ pointToBalance balance points p := by
  unfold pointToBalance
  split
  · rename_i hzero
    omega
  · rename_i hzero
    have hpos : 0 < points := by omega
    refine Nat.le_min.mpr ⟨?_, hb⟩
    exact (Nat.le_div_iff_mul_le hpos).mpr (Nat.mul_le_mul_left balance hp)

/-- On a pool with points at least its balance, `new_funds` buy at least as many points. -/
theorem le_balanceToPoint {f : ℕ} (h : balance ≤ points) (hf : f ≤ balanceMax) :
    f ≤ balanceToPoint balance points f := by
  unfold balanceToPoint
  split
  · exact Nat.le_min.mpr ⟨le_rfl, hf⟩
  · split
    · exact Nat.le_min.mpr ⟨Nat.le_mul_of_pos_right f (by omega), hf⟩
    · rename_i hP hB
      have hprice : f * balance ≤ points * f := by
        rw [Nat.mul_comm points f]
        exact Nat.mul_le_mul_left f h
      exact Nat.le_min.mpr ⟨(Nat.le_div_iff_mul_le (by omega)).mpr hprice, hf⟩

/-- The points `f` buy are worth at most `f` at the price before: `B * p ≤ P * f`. -/
theorem balance_mul_balanceToPoint_le (f : ℕ) (h0 : points = 0 → balance = 0) :
    balance * balanceToPoint balance points f ≤ points * f := by
  unfold balanceToPoint
  split
  · rename_i hP
    rw [h0 hP, Nat.zero_mul]
    exact Nat.zero_le _
  · split
    · rename_i hB
      rw [hB, Nat.zero_mul]
      exact Nat.zero_le _
    · calc balance * min (points * f / balance) balanceMax
          ≤ balance * (points * f / balance) := Nat.mul_le_mul_left _ (Nat.min_le_left _ _)
        _ ≤ points * f := Nat.mul_div_le (points * f) balance

/-- Points bought at a price no better than the pool's are worth at most what was paid once
both are added to the pool. -/
theorem pointToBalance_add_le {p f : ℕ} (h : balance * p ≤ points * f) :
    pointToBalance (balance + f) (points + p) p ≤ f := by
  unfold pointToBalance
  split
  · exact Nat.zero_le _
  · refine (Nat.min_le_left _ _).trans (Nat.div_le_of_le_mul ?_)
    calc (balance + f) * p = balance * p + f * p := Nat.add_mul _ _ _
      _ ≤ points * f + f * p := Nat.add_le_add_right h _
      _ = (points + p) * f := by rw [Nat.add_mul, Nat.mul_comm f p]

/-- Below the points of the pool, what stays is at most the points that stay: the quotient is
floored, so the balance left is the ceiling of `B * (P - p) / P`. -/
theorem sub_pointToBalance_le {p : ℕ} (h : balance ≤ points) (hp : p < points) (hb : balance ≤ balanceMax) :
    balance - pointToBalance balance points p ≤ points - p := by
  rw [pointToBalance_of_le hp.le hb]
  have hfloor : balance * p < points * (balance * p / points + 1) :=
    Nat.lt_mul_div_succ _ (by omega)
  have hquot : balance * p / points ≤ balance :=
    Nat.div_le_of_le_mul (Nat.mul_comm points balance ▸ Nat.mul_le_mul_left balance hp.le)
  have hsum : balance + p ≤ points + balance * p / points := by nlinarith
  omega

end Conversions

/-! ## Issue and dissolve -/

namespace PointPool

variable {pool : PointPool}

/-- Issuing and at once dissolving the issued points pays back at most the funds, while
neither addition saturates. -/
theorem issue_dissolve_le {f : ℕ} (h0 : pool.points = 0 → pool.balance = 0)
    (hp : pool.points + (pool.issue f).2 ≤ balanceMax) (hb : pool.balance + f ≤ balanceMax) :
    ((pool.issue f).1.dissolve (pool.issue f).2).2 ≤ f := by
  have hissue : (pool.issue f).1 = ⟨pool.points + (pool.issue f).2, pool.balance + f⟩ := by
    simp only [issue, saturatingAdd] at hp ⊢
    rw [Nat.min_eq_left hp, Nat.min_eq_left hb]
  rw [hissue]
  exact pointToBalance_add_le (balance_mul_balanceToPoint_le f h0)

theorem dissolve_le {p : ℕ} (hp : p ≤ pool.points) : (pool.dissolve p).2 ≤ pool.balance :=
  pointToBalance_le hp

/-- Dissolving points that add up to all of the pool's, in any order, pays out the whole balance
and empties the pool. -/
theorem dissolveEach_eq (ps : List ℕ) (h0 : pool.points = 0 → pool.balance = 0)
    (hb : pool.balance ≤ balanceMax) (hsum : ps.sum = pool.points) :
    pool.dissolveEach ps = (⟨0, 0⟩, pool.balance) := by
  -- induction on the members still to leave, over the pool their predecessors left
  induction ps generalizing pool with
  | nil =>
    obtain ⟨points, balance⟩ := pool
    obtain rfl : points = 0 := hsum.symm
    obtain rfl : balance = 0 := h0 rfl
    rfl
  | cons p ps ih =>
    rw [List.sum_cons] at hsum
    have hle : p ≤ pool.points := by omega
    have hpaid := @pointToBalance_le pool.balance pool.points p hle
    -- the last member out takes the whole balance
    have hlast : pool.points - p = 0 → pool.balance - pointToBalance pool.balance pool.points p = 0 :=
      fun hzero => Nat.sub_eq_zero_of_le (le_pointToBalance h0 (by omega) hb)
    have hrest := @ih (pool.dissolve p).1 hlast (by simp only [dissolve]; omega)
      (by simp only [dissolve]; omega)
    simp only [dissolveEach, hrest]
    simp only [dissolve] at hpaid ⊢
    congr 1
    omega

end PointPool

/-! ## The invariant of `do_try_state` -/

namespace PoolInv

variable {pool : PointPool}

theorem balance_le (h : PoolInv pool) : pool.balance ≤ balanceMax :=
  h.balance_le_points.trans h.points_le

/-- `issue` of a `u128` amount keeps the invariant, saturated or not: the funds buy at least as
many points. -/
theorem issue (h : PoolInv pool) {f : ℕ} (hf : f ≤ balanceMax) : PoolInv (pool.issue f).1 := by
  have hbuy := le_balanceToPoint h.balance_le_points hf
  have hinv := h.balance_le_points
  have h0 := h.balance_of_points
  have hpos := balanceMax_pos
  simp only [PointPool.issue, saturatingAdd]
  constructor <;> dsimp only
  · omega
  · intro hzero
    have : pool.points = 0 ∧ balanceToPoint pool.balance pool.points f = 0 := by omega
    omega
  · exact Nat.min_le_right _ _

theorem dissolve (h : PoolInv pool) (p : ℕ) : PoolInv (pool.dissolve p).1 := by
  have hleft : pool.balance - pointToBalance pool.balance pool.points p ≤ pool.points - p := by
    by_cases hp : p < pool.points
    · exact sub_pointToBalance_le h.balance_le_points hp h.balance_le
    · -- from all the points up the whole balance goes
      have := le_pointToBalance (p := p) h.balance_of_points (by omega) h.balance_le
      omega
  refine ⟨hleft, fun hzero => ?_, (Nat.sub_le _ _).trans h.points_le⟩
  dsimp only [PointPool.dissolve] at hzero ⊢
  omega

/-- Two pools added with saturation, as `maybe_merge_pools` adds an era's pool into `no_era`. -/
theorem merge {a b : PointPool} (ha : PoolInv a) (hb : PoolInv b) :
    PoolInv ⟨saturatingAdd a.points b.points, saturatingAdd a.balance b.balance⟩ := by
  have := ha.balance_le_points
  have := hb.balance_le_points
  have := ha.balance_of_points
  have := hb.balance_of_points
  have := balanceMax_pos
  refine ⟨min_le_min_right _ (by omega), fun hzero => ?_, Nat.min_le_right _ _⟩
  simp only [saturatingAdd] at hzero ⊢
  omega

/-- A slash lowers the balance and leaves the points. -/
theorem slash (h : PoolInv pool) {b : ℕ} (hb : b ≤ pool.balance) : PoolInv ⟨pool.points, b⟩ :=
  ⟨hb.trans h.balance_le_points, fun hzero => Nat.eq_zero_of_le_zero (h.balance_of_points hzero ▸ hb),
    h.points_le⟩

/-- The check of `do_try_state`: the points are at least what they stand for. -/
theorem tryState (h : PoolInv pool) : pointToBalance pool.balance pool.points pool.points ≤ pool.points :=
  (pointToBalance_le le_rfl).trans h.balance_le_points

end PoolInv

theorem SubPoolsInv.maybeMergePools {s : SubPools} (h : SubPoolsInv s)
    (maxUnbondingPools bondingDuration activeEra : ℕ) :
    SubPoolsInv (s.maybeMergePools maxUnbondingPools bondingDuration activeEra) := by
  unfold SubPools.maybeMergePools
  dsimp only
  split
  · refine ⟨?_, fun kv hkv => h.2 kv (List.mem_of_mem_filter hkv)⟩
    -- induction on the era pools still to visit, with the merged pool as accumulator
    suffices hfold : ∀ (l : List (ℕ × PointPool)) (acc : PointPool), PoolInv acc →
        (∀ kv ∈ l, PoolInv kv.2) → PoolInv (l.foldl (fun noEra kv =>
          if activeEra - (maxUnbondingPools - bondingDuration) < kv.1 then noEra
          else ⟨saturatingAdd noEra.points kv.2.points, saturatingAdd noEra.balance kv.2.balance⟩) acc) from
      hfold s.withEra s.noEra h.1 h.2
    intro l
    induction l with
    | nil => exact fun acc hacc _ => hacc
    | cons kv l ih =>
      intro acc hacc hl
      refine ih _ ?_ fun kv' hkv' => hl kv' (List.mem_cons_of_mem _ hkv')
      dsimp only
      split
      · exact hacc
      · exact hacc.merge (hl kv List.mem_cons_self)
  · exact h

/-! ## The pool's exchange rate -/

theorem pool_points_cover_balance :
    (∀ (pool : PointPool) (f : ℕ), PoolInv pool →
        pool.points + (pool.issue f).2 ≤ balanceMax → pool.balance + f ≤ balanceMax →
        ((pool.issue f).1.dissolve (pool.issue f).2).2 ≤ f) ∧
      (∀ (pool : PointPool) (p : ℕ), p ≤ pool.points → (pool.dissolve p).2 ≤ pool.balance) ∧
      (∀ (pool : PointPool) (ps : List ℕ), PoolInv pool → ps.sum = pool.points →
        pool.dissolveEach ps = (⟨0, 0⟩, pool.balance)) ∧
      (∀ (pool : PointPool) (f : ℕ), PoolInv pool → f ≤ balanceMax → PoolInv (pool.issue f).1) ∧
      (∀ (pool : PointPool) (p : ℕ), PoolInv pool → PoolInv (pool.dissolve p).1) ∧
      (∀ (s : SubPools) (maxUnbondingPools bondingDuration activeEra : ℕ), SubPoolsInv s →
        SubPoolsInv (s.maybeMergePools maxUnbondingPools bondingDuration activeEra)) ∧
      (∀ (pool : PointPool) (b : ℕ), PoolInv pool → b ≤ pool.balance → PoolInv ⟨pool.points, b⟩) ∧
      (∀ pool : PointPool, PoolInv pool →
        pointToBalance pool.balance pool.points pool.points ≤ pool.points) :=
  ⟨fun _ _ h hp hb => PointPool.issue_dissolve_le h.balance_of_points hp hb,
    fun _ _ hp => PointPool.dissolve_le hp,
    fun _ ps h hsum => PointPool.dissolveEach_eq ps h.balance_of_points h.balance_le hsum,
    fun _ _ h hf => h.issue hf,
    fun _ p h => h.dissolve p,
    fun _ _ _ _ h => h.maybeMergePools _ _ _,
    fun _ _ h hb => h.slash hb,
    fun _ h => h.tryState⟩

/-- A pool of two points on a balance of one: one unit of funds buys two points, which pay back
one unit. -/
theorem pool_points_cover_balance_two_points :
    PoolInv ⟨2, 1⟩ ∧ (((⟨2, 1⟩ : PointPool).issue 1).1.dissolve ((⟨2, 1⟩ : PointPool).issue 1).2).2 ≤ 1 :=
  have hinv : PoolInv ⟨2, 1⟩ := ⟨by decide, by decide, by decide⟩
  ⟨hinv, pool_points_cover_balance.1 _ _ hinv (by decide) (by decide)⟩

/-- A pool at the `u128` limit of points: `issue(1)` saturates the points but not the balance,
and dissolving the points it issued pays out `2`. -/
theorem issue_dissolve_saturated_pays_more :
    PoolInv ⟨balanceMax, 1⟩ ∧
      (((⟨balanceMax, 1⟩ : PointPool).issue 1).1.dissolve ((⟨balanceMax, 1⟩ : PointPool).issue 1).2).2 = 2 :=
  ⟨⟨by decide, by decide, le_rfl⟩, by decide⟩

end PolkadotSdk.NominationPools
