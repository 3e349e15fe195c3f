import PolkadotSdk.Broker
import PolkadotSdk.FixedPoint

/-!
# The bulk sale price and renewals

`sale_price` over the lead-in factor of the price adapters of the pallet (`()`,
`CenterTargetPrice` and `MinimumPrice`), their `adapt_price`, and `do_renew`, which sells a core
at the recorded renewal price and records the price of the next renewal. Fixed-point values are
`FixedU64` of the `FixedPoint` model, and an outer `none` is a panic of the source.
-/

namespace PolkadotSdk.Broker

open FixedPoint FixedPoint.Fixed Helpers128 PerThings

/-- `FixedU64`. -/
abbrev FixedU64 := Fixed fixedU64

/-- `SaleInfoRecord`, with `RelayBlockNumber = u32` and `Balance = u128`. -/
structure SaleInfoRecord where
  saleStart : ℕ
  leadinLength : ℕ
  endPrice : ℕ
  regionBegin : ℕ
  regionEnd : ℕ
  idealCoresSold : ℕ
  coresOffered : ℕ
  firstCore : ℕ
  selloutPrice : Option ℕ
  coresSold : ℕ
  leadinLength_lt : leadinLength < 2 ^ 32
  endPrice_lt : endPrice < 2 ^ 128

/-- The implementations of `AdaptPrice` in the pallet. -/
inductive PriceAdapter where
  | unit
  | centerTargetPrice
  | minimumPrice (minPrice : ℕ)
  deriving DecidableEq, Repr

/-- `CenterTargetPrice::leadin_factor_at`: from `100` down to `10` over the first half of the
lead-in, then down to `1`. -/
def centerTargetLeadinFactorAt (when : FixedU64) : Option FixedU64 :=
  (fromRational fixedU64 1 2).map fun half =>
    if when.inner ≤ half.inner then
      (saturatingFromInteger fixedU64 100).saturatingSub (when.saturatingMul (saturatingFromInteger fixedU64 180))
    else
      (saturatingFromInteger fixedU64 19).saturatingSub (when.saturatingMul (saturatingFromInteger fixedU64 18))

/-- `AdaptPrice::leadin_factor_at`; `MinimumPrice` takes `CenterTargetPrice`'s. -/
def PriceAdapter.leadinFactorAt : PriceAdapter → FixedU64 → Option FixedU64
  | .unit, _ => some one
  | .centerTargetPrice, when => centerTargetLeadinFactorAt when
  | .minimumPrice _, when => centerTargetLeadinFactorAt when

/-- `Pallet::sale_price`: the end price times the lead-in factor at the share of the lead-in
gone by. -/
def salePrice (adapter : PriceAdapter) (sale : SaleInfoRecord) (now : ℕ) : Option ℕ :=
  let num := min (now - sale.saleStart) sale.leadinLength
  (fromRational fixedU64 num sale.leadinLength).bind fun through =>
    (adapter.leadinFactorAt through).map fun factor => factor.saturatingMulInt 128 sale.endPrice

/-- The fields of `SalePerformance` that the adapters read. -/
structure SalePerformance where
  selloutPrice : Option ℕ
  endPrice : ℕ
  deriving DecidableEq, Repr

/-- `AdaptedPrices`. -/
structure AdaptedPrices where
  endPrice : ℕ
  targetPrice : ℕ
  deriving DecidableEq, Repr

/-- `CenterTargetPrice::adapt_price`: a tenth of the sell-out price, or the old end price when
nothing sold out. -/
def centerTargetAdaptPrice (performance : SalePerformance) : Option AdaptedPrices :=
  match performance.selloutPrice with
  | none =>
    some ⟨performance.endPrice, (saturatingFromInteger fixedU64 10).saturatingMulInt 128 performance.endPrice⟩
  | some selloutPrice =>
    (fromRational fixedU64 1 10).map fun tenth =>
      let price := tenth.saturatingMulInt 128 selloutPrice
      -- a zero price could never recover
      ⟨if price = 0 then selloutPrice else price, selloutPrice⟩

/-- `AdaptPrice::adapt_price`. -/
def PriceAdapter.adaptPrice : PriceAdapter → SalePerformance → Option AdaptedPrices
  | .unit, performance =>
    let price := performance.selloutPrice.getD performance.endPrice
    some ⟨price, price⟩
  | .centerTargetPrice, performance => centerTargetAdaptPrice performance
  | .minimumPrice minPrice, performance =>
    (centerTargetAdaptPrice performance).map fun proposal =>
      let endPrice := if proposal.endPrice < minPrice then minPrice else proposal.endPrice
      ⟨endPrice, if proposal.targetPrice < endPrice then endPrice else proposal.targetPrice⟩

/-- `CompletionStatus`: `Partial` is `partialMask`. -/
inductive CompletionStatus where
  | partialMask (mask : CoreMask)
  | complete (schedule : List ScheduleItem)
  deriving DecidableEq, Repr

/-- `CompletionStatus::drain_complete`. -/
def CompletionStatus.drainComplete : CompletionStatus → Option (List ScheduleItem)
  | .partialMask _ => none
  | .complete schedule => some schedule

/-- `PotentialRenewalId`. -/
structure PotentialRenewalId where
  core : ℕ
  when : ℕ
  deriving DecidableEq, Repr

/-- `PotentialRenewalRecord`. -/
structure PotentialRenewalRecord where
  price : ℕ
  completion : CompletionStatus
  deriving DecidableEq, Repr

/-- The errors of `do_renew`; `chargeFailed` is a failed `withdraw` in `charge`. -/
inductive SaleError where
  | uninitialized
  | noSales
  | unavailable
  | soldOut
  | notAllowed
  | incompleteAssignment
  | chargeFailed
  deriving DecidableEq, Repr

/-- The storage `do_renew` reads and writes: `renewal_bump` of `Configuration`, `core_count` of
`Status`, `SaleInfo`, `PotentialRenewals` and `Workplan`. -/
structure SaleState where
  renewalBump : Option (PerThing (10 ^ 9))
  coreCount : Option ℕ
  saleInfo : Option SaleInfoRecord
  potentialRenewals : PotentialRenewalId → Option PotentialRenewalRecord
  workplan : ℕ × ℕ → Option (List ScheduleItem)

/-- `purchase_core` once the price is charged: the next core of the sale, one more core sold,
and the price as sell-out price while the sale is within its ideal. -/
def purchaseCore (price : ℕ) (sale : SaleInfoRecord) : ℕ × SaleInfoRecord :=
  let coresSold := min (sale.coresSold + 1) (2 ^ 16 - 1)
  (min (sale.firstCore + sale.coresSold) (2 ^ 16 - 1),
    { sale with
      coresSold := coresSold
      selloutPrice :=
        if coresSold ≤ sale.idealCoresSold ∨ sale.selloutPrice.isNone then some price else sale.selloutPrice })

/-- `do_renew` by an account that can pay `reducibleBalance`: the renewed core and the state
with the next renewal recorded. -/
def doRenew (adapter : PriceAdapter) (s : SaleState) (reducibleBalance now core : ℕ) :
    Option (Except SaleError (SaleState × ℕ)) :=
  match s.renewalBump, s.coreCount, s.saleInfo with
  | none, _, _ => some (.error .uninitialized)
  | _, none, _ => some (.error .uninitialized)
  | _, _, none => some (.error .noSales)
  | some renewalBump, some coreCount, some sale =>
    if ¬sale.firstCore < coreCount then some (.error .unavailable)
    else if ¬sale.coresSold < sale.coresOffered then some (.error .soldOut)
    else
      let renewalId : PotentialRenewalId := ⟨core, sale.regionBegin⟩
      match s.potentialRenewals renewalId with
      | none => some (.error .notAllowed)
      | some record =>
        match record.completion.drainComplete with
        | none => some (.error .incompleteAssignment)
        | some workload =>
          if reducibleBalance < record.price then some (.error .chargeFailed)
          else
            let bought := purchaseCore record.price sale
            -- `record.price + renewal_bump * record.price`, wrapping as `u128` does in a release build
            let priceCap := max ((record.price + renewalBump.mul record.price) % 2 ^ 128) bought.2.endPrice
            (salePrice adapter bought.2 now).map fun salePrice =>
              .ok ({ s with
                saleInfo := some bought.2
                workplan := Function.update s.workplan (bought.2.regionBegin, bought.1) (some workload)
                potentialRenewals :=
                  Function.update (Function.update s.potentialRenewals renewalId none)
                    ⟨bought.1, bought.2.regionEnd⟩ (some ⟨min salePrice priceCap, .complete workload⟩) },
                bought.1)

/-! ## The price curve -/

/-- The share of the lead-in gone by at `now`, in billionths and rounded to the nearest. -/
def leadinThrough (sale : SaleInfoRecord) (now : ℕ) : ℕ :=
  roundedDiv (1000000000 * min (now - sale.saleStart) sale.leadinLength) sale.leadinLength .nearestPrefDown

/-- The lead-in factor of `CenterTargetPrice` in billionths at `t` billionths of the lead-in:
`100 - 180 t` up to the middle, then `19 - 18 t`. -/
def centerTargetFactor (t : ℕ) : ℕ :=
  if t ≤ 500000000 then 100000000000 - 180 * t else 19000000000 - 18 * t

/-- The lead-in factor of an adapter in billionths. -/
def PriceAdapter.factor : PriceAdapter → ℕ → ℕ
  | .unit, _ => 1000000000
  | .centerTargetPrice, t => centerTargetFactor t
  | .minimumPrice _, t => centerTargetFactor t

/-- The end price scaled by a factor in billionths, floored and saturated at `u128::MAX`. -/
def scaledPrice (factor endPrice : ℕ) : ℕ := min (factor * endPrice / 1000000000) (2 ^ 128 - 1)

section Curve

variable (sale : SaleInfoRecord)

theorem leadinThrough_le (now : ℕ) (hL : 0 < sale.leadinLength) : leadinThrough sale now ≤ 1000000000 := by
  apply roundedDiv_le_of_le_mul hL
  rw [Nat.mul_comm]
  exact Nat.mul_le_mul_right _ (min_le_right _ _)

theorem leadinThrough_mono {now1 now2 : ℕ} (h : now1 ≤ now2) :
    leadinThrough sale now1 ≤ leadinThrough sale now2 :=
  roundedDiv_mono _ (Nat.mul_le_mul_left _ (min_le_min_right _ (Nat.sub_le_sub_right h _))) _

/-- Once the lead-in is over, all of it is gone by. -/
theorem leadinThrough_of_le {now : ℕ} (hL : 0 < sale.leadinLength) (h : sale.saleStart + sale.leadinLength ≤ now) :
    leadinThrough sale now = 1000000000 := by
  have hmin : min (now - sale.saleStart) sale.leadinLength = sale.leadinLength := Nat.min_eq_right (by omega)
  rw [leadinThrough, hmin, roundedDiv_mul_self _ hL]

end Curve

/-- The two pieces meet at the middle, so the factor falls all the way. -/
theorem centerTargetFactor_antitone {t1 t2 : ℕ} (h : t1 ≤ t2) : centerTargetFactor t2 ≤ centerTargetFactor t1 := by
  unfold centerTargetFactor
  split <;> split <;> omega

namespace PriceAdapter

variable (adapter : PriceAdapter)

theorem factor_antitone {t1 t2 : ℕ} (h : t1 ≤ t2) : adapter.factor t2 ≤ adapter.factor t1 := by
  cases adapter <;> simp only [factor, le_refl, centerTargetFactor_antitone h]

/-- Within the lead-in the factor is at least one. -/
theorem one_le_factor {t : ℕ} (h : t ≤ 1000000000) : 1000000000 ≤ adapter.factor t := by
  cases adapter <;> simp only [factor, centerTargetFactor, le_refl] <;> split <;> omega

theorem factor_le_hundred (t : ℕ) : adapter.factor t ≤ 100 * 1000000000 := by
  cases adapter <;> simp only [factor, centerTargetFactor] <;> try split
  all_goals omega

theorem factor_one : adapter.factor 1000000000 = 1000000000 := by
  cases adapter <;> rfl

end PriceAdapter

section Scaled

variable {endPrice : ℕ}

theorem scaledPrice_mono {f1 f2 : ℕ} (h : f1 ≤ f2) : scaledPrice f1 endPrice ≤ scaledPrice f2 endPrice :=
  min_le_min_right _ (Nat.div_le_div_right (Nat.mul_le_mul_right _ h))

theorem le_scaledPrice {f : ℕ} (hf : 1000000000 ≤ f) (he : endPrice < 2 ^ 128) : endPrice ≤ scaledPrice f endPrice := by
  refine Nat.le_min.mpr ⟨(Nat.le_div_iff_mul_le (by norm_num)).mpr ?_, by omega⟩
  rw [Nat.mul_comm]
  exact Nat.mul_le_mul_right _ hf

/-- At most a hundred times the end price, saturated. -/
theorem scaledPrice_le {f : ℕ} (hf : f ≤ 100 * 1000000000) :
    scaledPrice f endPrice ≤ min (100 * endPrice) (2 ^ 128 - 1) := by
  refine min_le_min_right _ (Nat.div_le_of_le_mul ?_)
  calc f * endPrice ≤ 100 * 1000000000 * endPrice := Nat.mul_le_mul_right _ hf
    _ = 1000000000 * (100 * endPrice) := by ring

theorem scaledPrice_one (he : endPrice < 2 ^ 128) : scaledPrice 1000000000 endPrice = endPrice := by
  rw [scaledPrice, Nat.mul_div_cancel_left endPrice (by norm_num), Nat.min_eq_left (by omega)]

end Scaled

/-! ## `sale_price` computes the curve -/

theorem fixedU64_max : fixedU64.max = 18446744073709551615 := by decide

theorem fixedU64_min : fixedU64.min = 0 := by decide

/-- `from_rational(num, leadin_length)` is the share of the lead-in gone by. -/
theorem inner_fromRational_leadin (sale : SaleInfoRecord) (now : ℕ) (hL : 0 < sale.leadinLength) :
    (fromRational fixedU64 (min (now - sale.saleStart) sale.leadinLength) sale.leadinLength).map inner =
      some (leadinThrough sale now) := by
  have hlt := sale.leadinLength_lt
  have hle := leadinThrough_le sale now hL
  have hfit : (leadinThrough sale now : ℤ) ≤ fixedU64.max := by
    rw [fixedU64_max]
    omega
  exact inner_fromRationalWithRounding (by omega) hL (by omega) _ hfit

/-- Between no time and all of the lead-in, `leadin_factor_at` is the factor curve: the product by
an integer is exact, and neither subtraction saturates. -/
theorem inner_centerTargetLeadinFactorAt {when : FixedU64} (h0 : 0 ≤ when.inner) (h1 : when.inner ≤ 1000000000) :
    (centerTargetLeadinFactorAt when).map inner = some (centerTargetFactor when.inner.toNat) := by
  have hhalf : (fromRational fixedU64 1 2).map inner = some 500000000 := by
    rw [fromRational, inner_fromRationalWithRounding (by norm_num) (by norm_num) (by norm_num) _ (by decide)]
    decide
  obtain ⟨half, hh, hhv⟩ := Option.map_eq_some_iff.mp hhalf
  have h180 : (when.saturatingMul (saturatingFromInteger fixedU64 180)).inner = 180 * when.inner := by
    have h := @inner_saturatingMul_integer fixedU64 when h0 180 (by decide) (by rw [fixedU64_max]; push_cast; omega)
    push_cast at h
    exact h
  have h18 : (when.saturatingMul (saturatingFromInteger fixedU64 18)).inner = 18 * when.inner := by
    have h := @inner_saturatingMul_integer fixedU64 when h0 18 (by decide) (by rw [fixedU64_max]; push_cast; omega)
    push_cast at h
    exact h
  have h100 : (saturatingFromInteger fixedU64 100).inner = 100000000000 :=
    (@inner_saturatingFromInteger_of_le fixedU64 100 (by decide)).trans (by decide)
  have h19 : (saturatingFromInteger fixedU64 19).inner = 19000000000 :=
    (@inner_saturatingFromInteger_of_le fixedU64 19 (by decide)).trans (by decide)
  unfold centerTargetLeadinFactorAt centerTargetFactor
  rw [hh]
  simp only [Option.map_some, hhv]
  refine congrArg some ?_
  by_cases ht : when.inner ≤ 500000000
  · rw [if_pos ht, if_pos (by omega), saturatingSub, h100, h180,
      inner_clamp (by rw [fixedU64_min]; omega) (by rw [fixedU64_max]; omega)]
    omega
  · rw [if_neg ht, if_neg (by omega), saturatingSub, h19, h18,
      inner_clamp (by rw [fixedU64_min]; omega) (by rw [fixedU64_max]; omega)]
    omega

theorem inner_leadinFactorAt (adapter : PriceAdapter) {when : FixedU64} (h0 : 0 ≤ when.inner)
    (h1 : when.inner ≤ 1000000000) :
    (adapter.leadinFactorAt when).map inner = some (adapter.factor when.inner.toNat) := by
  cases adapter with
  | unit => rfl
  | centerTargetPrice => exact inner_centerTargetLeadinFactorAt h0 h1
  | minimumPrice _ => exact inner_centerTargetLeadinFactorAt h0 h1

/-- With a lead-in, `sale_price` never panics and is the end price scaled by the factor at the
share of the lead-in gone by. -/
theorem salePrice_eq (adapter : PriceAdapter) (sale : SaleInfoRecord) (now : ℕ) (hL : 0 < sale.leadinLength) :
    salePrice adapter sale now = some (scaledPrice (adapter.factor (leadinThrough sale now)) sale.endPrice) := by
  obtain ⟨through, hthrough, hinner⟩ := Option.map_eq_some_iff.mp (inner_fromRational_leadin sale now hL)
  have hle := leadinThrough_le sale now hL
  obtain ⟨factor, hfactor, hfinner⟩ := Option.map_eq_some_iff.mp
    (@inner_leadinFactorAt adapter through (by omega) (by omega))
  rw [salePrice, hthrough, Option.bind_some, hfactor, Option.map_some,
    saturatingMulInt_of_nonneg (by omega) sale.endPrice_lt le_rfl, hfinner, hinner, Int.toNat_natCast,
    Int.toNat_natCast]
  rfl

/-- A sale without a lead-in panics in `from_rational`; `ConfigRecord::validate` rules it out. -/
theorem salePrice_of_leadin_zero (adapter : PriceAdapter) (sale : SaleInfoRecord) (now : ℕ)
    (hL : sale.leadinLength = 0) : salePrice adapter sale now = none := by
  simp [salePrice, fromRational, fromRationalWithRounding, hL]

theorem endPrice_le_of_salePrice {adapter : PriceAdapter} {sale : SaleInfoRecord} {now p : ℕ}
    (h : salePrice adapter sale now = some p) : sale.endPrice ≤ p := by
  by_cases hL : sale.leadinLength = 0
  · rw [salePrice_of_leadin_zero adapter sale now hL] at h
    cases h
  · rw [salePrice_eq adapter sale now (Nat.pos_of_ne_zero hL), Option.some.injEq] at h
    rw [← h]
    exact le_scaledPrice (adapter.one_le_factor (leadinThrough_le sale now (Nat.pos_of_ne_zero hL))) sale.endPrice_lt

/-- `MinimumPrice` never adapts below its minimum, nor the target below the end price. -/
theorem minimumPrice_adaptPrice {minPrice : ℕ} {performance : SalePerformance} {prices : AdaptedPrices}
    (h : (PriceAdapter.minimumPrice minPrice).adaptPrice performance = some prices) :
    minPrice ≤ prices.endPrice ∧ prices.endPrice ≤ prices.targetPrice := by
  obtain ⟨proposal, -, rfl⟩ := Option.map_eq_some_iff.mp h
  constructor <;> dsimp only <;> split_ifs <;> omega

/-! ## Renewals -/

/-- What a successful `do_renew` did: it sold the next core of the sale at the recorded price, and
recorded the next renewal at the sale price now, capped by a cap of at least the end price. -/
theorem doRenew_eq_ok {adapter : PriceAdapter} {s s' : SaleState} {reducibleBalance now core core' : ℕ}
    (h : doRenew adapter s reducibleBalance now core = some (.ok (s', core'))) :
    ∃ sale paid price priceCap workload, s.saleInfo = some sale ∧
      salePrice adapter (purchaseCore paid sale).2 now = some price ∧ sale.endPrice ≤ priceCap ∧
      core' = (purchaseCore paid sale).1 ∧
      s'.potentialRenewals ⟨core', sale.regionEnd⟩ = some ⟨min price priceCap, .complete workload⟩ := by
  unfold doRenew at h
  split at h
  · cases h
  · cases h
  · cases h
  · rename_i renewalBump coreCount sale _ _ hsale
    split at h
    · cases h
    split at h
    · cases h
    dsimp only at h
    split at h
    · cases h
    rename_i record _
    split at h
    · cases h
    rename_i workload _
    split at h
    · cases h
    -- past every check the call fails only by a panic of `sale_price`
    obtain ⟨price, hprice, hok⟩ := Option.map_eq_some_iff.mp h
    cases hok
    exact ⟨sale, record.price, price, max ((record.price + renewalBump.mul record.price) % 2 ^ 128) sale.endPrice,
      workload, hsale, hprice, le_max_right _ _, rfl,
      by simp only [purchaseCore, Function.update_self]⟩

theorem sale_price_falls_to_end_price (adapter : PriceAdapter) (sale : SaleInfoRecord) (hL : 0 < sale.leadinLength) :
    (∀ now1 now2 : ℕ, now1 ≤ now2 → ∃ p1 p2 : ℕ, salePrice adapter sale now1 = some p1 ∧
        salePrice adapter sale now2 = some p2 ∧
        sale.endPrice ≤ p2 ∧ p2 ≤ p1 ∧ p1 ≤ min (100 * sale.endPrice) (2 ^ 128 - 1)) ∧
      (∀ now : ℕ, sale.saleStart + sale.leadinLength ≤ now → salePrice adapter sale now = some sale.endPrice) ∧
      (∀ (s s' : SaleState) (reducibleBalance now core core' : ℕ), s.saleInfo = some sale →
        doRenew adapter s reducibleBalance now core = some (.ok (s', core')) →
        ∃ record, s'.potentialRenewals ⟨core', sale.regionEnd⟩ = some record ∧ sale.endPrice ≤ record.price) := by
  refine ⟨fun now1 now2 h => ?_, fun now h => ?_, fun s s' reducibleBalance now core core' hs h => ?_⟩
  · -- the share gone by grows, so the factor falls and stays between one and a hundred
    have hle := leadinThrough_le sale now2 hL
    have hmono := leadinThrough_mono sale h
    exact ⟨_, _, salePrice_eq adapter sale now1 hL, salePrice_eq adapter sale now2 hL,
      le_scaledPrice (adapter.one_le_factor hle) sale.endPrice_lt,
      scaledPrice_mono (adapter.factor_antitone hmono), scaledPrice_le (adapter.factor_le_hundred _)⟩
  · rw [salePrice_eq adapter sale now hL, leadinThrough_of_le sale hL h, adapter.factor_one,
      scaledPrice_one sale.endPrice_lt]
  · obtain ⟨sale', paid, price, priceCap, workload, hsale, hprice, hcap, rfl, hrecord⟩ := doRenew_eq_ok h
    rw [hs, Option.some.injEq] at hsale
    subst hsale
    exact ⟨_, hrecord, le_min (endPrice_le_of_salePrice hprice) hcap⟩

/-- A lead-in of ten blocks from block zero at an end price of `100`: at block ten the price is
the end price. -/
theorem sale_price_falls_to_end_price_leadin_ten :
    0 < (⟨0, 10, 100, 0, 0, 0, 0, 0, none, 0, by decide, by decide⟩ : SaleInfoRecord).leadinLength ∧
      salePrice .centerTargetPrice ⟨0, 10, 100, 0, 0, 0, 0, 0, none, 0, by decide, by decide⟩ 10 = some 100 :=
  ⟨by decide, (sale_price_falls_to_end_price .centerTargetPrice _ (by decide)).2.1 10 (by decide)⟩

end PolkadotSdk.Broker
