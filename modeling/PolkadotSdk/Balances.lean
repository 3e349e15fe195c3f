import Mathlib

/-!
# Balances: accounts, reference counts and total issuance

A model of the account mutation of `pallet-balances` and of the dispatchable
`force_set_balance`. Accounts live in the pallet's own `Account` map, a finite
association list; the `frame_system` reference counts that `try_mutate_account` keeps
are a function of the account. Balances are `u128`; imbalances adjust `TotalIssuance`
with saturating arithmetic when dropped, and dust is dropped as a credit, which burns it.
-/

namespace PolkadotSdk.Balances

/-- `u128::MAX`. -/
def balanceMax : ℕ := 2 ^ 128 - 1

/-- `AccountData`, without its flags. -/
structure AccountData where
  free : ℕ
  reserved : ℕ
  frozen : ℕ
  deriving DecidableEq, Repr

/-- `AccountData::default`. -/
def AccountData.default : AccountData := ⟨0, 0, 0⟩

/-- The reference counts of `frame_system::AccountInfo`. -/
structure AccountInfo where
  consumers : ℕ
  providers : ℕ
  sufficients : ℕ
  deriving DecidableEq, Repr

/-- The errors the modelled calls return. -/
inductive Error where
  | consumerRemaining
  | noProviders
  | tooManyConsumers
  deriving DecidableEq, Repr

/-- The constants the account mutation reads. -/
structure Config where
  existentialDeposit : ℕ
  maxConsumers : ℕ

/-- Storage: the `Account` map, the system reference counts and `TotalIssuance`. -/
structure State (A : Type) [DecidableEq A] where
  account : AList fun _ : A => AccountData
  system : A → AccountInfo
  totalIssuance : ℕ

variable {A : Type} [DecidableEq A]

namespace State

/-- The sum of `free + reserved` over the stored accounts. -/
def sigma (s : State A) : ℕ :=
  (s.account.entries.map fun e => e.2.free + e.2.reserved).sum

end State

/-- The reference counts of every account, `frame_system::Account`. -/
abbrev Refs (A : Type) := A → AccountInfo

section System

/-- `frame_system::inc_providers`. -/
def incProviders (sys : Refs A) (who : A) : Refs A :=
  let a := sys who
  if a.providers = 0 ∧ a.sufficients = 0 then Function.update sys who { a with providers := 1 }
  else Function.update sys who { a with providers := a.providers + 1 }

/-- `frame_system::dec_providers`: an account whose last provider goes while consumers
remain cannot lose it. -/
def decProviders (sys : Refs A) (who : A) : Except Error (Refs A) :=
  let a := sys who
  let providers := if a.providers = 0 then 1 else a.providers
  if providers = 1 ∧ a.consumers = 0 ∧ a.sufficients = 0 then .ok (Function.update sys who ⟨0, 0, 0⟩)
  else if providers = 1 ∧ 0 < a.consumers then .error .consumerRemaining
  else .ok (Function.update sys who { a with providers := providers - 1 })

/-- `frame_system::inc_consumers`, or `inc_consumers_without_limit` when `noLimit`. -/
def incConsumers (c : Config) (sys : Refs A) (who : A) (noLimit : Bool) : Except Error (Refs A) :=
  let a := sys who
  if a.providers = 0 then .error .noProviders
  else if noLimit ∨ a.consumers < c.maxConsumers then .ok (Function.update sys who { a with consumers := a.consumers + 1 })
  else .error .tooManyConsumers

/-- `frame_system::dec_consumers`. -/
def decConsumers (sys : Refs A) (who : A) : Refs A :=
  let a := sys who
  Function.update sys who { a with consumers := a.consumers - 1 }

end System

section Account

/-- The reference-count updates of `try_mutate_account` between the account before
(`did_provide`, `did_consume`) and after the change. -/
def adjustRefs (c : Config) (sys : Refs A) (who : A) (forceConsumerBump didProvide didConsume : Bool)
    (account : AccountData) : Except Error (Refs A) :=
  let doesProvide := decide (c.existentialDeposit ≤ account.free)
  let doesConsume := account.reserved != 0 || account.frozen != 0
  let sys := if !didProvide && doesProvide then incProviders sys who else sys
  let sys := if didConsume && !doesConsume then decConsumers sys who else sys
  (if !didConsume && doesConsume then incConsumers c sys who forceConsumerBump else .ok sys) >>= fun sys =>
  (if doesConsume && (sys who).consumers = 0 then incConsumers c sys who false else .ok sys) >>= fun sys =>
  if didProvide && !doesProvide then decProviders sys who else .ok sys

/-- `Pallet::try_mutate_account`: apply `f` to the account and store it, or remove it
as dust when its free balance is below the existential deposit and nothing is reserved.
Returns the new state, the result of `f` and the dust. -/
def tryMutateAccount {R : Type} (c : Config) (s : State A) (who : A) (forceConsumerBump : Bool)
    (f : AccountData → Bool → R × AccountData) : Except Error (State A × R × Option ℕ) :=
  let maybeAccount := s.account.lookup who
  let isNew := maybeAccount.isNone
  let account := maybeAccount.getD AccountData.default
  let didProvide := decide (c.existentialDeposit ≤ account.free)
  let didConsume := !isNew && (account.reserved != 0 || account.frozen != 0)
  let (result, account) := f account isNew
  match adjustRefs c s.system who forceConsumerBump didProvide didConsume account with
  | .error e => .error e
  | .ok sys =>
    if account.free < c.existentialDeposit ∧ account.reserved = 0 then
      .ok ({ s with system := sys, account := s.account.erase who }, result,
        if account.free = 0 then none else some account.free)
    else .ok ({ s with system := sys, account := s.account.insert who account }, result, none)

/-- `Unbalanced::handle_raw_dust` with `DustRemoval = ()`: the dust, capped below the
existential deposit, is dropped as a credit and leaves the total issuance. -/
def handleRawDust (c : Config) (s : State A) (amount : ℕ) : State A :=
  { s with totalIssuance := s.totalIssuance - min amount (c.existentialDeposit - 1) }

/-- `Pallet::mutate_account_handling_dust`. -/
def mutateAccountHandlingDust {R : Type} (c : Config) (s : State A) (who : A) (forceConsumerBump : Bool)
    (f : AccountData → Bool → R × AccountData) : Except Error (State A × R) :=
  match tryMutateAccount c s who forceConsumerBump f with
  | .error e => .error e
  | .ok (s, r, none) => .ok (s, r)
  | .ok (s, r, some dust) => .ok (handleRawDust c s dust, r)

end Account

/-- Dropping the `PositiveImbalance` or the `NegativeImbalance` of a change of a free
balance from `oldFree` to `newFree`. -/
def settleIssuance (s : State A) (oldFree newFree : ℕ) : State A :=
  if oldFree < newFree then { s with totalIssuance := min (s.totalIssuance + (newFree - oldFree)) balanceMax }
  else if newFree < oldFree then { s with totalIssuance := s.totalIssuance - (oldFree - newFree) }
  else s

/-- `force_set_balance`: set the free balance of `who`, or wipe it out below the
existential deposit, then drop the imbalance of the change. -/
def forceSetBalance (c : Config) (s : State A) (who : A) (newFree : ℕ) : Except Error (State A) :=
  let newFree := if newFree < c.existentialDeposit then 0 else newFree
  match mutateAccountHandlingDust c s who false fun account _ => (account.free, { account with free := newFree }) with
  | .error e => .error e
  | .ok (s, oldFree) => .ok (settleIssuance s oldFree newFree)

end PolkadotSdk.Balances
