import PolkadotSdk.Balances

/-!
# `force_set_balance` and the total issuance

`try_mutate_account` stores the changed account or drops it as dust, and never touches
the issuance (`tryMutateAccount_ok`). `force_set_balance` then drops the imbalance of the
change, which keeps `TotalIssuance` equal to the sum of the accounts whenever that sum
stays within `u128` (`forceSetBalance_issuance`). Above it the positive imbalance
saturates: the accounts grow and the issuance does not
(`force_set_balance_saturates_issuance`).
-/

namespace PolkadotSdk.Balances

variable {A : Type} [DecidableEq A]

/-- A sum over the entries of a list with distinct keys is the sum without the entry of
`who`, plus the value at `who`. -/
theorem sum_eq_kerase_add {β : Type} {l : List (Sigma fun _ : A => β)} (who : A) (g : β → ℕ) :
    (l.map fun e => g e.2).sum = ((l.kerase who).map fun e => g e.2).sum + ((l.dlookup who).map g).getD 0 := by
  by_cases hk : who ∈ l.keys
  · obtain ⟨b, l₁, l₂, hn, rfl, hker⟩ := List.exists_of_kerase hk
    have hlook : (l₁ ++ ⟨who, b⟩ :: l₂).dlookup who = some b := by
      rw [List.dlookup_append, List.dlookup_eq_none.mpr hn, List.dlookup_cons_eq]
      rfl
    rw [hker, hlook]
    simp only [List.map_append, List.map_cons, List.sum_append, List.sum_cons, Option.map_some,
      Option.getD_some]
    omega
  · rw [List.kerase_of_notMem_keys hk, List.dlookup_eq_none.mpr hk]
    simp

/-- The stored accounts other than `who`, summed. -/
def sigmaWithout (s : State A) (who : A) : ℕ :=
  ((s.account.erase who).entries.map fun e => e.2.free + e.2.reserved).sum

theorem sigma_eq_without_add (s : State A) (who : A) :
    s.sigma = sigmaWithout s who + ((s.account.lookup who).map fun a => a.free + a.reserved).getD 0 :=
  sum_eq_kerase_add who fun a : AccountData => a.free + a.reserved

theorem sigma_of_account_insert {s s' : State A} {who : A} {a : AccountData}
    (h : s'.account = s.account.insert who a) : s'.sigma = a.free + a.reserved + sigmaWithout s who := by
  simp only [State.sigma, h, AList.entries_insert, List.map_cons, List.sum_cons, sigmaWithout]
  rfl

theorem sigma_of_account_erase {s s' : State A} {who : A} (h : s'.account = s.account.erase who) :
    s'.sigma = sigmaWithout s who := by
  simp only [State.sigma, h, sigmaWithout]

/-- What a successful `try_mutate_account` did: the issuance is untouched, and the changed
account is either dropped as dust or stored. -/
theorem tryMutateAccount_ok {R : Type} {c : Config} {s s' : State A} {who : A} {b : Bool}
    {f : AccountData → Bool → R × AccountData} {r : R} {d : Option ℕ}
    (h : tryMutateAccount c s who b f = .ok (s', r, d)) :
    let out := f ((s.account.lookup who).getD AccountData.default) (s.account.lookup who).isNone
    s'.totalIssuance = s.totalIssuance ∧ r = out.1 ∧
      ((out.2.free < c.existentialDeposit ∧ out.2.reserved = 0 ∧ s'.account = s.account.erase who ∧
          d = if out.2.free = 0 then none else some out.2.free) ∨
        (¬(out.2.free < c.existentialDeposit ∧ out.2.reserved = 0) ∧
          s'.account = s.account.insert who out.2 ∧ d = none)) := by
  intro out
  unfold tryMutateAccount at h
  dsimp only at h
  split at h
  · cases h
  split at h
  · rename_i hdust
    cases h
    exact ⟨rfl, rfl, .inl ⟨hdust.1, hdust.2, rfl, rfl⟩⟩
  · rename_i hkeep
    cases h
    exact ⟨rfl, rfl, .inr ⟨hkeep, rfl, rfl⟩⟩

theorem sigma_eq_without_add_stored (s : State A) (who : A) :
    s.sigma = sigmaWithout s who + ((s.account.lookup who).getD AccountData.default).free +
      ((s.account.lookup who).getD AccountData.default).reserved := by
  rw [sigma_eq_without_add]
  cases s.account.lookup who with
  | none => rfl
  | some a => simp only [Option.map_some, Option.getD_some]; omega

theorem sigma_withIssuance (s : State A) (t : ℕ) : ({ s with totalIssuance := t } : State A).sigma = s.sigma :=
  rfl

/-- Dropping the imbalance of a change that the accounts already show keeps the issuance
equal to their sum, as long as that sum fits in `u128`. -/
theorem settleIssuance_eq_sigma {s : State A} {oldFree newFree : ℕ}
    (hsum : s.sigma + oldFree = s.totalIssuance + newFree) (hroom : s.sigma ≤ balanceMax) :
    (settleIssuance s oldFree newFree).totalIssuance = (settleIssuance s oldFree newFree).sigma := by
  unfold settleIssuance
  split_ifs
  · simp only [sigma_withIssuance]
    omega
  · simp only [sigma_withIssuance]
    omega
  · omega

/-- `force_set_balance` keeps `TotalIssuance` equal to the accounts' sum when the new
balance cannot take that sum past `u128::MAX`. -/
theorem forceSetBalance_issuance {c : Config} {s s' : State A} {who : A} {newFree : ℕ}
    (hinv : s.totalIssuance = s.sigma) (hroom : s.sigma + newFree ≤ balanceMax)
    (h : forceSetBalance c s who newFree = .ok s') : s'.totalIssuance = s'.sigma := by
  have hsig := sigma_eq_without_add_stored s who
  unfold forceSetBalance at h
  dsimp only at h
  generalize hn : (if newFree < c.existentialDeposit then 0 else newFree) = n at h
  have hwipe : n ≤ newFree := by
    rw [← hn]
    split_ifs <;> omega
  have hzero : n < c.existentialDeposit → n = 0 := by
    rw [← hn]
    split_ifs <;> omega
  split at h
  · cases h
  rename_i s₁ oldFree hmut
  cases h
  unfold mutateAccountHandlingDust at hmut
  split at hmut
  · cases hmut
  · rename_i s₂ r heq
    cases hmut
    obtain ⟨hti, rfl, hacc⟩ := tryMutateAccount_ok heq
    dsimp only at hacc ⊢
    rcases hacc with ⟨hlt, hres, hs, -⟩ | ⟨-, hs, -⟩
    · have hs' := sigma_of_account_erase hs
      have hn0 := hzero hlt
      exact settleIssuance_eq_sigma (by omega) (by omega)
    · have hs' := sigma_of_account_insert hs
      dsimp only at hs'
      exact settleIssuance_eq_sigma (by omega) (by omega)
  · rename_i s₂ r dust heq
    cases hmut
    obtain ⟨-, -, hacc⟩ := tryMutateAccount_ok heq
    dsimp only at hacc
    rcases hacc with ⟨hlt, -, -, hd⟩ | ⟨-, -, hd⟩
    · simp [hzero hlt] at hd
    · cases hd

/-- Two accounts: one with `u128::MAX - 10` and one with 10, so that the issuance is
`u128::MAX` and equal to their sum. -/
def fullIssuanceState : State ℕ :=
  { account := ((∅ : AList fun _ : ℕ => AccountData).insert 0 ⟨balanceMax - 10, 0, 0⟩).insert 1 ⟨10, 0, 0⟩
    system := fun _ => ⟨0, 1, 0⟩
    totalIssuance := balanceMax }

/-- Forcing the balance of account 1 from 10 to 20 succeeds and leaves the issuance at
`u128::MAX` while the accounts hold `u128::MAX + 10`. -/
theorem force_set_balance_saturates_issuance :
    ∃ s', forceSetBalance ⟨1, 16⟩ fullIssuanceState 1 20 = .ok s' ∧
      fullIssuanceState.totalIssuance = fullIssuanceState.sigma ∧
      s'.totalIssuance = balanceMax ∧ s'.sigma = balanceMax + 10 := by
  refine ⟨_, rfl, ?_, ?_, ?_⟩
  · decide
  · decide
  · decide

end PolkadotSdk.Balances
