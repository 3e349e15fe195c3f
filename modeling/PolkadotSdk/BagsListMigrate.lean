import Mathlib.Data.List.Dedup
import Mathlib.Data.List.TakeWhile
import PolkadotSdk.BagsList

/-!
# Migrating the bags list to new thresholds

`List::migrate` deletes every bag whose threshold is in the old list and not in the new
one (`migrate_getBag_removed`). The last bag, `scoreMax`, exists whether or not a
threshold list names it (`notionalBagFor_of_forall_lt`), so a migration from a list that
names it to one that does not deletes that bag after putting its nodes back into it.
-/

namespace PolkadotSdk.BagsList

variable {A : Type}

/-- Above every threshold a score belongs to the last bag, named or not. -/
theorem notionalBagFor_of_forall_lt {thresholds : List ℕ} {score : ℕ}
    (h : ∀ t ∈ thresholds, t < score) : notionalBagFor thresholds score = scoreMax := by
  have hall : thresholds.takeWhile (fun t => decide (t < score)) = thresholds :=
    List.takeWhile_eq_self_iff.mpr fun t ht => decide_eq_true (h t ht)
  simp [notionalBagFor, hall]

theorem removeBag_lookup_of_lookup_eq_none {s : State A} {b b' : ℕ}
    (h : s.listBags.lookup b = none) : (s.removeBag b').listBags.lookup b = none := by
  by_cases hb : b = b'
  · subst hb
    exact AList.lookup_erase _ _
  · rw [State.removeBag, AList.lookup_erase_ne hb]
    exact h

/-- Deleting bags never brings a bag back. -/
theorem foldl_removeBag_lookup_of_lookup_eq_none {b : ℕ} (bs : List ℕ) {s : State A}
    (h : s.listBags.lookup b = none) : (bs.foldl State.removeBag s).listBags.lookup b = none := by
  induction bs generalizing s with
  | nil => exact h
  | cons b' bs ih => exact ih (removeBag_lookup_of_lookup_eq_none h)

/-- Deleting a list of bags leaves each of them absent. -/
theorem foldl_removeBag_lookup {b : ℕ} (bs : List ℕ) (hb : b ∈ bs) (s : State A) :
    (bs.foldl State.removeBag s).listBags.lookup b = none := by
  induction bs generalizing s with
  | nil => simp at hb
  | cons b' bs ih =>
    rw [List.foldl_cons]
    rcases List.mem_cons.mp hb with rfl | hmem
    · exact foldl_removeBag_lookup_of_lookup_eq_none bs (AList.lookup_erase _ _)
    · exact ih hmem _

section Migrate

variable {A : Type} [LinearOrder A]

/-- After a migration every bag of the old thresholds that the new ones do not name is
gone, whatever it held. -/
theorem migrate_getBag_removed (newThresholds : List ℕ) (s : State A) (oldThresholds : List ℕ)
    (scoreOf : A → Option ℕ) (hne : newThresholds ≠ oldThresholds) {b : ℕ}
    (hold : b ∈ oldThresholds) (hnew : b ∉ newThresholds) :
    (migrate newThresholds s oldThresholds scoreOf).1.getBag b = none := by
  have hrem : b ∈ (sortedSet oldThresholds).filter fun b => b ∉ sortedSet newThresholds := by
    simp [sortedSet, List.mem_insertionSort, List.mem_dedup, hold, hnew]
  simp only [migrate, hne, if_false, State.getBag, Option.map_eq_none_iff]
  exact foldl_removeBag_lookup _ hrem _

/-- With the thresholds `[10]`, an account of score 100 lies in the last bag, `scoreMax`.
Migrating from `[10, scoreMax]` (which names that bag) takes the account out and puts it
back into `scoreMax`, and then deletes the bag: the node still names `scoreMax` as its
bag, no bag holds it, and the node counter is 1 while the bags hold no node. -/
theorem migrate_deletes_occupied_last_bag :
    ∃ s₁, insert [10] (State.empty : State ℕ) 1 100 = .ok s₁ ∧
      let s₂ := (migrate [10] s₁ [10, scoreMax] fun _ => some 100).1
      s₂.getNode 1 = some ⟨1, none, none, scoreMax, 100⟩ ∧ s₂.getBag scoreMax = none ∧
        s₂.counterForListNodes = 1 := by
  refine ⟨_, rfl, ?_⟩
  decide

end Migrate

end PolkadotSdk.BagsList
