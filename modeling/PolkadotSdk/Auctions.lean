import Mathlib

/-!
# Auction winners

`calculate_winners` picks the winning bids of a parachain slot auction with a dynamic program
over the lease periods: `best_winners_ending_at[i]` is the best set of ranges that end by
period `i`, built from a bid on `0 ..= i`, or from the best set ending at `j` followed by a bid
on `j + 1 ..= i`, or carried over from `j` when `j + 1 ..= i` has no bid.

`SlotRange` is generated by `slot_range_helper` for any number `L` of lease periods (the relay
chain uses eight); a range is its pair `as_pair()`, kept in order and inside the auction by the
structure. `WinningData` is an array with one entry per range and is modelled as a function of
the range. Balances are `w`-bit unsigned integers, so the products and sums of the program are
taken modulo `2 ^ w`.

The entries the program builds are feasible, and each is worth at least every feasible set
ending by its period: the winners are pairwise disjoint ranges with their stored bids, and
worth the most any such choice is worth, as long as the bids times `L` sum below `2 ^ w`.
-/

namespace PolkadotSdk.Auctions

/-- `SlotRange::LEASE_PERIODS_PER_SLOT` on the relay chain. -/
def leasePeriodsPerSlot : ℕ := 8

/-- A `SlotRange` of an auction over `L` lease periods, by its pair `as_pair()`. -/
@[ext]
structure SlotRange (L : ℕ) where
  first : ℕ
  last : ℕ
  first_le : first ≤ last
  last_lt : last < L
  deriving DecidableEq

namespace SlotRange

variable {L : ℕ}

/-- `SlotRange::len`. -/
def len (r : SlotRange L) : ℕ := r.last - r.first + 1

/-- `SlotRange::intersects`. -/
def intersects (r other : SlotRange L) : Bool := other.first ≤ r.last && r.first ≤ other.last

/-- `SlotRange::new_bounded(current, first, last)`: the range `first ..= last` of the auction
that starts at `current`. -/
def newBounded (L current first last : ℕ) : Except String (SlotRange L) :=
  if first > last ∨ first < current ∨ last ≥ current + L then .error "Invalid range for this auction"
  else
    -- the `checked_sub`s cannot fail after the check above
    let count := last - first
    let first := first - current
    if h : first ≤ first + count ∧ first + count < L then .ok ⟨first, first + count, h.1, h.2⟩
    else .error "bad range"

theorem intersects_self (r : SlotRange L) : r.intersects r = true := by
  simp [intersects, r.first_le]

theorem intersects_comm (r r' : SlotRange L) : r.intersects r' = r'.intersects r := by
  simp only [intersects, Bool.and_comm]

/-- The calls of `calculate_winners` are in range, so its `expect`s never fire. -/
theorem newBounded_eq {first last : ℕ} (h : first ≤ last) (hl : last < L) :
    newBounded L 0 first last = .ok ⟨first, last, h, hl⟩ := by
  have hsub : first + (last - first) = last := by omega
  rw [newBounded, if_neg (by omega)]
  dsimp only
  rw [dif_pos (by omega)]
  congr 2

end SlotRange

/-- The ranges of an auction over `L` periods, in the order of the variants of `SlotRange`. -/
def allRanges (L : ℕ) : List (SlotRange L) :=
  (List.finRange L).flatMap fun (a : Fin L) => (List.finRange L).filterMap fun (b : Fin L) =>
    if h : a.val ≤ b.val then some ⟨a, b, h, b.isLt⟩ else none

theorem mem_allRanges {L : ℕ} (r : SlotRange L) : r ∈ allRanges L := by
  simp only [allRanges, List.mem_flatMap, List.mem_finRange, List.mem_filterMap, true_and]
  refine ⟨⟨r.first, lt_of_le_of_lt r.first_le r.last_lt⟩, ⟨r.last, r.last_lt⟩, ?_⟩
  rw [dif_pos r.first_le]

variable {L : ℕ} {α : Type*}

section Program

variable (w : ℕ) (winning : SlotRange L → Option (α × ℕ × ℕ))

/-- `best_bid`: the amount bid on `range` times its length, as a `w`-bit balance. -/
def bestBid (range : SlotRange L) : Option ℕ :=
  (winning range).map fun b => b.2.2 * range.len % 2 ^ w

/-- Round `j` of the inner loop for period `i`: the range `j + 1 ..= i` after the best choice
ending at `j`. -/
def innerStep (best : ℕ → List (SlotRange L) × ℕ) (i : Fin L) (cur : List (SlotRange L) × ℕ)
    (j : Fin i) : List (SlotRange L) × ℕ :=
  let r : SlotRange L := ⟨j + 1, i, j.isLt, i.isLt⟩
  match bestBid w winning r with
  | some bid =>
    let bid := (bid + (best j).2) % 2 ^ w
    if bid > cur.2 then ((best j).1 ++ [r], bid) else cur
  | none => if (best j).2 > cur.2 then best j else cur

/-- Round `i` of the outer loop: the new `best_winners_ending_at[i]`. -/
def bestEndingAt (best : ℕ → List (SlotRange L) × ℕ) (i : Fin L) : List (SlotRange L) × ℕ :=
  let r : SlotRange L := ⟨0, i, Nat.zero_le _, i.isLt⟩
  let start := match bestBid w winning r with
    | some bid => ([r], bid)
    | none => best i
  (List.finRange i).foldl (innerStep w winning best i) start

/-- `best_winners_ending_at` after the rounds `i < n` of the outer loop. -/
def bestWinnersEndingAt : ℕ → ℕ → List (SlotRange L) × ℕ
  | 0 => fun _ => ([], 0)
  | n + 1 =>
    let best := bestWinnersEndingAt n
    if h : n < L then Function.update best n (bestEndingAt w winning best ⟨n, h⟩) else best

/-- One item of the closing `filter_map`: `winning[range].take()`, paired with the range. -/
def takeWinner (acc : List (α × ℕ × ℕ × SlotRange L) × (SlotRange L → Option (α × ℕ × ℕ)))
    (range : SlotRange L) : List (α × ℕ × ℕ × SlotRange L) × (SlotRange L → Option (α × ℕ × ℕ)) :=
  match acc.2 range with
  | some (bidder, para, amount) => (acc.1 ++ [(bidder, para, amount, range)], Function.update acc.2 range none)
  | none => acc

/-- `calculate_winners`. -/
def calculateWinners : List (α × ℕ × ℕ × SlotRange L) :=
  let winningRanges := (bestWinnersEndingAt w winning L (L - 1)).1
  (winningRanges.foldl takeWinner ([], winning)).1

end Program

/-! ## What a choice of winners is worth -/

section Spec

variable (winning : SlotRange L → Option (α × ℕ × ℕ))

/-- The amount bid on `r`, zero where there is none. -/
def amountOf (r : SlotRange L) : ℕ := ((winning r).map fun b => b.2.2).getD 0

/-- What a set of ranges is worth: each range's amount times its length. -/
def value (S : List (SlotRange L)) : ℕ := (S.map fun r => amountOf winning r * r.len).sum

/-- Every bid times the number of lease periods, summed: the bound the balance type must hold. -/
def total : ℕ := ((allRanges L).map fun r => amountOf winning r * L).sum

/-- A choice of winners among the ranges that end by period `i`: pairwise disjoint ranges that
all have a bid. -/
structure Feasible (i : ℕ) (S : List (SlotRange L)) : Prop where
  disjoint : S.Pairwise fun r r' => r.intersects r' = false
  bid : ∀ r ∈ S, (winning r).isSome
  last_le : ∀ r ∈ S, r.last ≤ i

/-- An entry of `best_winners_ending_at` that is a feasible choice for `i` and carries its value. -/
def Achieves (i : ℕ) (e : List (SlotRange L) × ℕ) : Prop := Feasible winning i e.1 ∧ e.2 = value winning e.1

/-- Nothing feasible for `i` is worth more than the entry. -/
def Optimal (i : ℕ) (e : List (SlotRange L) × ℕ) : Prop := ∀ S, Feasible winning i S → value winning S ≤ e.2

end Spec

variable {w : ℕ} {winning : SlotRange L → Option (α × ℕ × ℕ)}

@[simp] theorem value_nil : value winning [] = 0 := rfl

theorem value_append (S S' : List (SlotRange L)) : value winning (S ++ S') = value winning S + value winning S' := by
  simp [value]

theorem value_singleton (r : SlotRange L) : value winning [r] = amountOf winning r * r.len := by
  simp [value]

theorem value_perm {S S' : List (SlotRange L)} (h : S.Perm S') : value winning S = value winning S' :=
  (h.map _).sum_eq

theorem nodup_of_disjoint {S : List (SlotRange L)} (h : S.Pairwise fun r r' => r.intersects r' = false) : S.Nodup :=
  h.imp fun hrr' heq => by subst heq; rw [SlotRange.intersects_self] at hrr'; exact Bool.noConfusion hrr'

theorem Feasible.nil (i : ℕ) : Feasible winning i [] := ⟨List.Pairwise.nil, by simp, by simp⟩

theorem Feasible.mono {i i' : ℕ} {S : List (SlotRange L)} (h : Feasible winning i S) (hi : i ≤ i') :
    Feasible winning i' S :=
  ⟨h.disjoint, h.bid, fun r hr => (h.last_le r hr).trans hi⟩

theorem Feasible.sublist {i : ℕ} {S S' : List (SlotRange L)} (h : Feasible winning i S) (hs : S'.Sublist S) :
    Feasible winning i S' :=
  ⟨h.disjoint.sublist hs, fun r hr => h.bid r (hs.subset hr), fun r hr => h.last_le r (hs.subset hr)⟩

/-- A feasible choice ending by `i`, followed by a range with a bid that starts after `i`. -/
theorem Feasible.append_singleton {i i' : ℕ} {S : List (SlotRange L)} (h : Feasible winning i S) {r : SlotRange L}
    (hr : (winning r).isSome) (hfirst : i < r.first) (hlast : r.last ≤ i') : Feasible winning i' (S ++ [r]) := by
  refine ⟨?_, ?_, ?_⟩
  · rw [List.pairwise_append]
    refine ⟨h.disjoint, List.pairwise_singleton _ _, fun x hx y hy => ?_⟩
    rw [List.mem_singleton] at hy
    subst hy
    have := h.last_le x hx
    simp only [SlotRange.intersects, Bool.and_eq_false_iff, decide_eq_false_iff_not, not_le]
    omega
  · intro x hx
    rcases List.mem_append.mp hx with hx | hx
    · exact h.bid x hx
    · rw [List.mem_singleton.mp hx]
      exact hr
  · intro x hx
    rcases List.mem_append.mp hx with hx | hx
    · have := h.last_le x hx
      have := r.first_le
      omega
    · rw [List.mem_singleton.mp hx]
      exact hlast

/-! ## No balance overflows -/

/-- A set of distinct ranges is worth at most the total. -/
theorem value_le_total {S : List (SlotRange L)} (hS : S.Nodup) : value winning S ≤ total winning := by
  have hlen : value winning S ≤ (S.map fun r => amountOf winning r * L).sum := by
    apply List.sum_le_sum
    intro r _
    apply Nat.mul_le_mul_left
    have := r.last_lt
    unfold SlotRange.len
    omega
  obtain ⟨l, hperm, hsub⟩ := hS.subperm fun r _ => mem_allRanges r
  calc value winning S ≤ (S.map fun r => amountOf winning r * L).sum := hlen
    _ = (l.map fun r => amountOf winning r * L).sum := ((hperm.map _).sum_eq).symm
    _ ≤ total winning := (hsub.map _).sum_le_sum fun _ _ => Nat.zero_le _

theorem bestBid_eq (hfit : total winning < 2 ^ w) (r : SlotRange L) :
    bestBid w winning r = (winning r).map fun _ => amountOf winning r * r.len := by
  have hle : value winning [r] ≤ total winning := value_le_total (List.nodup_singleton r)
  rw [value_singleton] at hle
  rcases hw : winning r with _ | b
  · simp [bestBid, hw]
  · simp only [amountOf, hw, Option.map_some, Option.getD_some] at hle ⊢
    rw [bestBid, hw, Option.map_some, Nat.mod_eq_of_lt (by omega)]

/-! ## The inner loop -/

section Inner

variable (hfit : total winning < 2 ^ w) {best : ℕ → List (SlotRange L) × ℕ} {i : Fin L}
include hfit

/-- One round of the inner loop keeps a feasible entry with its value, never lowers it, and
leaves it worth at least the choice it tried. -/
theorem innerStep_spec (hbest : ∀ j : ℕ, j < i → Achieves winning j (best j)) {cur : List (SlotRange L) × ℕ}
    (hcur : Achieves winning i cur) (j : Fin i) :
    Achieves winning i (innerStep w winning best i cur j) ∧ cur.2 ≤ (innerStep w winning best i cur j).2 ∧
      (best j).2 ≤ (innerStep w winning best i cur j).2 ∧
      ∀ r : SlotRange L, r.first = j + 1 → r.last = i → (winning r).isSome →
        amountOf winning r * r.len + (best j).2 ≤ (innerStep w winning best i cur j).2 := by
  obtain ⟨hfeas, hval⟩ := hbest j j.isLt
  have hji := j.isLt
  unfold innerStep
  dsimp only
  rw [bestBid_eq hfit]
  set r : SlotRange L := ⟨j + 1, i, j.isLt, i.isLt⟩ with hr
  have hr_eq : ∀ r' : SlotRange L, r'.first = j + 1 → r'.last = i → r' = r := fun r' h1 h2 => SlotRange.ext h1 h2
  cases hwin : winning r with
  | none =>
    -- no bid on `j + 1 ..= i`: the best choice ending at `j` is carried over if it is worth more
    simp only [Option.map_none]
    refine ⟨?_, ?_, ?_, fun r' h1 h2 hsome => ?_⟩
    · split
      · exact ⟨hfeas.mono (by omega), hval⟩
      · exact hcur
    · split <;> omega
    · split <;> omega
    · rw [hr_eq r' h1 h2, hwin] at hsome
      exact absurd hsome (by simp)
  | some b =>
    have hsome : (winning r).isSome := by rw [hwin]; rfl
    -- the new choice is the one ending at `j` followed by `j + 1 ..= i`; it is worth its value
    have hfeas' : Feasible winning i ((best j).1 ++ [r]) := hfeas.append_singleton hsome (by simp [hr]) le_rfl
    have hsum : amountOf winning r * r.len + (best j).2 = value winning ((best j).1 ++ [r]) := by
      rw [value_append, value_singleton, hval, Nat.add_comm]
    have hfit' : amountOf winning r * r.len + (best j).2 < 2 ^ w := by
      rw [hsum]
      exact lt_of_le_of_lt (value_le_total (nodup_of_disjoint hfeas'.disjoint)) hfit
    simp only [Option.map_some]
    rw [Nat.mod_eq_of_lt hfit']
    refine ⟨?_, ?_, ?_, fun r' h1 h2 _ => ?_⟩
    · split
      · exact ⟨hfeas', hsum⟩
      · exact hcur
    · split <;> omega
    · split <;> omega
    · rw [hr_eq r' h1 h2]
      split <;> omega

/-- The inner loop over any list of earlier periods: its result is feasible, carries its value,
and is worth at least the start and every choice it tried. -/
theorem foldl_innerStep_spec (hbest : ∀ j : ℕ, j < i → Achieves winning j (best j)) (l : List (Fin i))
    {start : List (SlotRange L) × ℕ} (hstart : Achieves winning i start) :
    Achieves winning i (l.foldl (innerStep w winning best i) start) ∧
      start.2 ≤ (l.foldl (innerStep w winning best i) start).2 ∧
      ∀ j ∈ l, (best j).2 ≤ (l.foldl (innerStep w winning best i) start).2 ∧
        ∀ r : SlotRange L, r.first = j + 1 → r.last = i → (winning r).isSome →
          amountOf winning r * r.len + (best j).2 ≤ (l.foldl (innerStep w winning best i) start).2 := by
  induction l generalizing start with
  | nil => exact ⟨hstart, le_rfl, by simp⟩
  | cons j l ih =>
    obtain ⟨hach, hcur, hbj, hrj⟩ := innerStep_spec hfit hbest hstart j
    obtain ⟨hres, hle, hall⟩ := ih hach
    refine ⟨hres, hcur.trans hle, ?_⟩
    intro j' hj'
    rcases List.mem_cons.mp hj' with rfl | hj'
    · exact ⟨hbj.trans hle, fun r h1 h2 h3 => (hrj r h1 h2 h3).trans hle⟩
    · exact hall j' hj'

end Inner

/-! ## The outer loop -/

/-- A feasible choice with a range ending at `i` is that range after a feasible choice of ranges
ending before it starts. -/
theorem Feasible.split_last {i : ℕ} {S : List (SlotRange L)} (h : Feasible winning i S) {r : SlotRange L}
    (hr : r ∈ S) (hlast : r.last = i) :
    value winning S = amountOf winning r * r.len + value winning (S.erase r) ∧
      ∀ x ∈ S.erase r, x.last < r.first := by
  have hnodup := nodup_of_disjoint h.disjoint
  refine ⟨?_, fun x hx => ?_⟩
  · rw [value_perm (List.perm_cons_erase hr), ← value_singleton, ← value_append]
    rfl
  · obtain ⟨hne, hxS⟩ := (hnodup.mem_erase_iff).mp hx
    have : Std.Symm fun r r' : SlotRange L => r.intersects r' = false :=
      ⟨fun a b hab => by rw [SlotRange.intersects_comm]; exact hab⟩
    have hdis := h.disjoint.forall hxS hr hne
    have := h.last_le x hxS
    have := x.first_le
    simp only [SlotRange.intersects, Bool.and_eq_false_iff, decide_eq_false_iff_not, not_le] at hdis
    omega

section Outer

variable (hfit : total winning < 2 ^ w)
include hfit

/-- Round `i` of the outer loop, given the entries before it: the new entry is feasible, carries
its value, and nothing feasible for `i` is worth more. -/
theorem bestEndingAt_spec {best : ℕ → List (SlotRange L) × ℕ} (i : Fin L)
    (hbest : ∀ j : ℕ, j < i → Achieves winning j (best j) ∧ Optimal winning j (best j))
    (hdefault : best i = ([], 0)) :
    Achieves winning i (bestEndingAt w winning best i) ∧ Optimal winning i (bestEndingAt w winning best i) := by
  set r0 : SlotRange L := ⟨0, i, Nat.zero_le _, i.isLt⟩ with hr0
  -- the start: a bid on `0 ..= i`, or the empty entry
  have hstart : Achieves winning i (match bestBid w winning r0 with | some bid => ([r0], bid) | none => best i) ∧
      ((winning r0).isSome → amountOf winning r0 * r0.len ≤
        (match bestBid w winning r0 with | some bid => ([r0], bid) | none => best i).2) := by
    rw [bestBid_eq hfit]
    cases hwin : winning r0 with
    | none => exact ⟨by rw [hdefault]; exact ⟨Feasible.nil _, rfl⟩, by simp⟩
    | some b =>
      have hsome : (winning r0).isSome := by rw [hwin]; rfl
      refine ⟨⟨⟨List.pairwise_singleton _ _, by simpa using hsome, by simp [hr0]⟩, (value_singleton r0).symm⟩,
        fun _ => le_rfl⟩
  obtain ⟨hres, hle, hall⟩ :=
    foldl_innerStep_spec hfit (fun j hj => (hbest j hj).1) (List.finRange i) hstart.1
  refine ⟨hres, fun S hS => ?_⟩
  unfold bestEndingAt
  by_cases hend : ∃ r ∈ S, r.last = i
  · obtain ⟨r, hr, hlast⟩ := hend
    obtain ⟨hsplit, hbefore⟩ := hS.split_last hr hlast
    rw [hsplit]
    rcases Nat.eq_zero_or_pos r.first with h0 | hpos
    · -- `r` starts the auction: nothing else fits before it
      have hnil : S.erase r = [] := List.eq_nil_iff_forall_not_mem.mpr fun x hx => by
        have := hbefore x hx
        omega
      have hr0' : r = r0 := SlotRange.ext h0 hlast
      rw [hnil, value_nil, Nat.add_zero]
      subst hr0'
      exact (hstart.2 (hS.bid _ hr)).trans hle
    · -- `r` follows the best choice ending at `r.first - 1`
      have hj : r.first - 1 < (i : ℕ) := by have := r.first_le; omega
      have hrest : Feasible winning (r.first - 1) (S.erase r) :=
        ⟨(hS.sublist (List.erase_sublist)).disjoint, (hS.sublist (List.erase_sublist)).bid,
          fun x hx => by have := hbefore x hx; omega⟩
      have hopt := (hbest _ hj).2 _ hrest
      have hcand := (hall ⟨r.first - 1, hj⟩ (List.mem_finRange _)).2 r (by dsimp only; omega) hlast (hS.bid r hr)
      exact (Nat.add_le_add_left hopt _).trans hcand
  · -- every range ends before `i`
    push Not at hend
    rcases Nat.eq_zero_or_pos (i : ℕ) with h0 | hpos
    · have hnil : S = [] := List.eq_nil_iff_forall_not_mem.mpr fun x hx => by
        have := hS.last_le x hx
        exact hend x hx (by omega)
      rw [hnil, value_nil]
      exact Nat.zero_le _
    · have hS' : Feasible winning ((i : ℕ) - 1) S :=
        ⟨hS.disjoint, hS.bid, fun x hx => by have := hS.last_le x hx; have := hend x hx; omega⟩
      have hj : (i : ℕ) - 1 < i := by omega
      exact ((hbest _ hj).2 S hS').trans (hall ⟨(i : ℕ) - 1, hj⟩ (List.mem_finRange _)).1

/-- After the rounds `i < n` of the outer loop every entry before `n` is feasible, carries its
value and is optimal, and every later entry is still the default. -/
theorem bestWinnersEndingAt_spec (n : ℕ) :
    (∀ j : ℕ, j < n → j < L → Achieves winning j (bestWinnersEndingAt w winning n j) ∧
      Optimal winning j (bestWinnersEndingAt w winning n j)) ∧
      ∀ j : ℕ, n ≤ j → bestWinnersEndingAt w winning n j = ([], 0) := by
  induction n with
  | zero => exact ⟨fun j hj => absurd hj (Nat.not_lt_zero j), fun _ _ => rfl⟩
  | succ n ih =>
    obtain ⟨hdone, hdefault⟩ := ih
    rw [bestWinnersEndingAt]
    split
    · rename_i hn
      have hnew := bestEndingAt_spec hfit ⟨n, hn⟩ (fun j hj => hdone j hj (by omega)) (hdefault n le_rfl)
      refine ⟨fun j hj hjL => ?_, fun j hj => ?_⟩
      · rcases Nat.lt_succ_iff_lt_or_eq.mp hj with hj | rfl
        · rw [Function.update_of_ne (by omega)]
          exact hdone j hj hjL
        · rw [Function.update_self]
          exact hnew
      · rw [Function.update_of_ne (by omega)]
        exact hdefault j (by omega)
    · exact ⟨fun j hj hjL => hdone j (by omega) hjL, fun j hj => hdefault j (by omega)⟩

end Outer

/-! ## The winners -/

/-- The closing `filter_map` over distinct ranges reads each range's stored bid. -/
theorem foldl_takeWinner (l : List (SlotRange L)) (hl : l.Nodup) (acc : List (α × ℕ × ℕ × SlotRange L))
    (win : SlotRange L → Option (α × ℕ × ℕ)) :
    (l.foldl takeWinner (acc, win)).1 = acc ++ l.filterMap fun r => (win r).map fun b => (b.1, b.2.1, b.2.2, r) := by
  induction l generalizing acc win with
  | nil => simp
  | cons r l ih =>
    obtain ⟨hr, hl⟩ := List.nodup_cons.mp hl
    -- the entries of the other ranges are untouched by taking `r`'s
    have hrest : (l.filterMap fun x => (Function.update win r none x).map fun b => (b.1, b.2.1, b.2.2, x)) =
        l.filterMap fun x => (win x).map fun b => (b.1, b.2.1, b.2.2, x) :=
      List.filterMap_congr fun x hx => by rw [Function.update_of_ne (fun (h : x = r) => hr (h ▸ hx))]
    rw [List.foldl_cons, takeWinner]
    dsimp only
    cases hwin : win r with
    | none => rw [ih hl, List.filterMap_cons_none (by simp [hwin])]
    | some b =>
      rw [ih hl, hrest, List.filterMap_cons_some (show _ = some (b.1, b.2.1, b.2.2, r) by simp [hwin]),
        List.append_assoc, List.singleton_append]

/-- `calculate_winners` over eight lease periods, with every bid times eight summing below
`2 ^ w`: the winners' ranges are pairwise disjoint, each comes with the bid stored for it, and
they are worth at least every choice of pairwise disjoint ranges that have bids. -/
theorem calculate_winners_optimal (winning : SlotRange leasePeriodsPerSlot → Option (α × ℕ × ℕ))
    (hfit : total winning < 2 ^ w) :
    ((calculateWinners w winning).map fun x => x.2.2.2).Pairwise (fun r r' => r.intersects r' = false) ∧
      (∀ x ∈ calculateWinners w winning, winning x.2.2.2 = some (x.1, x.2.1, x.2.2.1)) ∧
      ∀ S : List (SlotRange leasePeriodsPerSlot), S.Pairwise (fun r r' => r.intersects r' = false) →
        (∀ r ∈ S, (winning r).isSome) →
          value winning S ≤ value winning ((calculateWinners w winning).map fun x => x.2.2.2) := by
  obtain ⟨hach, hopt⟩ :=
    (bestWinnersEndingAt_spec hfit leasePeriodsPerSlot).1 (leasePeriodsPerSlot - 1) (by decide) (by decide)
  set ranges := (bestWinnersEndingAt w winning leasePeriodsPerSlot (leasePeriodsPerSlot - 1)).1 with hranges
  -- every winning range has a bid, so the `filter_map` keeps them all, in order
  have hwinners : calculateWinners w winning =
      ranges.filterMap fun r => (winning r).map fun b => (b.1, b.2.1, b.2.2, r) := by
    rw [calculateWinners, foldl_takeWinner _ (nodup_of_disjoint hach.1.disjoint), List.nil_append]
  have hmap : (calculateWinners w winning).map (fun x => x.2.2.2) = ranges := by
    rw [hwinners, List.map_filterMap]
    conv_rhs => rw [← List.filterMap_some (l := ranges)]
    apply List.filterMap_congr
    intro r hr
    obtain ⟨b, hb⟩ := Option.isSome_iff_exists.mp (hach.1.bid r hr)
    simp [hb]
  refine ⟨by rw [hmap]; exact hach.1.disjoint, fun x hx => ?_, fun S hS hbid => ?_⟩
  · rw [hwinners, List.mem_filterMap] at hx
    obtain ⟨r, _, hr⟩ := hx
    obtain ⟨b, hb, rfl⟩ := Option.map_eq_some_iff.mp hr
    exact hb
  · rw [hmap, ← hach.2]
    exact hopt S ⟨hS, hbid, fun r _ => Nat.le_sub_one_of_lt r.last_lt⟩

/-- One bid of five on the whole auction, in 128-bit balances: the winners carry their bids. -/
theorem calculate_winners_optimal_whole :
    let winning : SlotRange leasePeriodsPerSlot → Option (ℕ × ℕ × ℕ) :=
      fun r => if r.first = 0 ∧ r.last = 7 then some (1, 1000, 5) else none
    total winning < 2 ^ 128 ∧ ∀ x ∈ calculateWinners 128 winning, winning x.2.2.2 = some (x.1, x.2.1, x.2.2.1) := by
  intro winning
  exact ⟨by decide, (calculate_winners_optimal winning (by decide)).2.1⟩

/-- The first case of `calculate_winners_works`: four single periods beat `0 ..= 3`. -/
example :
    (calculateWinners 128 fun r : SlotRange leasePeriodsPerSlot =>
        if r.first = 0 ∧ r.last = 0 then some (2, 0, 2) else if r.first = 0 ∧ r.last = 3 then some (1, 100, 1)
        else if r.first = 1 ∧ r.last = 1 then some (3, 1, 1) else if r.first = 2 ∧ r.last = 2 then some (1, 2, 53)
        else if r.first = 3 ∧ r.last = 3 then some (5, 3, 1) else none).map (fun x => (x.1, x.2.1, x.2.2.1, x.2.2.2.first)) =
      [(2, 0, 2, 0), (3, 1, 1, 1), (1, 2, 53, 2), (5, 3, 1, 3)] := by
  decide

end PolkadotSdk.Auctions
