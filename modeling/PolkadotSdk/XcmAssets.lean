import Mathlib
import PolkadotSdk.XcmLocation

/-!
# XCM assets and their `reanchor`

A model of `Asset`, its `Ord`, `Assets::from_sorted_and_deduplicated` (the check
`Assets::decode` makes) and `Assets::reanchor`, which reanchors each item's id in place with
`try_for_each` and sorts the items when all succeed. The asset id is its location (`AssetId`
wraps one); the instance of a non-fungible asset is a parameter with an order.

When every item reanchors, the items are the reanchored items sorted, one for one. But the
result need not pass `from_sorted_and_deduplicated`: two ids that denote the same place, one
of them going up and back down through the context, reanchor to the same location. And when
an item fails, the items before it stay reanchored.
-/

namespace PolkadotSdk.Xcm

variable {J I : Type}

/-- `Fungibility`. -/
inductive Fungibility (I : Type) where
  | fungible (amount : ℕ)
  | nonFungible (assetInstance : I)
  deriving DecidableEq

/-- `Asset`; `fungibility` is the field `fun`. -/
structure Asset (J I : Type) where
  id : Location J
  fungibility : Fungibility I
  deriving DecidableEq

section Order

variable [Ord J] [Ord I]

/-- The derived order of junction arrays of one length: lexicographic. -/
def lexCompare : List J → List J → Ordering
  | [], [] => .eq
  | [], _ :: _ => .lt
  | _ :: _, [] => .gt
  | a :: s, b :: t => (compare a b).then (lexCompare s t)

/-- The derived `Ord` of `Junctions`: the variant, `Here` to `X8`, then the junctions. -/
def Junctions.cmp (a b : Junctions J) : Ordering :=
  (compare a.len b.len).then (lexCompare a.toList b.toList)

/-- The derived `Ord` of `Location`. -/
def Location.cmp (a b : Location J) : Ordering :=
  (compare a.parents b.parents).then (a.interior.cmp b.interior)

/-- The derived `Ord` of `Fungibility`. -/
def Fungibility.cmp : Fungibility I → Fungibility I → Ordering
  | .fungible a, .fungible b => compare a b
  | .fungible _, .nonFungible _ => .lt
  | .nonFungible _, .fungible _ => .gt
  | .nonFungible a, .nonFungible b => compare a b

/-- `Ord for Asset`: fungible assets first, then by id and fungibility. -/
def Asset.cmp (a b : Asset J I) : Ordering :=
  match a.fungibility, b.fungibility with
  | .fungible _, .nonFungible _ => .lt
  | .nonFungible _, .fungible _ => .gt
  | _, _ => (a.id.cmp b.id).then (a.fungibility.cmp b.fungibility)

/-- `is_non_fungible(None)`. -/
def Asset.isNonFungible (a : Asset J I) : Bool :=
  match a.fungibility with
  | .nonFungible _ => true
  | .fungible _ => false

/-- A step of the `try_fold` of `from_sorted_and_deduplicated`: the next item has a greater
id, or is greater and one of the two is non-fungible. -/
def sortedStep (a b : Asset J I) : Except Unit (Asset J I) :=
  if a.id.cmp b.id = .lt || (a.cmp b = .lt && (a.isNonFungible || b.isNonFungible)) then .ok b else .error ()

/-- `Assets::from_sorted_and_deduplicated`. -/
def fromSortedAndDeduplicated (r : List (Asset J I)) : Except Unit (List (Asset J I)) :=
  match r with
  | [] => .ok []
  | a :: rest =>
    match rest.foldlM sortedStep a with
    | .error () => .error ()
    | .ok _ => .ok r

/-- `self.0.sort()`, a stable sort by `Ord for Asset`. -/
def sort (items : List (Asset J I)) : List (Asset J I) :=
  items.mergeSort fun a b => a.cmp b != .gt

end Order

section Reanchor

variable [DecidableEq J] (onlyChild : J) (target : Location J) (context : Junctions J)

/-- `Asset::reanchor`, which reanchors the id. -/
def Asset.reanchor (a : Asset J I) : Asset J I × Except Unit Unit :=
  (⟨(Xcm.reanchor onlyChild a.id target context).1, a.fungibility⟩, (Xcm.reanchor onlyChild a.id target context).2)

/-- `iter_mut().try_for_each(|i| i.reanchor(target, context))`: the items are changed in place
up to the first that fails. -/
def reanchorEach : List (Asset J I) → List (Asset J I) × Except Unit Unit
  | [] => ([], .ok ())
  | a :: rest =>
    match (a.reanchor onlyChild target context).2 with
    | .error () => ((a.reanchor onlyChild target context).1 :: rest, .error ())
    | .ok () =>
      ((a.reanchor onlyChild target context).1 :: (reanchorEach rest).1, (reanchorEach rest).2)

/-- `Assets::reanchor`, with the new items and the result. -/
def Assets.reanchor [Ord J] [Ord I] (self : List (Asset J I)) : List (Asset J I) × Except Unit Unit :=
  match (reanchorEach onlyChild target context self).2 with
  | .error () => ((reanchorEach onlyChild target context self).1, .error ())
  | .ok () => (sort (reanchorEach onlyChild target context self).1, .ok ())

@[simp] theorem fungibility_reanchor (a : Asset J I) :
    (a.reanchor onlyChild target context).1.fungibility = a.fungibility := rfl

/-- A failed `Asset::reanchor` leaves the asset as it was. -/
theorem Asset.reanchor_of_error {a : Asset J I} (h : (a.reanchor onlyChild target context).2 = .error ()) :
    (a.reanchor onlyChild target context).1 = a := by
  have hid := Xcm.reanchor_of_error h
  unfold Asset.reanchor
  rw [hid]

theorem length_reanchorEach : ∀ xs : List (Asset J I), (reanchorEach onlyChild target context xs).1.length = xs.length
  | [] => rfl
  | a :: rest => by
    unfold reanchorEach
    split
    · rfl
    · rw [List.length_cons, List.length_cons, length_reanchorEach rest]

/-- When every item reanchors, `try_for_each` has reanchored each item in place. -/
theorem reanchorEach_of_ok : ∀ {xs : List (Asset J I)}, (reanchorEach onlyChild target context xs).2 = .ok () →
    (reanchorEach onlyChild target context xs).1 = xs.map (fun a => (a.reanchor onlyChild target context).1) ∧
      ∀ a ∈ xs, (a.reanchor onlyChild target context).2 = .ok ()
  | [], _ => ⟨rfl, by simp⟩
  | a :: rest, h => by
    unfold reanchorEach at h ⊢
    split at h
    · cases h
    · rename_i ha
      obtain ⟨hmap, hall⟩ := reanchorEach_of_ok h
      refine ⟨by simp only [hmap, List.map_cons], ?_⟩
      intro b hb
      rcases List.mem_cons.mp hb with rfl | hb
      · exact ha
      · exact hall b hb

/-- When an item fails, `try_for_each` stops there: the items before it are reanchored, it and
the items after it are as they were. -/
theorem reanchorEach_of_error : ∀ {xs : List (Asset J I)}, (reanchorEach onlyChild target context xs).2 = .error () →
    ∃ k, ∃ hk : k < xs.length,
      (reanchorEach onlyChild target context xs).1 =
          (xs.take k).map (fun a => (a.reanchor onlyChild target context).1) ++ xs.drop k ∧
        (∀ a ∈ xs.take k, (a.reanchor onlyChild target context).2 = .ok ()) ∧
        (xs[k].reanchor onlyChild target context).2 = .error ()
  | [], h => by cases h
  | a :: rest, h => by
    unfold reanchorEach at h ⊢
    split at h
    · -- the first item fails
      rename_i ha
      refine ⟨0, Nat.zero_lt_succ _, ?_, by simp, ha⟩
      show _ :: rest = _
      rw [Asset.reanchor_of_error onlyChild target context ha]
      rfl
    · -- the first item succeeds and a later one fails
      rename_i ha
      obtain ⟨k, hk, hitems, hbefore, hfail⟩ := reanchorEach_of_error h
      refine ⟨k + 1, Nat.succ_lt_succ hk, ?_, ?_, hfail⟩
      · show _ :: (reanchorEach onlyChild target context rest).1 = _
        rw [hitems, List.take_succ_cons, List.map_cons, List.drop_succ_cons, List.cons_append]
      · intro b hb
        rw [List.take_succ_cons] at hb
        rcases List.mem_cons.mp hb with rfl | hb
        · exact ha
        · exact hbefore b hb

variable [Ord J] [Ord I]

/-- When every item reanchors, `Assets::reanchor` leaves the reanchored items sorted: one item for
each item, with its fungibility. -/
theorem Assets.reanchor_of_ok {xs : List (Asset J I)} (h : (Assets.reanchor onlyChild target context xs).2 = .ok ()) :
    (Assets.reanchor onlyChild target context xs).1.Perm (xs.map fun a => (a.reanchor onlyChild target context).1) ∧
      ∀ a ∈ xs, (a.reanchor onlyChild target context).2 = .ok () := by
  unfold Assets.reanchor at h ⊢
  split at h
  · cases h
  · rename_i heach
    obtain ⟨hmap, hall⟩ := reanchorEach_of_ok onlyChild target context heach
    refine ⟨?_, hall⟩
    show (sort _).Perm _
    rw [← hmap]
    exact List.mergeSort_perm _ _

/-- When an item fails, `Assets::reanchor` leaves the items before it reanchored and does not sort. -/
theorem Assets.reanchor_of_error {xs : List (Asset J I)}
    (h : (Assets.reanchor onlyChild target context xs).2 = .error ()) :
    ∃ k, ∃ hk : k < xs.length,
      (Assets.reanchor onlyChild target context xs).1 =
          (xs.take k).map (fun a => (a.reanchor onlyChild target context).1) ++ xs.drop k ∧
        (∀ a ∈ xs.take k, (a.reanchor onlyChild target context).2 = .ok ()) ∧
        (xs[k].reanchor onlyChild target context).2 = .error () := by
  unfold Assets.reanchor at h ⊢
  split at h
  · rename_i heach
    exact reanchorEach_of_error onlyChild target context heach
  · cases h

end Reanchor

/-- The parents counts of the locations below fit a `u8`. -/
theorem zero_lt_256 : 0 < 256 := by decide

theorem one_lt_256 : 1 < 256 := by decide

/-- The parent of `pairContext`. -/
def parentTarget : Location ℕ := ⟨1, Junctions.here, one_lt_256⟩

/-- Two units of the asset at junction 5 below the context, once addressed directly and once
going up and back down through the context's last junction. -/
def collidingAssets : List (Asset ℕ ℕ) :=
  [⟨⟨0, ⟨[5], by decide⟩, zero_lt_256⟩, .fungible 1⟩, ⟨⟨1, ⟨[2, 5], by decide⟩, one_lt_256⟩, .fungible 1⟩]

/-- An asset that reanchors, and one of eight junctions that no longer fits once prepended. -/
def overflowingAssets : List (Asset ℕ ℕ) :=
  [⟨⟨0, ⟨[5], by decide⟩, zero_lt_256⟩, .fungible 1⟩,
    ⟨⟨0, ⟨[1, 1, 1, 1, 1, 1, 1, 1], by decide⟩, zero_lt_256⟩, .fungible 1⟩]

theorem assets_reanchor_unsorted_or_partial :
    fromSortedAndDeduplicated collidingAssets = .ok collidingAssets ∧
      (Assets.reanchor 0 parentTarget pairContext collidingAssets).2 = .ok () ∧
      fromSortedAndDeduplicated (Assets.reanchor 0 parentTarget pairContext collidingAssets).1 = .error () ∧
      fromSortedAndDeduplicated overflowingAssets = .ok overflowingAssets ∧
      (Assets.reanchor 0 parentTarget pairContext overflowingAssets).2 = .error () ∧
      (Assets.reanchor 0 parentTarget pairContext overflowingAssets).1 ≠ overflowingAssets := by
  have hok : (Assets.reanchor 0 parentTarget pairContext collidingAssets).2 = .ok () := by decide
  -- both ids reanchor to the same location, so the sorted items are two equal assets
  have hsame : collidingAssets.map (fun a => (a.reanchor 0 parentTarget pairContext).1) =
      List.replicate 2 ⟨⟨0, ⟨[2, 5], by decide⟩, by decide⟩, .fungible 1⟩ := by decide
  have hsorted : (Assets.reanchor 0 parentTarget pairContext collidingAssets).1 =
      List.replicate 2 ⟨⟨0, ⟨[2, 5], by decide⟩, by decide⟩, .fungible 1⟩ := by
    have hperm := (Assets.reanchor_of_ok 0 parentTarget pairContext hok).1
    rw [hsame] at hperm
    exact List.perm_replicate.mp hperm
  refine ⟨by decide, hok, by rw [hsorted]; decide, by decide, by decide, ?_⟩
  -- the first item stays reanchored when the second fails
  decide

end PolkadotSdk.Xcm
