import Mathlib.Data.List.Perm.Basic
import Mathlib.Data.List.Sort

/-!
# Grouping keyed items in an ordered map

An ordered map with `compare` as its order is `Std.TreeMap K V compare`. The idiom
`map.entry(k).or_default()` followed by an update of the value is `modifyOrDefault`; folding
it over a list of keyed items groups the items by key, and a lookup after the fold sees the
items of its key in list order (`getElem?_foldl_modifyOrDefault`). Iterating the map visits
the keys in increasing order, so `toList` is the one key-sorted list of its entries
(`toList_eq_of_pairwise`). Cutting a keyed list into blocks of one key each, along distinct
keys that cover it, permutes it (`flatMap_filter_perm`), and sorts it by key when its keys
are distinct and the blocks come in increasing order (`flatMap_filter_eq_mergeSort`).
-/

namespace PolkadotSdk.GroupBy

variable {K V γ δ : Type} [LinearOrder K]

/-! ## Keyed lists -/

/-- The items of a keyed list that have key `k`, in list order. -/
def valuesAt (l : List (K × γ)) (k : K) : List γ := (l.filter fun e => e.1 = k).map (·.2)

@[simp] theorem valuesAt_nil (k : K) : valuesAt ([] : List (K × γ)) k = [] := rfl

theorem valuesAt_cons (e : K × γ) (l : List (K × γ)) (k : K) :
    valuesAt (e :: l) k = if e.1 = k then e.2 :: valuesAt l k else valuesAt l k := by
  by_cases h : e.1 = k <;> simp [valuesAt, h]

theorem valuesAt_flatMap (l : List δ) (f : δ → List (K × γ)) (k : K) :
    valuesAt (l.flatMap f) k = l.flatMap fun x => valuesAt (f x) k := by
  simp [valuesAt, List.filter_flatMap, List.map_flatMap]

/-- Relabelling the items keeps their keys. -/
theorem valuesAt_map_snd (l : List (K × γ)) (g : γ → δ) (k : K) :
    valuesAt (l.map fun e => (e.1, g e.2)) k = (valuesAt l k).map g := by
  simp [valuesAt, List.filter_map, Function.comp_def]

/-- Items that all carry the key `k'`. -/
theorem valuesAt_map_mk (k' : K) (l : List γ) (k : K) :
    valuesAt (l.map (Prod.mk k')) k = if k' = k then l else [] := by
  by_cases h : k' = k <;> simp [valuesAt, List.filter_map, Function.comp_def, h]

theorem map_mk_valuesAt (l : List (K × γ)) (k : K) :
    (valuesAt l k).map (Prod.mk k) = l.filter fun e => e.1 = k := by
  induction l with
  | nil => rfl
  | cons e l ih =>
    rw [valuesAt_cons, List.filter_cons]
    by_cases h : e.1 = k
    · subst h
      simp [ih]
    · simp [h, ih]

theorem mem_valuesAt_of_mem {l : List (K × γ)} {e : K × γ} (he : e ∈ l) : e.2 ∈ valuesAt l e.1 :=
  List.mem_map_of_mem (List.mem_filter.mpr ⟨he, decide_eq_true rfl⟩)

theorem valuesAt_eq_nil_iff (l : List (K × γ)) (k : K) : valuesAt l k = [] ↔ ∀ e ∈ l, e.1 ≠ k := by
  simp [valuesAt, List.filter_eq_nil_iff]

/-- In a list whose elements have distinct labels `f`, the blocks chosen by label `k` are
the block of the one element labelled `k`. -/
theorem flatMap_ite_of_mem {l : List δ} {f : δ → K} (hl : (l.map f).Nodup) (F : δ → List γ)
    {x : δ} (hx : x ∈ l) : (l.flatMap fun y => if f y = f x then F y else []) = F x := by
  induction l with
  | nil => simp at hx
  | cons y l ih =>
    obtain ⟨hy, hl⟩ := List.nodup_cons.mp hl
    rw [List.flatMap_cons]
    rcases List.mem_cons.mp hx with rfl | hx
    · have hrest : (l.flatMap fun z => if f z = f x then F z else []) = [] := by
        refine List.flatMap_eq_nil_iff.mpr fun z hz => if_neg fun h => hy ?_
        exact h ▸ List.mem_map_of_mem hz
      rw [if_pos rfl, hrest, List.append_nil]
    · have hne : f y ≠ f x := fun h => hy (h ▸ List.mem_map_of_mem hx)
      rw [if_neg hne, ih hl hx, List.nil_append]

theorem flatMap_ite_of_forall_ne {l : List δ} {f : δ → K} (F : δ → List γ) {k : K}
    (h : ∀ y ∈ l, f y ≠ k) : (l.flatMap fun y => if f y = k then F y else []) = [] :=
  List.flatMap_eq_nil_iff.mpr fun y hy => if_neg (h y hy)

/-! ## Regrouping along keys -/

/-- Cutting a list into the blocks of each key, along distinct keys that cover it, permutes
it: each item lands in the block of its own key, once. -/
theorem flatMap_filter_perm {ks : List K} (hks : ks.Nodup) {l : List (K × γ)} (hl : ∀ e ∈ l, e.1 ∈ ks) :
    (ks.flatMap fun k => l.filter fun e => e.1 = k).Perm l := by
  induction ks generalizing l with
  | nil =>
    have : l = [] := List.eq_nil_iff_forall_not_mem.mpr fun e he => by simpa using hl e he
    simp [this]
  | cons k ks ih =>
    obtain ⟨hk, hks⟩ := List.nodup_cons.mp hks
    -- the later blocks only see the items whose key is not `k`
    have hrest : (ks.flatMap fun k' => l.filter fun e => e.1 = k') =
        ks.flatMap fun k' => (l.filter fun e => !decide (e.1 = k)).filter fun e => e.1 = k' := by
      refine List.flatMap_congr fun k' hk' => ?_
      rw [List.filter_filter]
      refine List.filter_congr fun e _ => ?_
      by_cases he : e.1 = k' <;> simp [he, show k' ≠ k from fun h => hk (h ▸ hk')]
    rw [List.flatMap_cons, hrest]
    refine (List.Perm.append_left _ (ih hks fun e he => ?_)).trans (List.filter_append_perm _ l)
    obtain ⟨he, hne⟩ := List.mem_filter.mp he
    rcases List.mem_cons.mp (hl e he) with h | h
    · simp [h] at hne
    · exact h

/-- Two orders of the same items that are both sorted by a label are equal when the labels
are distinct. -/
theorem eq_of_perm_of_pairwise_le {f : δ → K} {l l' : List δ} (hp : l.Perm l')
    (hl : l.Pairwise fun a b => f a ≤ f b) (hl' : l'.Pairwise fun a b => f a ≤ f b)
    (hnd : (l.map f).Nodup) : l = l' :=
  hp.eq_of_pairwise (fun _ _ ha hb hab hba =>
    List.inj_on_of_nodup_map hnd ha (hp.mem_iff.mpr hb) (le_antisymm hab hba)) hl hl'

/-- Sorting by a label sorts by that label. -/
theorem pairwise_mergeSort_le (f : δ → K) (l : List δ) :
    (l.mergeSort fun a b => f a ≤ f b).Pairwise fun a b => f a ≤ f b := by
  have h := @List.pairwise_mergeSort _ (fun a b => decide (f a ≤ f b))
    (fun _ _ _ hab hbc => by simp only [decide_eq_true_eq] at *; exact hab.trans hbc)
    (fun a b => by simpa using le_total (f a) (f b)) l
  simpa using h

/-- Cutting a list with distinct keys into blocks along increasing keys that cover it sorts
it by key. -/
theorem flatMap_filter_eq_mergeSort {ks : List K} (hks : ks.Pairwise (· < ·)) {l : List (K × γ)}
    (hl : ∀ e ∈ l, e.1 ∈ ks) (hnd : (l.map (·.1)).Nodup) :
    (ks.flatMap fun k => l.filter fun e => e.1 = k) = l.mergeSort fun a b => a.1 ≤ b.1 := by
  have hperm := flatMap_filter_perm (hks.imp ne_of_lt) hl
  -- a block holds one key, and the blocks' keys increase
  have hsorted : (ks.flatMap fun k => l.filter fun e => e.1 = k).Pairwise fun a b => a.1 ≤ b.1 := by
    refine List.pairwise_flatMap.mpr ⟨fun k _ => ?_, hks.imp fun hkk' a ha b hb => ?_⟩
    · refine List.Pairwise.imp_of_mem (fun ha hb _ => ?_) (List.pairwise_of_forall (R := fun _ _ => True)
        fun _ _ => trivial)
      rw [(of_decide_eq_true (List.mem_filter.mp ha).2 : _ = k),
        (of_decide_eq_true (List.mem_filter.mp hb).2 : _ = k)]
    · rw [(of_decide_eq_true (List.mem_filter.mp ha).2), (of_decide_eq_true (List.mem_filter.mp hb).2)]
      exact hkk'.le
  exact eq_of_perm_of_pairwise_le (hperm.trans (List.mergeSort_perm l _).symm) hsorted
    (pairwise_mergeSort_le (·.1) l) (hperm.map _ |>.nodup_iff.mpr hnd)

/-! ## The map -/

/-- `map.entry(k).or_default()` followed by `f` on the value. -/
def modifyOrDefault (m : Std.TreeMap K V compare) (k : K) (d : V) (f : V → V) : Std.TreeMap K V compare :=
  m.alter k fun v => some (f (v.getD d))

theorem getElem?_modifyOrDefault (m : Std.TreeMap K V compare) (k k' : K) (d : V) (f : V → V) :
    (modifyOrDefault m k d f)[k']? = if k = k' then some (f (m[k]?.getD d)) else m[k']? := by
  simp only [modifyOrDefault, Std.TreeMap.getElem?_alter, compare_eq_iff_eq]

/-- Folding `entry().or_default()` over keyed items: the value at `k` is the one already
there, or the default, updated by the items of key `k` in order. -/
theorem getElem?_foldl_modifyOrDefault (l : List (K × γ)) (m : Std.TreeMap K V compare) (d : V)
    (step : V → γ → V) (k : K) :
    (l.foldl (fun m e => modifyOrDefault m e.1 d (step · e.2)) m)[k]? =
      if valuesAt l k = [] then m[k]? else some ((valuesAt l k).foldl step (m[k]?.getD d)) := by
  induction l generalizing m with
  | nil => simp
  | cons e l ih =>
    rw [List.foldl_cons, ih, getElem?_modifyOrDefault, valuesAt_cons]
    by_cases he : e.1 = k
    · subst he
      split <;> simp_all
    · simp [he]

theorem pairwise_toList (m : Std.TreeMap K V compare) : m.toList.Pairwise fun a b => a.1 < b.1 :=
  m.ordered_keys_toList.imp compare_lt_iff_lt.mp

theorem pairwise_keys (m : Std.TreeMap K V compare) : m.keys.Pairwise (· < ·) :=
  m.ordered_keys.imp compare_lt_iff_lt.mp

/-- The entries of the map in increasing order of keys. -/
theorem toList_eq_of_pairwise {m : Std.TreeMap K V compare} {l : List (K × V)}
    (hl : l.Pairwise fun a b => a.1 < b.1) (h : ∀ k v, (k, v) ∈ l ↔ m[k]? = some v) : m.toList = l := by
  have hnd : ∀ {l : List (K × V)}, (l.Pairwise fun a b => a.1 < b.1) → (l.map (·.1)).Nodup :=
    fun h => List.pairwise_map.mpr (h.imp ne_of_lt)
  have hperm : m.toList.Perm l := by
    refine (List.perm_ext_iff_of_nodup (List.Nodup.of_map _ (hnd (pairwise_toList m)))
      (List.Nodup.of_map _ (hnd hl))).mpr fun e => ?_
    rw [h, Std.TreeMap.mem_toList_iff_getElem?_eq_some]
  exact eq_of_perm_of_pairwise_le (f := (·.1)) hperm ((pairwise_toList m).imp le_of_lt) (hl.imp le_of_lt)
    (hnd (pairwise_toList m))

theorem mem_keys_of_getElem? {m : Std.TreeMap K V compare} {k : K} {v : V} (h : m[k]? = some v) : k ∈ m.keys := by
  rw [← Std.TreeMap.map_fst_toList_eq_keys]
  exact List.mem_map_of_mem (f := (·.1)) (Std.TreeMap.mem_toList_iff_getElem?_eq_some.mpr h)

end PolkadotSdk.GroupBy
