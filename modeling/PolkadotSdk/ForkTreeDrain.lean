import PolkadotSdk.ForkTreeWF

/-!
# `drain_filter` keeps a fork tree well formed

`drain_filter` flattens the tree breadth first into a list of retained nodes, each with
the position of its retained parent, and rebuilds the forest by popping that list from
the end. Throughout, every subtree the run holds has a place it will hang from: a
retained node's current children hang from its position, retained and queued subtrees
from the parent they recorded, and the rebuilt roots from the top. The invariant
`DrainInv` says that subtrees hanging from one place are unrelated and strictly below the
node there, and that parents come before their children in the list. Each step of either
phase keeps it, and with the list empty it is the well-formedness of the rebuilt roots.
-/

namespace PolkadotSdk
namespace ForkTree

open Node TreeOrder

variable {H N V : Type}

/-- The children of each retained node, under the node's position from `k` on. -/
def childSlots : ℕ → List (Option ℕ × Node H N V) → List (Option ℕ × Node H N V)
  | _, [] => []
  | k, (_, n) :: E => n.children.map (fun c => (some k, c)) ++ childSlots (k + 1) E

/-- Every subtree a `drain_filter` run holds, under the place it will hang from. -/
def slots (E P : List (Option ℕ × Node H N V)) : List (Option ℕ × Node H N V) :=
  childSlots 0 E ++ E ++ P

/-- The place and the root hash of a held subtree. -/
def slotKey (a : Option ℕ × Node H N V) : Option ℕ × H := (a.1, a.2.hash)

theorem childSlots_append (k : ℕ) (E : List (Option ℕ × Node H N V)) (e : Option ℕ × Node H N V) :
    childSlots k (E ++ [e]) = childSlots k E ++ e.2.children.map (fun c => (some (k + E.length), c)) := by
  induction E generalizing k with
  | nil => simp [childSlots]
  | cons e' E ih =>
    obtain ⟨q, m⟩ := e'
    simp [childSlots, ih, Nat.add_assoc, Nat.add_comm 1]

theorem mem_childSlots {k : ℕ} {E : List (Option ℕ × Node H N V)} {a : Option ℕ × Node H N V}
    (ha : a ∈ childSlots k E) : ∃ j e, E[j]? = some e ∧ a.1 = some (k + j) ∧ a.2 ∈ e.2.children := by
  induction E generalizing k with
  | nil => simp [childSlots] at ha
  | cons e E ih =>
    obtain ⟨q, m⟩ := e
    rcases List.mem_append.mp ha with ha | ha
    · obtain ⟨c, hc, rfl⟩ := List.mem_map.mp ha
      exact ⟨0, (q, m), rfl, rfl, hc⟩
    · obtain ⟨j, e, he, h1, h2⟩ := ih ha
      exact ⟨j + 1, e, by simpa using he, by rw [h1]; congr 1; omega, h2⟩

/-- Attaching `n` to the children of the retained node at `i`. -/
theorem childSlots_modify_perm {n : Node H N V} {f : Option ℕ × Node H N V → Option ℕ × Node H N V}
    (hf : ∀ q m, f (q, m) = (q, { m with children := m.children ++ [n] })) :
    ∀ {k i : ℕ} {E : List (Option ℕ × Node H N V)}, i < E.length →
      (childSlots k (E.modify i f)).Perm (childSlots k E ++ [(some (k + i), n)])
  | _, _, [], hi => by simp at hi
  | k, 0, (q, m) :: E, _ => by
    rw [List.modify_zero_cons, hf]
    simp only [childSlots, List.map_append, List.map_cons, List.map_nil, List.append_assoc, Nat.add_zero]
    exact List.perm_append_comm.append_left _
  | k, i + 1, (q, m) :: E, hi => by
    rw [List.modify_succ_cons]
    simp only [childSlots, List.append_assoc]
    have := @childSlots_modify_perm n f hf (k + 1) i E (by simpa using hi)
    rw [show k + (i + 1) = k + 1 + i by omega]
    exact this.append_left _

variable [LinearOrder N] {o : BlockTree H N}

/-- Two held subtrees under the same place are unrelated. -/
def SlotRel (o : BlockTree H N) (a b : Option ℕ × H) : Prop := a.1 = b.1 → o.Unrelated a.2 b.2

theorem SlotRel.symm {a b : Option ℕ × H} (h : SlotRel o a b) : SlotRel o b a :=
  fun he => (h he.symm).symm

/-- The invariant of a `drain_filter` run with retained list `E` and pending subtrees `P`. -/
structure DrainInv (o : BlockTree H N) (E P : List (Option ℕ × Node H N V)) : Prop where
  unrelated : ((slots E P).map slotKey).Pairwise (SlotRel o)
  below : ∀ a ∈ slots E P, ∀ j, a.1 = some j → ∃ e, E[j]? = some e ∧ o.lt e.2.hash a.2.hash
  parent_lt : ∀ (k : ℕ) (e : Option ℕ × Node H N V), E[k]? = some e → ∀ j, e.1 = some j → j < k
  retained : ∀ e ∈ E, e.2.number = o.num e.2.hash ∧ ∀ c ∈ e.2.children, c.WF o
  pending : ∀ a ∈ P, a.2.WF o

namespace DrainInv

variable {E P : List (Option ℕ × Node H N V)}

/-- The invariant at the start of a run: every root is pending, hanging from the top. -/
theorem init {roots : List (Node H N V)} (h : ForestWF o roots) :
    DrainInv o ([] : List (Option ℕ × Node H N V)) (roots.map fun r => (none, r)) := by
  refine ⟨?_, ?_, ?_, ?_, ?_⟩
  · simp only [slots, childSlots, List.nil_append, List.map_map, List.pairwise_map]
    refine h.2.imp ?_
    intro a b hab _
    exact hab
  · intro a ha j hj
    simp only [slots, childSlots, List.nil_append, List.mem_map] at ha
    obtain ⟨r, -, rfl⟩ := ha
    cases hj
  · intro k e he
    simp at he
  · intro e he
    simp at he
  · intro a ha
    obtain ⟨r, hr, rfl⟩ := List.mem_map.mp ha
    exact h.of_mem hr

theorem slot_ne_length (h : DrainInv o E P) {a : Option ℕ × Node H N V} (ha : a ∈ slots E P) :
    a.1 ≠ some E.length := by
  intro he
  obtain ⟨e, he', -⟩ := h.below a ha _ he
  simp at he'

/-- A block of subtrees under a fresh place can join held subtrees. -/
theorem pairwise_append_block {L B : List (Option ℕ × Node H N V)} {k : ℕ}
    (hL : (L.map slotKey).Pairwise (SlotRel o)) (hLk : ∀ a ∈ L, a.1 ≠ some k) (hB : ∀ b ∈ B, b.1 = some k)
    (hBp : (B.map Prod.snd).Pairwise fun a b => o.Unrelated a.hash b.hash) :
    ((L ++ B).map slotKey).Pairwise (SlotRel o) := by
  rw [List.map_append, List.pairwise_append]
  refine ⟨hL, ?_, ?_⟩
  · rw [List.pairwise_map] at hBp ⊢
    refine hBp.imp ?_
    intro a b hab _
    exact hab
  · intro x hx y hy
    obtain ⟨a, ha, rfl⟩ := List.mem_map.mp hx
    obtain ⟨b, hb, rfl⟩ := List.mem_map.mp hy
    intro he
    exact absurd (he.trans (hB b hb)) (hLk a ha)

/-- Retaining the first pending subtree as `n'`, with the children of `n` split between
those `n'` keeps and the pending subtrees `R` under the new position. -/
theorem retain {p : Option ℕ} {n n' : Node H N V} {R : List (Option ℕ × Node H N V)}
    (h : DrainInv o E ((p, n) :: P)) (hh : n'.hash = n.hash) (hnum : n'.number = n.number)
    (hR : ∀ a ∈ R, a.1 = some E.length) (hperm : (n'.children ++ R.map Prod.snd).Perm n.children) :
    DrainInv o (E ++ [(p, n')]) (P ++ R) := by
  have hn : n.WF o := h.pending _ List.mem_cons_self
  have hsub : ∀ c ∈ n'.children ++ R.map Prod.snd, c ∈ n.children := fun c hc => hperm.subset hc
  have hlift : ∀ {j e}, E[j]? = some e → (E ++ [(p, n')])[j]? = some e := fun he =>
    (List.getElem?_append_left (List.getElem?_eq_some_iff.mp he).1).trans he
  have hlast : (E ++ [(p, n')])[E.length]? = some (p, n') := List.getElem?_concat_length
  have hhead : (p, n) ∈ slots E ((p, n) :: P) := by simp [slots]
  have hmem : ∀ a ∈ childSlots 0 E ++ E ++ (p, n') :: P, a ∈ slots E ((p, n) :: P) ∨ a = (p, n') := by
    intro a ha
    simp only [slots, List.mem_append, List.mem_cons] at ha ⊢
    tauto
  let B := n'.children.map (fun c => (some E.length, c)) ++ R
  have hB : ∀ b ∈ B, b.1 = some E.length ∧ b.2 ∈ n.children := by
    intro b hb
    rcases List.mem_append.mp hb with hb | hb
    · obtain ⟨c, hc, rfl⟩ := List.mem_map.mp hb
      exact ⟨rfl, hsub c (List.mem_append_left _ hc)⟩
    · exact ⟨hR b hb, hsub b.2 (List.mem_append_right _ (List.mem_map_of_mem hb))⟩
  have hperm' : (slots (E ++ [(p, n')]) (P ++ R)).Perm ((childSlots 0 E ++ E ++ (p, n') :: P) ++ B) := by
    classical
    rw [slots, childSlots_append, Nat.zero_add, List.perm_iff_count]
    intro a
    simp only [B, List.count_append, List.count_cons, List.count_nil]
    omega
  refine ⟨?_, ?_, ?_, ?_, ?_⟩
  · have hL : ((childSlots 0 E ++ E ++ (p, n') :: P).map slotKey).Pairwise (SlotRel o) := by
      have hk : (childSlots 0 E ++ E ++ (p, n') :: P).map slotKey = (slots E ((p, n) :: P)).map slotKey := by
        simp [slots, slotKey, hh]
      rw [hk]
      exact h.unrelated
    have hLk : ∀ a ∈ childSlots 0 E ++ E ++ (p, n') :: P, a.1 ≠ some E.length := by
      intro a ha
      rcases hmem a ha with ha | rfl
      · exact h.slot_ne_length ha
      · exact (h.slot_ne_length hhead : (p, n).1 ≠ some E.length)
    have hBp : (B.map Prod.snd).Pairwise fun a b => o.Unrelated a.hash b.hash := by
      have hBs : B.map Prod.snd = n'.children ++ R.map Prod.snd := by simp [B, Function.comp_def]
      rw [hBs]
      exact (hperm.pairwise_iff Unrelated.symm).mpr hn.forest.2
    exact ((hperm'.map slotKey).pairwise_iff SlotRel.symm).mpr
      (pairwise_append_block hL hLk (fun b hb => (hB b hb).1) hBp)
  · intro a ha j hj
    rcases List.mem_append.mp (hperm'.subset ha) with ha | ha
    · rcases hmem a ha with ha | rfl
      · obtain ⟨e, he, hlt⟩ := h.below a ha j hj
        exact ⟨e, hlift he, hlt⟩
      · obtain ⟨e, he, hlt⟩ := h.below (p, n) hhead j hj
        exact ⟨e, hlift he, by rw [hh]; exact hlt⟩
    · obtain ⟨hs, hc⟩ := hB a ha
      rw [hs] at hj
      cases hj
      exact ⟨(p, n'), hlast, by rw [hh]; exact hn.lt_child hc⟩
  · intro k e he j hj
    rcases lt_or_ge k E.length with hk | hk
    · rw [List.getElem?_append_left hk] at he
      exact h.parent_lt k e he j hj
    · have hk' : k = E.length := by
        have := (List.getElem?_eq_some_iff.mp he).1
        simp at this
        omega
      subst hk'
      rw [hlast] at he
      cases he
      obtain ⟨e', he', -⟩ := h.below (p, n) hhead j hj
      exact (List.getElem?_eq_some_iff.mp he').1
  · intro e he
    rcases List.mem_append.mp he with he | he
    · exact h.retained e he
    · rw [List.mem_singleton.mp he]
      exact ⟨by rw [hnum, hh]; exact hn.number_eq, fun c hc => hn.forest.of_mem (hsub c (List.mem_append_left _ hc))⟩
  · intro a ha
    rcases List.mem_append.mp ha with ha | ha
    · exact h.pending a (List.mem_cons_of_mem _ ha)
    · exact hn.forest.of_mem (hB a (List.mem_append_right _ ha)).2

theorem remove {p : Option ℕ} {n : Node H N V} (h : DrainInv o E ((p, n) :: P)) : DrainInv o E P := by
  have hs : (slots E P).Sublist (slots E ((p, n) :: P)) := (List.sublist_cons_self _ _).append_left _
  exact ⟨h.unrelated.sublist (hs.map slotKey), fun a ha => h.below a (hs.subset ha), h.parent_lt,
    h.retained, fun a ha => h.pending a (List.mem_cons_of_mem _ ha)⟩

theorem keepTree {p : Option ℕ} {n : Node H N V} (h : DrainInv o E ((p, n) :: P)) :
    DrainInv o (E ++ [(p, n)]) P := by
  have h' := h.retain rfl rfl (fun a (ha : a ∈ ([] : List (Option ℕ × Node H N V))) => absurd ha List.not_mem_nil)
    (by simp)
  rw [List.append_nil] at h'
  exact h'

theorem keepNode {p : Option ℕ} {n : Node H N V} (h : DrainInv o E ((p, n) :: P)) :
    DrainInv o (E ++ [(p, { n with children := [] })]) (P ++ n.children.reverse.map fun c => (some E.length, c)) :=
  h.retain (rfl : ({ n with children := [] } : Node H N V).hash = n.hash) rfl
    (fun a ha => by obtain ⟨c, -, rfl⟩ := List.mem_map.mp ha; rfl)
    (by simp [Function.comp_def])

end DrainInv

omit [LinearOrder N] in
theorem Node.nodes_eq (n : Node H N V) : n.nodes = (n.hash, n.number, n.data) :: nodesList n.children := by
  cases n
  simp

/-- The nodes a `drain_filter` run holds: retained, pending and removed. -/
def drainNodes (E P : List (Option ℕ × Node H N V)) (removed : List (Node H N V)) : List (H × N × V) :=
  nodesList (E.map Prod.snd) ++ nodesList (P.map Prod.snd) ++ nodesList removed

theorem drainLevel_inv (filter : H → N → V → FilterAction) :
    ∀ (queue next E : List (Option ℕ × Node H N V)) (removed : List (Node H N V)),
      DrainInv o E (queue ++ next) →
        DrainInv o (drainLevel filter queue next E removed).2.1 (drainLevel filter queue next E removed).1 ∧
        (drainNodes (drainLevel filter queue next E removed).2.1 (drainLevel filter queue next E removed).1
          (drainLevel filter queue next E removed).2.2).Perm (drainNodes E (queue ++ next) removed)
  | [], next, E, removed, h => by simpa [drainLevel] using h
  | (p, n) :: queue, next, E, removed, h => by
    classical
    have hn := n.nodes_eq
    rw [List.cons_append] at h ⊢
    rw [drainLevel]
    split
    · have hrev := nodesList_perm (List.reverse_perm n.children)
      have h' := h.keepNode
      rw [List.append_assoc] at h'
      obtain ⟨hi, hp⟩ := drainLevel_inv filter queue _ _ removed h'
      refine ⟨hi, hp.trans ?_⟩
      rw [List.perm_iff_count]
      intro a
      simp only [drainNodes, List.map_append, List.map_cons, List.map_map, nodesList_append, nodesList_cons,
        nodesList_nil, List.count_append, hn, List.count_cons, List.count_nil, Function.comp_def, Node.nodes_mk,
        List.map_nil, List.map_id']
      have := hrev.count_eq a
      omega
    · obtain ⟨hi, hp⟩ := drainLevel_inv filter queue next _ removed h.keepTree
      refine ⟨hi, hp.trans ?_⟩
      rw [List.perm_iff_count]
      intro a
      simp only [drainNodes, List.map_append, List.map_cons, nodesList_append, nodesList_cons, nodesList_nil,
        List.map_nil, List.count_append, List.count_nil]
      omega
    · obtain ⟨hi, hp⟩ := drainLevel_inv filter queue next E (removed ++ [n]) h.remove
      refine ⟨hi, hp.trans ?_⟩
      rw [List.perm_iff_count]
      intro a
      simp only [drainNodes, List.map_append, List.map_cons, nodesList_append, nodesList_cons, nodesList_nil,
        List.count_append, List.count_nil]
      omega

theorem drainLevels_inv (filter : H → N → V → FilterAction) (queue E : List (Option ℕ × Node H N V))
    (removed : List (Node H N V)) (h : DrainInv o E queue) :
    DrainInv o (drainLevels filter queue E removed).1 [] ∧
      (drainNodes (drainLevels filter queue E removed).1 [] (drainLevels filter queue E removed).2).Perm
        (drainNodes E queue removed) := by
  fun_induction drainLevels filter queue E removed with
  | case1 => exact ⟨h, List.Perm.refl _⟩
  | case2 E removed q qs next E' removed' hlevel _ ih =>
    have hl := drainLevel_inv filter (q :: qs) [] E removed (by simpa using h)
    rw [hlevel] at hl
    obtain ⟨hi, hp⟩ := ih hl.1
    exact ⟨hi, hp.trans (by simpa using hl.2)⟩

namespace DrainInv

variable {E P : List (Option ℕ × Node H N V)}

/-- The last retained node is a well-formed subtree: nothing else will hang from it. -/
theorem last_wf {q : Option ℕ} {n : Node H N V} (h : DrainInv o (E ++ [(q, n)]) P) : n.WF o := by
  have hx : (q, n) ∈ E ++ [(q, n)] := List.mem_append_right _ List.mem_cons_self
  obtain ⟨hnum, hwf⟩ := h.retained _ hx
  have hC : (n.children.map fun c => (some E.length, c)).Sublist (slots (E ++ [(q, n)]) P) := by
    rw [slots, childSlots_append, Nat.zero_add, List.append_assoc, List.append_assoc]
    exact (List.sublist_append_left _ _).trans (List.sublist_append_right _ _)
  refine wf_iff.mpr ⟨hnum, fun c hc => ?_, hwf, ?_⟩
  · obtain ⟨e, he, hlt⟩ := h.below _ (hC.subset (List.mem_map_of_mem hc)) E.length rfl
    rw [List.getElem?_concat_length] at he
    cases he
    exact hlt
  · have hp := h.unrelated.sublist (hC.map slotKey)
    rw [List.map_map, List.pairwise_map] at hp
    exact hp.imp fun hab => hab rfl

/-- The places of the held subtrees other than the children of the last retained node
come before it. -/
theorem slot_lt_of_pop {q : Option ℕ} {n : Node H N V} (h : DrainInv o (E ++ [(q, n)]) P)
    (hP : ∀ a ∈ P, a.1 = none) {a : Option ℕ × Node H N V} (ha : a ∈ childSlots 0 E ++ E ++ [(q, n)] ++ P)
    {j : ℕ} (hj : a.1 = some j) : j < E.length := by
  have hlast : (E ++ [(q, n)])[E.length]? = some (q, n) := List.getElem?_concat_length
  simp only [List.mem_append, List.mem_singleton] at ha
  rcases ha with ((ha | ha) | rfl) | ha
  · obtain ⟨k, e, he, hk, -⟩ := mem_childSlots ha
    rw [hj, Nat.zero_add] at hk
    cases hk
    exact (List.getElem?_eq_some_iff.mp he).1
  · obtain ⟨k, hk⟩ := List.mem_iff_getElem?.mp ha
    have hk' := h.parent_lt k a (by rw [List.getElem?_append_left (List.getElem?_eq_some_iff.mp hk).1]; exact hk) j hj
    exact lt_trans hk' (List.getElem?_eq_some_iff.mp hk).1
  · exact h.parent_lt E.length _ hlast j hj
  · rw [hP a ha] at hj
    cases hj

omit [LinearOrder N] in
theorem slots_pop_sublist {q : Option ℕ} {n : Node H N V} :
    (childSlots 0 E ++ E ++ [(q, n)] ++ P).Sublist (slots (E ++ [(q, n)]) P) := by
  rw [slots, childSlots_append, Nat.zero_add]
  simp only [List.append_assoc]
  exact (List.sublist_append_right _ _).append_left _

/-- Popping a retained root. -/
theorem popRoot {n : Node H N V} (h : DrainInv o (E ++ [(none, n)]) P) (hP : ∀ a ∈ P, a.1 = none) :
    DrainInv o E (P ++ [(none, n)]) := by
  classical
  have hperm : (slots E (P ++ [(none, n)])).Perm (childSlots 0 E ++ E ++ [(none, n)] ++ P) := by
    rw [slots, List.perm_iff_count]
    intro a
    simp only [List.count_append]
    omega
  have hsub := hperm.subperm.trans slots_pop_sublist.subperm
  refine ⟨?_, ?_, ?_, ?_, ?_⟩
  · exact ((hperm.map slotKey).pairwise_iff SlotRel.symm).mpr (h.unrelated.sublist (slots_pop_sublist.map slotKey))
  · intro a ha j hj
    have ha' := hperm.subset ha
    obtain ⟨e, he, hlt⟩ := h.below a (slots_pop_sublist.subset ha') j hj
    rw [List.getElem?_append_left (h.slot_lt_of_pop hP ha' hj)] at he
    exact ⟨e, he, hlt⟩
  · intro k e he j hj
    exact h.parent_lt k e (by rw [List.getElem?_append_left (List.getElem?_eq_some_iff.mp he).1]; exact he) j hj
  · exact fun e he => h.retained e (List.mem_append_left _ he)
  · intro a ha
    rcases List.mem_append.mp ha with ha | ha
    · exact h.pending a ha
    · rw [List.mem_singleton.mp ha]
      exact h.last_wf

/-- Popping a retained node whose parent is retained at `i`: it joins the parent's children. -/
theorem popChild {i : ℕ} {n : Node H N V} {f : Option ℕ × Node H N V → Option ℕ × Node H N V}
    (hf : ∀ q m, f (q, m) = (q, { m with children := m.children ++ [n] }))
    (h : DrainInv o (E ++ [(some i, n)]) P) (hP : ∀ a ∈ P, a.1 = none) : DrainInv o (E.modify i f) P := by
  classical
  have hi : i < E.length := h.parent_lt E.length _ List.getElem?_concat_length i rfl
  have hkey : ∀ b, slotKey (f b) = slotKey b := by
    rintro ⟨q, m⟩
    rw [hf]
    rfl
  have hget : ∀ {j : ℕ} {a : Option ℕ × Node H N V}, (E.modify i f)[j]? = some a →
      ∃ b, E[j]? = some b ∧ (a = b ∨ a = f b) := by
    intro j a ha
    rw [List.getElem?_modify] at ha
    obtain ⟨b, hb, hab⟩ := Option.map_eq_some_iff.mp ha
    refine ⟨b, hb, ?_⟩
    split at hab
    · exact Or.inr hab.symm
    · exact Or.inl hab.symm
  have hlift : ∀ {j : ℕ} {e : Option ℕ × Node H N V}, E[j]? = some e →
      ∃ e', (E.modify i f)[j]? = some e' ∧ e'.2.hash = e.2.hash := by
    intro j e he
    rw [List.getElem?_modify, he]
    refine ⟨_, rfl, ?_⟩
    dsimp only
    split
    · exact congrArg Prod.snd (hkey e)
    · rfl
  have hmodkeys : (E.modify i f).map slotKey = E.map slotKey := by
    apply List.ext_getElem?
    intro j
    rw [List.getElem?_map, List.getElem?_map, List.getElem?_modify]
    cases E[j]? with
    | none => rfl
    | some b => by_cases hij : i = j <;> simp [hij, hkey]
  have hA : (slots (E.modify i f) P).Perm (childSlots 0 E ++ [(some i, n)] ++ E.modify i f ++ P) := by
    rw [slots]
    have := (@childSlots_modify_perm H N V n f hf 0 i E hi).append_right (E.modify i f)
    rw [Nat.zero_add] at this
    exact this.append_right P
  have hB : (childSlots 0 E ++ [(some i, n)] ++ E ++ P).Perm (childSlots 0 E ++ E ++ [(some i, n)] ++ P) := by
    rw [List.perm_iff_count]
    intro a
    simp only [List.count_append]
    omega
  have hAB : (childSlots 0 E ++ [(some i, n)] ++ E.modify i f ++ P).map slotKey =
      (childSlots 0 E ++ [(some i, n)] ++ E ++ P).map slotKey := by
    simp only [List.map_append, hmodkeys]
  have hbelow : ∀ a ∈ childSlots 0 E ++ E ++ [(some i, n)] ++ P, ∀ j, a.1 = some j →
      ∃ e, (E.modify i f)[j]? = some e ∧ o.lt e.2.hash a.2.hash := by
    intro a ha j hj
    obtain ⟨e, he, hlt⟩ := h.below a (slots_pop_sublist.subset ha) j hj
    rw [List.getElem?_append_left (h.slot_lt_of_pop hP ha hj)] at he
    obtain ⟨e', he', hh⟩ := hlift he
    exact ⟨e', he', by rw [hh]; exact hlt⟩
  refine ⟨?_, ?_, ?_, ?_, ?_⟩
  · rw [((hA.map slotKey).pairwise_iff SlotRel.symm), hAB, ((hB.map slotKey).pairwise_iff SlotRel.symm)]
    exact h.unrelated.sublist (slots_pop_sublist.map slotKey)
  · intro a ha j hj
    rcases List.mem_append.mp (hA.subset ha) with ha | ha
    · rcases List.mem_append.mp ha with ha | ha
      · exact hbelow a (hB.subset (List.mem_append_left _ (List.mem_append_left _ ha))) j hj
      · obtain ⟨k, hk⟩ := List.mem_iff_getElem?.mp ha
        obtain ⟨b, hb, hab⟩ := hget hk
        have hkb : slotKey a = slotKey b := by
          rcases hab with rfl | rfl
          · rfl
          · exact hkey b
        have hbm : b ∈ childSlots 0 E ++ E ++ [(some i, n)] ++ P := by
          simp only [List.mem_append]
          exact Or.inl (Or.inl (Or.inr (List.mem_of_getElem? hb)))
        have hj' : b.1 = some j := by rw [← hj]; exact (congrArg Prod.fst hkb).symm
        obtain ⟨e, he, hlt⟩ := hbelow b hbm j hj'
        exact ⟨e, he, by rw [show a.2.hash = b.2.hash from congrArg Prod.snd hkb]; exact hlt⟩
    · exact hbelow a (hB.subset (by simp only [List.mem_append] at ha ⊢; tauto)) j hj
  · intro k a ha j hj
    obtain ⟨b, hb, hab⟩ := hget ha
    have hb' : (E ++ [(some i, n)])[k]? = some b := by
      rw [List.getElem?_append_left (List.getElem?_eq_some_iff.mp hb).1]
      exact hb
    rcases hab with rfl | rfl
    · exact h.parent_lt k _ hb' j hj
    · exact h.parent_lt k b hb' j (by rw [← hj]; exact (congrArg Prod.fst (hkey b)).symm)
  · intro a ha
    obtain ⟨k, hk⟩ := List.mem_iff_getElem?.mp ha
    obtain ⟨b, hb, hab⟩ := hget hk
    have hbr := h.retained b (List.mem_append_left _ (List.mem_of_getElem? hb))
    rcases hab with rfl | rfl
    · exact hbr
    · obtain ⟨q, m⟩ := b
      rw [hf]
      refine ⟨hbr.1, fun c hc => ?_⟩
      rcases List.mem_append.mp hc with hc | hc
      · exact hbr.2 c hc
      · rw [List.mem_singleton.mp hc]
        exact h.last_wf
  · exact h.pending

end DrainInv

theorem nodesList_map_modify {E : List (Option ℕ × Node H N V)} {i : ℕ} {n : Node H N V}
    {f : Option ℕ × Node H N V → Option ℕ × Node H N V}
    (hf : ∀ q m, f (q, m) = (q, { m with children := m.children ++ [n] })) (hi : i < E.length) :
    (nodesList ((E.modify i f).map Prod.snd)).Perm (nodesList (E.map Prod.snd) ++ n.nodes) := by
  classical
  have hE : E = E.take i ++ E[i] :: E.drop (i + 1) := by rw [List.getElem_cons_drop, List.take_append_drop]
  rw [List.modify_eq_take_cons_drop hi]
  conv_rhs => rw [hE]
  obtain ⟨q, m⟩ := E[i]
  rw [hf, List.perm_iff_count]
  intro a
  simp only [List.map_append, List.map_cons, nodesList_append, nodesList_cons, List.count_append, Node.nodes_eq,
    List.count_cons, nodesList_nil, List.count_nil]
  omega

theorem rebuild_inv (E : List (Option ℕ × Node H N V)) (roots : List (Node H N V))
    (h : DrainInv o E (roots.map fun r => (none, r))) :
    ForestWF o (rebuild E roots) ∧ (nodesList (rebuild E roots)).Perm (nodesList roots ++ nodesList (E.map Prod.snd)) := by
  classical
  have hroots : ∀ roots : List (Node H N V), ∀ a ∈ roots.map (fun r => ((none : Option ℕ), r)), a.1 = none := by
    intro roots a ha
    obtain ⟨r, -, rfl⟩ := List.mem_map.mp ha
    rfl
  fun_induction rebuild E roots with
  | case1 roots =>
    -- with nothing retained, every held subtree is a root
    refine ⟨⟨fun r hr => h.pending _ (List.mem_map_of_mem hr), ?_⟩, by simp⟩
    have hu := h.unrelated
    simp only [slots, childSlots, List.nil_append, List.map_map, List.pairwise_map] at hu
    exact hu.imp fun hab => hab rfl
  | case2 E roots hne _ n hlast ih =>
    have hE := List.dropLast_append_getLast hne
    rw [hlast] at hE
    rw [← hE] at h
    obtain ⟨hw, hp⟩ := ih (by rw [List.map_append]; exact h.popRoot (hroots roots))
    refine ⟨hw, hp.trans ?_⟩
    conv_rhs => rw [← hE]
    rw [List.perm_iff_count]
    intro a
    simp only [List.map_append, List.map_cons, List.map_nil, nodesList_append, nodesList_cons, nodesList_nil,
      List.count_append, List.count_nil]
    omega
  | case3 E roots hne _ i n hlast ih =>
    have hE := List.dropLast_append_getLast hne
    rw [hlast] at hE
    rw [← hE] at h
    have hi : i < E.dropLast.length := h.parent_lt E.dropLast.length _ List.getElem?_concat_length i rfl
    obtain ⟨hw, hp⟩ := ih (h.popChild (by intro q m; rfl) (hroots roots))
    refine ⟨hw, hp.trans (((nodesList_map_modify (by intro q m; rfl) hi).append_left _).trans ?_)⟩
    conv_rhs => rw [← hE]
    simp

/-- `drain_filter` leaves a well-formed tree, and the nodes it keeps and those it removes
are the nodes the tree held. -/
theorem drainFilter_spec (filter : H → N → V → FilterAction) {t : ForkTree H N V} (ht : t.WF o) :
    (drainFilter filter t).2.WF o ∧
      (nodesList (drainFilter filter t).2.roots ++ nodesList (drainFilter filter t).1).Perm (nodesList t.roots) := by
  classical
  have h₀ := DrainInv.init (ht.perm (List.reverse_perm t.roots).symm)
  obtain ⟨hE, hp⟩ := drainLevels_inv filter _ [] [] h₀
  set r := drainLevels filter (t.roots.reverse.map fun n => (none, n)) [] []
  obtain ⟨hw, hq⟩ := rebuild_inv r.1 [] (by simpa using hE)
  -- the rebuilt roots and the removed subtrees hold what the reversed roots held
  have hall : (nodesList (rebuild r.1 []) ++ nodesList r.2).Perm (nodesList t.roots) := by
    refine ((hq.append_right _).trans ?_).trans (nodesList_perm (List.reverse_perm t.roots))
    simpa [drainNodes, List.map_map, Function.comp_def] using hp
  have hdef : drainFilter filter t = (r.2, if r.2.isEmpty then ⟨rebuild r.1 [], t.bestFinalizedNumber⟩
      else (⟨rebuild r.1 [], t.bestFinalizedNumber⟩ : ForkTree H N V).rebalance) := rfl
  rw [hdef]
  split
  · exact ⟨hw, hall⟩
  · have hreb := (nodesList_perm (sortByMaxDepth_perm _)).trans (nodesList_rebalanceList (rebuild r.1 []))
    have ht' : WF o (⟨rebuild r.1 [], t.bestFinalizedNumber⟩ : ForkTree H N V) := hw
    exact ⟨(WFSub.rebalance ht').1, (hreb.append_right _).trans hall⟩

theorem drainFilter_wfSub (filter : H → N → V → FilterAction) {t : ForkTree H N V} (ht : t.WF o) :
    WFSub o t (drainFilter filter t).2 := by
  obtain ⟨hw, hp⟩ := drainFilter_spec filter ht
  exact ⟨hw, (List.sublist_append_left _ _).subperm.trans hp.subperm⟩

end ForkTree
end PolkadotSdk
