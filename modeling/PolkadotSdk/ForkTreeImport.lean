import PolkadotSdk.ForkTreeWF

/-!
# Import keeps a fork tree well formed

With the ancestry oracle of a block tree, the search of `import` finds the deepest node
that is an ancestor of the imported block, or shows that no root is one. The block then
becomes a child of that node or a new root. When the block's number is its own and no
descendant of it is in the tree yet, which is the order of import the code asks for, the
tree stays well formed and gains exactly the imported node.
-/

namespace PolkadotSdk
namespace ForkTree

open Node TreeOrder

variable {H N V E : Type} [LinearOrder N]

/-- The node reached from `n` by an index path into the children. -/
def Node.descend : Node H N V → List ℕ → Option (Node H N V)
  | n, [] => some n
  | n, i :: p => n.children[i]? >>= fun c => c.descend p

omit [LinearOrder N] in
theorem nodeAt_cons (ns : List (Node H N V)) (i : ℕ) (p : List ℕ) :
    nodeAt ns (i :: p) = ns[i]? >>= fun n => n.descend p := by
  induction p generalizing ns i with
  | nil => simp [nodeAt, descend]
  | cons j p ih =>
    simp only [nodeAt, ih]
    cases ns[i]? <;> simp [descend]

section Search

variable (o : BlockTree H N) [DecidableRel o.lt] (hash : H) (number : N)

/-- `m` is an ancestor of `hash` and none of its children below `number` is one. -/
def DeepestAncestor (m : Node H N V) : Prop :=
  o.lt m.hash hash ∧ ∀ c ∈ m.children, c.number < number → ¬o.lt c.hash hash

mutual
/-- With a predicate every node passes, the search never climbs. -/
theorem probeNode_ne_climb : ∀ n : Node H N V,
    probeNode (o.isDescendentOf : H → H → Except E Bool) hash number (fun _ => true) n ≠ .ok .climb
  | ⟨h, k, d, cs⟩ => by
    have ih := probeChildren_ne_climb cs 0
    rw [probeNode]
    split
    · simp
    · simp
    · simp [Probe.atAncestor]
    · split <;> simp [Probe.atAncestor]
theorem probeChildren_ne_climb : ∀ (cs : List (Node H N V)) (i : ℕ),
    probeChildren (o.isDescendentOf : H → H → Except E Bool) hash number (fun _ => true) cs i ≠ .ok .climb
  | [], i => by simp [probeChildren]
  | c :: cs, i => by
    have ihn := probeNode_ne_climb c
    have ihl := probeChildren_ne_climb cs (i + 1)
    rw [probeChildren]
    split
    · split
      · simp
      · simp
      · contradiction
      · exact ihl
    · exact ihl
end

/-- A subtree the search misses does not start at an ancestor of `hash`. -/
theorem not_lt_of_probeNode_miss {n : Node H N V}
    (h : probeNode (o.isDescendentOf : H → H → Except E Bool) hash number (fun _ => true) n = .ok .miss) :
    ¬o.lt n.hash hash := by
  obtain ⟨k, m, d, cs⟩ := n
  rw [probeNode] at h
  split at h
  · simp at h
  · simp at h
  · simp [Probe.atAncestor] at h
  · split at h
    · simp [BlockTree.isDescendentOf] at *
    · simp [Probe.atAncestor] at h
    · rename_i hf
      simpa [BlockTree.isDescendentOf] using hf

/-- When the search misses all children, it missed each child below `number`. -/
theorem probeNode_miss_of_probeChildren_miss {cs : List (Node H N V)} {i : ℕ}
    (h : probeChildren (o.isDescendentOf : H → H → Except E Bool) hash number (fun _ => true) cs i = .ok .miss) :
    ∀ c ∈ cs, c.number < number →
      probeNode (o.isDescendentOf : H → H → Except E Bool) hash number (fun _ => true) c = .ok .miss := by
  induction cs generalizing i with
  | nil => simp
  | cons c' cs ih =>
    intro c hc hlt
    rw [probeChildren] at h
    split at h
    · split at h
      · simp at h
      · simp at h
      · simp at h
      · rename_i hc'
        rcases List.mem_cons.mp hc with rfl | hc
        · exact hc'
        · exact ih h c hc hlt
    · rename_i hge
      rcases List.mem_cons.mp hc with rfl | hc
      · exact absurd hlt hge
      · exact ih h c hc hlt

mutual
/-- A hit of the search below `n` is a path to a deepest ancestor of `hash`. -/
theorem probeNode_hit : ∀ (n : Node H N V) (p : List ℕ),
    probeNode (o.isDescendentOf : H → H → Except E Bool) hash number (fun _ => true) n = .ok (.hit p) →
      ∃ m, n.descend p = some m ∧ DeepestAncestor o hash number m
  | ⟨h, k, d, cs⟩, p, hp => by
    rw [probeNode] at hp
    split at hp
    · simp at hp
    · rename_i q hq
      obtain ⟨j, p', m, rfl, hm, hd⟩ := probeChildren_hit cs 0 q hq
      cases hp
      refine ⟨m, ?_, hd⟩
      rw [nodeAt_cons] at hm
      simpa [descend] using hm
    · exact absurd (by assumption) (probeChildren_ne_climb o hash number cs 0)
    · rename_i hmiss
      split at hp
      · simp at hp
      · rename_i htrue
        simp only [Probe.atAncestor, if_true, Except.ok.injEq, Probe.hit.injEq] at hp
        subst hp
        refine ⟨⟨h, k, d, cs⟩, rfl, ?_, fun c hc hlt => ?_⟩
        · simpa [BlockTree.isDescendentOf] using htrue
        · exact not_lt_of_probeNode_miss o hash number
            (probeNode_miss_of_probeChildren_miss o hash number hmiss c hc hlt)
      · simp at hp
/-- A hit of the search over siblings, the first at index `i`, is a path to a deepest
ancestor of `hash`. -/
theorem probeChildren_hit : ∀ (cs : List (Node H N V)) (i : ℕ) (q : List ℕ),
    probeChildren (o.isDescendentOf : H → H → Except E Bool) hash number (fun _ => true) cs i = .ok (.hit q) →
      ∃ j p m, q = (i + j) :: p ∧ nodeAt cs (j :: p) = some m ∧ DeepestAncestor o hash number m
  | [], i, q, hq => by simp [probeChildren] at hq
  | c :: cs, i, q, hq => by
    rw [probeChildren] at hq
    split at hq
    · split at hq
      · simp at hq
      · rename_i p hp
        obtain ⟨m, hm, hd⟩ := probeNode_hit c p hp
        cases hq
        exact ⟨0, p, m, rfl, by simpa [nodeAt_cons] using hm, hd⟩
      · simp at hq
      · obtain ⟨j, p, m, rfl, hm, hd⟩ := probeChildren_hit cs (i + 1) q hq
        exact ⟨j + 1, p, m, by rw [Nat.add_right_comm, Nat.add_assoc], by simpa [nodeAt_cons] using hm, hd⟩
    · obtain ⟨j, p, m, rfl, hm, hd⟩ := probeChildren_hit cs (i + 1) q hq
      exact ⟨j + 1, p, m, by rw [Nat.add_right_comm, Nat.add_assoc], by simpa [nodeAt_cons] using hm, hd⟩
end

theorem probeRoots_some : ∀ {rs : List (Node H N V)} {i : ℕ} {q : List ℕ},
    probeRoots (o.isDescendentOf : H → H → Except E Bool) hash number (fun _ => true) rs i = .ok (some q) →
      ∃ j p m, q = (i + j) :: p ∧ nodeAt rs (j :: p) = some m ∧ DeepestAncestor o hash number m
  | [], i, q, hq => by simp [probeRoots] at hq
  | r :: rs, i, q, hq => by
    rw [probeRoots] at hq
    split at hq
    · obtain ⟨j, p, m, rfl, hm, hd⟩ := probeRoots_some hq
      exact ⟨j + 1, p, m, by rw [Nat.add_right_comm, Nat.add_assoc], by simpa [nodeAt_cons] using hm, hd⟩
    · split at hq
      · simp at hq
      · rename_i p hp
        obtain ⟨m, hm, hd⟩ := probeNode_hit o hash number r p hp
        cases hq
        exact ⟨0, p, m, rfl, by simpa [nodeAt_cons] using hm, hd⟩
      · simp at hq
      · obtain ⟨j, p, m, rfl, hm, hd⟩ := probeRoots_some hq
        exact ⟨j + 1, p, m, by rw [Nat.add_right_comm, Nat.add_assoc], by simpa [nodeAt_cons] using hm, hd⟩

/-- When the search finds nothing, no root is an ancestor of `hash`. -/
theorem probeRoots_none (hnum : number = o.num hash) {rs : List (Node H N V)} {i : ℕ}
    (hn : ∀ r ∈ rs, r.number = o.num r.hash)
    (hq : probeRoots (o.isDescendentOf : H → H → Except E Bool) hash number (fun _ => true) rs i = .ok none) :
    ∀ r ∈ rs, ¬o.lt r.hash hash := by
  induction rs generalizing i with
  | nil => simp
  | cons r rs ih =>
    have hn' : ∀ r ∈ rs, r.number = o.num r.hash := fun r hr => hn r (List.mem_cons_of_mem _ hr)
    rw [probeRoots] at hq
    intro r' hr'
    rcases List.mem_cons.mp hr' with rfl | hr'
    · split at hq
      · rename_i hle
        intro hlt
        have hge : o.num hash ≤ o.num r'.hash := by
          rw [← hnum, ← hn r' List.mem_cons_self]
          exact hle
        exact absurd (o.num_lt hlt) (not_lt.mpr hge)
      · split at hq
        · simp at hq
        · simp at hq
        · exact absurd (by assumption) (probeNode_ne_climb o hash number r')
        · exact not_lt_of_probeNode_miss o hash number (by assumption)
    · split at hq
      · exact ih hn' hq r' hr'
      · split at hq
        · simp at hq
        · simp at hq
        · exact absurd (by assumption) (probeNode_ne_climb o hash number r)
        · exact ih hn' hq r' hr'

end Search

section Paths

variable {o : BlockTree H N}

theorem Node.WF.descend {n m : Node H N V} (h : n.WF o) :
    ∀ {p : List ℕ}, n.descend p = some m → m.WF o ∧ m.nodes.Sublist n.nodes
  | [], hp => by
    cases hp
    exact ⟨h, List.Sublist.refl _⟩
  | i :: p, hp => by
    obtain ⟨c, hc, hcm⟩ := Option.bind_eq_some_iff.mp hp
    have hmem := List.mem_of_getElem? hc
    obtain ⟨hm, hs⟩ := (h.forest.of_mem hmem).descend hcm
    exact ⟨hm, hs.trans ((nodes_sublist_nodesList hmem).trans (nodesList_children_sublist n))⟩

theorem ForestWF.nodeAt {ns : List (Node H N V)} {m : Node H N V} {i : ℕ} {p : List ℕ}
    (h : ForestWF o ns) (hp : nodeAt ns (i :: p) = some m) : m.WF o ∧ m.nodes.Sublist (nodesList ns) := by
  rw [nodeAt_cons] at hp
  obtain ⟨n, hn, hnm⟩ := Option.bind_eq_some_iff.mp hp
  have hmem := List.mem_of_getElem? hn
  obtain ⟨hm, hs⟩ := (h.of_mem hmem).descend hnm
  exact ⟨hm, hs.trans (nodes_sublist_nodesList hmem)⟩

omit [LinearOrder N] in
theorem eq_take_cons_drop {ns : List (Node H N V)} {i : ℕ} {n : Node H N V} (hi : ns[i]? = some n) :
    ns = ns.take i ++ n :: ns.drop (i + 1) := by
  obtain ⟨hlt, rfl⟩ := List.getElem?_eq_some_iff.mp hi
  rw [List.getElem_cons_drop, List.take_append_drop]

omit [LinearOrder N] in
theorem modify_eq_take_cons_drop {ns : List (Node H N V)} {i : ℕ} {n : Node H N V}
    (hi : ns[i]? = some n) (f : Node H N V → Node H N V) :
    ns.modify i f = ns.take i ++ f n :: ns.drop (i + 1) := by
  obtain ⟨hlt, rfl⟩ := List.getElem?_eq_some_iff.mp hi
  exact List.modify_eq_take_cons_drop hlt

/-- Replacing a subtree by a well-formed one with the same root hash. -/
theorem ForestWF.replace {A B : List (Node H N V)} {n n' : Node H N V} (h : ForestWF o (A ++ n :: B))
    (hn : n'.WF o) (hh : n'.hash = n.hash) : ForestWF o (A ++ n' :: B) := by
  refine ⟨fun x hx => ?_, ?_⟩
  · rcases List.mem_append.mp hx with hx | hx
    · exact h.of_mem (List.mem_append_left _ hx)
    · rcases List.mem_cons.mp hx with rfl | hx
      · exact hn
      · exact h.of_mem (List.mem_append_right _ (List.mem_cons_of_mem _ hx))
  · have hp := List.pairwise_map.mpr h.2
    rw [List.map_append, List.map_cons, ← hh, ← List.map_cons, ← List.map_append] at hp
    exact List.pairwise_map.mp hp

omit [LinearOrder N] in
theorem nodesList_replace_perm {A B : List (Node H N V)} {n n' : Node H N V} {extra : List (H × N × V)}
    (hf : n'.nodes.Perm (n.nodes ++ extra)) :
    (nodesList (A ++ n' :: B)).Perm (nodesList (A ++ n :: B) ++ extra) := by
  simp only [nodesList_append, nodesList_cons, List.append_assoc]
  exact ((hf.append_right _).trans (by
    rw [List.append_assoc]
    exact List.perm_append_comm.append_left _)).append_left _

/-- Pushing a child `c` below the node `m` that a path reaches. The root hashes stay, and the
nodes gain those of `c`. -/
theorem pushChildAt_spec {c m : Node H N V} (hc : c.WF o) (hlt : o.lt m.hash c.hash)
    (hu : ∀ x ∈ m.children, o.Unrelated x.hash c.hash) :
    ∀ (p : List ℕ) {ns : List (Node H N V)} {i : ℕ}, ForestWF o ns → nodeAt ns (i :: p) = some m →
      ForestWF o (pushChildAt c ns (i :: p)) ∧ (pushChildAt c ns (i :: p)).map Node.hash = ns.map Node.hash ∧
        (nodesList (pushChildAt c ns (i :: p))).Perm (nodesList ns ++ c.nodes) := by
  intro p
  induction p with
  | nil =>
    intro ns i h hm
    simp only [nodeAt] at hm
    have hwf := h.of_mem (List.mem_of_getElem? hm)
    have hm' : ({ m with children := m.children ++ [c] } : Node H N V).WF o := by
      refine wf_iff.mpr ⟨hwf.number_eq, fun x hx => ?_, hwf.forest.append ⟨by simpa using hc, by simp⟩ ?_⟩
      · rcases List.mem_append.mp hx with hx | hx
        · exact hwf.lt_child hx
        · rw [List.mem_singleton.mp hx]
          exact hlt
      · intro a ha b hb
        rw [List.mem_singleton.mp hb]
        exact hu a ha
    have hns := eq_take_cons_drop hm
    rw [pushChildAt, modify_eq_take_cons_drop hm]
    refine ⟨(hns ▸ h).replace hm' rfl, ?_, ?_⟩
    · conv_rhs => rw [hns]
      simp
    · conv_rhs => rw [hns]
      refine nodesList_replace_perm ?_
      obtain ⟨h', k, d, cs⟩ := m
      simp
  | cons j p ih =>
    intro ns i h hm
    rw [nodeAt_cons] at hm
    obtain ⟨n, hn, hnm⟩ := Option.bind_eq_some_iff.mp hm
    have hwf := h.of_mem (List.mem_of_getElem? hn)
    have hnm' : nodeAt n.children (j :: p) = some m := by rw [nodeAt_cons]; exact hnm
    obtain ⟨hf, hh, hperm⟩ := ih hwf.forest hnm'
    have hn' : ({ n with children := pushChildAt c n.children (j :: p) } : Node H N V).WF o := by
      refine wf_iff.mpr ⟨hwf.number_eq, fun x hx => ?_, hf⟩
      obtain ⟨y, hy, hxy⟩ : ∃ y ∈ n.children, y.hash = x.hash := by
        have : x.hash ∈ (pushChildAt c n.children (j :: p)).map Node.hash := List.mem_map_of_mem hx
        rw [hh] at this
        exact List.mem_map.mp this
      rw [← hxy]
      exact hwf.lt_child hy
    have hns := eq_take_cons_drop hn
    rw [pushChildAt, modify_eq_take_cons_drop hn]
    refine ⟨(hns ▸ h).replace hn' rfl, ?_, ?_⟩
    · conv_rhs => rw [hns]
      simp
    · conv_rhs => rw [hns]
      refine nodesList_replace_perm ?_
      obtain ⟨h', k, d, cs⟩ := n
      simpa using hperm
    · exact List.cons_ne_nil j p

omit [LinearOrder N] in
theorem Node.triple_mem_nodes (n : Node H N V) : (n.hash, n.number, n.data) ∈ n.nodes := by
  cases n
  simp

theorem triple_mem_nodesList {ns : List (Node H N V)} {n : Node H N V} (hn : n ∈ ns) :
    (n.hash, n.number, n.data) ∈ nodesList ns :=
  (nodes_sublist_nodesList hn).subset n.triple_mem_nodes

/-- A deepest ancestor of `hash` has no child that is an ancestor of it, below `number` or not. -/
theorem DeepestAncestor.not_lt_child {hash : H} {number : N} {m : Node H N V}
    (hd : DeepestAncestor o hash number m) (hm : m.WF o) (hnum : number = o.num hash)
    {x : Node H N V} (hx : x ∈ m.children) : ¬o.lt x.hash hash := by
  intro hlt
  by_cases hxn : x.number < number
  · exact hd.2 x hx hxn hlt
  · have hx' := (hm.forest.of_mem hx).number_eq
    rw [hx', hnum] at hxn
    exact hxn (o.num_lt hlt)

end Paths

section Import

variable [DecidableEq H] {o : BlockTree H N} [DecidableRel o.lt]

/-- `import` of a block whose number is its own and none of whose descendants is in the tree
keeps the tree well formed and adds at most the imported node. -/
theorem import_wf {t : ForkTree H N V} (ht : t.WF o) (hash : H) (number : N) (data : V)
    (hnum : number = o.num hash) (hdesc : ∀ x ∈ nodesList t.roots, ¬o.lt hash x.1) :
    (resultState («import» (o.isDescendentOf : H → H → Except E Bool) hash number data t)).WF o ∧
      (nodesList (resultState («import» (o.isDescendentOf : H → H → Except E Bool) hash number data t)).roots).Subperm
        (nodesList t.roots ++ [(hash, number, data)]) := by
  have hkeep : t.WF o ∧ (nodesList t.roots).Subperm (nodesList t.roots ++ [(hash, number, data)]) :=
    ⟨ht, (List.sublist_append_left _ _).subperm⟩
  have hnode : (⟨hash, number, data, []⟩ : Node H N V).WF o := wf_iff.mpr ⟨hnum, by simp, ForestWF.nil⟩
  have hrebal : ∀ t' : ForkTree H N V, t'.WF o →
      (nodesList t'.roots).Subperm (nodesList t.roots ++ [(hash, number, data)]) →
      t'.rebalance.WF o ∧ (nodesList t'.rebalance.roots).Subperm (nodesList t.roots ++ [(hash, number, data)]) :=
    fun t' hw hs => ⟨(WFSub.rebalance hw).1, (WFSub.rebalance hw).2.trans hs⟩
  unfold «import»
  split
  · exact hkeep
  · dsimp only
    split
    · exact hkeep
    · rename_i hfind
      split
      · exact hkeep
      · rename_i hdup
        have hroots := probeRoots_none o hash number hnum (fun r hr => (ht.of_mem hr).number_eq) hfind
        have hwf : ForestWF o (t.roots ++ [⟨hash, number, data, []⟩]) := by
          refine ht.append ⟨by simpa using hnode, by simp⟩ fun r hr b hb => ?_
          rw [List.mem_singleton.mp hb]
          refine ⟨fun he => hdup ?_, hroots r hr, hdesc _ (triple_mem_nodesList hr)⟩
          exact List.any_eq_true.mpr ⟨r, hr, by simpa using he⟩
        have hnodes : nodesList (t.roots ++ [⟨hash, number, data, []⟩]) = nodesList t.roots ++ [(hash, number, data)] := by
          simp
        split
        · exact hrebal _ hwf (hnodes ▸ List.Subperm.refl _)
        · exact ⟨hwf, hnodes ▸ List.Subperm.refl _⟩
    · rename_i path hfind
      split
      · exact hkeep
      · rename_i parent hparent
        split
        · exact hkeep
        · rename_i hdup
          obtain ⟨j, p, m, rfl, hm, hd⟩ := probeRoots_some o hash number hfind
          rw [Nat.zero_add, hm] at hparent
          have hmp := Option.some.inj hparent
          subst hmp
          obtain ⟨hmwf, hmsub⟩ := ht.nodeAt hm
          have hu : ∀ x ∈ m.children, o.Unrelated x.hash hash := by
            intro x hx
            refine ⟨fun he => hdup ?_, hd.not_lt_child hmwf hnum hx, hdesc (x.hash, x.number, x.data) ?_⟩
            · exact List.any_eq_true.mpr ⟨x, hx, by simpa using he⟩
            · exact hmsub.subset ((nodesList_children_sublist m).subset (triple_mem_nodesList hx))
          obtain ⟨hwf, -, hperm⟩ := pushChildAt_spec hnode hd.1 hu p ht hm
          rw [Nat.zero_add]
          have hsub : (nodesList (pushChildAt ⟨hash, number, data, []⟩ t.roots (j :: p))).Subperm
              (nodesList t.roots ++ [(hash, number, data)]) := by
            simpa using hperm.subperm
          split
          · exact hrebal _ hwf hsub
          · exact ⟨hwf, hsub⟩

end Import

end ForkTree
end PolkadotSdk
