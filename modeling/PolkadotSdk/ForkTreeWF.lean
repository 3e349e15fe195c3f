import Mathlib.Data.List.Flatten
import Mathlib.Data.List.Perm.Subperm
import PolkadotSdk.ForkTree
import PolkadotSdk.TreeOrder

/-!
# Well-formed fork trees

The shape a fork tree keeps over a block tree: each node carries its block's number,
each child is a strict descendant of its parent, and siblings, the roots included, are
unrelated. Hashes are then unique in the whole tree. The nodes of a tree are its
`(hash, number, data)` triples in pre-order; every operation other than `import` keeps
the shape and a sub-multiset of the nodes whatever its ancestry oracle answers.
-/

namespace PolkadotSdk
namespace ForkTree

/-- A block tree: the ancestry of block hashes, and block numbers that grow along it. -/
structure BlockTree (H N : Type) [LinearOrder N] extends TreeOrder H where
  num : H → N
  num_lt : ∀ {a b}, lt a b → num a < num b

variable {H N V E : Type}

namespace Node

mutual
/-- The `(hash, number, data)` triples of a subtree, in pre-order. -/
def nodes : Node H N V → List (H × N × V)
  | ⟨h, n, d, cs⟩ => (h, n, d) :: nodesList cs
/-- The triples of a forest. -/
def nodesList : List (Node H N V) → List (H × N × V)
  | [] => []
  | c :: cs => nodes c ++ nodesList cs
end

@[simp] theorem nodes_mk (h : H) (n : N) (d : V) (cs : List (Node H N V)) :
    nodes ⟨h, n, d, cs⟩ = (h, n, d) :: nodesList cs := by simp [nodes]

theorem nodesList_eq_flatMap (ns : List (Node H N V)) : nodesList ns = ns.flatMap nodes := by
  induction ns with
  | nil => simp [nodesList]
  | cons c cs ih => simp [nodesList, ih]

@[simp] theorem nodesList_nil : nodesList ([] : List (Node H N V)) = [] := rfl

@[simp] theorem nodesList_cons (c : Node H N V) (cs : List (Node H N V)) :
    nodesList (c :: cs) = c.nodes ++ nodesList cs := by simp [nodesList]

@[simp] theorem nodesList_append (xs ys : List (Node H N V)) :
    nodesList (xs ++ ys) = nodesList xs ++ nodesList ys := by
  simp [nodesList_eq_flatMap]

theorem mem_nodesList {x : H × N × V} {ns : List (Node H N V)} :
    x ∈ nodesList ns ↔ ∃ n ∈ ns, x ∈ n.nodes := by
  simp [nodesList_eq_flatMap]

theorem nodesList_sublist {xs ys : List (Node H N V)} (h : xs.Sublist ys) :
    (nodesList xs).Sublist (nodesList ys) := by
  simpa [nodesList_eq_flatMap] using h.flatMap nodes

theorem nodesList_perm {xs ys : List (Node H N V)} (h : xs.Perm ys) : (nodesList xs).Perm (nodesList ys) := by
  simpa [nodesList_eq_flatMap] using h.flatMap_right nodes

theorem nodes_sublist_nodesList {n : Node H N V} {ns : List (Node H N V)} (h : n ∈ ns) :
    n.nodes.Sublist (nodesList ns) := by
  simpa using nodesList_sublist (List.singleton_sublist.mpr h)

theorem nodesList_children_sublist (n : Node H N V) : (nodesList n.children).Sublist n.nodes := by
  cases n
  simp

end Node

open Node TreeOrder

theorem hash_rebalanceNode (n : Node H N V) : (rebalanceNode n).hash = n.hash := by
  cases n
  simp [rebalanceNode]

theorem rebalanceList_eq_map (ns : List (Node H N V)) : rebalanceList ns = ns.map rebalanceNode := by
  induction ns with
  | nil => simp [rebalanceList]
  | cons c cs ih => simp [rebalanceList, ih]

theorem sortByMaxDepth_perm (ns : List (Node H N V)) : (sortByMaxDepth ns).Perm ns :=
  List.perm_insertionSort _ _

mutual
theorem nodes_rebalanceNode : (n : Node H N V) → (rebalanceNode n).nodes.Perm n.nodes
  | ⟨h, k, d, cs⟩ => by
    simp only [rebalanceNode, nodes_mk]
    exact ((nodesList_perm (sortByMaxDepth_perm _)).trans (nodesList_rebalanceList cs)).cons _
theorem nodesList_rebalanceList : (ns : List (Node H N V)) → (nodesList (rebalanceList ns)).Perm (nodesList ns)
  | [] => by simp [rebalanceList]
  | c :: cs => by
    simp only [rebalanceList, nodesList_cons]
    exact (nodes_rebalanceNode c).append (nodesList_rebalanceList cs)
end

variable [LinearOrder N]

/-- `is_descendent_of` answered by the block tree: whether the first block is a strict
ancestor of the second. It never fails. -/
def BlockTree.isDescendentOf (o : BlockTree H N) [DecidableRel o.lt] (a b : H) : Except E Bool :=
  .ok (decide (o.lt a b))

/-- The tree a call leaves, whether it returned or failed. -/
def resultState {ε σ α : Type} : EStateM.Result ε σ α → σ
  | .ok _ s => s
  | .error _ s => s

/-- A well-formed subtree. -/
inductive Node.WF (o : BlockTree H N) : Node H N V → Prop
  | mk {h : H} {n : N} {d : V} {cs : List (Node H N V)} :
      n = o.num h → (∀ c ∈ cs, o.lt h c.hash) → (∀ c ∈ cs, Node.WF o c) →
      cs.Pairwise (fun a b => o.Unrelated a.hash b.hash) → Node.WF o ⟨h, n, d, cs⟩

/-- Well-formed subtrees whose roots are pairwise unrelated. -/
def ForestWF (o : BlockTree H N) (ns : List (Node H N V)) : Prop :=
  (∀ n ∈ ns, Node.WF o n) ∧ ns.Pairwise fun a b => o.Unrelated a.hash b.hash

/-- A well-formed fork tree. -/
def WF (o : BlockTree H N) (t : ForkTree H N V) : Prop := ForestWF o t.roots

variable {o : BlockTree H N}

theorem Node.wf_iff {n : Node H N V} :
    n.WF o ↔ n.number = o.num n.hash ∧ (∀ c ∈ n.children, o.lt n.hash c.hash) ∧ ForestWF o n.children := by
  constructor
  · rintro ⟨hn, hlt, hwf, hp⟩
    exact ⟨hn, hlt, hwf, hp⟩
  · obtain ⟨h, k, d, cs⟩ := n
    rintro ⟨hn, hlt, hwf, hp⟩
    exact .mk hn hlt hwf hp

namespace Node.WF

variable {n : Node H N V}

theorem number_eq (h : n.WF o) : n.number = o.num n.hash := (wf_iff.mp h).1

theorem lt_child (h : n.WF o) {c : Node H N V} (hc : c ∈ n.children) : o.lt n.hash c.hash :=
  (wf_iff.mp h).2.1 c hc

theorem forest (h : n.WF o) : ForestWF o n.children := (wf_iff.mp h).2.2

/-- Every node of a subtree is at or below its root. -/
theorem le_of_mem (h : n.WF o) : ∀ x ∈ n.nodes, o.le n.hash x.1 := by
  induction h with
  | @mk h k d cs _ hlt _ _ ih =>
    intro x hx
    rcases List.mem_cons.mp (nodes_mk h k d cs ▸ hx) with rfl | hx
    · exact le_refl _
    · obtain ⟨c, hc, hxc⟩ := mem_nodesList.mp hx
      exact le_of_lt (lt_of_lt_of_le (hlt c hc) (ih c hc x hxc))

/-- Every node of a subtree carries its block's number. -/
theorem number_of_mem (h : n.WF o) : ∀ x ∈ n.nodes, x.2.1 = o.num x.1 := by
  induction h with
  | @mk h k d cs hk _ _ _ ih =>
    intro x hx
    rcases List.mem_cons.mp (nodes_mk h k d cs ▸ hx) with rfl | hx
    · exact hk
    · obtain ⟨c, hc, hxc⟩ := mem_nodesList.mp hx
      exact ih c hc x hxc

end Node.WF

namespace ForestWF

variable {ns ms : List (Node H N V)}

theorem nil : ForestWF o ([] : List (Node H N V)) := ⟨by simp, List.Pairwise.nil⟩

theorem of_mem (h : ForestWF o ns) {n : Node H N V} (hn : n ∈ ns) : n.WF o := h.1 n hn

theorem sublist (h : ForestWF o ns) (hs : ms.Sublist ns) : ForestWF o ms :=
  ⟨fun n hn => h.1 n (hs.subset hn), h.2.sublist hs⟩

theorem perm (h : ForestWF o ns) (hp : ns.Perm ms) : ForestWF o ms :=
  ⟨fun n hn => h.1 n (hp.symm.subset hn), (hp.pairwise_iff Unrelated.symm).mp h.2⟩

theorem append (h₁ : ForestWF o ns) (h₂ : ForestWF o ms)
    (h : ∀ a ∈ ns, ∀ b ∈ ms, o.Unrelated a.hash b.hash) : ForestWF o (ns ++ ms) := by
  refine ⟨fun n hn => ?_, List.pairwise_append.mpr ⟨h₁.2, h₂.2, h⟩⟩
  rcases List.mem_append.mp hn with hn | hn
  · exact h₁.1 n hn
  · exact h₂.1 n hn

/-- The subtrees of two siblings share no hash. -/
theorem disjoint_hashes (h : ForestWF o ns) {a b : Node H N V} (ha : a ∈ ns) (hb : b ∈ ns)
    (hab : o.Unrelated a.hash b.hash) : (a.nodes.map Prod.fst).Disjoint (b.nodes.map Prod.fst) := by
  intro x hxa hxb
  obtain ⟨y, hy, rfl⟩ := List.mem_map.mp hxa
  obtain ⟨z, hz, hzy⟩ := List.mem_map.mp hxb
  have hla := (h.of_mem ha).le_of_mem y hy
  have hlb := (h.of_mem hb).le_of_mem z hz
  rw [hzy] at hlb
  exact hab.not_le_of_le hla hlb

end ForestWF

/-- Hashes are unique in a well-formed subtree. -/
theorem Node.WF.nodup {n : Node H N V} (h : n.WF o) : (n.nodes.map Prod.fst).Nodup := by
  induction h with
  | @mk h k d cs _ hlt hwf hp ih =>
    have hf : ForestWF o cs := ⟨hwf, hp⟩
    rw [nodes_mk, List.map_cons, List.nodup_cons, nodesList_eq_flatMap, List.map_flatMap]
    refine ⟨fun hmem => ?_, List.nodup_flatMap.mpr ⟨ih, hp.imp_of_mem fun ha hb hab => hf.disjoint_hashes ha hb hab⟩⟩
    obtain ⟨c, hc, hx⟩ := List.mem_flatMap.mp hmem
    obtain ⟨x, hx, hxh⟩ := List.mem_map.mp hx
    have := lt_of_lt_of_le (hlt c hc) ((hwf c hc).le_of_mem x hx)
    rw [hxh] at this
    exact o.irrefl h this

/-- Hashes are unique in a well-formed forest. -/
theorem ForestWF.nodup {ns : List (Node H N V)} (h : ForestWF o ns) :
    ((nodesList ns).map Prod.fst).Nodup := by
  rw [nodesList_eq_flatMap, List.map_flatMap]
  exact List.nodup_flatMap.mpr ⟨fun n hn => (h.of_mem hn).nodup,
    h.2.imp_of_mem fun ha hb hab => h.disjoint_hashes ha hb hab⟩

/-- `t'` is well formed and holds some of the nodes of `t`, each at most as often. -/
def WFSub (o : BlockTree H N) (t t' : ForkTree H N V) : Prop :=
  t'.WF o ∧ (nodesList t'.roots).Subperm (nodesList t.roots)

theorem WFSub.refl {t : ForkTree H N V} (h : t.WF o) : WFSub o t t := ⟨h, List.Subperm.refl _⟩

theorem WFSub.trans {t t' t'' : ForkTree H N V} (h₁ : WFSub o t t') (h₂ : WFSub o t' t'') :
    WFSub o t t'' :=
  ⟨h₂.1, h₂.2.trans h₁.2⟩

/-- Keeping some of the roots. -/
theorem WFSub.of_sublist {roots roots' : List (Node H N V)} (h : ForestWF o roots)
    (hs : roots'.Sublist roots) (best best' : Option N) : WFSub o ⟨roots, best⟩ ⟨roots', best'⟩ :=
  ⟨ForestWF.sublist h hs, (nodesList_sublist hs).subperm⟩

/-- Making the children of a root the roots. -/
theorem WFSub.of_mem_roots {roots : List (Node H N V)} (h : ForestWF o roots) {node : Node H N V}
    (hn : node ∈ roots) (best best' : Option N) : WFSub o ⟨roots, best⟩ ⟨node.children, best'⟩ :=
  ⟨(ForestWF.of_mem h hn).forest, ((nodesList_children_sublist node).trans (nodes_sublist_nodesList hn)).subperm⟩

section Rebalance

/-- Rebalancing siblings that rebalance to well-formed subtrees. -/
theorem forestWF_sortByMaxDepth {ns : List (Node H N V)}
    (hp : ns.Pairwise fun a b => o.Unrelated a.hash b.hash) (hwf : ∀ n ∈ ns, (rebalanceNode n).WF o) :
    ForestWF o (sortByMaxDepth (rebalanceList ns)) := by
  have hf : ForestWF o (rebalanceList ns) := by
    rw [rebalanceList_eq_map]
    refine ⟨fun n hn => ?_, List.pairwise_map.mpr (by simpa only [hash_rebalanceNode] using hp)⟩
    obtain ⟨m, hm, rfl⟩ := List.mem_map.mp hn
    exact hwf m hm
  exact hf.perm (sortByMaxDepth_perm _).symm

theorem Node.WF.rebalanceNode {n : Node H N V} (h : n.WF o) : (rebalanceNode n).WF o := by
  induction h with
  | @mk h k d cs hk hlt _ hp ih =>
    simp only [ForkTree.rebalanceNode]
    refine wf_iff.mpr ⟨hk, fun c hc => ?_, forestWF_sortByMaxDepth hp ih⟩
    have hc' := (sortByMaxDepth_perm _).subset hc
    rw [rebalanceList_eq_map] at hc'
    obtain ⟨m, hm, rfl⟩ := List.mem_map.mp hc'
    rw [hash_rebalanceNode]
    exact hlt m hm

/-- Rebalancing keeps the shape and permutes the nodes. -/
theorem WFSub.rebalance {t : ForkTree H N V} (h : t.WF o) : WFSub o t t.rebalance :=
  ⟨forestWF_sortByMaxDepth h.2 fun _ hn => (h.of_mem hn).rebalanceNode,
    ((nodesList_perm (sortByMaxDepth_perm _)).trans (nodesList_rebalanceList _)).subperm⟩

end Rebalance

end ForkTree
end PolkadotSdk
