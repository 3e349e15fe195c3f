import PolkadotSdk.ForkTreeSearch

/-!
# What `prune` keeps and what it removes

`prune` re-roots the tree at the node `find_node_where` finds, then walks down the
ancestors of `hash`, keeping one child at each level, and at the last level keeps the
children that are `hash` or descend from it. Over a well-formed tree, the oracle of its
block tree and the block number of `hash`, what remains is the new root and exactly those
of its descendants that are ancestors of `hash`, `hash` itself or descendants of it; the
removed subtrees hold every other node, and `RemovedIterator` yields each of them once
(`prune_reroots`). Siblings are unrelated, so a child that is not related to `hash` has no
related node below it: that is why dropping whole subtrees loses nothing that should stay.

With a number that is not the block number of `hash`, the last level compares against the
wrong number and drops `hash` itself (`prune_drops_hash_of_other_number`).
-/

namespace PolkadotSdk
namespace ForkTree

open Node TreeOrder

variable {H N V E : Type}

theorem RemovedIterator.next_eq_none {it : RemovedIterator H N V} (h : it.next = none) : it.stack = [] := by
  unfold next at h
  split at h
  · exact List.getLast?_eq_none_iff.mp ‹_›
  · cases h

theorem RemovedIterator.next_eq_some {it it' : RemovedIterator H N V} {x : H × N × V}
    (h : it.next = some (x, it')) :
    ∃ node, it.stack = it.stack.dropLast ++ [node] ∧ x = (node.hash, node.number, node.data) ∧
      it'.stack = it.stack.dropLast ++ node.children.reverse := by
  unfold next at h
  split at h
  · cases h
  · rename_i node hlast
    cases h
    exact ⟨node, (List.dropLast_append_getLast? node hlast).symm, rfl, rfl⟩

/-- The iterator yields the removed subtrees in pre-order, the last pushed first. -/
theorem RemovedIterator.toList_eq (it : RemovedIterator H N V) : it.toList = nodesList it.stack.reverse := by
  fun_induction RemovedIterator.toList it with
  | case1 it h => simp [next_eq_none h]
  | case2 it x it' h _ ih =>
    obtain ⟨node, hstack, rfl, hstack'⟩ := next_eq_some h
    rw [ih, hstack', hstack, List.reverse_append, List.reverse_append, List.reverse_reverse]
    simp [Node.nodes_eq node]

/-- Detaching the node at a path takes its subtree out of the forest and leaves the rest. -/
theorem detachAt_of_nodeAt : ∀ {ns : List (Node H N V)} {p : List ℕ} {r : Node H N V},
    nodeAt ns p = some r → ∃ rest, detachAt ns p = some (r, rest) ∧ (nodesList ns).Perm (r.nodes ++ nodesList rest)
  | _, [], _, h => by simp [nodeAt] at h
  | ns, [i], r, h => by
    have hi : ns[i]? = some r := h
    obtain ⟨hlt, rfl⟩ := List.getElem?_eq_some_iff.mp hi
    exact ⟨ns.eraseIdx i, by simp [detachAt, hlt], nodesList_perm_eraseIdx hlt⟩
  | ns, i :: j :: p, r, h => by
    obtain ⟨c, hc, hcr⟩ := Option.bind_eq_some_iff.mp h
    obtain ⟨rest, hrest, hperm⟩ := detachAt_of_nodeAt hcr
    obtain ⟨hlt, rfl⟩ := List.getElem?_eq_some_iff.mp hc
    refine ⟨ns.set i { ns[i] with children := rest }, by simp [detachAt, hc, hrest], ?_⟩
    -- the detached node's parent keeps its other children
    have hparent : ns[i].nodes.Perm ({ ns[i] with children := rest }.nodes ++ r.nodes) := by
      rw [Node.nodes_eq ns[i], Node.nodes_eq { ns[i] with children := rest }, List.cons_append]
      exact List.Perm.cons _ (hperm.trans List.perm_append_comm)
    have hns := eq_take_cons_drop hc
    rw [List.set_eq_take_cons_drop _ hlt]
    conv_lhs => rw [hns]
    exact (nodesList_replace_perm hparent).trans List.perm_append_comm

variable [LinearOrder N]

section Walk

variable {o : BlockTree H N} {hash : H} {number : N}

variable (o hash number) in
/-- What the search for an ancestor child reports, the first child at index `i`. -/
def AncestorChildSpec (cs : List (Node H N V)) (i : ℕ) : Option ℕ → Prop
  | some j => ∃ k c, j = i + k ∧ cs[k]? = some c ∧ c.number < number ∧ o.lt c.hash hash
  | none => ∀ c ∈ cs, c.number < number → ¬o.lt c.hash hash

theorem AncestorChildSpec.cons {c : Node H N V} {cs : List (Node H N V)} {i : ℕ} {r : Option ℕ}
    (hskip : c.number < number → ¬o.lt c.hash hash) (h : AncestorChildSpec o hash number cs (i + 1) r) :
    AncestorChildSpec o hash number (c :: cs) i r := by
  cases r with
  | some j =>
    obtain ⟨k, c', rfl, hc', hlt, ha⟩ := h
    exact ⟨k + 1, c', by omega, by simpa using hc', hlt, ha⟩
  | none =>
    intro c' hc' hlt
    rcases List.mem_cons.mp hc' with rfl | hc'
    · exact hskip hlt
    · exact h c' hc' hlt

/-- Siblings of a child are unrelated to it. -/
theorem ForestWF.unrelated_eraseIdx {cs : List (Node H N V)} {i : ℕ} {c : Node H N V}
    (hf : ForestWF o cs) (hc : cs[i]? = some c) : ∀ s ∈ cs.eraseIdx i, o.Unrelated c.hash s.hash := by
  have hp := hf.2
  rw [eq_take_cons_drop hc, List.pairwise_append, List.pairwise_cons] at hp
  intro s hs
  rw [List.eraseIdx_eq_take_drop_succ, List.mem_append] at hs
  rcases hs with hs | hs
  · exact (hp.2.2 s hs c List.mem_cons_self).symm
  · exact hp.2.1.1 s hs

variable (o hash) in
/-- `n'` is `n` with only its nodes related to `hash` left, the others being in `extra`. -/
structure Pruned (n n' : Node H N V) (extra : List (Node H N V)) : Prop where
  hash_eq : n'.hash = n.hash
  number_eq : n'.number = n.number
  data_eq : n'.data = n.data
  perm : n.nodes.Perm (n'.nodes ++ nodesList extra)
  related : ∀ x ∈ n'.nodes, ¬o.Unrelated x.1 hash
  unrelated : ∀ x ∈ nodesList extra, o.Unrelated x.1 hash

/-- The nodes left are exactly those related to `hash`. -/
theorem Pruned.mem_iff {n n' : Node H N V} {extra : List (Node H N V)} (h : Pruned o hash n n' extra)
    (x : H × N × V) : x ∈ n'.nodes ↔ x ∈ n.nodes ∧ ¬o.Unrelated x.1 hash := by
  constructor
  · intro hx
    exact ⟨h.perm.symm.subset (List.mem_append_left _ hx), h.related x hx⟩
  · rintro ⟨hx, hrel⟩
    rcases List.mem_append.mp (h.perm.subset hx) with hx | hx
    · exact hx
    · exact absurd (h.unrelated x hx) hrel

/-- Keeping the child of an ancestor of `hash` that is itself one, pruned, and removing its
siblings. -/
theorem Pruned.withChild {n next next' : Node H N V} {i : ℕ} {extra : List (Node H N V)}
    (hn : n.WF o) (hanc : o.lt n.hash hash) (hnext : n.children[i]? = some next) (hnanc : o.lt next.hash hash)
    (h : Pruned o hash next next' extra) :
    Pruned o hash n { n with children := [next'] } (n.children.eraseIdx i ++ extra) := by
  obtain ⟨hlt, rfl⟩ := List.getElem?_eq_some_iff.mp hnext
  refine ⟨rfl, rfl, rfl, ?_, ?_, ?_⟩
  · -- move the kept child to the front, then replace its nodes by the pruned ones
    have hchildren := nodesList_perm_eraseIdx hlt
    rw [Node.nodes_eq n, Node.nodes_eq { n with children := [next'] }]
    simp only [nodesList_cons, nodesList_nil, List.append_nil, nodesList_append, List.cons_append]
    refine List.Perm.cons _ (hchildren.trans ?_)
    refine (h.perm.append_right _).trans ?_
    rw [List.append_assoc]
    exact List.Perm.append_left _ List.perm_append_comm
  · intro x hx
    rw [Node.nodes_eq { n with children := [next'] }] at hx
    simp only [nodesList_cons, nodesList_nil, List.append_nil, List.mem_cons] at hx
    rcases hx with rfl | hx
    · exact fun hu => hu.2.1 hanc
    · exact h.related x hx
  · intro x hx
    rw [nodesList_append, List.mem_append] at hx
    rcases hx with hx | hx
    · -- a sibling of an ancestor of `hash` is unrelated to it, and so is all below it
      obtain ⟨s, hs, hxs⟩ := mem_nodesList.mp hx
      have hsu : o.Unrelated s.hash hash := (hn.forest.unrelated_eraseIdx hnext s hs).of_lt hnanc
      have hsw : s.WF o := hn.forest.of_mem (List.mem_of_mem_eraseIdx hs)
      exact hsu.of_le_of_le (hsw.le_of_mem x hxs) (le_refl hash)
    · exact h.unrelated x hx

variable [DecidableRel o.lt]

/-- With the block tree's oracle the search for an ancestor child answers, and rightly. -/
theorem ancestorChild_spec (cs : List (Node H N V)) (i : ℕ) :
    ∃ r, ancestorChild (o.isDescendentOf : H → H → Except E Bool) hash number cs i = .ok r ∧
      AncestorChildSpec o hash number cs i r := by
  induction cs generalizing i with
  | nil => exact ⟨none, rfl, by simp [AncestorChildSpec]⟩
  | cons c cs ih =>
    obtain ⟨r, hr, hspec⟩ := ih (i + 1)
    by_cases hlt : c.number < number
    · by_cases ha : o.lt c.hash hash
      · refine ⟨some i, ?_, 0, c, rfl, rfl, hlt, ha⟩
        simp [ancestorChild, hlt, BlockTree.isDescendentOf, ha]
      · refine ⟨r, ?_, hspec.cons fun _ => ha⟩
        simp [ancestorChild, hlt, BlockTree.isDescendentOf, ha, hr]
    · refine ⟨r, ?_, hspec.cons fun h => absurd h hlt⟩
      simp [ancestorChild, hlt, hr]

theorem ancestorChild_eq_some {cs : List (Node H N V)} {i : ℕ}
    (h : ancestorChild (o.isDescendentOf : H → H → Except E Bool) hash number cs 0 = .ok (some i)) :
    ∃ c, cs[i]? = some c ∧ c.number < number ∧ o.lt c.hash hash := by
  obtain ⟨r, hr, hspec⟩ := @ancestorChild_spec H N V E _ o hash number _ cs 0
  rw [hr] at h
  cases h
  obtain ⟨k, c, hk, hc, hlt, hca⟩ := hspec
  rw [Nat.zero_add] at hk
  exact ⟨c, hk ▸ hc, hlt, hca⟩

theorem ancestorChild_eq_none {cs : List (Node H N V)}
    (h : ancestorChild (o.isDescendentOf : H → H → Except E Bool) hash number cs 0 = .ok none) :
    AncestorChildSpec o hash number cs 0 none := by
  obtain ⟨r, hr, hspec⟩ := @ancestorChild_spec H N V E _ o hash number _ cs 0
  rw [hr] at h
  cases h
  exact hspec

variable [DecidableEq H]

variable (o hash number) in
/-- The test of the last loop of `prune`: the child is `hash`, or a block above `number`
descending from it. -/
def keepsChild (c : Node H N V) : Bool :=
  decide (c.number = number ∧ c.hash = hash) || (decide (number < c.number) && decide (o.lt hash c.hash))

/-- With the block tree's oracle the last loop of `prune` splits the children by `keepsChild`. -/
theorem keepFinalizedChildren_eq (cs kept removed : List (Node H N V)) :
    keepFinalizedChildren (o.isDescendentOf : H → H → Except E Bool) hash number cs kept removed =
      .ok (removed ++ cs.filter (fun c => !keepsChild o hash number c)) (kept ++ cs.filter (keepsChild o hash number)) := by
  induction cs generalizing kept removed with
  | nil => simp [keepFinalizedChildren]
  | cons c cs ih =>
    by_cases h₁ : c.number = number ∧ c.hash = hash
    · have hk : keepsChild o hash number c = true := by simp [keepsChild, h₁]
      rw [keepFinalizedChildren, if_pos h₁, ih]
      simp [hk]
    · by_cases h₂ : number < c.number
      · by_cases h₃ : o.lt hash c.hash
        · have hk : keepsChild o hash number c = true := by simp [keepsChild, h₂, h₃]
          rw [keepFinalizedChildren, if_neg h₁, if_pos h₂, BlockTree.isDescendentOf, decide_eq_true h₃]
          simp [ih, hk]
        · have hk : keepsChild o hash number c = false := by simp [keepsChild, h₁, h₃]
          rw [keepFinalizedChildren, if_neg h₁, if_pos h₂, BlockTree.isDescendentOf, decide_eq_false h₃]
          simp [ih, hk]
      · have hk : keepsChild o hash number c = false := by simp [keepsChild, h₁, h₂]
        rw [keepFinalizedChildren, if_neg h₁, if_neg h₂, ih]
        simp [hk]

/-- Under the block number of `hash`, `prune` keeps a child at the last level exactly when
it is `hash` or descends from it. -/
theorem keepsChild_iff (hnum : number = o.num hash) {c : Node H N V} (hc : c.WF o) :
    keepsChild o hash number c = true ↔ o.le hash c.hash := by
  have hcn := hc.number_eq
  simp only [keepsChild, Bool.or_eq_true, Bool.and_eq_true, decide_eq_true_eq]
  constructor
  · rintro (⟨-, heq⟩ | ⟨-, hlt⟩)
    · exact Or.inl heq.symm
    · exact Or.inr hlt
  · rintro (heq | hlt)
    · exact Or.inl ⟨by rw [hcn, hnum, heq], heq.symm⟩
    · exact Or.inr ⟨by rw [hcn, hnum]; exact o.num_lt hlt, hlt⟩

/-- Keeping the children of the deepest ancestor of `hash` that `keepsChild` keeps. -/
theorem Pruned.withKept (hnum : number = o.num hash) {n : Node H N V} (hn : n.WF o) (hanc : o.lt n.hash hash)
    (hnone : AncestorChildSpec o hash number n.children 0 none) :
    Pruned o hash n { n with children := n.children.filter (keepsChild o hash number) }
      (n.children.filter fun c => !keepsChild o hash number c) := by
  have hkeep : ∀ c ∈ n.children, keepsChild o hash number c = true ↔ o.le hash c.hash :=
    fun c hc => keepsChild_iff hnum (hn.forest.of_mem hc)
  refine ⟨rfl, rfl, rfl, ?_, ?_, ?_⟩
  · rw [Node.nodes_eq n, Node.nodes_eq { n with children := n.children.filter (keepsChild o hash number) }]
    rw [List.cons_append, ← nodesList_append]
    exact List.Perm.cons _ (nodesList_perm (List.filter_append_perm _ _).symm)
  · intro x hx
    rw [Node.nodes_eq { n with children := n.children.filter (keepsChild o hash number) }, List.mem_cons] at hx
    rcases hx with rfl | hx
    · exact fun hu => hu.2.1 hanc
    · -- a kept child is at or above `hash`, and so is all below it
      obtain ⟨c, hc, hxc⟩ := mem_nodesList.mp hx
      obtain ⟨hcmem, hck⟩ := List.mem_filter.mp hc
      have hle : o.le hash x.1 := le_trans ((hkeep c hcmem).mp hck) ((hn.forest.of_mem hcmem).le_of_mem x hxc)
      exact fun hu => hu.symm.not_comparable (Or.inl hle)
  · intro x hx
    obtain ⟨c, hc, hxc⟩ := mem_nodesList.mp hx
    obtain ⟨hcmem, hck⟩ := List.mem_filter.mp hc
    have hcw : c.WF o := hn.forest.of_mem hcmem
    have hnle : ¬o.le hash c.hash := fun hle => by simp [(hkeep c hcmem).mpr hle] at hck
    -- a dropped child is no ancestor of `hash`: one would be a child below `number`
    have hnlt : ¬o.lt c.hash hash := fun hlt =>
      hnone c hcmem (by rw [hcw.number_eq, hnum]; exact o.num_lt hlt) hlt
    have hcu : o.Unrelated c.hash hash :=
      ⟨fun heq => hnle (Or.inl heq.symm), hnlt, fun hlt => hnle (Or.inr hlt)⟩
    exact hcu.of_le_of_le (hcw.le_of_mem x hxc) (le_refl hash)

/-- Below an ancestor of `hash`, `prune` keeps the node with exactly its descendants related
to `hash` and appends the others to the removed subtrees; with the block tree's oracle it
never fails. -/
theorem pruneBelow_spec (hnum : number = o.num hash) (n : Node H N V) (removed : List (Node H N V))
    (hn : n.WF o) (hanc : o.lt n.hash hash) :
    ∃ extra n', pruneBelow (o.isDescendentOf : H → H → Except E Bool) hash number n removed =
      .ok (removed ++ extra) n' ∧ Pruned o hash n n' extra := by
  fun_induction pruneBelow (o.isDescendentOf : H → H → Except E Bool) hash number n removed with
  | case1 node removed e h =>
    obtain ⟨r, hr, -⟩ := @ancestorChild_spec H N V E _ o hash number _ node.children 0
    rw [hr] at h
    cases h
  | case2 node removed i h hnone =>
    obtain ⟨c, hc, -⟩ := ancestorChild_eq_some h
    rw [hc] at hnone
    cases hnone
  | case3 node removed i h next hnext _ removed' next' hrec ih =>
    obtain ⟨c, hc, -, hca⟩ := ancestorChild_eq_some h
    rw [hc] at hnext
    cases hnext
    obtain ⟨extra, n', hpb, hpr⟩ := ih (hn.forest.of_mem (List.mem_of_getElem? hc)) hca
    rw [hrec] at hpb
    cases hpb
    exact ⟨_, _, by rw [List.append_assoc], hpr.withChild hn hanc hc hca⟩
  | case4 node removed i h next hnext _ e next' hrec ih =>
    obtain ⟨c, hc, -, hca⟩ := ancestorChild_eq_some h
    rw [hc] at hnext
    cases hnext
    obtain ⟨extra, n', hpb, -⟩ := ih (hn.forest.of_mem (List.mem_of_getElem? hc)) hca
    rw [hrec] at hpb
    cases hpb
  | case5 node removed h removed' kept hkeep =>
    rw [keepFinalizedChildren_eq] at hkeep
    cases hkeep
    exact ⟨_, _, rfl, Pruned.withKept hnum hn hanc (ancestorChild_eq_none h)⟩
  | case6 node removed h e kept hkeep =>
    rw [keepFinalizedChildren_eq] at hkeep
    cases hkeep

end Walk

omit [LinearOrder N] in
theorem rebalance_single (n : Node H N V) (best : Option N) :
    rebalance (⟨[n], best⟩ : ForkTree H N V) = ⟨[rebalanceNode n], best⟩ := by
  simp [rebalance, rebalanceList, sortByMaxDepth]

/-- `prune` over a well-formed tree, the oracle of its block tree and the block number of
`hash` returns, and: without a node to re-root at it changes nothing; otherwise the only
root left is that node, with exactly its descendants that are ancestors of `hash`, `hash`
itself or descendants of it; and the nodes of the tree are those left and those the removed
iterator yields, each once. -/
theorem prune_reroots (o : BlockTree H N) [DecidableRel o.lt] [DecidableEq H] (t : ForkTree H N V)
    (ht : t.WF o) (hash : H) (number : N) (predicate : V → Bool) (hnum : number = o.num hash) :
    ∃ removed t', prune (o.isDescendentOf : H → H → Except E Bool) hash number predicate t = .ok removed t' ∧
      t'.bestFinalizedNumber = t.bestFinalizedNumber ∧
      (findNodeWhere (o.isDescendentOf : H → H → Except E Bool) hash number predicate t = .ok none →
        t' = t ∧ removed = []) ∧
      (∀ R, findNodeWhere (o.isDescendentOf : H → H → Except E Bool) hash number predicate t = .ok (some R) →
        ∃ R', t'.roots = [R'] ∧ R'.hash = R.hash ∧ R'.number = R.number ∧ R'.data = R.data ∧
          ∀ x, x ∈ nodesList t'.roots ↔ x ∈ R.nodes ∧ (o.lt x.1 hash ∨ x.1 = hash ∨ o.lt hash x.1)) ∧
      (nodesList t.roots).Perm (nodesList t'.roots ++ (RemovedIterator.mk removed).toList) := by
  obtain ⟨res, hres, -, hpath⟩ := @probeRoots_spec H N V E _ o hash number predicate _ t.roots ht
  have hfind : findNodeWhere (o.isDescendentOf : H → H → Except E Bool) hash number predicate t =
      .ok (res.bind (nodeAt t.roots)) := by
    rw [findNodeWhere_eq, findNodeIndexWhere, hres]
    rfl
  unfold prune
  rw [show findNodeIndexWhere (o.isDescendentOf : H → H → Except E Bool) hash number predicate t = .ok res from hres]
  rw [hfind]
  cases res with
  | none =>
    refine ⟨[], t, rfl, rfl, fun _ => ⟨rfl, rfl⟩, fun R hR => ?_, by simp [RemovedIterator.toList_eq]⟩
    cases hR
  | some path =>
    obtain ⟨m, hm, hdeep⟩ := hpath path rfl
    obtain ⟨rest, hdetach, hperm⟩ := detachAt_of_nodeAt hm
    have hmw : m.WF o := by
      cases path with
      | nil => simp [nodeAt] at hm
      | cons i p => exact (ht.nodeAt hm).1
    obtain ⟨extra, R', hpb, hpr⟩ := @pruneBelow_spec H N V E _ o hash number _ _ hnum m rest hmw hdeep.1.1
    simp only [hdetach, hpb, rebalance_single]
    refine ⟨rest ++ extra, _, rfl, rfl, fun h => ?_, fun R hR => ?_, ?_⟩
    · simp [hm] at h
    · -- the root left is the found node, pruned and rebalanced
      simp only [Option.bind_some, hm, Except.ok.injEq, Option.some.injEq] at hR
      subst hR
      refine ⟨rebalanceNode R', rfl, ?_, ?_, ?_, fun x => ?_⟩
      · rw [hash_rebalanceNode, hpr.hash_eq]
      · obtain ⟨h, k, d, cs⟩ := R'
        exact hpr.number_eq
      · obtain ⟨h, k, d, cs⟩ := R'
        exact hpr.data_eq
      · rw [← not_unrelated_iff, ← hpr.mem_iff, nodesList_cons, nodesList_nil, List.append_nil]
        exact (nodes_rebalanceNode R').mem_iff
    · -- the found subtree splits into what is left and `extra`; the rest was detached
      rw [RemovedIterator.toList_eq, nodesList_cons, nodesList_nil, List.append_nil]
      refine hperm.trans (((hpr.perm.append_right _).trans ?_).trans
        (((nodes_rebalanceNode R').symm.append (nodesList_perm (List.reverse_perm _)).symm)))
      rw [nodesList_append, List.append_assoc]
      exact List.Perm.append_left _ List.perm_append_comm

/-- On `chainTree`, pruning to block 3 keeps every block: each is related to block 3. -/
theorem prune_reroots_chainTree :
    chainTree.WF natChain ∧ (3 : ℕ) = natChain.num 3 ∧
      ∃ removed t', prune (natChain.isDescendentOf : ℕ → ℕ → Except Empty Bool) 3 3 id chainTree = .ok removed t' ∧
        (nodesList chainTree.roots).Perm (nodesList t'.roots ++ (RemovedIterator.mk removed).toList) := by
  obtain ⟨removed, t', hp, -, -, -, hperm⟩ :=
    @prune_reroots ℕ ℕ Bool Empty _ natChain _ _ chainTree chainTree_wf 3 3 id rfl
  exact ⟨chainTree_wf, rfl, removed, t', hp, hperm⟩

/-- Pruning `chainTree` to block 3 with the number 4, which is not block 3's: the search
re-roots at block 1 (block 2 fails the predicate `id`), the walk keeps block 2, and the last
level drops block 3, which is `hash` itself, since its number is not 4. -/
theorem prune_drops_hash_of_other_number :
    findNodeWhere (natChain.isDescendentOf : ℕ → ℕ → Except Empty Bool) 3 4 id chainTree =
        .ok (some ⟨1, 1, true, [⟨2, 2, false, [⟨3, 3, true, []⟩]⟩]⟩) ∧
      prune (natChain.isDescendentOf : ℕ → ℕ → Except Empty Bool) 3 4 id chainTree =
        .ok [⟨3, 3, true, []⟩] ⟨[⟨1, 1, true, [⟨2, 2, false, []⟩]⟩], none⟩ :=
  ⟨rfl, by with_unfolding_all rfl⟩

end ForkTree
end PolkadotSdk
