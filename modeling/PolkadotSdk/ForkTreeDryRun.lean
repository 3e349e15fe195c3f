import PolkadotSdk.ForkTreeLevels

/-!
# The dry run of `finalize_with_descendent_if`

`finalizes_any_with_descendent_if` searches every node in pre-order, `node_iter`'s order,
while `finalize_with_descendent_if` searches only the roots; both take the first node that
passes the predicate and is `hash` or an ancestor of it, and refuse it when one of its
children not above `number` is too. Over a well-formed tree and the oracle of its block
tree the two agree (`finalizesAnyWithDescendentIf_agrees`): a node at or below `hash` lies
under a root at or below `hash`, and two unrelated roots are never both at or below it, so
the pre-order reaches the root the real operation finalizes before any node under another
root. Where no root matches, the dry run may still match a deeper node, and then answers
`some false` or refuses.
-/

namespace PolkadotSdk
namespace ForkTree

open TreeOrder

variable {H N V E : Type}

namespace Node

mutual
/-- The nodes of a subtree, in pre-order. -/
def subtree : Node H N V → List (Node H N V)
  | ⟨h, k, d, cs⟩ => ⟨h, k, d, cs⟩ :: subtreeList cs
/-- The nodes of a forest, in pre-order. -/
def subtreeList : List (Node H N V) → List (Node H N V)
  | [] => []
  | c :: cs => subtree c ++ subtreeList cs
end

theorem subtree_eq (n : Node H N V) : n.subtree = n :: subtreeList n.children := by
  cases n
  simp [subtree]

@[simp] theorem subtreeList_nil : subtreeList ([] : List (Node H N V)) = [] := by simp [subtreeList]

@[simp] theorem subtreeList_cons (c : Node H N V) (cs : List (Node H N V)) :
    subtreeList (c :: cs) = c.subtree ++ subtreeList cs := by simp [subtreeList]

@[simp] theorem subtreeList_append (xs ys : List (Node H N V)) :
    subtreeList (xs ++ ys) = subtreeList xs ++ subtreeList ys := by
  induction xs with
  | nil => simp
  | cons x xs ih => simp [ih]

theorem mem_subtreeList {x : Node H N V} {ns : List (Node H N V)} :
    x ∈ subtreeList ns ↔ ∃ n ∈ ns, x ∈ n.subtree := by
  induction ns with
  | nil => simp
  | cons n ns ih => simp [ih]

mutual
/-- Forgetting the children of the nodes of a subtree gives its triples. -/
theorem map_subtree : ∀ n : Node H N V, n.subtree.map (fun x => (x.hash, x.number, x.data)) = n.nodes
  | ⟨h, k, d, cs⟩ => by simp [subtree, map_subtreeList cs]
theorem map_subtreeList :
    ∀ ns : List (Node H N V), (subtreeList ns).map (fun x => (x.hash, x.number, x.data)) = nodesList ns
  | [] => by simp
  | c :: cs => by simp [map_subtree c, map_subtreeList cs]
end

variable [LinearOrder N] {o : BlockTree H N}

theorem WF.le_of_mem_subtree {n x : Node H N V} (h : n.WF o) (hx : x ∈ n.subtree) : o.le n.hash x.hash := by
  have hmem : (x.hash, x.number, x.data) ∈ n.nodes := by
    rw [← map_subtree n]
    exact List.mem_map_of_mem hx
  exact h.le_of_mem _ hmem

/-- The nodes strictly inside a subtree are strictly above its root. -/
theorem WF.lt_of_mem_subtreeList {n x : Node H N V} (h : n.WF o) (hx : x ∈ subtreeList n.children) :
    o.lt n.hash x.hash := by
  obtain ⟨c, hc, hxc⟩ := mem_subtreeList.mp hx
  exact lt_of_lt_of_le (h.lt_child hc) ((h.forest.of_mem hc).le_of_mem_subtree hxc)

end Node

open Node

theorem ForkTreeIterator.next_eq_none {it : ForkTreeIterator H N V} (h : it.next = none) : it.stack = [] := by
  unfold next at h
  split at h
  · exact List.getLast?_eq_none_iff.mp ‹_›
  · cases h

theorem ForkTreeIterator.next_eq_some {it it' : ForkTreeIterator H N V} {x : Node H N V}
    (h : it.next = some (x, it')) :
    it.stack = it.stack.dropLast ++ [x] ∧ it'.stack = it.stack.dropLast ++ x.children.reverse := by
  unfold next at h
  split at h
  · cases h
  · rename_i top htop
    obtain ⟨rfl, rfl⟩ : top = x ∧ _ := by simpa using h
    exact ⟨(List.dropLast_append_getLast? top htop).symm, rfl⟩

/-- The iterator yields the subtrees on its stack in pre-order, the top one first. -/
theorem ForkTreeIterator.toList_eq (it : ForkTreeIterator H N V) : it.toList = subtreeList it.stack.reverse := by
  fun_induction ForkTreeIterator.toList it with
  | case1 it h => simp [next_eq_none h]
  | case2 it x it' h _ ih =>
    obtain ⟨hstack, hstack'⟩ := next_eq_some h
    rw [ih, hstack', hstack, List.reverse_append, List.reverse_append, List.reverse_reverse]
    simp [subtree_eq x]

/-- `node_iter` visits the whole tree in pre-order. -/
theorem nodeIter_toList (t : ForkTree H N V) : (nodeIter t).toList = subtreeList t.roots := by
  simp [nodeIter, ForkTreeIterator.toList_eq]

section Oracle

variable [LinearOrder N] [DecidableEq H] (o : BlockTree H N) [DecidableRel o.lt]
variable (hash : H) (number : N) (predicate : V → Bool)

/-- The test both searches make of a node: it passes the predicate and is `hash` or an
ancestor of it. -/
def finalizable (x : Node H N V) : Bool := predicate x.data && decide (o.le x.hash hash)

/-- The test both searches make of the children of the node they find. -/
def pastChild (c : Node H N V) : Bool := decide (c.number ≤ number ∧ o.le c.hash hash)

theorem isMatch_blockTree (x : Node H N V) :
    (if predicate x.data = true then
        (if x.hash = hash then (.ok true : Except E Bool) else o.isDescendentOf x.hash hash)
      else .ok false) = .ok (finalizable o hash predicate x) := by
  by_cases hp : predicate x.data = true
  · by_cases hh : x.hash = hash
    · simp [finalizable, hp, hh, le_refl]
    · simp [finalizable, hp, hh, BlockTree.isDescendentOf, TreeOrder.le]
  · simp [finalizable, hp]

theorem childFinalizedPast_blockTree (cs : List (Node H N V)) :
    childFinalizedPast (o.isDescendentOf : H → H → Except E Bool) hash number cs =
      .ok (cs.any (pastChild o hash number)) := by
  induction cs with
  | nil => rfl
  | cons c cs ih =>
    by_cases hn : c.number ≤ number
    · by_cases hh : c.hash = hash
      · simp [childFinalizedPast, pastChild, hn, hh, le_refl]
      · by_cases hlt : o.lt c.hash hash
        · simp [childFinalizedPast, pastChild, hn, hh, hlt, BlockTree.isDescendentOf, TreeOrder.le]
        · simp [childFinalizedPast, pastChild, hn, hh, hlt, BlockTree.isDescendentOf, TreeOrder.le, ih]
    · simp [childFinalizedPast, pastChild, hn, ih]

theorem findFinalizedNode_cons (x : Node H N V) (xs : List (Node H N V)) :
    findFinalizedNode (o.isDescendentOf : H → H → Except E Bool) hash number predicate (x :: xs) =
      if finalizable o hash predicate x then
        (if x.children.any (pastChild o hash number) then .error .unfinalizedAncestor else .ok (some x))
      else findFinalizedNode o.isDescendentOf hash number predicate xs := by
  simp only [findFinalizedNode, isMatch_blockTree, childFinalizedPast_blockTree]
  cases finalizable o hash predicate x <;> cases x.children.any (pastChild o hash number) <;> rfl

theorem findFinalizedRoot_cons (r : Node H N V) (rs : List (Node H N V)) (i : ℕ) :
    findFinalizedRoot (o.isDescendentOf : H → H → Except E Bool) hash number predicate (r :: rs) i =
      if finalizable o hash predicate r then
        (if r.children.any (pastChild o hash number) then .error .unfinalizedAncestor else .ok (some i))
      else findFinalizedRoot o.isDescendentOf hash number predicate rs (i + 1) := by
  simp only [findFinalizedRoot, isMatch_blockTree, childFinalizedPast_blockTree]
  cases finalizable o hash predicate r <;> cases r.children.any (pastChild o hash number) <;> rfl

theorem finalizable_eq_true (x : Node H N V) :
    finalizable o hash predicate x = true ↔ predicate x.data = true ∧ o.le x.hash hash := by
  simp [finalizable]

/-- Under a block tree's oracle the retain loop of `finalize_with_descendent_if` never fails. -/
theorem retainFinalizedBranch_blockTree (rs kept : List (Node H N V)) (changed : Bool) :
    ∃ changed' kept', retainFinalizedBranch (o.isDescendentOf : H → H → Except E Bool) hash number rs kept changed =
      .ok changed' kept' := by
  induction rs generalizing kept changed with
  | nil => exact ⟨changed, kept, rfl⟩
  | cons r rs ih =>
    -- the oracle answers every question, so each branch goes on with the loop
    obtain ⟨b, hb⟩ : ∃ b, (if number < r.number then o.isDescendentOf hash r.hash else .ok false : Except E Bool) =
        .ok b := by
      split <;> exact ⟨_, rfl⟩
    cases b
    · simp only [retainFinalizedBranch, hb]
      split
      · exact ih _ _
      · simp only [BlockTree.isDescendentOf]
        cases decide (o.lt r.hash hash) <;> exact ih _ _
    · simp only [retainFinalizedBranch, hb]
      exact ih _ _

end Oracle

section Search

variable [LinearOrder N] [DecidableEq H] {o : BlockTree H N} [DecidableRel o.lt]
variable {hash : H} {number : N} {predicate : V → Bool}

theorem findFinalizedNode_of_forall {xs : List (Node H N V)}
    (h : ∀ x ∈ xs, finalizable o hash predicate x = false) :
    findFinalizedNode (o.isDescendentOf : H → H → Except E Bool) hash number predicate xs = .ok none := by
  induction xs with
  | nil => rfl
  | cons x xs ih =>
    rw [findFinalizedNode_cons, if_neg (by simp [h x List.mem_cons_self])]
    exact ih fun y hy => h y (List.mem_cons_of_mem x hy)

/-- The dry run's search stops at the first node that passes the test. -/
theorem findFinalizedNode_append_cons {A B : List (Node H N V)} {x : Node H N V}
    (hA : ∀ y ∈ A, finalizable o hash predicate y = false) (hx : finalizable o hash predicate x = true) :
    findFinalizedNode (o.isDescendentOf : H → H → Except E Bool) hash number predicate (A ++ x :: B) =
      if x.children.any (pastChild o hash number) then .error .unfinalizedAncestor else .ok (some x) := by
  induction A with
  | nil => rw [List.nil_append, findFinalizedNode_cons, if_pos hx]
  | cons y A ih =>
    rw [List.cons_append, findFinalizedNode_cons, if_neg (by simp [hA y List.mem_cons_self])]
    exact ih fun z hz => hA z (List.mem_cons_of_mem y hz)

theorem findFinalizedNode_found {xs : List (Node H N V)} {x : Node H N V}
    (h : findFinalizedNode (o.isDescendentOf : H → H → Except E Bool) hash number predicate xs = .ok (some x)) :
    x ∈ xs ∧ finalizable o hash predicate x = true := by
  induction xs with
  | nil => cases h
  | cons y xs ih =>
    rw [findFinalizedNode_cons] at h
    by_cases hy : finalizable o hash predicate y = true
    · rw [if_pos hy] at h
      split at h
      · cases h
      · cases h
        exact ⟨List.mem_cons_self, hy⟩
    · rw [if_neg hy] at h
      obtain ⟨hx, hfx⟩ := ih h
      exact ⟨List.mem_cons_of_mem y hx, hfx⟩

/-- Under a block tree's oracle the dry run's search fails only by refusing a node. -/
theorem findFinalizedNode_error {xs : List (Node H N V)} {e : Error E}
    (h : findFinalizedNode (o.isDescendentOf : H → H → Except E Bool) hash number predicate xs = .error e) :
    e = .unfinalizedAncestor := by
  induction xs with
  | nil => cases h
  | cons y xs ih =>
    rw [findFinalizedNode_cons] at h
    split at h
    · split at h
      · cases h
        rfl
      · cases h
    · exact ih h

theorem findFinalizedRoot_of_forall {rs : List (Node H N V)} {i : ℕ}
    (h : ∀ r ∈ rs, finalizable o hash predicate r = false) :
    findFinalizedRoot (o.isDescendentOf : H → H → Except E Bool) hash number predicate rs i = .ok none := by
  induction rs generalizing i with
  | nil => rfl
  | cons r rs ih =>
    rw [findFinalizedRoot_cons, if_neg (by simp [h r List.mem_cons_self])]
    exact ih fun s hs => h s (List.mem_cons_of_mem r hs)

/-- The real operation's search stops at the first root that passes the test. -/
theorem findFinalizedRoot_append_cons {A B : List (Node H N V)} {r : Node H N V} {i : ℕ}
    (hA : ∀ y ∈ A, finalizable o hash predicate y = false) (hr : finalizable o hash predicate r = true) :
    findFinalizedRoot (o.isDescendentOf : H → H → Except E Bool) hash number predicate (A ++ r :: B) i =
      if r.children.any (pastChild o hash number) then .error .unfinalizedAncestor
      else .ok (some (i + A.length)) := by
  induction A generalizing i with
  | nil => rw [List.nil_append, findFinalizedRoot_cons, if_pos hr, List.length_nil, Nat.add_zero]
  | cons y A ih =>
    have hidx : i + 1 + A.length = i + (y :: A).length := by simp only [List.length_cons]; omega
    rw [List.cons_append, findFinalizedRoot_cons, if_neg (by simp [hA y List.mem_cons_self]),
      ih fun z hz => hA z (List.mem_cons_of_mem y hz), hidx]

/-- No root of a well-formed forest is strictly below another. -/
theorem ForestWF.not_lt_of_mem {ns : List (Node H N V)} (h : ForestWF o ns) {a b : Node H N V}
    (ha : a ∈ ns) (hb : b ∈ ns) : ¬o.lt a.hash b.hash := by
  induction ns with
  | nil => cases ha
  | cons c cs ih =>
    obtain ⟨hc, hcs⟩ := List.pairwise_cons.mp h.2
    rcases List.mem_cons.mp ha with rfl | ha' <;> rcases List.mem_cons.mp hb with rfl | hb'
    · exact o.irrefl _
    · exact (hc b hb').2.1
    · exact (hc a ha').2.2
    · exact ih ⟨fun n hn => h.1 n (List.mem_cons_of_mem c hn), hcs⟩ ha' hb'

/-- Under the roots before one that passes the test, no node passes it: two unrelated
roots are never both at or below `hash`. -/
theorem ForestWF.not_finalizable_before {A B : List (Node H N V)} {r : Node H N V}
    (h : ForestWF o (A ++ r :: B)) (hr : finalizable o hash predicate r = true) :
    ∀ y ∈ subtreeList A, finalizable o hash predicate y = false := by
  intro y hy
  obtain ⟨a, ha, hya⟩ := mem_subtreeList.mp hy
  have hu : o.Unrelated a.hash r.hash := (List.pairwise_append.mp h.2).2.2 a ha r List.mem_cons_self
  have hay : o.le a.hash y.hash := (h.of_mem (List.mem_append_left _ ha)).le_of_mem_subtree hya
  cases hfy : finalizable o hash predicate y
  · rfl
  · have hyle := ((finalizable_eq_true o hash predicate y).mp hfy).2
    exact absurd ((finalizable_eq_true o hash predicate r).mp hr).2 (hu.not_le_of_le (le_trans hay hyle))

/-- A node that passes the test while no root does shares no root's hash. -/
theorem ForestWF.not_root_hash {ns : List (Node H N V)} (h : ForestWF o ns)
    (hroots : ∀ r ∈ ns, finalizable o hash predicate r = false) {x : Node H N V} (hx : x ∈ subtreeList ns)
    (hfx : finalizable o hash predicate x = true) : (ns.any fun r => decide (r.hash = x.hash)) = false := by
  obtain ⟨r, hr, hxr⟩ := mem_subtreeList.mp hx
  rw [subtree_eq, List.mem_cons] at hxr
  rcases hxr with rfl | hxr
  · exact absurd hfx (by simp [hroots x hr])
  · have hlt := (h.of_mem hr).lt_of_mem_subtreeList hxr
    simp only [List.any_eq_false, decide_eq_true_eq]
    intro r' hr' heq
    exact h.not_lt_of_mem hr hr' (heq ▸ hlt)

end Search

section Outcomes

variable [LinearOrder N] [DecidableEq H] {o : BlockTree H N} [DecidableRel o.lt]
variable {hash : H} {number : N} {predicate : V → Bool} {t : ForkTree H N V}

theorem finalizeWithDescendentIf_of_root (hrev : reverts t number = false) {j : ℕ} {r : Node H N V}
    (hpos : findFinalizedRoot (o.isDescendentOf : H → H → Except E Bool) hash number predicate t.roots 0 =
      .ok (some j))
    (hr : t.roots[j]? = some r) :
    ∃ t', finalizeWithDescendentIf (o.isDescendentOf : H → H → Except E Bool) hash number predicate t =
      .ok (.changed (some r.data)) t' := by
  obtain ⟨changed, kept, hret⟩ := retainFinalizedBranch_blockTree (E := E) o hash number r.children [] false
  exact ⟨⟨kept, some number⟩, by simp [finalizeWithDescendentIf, hrev, hpos, hr, hret]⟩

theorem finalizeWithDescendentIf_of_none (hrev : reverts t number = false)
    (hpos : findFinalizedRoot (o.isDescendentOf : H → H → Except E Bool) hash number predicate t.roots 0 = .ok none) :
    ∃ res t', finalizeWithDescendentIf (o.isDescendentOf : H → H → Except E Bool) hash number predicate t =
      .ok res t' ∧ ∀ v, res ≠ .changed (some v) := by
  obtain ⟨changed, kept, hret⟩ := retainFinalizedBranch_blockTree (E := E) o hash number t.roots [] false
  refine ⟨if changed then .changed none else .unchanged, ⟨kept, some number⟩, ?_, ?_⟩
  · cases changed <;> simp [finalizeWithDescendentIf, hrev, hpos, hret]
  · intro v
    cases changed <;> simp

/-- Every outcome of the dry run beside that of the real operation: both revert, both
finalize the first root that passes the test, both refuse it, or no root passes it. -/
theorem finalizesAny_cases (ht : t.WF o) :
    (reverts t number = true ∧
      finalizesAnyWithDescendentIf (o.isDescendentOf : H → H → Except E Bool) hash number predicate t = .error .revert ∧
      finalizeWithDescendentIf (o.isDescendentOf : H → H → Except E Bool) hash number predicate t = .error .revert t) ∨
    (reverts t number = false ∧ ∃ r ∈ t.roots,
      findFinalizedNode (o.isDescendentOf : H → H → Except E Bool) hash number predicate (nodeIter t).toList =
        .ok (some r) ∧
      finalizesAnyWithDescendentIf (o.isDescendentOf : H → H → Except E Bool) hash number predicate t = .ok (some true) ∧
      ∃ t', finalizeWithDescendentIf (o.isDescendentOf : H → H → Except E Bool) hash number predicate t =
        .ok (.changed (some r.data)) t') ∨
    (reverts t number = false ∧
      finalizesAnyWithDescendentIf (o.isDescendentOf : H → H → Except E Bool) hash number predicate t =
        .error .unfinalizedAncestor ∧
      finalizeWithDescendentIf (o.isDescendentOf : H → H → Except E Bool) hash number predicate t =
        .error .unfinalizedAncestor t) ∨
    (reverts t number = false ∧
      (finalizesAnyWithDescendentIf (o.isDescendentOf : H → H → Except E Bool) hash number predicate t = .ok none ∨
        finalizesAnyWithDescendentIf (o.isDescendentOf : H → H → Except E Bool) hash number predicate t =
          .ok (some false) ∨
        finalizesAnyWithDescendentIf (o.isDescendentOf : H → H → Except E Bool) hash number predicate t =
          .error .unfinalizedAncestor) ∧
      (∀ x, findFinalizedNode (o.isDescendentOf : H → H → Except E Bool) hash number predicate (nodeIter t).toList =
        .ok (some x) → x ∉ t.roots) ∧
      ∃ res t', finalizeWithDescendentIf (o.isDescendentOf : H → H → Except E Bool) hash number predicate t =
        .ok res t' ∧ ∀ v, res ≠ .changed (some v)) := by
  cases hrev : reverts t number
  case true =>
    left
    exact ⟨rfl, by simp [finalizesAnyWithDescendentIf, hrev], by simp [finalizeWithDescendentIf, hrev]⟩
  case false =>
    rw [nodeIter_toList]
    cases hfind : t.roots.find? (finalizable o hash predicate) with
    | none =>
      -- no root passes the test: the real operation finalizes nothing, and whatever the
      -- dry run finds lies strictly under a root
      have hroots : ∀ r ∈ t.roots, finalizable o hash predicate r = false := by
        simpa using List.find?_eq_none.mp hfind
      obtain ⟨res, t', hreal, hres⟩ := finalizeWithDescendentIf_of_none hrev (findFinalizedRoot_of_forall hroots)
      refine Or.inr (Or.inr (Or.inr ⟨rfl, ?_, ?_, res, t', hreal, hres⟩))
      · cases hloop : findFinalizedNode (o.isDescendentOf : H → H → Except E Bool) hash number predicate
          (subtreeList t.roots) with
        | error e =>
          right; right
          simp [finalizesAnyWithDescendentIf, hrev, nodeIter_toList, hloop, findFinalizedNode_error hloop]
        | ok found =>
          cases found with
          | none =>
            left
            simp [finalizesAnyWithDescendentIf, hrev, nodeIter_toList, hloop]
          | some x =>
            right; left
            obtain ⟨hx, hfx⟩ := findFinalizedNode_found hloop
            simp [finalizesAnyWithDescendentIf, hrev, nodeIter_toList, hloop, ht.not_root_hash hroots hx hfx]
      · intro x hloop hxr
        obtain ⟨hx, hfx⟩ := findFinalizedNode_found hloop
        have hnot := ht.not_root_hash hroots hx hfx
        simp only [List.any_eq_false, decide_eq_true_eq] at hnot
        exact hnot x hxr rfl
    | some r =>
      -- the first root that passes the test is also the first node of the pre-order to pass it
      obtain ⟨hr, A, B, hsplit, hA⟩ := List.find?_eq_some_iff_append.mp hfind
      have hA' : ∀ a ∈ A, finalizable o hash predicate a = false := by simpa using hA
      have hwf : ForestWF o (A ++ r :: B) := hsplit ▸ ht
      have hpos : findFinalizedRoot (o.isDescendentOf : H → H → Except E Bool) hash number predicate t.roots 0 =
          if r.children.any (pastChild o hash number) then .error .unfinalizedAncestor else .ok (some A.length) := by
        rw [hsplit, findFinalizedRoot_append_cons hA' hr, Nat.zero_add]
      have hloop : findFinalizedNode (o.isDescendentOf : H → H → Except E Bool) hash number predicate
          (subtreeList t.roots) =
          if r.children.any (pastChild o hash number) then .error .unfinalizedAncestor else .ok (some r) := by
        rw [hsplit, subtreeList_append, subtreeList_cons, subtree_eq, List.cons_append,
          findFinalizedNode_append_cons (hwf.not_finalizable_before hr) hr]
      have hmem : r ∈ t.roots := by
        rw [hsplit]
        exact List.mem_append_right A List.mem_cons_self
      cases hany : r.children.any (pastChild o hash number)
      case false =>
        have hidx : t.roots[A.length]? = some r := by simp [hsplit]
        rw [hany, if_neg Bool.false_ne_true] at hpos hloop
        refine Or.inr (Or.inl ⟨rfl, r, hmem, hloop, ?_, finalizeWithDescendentIf_of_root hrev hpos hidx⟩)
        simp only [finalizesAnyWithDescendentIf, hrev, nodeIter_toList, hloop]
        simpa using ⟨r, hmem, rfl⟩
      case true =>
        rw [hany, if_pos rfl] at hpos hloop
        refine Or.inr (Or.inr (Or.inl ⟨rfl, ?_, ?_⟩))
        · simp [finalizesAnyWithDescendentIf, hrev, nodeIter_toList, hloop]
        · simp [finalizeWithDescendentIf, hrev, hpos]

end Outcomes

variable [LinearOrder N] [DecidableEq H]

theorem finalizesAnyWithDescendentIf_agrees (o : BlockTree H N) [DecidableRel o.lt] (t : ForkTree H N V)
    (ht : t.WF o) (hash : H) (number : N) (predicate : V → Bool) :
    (finalizesAnyWithDescendentIf (o.isDescendentOf : H → H → Except E Bool) hash number predicate t = .ok (some true) ↔
      ∃ v t', finalizeWithDescendentIf (o.isDescendentOf : H → H → Except E Bool) hash number predicate t =
        .ok (.changed (some v)) t') ∧
    (∀ v t', finalizeWithDescendentIf (o.isDescendentOf : H → H → Except E Bool) hash number predicate t =
        .ok (.changed (some v)) t' →
      ∃ node ∈ t.roots, findFinalizedNode (o.isDescendentOf : H → H → Except E Bool) hash number predicate
        (nodeIter t).toList = .ok (some node) ∧ node.data = v) ∧
    (finalizesAnyWithDescendentIf (o.isDescendentOf : H → H → Except E Bool) hash number predicate t = .error .revert ↔
      reverts t number = true) ∧
    ((∃ t', finalizeWithDescendentIf (o.isDescendentOf : H → H → Except E Bool) hash number predicate t =
        .error .revert t') ↔ reverts t number = true) ∧
    (∀ t', finalizeWithDescendentIf (o.isDescendentOf : H → H → Except E Bool) hash number predicate t =
        .error .unfinalizedAncestor t' →
      finalizesAnyWithDescendentIf (o.isDescendentOf : H → H → Except E Bool) hash number predicate t =
        .error .unfinalizedAncestor) := by
  rcases @finalizesAny_cases H N V E _ _ o _ hash number predicate t ht with
    ⟨hrev, hdry, hreal⟩ | ⟨hrev, r, hr, hloop, hdry, t₁, hreal⟩ | ⟨hrev, hdry, hreal⟩ |
      ⟨hrev, hdry, hloop, res, t₁, hreal, hres⟩
  case inl =>
    simp [hrev, hdry, hreal]
  case inr.inl =>
    refine ⟨⟨fun _ => ⟨r.data, t₁, hreal⟩, fun _ => hdry⟩, ?_, by simp [hrev, hdry], by simp [hrev, hreal],
      by simp [hreal]⟩
    intro v t' h
    rw [hreal] at h
    obtain ⟨hv, -⟩ : FinalizationResult.changed (some r.data) = .changed (some v) ∧ t₁ = t' := by
      simpa using h
    exact ⟨r, hr, hloop, by simpa using hv⟩
  case inr.inr.inl =>
    simp [hrev, hdry, hreal]
  case inr.inr.inr =>
    have hnot : ∀ v t', finalizeWithDescendentIf (o.isDescendentOf : H → H → Except E Bool) hash number predicate t ≠
        .ok (.changed (some v)) t' := by
      intro v t' h
      rw [hreal] at h
      obtain ⟨hv, -⟩ : res = .changed (some v) ∧ t₁ = t' := by simpa using h
      exact hres v hv
    refine ⟨⟨fun h => ?_, fun ⟨v, t', h⟩ => absurd h (hnot v t')⟩, fun v t' h => absurd h (hnot v t'),
      ?_, by simp [hrev, hreal], by simp [hreal]⟩
    · rcases hdry with hdry | hdry | hdry <;> rw [hdry] at h <;> simp at h
    · rcases hdry with hdry | hdry | hdry <;> simp [hrev, hdry]

/-- The tree of `chainTree_wf`: a chain `1 → 2 → 3`. Finalizing `1` at number `1`, the dry run
reports a root, and the real operation finalizes it. -/
theorem finalizesAnyWithDescendentIf_agrees_chainTree :
    chainTree.WF natChain ∧
      finalizesAnyWithDescendentIf (natChain.isDescendentOf : ℕ → ℕ → Except Empty Bool) 1 1 id chainTree =
        .ok (some true) ∧
      ∃ v t', finalizeWithDescendentIf (natChain.isDescendentOf : ℕ → ℕ → Except Empty Bool) 1 1 id chainTree =
        .ok (.changed (some v)) t' := by
  have hdry : finalizesAnyWithDescendentIf (natChain.isDescendentOf : ℕ → ℕ → Except Empty Bool) 1 1 id chainTree =
      .ok (some true) := by
    with_unfolding_all rfl
  exact ⟨chainTree_wf, hdry,
    ((finalizesAnyWithDescendentIf_agrees (E := Empty) natChain chainTree chainTree_wf 1 1 id).1.mp hdry)⟩

end ForkTree
end PolkadotSdk
