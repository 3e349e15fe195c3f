import Mathlib.Data.List.Sort
import Mathlib.Data.List.Perm.Basic

/-!
# Fork tree

A model of `substrate/utils/fork-tree`: a forest of blocks, each node carrying a
hash, a number and some data. The ancestry of two hashes is never stored: every
operation asks an external oracle `is_descendent_of`, which may fail.

Methods taking `&mut self` and returning `Result` are modelled as functions into
`EStateM.Result`: the state after an error is whatever the Rust code had written
into `self` before the `?` that returned, so partial updates stay visible.
-/

namespace PolkadotSdk
namespace ForkTree

/-- `fork_tree::Error`. -/
inductive Error (E : Type) where
  | duplicate
  | unfinalizedAncestor
  | revert
  | client (err : E)
  deriving DecidableEq, Repr

/-- `fork_tree::FinalizationResult`. -/
inductive FinalizationResult (V : Type) where
  | changed (data : Option V)
  | unchanged
  deriving DecidableEq, Repr

/-- `fork_tree::FilterAction`. -/
inductive FilterAction where
  | remove
  | keepNode
  | keepTree
  deriving DecidableEq, Repr

/-- `fork_tree::Node`. -/
structure Node (H N V : Type) where
  hash : H
  number : N
  data : V
  children : List (Node H N V)

end ForkTree

/-- `fork_tree::ForkTree`. -/
structure ForkTree (H N V : Type) where
  roots : List (ForkTree.Node H N V)
  bestFinalizedNumber : Option N

namespace ForkTree

/-- Result of a `&mut self` method: the value or the error, and the tree as left. -/
abbrev Outcome (E H N V α : Type) := EStateM.Result (Error E) (ForkTree H N V) α

variable {H N V E : Type}

/-- `ForkTree::new`. -/
def new : ForkTree H N V := ⟨[], none⟩

namespace Node

mutual
/-- `Node::max_depth`: the longest path below the node, in edges. -/
def maxDepth : Node H N V → ℕ
  | ⟨_, _, _, cs⟩ => maxDepthList cs
/-- The largest `max_depth + 1` among a list of siblings. -/
def maxDepthList : List (Node H N V) → ℕ
  | [] => 0
  | c :: cs => max (maxDepth c + 1) (maxDepthList cs)
end

mutual
/-- Number of nodes in the subtree. -/
def size : Node H N V → ℕ
  | ⟨_, _, _, cs⟩ => sizeList cs + 1
/-- Number of nodes in a forest. -/
def sizeList : List (Node H N V) → ℕ
  | [] => 0
  | c :: cs => size c + sizeList cs
end

@[simp] theorem size_mk (h : H) (n : N) (d : V) (cs : List (Node H N V)) :
    size ⟨h, n, d, cs⟩ = sizeList cs + 1 := by simp [size]

@[simp] theorem sizeList_nil : sizeList ([] : List (Node H N V)) = 0 := by simp [sizeList]

@[simp] theorem sizeList_cons (c : Node H N V) (cs : List (Node H N V)) :
    sizeList (c :: cs) = size c + sizeList cs := by simp [sizeList]

@[simp] theorem sizeList_append (xs ys : List (Node H N V)) :
    sizeList (xs ++ ys) = sizeList xs + sizeList ys := by
  induction xs with
  | nil => simp
  | cons x xs ih => simp [ih]; omega

theorem sizeList_perm {xs ys : List (Node H N V)} (h : xs.Perm ys) :
    sizeList xs = sizeList ys := by
  induction h with
  | nil => rfl
  | cons x _ ih => simp [ih]
  | swap x y l => simp; omega
  | trans _ _ ih₁ ih₂ => exact ih₁.trans ih₂

theorem size_eq (n : Node H N V) : size n = sizeList n.children + 1 := by
  cases n; simp

theorem size_le_sizeList {c : Node H N V} {cs : List (Node H N V)} (h : c ∈ cs) :
    size c ≤ sizeList cs := by
  induction cs with
  | nil => simp at h
  | cons d ds ih =>
    rcases List.mem_cons.mp h with rfl | h
    · simp
    · have := ih h; simp; omega

theorem size_lt_of_mem_children {c n : Node H N V} (h : c ∈ n.children) : size c < size n := by
  have := size_le_sizeList h
  rw [size_eq n]
  omega

@[simp] theorem sizeList_reverse (cs : List (Node H N V)) : sizeList cs.reverse = sizeList cs :=
  sizeList_perm (List.reverse_perm cs)

end Node

/-- Sorting by `Reverse(max_depth)`: deepest subtrees first, ties in their old order.
Any stable sort gives this list; insertion sort is the one that evaluates by `decide`. -/
def sortByMaxDepth (ns : List (Node H N V)) : List (Node H N V) :=
  ns.insertionSort fun a b => b.maxDepth ≤ a.maxDepth

mutual
/-- `rebalance` below one node. The Rust code sorts each level before sorting the
levels below; `max_depth` does not depend on the order of children, so sorting
bottom-up gives the same tree. -/
def rebalanceNode : Node H N V → Node H N V
  | ⟨h, n, d, cs⟩ => ⟨h, n, d, sortByMaxDepth (rebalanceList cs)⟩
/-- `rebalanceNode` on every sibling. -/
def rebalanceList : List (Node H N V) → List (Node H N V)
  | [] => []
  | c :: cs => rebalanceNode c :: rebalanceList cs
end

/-- `ForkTree::rebalance`. -/
def rebalance (t : ForkTree H N V) : ForkTree H N V :=
  ⟨sortByMaxDepth (rebalanceList t.roots), t.bestFinalizedNumber⟩

/-- `Vec::swap_remove(i)`: the element at `i` is replaced by the last one. -/
def swapRemove {α : Type} (l : List α) (i : ℕ) : List α :=
  if i + 1 < l.length then l.take i ++ l.getLast?.toList ++ (l.drop (i + 1)).dropLast
  else l.take i

theorem swapRemove_perm {α : Type} {l : List α} {i : ℕ} (h : i < l.length) :
    (swapRemove l i).Perm (l.eraseIdx i) := by
  rw [swapRemove, List.eraseIdx_eq_take_drop_succ]
  split
  · have hne : l.drop (i + 1) ≠ [] := by simp; omega
    have hlast : l.getLast? = some ((l.drop (i + 1)).getLast hne) := by
      rw [← List.getLast?_eq_some_getLast, List.getLast?_drop, if_neg (by omega)]
    rw [hlast]
    conv_rhs => rw [← List.dropLast_concat_getLast hne]
    simp only [Option.toList_some, List.append_assoc, List.singleton_append]
    exact (List.perm_append_singleton _ _).symm.append_left _
  · have hnil : l.drop (i + 1) = [] := by simp; omega
    simp [hnil]

theorem sizeList_swapRemove_add {l : List (Node H N V)} {i : ℕ} (h : i < l.length) :
    Node.sizeList (swapRemove l i) + (l[i]).size = Node.sizeList l := by
  have hl : l = l.take i ++ l[i] :: l.drop (i + 1) := by
    rw [← List.drop_eq_getElem_cons h, List.take_append_drop]
  have hs := congrArg Node.sizeList hl
  rw [Node.sizeList_perm (swapRemove_perm h), List.eraseIdx_eq_take_drop_succ]
  simp only [Node.sizeList_append, Node.sizeList_cons] at hs ⊢
  omega

section Search

variable [DecidableEq H] [LinearOrder N]
variable (isDescendentOf : H → H → Except E Bool) (hash : H) (number : N) (predicate : V → Bool)

/-- Where the post-order search of `find_node_index_where` stands after a subtree:
nothing below is an ancestor of `hash` (`miss`), a node passing the predicate was
found at the given path (`hit`), or an ancestor was met and the search is climbing
back up checking only the predicate (`climb`, the flag `is_descendent`). -/
inductive Probe where
  | miss
  | hit (path : List ℕ)
  | climb
  deriving DecidableEq, Repr

/-- What a node does once the search reaches it as an ancestor of `hash`. -/
def Probe.atAncestor (d : V) : Probe := if predicate d then .hit [] else .climb

mutual
/-- The search below one node: children first, in order, skipping those whose
number is not below `number`; then the node itself. -/
def probeNode : Node H N V → Except (Error E) Probe
  | ⟨h, _, d, cs⟩ =>
    match probeChildren cs 0 with
    | .error e => .error e
    | .ok (.hit p) => .ok (.hit p)
    | .ok .climb => .ok (Probe.atAncestor predicate d)
    | .ok .miss =>
      match isDescendentOf h hash with
      | .error e => .error (.client e)
      | .ok true => .ok (Probe.atAncestor predicate d)
      | .ok false => .ok .miss
/-- The search over the children of a node, `i` being the index of the first. -/
def probeChildren : List (Node H N V) → ℕ → Except (Error E) Probe
  | [], _ => .ok .miss
  | c :: cs, i =>
    if c.number < number then
      match probeNode c with
      | .error e => .error e
      | .ok (.hit p) => .ok (.hit (i :: p))
      | .ok .climb => .ok .climb
      | .ok .miss => probeChildren cs (i + 1)
    else probeChildren cs (i + 1)
end

/-- The loop over the roots of `find_node_index_where`; a climb that reaches a
root without a hit ends the search with `None`. -/
def probeRoots : List (Node H N V) → ℕ → Except (Error E) (Option (List ℕ))
  | [], _ => .ok none
  | r :: rs, i =>
    if number ≤ r.number then probeRoots rs (i + 1)
    else
      match probeNode isDescendentOf hash number predicate r with
      | .error e => .error e
      | .ok (.hit p) => .ok (some (i :: p))
      | .ok .climb => .ok none
      | .ok .miss => probeRoots rs (i + 1)

/-- `ForkTree::find_node_index_where`: the index path of the deepest ancestor of
`hash` passing the predicate. -/
def findNodeIndexWhere (t : ForkTree H N V) : Except (Error E) (Option (List ℕ)) :=
  probeRoots isDescendentOf hash number predicate t.roots 0

end Search

/-- The node reached by an index path. -/
def nodeAt : List (Node H N V) → List ℕ → Option (Node H N V)
  | _, [] => none
  | ns, [i] => ns[i]?
  | ns, i :: p => ns[i]? >>= fun n => nodeAt n.children p

/-- Append `c` to the children of the node at the path. -/
def pushChildAt (c : Node H N V) : List (Node H N V) → List ℕ → List (Node H N V)
  | ns, [] => ns
  | ns, [i] => ns.modify i fun n => { n with children := n.children ++ [c] }
  | ns, i :: p => ns.modify i fun n => { n with children := pushChildAt c n.children p }

/-- Detach the node at the path: the node, and the forest without it. -/
def detachAt : List (Node H N V) → List ℕ → Option (Node H N V × List (Node H N V))
  | _, [] => none
  | ns, [i] => ns[i]?.map fun n => (n, ns.eraseIdx i)
  | ns, i :: p => ns[i]? >>= fun n =>
      (detachAt n.children p).map fun r => (r.1, ns.set i { n with children := r.2 })

/-- Overwrite the node at the path: a write through the `&mut` reference that
`find_node_where_mut` returns. -/
def setAt (node : Node H N V) : List (Node H N V) → List ℕ → List (Node H N V)
  | ns, [] => ns
  | ns, [i] => ns.set i node
  | ns, i :: p => ns.modify i fun n => { n with children := setAt node n.children p }

/-- The lookup of `find_node_where`: fold through the children along every index of
the path but the last, then index by the last. An index out of range panics in the
code and gives `none` here. -/
def nodeAlong (roots : List (Node H N V)) (path : List ℕ) : Option (Node H N V) :=
  (path.take (path.length - 1)).foldlM (fun curr i => curr[i]?.map Node.children) roots >>= fun children =>
    path[path.length - 1]? >>= fun i => children[i]?

section Lookup

variable [LinearOrder N]
variable (isDescendentOf : H → H → Except E Bool) (hash : H) (number : N) (predicate : V → Bool)

/-- `ForkTree::find_node_where`. -/
def findNodeWhere (t : ForkTree H N V) : Except (Error E) (Option (Node H N V)) := do
  let maybePath ← findNodeIndexWhere isDescendentOf hash number predicate t
  pure (maybePath.bind (nodeAlong t.roots))

/-- `ForkTree::find_node_where_mut`: the node found, and the tree left by writing a new
node through the reference. -/
def findNodeWhereMut (t : ForkTree H N V) :
    Except (Error E) (Option (Node H N V × (Node H N V → ForkTree H N V))) := do
  let maybePath ← findNodeIndexWhere isDescendentOf hash number predicate t
  pure (maybePath.bind fun path =>
    (nodeAlong t.roots path).map fun node => (node, fun node' => { t with roots := setAt node' t.roots path }))

end Lookup

/-- `ForkTreeIterator`: a stack of nodes still to visit, its top at the end. -/
structure ForkTreeIterator (H N V : Type) where
  stack : List (Node H N V)

/-- `ForkTreeIterator::next`: pop the top node, yield it and push its children in
reverse, so that the first child comes next. -/
def ForkTreeIterator.next (it : ForkTreeIterator H N V) : Option (Node H N V × ForkTreeIterator H N V) :=
  match it.stack.getLast? with
  | none => none
  | some node => some (node, ⟨it.stack.dropLast ++ node.children.reverse⟩)

theorem ForkTreeIterator.sizeList_next {it it' : ForkTreeIterator H N V} {node : Node H N V}
    (h : it.next = some (node, it')) : Node.sizeList it'.stack < Node.sizeList it.stack := by
  unfold next at h
  split at h
  · cases h
  · rename_i top htop
    obtain ⟨rfl, rfl⟩ : top = node ∧ _ := by simpa using h
    have hstack : it.stack = it.stack.dropLast ++ [top] :=
      (List.dropLast_append_getLast? top htop).symm
    conv_rhs => rw [hstack]
    simp [Node.size_eq top]

/-- Every node the iterator yields. -/
def ForkTreeIterator.toList (it : ForkTreeIterator H N V) : List (Node H N V) :=
  match h : it.next with
  | none => []
  | some (node, it') =>
    have := ForkTreeIterator.sizeList_next h
    node :: it'.toList
termination_by Node.sizeList it.stack

/-- `ForkTree::node_iter`: the roots go on the stack reversed, so the first comes out first. -/
def nodeIter (t : ForkTree H N V) : ForkTreeIterator H N V := ⟨t.roots.reverse⟩

section Operations

variable [DecidableEq H] [LinearOrder N]
variable (isDescendentOf : H → H → Except E Bool)

/-- The `Revert` guard: `number` is not above the best finalized number. -/
def reverts (t : ForkTree H N V) (number : N) : Bool :=
  match t.bestFinalizedNumber with
  | some b => decide (number ≤ b)
  | none => false

/-- `ForkTree::import`. -/
def «import» (hash : H) (number : N) (data : V) (t : ForkTree H N V) : Outcome E H N V Bool :=
  if reverts t number then .error .revert t
  else
    let node : Node H N V := ⟨hash, number, data, []⟩
    match findNodeIndexWhere isDescendentOf hash number (fun _ => true) t with
    | .error e => .error e t
    | .ok none =>
      if t.roots.any (fun n => decide (n.hash = hash)) then .error .duplicate t
      else
        let t' : ForkTree H N V := ⟨t.roots ++ [node], t.bestFinalizedNumber⟩
        .ok true (if (t.roots ++ [node]).length = 1 then t'.rebalance else t')
    | .ok (some path) =>
      match nodeAt t.roots path with
      -- never taken: the search only returns paths into the tree
      | none => .ok false t
      | some parent =>
        if parent.children.any (fun n => decide (n.hash = hash)) then .error .duplicate t
        else
          let t' : ForkTree H N V := ⟨pushChildAt node t.roots path, t.bestFinalizedNumber⟩
          .ok false (if (parent.children ++ [node]).length = 1 then t'.rebalance else t')

/-- `ForkTree::finalize_root`: the children of the finalized root become the roots. -/
def finalizeRoot (hash : H) (t : ForkTree H N V) : Option V × ForkTree H N V :=
  match t.roots.find? (fun n => decide (n.hash = hash)) with
  | none => (none, t)
  | some node => (some node.data, ⟨node.children, some node.number⟩)

/-- The guard loop of `finalize`: some root below `number` is an ancestor of `hash`. -/
def someRootAncestor (hash : H) (number : N) : List (Node H N V) → Except E Bool
  | [] => .ok false
  | r :: rs =>
    if r.number < number then
      match isDescendentOf r.hash hash with
      | .error e => .error e
      | .ok true => .ok true
      | .ok false => someRootAncestor hash number rs
    else someRootAncestor hash number rs

/-- The retain loop of `finalize` over the taken roots: the state is the roots
pushed back so far, the value whether some root was dropped. -/
def retainDescendents (hash : H) (number : N) :
    List (Node H N V) → List (Node H N V) → Bool → EStateM.Result E (List (Node H N V)) Bool
  | [], kept, changed => .ok changed kept
  | r :: rs, kept, changed =>
    if number < r.number then
      match isDescendentOf hash r.hash with
      | .error e => .error e kept
      | .ok true => retainDescendents hash number rs (kept ++ [r]) changed
      | .ok false => retainDescendents hash number rs kept true
    else retainDescendents hash number rs kept true

/-- `ForkTree::finalize`. -/
def finalize (hash : H) (number : N) (t : ForkTree H N V) :
    Outcome E H N V (FinalizationResult V) :=
  if reverts t number then .error .revert t
  else
    match finalizeRoot hash t with
    | (some d, t') => .ok (.changed (some d)) t'
    | (none, _) =>
      match someRootAncestor isDescendentOf hash number t.roots with
      | .error e => .error (.client e) t
      | .ok true => .error .unfinalizedAncestor t
      | .ok false =>
        -- `self.roots` was taken: an error leaves only the roots pushed back
        match retainDescendents isDescendentOf hash number t.roots [] false with
        | .error e kept => .error (.client e) ⟨kept, t.bestFinalizedNumber⟩
        | .ok changed kept =>
          .ok (if changed then .changed none else .unchanged) ⟨kept, some number⟩

/-- The loop of `finalize_with_ancestors`, at index `idx` of the current roots. -/
def finalizeWithAncestorsLoop (hash : H) (number : N) (best : Option N)
    (roots : List (Node H N V)) (idx : ℕ) (changed : Bool) :
    Outcome E H N V (FinalizationResult V) :=
  if h : idx < roots.length then
    let root := roots[idx]
    if root.hash = hash then .ok (.changed (some root.data)) ⟨root.children, some root.number⟩
    else
      let isDescendant : Except E Bool :=
        if number < root.number then isDescendentOf hash root.hash else .ok false
      match isDescendant with
      | .error e => .error (.client e) ⟨roots, best⟩
      | .ok true => finalizeWithAncestorsLoop hash number best roots (idx + 1) changed
      | .ok false =>
        let isAncestor : Except E Bool :=
          if root.number < number then isDescendentOf root.hash hash else .ok false
        match isAncestor with
        | .error e => .error (.client e) ⟨roots, best⟩
        -- an ancestor is opened: its children join the roots
        | .ok true =>
          finalizeWithAncestorsLoop hash number best (swapRemove roots idx ++ root.children) idx true
        | .ok false => finalizeWithAncestorsLoop hash number best (swapRemove roots idx) idx true
  else .ok (if changed then .changed none else .unchanged) ⟨roots, some number⟩
termination_by (Node.sizeList roots, roots.length - idx)
decreasing_by
  all_goals first
    | exact Prod.Lex.right _ (by omega)
    | (apply Prod.Lex.left
       have hs := sizeList_swapRemove_add h
       have hr := Node.size_eq roots[idx]
       try simp only [Node.sizeList_append]
       omega)

/-- `ForkTree::finalize_with_ancestors`. -/
def finalizeWithAncestors (hash : H) (number : N) (t : ForkTree H N V) :
    Outcome E H N V (FinalizationResult V) :=
  if reverts t number then .error .revert t
  else
    match finalizeRoot hash t with
    | (some d, t') => .ok (.changed (some d)) t'
    | (none, _) =>
      finalizeWithAncestorsLoop isDescendentOf hash number t.bestFinalizedNumber t.roots 0 false

/-- The inner loop of `finalize_with_descendent_if`: some child not above `number`
is `hash` or an ancestor of it. -/
def childFinalizedPast (hash : H) (number : N) : List (Node H N V) → Except E Bool
  | [] => .ok false
  | c :: cs =>
    if c.number ≤ number then
      if c.hash = hash then .ok true
      else
        match isDescendentOf c.hash hash with
        | .error e => .error e
        | .ok true => .ok true
        | .ok false => childFinalizedPast hash number cs
    else childFinalizedPast hash number cs

/-- The position loop of `finalize_with_descendent_if`: the first root passing the
predicate that is `hash` or an ancestor of it, unless one of its children is too. -/
def findFinalizedRoot (hash : H) (number : N) (predicate : V → Bool) :
    List (Node H N V) → ℕ → Except (Error E) (Option ℕ)
  | [], _ => .ok none
  | r :: rs, i =>
    let isMatch : Except E Bool :=
      if predicate r.data then (if r.hash = hash then .ok true else isDescendentOf r.hash hash)
      else .ok false
    match isMatch with
    | .error e => .error (.client e)
    | .ok false => findFinalizedRoot hash number predicate rs (i + 1)
    | .ok true =>
      match childFinalizedPast isDescendentOf hash number r.children with
      | .error e => .error (.client e)
      | .ok true => .error .unfinalizedAncestor
      | .ok false => .ok (some i)

/-- The search loop of `finalizes_any_with_descendent_if`: the same test as
`findFinalizedRoot`, over every node the iterator yields, returning the node itself. -/
def findFinalizedNode (hash : H) (number : N) (predicate : V → Bool) :
    List (Node H N V) → Except (Error E) (Option (Node H N V))
  | [] => .ok none
  | node :: nodes =>
    let isMatch : Except E Bool :=
      if predicate node.data then (if node.hash = hash then .ok true else isDescendentOf node.hash hash)
      else .ok false
    match isMatch with
    | .error e => .error (.client e)
    | .ok false => findFinalizedNode hash number predicate nodes
    | .ok true =>
      match childFinalizedPast isDescendentOf hash number node.children with
      | .error e => .error (.client e)
      | .ok true => .error .unfinalizedAncestor
      | .ok false => .ok (some node)

/-- The retain loop of `finalize_with_descendent_if`: keeps descendants of `hash`,
`hash` itself and its ancestors. -/
def retainFinalizedBranch (hash : H) (number : N) :
    List (Node H N V) → List (Node H N V) → Bool → EStateM.Result E (List (Node H N V)) Bool
  | [], kept, changed => .ok changed kept
  | r :: rs, kept, changed =>
    let isDescendant : Except E Bool :=
      if number < r.number then isDescendentOf hash r.hash else .ok false
    match isDescendant with
    | .error e => .error e kept
    | .ok true => retainFinalizedBranch hash number rs (kept ++ [r]) changed
    | .ok false =>
      if r.number = number ∧ r.hash = hash then
        retainFinalizedBranch hash number rs (kept ++ [r]) changed
      else
        match isDescendentOf r.hash hash with
        | .error e => .error e kept
        | .ok true => retainFinalizedBranch hash number rs (kept ++ [r]) changed
        | .ok false => retainFinalizedBranch hash number rs kept true

/-- `ForkTree::finalize_with_descendent_if`. -/
def finalizeWithDescendentIf (hash : H) (number : N) (predicate : V → Bool)
    (t : ForkTree H N V) : Outcome E H N V (FinalizationResult V) :=
  if reverts t number then .error .revert t
  else
    match findFinalizedRoot isDescendentOf hash number predicate t.roots 0 with
    | .error e => .error e t
    | .ok position =>
      let finalized : Option V × ForkTree H N V :=
        match position.bind (t.roots[·]?) with
        | some node => (some node.data, ⟨node.children, some node.number⟩)
        | none => (none, t)
      match retainFinalizedBranch isDescendentOf hash number finalized.2.roots [] false with
      | .error e kept => .error (.client e) ⟨kept, finalized.2.bestFinalizedNumber⟩
      | .ok changed kept =>
        let result : FinalizationResult V :=
          match finalized.1, changed with
          | some d, _ => .changed (some d)
          | none, true => .changed none
          | none, false => .unchanged
        .ok result ⟨kept, some number⟩

/-- `ForkTree::finalizes_any_with_descendent_if`: the dry run of
`finalize_with_descendent_if`, searching every node in pre-order; `some true` when the
node it finds is a root. -/
def finalizesAnyWithDescendentIf (hash : H) (number : N) (predicate : V → Bool)
    (t : ForkTree H N V) : Except (Error E) (Option Bool) :=
  if reverts t number then .error .revert
  else
    match findFinalizedNode isDescendentOf hash number predicate (nodeIter t).toList with
    | .error e => .error e
    | .ok none => .ok none
    | .ok (some node) => .ok (some (t.roots.any fun root => decide (root.hash = node.hash)))

/-- The first child, by index, below `number` that is an ancestor of `hash`. -/
def ancestorChild (hash : H) (number : N) : List (Node H N V) → ℕ → Except E (Option ℕ)
  | [], _ => .ok none
  | c :: cs, i =>
    if c.number < number then
      match isDescendentOf c.hash hash with
      | .error e => .error e
      | .ok true => .ok (some i)
      | .ok false => ancestorChild hash number cs (i + 1)
    else ancestorChild hash number cs (i + 1)

/-- The last loop of `prune` over the taken children: keeps `hash` itself and its
descendants. The state is the children pushed back so far, the value the removed. -/
def keepFinalizedChildren (hash : H) (number : N) :
    List (Node H N V) → List (Node H N V) → List (Node H N V) →
      EStateM.Result E (List (Node H N V)) (List (Node H N V))
  | [], kept, removed => .ok removed kept
  | c :: cs, kept, removed =>
    if c.number = number ∧ c.hash = hash then
      keepFinalizedChildren hash number cs (kept ++ [c]) removed
    else if number < c.number then
      match isDescendentOf hash c.hash with
      | .error e => .error e kept
      | .ok true => keepFinalizedChildren hash number cs (kept ++ [c]) removed
      | .ok false => keepFinalizedChildren hash number cs kept (removed ++ [c])
    else keepFinalizedChildren hash number cs kept (removed ++ [c])

/-- `prune` below the new root: descends along the ancestors of `hash`, dropping
their siblings, then filters the children of the last one. The state is the node
as rebuilt so far, the value the removed subtrees. -/
def pruneBelow (hash : H) (number : N) (node : Node H N V) (removed : List (Node H N V)) :
    EStateM.Result E (Node H N V) (List (Node H N V)) :=
  match ancestorChild isDescendentOf hash number node.children 0 with
  | .error e => .error e node
  | .ok (some i) =>
    match h : node.children[i]? with
    -- never taken: `ancestorChild` returns an index of a child
    | none => .ok removed node
    | some next =>
      have : next.size < node.size :=
        Node.size_lt_of_mem_children (List.mem_of_getElem? h)
      match pruneBelow hash number next (removed ++ node.children.eraseIdx i) with
      | .ok removed' next' => .ok removed' { node with children := [next'] }
      | .error e next' => .error e { node with children := [next'] }
  | .ok none =>
    match keepFinalizedChildren isDescendentOf hash number node.children [] removed with
    | .ok removed' kept => .ok removed' { node with children := kept }
    | .error e kept => .error e { node with children := kept }
termination_by node.size

/-- `ForkTree::prune`: re-roots the tree at the deepest ancestor of `hash` passing
the predicate; returns the removed subtrees. -/
def prune (hash : H) (number : N) (predicate : V → Bool) (t : ForkTree H N V) :
    Outcome E H N V (List (Node H N V)) :=
  match findNodeIndexWhere isDescendentOf hash number predicate t with
  | .error e => .error e t
  | .ok none => .ok [] t
  | .ok (some path) =>
    match detachAt t.roots path with
    -- never taken: the search only returns paths into the tree
    | none => .ok [] t
    | some (root, removed) =>
      match pruneBelow isDescendentOf hash number root removed with
      | .error e root' => .error (.client e) ⟨[root'], t.bestFinalizedNumber⟩
      | .ok removed' root' => .ok removed' (rebalance ⟨[root'], t.bestFinalizedNumber⟩)

end Operations

/-- `RemovedIterator`: a stack of removed subtrees, its top at the end. -/
structure RemovedIterator (H N V : Type) where
  stack : List (Node H N V)

/-- `RemovedIterator::next`: pop the top subtree, yield its root and push its children
in reverse, so that the first child comes next. -/
def RemovedIterator.next (it : RemovedIterator H N V) : Option ((H × N × V) × RemovedIterator H N V) :=
  match it.stack.getLast? with
  | none => none
  | some node => some ((node.hash, node.number, node.data), ⟨it.stack.dropLast ++ node.children.reverse⟩)

theorem RemovedIterator.sizeList_next {it it' : RemovedIterator H N V} {x : H × N × V}
    (h : it.next = some (x, it')) : Node.sizeList it'.stack < Node.sizeList it.stack := by
  unfold next at h
  split at h
  · cases h
  · rename_i node hlast
    cases h
    have hstack : it.stack = it.stack.dropLast ++ [node] :=
      (List.dropLast_append_getLast? node hlast).symm
    conv_rhs => rw [hstack]
    simp [Node.size_eq node]

/-- Everything the iterator yields. -/
def RemovedIterator.toList (it : RemovedIterator H N V) : List (H × N × V) :=
  match h : it.next with
  | none => []
  | some (x, it') =>
    have := RemovedIterator.sizeList_next h
    x :: it'.toList
termination_by Node.sizeList it.stack

section DrainFilter

variable (filter : H → N → V → FilterAction)

/-- One level of the breadth-first pass of `drain_filter`, over `queue` in order,
returning `(next_queue, retained, removed)`. Parents are positions in `retained`,
`none` standing for `usize::MAX`. -/
def drainLevel : List (Option ℕ × Node H N V) → List (Option ℕ × Node H N V) →
    List (Option ℕ × Node H N V) → List (Node H N V) →
      List (Option ℕ × Node H N V) × List (Option ℕ × Node H N V) × List (Node H N V)
  | [], next, retained, removed => (next, retained, removed)
  | (p, n) :: queue, next, retained, removed =>
    match filter n.hash n.number n.data with
    | .keepNode =>
      drainLevel queue (next ++ n.children.reverse.map fun c => (some retained.length, c))
        (retained ++ [(p, { n with children := [] })]) removed
    | .keepTree => drainLevel queue next (retained ++ [(p, n)]) removed
    | .remove => drainLevel queue next retained (removed ++ [n])

theorem drainLevel_sizeList (queue next retained : List (Option ℕ × Node H N V))
    (removed : List (Node H N V)) :
    Node.sizeList ((drainLevel filter queue next retained removed).1.map Prod.snd) + queue.length ≤
      Node.sizeList (next.map Prod.snd) + Node.sizeList (queue.map Prod.snd) := by
  induction queue generalizing next retained removed with
  | nil => simp [drainLevel]
  | cons q queue ih =>
    obtain ⟨p, n⟩ := q
    have hn := Node.size_eq n
    simp only [drainLevel]
    split
    · have := ih (next ++ n.children.reverse.map fun c => (some retained.length, c))
        (retained ++ [(p, { n with children := [] })]) removed
      simp [List.map_map, Function.comp_def] at this ⊢
      omega
    · have := ih next (retained ++ [(p, n)]) removed
      simp at this ⊢
      omega
    · have := ih next retained (removed ++ [n])
      simp at this ⊢
      omega

/-- The levels of `drain_filter` until the queue is empty: `(retained, removed)`. -/
def drainLevels (queue retained : List (Option ℕ × Node H N V)) (removed : List (Node H N V)) :
    List (Option ℕ × Node H N V) × List (Node H N V) :=
  match queue with
  | [] => (retained, removed)
  | q :: qs =>
    match h : drainLevel filter (q :: qs) [] retained removed with
    | (next, retained', removed') =>
      have : Node.sizeList (next.map Prod.snd) < Node.sizeList ((q :: qs).map Prod.snd) := by
        have := drainLevel_sizeList filter (q :: qs) [] retained removed
        rw [h] at this
        simp at this ⊢
        omega
      drainLevels next retained' removed'
termination_by Node.sizeList (queue.map Prod.snd)

/-- The rebuild of `drain_filter`: pops `retained` from the end, pushing each node
to the roots or to the children of its retained parent. -/
def rebuild (retained : List (Option ℕ × Node H N V)) (roots : List (Node H N V)) :
    List (Node H N V) :=
  if h : retained = [] then roots
  else
    have : retained.dropLast.length < retained.length := by
      have := List.length_pos_of_ne_nil h
      simp; omega
    match retained.getLast h with
    | (none, n) => rebuild retained.dropLast (roots ++ [n])
    | (some i, n) =>
      rebuild (retained.dropLast.modify i fun (q, m) => (q, { m with children := m.children ++ [n] }))
        roots
termination_by retained.length

section Map

variable {VT σ : Type} (f : H → N → V → σ → VT × σ)

/-- One level of the breadth-first pass of `map`, over `queue` in order, returning
`(next_queue, output)` and the state of `f`, an `FnMut` whose captured state is `σ`. -/
def mapLevel : List (Option ℕ × Node H N V) → List (Option ℕ × Node H N V) →
    List (Option ℕ × Node H N VT) → σ → List (Option ℕ × Node H N V) × List (Option ℕ × Node H N VT) × σ
  | [], next, output, s => (next, output, s)
  | (p, n) :: queue, next, output, s =>
    let r := f n.hash n.number n.data s
    mapLevel queue (next ++ n.children.reverse.map fun c => (some output.length, c))
      (output ++ [(p, ⟨n.hash, n.number, r.1, []⟩)]) r.2

theorem mapLevel_sizeList (queue next : List (Option ℕ × Node H N V)) (output : List (Option ℕ × Node H N VT))
    (s : σ) :
    Node.sizeList ((mapLevel f queue next output s).1.map Prod.snd) + queue.length ≤
      Node.sizeList (next.map Prod.snd) + Node.sizeList (queue.map Prod.snd) := by
  induction queue generalizing next output s with
  | nil => simp [mapLevel]
  | cons q queue ih =>
    obtain ⟨p, n⟩ := q
    have hn := Node.size_eq n
    have := ih (next ++ n.children.reverse.map fun c => (some output.length, c))
      (output ++ [(p, ⟨n.hash, n.number, (f n.hash n.number n.data s).1, []⟩)]) (f n.hash n.number n.data s).2
    simp only [mapLevel]
    simp [List.map_map, Function.comp_def] at this ⊢
    omega

/-- The levels of `map` until the queue is empty: the output and the state of `f`. -/
def mapLevels (queue : List (Option ℕ × Node H N V)) (output : List (Option ℕ × Node H N VT)) (s : σ) :
    List (Option ℕ × Node H N VT) × σ :=
  match queue with
  | [] => (output, s)
  | q :: qs =>
    match h : mapLevel f (q :: qs) [] output s with
    | (next, output', s') =>
      have : Node.sizeList (next.map Prod.snd) < Node.sizeList ((q :: qs).map Prod.snd) := by
        have := mapLevel_sizeList f (q :: qs) [] output s
        rw [h] at this
        simp at this ⊢
        omega
      mapLevels next output' s'
termination_by Node.sizeList (queue.map Prod.snd)

/-- `ForkTree::map`: the mapped tree, rebuilt as `drain_filter` rebuilds, and the state
`f` is left in. -/
def map (t : ForkTree H N V) (s : σ) : ForkTree H N VT × σ :=
  let r := mapLevels f (t.roots.reverse.map fun n => (none, n)) [] s
  (⟨rebuild r.1 [], t.bestFinalizedNumber⟩, r.2)

end Map

/-- `ForkTree::drain_filter`: the removed subtrees and the filtered tree. -/
def drainFilter (t : ForkTree H N V) : List (Node H N V) × ForkTree H N V :=
  let r := drainLevels filter (t.roots.reverse.map fun n => (none, n)) [] []
  let t' : ForkTree H N V := ⟨rebuild r.1 [], t.bestFinalizedNumber⟩
  (r.2, if r.2.isEmpty then t' else t'.rebalance)

end DrainFilter

end ForkTree
end PolkadotSdk
