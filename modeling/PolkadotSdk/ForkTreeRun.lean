import PolkadotSdk.ForkTreeFinalize
import PolkadotSdk.ForkTreePrune
import PolkadotSdk.ForkTreeDrain

/-!
# Runs of fork-tree calls

A fork tree is driven by a sequence of calls, each answered by the same ancestry oracle.
When the oracle is the ancestry of a block tree and blocks are imported with their
number after their ancestors, every tree reachable from `ForkTree::new` is well formed,
its hashes are unique, and a call only keeps nodes it held or the node it imports.
The number of a node need not stay above the last finalized number:
`finalize_with_descendent_if` keeps the roots that are ancestors of the finalized block.
-/

namespace PolkadotSdk
namespace ForkTree

variable {H N V E : Type}

/-- A call on a fork tree, with its arguments. -/
inductive Op (H N V : Type) where
  | «import» (hash : H) (number : N) (data : V)
  | finalizeRoot (hash : H)
  | finalize (hash : H) (number : N)
  | finalizeWithAncestors (hash : H) (number : N)
  | finalizeWithDescendentIf (hash : H) (number : N) (predicate : V → Bool)
  | prune (hash : H) (number : N) (predicate : V → Bool)
  | drainFilter (filter : H → N → V → FilterAction)
  | rebalance

namespace Op

/-- The node a call adds. -/
def imported : Op H N V → List (H × N × V)
  | .import hash number data => [(hash, number, data)]
  | _ => []

variable [DecidableEq H] [LinearOrder N]

/-- The tree after a call; after an error, the tree the call left behind. -/
def apply (isDescendentOf : H → H → Except E Bool) (t : ForkTree H N V) : Op H N V → ForkTree H N V
  | .import hash number data => resultState (ForkTree.import isDescendentOf hash number data t)
  | .finalizeRoot hash => (ForkTree.finalizeRoot hash t).2
  | .finalize hash number => resultState (ForkTree.finalize isDescendentOf hash number t)
  | .finalizeWithAncestors hash number =>
    resultState (ForkTree.finalizeWithAncestors isDescendentOf hash number t)
  | .finalizeWithDescendentIf hash number predicate =>
    resultState (ForkTree.finalizeWithDescendentIf isDescendentOf hash number predicate t)
  | .prune hash number predicate => resultState (ForkTree.prune isDescendentOf hash number predicate t)
  | .drainFilter filter => (ForkTree.drainFilter filter t).2
  | .rebalance => t.rebalance

/-- What the documentation asks of the caller: a block is imported with its own number,
and before any of its descendants. -/
def Allowed (o : BlockTree H N) (t : ForkTree H N V) : Op H N V → Prop
  | .import hash number _ => number = o.num hash ∧ ∀ x ∈ Node.nodesList t.roots, ¬o.lt hash x.1
  | _ => True

end Op

open Node

variable [DecidableEq H] [LinearOrder N] {o : BlockTree H N}

omit [DecidableEq H] in
theorem WFSub.subperm_imported {t t' : ForkTree H N V} (h : WFSub o t t') (op : Op H N V) :
    t'.WF o ∧ (nodesList t'.roots).Subperm (nodesList t.roots ++ op.imported) :=
  ⟨h.1, h.2.trans (List.sublist_append_left _ _).subperm⟩

/-- One call keeps a tree well formed, and adds at most the node it imports. -/
theorem Op.apply_wf [DecidableRel o.lt] {t : ForkTree H N V} (ht : t.WF o) {op : Op H N V}
    (hop : op.Allowed o t) :
    (op.apply (o.isDescendentOf : H → H → Except E Bool) t).WF o ∧
      (nodesList (op.apply (o.isDescendentOf : H → H → Except E Bool) t).roots).Subperm
        (nodesList t.roots ++ op.imported) := by
  cases op with
  | «import» hash number data => exact import_wf ht hash number data hop.1 hop.2
  | finalizeRoot hash => exact (finalizeRoot_wfSub ht hash).subperm_imported (.finalizeRoot hash)
  | finalize hash number =>
    exact (finalize_wfSub o.isDescendentOf ht hash number).subperm_imported (.finalize hash number)
  | finalizeWithAncestors hash number =>
    exact (finalizeWithAncestors_wfSub o.isDescendentOf ht hash number).subperm_imported
      (.finalizeWithAncestors hash number)
  | finalizeWithDescendentIf hash number predicate =>
    exact (finalizeWithDescendentIf_wfSub o.isDescendentOf ht hash number predicate).subperm_imported
      (.finalizeWithDescendentIf hash number predicate)
  | prune hash number predicate =>
    exact (prune_wfSub o.isDescendentOf hash number ht predicate).subperm_imported (.prune hash number predicate)
  | drainFilter filter => exact (drainFilter_wfSub filter ht).subperm_imported (.drainFilter filter)
  | rebalance => exact (WFSub.rebalance ht).subperm_imported .rebalance

/-- The trees a sequence of allowed calls reaches from an empty tree. -/
inductive Reachable (o : BlockTree H N) [DecidableRel o.lt] (E : Type) : ForkTree H N V → Prop
  | new : Reachable o E ForkTree.new
  | step {t : ForkTree H N V} {op : Op H N V} :
      Reachable o E t → op.Allowed o t → Reachable o E (op.apply (o.isDescendentOf : H → H → Except E Bool) t)

theorem Reachable.wf [DecidableRel o.lt] {t : ForkTree H N V} (h : Reachable o E t) : t.WF o := by
  induction h with
  | new => exact ForestWF.nil
  | step _ hop ih => exact (Op.apply_wf ih hop).1

/-- The chain of blocks numbered by their height. -/
def natChain : BlockTree ℕ ℕ where
  lt a b := a < b
  irrefl := Nat.lt_irrefl
  trans := Nat.lt_trans
  chain {a b _} _ _ := by omega
  num := id
  num_lt h := h

instance : DecidableRel natChain.lt := fun a b => Nat.decLt a b

/-- Every node is numbered above the last finalized block. -/
def AboveFinalized (t : ForkTree H N V) : Prop :=
  ∀ x ∈ nodesList t.roots, ∀ b ∈ t.bestFinalizedNumber, b < x.2.1

instance (t : ForkTree H N V) : Decidable (AboveFinalized t) :=
  inferInstanceAs (Decidable (∀ x ∈ nodesList t.roots, ∀ b ∈ t.bestFinalizedNumber, b < x.2.1))

end ForkTree
end PolkadotSdk
