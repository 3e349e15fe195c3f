import PolkadotSdk.ForkTreeImport

/-!
# Pruning keeps a fork tree well formed

`prune` detaches the node its search finds and makes it the only root, then walks down
the ancestors of the pruned-to block keeping one child at each level, and filters the
children of the last one. Each step keeps a sublist of some node's children, so the tree
stays well formed and holds some of the nodes it held, whatever the oracle answers.
-/

namespace PolkadotSdk
namespace ForkTree

open Node TreeOrder

variable {H N V E : Type} [LinearOrder N] {o : BlockTree H N}

/-- The node that `detachAt` takes out is a well-formed subtree of the forest. -/
theorem ForestWF.of_detachAt : ∀ {ns : List (Node H N V)} {p : List ℕ} {r : Node H N V} {rest : List (Node H N V)},
    ForestWF o ns → detachAt ns p = some (r, rest) → r.WF o ∧ r.nodes.Sublist (nodesList ns)
  | _, [], _, _, _, hd => by simp [detachAt] at hd
  | ns, [i], r, rest, h, hd => by
    simp only [detachAt] at hd
    obtain ⟨n, hn, hnr⟩ := Option.map_eq_some_iff.mp hd
    cases hnr
    have hmem := List.mem_of_getElem? hn
    exact ⟨h.of_mem hmem, nodes_sublist_nodesList hmem⟩
  | ns, i :: j :: p, r, rest, h, hd => by
    simp only [detachAt] at hd
    obtain ⟨n, hn, hd'⟩ := Option.bind_eq_some_iff.mp hd
    obtain ⟨⟨r', rest'⟩, hr, hrr⟩ := Option.map_eq_some_iff.mp hd'
    cases hrr
    have hmem := List.mem_of_getElem? hn
    obtain ⟨hw, hs⟩ := ForestWF.of_detachAt (h.of_mem hmem).forest hr
    exact ⟨hw, hs.trans ((nodesList_children_sublist n).trans (nodes_sublist_nodesList hmem))⟩

section Prune

variable [DecidableEq H] (isDescendentOf : H → H → Except E Bool) (hash : H) (number : N)

theorem keepFinalizedChildren_sublist : ∀ (cs kept removed : List (Node H N V)),
    (resultState (keepFinalizedChildren isDescendentOf hash number cs kept removed)).Sublist (kept ++ cs)
  | [], kept, removed => by simp [keepFinalizedChildren, resultState]
  | c :: cs, kept, removed => by
    have hdrop := (keepFinalizedChildren_sublist cs kept (removed ++ [c])).trans
      ((List.sublist_cons_self c cs).append_left kept)
    have hkeep : (resultState (keepFinalizedChildren isDescendentOf hash number cs (kept ++ [c]) removed)).Sublist
        (kept ++ c :: cs) := by
      simpa using keepFinalizedChildren_sublist cs (kept ++ [c]) removed
    unfold keepFinalizedChildren
    split
    · exact hkeep
    · split
      · split
        · simp [resultState]
        · exact hkeep
        · exact hdrop
      · exact hdrop

omit [DecidableEq H] in
/-- Keeping a sublist of a node's children. -/
theorem Node.WF.withChildren {node : Node H N V} (h : node.WF o) {kept : List (Node H N V)}
    (hs : kept.Sublist node.children) :
    ({ node with children := kept } : Node H N V).WF o ∧
      ({ node with children := kept } : Node H N V).nodes.Sublist node.nodes := by
  refine ⟨wf_iff.mpr ⟨h.number_eq, fun c hc => h.lt_child (hs.subset hc), h.forest.sublist hs⟩, ?_⟩
  obtain ⟨h', k, d, cs⟩ := node
  simpa using nodesList_sublist hs

omit [DecidableEq H] in
/-- Keeping one child, itself pruned. -/
theorem Node.WF.withChild {node next next' : Node H N V} (h : node.WF o) (hmem : next ∈ node.children)
    (hw : next'.WF o) (hh : next'.hash = next.hash) (hs : next'.nodes.Sublist next.nodes) :
    ({ node with children := [next'] } : Node H N V).WF o ∧
      ({ node with children := [next'] } : Node H N V).nodes.Sublist node.nodes := by
  refine ⟨wf_iff.mpr ⟨h.number_eq, fun c hc => ?_, ⟨by simpa using hw, by simp⟩⟩, ?_⟩
  · rw [List.mem_singleton.mp hc, hh]
    exact h.lt_child hmem
  · obtain ⟨h', k, d, cs⟩ := node
    simpa using hs.trans (nodes_sublist_nodesList hmem)

/-- `pruneBelow` leaves a well-formed subtree with the same root and some of the nodes. -/
theorem pruneBelow_wf (node : Node H N V) (removed : List (Node H N V)) (h : node.WF o) :
    (resultState (pruneBelow isDescendentOf hash number node removed)).WF o ∧
      (resultState (pruneBelow isDescendentOf hash number node removed)).hash = node.hash ∧
      (resultState (pruneBelow isDescendentOf hash number node removed)).nodes.Sublist node.nodes := by
  fun_induction pruneBelow isDescendentOf hash number node removed with
  | case1 => exact ⟨h, rfl, List.Sublist.refl _⟩
  | case2 => exact ⟨h, rfl, List.Sublist.refl _⟩
  | case3 node removed i _ next hnext _ removed' next' hrec ih =>
    rw [hrec] at ih
    obtain ⟨hw, hh, hs⟩ := ih ((h.forest).of_mem (List.mem_of_getElem? hnext))
    obtain ⟨hw', hs'⟩ := h.withChild (List.mem_of_getElem? hnext) hw hh hs
    exact ⟨hw', rfl, hs'⟩
  | case4 node removed i _ next hnext _ e next' hrec ih =>
    rw [hrec] at ih
    obtain ⟨hw, hh, hs⟩ := ih ((h.forest).of_mem (List.mem_of_getElem? hnext))
    obtain ⟨hw', hs'⟩ := h.withChild (List.mem_of_getElem? hnext) hw hh hs
    exact ⟨hw', rfl, hs'⟩
  | case5 node removed _ removed' kept hkeep =>
    have hs := keepFinalizedChildren_sublist isDescendentOf hash number node.children [] removed
    rw [hkeep] at hs
    obtain ⟨hw', hs'⟩ := h.withChildren (by simpa [resultState] using hs)
    exact ⟨hw', rfl, hs'⟩
  | case6 node removed _ e kept hkeep =>
    have hs := keepFinalizedChildren_sublist isDescendentOf hash number node.children [] removed
    rw [hkeep] at hs
    obtain ⟨hw', hs'⟩ := h.withChildren (by simpa [resultState] using hs)
    exact ⟨hw', rfl, hs'⟩

/-- `prune` leaves a well-formed tree holding some of the nodes. -/
theorem prune_wfSub {t : ForkTree H N V} (ht : t.WF o) (predicate : V → Bool) :
    WFSub o t (resultState (prune isDescendentOf hash number predicate t)) := by
  unfold prune
  split
  · exact WFSub.refl ht
  · exact WFSub.refl ht
  · split
    · exact WFSub.refl ht
    · rename_i root removed hdetach
      obtain ⟨hroot, hsub⟩ := ht.of_detachAt hdetach
      obtain ⟨hw, -, hs⟩ := pruneBelow_wf isDescendentOf hash number root removed hroot
      have hone : WFSub o t ⟨[resultState (pruneBelow isDescendentOf hash number root removed)], t.bestFinalizedNumber⟩ :=
        ⟨⟨by simpa using hw, by simp⟩, by simpa using (hs.trans hsub).subperm⟩
      split
      · rename_i e root' hr
        rw [hr] at hone
        exact hone
      · rename_i removed' root' hr
        rw [hr] at hone
        exact hone.trans (WFSub.rebalance hone.1)

end Prune

end ForkTree
end PolkadotSdk
