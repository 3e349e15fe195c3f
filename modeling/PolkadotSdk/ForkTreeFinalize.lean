import PolkadotSdk.ForkTreeWF

/-!
# Finalization keeps a fork tree well formed

`finalize_root`, `finalize`, `finalize_with_ancestors` and `finalize_with_descendent_if`
only keep some of the roots, make the children of a root the roots, or open an ancestor
root so that its children join the others. Whatever the ancestry oracle answers, and also
on an error, the tree they leave is well formed and holds some of the nodes it held.
-/

namespace PolkadotSdk
namespace ForkTree

open Node TreeOrder

variable {H N V E : Type} [LinearOrder N] {o : BlockTree H N}

section Retain

variable (isDescendentOf : H → H → Except E Bool) (hash : H) (number : N)

theorem retainDescendents_sublist : ∀ (rs kept : List (Node H N V)) (changed : Bool),
    (resultState (retainDescendents isDescendentOf hash number rs kept changed)).Sublist (kept ++ rs)
  | [], kept, changed => by simp [retainDescendents, resultState]
  | r :: rs, kept, changed => by
    unfold retainDescendents
    split
    · split
      · simp [resultState]
      · simpa using retainDescendents_sublist rs (kept ++ [r]) changed
      · exact (retainDescendents_sublist rs kept true).trans ((List.sublist_cons_self r rs).append_left kept)
    · exact (retainDescendents_sublist rs kept true).trans ((List.sublist_cons_self r rs).append_left kept)

theorem retainFinalizedBranch_sublist [DecidableEq H] : ∀ (rs kept : List (Node H N V)) (changed : Bool),
    (resultState (retainFinalizedBranch isDescendentOf hash number rs kept changed)).Sublist (kept ++ rs)
  | [], kept, changed => by simp [retainFinalizedBranch, resultState]
  | r :: rs, kept, changed => by
    have hdrop := (retainFinalizedBranch_sublist rs kept true).trans
      ((List.sublist_cons_self r rs).append_left kept)
    have hkeep : (resultState (retainFinalizedBranch isDescendentOf hash number rs (kept ++ [r]) changed)).Sublist
        (kept ++ r :: rs) := by
      simpa using retainFinalizedBranch_sublist rs (kept ++ [r]) changed
    unfold retainFinalizedBranch
    dsimp only
    split
    · simp [resultState]
    · exact hkeep
    · split
      · exact hkeep
      · split
        · simp [resultState]
        · exact hkeep
        · exact hdrop

end Retain

variable [DecidableEq H] (isDescendentOf : H → H → Except E Bool)

theorem finalizeRoot_wfSub {t : ForkTree H N V} (ht : t.WF o) (hash : H) :
    WFSub o t (finalizeRoot hash t).2 := by
  unfold finalizeRoot
  split
  · exact WFSub.refl ht
  · exact WFSub.of_mem_roots ht (List.mem_of_find?_eq_some (by assumption)) _ _

theorem finalize_wfSub {t : ForkTree H N V} (ht : t.WF o) (hash : H) (number : N) :
    WFSub o t (resultState (finalize isDescendentOf hash number t)) := by
  unfold finalize
  split
  · exact WFSub.refl ht
  · split
    · rename_i hroot
      have h := finalizeRoot_wfSub ht hash
      rw [hroot] at h
      exact h
    · split
      · exact WFSub.refl ht
      · exact WFSub.refl ht
      · have hs := retainDescendents_sublist isDescendentOf hash number t.roots [] false
        split
        all_goals
          rename_i hr
          rw [hr] at hs
          exact WFSub.of_sublist ht (by simpa [resultState] using hs) _ _

section Roots

variable {roots : List (Node H N V)} {i : ℕ}

omit [LinearOrder N] [DecidableEq H] in
theorem nodesList_perm_eraseIdx (hi : i < roots.length) :
    (nodesList roots).Perm (roots[i].nodes ++ nodesList (roots.eraseIdx i)) := by
  have hl : roots = roots.take i ++ roots[i] :: roots.drop (i + 1) := by
    rw [List.getElem_cons_drop, List.take_append_drop]
  conv_lhs => rw [hl]
  rw [List.eraseIdx_eq_take_drop_succ]
  simp only [nodesList_append, nodesList_cons]
  rw [← List.append_assoc, ← List.append_assoc]
  exact List.perm_append_comm.append_right _

omit [DecidableEq H] in
theorem ForestWF.unrelated_of_mem_eraseIdx (h : ForestWF o roots) (hi : i < roots.length)
    {a : Node H N V} (ha : a ∈ roots.eraseIdx i) : o.Unrelated a.hash roots[i].hash := by
  have hp : (roots.take i ++ roots[i] :: roots.drop (i + 1)).Pairwise fun a b => o.Unrelated a.hash b.hash := by
    rw [List.getElem_cons_drop, List.take_append_drop]
    exact h.2
  rw [List.eraseIdx_eq_take_drop_succ] at ha
  obtain ⟨-, hcons, hcross⟩ := List.pairwise_append.mp hp
  rcases List.mem_append.mp ha with ha | ha
  · exact hcross a ha roots[i] List.mem_cons_self
  · exact ((List.pairwise_cons.mp hcons).1 a ha).symm

omit [DecidableEq H] in
theorem ForestWF.swapRemove (h : ForestWF o roots) (hi : i < roots.length) :
    ForestWF o (swapRemove roots i) :=
  (h.sublist (List.eraseIdx_sublist _ _)).perm (swapRemove_perm hi).symm

/-- Dropping a root. -/
theorem WFSub.dropRoot (h : ForestWF o roots) (hi : i < roots.length) (best : Option N) :
    WFSub o ⟨roots, best⟩ ⟨swapRemove roots i, best⟩ :=
  ⟨h.swapRemove hi, (nodesList_perm (swapRemove_perm hi)).subperm.trans
    (nodesList_sublist (List.eraseIdx_sublist _ _)).subperm⟩

/-- Opening a root: its children join the other roots. -/
theorem WFSub.openRoot (h : ForestWF o roots) (hi : i < roots.length) (best : Option N) :
    WFSub o ⟨roots, best⟩ ⟨swapRemove roots i ++ roots[i].children, best⟩ := by
  have hr := h.of_mem (List.getElem_mem hi)
  refine ⟨(h.swapRemove hi).append hr.forest fun a ha b hb => ?_, ?_⟩
  · have hu := h.unrelated_of_mem_eraseIdx hi ((swapRemove_perm hi).subset ha)
    exact hu.of_le_of_le (le_refl _) (le_of_lt (hr.lt_child hb))
  · have h₁ : (nodesList (swapRemove roots i ++ roots[i].children)).Perm
        (nodesList (roots.eraseIdx i) ++ nodesList roots[i].children) := by
      rw [nodesList_append]
      exact (nodesList_perm (swapRemove_perm hi)).append_right _
    have h₂ := ((nodesList_children_sublist roots[i]).append_left (nodesList (roots.eraseIdx i))).subperm
    have h₃ := (List.perm_append_comm.trans (nodesList_perm_eraseIdx hi).symm).subperm
    exact h₁.subperm.trans (h₂.trans h₃)

end Roots

theorem finalizeWithAncestorsLoop_wfSub (hash : H) (number : N) (best : Option N)
    (roots : List (Node H N V)) (idx : ℕ) (changed : Bool) (h : ForestWF o roots) :
    WFSub o ⟨roots, best⟩
      (resultState (finalizeWithAncestorsLoop isDescendentOf hash number best roots idx changed)) := by
  fun_induction finalizeWithAncestorsLoop isDescendentOf hash number best roots idx changed with
  | case1 roots idx _ hi => exact WFSub.of_mem_roots h (List.getElem_mem hi) _ _
  | case2 => exact WFSub.refl h
  | case3 _ _ _ _ _ _ _ _ ih => exact ih h
  | case4 => exact WFSub.refl h
  | case5 roots idx _ hi _ _ _ _ _ _ ih =>
    have hopen := WFSub.openRoot h hi best
    exact hopen.trans (ih hopen.1)
  | case6 roots idx _ hi _ _ _ _ _ _ ih =>
    have hdrop := WFSub.dropRoot h hi best
    exact hdrop.trans (ih hdrop.1)
  | case7 => exact WFSub.of_sublist h (List.Sublist.refl _) _ _

theorem finalizeWithAncestors_wfSub {t : ForkTree H N V} (ht : t.WF o) (hash : H) (number : N) :
    WFSub o t (resultState (finalizeWithAncestors isDescendentOf hash number t)) := by
  unfold finalizeWithAncestors
  split
  · exact WFSub.refl ht
  · split
    · rename_i hroot
      have h := finalizeRoot_wfSub ht hash
      rw [hroot] at h
      exact h
    · exact finalizeWithAncestorsLoop_wfSub isDescendentOf hash number _ t.roots 0 false ht

theorem finalizeWithDescendentIf_wfSub {t : ForkTree H N V} (ht : t.WF o) (hash : H) (number : N)
    (predicate : V → Bool) :
    WFSub o t (resultState (finalizeWithDescendentIf isDescendentOf hash number predicate t)) := by
  unfold finalizeWithDescendentIf
  split
  · exact WFSub.refl ht
  · split
    · exact WFSub.refl ht
    · rename_i position _
      cases hb : position.bind (fun x => t.roots[x]?) with
      | none =>
        have hs := retainFinalizedBranch_sublist isDescendentOf hash number t.roots [] false
        dsimp only
        split
        all_goals
          rename_i hr
          rw [hr] at hs
          exact WFSub.of_sublist ht (by simpa [resultState] using hs) _ _
      | some node =>
        obtain ⟨i, -, hi⟩ := Option.bind_eq_some_iff.mp hb
        have h₁ := WFSub.of_mem_roots ht (List.mem_of_getElem? hi) t.bestFinalizedNumber (some node.number)
        have hs := retainFinalizedBranch_sublist isDescendentOf hash number node.children [] false
        dsimp only
        split
        all_goals
          rename_i hr
          rw [hr] at hs
          exact h₁.trans (WFSub.of_sublist h₁.1 (by simpa [resultState] using hs) _ _)

end ForkTree
end PolkadotSdk
