import PolkadotSdk.ForkTreeReroot

/-!
# `map` and `drain_filter` against their recursive readings

Both functions flatten the forest breadth first into a list of `(parent, node)` entries
and rebuild it by popping that list from the end. Each is equal to the obvious recursive
function: `map` to `mapNode` on every root, and `drain_filter` to `filterNodes`, up to the
rebalance it does when something was removed; the iterator `drain_filter` returns yields
the nodes of the subtrees `removedNodes` drops, each once.

The argument is one invariant over the queue of the pass, the current level followed by
the next: rebuilding the entries already output, followed by what each queued subtree will
become, gives the same forest at every step. Processing a queued node only moves its
children to the end of the queue under the node's new position, and popping those entries
first pushes them, in their original order, onto that node (`rebuild_append_children`).

`f` is an `FnMut`, modelled with its captured state: its calls are those of a walk through
all the nodes, each once, so the state `map` leaves is that walk's; when its value does not
read that state, `map` is `mapNode` of it; and whatever it reads, the shape stays.
-/

namespace PolkadotSdk
namespace ForkTree

open Node

variable {H N V W : Type}

section Recursive

mutual
/-- The recursive `map`: the same node with its data replaced, and its children mapped. -/
def mapNode (g : H → N → V → W) : Node H N V → Node H N W
  | ⟨h, k, d, cs⟩ => ⟨h, k, g h k d, mapNodes g cs⟩
/-- The recursive `map` on siblings. -/
def mapNodes (g : H → N → V → W) : List (Node H N V) → List (Node H N W)
  | [] => []
  | c :: cs => mapNode g c :: mapNodes g cs
end

theorem mapNodes_eq_map (g : H → N → V → W) (cs : List (Node H N V)) : mapNodes g cs = cs.map (mapNode g) := by
  induction cs with
  | nil => simp [mapNodes]
  | cons c cs ih => simp [mapNodes, ih]

@[simp] theorem mapNode_mk (g : H → N → V → W) (h : H) (k : N) (d : V) (cs : List (Node H N V)) :
    mapNode g ⟨h, k, d, cs⟩ = ⟨h, k, g h k d, cs.map (mapNode g)⟩ := by
  simp [mapNode, mapNodes_eq_map]

variable (filter : H → N → V → FilterAction)

mutual
/-- The recursive `drain_filter` on one subtree: `Remove` drops it, `KeepTree` keeps it
whole, `KeepNode` keeps the node and filters its children. -/
def filterNode : Node H N V → Option (Node H N V)
  | ⟨h, k, d, cs⟩ =>
    match filter h k d with
    | .remove => none
    | .keepTree => some ⟨h, k, d, cs⟩
    | .keepNode => some ⟨h, k, d, filterNodes cs⟩
/-- The recursive `drain_filter` on siblings. -/
def filterNodes : List (Node H N V) → List (Node H N V)
  | [] => []
  | c :: cs =>
    match filterNode c with
    | some c' => c' :: filterNodes cs
    | none => filterNodes cs
end

mutual
/-- The subtrees the recursive `drain_filter` drops below one node, each whole. -/
def removedNode : Node H N V → List (Node H N V)
  | ⟨h, k, d, cs⟩ =>
    match filter h k d with
    | .remove => [⟨h, k, d, cs⟩]
    | .keepTree => []
    | .keepNode => removedNodes cs
/-- The subtrees the recursive `drain_filter` drops among siblings. -/
def removedNodes : List (Node H N V) → List (Node H N V)
  | [] => []
  | c :: cs => removedNode c ++ removedNodes cs
end

theorem filterNodes_eq_filterMap (cs : List (Node H N V)) :
    filterNodes filter cs = cs.filterMap (filterNode filter) := by
  induction cs with
  | nil => simp [filterNodes]
  | cons c cs ih =>
    rw [filterNodes]
    cases hc : filterNode filter c <;> simp [hc, ih]

theorem removedNodes_eq_flatMap (cs : List (Node H N V)) :
    removedNodes filter cs = cs.flatMap (removedNode filter) := by
  induction cs with
  | nil => simp [removedNodes]
  | cons c cs ih => simp [removedNodes, ih]

end Recursive

section Rebuild

theorem modify_append_of_lt {α : Type} {L : List α} {i : ℕ} (hi : i < L.length) (R : List α) (f : α → α) :
    (L ++ R).modify i f = L.modify i f ++ R := by
  induction L generalizing i with
  | nil => simp at hi
  | cons x L ih =>
    cases i with
    | zero => simp
    | succ i => simp [ih (by simpa using hi)]

theorem modify_length_append {α : Type} (L R : List α) (x : α) (f : α → α) :
    (L ++ x :: R).modify L.length f = L ++ f x :: R := by
  induction L with
  | nil => simp
  | cons y L ih => simp [ih]

theorem rebuild_append_root (L : List (Option ℕ × Node H N W)) (n : Node H N W) (roots : List (Node H N W)) :
    rebuild (L ++ [(none, n)]) roots = rebuild L (roots ++ [n]) := by
  rw [rebuild, dif_neg (by simp)]
  simp

theorem rebuild_append_child (L : List (Option ℕ × Node H N W)) (i : ℕ) (n : Node H N W)
    (roots : List (Node H N W)) :
    rebuild (L ++ [(some i, n)]) roots =
      rebuild (L.modify i fun (q, m) => (q, { m with children := m.children ++ [n] })) roots := by
  rw [rebuild, dif_neg (by simp)]
  simp

/-- Entries for children of the entry at `i`, at the end of the list, are popped first and
pushed onto that entry in their reverse order. -/
theorem rebuild_append_children {L : List (Option ℕ × Node H N W)} {i : ℕ} (hi : i < L.length)
    (C : List (Node H N W)) (roots : List (Node H N W)) :
    rebuild (L ++ C.map fun c => (some i, c)) roots =
      rebuild (L.modify i fun (q, m) => (q, { m with children := m.children ++ C.reverse })) roots := by
  induction C generalizing L with
  | nil =>
    have hid : (fun ((q, m) : Option ℕ × Node H N W) =>
        (q, { m with children := m.children ++ ([] : List (Node H N W)).reverse })) = id := by
      funext ⟨q, ⟨h, k, d, cs⟩⟩
      simp
    rw [hid, List.modify_id, List.map_nil, List.append_nil]
  | cons c C ih =>
    have hi' : i < (L ++ [(some i, c)]).length := by simp; omega
    rw [List.map_cons, ← List.singleton_append, ← List.append_assoc, ih hi', modify_append_of_lt hi,
      rebuild_append_child, List.modify_modify_eq]
    congr 2
    funext ⟨q, m⟩
    simp

theorem map_modify {α β : Type} (l : List α) (i : ℕ) {f : α → α} {f' : β → β} {g : α → β}
    (h : ∀ x, g (f x) = f' (g x)) : (l.modify i f).map g = (l.map g).modify i f' := by
  induction l generalizing i with
  | nil => simp
  | cons x l ih =>
    cases i with
    | zero => simp [h]
    | succ i => simp [ih]

/-- Rebuilding commutes with mapping the data of every node. -/
theorem rebuild_mapNode {W' : Type} (φ : H → N → W → W') (E : List (Option ℕ × Node H N W))
    (roots : List (Node H N W)) :
    (rebuild E roots).map (mapNode φ) = rebuild (E.map fun e => (e.1, mapNode φ e.2)) (roots.map (mapNode φ)) := by
  fun_induction rebuild E roots with
  | case1 roots => simp [rebuild]
  | case2 E roots hne _ n hlast ih =>
    have hE := List.dropLast_append_getLast hne
    rw [hlast] at hE
    conv_rhs => rw [← hE]
    rw [ih]
    simp only [List.map_append, List.map_cons, List.map_nil]
    rw [rebuild_append_root]
  | case3 E roots hne _ i n hlast ih =>
    have hE := List.dropLast_append_getLast hne
    rw [hlast] at hE
    conv_rhs => rw [← hE]
    rw [ih]
    simp only [List.map_append, List.map_cons, List.map_nil]
    rw [rebuild_append_child]
    congr 1
    refine map_modify _ _ fun x => ?_
    obtain ⟨q, ⟨h, k, d, cs⟩⟩ := x
    simp

variable (res : Node H N V → Option (Node H N W))

/-- What the queued subtrees will become, under the parents they recorded. -/
def pending (Q : List (Option ℕ × Node H N V)) : List (Option ℕ × Node H N W) :=
  Q.filterMap fun q => (res q.2).map fun r => (q.1, r)

@[simp] theorem pending_nil : pending res [] = [] := rfl

@[simp] theorem pending_append (Q Q' : List (Option ℕ × Node H N V)) :
    pending res (Q ++ Q') = pending res Q ++ pending res Q' := by
  simp [pending]

theorem pending_cons_of_none {p : Option ℕ} {n : Node H N V} (h : res n = none) (Q : List (Option ℕ × Node H N V)) :
    pending res ((p, n) :: Q) = pending res Q := by
  simp [pending, h]

theorem pending_cons_of_some {p : Option ℕ} {n : Node H N V} {r : Node H N W} (h : res n = some r)
    (Q : List (Option ℕ × Node H N V)) : pending res ((p, n) :: Q) = (p, r) :: pending res Q := by
  simp [pending, h]

theorem pending_children (q : Option ℕ) (cs : List (Node H N V)) :
    pending res (cs.map fun c => (q, c)) = (cs.filterMap res).map fun r => (q, r) := by
  induction cs with
  | nil => rfl
  | cons c cs ih =>
    cases hc : res c with
    | none => rw [List.map_cons, pending_cons_of_none res hc, ih, List.filterMap_cons_none hc]
    | some r => rw [List.map_cons, pending_cons_of_some res hc, ih, List.filterMap_cons_some hc, List.map_cons]

/-- Entries all hanging from the top rebuild to the roots in reverse. -/
theorem rebuild_roots (L : List (Node H N W)) (roots : List (Node H N W)) :
    rebuild (L.map fun n => (none, n)) roots = roots ++ L.reverse := by
  -- the last entry is popped first, so induct on the reversed list
  obtain ⟨M, rfl⟩ : ∃ M, L = M.reverse := ⟨L.reverse, by simp⟩
  induction M generalizing roots with
  | nil => simp [rebuild]
  | cons m M ih =>
    rw [List.reverse_cons, List.map_append, List.map_singleton, rebuild_append_root, ih]
    simp

/-- Processing a queued node whose result is the output entry with the results of its
children below it: output the entry and queue the children, in reverse, under its position. -/
theorem rebuild_pending_expand {E : List (Option ℕ × Node H N W)} {p : Option ℕ} {n : Node H N V}
    {n0 : Node H N W} (hres : res n = some { n0 with children := n0.children ++ n.children.filterMap res })
    (Q : List (Option ℕ × Node H N V)) (roots : List (Node H N W)) :
    rebuild (E ++ (p, n0) :: pending res (Q ++ n.children.reverse.map fun c => (some E.length, c))) roots =
      rebuild (E ++ pending res ((p, n) :: Q)) roots := by
  have hi : E.length < (E ++ (p, n0) :: pending res Q).length := by simp
  rw [pending_append, pending_children, ← List.cons_append, ← List.append_assoc, rebuild_append_children hi,
    modify_length_append, pending_cons_of_some res hres, List.filterMap_reverse, List.reverse_reverse]

end Rebuild

section MapPass

variable {σ : Type} (f : H → N → V → σ → W × σ) (g : H → N → V → W)

/-- When `f`'s value does not read its state, one level of `map` keeps the forest that
the output and the queue rebuild to. -/
theorem mapLevel_rebuild (hg : ∀ h k d s, (f h k d s).1 = g h k d) :
    ∀ (queue next : List (Option ℕ × Node H N V)) (output : List (Option ℕ × Node H N W)) (s : σ)
      (roots : List (Node H N W)),
      rebuild ((mapLevel f queue next output s).2.1 ++
          pending (fun n => some (mapNode g n)) (mapLevel f queue next output s).1) roots =
        rebuild (output ++ pending (fun n => some (mapNode g n)) (queue ++ next)) roots
  | [], next, output, s, roots => by simp [mapLevel]
  | (p, n) :: queue, next, output, s, roots => by
    rw [mapLevel, mapLevel_rebuild hg queue, List.append_assoc, List.singleton_append, ← List.append_assoc queue,
      List.cons_append]
    refine rebuild_pending_expand _ ?_ (queue ++ next) roots
    obtain ⟨h, k, d, cs⟩ := n
    simp [hg]

theorem mapLevels_rebuild (hg : ∀ h k d s, (f h k d s).1 = g h k d) (queue : List (Option ℕ × Node H N V))
    (output : List (Option ℕ × Node H N W)) (s : σ) (roots : List (Node H N W)) :
    rebuild (mapLevels f queue output s).1 roots =
      rebuild (output ++ pending (fun n => some (mapNode g n)) queue) roots := by
  fun_induction mapLevels f queue output s with
  | case1 output s => simp
  | case2 output s q qs next output' s' hlevel _ ih =>
    have hl := mapLevel_rebuild f g hg (q :: qs) [] output s roots
    rw [hlevel, List.append_nil] at hl
    rw [ih, hl]

/-- One level of `map` calls `f` once on each queued node, in queue order, and queues the
children: the calls and the nodes queued next are the nodes queued before. -/
theorem mapLevel_calls :
    ∀ (queue next : List (Option ℕ × Node H N V)) (output : List (Option ℕ × Node H N W)) (s : σ),
      ∃ calls : List (H × N × V),
        (mapLevel f queue next output s).2.2 = calls.foldl (fun s x => (f x.1 x.2.1 x.2.2 s).2) s ∧
        (calls ++ nodesList ((mapLevel f queue next output s).1.map Prod.snd)).Perm
          (nodesList (queue.map Prod.snd) ++ nodesList (next.map Prod.snd))
  | [], next, output, s => ⟨[], rfl, by simp [mapLevel]⟩
  | (p, n) :: queue, next, output, s => by
    obtain ⟨calls, hs, hp⟩ := mapLevel_calls queue (next ++ n.children.reverse.map fun c => (some output.length, c))
      (output ++ [(p, ⟨n.hash, n.number, (f n.hash n.number n.data s).1, []⟩)]) (f n.hash n.number n.data s).2
    refine ⟨(n.hash, n.number, n.data) :: calls, by rw [mapLevel]; exact hs, ?_⟩
    rw [mapLevel]
    refine (List.Perm.cons _ hp).trans ?_
    classical
    have hrev := nodesList_perm (List.reverse_perm n.children)
    rw [List.perm_iff_count]
    intro a
    simp only [List.map_append, List.map_cons, List.map_map, Function.comp_def, List.map_id', nodesList_append,
      nodesList_cons, Node.nodes_eq n, List.count_append, List.count_cons, List.cons_append]
    have := hrev.count_eq a
    omega

/-- The levels of `map` call `f` once on each node below the queue. -/
theorem mapLevels_calls (queue : List (Option ℕ × Node H N V)) (output : List (Option ℕ × Node H N W)) (s : σ) :
    ∃ calls : List (H × N × V),
      (mapLevels f queue output s).2 = calls.foldl (fun s x => (f x.1 x.2.1 x.2.2 s).2) s ∧
      calls.Perm (nodesList (queue.map Prod.snd)) := by
  fun_induction mapLevels f queue output s with
  | case1 output s => exact ⟨[], rfl, by simp⟩
  | case2 output s q qs next output' s' hlevel _ ih =>
    obtain ⟨calls₁, hs₁, hp₁⟩ := mapLevel_calls f (q :: qs) [] output s
    rw [hlevel] at hs₁ hp₁
    obtain ⟨calls₂, hs₂, hp₂⟩ := ih
    dsimp only at hs₁ hp₁
    refine ⟨calls₁ ++ calls₂, by rw [hs₂, List.foldl_append, ← hs₁], ?_⟩
    refine ((hp₂.append_left calls₁).trans hp₁).trans ?_
    simp

/-- Mapping the values `f` returns commutes with one level of `map`. -/
theorem mapLevel_mapNode {W' : Type} (φ : H → N → W → W') :
    ∀ (queue next : List (Option ℕ × Node H N V)) (output : List (Option ℕ × Node H N W)) (s : σ),
      mapLevel (fun h k d s => (φ h k (f h k d s).1, (f h k d s).2)) queue next
          (output.map fun e => (e.1, mapNode φ e.2)) s =
        ((mapLevel f queue next output s).1, (mapLevel f queue next output s).2.1.map fun e => (e.1, mapNode φ e.2),
          (mapLevel f queue next output s).2.2)
  | [], next, output, s => rfl
  | (p, n) :: queue, next, output, s => by
    rw [mapLevel, mapLevel, List.length_map, ← mapLevel_mapNode φ queue]
    simp

/-- Mapping the values `f` returns commutes with the levels of `map`. -/
theorem mapLevels_mapNode {W' : Type} (φ : H → N → W → W') (queue : List (Option ℕ × Node H N V))
    (output : List (Option ℕ × Node H N W)) (s : σ) :
    mapLevels (fun h k d s => (φ h k (f h k d s).1, (f h k d s).2)) queue (output.map fun e => (e.1, mapNode φ e.2)) s =
      ((mapLevels f queue output s).1.map (fun e => (e.1, mapNode φ e.2)), (mapLevels f queue output s).2) := by
  fun_induction mapLevels f queue output s with
  | case1 output s => rw [mapLevels]
  | case2 output s q qs next output' s' hlevel _ ih =>
    rw [mapLevels]
    simp only [mapLevel_mapNode, hlevel]
    exact ih

/-- When `f`'s value does not read its state, `map` is the recursive map of that value. -/
theorem map_roots_of_value (hg : ∀ h k d s, (f h k d s).1 = g h k d) (t : ForkTree H N V) (s : σ) :
    (map f t s).1.roots = t.roots.map (mapNode g) := by
  show rebuild _ [] = _
  rw [mapLevels_rebuild f g hg, List.nil_append, pending_children, rebuild_roots]
  simp

/-- Whatever `f` reads, `map` keeps the shape: erasing the data of its result gives the
tree with its data erased. -/
theorem map_shape (t : ForkTree H N V) (s : σ) :
    (map f t s).1.roots.map (mapNode fun _ _ _ => ()) = t.roots.map (mapNode fun _ _ _ => ()) := by
  -- erasing the data of what `map f` outputs is what mapping the erasing function outputs
  have h := congrArg Prod.fst (mapLevels_mapNode f (fun _ _ _ => ()) (t.roots.reverse.map fun n => (none, n)) [] s)
  dsimp only at h
  calc (map f t s).1.roots.map (mapNode fun _ _ _ => ())
      = rebuild ((mapLevels f (t.roots.reverse.map fun n => (none, n)) [] s).1.map
          fun e => (e.1, mapNode (fun _ _ _ => ()) e.2)) [] := by
        rw [show (map f t s).1.roots = rebuild (mapLevels f (t.roots.reverse.map fun n => (none, n)) [] s).1 []
          from rfl, rebuild_mapNode]
        rfl
    _ = (map (fun h k d s => ((), (f h k d s).2)) t s).1.roots := by
        rw [← h]
        rfl
    _ = t.roots.map (mapNode fun _ _ _ => ()) :=
        map_roots_of_value (fun h k d s => ((), (f h k d s).2)) (fun _ _ _ => ()) (fun _ _ _ _ => rfl) t s

/-- `map` calls `f` once on each node of the tree: the state it leaves is that of calling
`f` along a list of all the nodes, each once. -/
theorem map_calls (t : ForkTree H N V) (s : σ) :
    ∃ calls : List (H × N × V), calls.Perm (nodesList t.roots) ∧
      (map f t s).2 = calls.foldl (fun s x => (f x.1 x.2.1 x.2.2 s).2) s := by
  obtain ⟨calls, hs, hp⟩ := mapLevels_calls f (t.roots.reverse.map fun n => (none, n)) [] s
  refine ⟨calls, hp.trans ?_, hs⟩
  simpa [List.map_map, Function.comp_def] using nodesList_perm (List.reverse_perm t.roots)

end MapPass

section DrainPass

variable (filter : H → N → V → FilterAction)

/-- One level of `drain_filter` keeps the forest that the retained entries and the queue
rebuild to. -/
theorem drainLevel_rebuild :
    ∀ (queue next retained : List (Option ℕ × Node H N V)) (removed roots : List (Node H N V)),
      rebuild ((drainLevel filter queue next retained removed).2.1 ++
          pending (filterNode filter) (drainLevel filter queue next retained removed).1) roots =
        rebuild (retained ++ pending (filterNode filter) (queue ++ next)) roots
  | [], next, retained, removed, roots => by simp [drainLevel]
  | (p, n) :: queue, next, retained, removed, roots => by
    rw [drainLevel]
    cases hf : filter n.hash n.number n.data with
    | keepNode =>
      -- the node is output bare and its children queued under its position
      dsimp only
      rw [drainLevel_rebuild, List.append_assoc, List.singleton_append, ← List.append_assoc queue, List.cons_append]
      refine rebuild_pending_expand _ ?_ (queue ++ next) roots
      obtain ⟨h, k, d, cs⟩ := n
      simp [filterNode, hf, filterNodes_eq_filterMap]
    | keepTree =>
      have hn : filterNode filter n = some n := by
        obtain ⟨h, k, d, cs⟩ := n
        simp [filterNode, hf]
      dsimp only
      rw [drainLevel_rebuild, List.append_assoc, List.singleton_append, List.cons_append,
        pending_cons_of_some (filterNode filter) hn]
    | remove =>
      have hn : filterNode filter n = none := by
        obtain ⟨h, k, d, cs⟩ := n
        simp [filterNode, hf]
      dsimp only
      rw [drainLevel_rebuild, List.cons_append, pending_cons_of_none (filterNode filter) hn]

theorem drainLevels_rebuild (queue retained : List (Option ℕ × Node H N V)) (removed roots : List (Node H N V)) :
    rebuild (drainLevels filter queue retained removed).1 roots =
      rebuild (retained ++ pending (filterNode filter) queue) roots := by
  fun_induction drainLevels filter queue retained removed with
  | case1 retained removed => simp
  | case2 retained removed q qs next retained' removed' hlevel _ ih =>
    have hl := drainLevel_rebuild filter (q :: qs) [] retained removed roots
    rw [hlevel, List.append_nil] at hl
    rw [ih, hl]

/-- One level of `drain_filter` moves to `removed` what the recursive filter drops. -/
theorem drainLevel_removed :
    ∀ (queue next retained : List (Option ℕ × Node H N V)) (removed : List (Node H N V)),
      ((drainLevel filter queue next retained removed).2.2 ++
          removedNodes filter ((drainLevel filter queue next retained removed).1.map Prod.snd)).Perm
        (removed ++ removedNodes filter ((queue ++ next).map Prod.snd))
  | [], next, retained, removed => by simp [drainLevel]
  | (p, n) :: queue, next, retained, removed => by
    rw [drainLevel]
    have hcs := (List.reverse_perm n.children).flatMap_right (removedNode filter)
    cases hf : filter n.hash n.number n.data with
    | keepNode =>
      have hn : removedNode filter n = removedNodes filter n.children := by
        obtain ⟨h, k, d, cs⟩ := n
        simp [removedNode, hf]
      dsimp only
      refine (drainLevel_removed queue _ _ _).trans ?_
      rw [List.perm_append_left_iff]
      simp only [List.map_append, List.map_cons, removedNodes_eq_flatMap, List.flatMap_append, List.flatMap_cons, hn,
        List.map_map, Function.comp_def, List.map_id', List.cons_append]
      rw [← List.append_assoc]
      exact (hcs.append_left _).trans List.perm_append_comm
    | keepTree =>
      have hn : removedNode filter n = [] := by
        obtain ⟨h, k, d, cs⟩ := n
        simp [removedNode, hf]
      dsimp only
      refine (drainLevel_removed queue _ _ _).trans ?_
      simp [removedNodes, hn]
    | remove =>
      have hn : removedNode filter n = [n] := by
        obtain ⟨h, k, d, cs⟩ := n
        simp [removedNode, hf]
      dsimp only
      refine (drainLevel_removed queue _ _ _).trans ?_
      simp [removedNodes_eq_flatMap, hn]

/-- The levels of `drain_filter` remove exactly the subtrees the recursive filter drops. -/
theorem drainLevels_removed (queue retained : List (Option ℕ × Node H N V)) (removed : List (Node H N V)) :
    (drainLevels filter queue retained removed).2.Perm (removed ++ removedNodes filter (queue.map Prod.snd)) := by
  fun_induction drainLevels filter queue retained removed with
  | case1 retained removed => simp [removedNodes]
  | case2 retained removed q qs next retained' removed' hlevel _ ih =>
    have hl := drainLevel_removed filter (q :: qs) [] retained removed
    rw [hlevel, List.append_nil] at hl
    exact ih.trans hl

/-- `drain_filter` rebuilds the forest the recursive filter leaves. -/
theorem drainFilter_roots (t : ForkTree H N V) :
    rebuild (drainLevels filter (t.roots.reverse.map fun n => (none, n)) [] []).1 [] = filterNodes filter t.roots := by
  rw [drainLevels_rebuild, List.nil_append, pending_children, rebuild_roots, filterNodes_eq_filterMap,
    List.filterMap_reverse]
  simp

/-- `drain_filter` is the recursive filter, rebalanced when it removed something, and its
iterator yields the nodes of the subtrees that filter drops, each once. -/
theorem drainFilter_eq (t : ForkTree H N V) :
    (drainFilter filter t).2 = (if (removedNodes filter t.roots).isEmpty then ⟨filterNodes filter t.roots, t.bestFinalizedNumber⟩
        else rebalance ⟨filterNodes filter t.roots, t.bestFinalizedNumber⟩) ∧
      (RemovedIterator.mk (drainFilter filter t).1).toList.Perm (nodesList (removedNodes filter t.roots)) := by
  set r := drainLevels filter (t.roots.reverse.map fun n => (none, n)) [] []
  -- the removed subtrees are those of the reversed roots, that is those of the roots
  have hrev : (removedNodes filter t.roots.reverse).Perm (removedNodes filter t.roots) := by
    simpa [removedNodes_eq_flatMap] using (List.reverse_perm t.roots).flatMap_right (removedNode filter)
  have hr : r.2.Perm (removedNodes filter t.roots) := by
    have h := drainLevels_removed filter (t.roots.reverse.map fun n => (none, n)) [] []
    simp only [List.nil_append, List.map_map, Function.comp_def, List.map_id'] at h
    exact h.trans hrev
  have hempty : r.2.isEmpty = (removedNodes filter t.roots).isEmpty := by
    cases h : removedNodes filter t.roots with
    | nil => simpa [h] using hr
    | cons x xs =>
      rw [h] at hr
      simpa using fun he : r.2 = [] => by simp [he] at hr
  refine ⟨?_, ?_⟩
  · show (if r.2.isEmpty then _ else _) = _
    rw [hempty, drainFilter_roots]
  · rw [RemovedIterator.toList_eq]
    exact (nodesList_perm (List.reverse_perm _)).trans (nodesList_perm hr)

end DrainPass

/-- `map` and `drain_filter` against their recursive readings. Whatever state the `FnMut`
`f` reads, `map` keeps the shape of the tree and its best finalized number, and calls `f`
once on each node; when `f`'s value does not read the state, each node's data becomes that
value. `drain_filter` leaves the recursive filter, rebalanced when something was removed,
and its iterator yields the nodes of the dropped subtrees, each once. -/
theorem map_drainFilter_eq_recursive {σ VT : Type} (f : H → N → V → σ → VT × σ) (g : H → N → V → VT)
    (u : H → N → V → σ → σ) (filter : H → N → V → FilterAction) (t : ForkTree H N V) (s : σ) :
    (map f t s).1.roots.map (mapNode fun _ _ _ => ()) = t.roots.map (mapNode fun _ _ _ => ()) ∧
      (map f t s).1.bestFinalizedNumber = t.bestFinalizedNumber ∧
      (∃ calls : List (H × N × V), calls.Perm (nodesList t.roots) ∧
        (map f t s).2 = calls.foldl (fun s x => (f x.1 x.2.1 x.2.2 s).2) s) ∧
      (map (fun h k d s => (g h k d, u h k d s)) t s).1 = ⟨t.roots.map (mapNode g), t.bestFinalizedNumber⟩ ∧
      (drainFilter filter t).2 =
        (if (removedNodes filter t.roots).isEmpty then ⟨filterNodes filter t.roots, t.bestFinalizedNumber⟩
          else rebalance ⟨filterNodes filter t.roots, t.bestFinalizedNumber⟩) ∧
      (RemovedIterator.mk (drainFilter filter t).1).toList.Perm (nodesList (removedNodes filter t.roots)) := by
  obtain ⟨hdrain, hremoved⟩ := drainFilter_eq filter t
  have hvalue : (map (fun h k d s => (g h k d, u h k d s)) t s).1.roots = t.roots.map (mapNode g) :=
    map_roots_of_value (fun h k d s => (g h k d, u h k d s)) g (fun _ _ _ _ => rfl) t s
  refine ⟨map_shape f t s, rfl, map_calls f t s, ?_, hdrain, hremoved⟩
  rw [← hvalue]
  rfl

end ForkTree
end PolkadotSdk
