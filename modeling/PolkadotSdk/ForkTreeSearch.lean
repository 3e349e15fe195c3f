import PolkadotSdk.ForkTreeRun

/-!
# The search of `find_node_index_where`

`find_node_index_where` walks the roots in order and searches each one in post-order with
an explicit stack; once it meets an ancestor of `hash` it stops looking at siblings and
climbs back to the root, testing the predicate on the way. Over a well-formed tree and the
ancestry oracle of its block tree the search never fails, and it finds the deepest node
that is a strict ancestor of `hash`, has a number below `number` and passes the predicate,
whenever one exists (`findNodeIndexWhere_deepest`). The ancestors of `hash` form a chain
and siblings are unrelated, so at each level all of them lie under one sibling: that is
what lets the search stop at its first hit.

What the search answers depends on the oracle only at nodes below `number`, so a root the
loop skips is never asked about.
-/

namespace PolkadotSdk
namespace ForkTree

open Node TreeOrder

variable {H N V E : Type} [LinearOrder N]

section Spec

variable (o : BlockTree H N) (hash : H) (number : N) (predicate : V → Bool)

/-- A node the search looks for: a strict ancestor of `hash`, below `number`, passing the
predicate. -/
def Candidate (x : H × N × V) : Prop :=
  o.lt x.1 hash ∧ x.2.1 < number ∧ predicate x.2.2 = true

/-- `m` is a candidate, and every candidate among `xs` is at or above it. -/
def Deepest (xs : List (H × N × V)) (m : Node H N V) : Prop :=
  Candidate o hash number predicate (m.hash, m.number, m.data) ∧
    ∀ x ∈ xs, Candidate o hash number predicate x → o.le x.1 m.hash

/-- What the search below a node reports: a miss means the node is no ancestor of `hash`;
a hit is the path to the deepest candidate below it; a climb means the node is an ancestor
and nothing below it is a candidate. -/
def Probe.NodeSpec (n : Node H N V) : Probe → Prop
  | .miss => ¬o.lt n.hash hash
  | .hit p => ∃ m, n.descend p = some m ∧ Deepest o hash number predicate n.nodes m
  | .climb => o.lt n.hash hash ∧ ∀ x ∈ n.nodes, ¬Candidate o hash number predicate x

/-- What the search over siblings reports, the first of them at index `i`. -/
def Probe.ListSpec (cs : List (Node H N V)) (i : ℕ) : Probe → Prop
  | .miss => ∀ c ∈ cs, c.number < number → ¬o.lt c.hash hash
  | .hit q => ∃ j p m, q = (i + j) :: p ∧ nodeAt cs (j :: p) = some m ∧
      Deepest o hash number predicate (nodesList cs) m
  | .climb => (∃ c ∈ cs, o.lt c.hash hash) ∧ ∀ x ∈ nodesList cs, ¬Candidate o hash number predicate x

end Spec

/-- The answer of the loop over the roots to the report of a search over them. -/
def Probe.found : Probe → Option (List ℕ)
  | .hit q => some q
  | _ => none

section Search

variable {o : BlockTree H N} {hash : H} {number : N} {predicate : V → Bool}

/-- Nothing below a node that is no ancestor of `hash` is one. -/
theorem Node.WF.not_lt_of_mem {n : Node H N V} (hn : n.WF o) (h : ¬o.lt n.hash hash) :
    ∀ x ∈ n.nodes, ¬o.lt x.1 hash :=
  fun x hx hlt => h (lt_of_le_of_lt (hn.le_of_mem x hx) hlt)

/-- Numbers grow down a well-formed subtree. -/
theorem Node.WF.number_le_of_mem {n : Node H N V} (hn : n.WF o) : ∀ x ∈ n.nodes, n.number ≤ x.2.1 := by
  intro x hx
  rw [hn.number_eq, hn.number_of_mem x hx]
  rcases hn.le_of_mem x hx with heq | hlt
  · rw [heq]
  · exact (o.num_lt hlt).le

/-- A subtree that the search skips, or that is no ancestor of `hash`, holds no candidate. -/
theorem Node.WF.not_candidate {n : Node H N V} (hn : n.WF o)
    (hskip : n.number < number → ¬o.lt n.hash hash) :
    ∀ x ∈ n.nodes, ¬Candidate o hash number predicate x := by
  intro x hx hc
  by_cases hlt : n.number < number
  · exact hn.not_lt_of_mem (hskip hlt) x hx hc.1
  · exact absurd hc.2.1 (not_lt.mpr ((not_lt.mp hlt).trans (hn.number_le_of_mem x hx)))

/-- The siblings after an ancestor of `hash` hold no candidate. -/
theorem ForestWF.not_candidate_of_head {c : Node H N V} {cs : List (Node H N V)}
    (hf : ForestWF o (c :: cs)) (hc : o.lt c.hash hash) :
    ∀ x ∈ nodesList cs, ¬Candidate o hash number predicate x := by
  intro x hx hcx
  obtain ⟨c', hc', hxc'⟩ := mem_nodesList.mp hx
  have hu : o.Unrelated c.hash c'.hash := (List.pairwise_cons.mp hf.2).1 c' hc'
  exact (hf.of_mem (List.mem_cons_of_mem c hc')).not_lt_of_mem (hu.not_lt_of_lt hc) x hxc' hcx.1

/-- A miss over siblings leaves no candidate among them. -/
theorem Probe.ListSpec.not_candidate_of_miss {cs : List (Node H N V)} {i : ℕ} (hf : ForestWF o cs)
    (h : Probe.ListSpec o hash number predicate cs i .miss) :
    ∀ x ∈ nodesList cs, ¬Candidate o hash number predicate x := by
  intro x hx
  obtain ⟨c, hc, hxc⟩ := mem_nodesList.mp hx
  exact (hf.of_mem hc).not_candidate (h c hc) x hxc

/-- A sibling that holds no ancestor of `hash` the search could reach passes on the report
over the later siblings, one index earlier. -/
theorem Probe.ListSpec.cons {c : Node H N V} {cs : List (Node H N V)} {i : ℕ} {r : Probe}
    (hc : c.WF o) (hskip : c.number < number → ¬o.lt c.hash hash)
    (h : Probe.ListSpec o hash number predicate cs (i + 1) r) :
    Probe.ListSpec o hash number predicate (c :: cs) i r := by
  have hno : ∀ x ∈ c.nodes, ¬Candidate o hash number predicate x := hc.not_candidate hskip
  cases r with
  | miss =>
    intro c' hc' hlt
    rcases List.mem_cons.mp hc' with rfl | hc'
    · exact hskip hlt
    · exact h c' hc' hlt
  | hit q =>
    obtain ⟨j, p, m, rfl, hm, hcm, hdeep⟩ := h
    refine ⟨j + 1, p, m, by rw [Nat.add_assoc, Nat.add_comm 1 j], by simpa [nodeAt_cons] using hm, hcm,
      fun x hx hcx => ?_⟩
    rw [nodesList_cons, List.mem_append] at hx
    rcases hx with hx | hx
    · exact absurd hcx (hno x hx)
    · exact hdeep x hx hcx
  | climb =>
    obtain ⟨⟨c', hc', hlt⟩, hnone⟩ := h
    refine ⟨⟨c', List.mem_cons_of_mem c hc', hlt⟩, fun x hx => ?_⟩
    rw [nodesList_cons, List.mem_append] at hx
    rcases hx with hx | hx
    · exact hno x hx
    · exact hnone x hx

/-- An ancestor of `hash` below `number` with no candidate under it reports itself if it
passes the predicate, and climbs on otherwise. -/
theorem Probe.NodeSpec.atAncestor {n : Node H N V} (hlt : o.lt n.hash hash) (hk : n.number < number)
    (hno : ∀ x ∈ nodesList n.children, ¬Candidate o hash number predicate x) :
    Probe.NodeSpec o hash number predicate n (Probe.atAncestor predicate n.data) := by
  obtain ⟨h, k, d, cs⟩ := n
  by_cases hp : predicate d = true
  · rw [Probe.atAncestor, if_pos hp]
    refine ⟨⟨h, k, d, cs⟩, rfl, ⟨hlt, hk, hp⟩, fun x hx hcx => ?_⟩
    rw [nodes_mk, List.mem_cons] at hx
    rcases hx with rfl | hx
    · exact le_refl _
    · exact absurd hcx (hno x hx)
  · rw [Probe.atAncestor, if_neg hp]
    refine ⟨hlt, fun x hx hcx => ?_⟩
    rw [nodes_mk, List.mem_cons] at hx
    rcases hx with rfl | hx
    · exact hp hcx.2.2
    · exact hno x hx hcx

variable [DecidableRel o.lt]

mutual
/-- The search below a well-formed node under `number` answers, and rightly. -/
theorem probeNode_spec : ∀ n : Node H N V, n.WF o → n.number < number →
    ∃ r, probeNode (o.isDescendentOf : H → H → Except E Bool) hash number predicate n = .ok r ∧
      Probe.NodeSpec o hash number predicate n r
  | ⟨h, k, d, cs⟩, hn, hk => by
    have hf : ForestWF o cs := hn.forest
    obtain ⟨r, hr, hspec⟩ := probeChildren_spec cs 0 hf
    rw [probeNode, hr]
    cases r with
    | hit q =>
      obtain ⟨j, p, m, rfl, hm, hcm, hdeep⟩ := hspec
      refine ⟨.hit ((0 + j) :: p), rfl, m, by simpa [descend, nodeAt_cons] using hm, hcm, fun x hx hcx => ?_⟩
      rw [nodes_mk, List.mem_cons] at hx
      rcases hx with rfl | hx
      · -- the hit lies below the node itself
        have hmem : (m.hash, m.number, m.data) ∈ nodes ⟨h, k, d, cs⟩ := by
          rw [nodes_mk]
          exact List.mem_cons_of_mem _ ((hf.nodeAt hm).2.subset m.triple_mem_nodes)
        exact hn.le_of_mem _ hmem
      · exact hdeep x hx hcx
    | climb =>
      -- a child is an ancestor of `hash`, so the node is one too
      obtain ⟨⟨c, hc, hlt⟩, hno⟩ := hspec
      exact ⟨_, rfl, Probe.NodeSpec.atAncestor (o.trans (hn.lt_child hc) hlt) hk hno⟩
    | miss =>
      -- no child is an ancestor: the oracle decides about the node itself
      rw [BlockTree.isDescendentOf]
      by_cases hlt : o.lt h hash
      · rw [decide_eq_true hlt]
        exact ⟨_, rfl, Probe.NodeSpec.atAncestor hlt hk (hspec.not_candidate_of_miss hf)⟩
      · rw [decide_eq_false hlt]
        exact ⟨.miss, rfl, hlt⟩
/-- The search over well-formed siblings answers, and rightly. -/
theorem probeChildren_spec : ∀ (cs : List (Node H N V)) (i : ℕ), ForestWF o cs →
    ∃ r, probeChildren (o.isDescendentOf : H → H → Except E Bool) hash number predicate cs i = .ok r ∧
      Probe.ListSpec o hash number predicate cs i r
  | [], i, _ => ⟨.miss, by rw [probeChildren], by simp [Probe.ListSpec]⟩
  | c :: cs, i, hf => by
    have hc : c.WF o := hf.of_mem List.mem_cons_self
    have hcs : ForestWF o cs := hf.sublist (List.sublist_cons_self c cs)
    obtain ⟨r', hr', hspec'⟩ := probeChildren_spec cs (i + 1) hcs
    rw [probeChildren]
    by_cases hlt : c.number < number
    · rw [if_pos hlt]
      obtain ⟨r, hr, hspec⟩ := probeNode_spec c hc hlt
      rw [hr]
      cases r with
      | hit p =>
        -- the hit lies below `c`, so `c` is an ancestor and the later siblings hold no candidate
        obtain ⟨m, hm, hcm, hdeep⟩ := hspec
        have hmem : (m.hash, m.number, m.data) ∈ c.nodes := (hc.descend hm).2.subset m.triple_mem_nodes
        have hca : o.lt c.hash hash := lt_of_le_of_lt (hc.le_of_mem _ hmem) hcm.1
        refine ⟨.hit (i :: p), rfl, 0, p, m, rfl, by simpa [nodeAt_cons] using hm, hcm, fun x hx hcx => ?_⟩
        rw [nodesList_cons, List.mem_append] at hx
        rcases hx with hx | hx
        · exact hdeep x hx hcx
        · exact absurd hcx (hf.not_candidate_of_head hca x hx)
      | climb =>
        obtain ⟨hca, hno⟩ := hspec
        refine ⟨.climb, rfl, ⟨c, List.mem_cons_self, hca⟩, fun x hx => ?_⟩
        rw [nodesList_cons, List.mem_append] at hx
        rcases hx with hx | hx
        · exact hno x hx
        · exact hf.not_candidate_of_head hca x hx
      | miss => exact ⟨r', hr', hspec'.cons hc fun _ => hspec⟩
    · rw [if_neg hlt]
      exact ⟨r', hr', hspec'.cons hc fun h' => absurd h' hlt⟩
end

/-- The loop over the roots is the search over siblings, answering with the path of a hit
and `None` after a miss or a climb. -/
theorem probeRoots_eq (f : H → H → Except E Bool) (rs : List (Node H N V)) (i : ℕ) :
    probeRoots f hash number predicate rs i = Probe.found <$> probeChildren f hash number predicate rs i := by
  induction rs generalizing i with
  | nil => simp [probeRoots, probeChildren, Probe.found]
  | cons r rs ih =>
    rw [probeRoots, probeChildren]
    by_cases hle : number ≤ r.number
    · rw [if_pos hle, if_neg (not_lt.mpr hle), ih]
    · rw [if_neg hle, if_pos (lt_of_not_ge hle)]
      cases hp : probeNode f hash number predicate r with
      | error e => rfl
      | ok p => cases p <;> simp [ih, Probe.found]

/-- The loop over well-formed roots answers with the path of the deepest candidate, and
with `None` exactly when there is no candidate. -/
theorem probeRoots_spec {rs : List (Node H N V)} (hf : ForestWF o rs) :
    ∃ res, probeRoots (o.isDescendentOf : H → H → Except E Bool) hash number predicate rs 0 = .ok res ∧
      (res.isSome ↔ ∃ x ∈ nodesList rs, Candidate o hash number predicate x) ∧
      ∀ path ∈ res, ∃ m, nodeAt rs path = some m ∧ Deepest o hash number predicate (nodesList rs) m := by
  obtain ⟨r, hr, hspec⟩ := probeChildren_spec rs 0 hf
  refine ⟨r.found, by rw [probeRoots_eq, hr]; rfl, ?_⟩
  cases r with
  | hit q =>
    obtain ⟨j, p, m, rfl, hm, hdeep⟩ := hspec
    have hmem : (m.hash, m.number, m.data) ∈ nodesList rs := (hf.nodeAt hm).2.subset m.triple_mem_nodes
    refine ⟨⟨fun _ => ⟨_, hmem, hdeep.1⟩, fun _ => rfl⟩, fun path hpath => ?_⟩
    cases hpath
    exact ⟨m, by simpa using hm, hdeep⟩
  | climb =>
    refine ⟨by simpa [Probe.found] using hspec.2, by simp [Probe.found]⟩
  | miss =>
    refine ⟨by simpa [Probe.found] using hspec.not_candidate_of_miss hf, by simp [Probe.found]⟩

end Search

section Oracle

variable {hash : H} {number : N} {predicate : V → Bool} (f g : H → H → Except E Bool)

mutual
/-- The search below a node under `number` asks the oracle only about nodes under `number`. -/
theorem probeNode_congr : ∀ n : Node H N V, (∀ x ∈ n.nodes, x.2.1 < number → f x.1 hash = g x.1 hash) →
    n.number < number → probeNode f hash number predicate n = probeNode g hash number predicate n
  | ⟨h, k, d, cs⟩, hfg, hk => by
    have hcs : ∀ x ∈ nodesList cs, x.2.1 < number → f x.1 hash = g x.1 hash :=
      fun x hx => hfg x (by rw [nodes_mk]; exact List.mem_cons_of_mem _ hx)
    have hh : f h hash = g h hash := hfg (h, k, d) (by simp) hk
    simp only [probeNode, probeChildren_congr cs 0 hcs, hh]
/-- The search over siblings asks the oracle only about nodes under `number`. -/
theorem probeChildren_congr : ∀ (cs : List (Node H N V)) (i : ℕ),
    (∀ x ∈ nodesList cs, x.2.1 < number → f x.1 hash = g x.1 hash) →
    probeChildren f hash number predicate cs i = probeChildren g hash number predicate cs i
  | [], i, _ => by simp only [probeChildren]
  | c :: cs, i, hfg => by
    rw [nodesList_cons] at hfg
    have hc : ∀ x ∈ c.nodes, x.2.1 < number → f x.1 hash = g x.1 hash :=
      fun x hx => hfg x (List.mem_append_left _ hx)
    have hcs : ∀ x ∈ nodesList cs, x.2.1 < number → f x.1 hash = g x.1 hash :=
      fun x hx => hfg x (List.mem_append_right _ hx)
    by_cases hlt : c.number < number
    · simp only [probeChildren, if_pos hlt, probeNode_congr c hc hlt, probeChildren_congr cs (i + 1) hcs]
    · simp only [probeChildren, if_neg hlt, probeChildren_congr cs (i + 1) hcs]
end

/-- `find_node_index_where` asks the oracle only about nodes under `number`. -/
theorem findNodeIndexWhere_congr (t : ForkTree H N V)
    (hfg : ∀ x ∈ nodesList t.roots, x.2.1 < number → f x.1 hash = g x.1 hash) :
    findNodeIndexWhere f hash number predicate t = findNodeIndexWhere g hash number predicate t := by
  rw [findNodeIndexWhere, findNodeIndexWhere, probeRoots_eq, probeRoots_eq, probeChildren_congr f g _ 0 hfg]

end Oracle

section Lookup

omit [LinearOrder N] in
/-- The lookup of `find_node_where` follows the path as `nodeAt` does. -/
theorem nodeAlong_eq_nodeAt (ns : List (Node H N V)) (path : List ℕ) : nodeAlong ns path = nodeAt ns path := by
  induction path generalizing ns with
  | nil => simp [nodeAlong, nodeAt]
  | cons i p ih =>
    cases p with
    | nil => simp [nodeAlong, nodeAt]
    | cons j p =>
      simp only [nodeAt, ← ih]
      cases hi : ns[i]? <;> simp [nodeAlong, hi]

omit [LinearOrder N] in
/-- Reading the node at a path after writing one there gives the node written. -/
theorem nodeAt_setAt : ∀ {ns : List (Node H N V)} {p : List ℕ} {n : Node H N V} (n' : Node H N V),
    nodeAt ns p = some n → nodeAt (setAt n' ns p) p = some n'
  | _, [], _, _, h => by simp [nodeAt] at h
  | ns, [i], _, n', h => by
    have hi : i < ns.length := (List.getElem?_eq_some_iff.mp h).1
    simp [nodeAt, setAt, hi]
  | ns, i :: j :: p, _, n', h => by
    obtain ⟨c, hc, hcn⟩ := Option.bind_eq_some_iff.mp h
    rw [setAt, nodeAt, List.getElem?_modify, hc]
    · simpa using nodeAt_setAt n' hcn
    all_goals exact List.cons_ne_nil j p

omit [LinearOrder N] in
/-- Writing back the node read at a path leaves the forest as it was. -/
theorem setAt_self : ∀ {ns : List (Node H N V)} {p : List ℕ} {n : Node H N V},
    nodeAt ns p = some n → setAt n ns p = ns
  | _, [], _, h => by simp [nodeAt] at h
  | ns, [i], _, h => by
    obtain ⟨hi, rfl⟩ := List.getElem?_eq_some_iff.mp h
    simp [setAt]
  | ns, i :: j :: p, _, h => by
    obtain ⟨c, hc, hcn⟩ := Option.bind_eq_some_iff.mp h
    rw [setAt, modify_eq_take_cons_drop hc, setAt_self hcn]
    · cases c
      exact (eq_take_cons_drop hc).symm
    · exact List.cons_ne_nil j p

variable (f : H → H → Except E Bool) (hash : H) (number : N) (predicate : V → Bool)

/-- `find_node_where` looks up the path that `find_node_index_where` returns. -/
theorem findNodeWhere_eq (t : ForkTree H N V) :
    findNodeWhere f hash number predicate t =
      (fun res => res.bind (nodeAt t.roots)) <$> findNodeIndexWhere f hash number predicate t := by
  unfold findNodeWhere
  cases findNodeIndexWhere f hash number predicate t with
  | error e => rfl
  | ok res => simp [nodeAlong_eq_nodeAt]

/-- `find_node_where_mut` refers to the node that `find_node_where` returns. -/
theorem findNodeWhereMut_node (t : ForkTree H N V) :
    (findNodeWhereMut f hash number predicate t).map (Option.map Prod.fst) =
      findNodeWhere f hash number predicate t := by
  unfold findNodeWhereMut findNodeWhere
  cases findNodeIndexWhere f hash number predicate t with
  | error e => rfl
  | ok res => cases res <;> simp [Except.map, Function.comp_def]

/-- The reference that `find_node_where_mut` returns designates the node at the path found:
writing back what it reads leaves the tree as it was, and what is written through it is what
is then found there. -/
theorem findNodeWhereMut_write {t : ForkTree H N V} {path : List ℕ} {node : Node H N V}
    {write : Node H N V → ForkTree H N V}
    (hpath : findNodeIndexWhere f hash number predicate t = .ok (some path))
    (h : findNodeWhereMut f hash number predicate t = .ok (some (node, write))) :
    nodeAt t.roots path = some node ∧ write node = t ∧ ∀ node', nodeAt (write node').roots path = some node' := by
  unfold findNodeWhereMut at h
  rw [hpath] at h
  obtain ⟨n, hn, hnw⟩ := Option.map_eq_some_iff.mp (Except.ok.inj h)
  cases hnw
  rw [nodeAlong_eq_nodeAt] at hn
  exact ⟨hn, by simp [setAt_self hn], fun node' => nodeAt_setAt node' hn⟩

end Lookup

section Find

variable {o : BlockTree H N} [DecidableRel o.lt] {hash : H} {number : N} {predicate : V → Bool}

/-- Over a well-formed tree, an oracle that answers like the block tree except about a root
the loop skips gives the same answer: the search never asks about that root. -/
theorem findNodeIndexWhere_skipped_root {t : ForkTree H N V} (ht : t.WF o) {r : Node H N V}
    (hr : r ∈ t.roots) (hskip : number ≤ r.number) (g : H → H → Except E Bool)
    (hg : ∀ a b, a ≠ r.hash → g a b = o.isDescendentOf a b) :
    findNodeIndexWhere g hash number predicate t =
      findNodeIndexWhere (o.isDescendentOf : H → H → Except E Bool) hash number predicate t := by
  refine findNodeIndexWhere_congr g o.isDescendentOf t fun x hx hlt => hg _ _ fun hxr => ?_
  -- a node carries its block's number, so the only node with the root's hash is below `number`
  obtain ⟨n, hn, hxn⟩ := mem_nodesList.mp hx
  have hx' : x.2.1 = r.number := by
    rw [(ht.of_mem hn).number_of_mem x hxn, hxr, (ht.of_mem hr).number_eq]
  exact absurd (hx' ▸ hlt) (not_lt.mpr hskip)

end Find

/-- `find_node_index_where` over a well-formed tree and the oracle of its block tree: it
answers, with a path exactly when some node is a strict ancestor of `hash` below `number`
passing the predicate, and the path leads to the deepest of them. `find_node_where` and
`find_node_where_mut` return the node at that path, and the answer does not depend on what
the oracle says about a root that the loop skips. -/
theorem findNodeIndexWhere_deepest (o : BlockTree H N) [DecidableRel o.lt] (t : ForkTree H N V)
    (ht : t.WF o) (hash : H) (number : N) (predicate : V → Bool) :
    ∃ res, findNodeIndexWhere (o.isDescendentOf : H → H → Except E Bool) hash number predicate t = .ok res ∧
      (res.isSome ↔ ∃ x ∈ nodesList t.roots, Candidate o hash number predicate x) ∧
      (∀ path ∈ res, ∃ m, nodeAt t.roots path = some m ∧
        Deepest o hash number predicate (nodesList t.roots) m) ∧
      findNodeWhere (o.isDescendentOf : H → H → Except E Bool) hash number predicate t =
        .ok (res.bind (nodeAt t.roots)) ∧
      (findNodeWhereMut (o.isDescendentOf : H → H → Except E Bool) hash number predicate t).map
        (Option.map Prod.fst) = .ok (res.bind (nodeAt t.roots)) ∧
      ∀ r ∈ t.roots, number ≤ r.number → ∀ g : H → H → Except E Bool,
        (∀ a b, a ≠ r.hash → g a b = o.isDescendentOf a b) →
        findNodeIndexWhere g hash number predicate t = .ok res := by
  obtain ⟨res, hres, hsome, hpath⟩ := @probeRoots_spec H N V E _ o hash number predicate _ t.roots ht
  have hfind : findNodeWhere (o.isDescendentOf : H → H → Except E Bool) hash number predicate t =
      .ok (res.bind (nodeAt t.roots)) := by
    rw [findNodeWhere_eq, findNodeIndexWhere, hres]
    rfl
  refine ⟨res, hres, hsome, hpath, hfind, by rw [findNodeWhereMut_node, hfind], ?_⟩
  intro r hr hskip g hg
  rw [findNodeIndexWhere_skipped_root ht hr hskip g hg]
  exact hres

/-- The chain `1 → 2 → 3` of `natChain`, the middle block's data failing the predicate `id`. -/
def chainTree : ForkTree ℕ ℕ Bool :=
  ⟨[⟨1, 1, true, [⟨2, 2, false, [⟨3, 3, true, []⟩]⟩]⟩], none⟩

theorem chainTree_wf : chainTree.WF natChain := by
  have h3 : Node.WF natChain (⟨3, 3, true, []⟩ : Node ℕ ℕ Bool) := .mk rfl (by simp) (by simp) .nil
  have h2 : Node.WF natChain (⟨2, 2, false, [⟨3, 3, true, []⟩]⟩ : Node ℕ ℕ Bool) :=
    .mk rfl (by simp [natChain]) (by simpa using h3) (List.pairwise_singleton _ _)
  have h1 : Node.WF natChain (⟨1, 1, true, [⟨2, 2, false, [⟨3, 3, true, []⟩]⟩]⟩ : Node ℕ ℕ Bool) :=
    .mk rfl (by simp [natChain]) (by simpa using h2) (List.pairwise_singleton _ _)
  exact ⟨by simpa [chainTree] using h1, List.pairwise_singleton _ _⟩

/-- Searching `chainTree` for block 5 finds block 3, the deepest ancestor passing `id`. -/
theorem findNodeIndexWhere_deepest_chainTree :
    chainTree.WF natChain ∧
      findNodeIndexWhere (natChain.isDescendentOf : ℕ → ℕ → Except Empty Bool) 5 5 id chainTree =
        .ok (some [0, 0, 0]) ∧
      ∃ m, nodeAt chainTree.roots [0, 0, 0] = some m ∧ Deepest natChain 5 5 id (nodesList chainTree.roots) m := by
  obtain ⟨res, hres, -, hpath, -⟩ :=
    @findNodeIndexWhere_deepest ℕ ℕ Bool Empty _ natChain _ chainTree chainTree_wf 5 5 id
  have hsome : res = some [0, 0, 0] := by
    have h : findNodeIndexWhere (natChain.isDescendentOf : ℕ → ℕ → Except Empty Bool) 5 5 id chainTree =
        .ok (some [0, 0, 0]) := rfl
    rw [hres] at h
    exact Except.ok.inj h
  exact ⟨chainTree_wf, hsome ▸ hres, hpath _ (hsome ▸ rfl)⟩

end ForkTree
end PolkadotSdk
