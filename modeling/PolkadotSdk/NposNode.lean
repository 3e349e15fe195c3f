import Mathlib.Data.List.Perm.Subperm

/-!
# The nodes of the reduce forest

`sp_npos_elections::node`: a node is identified by an account and a role, so that a voter and a
target of one account are two nodes, and stores at most one parent. `reduce_all` keeps the nodes
in a map from their ids; here that map is the list of ids it holds together with each id's
parent. `Node::root` follows parents from a node until one has none or one repeats.
-/

namespace PolkadotSdk.Npos

/-- `NodeRole`. -/
inductive NodeRole where
  | voter
  | target
  deriving DecidableEq, Repr

/-- `NodeId`: an account in one role. -/
structure NodeId (A : Type) where
  who : A
  role : NodeRole
  deriving DecidableEq, Repr

/-- The forest of `reduce_all`: the ids its map holds, and each node's parent. -/
structure Tree (A : Type) where
  nodes : List (NodeId A)
  parent : NodeId A → Option (NodeId A)

namespace Tree

variable {A : Type} [DecidableEq A]

/-- The empty map. -/
def empty : Tree A := ⟨[], fun _ => none⟩

/-- `Node::set_parent_of`. -/
def setParentOf (t : Tree A) (who parent : NodeId A) : Tree A :=
  { t with parent := fun x => if x = who then some parent else t.parent x }

/-- `Node::remove_parent`. -/
def removeParent (t : Tree A) (who : NodeId A) : Tree A :=
  { t with parent := fun x => if x = who then none else t.parent x }

/-- `Node::is_parent_of`: whether `other` is the parent of `who`. -/
def isParentOf (t : Tree A) (who other : NodeId A) : Bool :=
  t.parent who == some other

/-- `tree.entry(id).or_insert_with(|| Node::new(id))`: a new node has no parent. -/
def insert (t : Tree A) (id : NodeId A) : Tree A :=
  if id ∈ t.nodes then t else ⟨t.nodes ++ [id], fun x => if x = id then none else t.parent x⟩

/-- The loop of `Node::root` from `current`, the last node of `path`: it follows the parent
unless there is none or it was already visited. The `visited` vector of the source always equals
`path`. -/
def rootPath (t : Tree A) : ℕ → NodeId A → List (NodeId A) → List (NodeId A)
  | 0, _, path => path
  | fuel + 1, current, path =>
    match t.parent current with
    | none => path
    | some next => if next ∈ path then path else t.rootPath fuel next (path ++ [next])

/-- `Node::root`: the last node reached and the path to it from `start`. Every step visits a new
node of the map, so the number of nodes is enough fuel (`rootPath_fuel`). -/
def root (t : Tree A) (start : NodeId A) : NodeId A × List (NodeId A) :=
  let path := t.rootPath t.nodes.length start [start]
  (path.getLast?.getD start, path)

@[simp] theorem nodes_setParentOf (t : Tree A) (who parent : NodeId A) :
    (t.setParentOf who parent).nodes = t.nodes := rfl

@[simp] theorem nodes_removeParent (t : Tree A) (who : NodeId A) :
    (t.removeParent who).nodes = t.nodes := rfl

/-- Parents are nodes of the map. -/
def Closed (t : Tree A) : Prop := ∀ x y, t.parent x = some y → y ∈ t.nodes

theorem closed_setParentOf {t : Tree A} (ht : t.Closed) {who parent : NodeId A}
    (hp : parent ∈ t.nodes) : (t.setParentOf who parent).Closed := by
  intro x y hxy
  simp only [setParentOf] at hxy
  split at hxy
  · cases hxy
    exact hp
  · exact ht x y hxy

theorem closed_removeParent {t : Tree A} (ht : t.Closed) (who : NodeId A) :
    (t.removeParent who).Closed := by
  intro x y hxy
  simp only [removeParent] at hxy
  split at hxy
  · cases hxy
  · exact ht x y hxy

theorem closed_insert {t : Tree A} (ht : t.Closed) (id : NodeId A) : (t.insert id).Closed := by
  intro x y hxy
  unfold insert at hxy ⊢
  split
  · exact ht x y (by rwa [if_pos ‹_›] at hxy)
  · rename_i hid
    rw [if_neg hid] at hxy
    simp only at hxy
    split at hxy
    · cases hxy
    · exact List.mem_append_left _ (ht x y hxy)

omit [DecidableEq A] in
/-- A path without repetitions inside the map is no longer than the map. -/
theorem length_le_of_nodup {t : Tree A} {path : List (NodeId A)} (hnd : path.Nodup)
    (hsub : path ⊆ t.nodes) : path.length ≤ t.nodes.length :=
  (hnd.subperm hsub).length_le

/-- A walk whose path already holds as many nodes as the map stops at once: the next parent is
on the path. -/
theorem rootPath_of_length_le {t : Tree A} (ht : t.Closed) {current : NodeId A}
    {path : List (NodeId A)} (hnd : path.Nodup) (hsub : path ⊆ t.nodes)
    (hle : t.nodes.length ≤ path.length) (fuel : ℕ) : t.rootPath fuel current path = path := by
  cases fuel with
  | zero => rfl
  | succ k =>
    simp only [rootPath]
    split
    · rfl
    · rename_i next hnext
      have hmem : next ∈ path := by
        by_contra hn
        have hlen := length_le_of_nodup (List.nodup_cons.mpr ⟨hn, hnd⟩)
          (List.cons_subset.mpr ⟨ht _ _ hnext, hsub⟩)
        simp only [List.length_cons] at hlen
        omega
      rw [if_pos hmem]

/-- Fuel beyond the nodes the path lacks changes nothing: each step adds a node of the map that
was not on the path. -/
theorem rootPath_fuel {t : Tree A} (ht : t.Closed) :
    ∀ (fuel fuel' : ℕ) (current : NodeId A) (path : List (NodeId A)), path.Nodup → path ⊆ t.nodes →
      t.nodes.length ≤ path.length + fuel → t.nodes.length ≤ path.length + fuel' →
      t.rootPath fuel current path = t.rootPath fuel' current path := by
  intro fuel
  induction fuel with
  | zero =>
    intro fuel' current path hnd hsub hle _
    rw [rootPath_of_length_le ht hnd hsub (by omega), rootPath_of_length_le ht hnd hsub (by omega)]
  | succ fuel ih =>
    intro fuel' current path hnd hsub hle hle'
    cases fuel' with
    | zero =>
      rw [rootPath_of_length_le ht hnd hsub (by omega), rootPath_of_length_le ht hnd hsub (by omega)]
    | succ k =>
      simp only [rootPath]
      split
      · rfl
      · rename_i next hnext
        split
        · rfl
        · rename_i hn
          -- the walk goes on with one more node on the path and one less step of fuel
          have hnd' : (path ++ [next]).Nodup := List.nodup_append.mpr
            ⟨hnd, List.nodup_cons.mpr ⟨List.not_mem_nil, List.nodup_nil⟩, fun a ha b hb hab => hn (by
              rw [List.mem_singleton.mp hb] at hab
              exact hab ▸ ha)⟩
          have hsub' : path ++ [next] ⊆ t.nodes :=
            List.append_subset.mpr ⟨hsub, List.cons_subset.mpr ⟨ht _ _ hnext, List.nil_subset _⟩⟩
          have hlen : (path ++ [next]).length = path.length + 1 := by simp
          exact ih k next _ hnd' hsub' (by omega) (by omega)

end Tree

end PolkadotSdk.Npos
