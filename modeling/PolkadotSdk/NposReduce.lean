import Mathlib
import PolkadotSdk.NposNode

/-!
# Reducing the edges of a staked assignment

`sp_npos_elections::reduce`: `reduce_4` cancels the cycles of length four between two voters and
two targets, `reduce_all` then adds the edges one by one to a forest of parent pointers and, each
time an edge closes a cycle, pushes a circulation of the cycle's smallest weight around it so
that at least one edge drops to zero and is removed. Weights are `ExtendedBalance` (`u128`) with
its saturating operations; the `u32` counter of removed edges is a natural number.
-/

namespace PolkadotSdk.Npos

variable {A : Type} [DecidableEq A]

/-- `ExtendedBalance::max_value()`. -/
def extendedBalanceMax : ℕ := 2 ^ 128 - 1

/-- `saturating_add` of `ExtendedBalance`; `saturating_sub` is the truncated subtraction. -/
def saturatingAdd (a b : ℕ) : ℕ := min (a + b) extendedBalanceMax

theorem saturatingAdd_of_le {a b : ℕ} (h : a + b ≤ extendedBalanceMax) : saturatingAdd a b = a + b :=
  Nat.min_eq_left h

/-- `StakedAssignment`: a voter and the stake it puts on each target. -/
structure StakedAssignment (A : Type) where
  who : A
  distribution : List (A × ℕ)
  deriving DecidableEq, Repr

/-- `distribution.iter_mut().position(|(t, _)| *t == target).map(..)`: the first edge to `target`
gets the weight `f` of its weight, and with `removeAtZero` it is removed instead when that is
zero. The flag says whether it was removed; `none` when there is no edge to `target`. -/
def adjustFirst (target : A) (f : ℕ → ℕ) (removeAtZero : Bool) :
    List (A × ℕ) → Option (List (A × ℕ) × Bool)
  | [] => none
  | (t, w) :: rest =>
    if t = target then
      if removeAtZero ∧ f w = 0 then some (rest, true) else some ((t, f w) :: rest, false)
    else (adjustFirst target f removeAtZero rest).map fun r => ((t, w) :: r.1, r.2)

/-- `assignments.iter_mut().enumerate().filter(|(_, a)| a.who == voter).for_each(..)` around
`adjustFirst`: the new assignments and the index of every assignment whose edge was removed. -/
def adjustVoterEdge (voter target : A) (f : ℕ → ℕ) (removeAtZero : Bool) :
    ℕ → List (StakedAssignment A) → List (StakedAssignment A) × List ℕ
  | _, [] => ([], [])
  | k, a :: rest =>
    let r := adjustVoterEdge voter target f removeAtZero (k + 1) rest
    if a.who = voter then
      match adjustFirst target f removeAtZero a.distribution with
      | none => (a :: r.1, r.2)
      | some (d, removed) => (⟨a.who, d⟩ :: r.1, if removed then k :: r.2 else r.2)
    else (a :: r.1, r.2)

/-- `combinations_2`: every pair `(input[i], input[j])` with `i < j`, in the source's order. -/
def combinations2 {α : Type} : List α → List (α × α)
  | [] => []
  | a :: rest => rest.map (fun b => (a, b)) ++ combinations2 rest

/-! ## `reduce_4` -/

/-- The state of `reduce_4`: the assignments, the map from a pair of targets to the last voter
seen voting for both, and the number of removed edges. -/
structure Reduce4State (A : Type) where
  assignments : List (StakedAssignment A)
  combinationMap : A × A → Option A
  numChanged : ℕ

/-- `entry.insert(who)` and `*other_who = who`. -/
def Reduce4State.setEntry (s : Reduce4State A) (pair : A × A) (who : A) : Reduce4State A :=
  { s with combinationMap := fun p => if p = pair then some who else s.combinationMap p }

/-- `entry.remove()`. -/
def Reduce4State.removeEntry (s : Reduce4State A) (pair : A × A) : Reduce4State A :=
  { s with combinationMap := fun p => if p = pair then none else s.combinationMap p }

/-- The votes of a distribution for `v1` or `v2`. -/
def cycleVotes (v1 v2 : A) (distribution : List (A × ℕ)) : List (A × ℕ) :=
  distribution.filter fun e => e.1 = v1 ∨ e.1 = v2

/-- One vote of the scan for the minimum of the chained cycle votes: the minimum so far, its
index and the index of this vote. A tie moves the minimum to the later vote (`*w <= min_value`). -/
def minStep (acc : ℕ × ℕ × ℕ) (e : A × ℕ) : ℕ × ℕ × ℕ :=
  if e.2 ≤ acc.1 then (e.2, acc.2.2, acc.2.2 + 1) else (acc.1, acc.2.1, acc.2.2 + 1)

/-- The minimum weight of the chained cycle votes and its index. -/
def minOfCycle (cycle : List (A × ℕ)) : ℕ × ℕ :=
  let r := cycle.foldl minStep (extendedBalanceMax, 0, 0)
  (r.1, r.2.1)

/-- `if other_cycle_votes[0].0 != who_cycle_votes[0].0 { other_cycle_votes.swap(0, 1) }`. -/
def alignVotes (whoVotes otherVotes : List (A × ℕ)) : List (A × ℕ) :=
  match whoVotes, otherVotes with
  | w0 :: _, o0 :: o1 :: rest => if o0.1 = w0.1 then otherVotes else o1 :: o0 :: rest
  | _, _ => otherVotes

/-- The indices of the chained votes `[who → a, who → b, other → a, other → b]` that rise and that
fall by the minimum: the minimum and the vote of the other voter for the other target fall. -/
def circulationIndices (minIndex : ℕ) : List ℕ × List ℕ :=
  if minIndex < 2 then
    let sibling := 1 - minIndex
    ([sibling, minIndex + 2], [minIndex, sibling + 2])
  else
    let sibling := 3 - minIndex % 2
    ([sibling, minIndex - 2], [minIndex, sibling - 2])

/-- The voter of a chained vote: `who` for the first two, `other_who` for the last two. -/
def cycleVoter (who otherWho : A) (i : ℕ) : A := if i < 2 then who else otherWho

/-- The `increase_indices` loop: each named vote rises by the minimum. -/
def applyIncreases (who otherWho : A) (cycle : List (A × ℕ)) (minValue : ℕ)
    (assignments : List (StakedAssignment A)) (increase : List ℕ) : List (StakedAssignment A) :=
  increase.foldl (fun ass i =>
    match cycle[i]? with
    | none => ass
    | some (t, _) =>
      (adjustVoterEdge (cycleVoter who otherWho i) t (fun w => saturatingAdd w minValue) false 0 ass).1)
    assignments

/-- The `decrease_indices` loop: each named vote falls by the minimum and is removed at zero; the
result also holds `remove_indices` and the number of removed edges. -/
def applyDecreases (who otherWho : A) (cycle : List (A × ℕ)) (minValue : ℕ)
    (assignments : List (StakedAssignment A)) (decrease : List ℕ) :
    List (StakedAssignment A) × List ℕ × ℕ :=
  decrease.foldl (fun acc i =>
    match cycle[i]? with
    | none => acc
    | some (t, _) =>
      let r := adjustVoterEdge (cycleVoter who otherWho i) t (fun w => w - minValue) true 0 acc.1
      (r.1, acc.2.1 ++ r.2.map (fun _ => i), acc.2.2 + r.2.length))
    (assignments, [], 0)

/-- One pair `(v1, v2)` of the targets of `who`, the voter at `assignment_index`, in `reduce_4`.
`none` is the panic `"Duplicate voter (or other corrupt input)."`. -/
def reduce4Pair (ai : ℕ) (who : A) (s : Reduce4State A) (pair : A × A) : Option (Reduce4State A) :=
  match s.combinationMap pair with
  | none => some (s.setEntry pair who)
  | some otherWho =>
    let current := (s.assignments[ai]?.map (·.distribution)).getD []
    -- `who` may have lost one of the two votes to an earlier cycle of this loop
    if (cycleVotes pair.1 pair.2 current).length ≠ 2 then some s
    else
      match s.assignments.find? (·.who = otherWho) with
      | none => some s
      | some other =>
        let otherCycleVotes := cycleVotes pair.1 pair.2 other.distribution
        if otherCycleVotes.length < 2 then some (s.setEntry pair who)
        else if otherCycleVotes.length = 2 then
          let whoCycleVotes := cycleVotes pair.1 pair.2 current
          if whoCycleVotes.length ≠ 2 then some s
          else
            let cycle := whoCycleVotes ++ alignVotes whoCycleVotes otherCycleVotes
            let m := minOfCycle cycle
            let idx := circulationIndices m.2
            let ass := applyIncreases who otherWho cycle m.1 s.assignments idx.1
            let d := applyDecreases who otherWho cycle m.1 ass idx.2
            let s := { s with assignments := d.1, numChanged := s.numChanged + d.2.2 }
            match d.2.1.any (· < 2), d.2.1.any (2 ≤ ·) with
            | false, true => some (s.setEntry pair who)
            | true, false => some s
            | true, true => some (s.removeEntry pair)
            | false, false => none
        -- more than two votes for the pair: a duplicate target, skipped after the `debug_assert`
        else some s

/-- The pairs of one voter of `reduce_4`, taken from its targets before the loop. -/
def reduce4Voter (s : Reduce4State A) (ai : ℕ) : Option (Reduce4State A) :=
  match s.assignments[ai]? with
  | none => some s
  | some a => (combinations2 (a.distribution.map Prod.fst)).foldlM (reduce4Pair ai a.who) s

/-- `reduce_4`: the number of removed edges and the new assignments, or `none` on the panic. -/
def reduce4 (assignments : List (StakedAssignment A)) : Option (ℕ × List (StakedAssignment A)) :=
  ((List.range assignments.length).foldlM reduce4Voter ⟨assignments, fun _ => none, 0⟩).map
    fun s => (s.numChanged, s.assignments)

/-! ## `reduce_all` -/

/-- `trailing_common`: the number of equal elements at the ends of two lists. -/
def trailingCommon {α : Type} [DecidableEq α] (t1 t2 : List α) : ℕ :=
  ((t1.reverse.zip t2.reverse).takeWhile fun e => e.1 = e.2).length

/-- `merge`: the shorter root path is turned around and hung below the start of the longer. -/
def merge (t : Tree A) (voterRootPath targetRootPath : List (NodeId A)) : Tree A :=
  let paths := if voterRootPath.length ≤ targetRootPath.length then (voterRootPath, targetRootPath)
    else (targetRootPath, voterRootPath)
  let t := (paths.1.zip paths.1.tail).foldl (fun t p => t.setParentOf p.2 p.1) t
  match paths.1.head?, paths.2.head? with
  | some s0, some l0 => t.setParentOf s0 l0
  | _, _ => t

/-- The state of `reduce_all`: the assignments, the forest and the number of removed edges. -/
structure ReduceAllState (A : Type) where
  assignments : List (StakedAssignment A)
  tree : Tree A
  numChanged : ℕ

/-- The cycle's edge with the smallest weight, found from its voter end. `direction` is `1` for
the edge to the next node of the cycle and `0` for the edge to the previous one. -/
structure MinEdge (A : Type) where
  target : A
  voter : A
  index : ℕ
  direction : ℕ

/-- `(i + 1) mod n` as the source writes it. -/
def nextIndex (n i : ℕ) : ℕ := if i < n - 1 then i + 1 else 0

/-- `(i - 1) mod n` as the source writes it. -/
def prevIndex (n i : ℕ) : ℕ := if 0 < i then i - 1 else n - 1

/-- The weight of the vote of `voter` for `target` in the first assignment of `voter`. -/
def edgeWeight (assignments : List (StakedAssignment A)) (voter target : A) : Option ℕ :=
  (assignments.find? (·.who = voter)).bind fun a => (a.distribution.find? (·.1 = target)).map (·.2)

/-- An edge of the cycle replaces the minimum when it exists and its weight is strictly smaller. -/
def considerEdge (assignments : List (StakedAssignment A)) (voter target : A) (i direction : ℕ)
    (best : ℕ × Option (MinEdge A)) : ℕ × Option (MinEdge A) :=
  match edgeWeight assignments voter target with
  | some w => if w < best.1 then (w, some ⟨target, voter, i, direction⟩) else best
  | none => best

/-- The node at index `i` of the scan for the minimum: a voter node tries its edge to the next
node and then its edge to the previous one. -/
def minAt (assignments : List (StakedAssignment A)) (cycle : List (NodeId A))
    (best : ℕ × Option (MinEdge A)) (i : ℕ) : ℕ × Option (MinEdge A) :=
  match cycle[i]?, cycle[nextIndex cycle.length i]?, cycle[prevIndex cycle.length i]? with
  | some current, some next, some prev =>
    if current.role = .voter then
      considerEdge assignments current.who prev.who i 0
        (considerEdge assignments current.who next.who i 1 best)
    else best
  | _, _, _ => best

/-- The minimum weight of the cycle and its edge; no edge when no edge of the cycle was found. -/
def findMin (assignments : List (StakedAssignment A)) (cycle : List (NodeId A)) :
    ℕ × Option (MinEdge A) :=
  (List.range cycle.length).foldl (minAt assignments cycle) (extendedBalanceMax, none)

/-- What the walk around the cycle gathers: the assignments, the number of removed edges, whether
the edge index of the current voter may advance, and the removed edges besides the minimum. -/
structure Circulation (A : Type) where
  assignments : List (StakedAssignment A)
  removed : ℕ
  shouldIncCounter : Bool
  additionalRemoved : List (NodeId A × NodeId A)

/-- The new weight of an edge that the circulation raises or lowers by the minimum. -/
def circulate (raise : Bool) (minValue w : ℕ) : ℕ :=
  if raise then saturatingAdd w minValue else w - minValue

/-- The edge between the voter node `current` and its neighbour `other` raised or lowered; an
edge that reaches zero is removed, stops the index of the voter at `assignment_index` from
advancing, and is recorded for the forest unless it is the minimum edge. -/
def circulateEdge (ai : ℕ) (current other : NodeId A) (raise isMin : Bool) (minValue : ℕ)
    (c : Circulation A) : Circulation A :=
  let r := adjustVoterEdge current.who other.who (circulate raise minValue) true 0 c.assignments
  { assignments := r.1
    removed := c.removed + r.2.length
    shouldIncCounter := c.shouldIncCounter && !r.2.contains ai
    additionalRemoved := c.additionalRemoved ++ if isMin then [] else r.2.map fun _ => (current, other) }

/-- The node at index `i` of the walk: a voter node has its edge to the previous node and then its
edge to the next one changed, with the signs alternating along the cycle. -/
def circulateAt (ai : ℕ) (cycle : List (NodeId A)) (m : MinEdge A) (minValue : ℕ)
    (startOperationAdd : Bool) (c : Circulation A) (i : ℕ) : Circulation A :=
  match cycle[i]?, cycle[prevIndex cycle.length i]?, cycle[nextIndex cycle.length i]? with
  | some current, some prev, some next =>
    if current.role = .voter then
      let even := i % 2 == 0
      let c := circulateEdge ai current prev (even == startOperationAdd)
        (i = m.index ∧ m.direction = 0) minValue c
      circulateEdge ai current next (even != startOperationAdd) (i = m.index ∧ m.direction = 1) minValue c
    else c
  | _, _, _ => c

/-- The re-rooting loop: the parent links along the path are turned around up to the link between
two accounts of the minimum edge. The accounts are compared without their roles. -/
def reversePath (minEdge : List A) : List (NodeId A) → Tree A → Tree A
  | a :: b :: rest, t =>
    if a.who ∈ minEdge ∧ b.who ∈ minEdge then t else reversePath minEdge (b :: rest) (t.setParentOf b a)
  | _, t => t

/-- The removed edges that are still parent links are cut. -/
def removeCollapsed (t : Tree A) (removed : List (NodeId A × NodeId A)) : Tree A :=
  removed.foldl (fun t r =>
    if t.isParentOf r.1 r.2 then t.removeParent r.1
    else if t.isParentOf r.2 r.1 then t.removeParent r.2 else t) t

/-- The edge from `voterNode` to `targetNode` closes a cycle through the two root paths: the
circulation of the minimum weight is pushed around it and the forest re-rooted. The second
component is `none` for the `break` when no edge of the cycle was found, and otherwise says
whether the edge index advances. -/
def reduceCycle (ai : ℕ) (voterNode targetNode : NodeId A) (voterRootPath targetRootPath : List (NodeId A))
    (s : ReduceAllState A) : ReduceAllState A × Option Bool :=
  let commonCount := trailingCommon voterRootPath targetRootPath
  -- `[target, .., voter]`: the target's part up to the common node, then the voter's part back
  let cycle := targetRootPath.take (targetRootPath.length - commonCount + 1) ++
    (voterRootPath.take (voterRootPath.length - commonCount)).reverse
  match findMin s.assignments cycle with
  | (_, none) => (s, none)
  | (minValue, some m) =>
    let targetChunk := targetRootPath.length - commonCount
    let minChainInVoter := targetChunk < m.index + m.direction
    let startOperationAdd := ((m.index % 2) + m.direction) % 2 == 1
    let c := (List.range cycle.length).foldl (circulateAt ai cycle m minValue startOperationAdd)
      ⟨s.assignments, 0, true, []⟩
    let tree :=
      if m.index = cycle.length - 1 ∧ m.direction = 1 then s.tree
      else if minChainInVoter then
        (reversePath [m.voter, m.target] voterRootPath s.tree).setParentOf voterNode targetNode
      else (reversePath [m.voter, m.target] targetRootPath s.tree).setParentOf targetNode voterNode
    (⟨c.assignments, removeCollapsed tree c.additionalRemoved, s.numChanged + c.removed⟩,
      some c.shouldIncCounter)

/-- One turn of the inner loop of `reduce_all` at the edge `di` of the voter at
`assignment_index`: `none` for a `break`, else whether `dist_index` advances. -/
def reduceAllTurn (ai : ℕ) (voter : A) (di : ℕ) (s : ReduceAllState A) : ReduceAllState A × Option Bool :=
  match s.assignments[ai]?.bind (·.distribution[di]?) with
  | none => (s, none)
  | some (target, _) =>
    let voterId : NodeId A := ⟨voter, .voter⟩
    let targetId : NodeId A := ⟨target, .target⟩
    let voterExists := s.tree.nodes.contains voterId
    let targetExists := s.tree.nodes.contains targetId
    let tree := (s.tree.insert voterId).insert targetId
    match voterExists, targetExists with
    | false, false => ({ s with tree := tree.setParentOf targetId voterId }, some true)
    | false, true => ({ s with tree := tree.setParentOf voterId targetId }, some true)
    | true, false => ({ s with tree := tree.setParentOf targetId voterId }, some true)
    | true, true =>
      let v := tree.root voterId
      let t := tree.root targetId
      if v.1 ≠ t.1 then ({ s with tree := merge tree v.2 t.2 }, some true)
      else reduceCycle ai voterId targetId v.2 t.2 { s with tree := tree }

/-- The inner loop of `reduce_all` for the voter at `assignment_index`. Each turn advances the
index, removes an edge of this voter or stops, so one more turn than the voter has edges is
enough fuel. -/
def reduceAllLoop (ai : ℕ) (voter : A) : ℕ → ℕ → ReduceAllState A → ReduceAllState A
  | 0, _, s => s
  | fuel + 1, di, s =>
    match reduceAllTurn ai voter di s with
    | (s, none) => s
    | (s, some advance) => reduceAllLoop ai voter fuel (if advance then di + 1 else di) s

/-- The voter at `assignment_index` in `reduce_all`. -/
def reduceAllVoter (s : ReduceAllState A) (ai : ℕ) : ReduceAllState A :=
  match s.assignments[ai]? with
  | none => s
  | some a => reduceAllLoop ai a.who (a.distribution.length + 1) 0 s

/-- `reduce_all`: the number of removed edges and the new assignments. -/
def reduceAll (assignments : List (StakedAssignment A)) : ℕ × List (StakedAssignment A) :=
  let s := (List.range assignments.length).foldl reduceAllVoter ⟨assignments, Tree.empty, 0⟩
  (s.numChanged, s.assignments)

/-- `reduce`: `reduce_4` and then `reduce_all`; `none` is the panic of `reduce_4`. -/
def reduce (assignments : List (StakedAssignment A)) : Option (ℕ × List (StakedAssignment A)) :=
  (reduce4 assignments).map fun r =>
    let r' := reduceAll r.2
    (r.1 + r'.1, r'.2)

/-! ## What reduce should keep -/

/-- The sum of the weights a voter gives. -/
def voterStake (assignments : List (StakedAssignment A)) (who : A) : ℕ :=
  ((assignments.filter (·.who = who)).map fun a => (a.distribution.map Prod.snd).sum).sum

/-- The exact sum of the weights given to a target. -/
def targetStake (assignments : List (StakedAssignment A)) (target : A) : ℕ :=
  (assignments.map fun a => ((a.distribution.filter (·.1 = target)).map Prod.snd).sum).sum

/-- The `total` of `to_support_map(assignments)` at `target`. -/
def supportTotal (assignments : List (StakedAssignment A)) (target : A) : ℕ :=
  assignments.foldl (fun acc a => a.distribution.foldl (fun acc e =>
    if e.1 = target then saturatingAdd acc e.2 else acc) acc) 0

/-- The inputs `reduce` is meant for: distinct voters, no target twice in a distribution,
positive weights, and every voter's and every target's stake within `u128`. -/
def ValidInput (assignments : List (StakedAssignment A)) : Prop :=
  (assignments.map (·.who)).Nodup ∧
    ∀ a ∈ assignments, (a.distribution.map Prod.fst).Nodup ∧
      voterStake assignments a.who ≤ extendedBalanceMax ∧
      ∀ e ∈ a.distribution, 0 < e.2 ∧ targetStake assignments e.1 ≤ extendedBalanceMax

instance : DecidablePred (ValidInput (A := A)) := fun _ => inferInstanceAs (Decidable (_ ∧ _))

/-- The source's test `should_deal_with_self_vote`: voters `10` and `20` back only their own
accounts, and the cycles through targets `20`, `30` and `40` are cancelled. -/
example : reduce [⟨1, [(10, 10)]⟩, ⟨2, [(10, 15), (20, 5)]⟩, ⟨3, [(20, 15), (40, 15)]⟩,
    ⟨4, [(20, 10), (30, 10), (40, 20)]⟩, ⟨5, [(20, 20), (30, 10), (40, 20)]⟩, ⟨10, [(10, 100)]⟩,
    ⟨20, [(20, 200)]⟩] =
    some (3, [⟨1, [(10, 10)]⟩, ⟨2, [(10, 15), (20, 5)]⟩, ⟨3, [(20, 30)]⟩, ⟨4, [(40, 40)]⟩,
      ⟨5, [(20, 15), (30, 20), (40, 15)]⟩, ⟨10, [(10, 100)]⟩, ⟨20, [(20, 200)]⟩]) := by
  decide

/-- Voter `3` backs target `3` (its own account) and targets `1` and `2`; voters `1` and `2` back
their own accounts and target `1`. Every weight is `1`. -/
def selfVoteAssignments : List (StakedAssignment ℕ) :=
  [⟨3, [(3, 1), (1, 1), (2, 1)]⟩, ⟨1, [(1, 1), (3, 1)]⟩, ⟨2, [(2, 1), (1, 1)]⟩]

/-- What `reduce` returns for `selfVoteAssignments`. -/
def selfVoteReduced : List (StakedAssignment ℕ) :=
  [⟨3, [(3, 2)]⟩, ⟨1, [(1, 2)]⟩, ⟨2, [(2, 2)]⟩]

theorem reduce_loses_stake_on_self_votes :
    ValidInput selfVoteAssignments ∧ reduce selfVoteAssignments = some (4, selfVoteReduced) ∧
      voterStake selfVoteAssignments 3 = 3 ∧ voterStake selfVoteReduced 3 = 2 ∧
      supportTotal selfVoteAssignments 1 = 3 ∧ supportTotal selfVoteReduced 1 = 2 := by
  decide

end PolkadotSdk.Npos
