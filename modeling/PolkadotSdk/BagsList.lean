import Mathlib

/-!
# The bags list

A model of `pallet-bags-list`'s `List`: nodes kept in doubly linked lists, one list
(a bag) per score threshold. `ListNodes` is a counted storage map and `ListBags` maps a
bag's upper threshold to its head and tail; both are finite association lists. Scores
are `u64`, natural numbers up to `scoreMax`.

Every node access reads the storage as it is at that point of the source, so the
order of reads and writes in `excise`, `insert_node_unchecked` and `remove_many` is
the source's. A `defensive!` branch continues as in a production build; an `expect`
that fails is a panic, `none`.
-/

namespace PolkadotSdk.BagsList

/-- `ListError`. -/
inductive ListError where
  | duplicate
  | notHeavier
  | notInSameBag
  | nodeNotFound
  | locked
  deriving DecidableEq, Repr

/-- `Score::max_value()` for `u64` scores: the upper threshold of the last bag. -/
def scoreMax : ℕ := 2 ^ 64 - 1

/-- `Node`: a list entry with its neighbours in its bag. -/
structure Node (A : Type) where
  id : A
  prev : Option A
  next : Option A
  bagUpper : ℕ
  score : ℕ
  deriving DecidableEq, Repr

/-- `Bag`: the head and tail of one bag; `bagUpper` is not stored but set by `Bag::get`. -/
structure Bag (A : Type) where
  head : Option A
  tail : Option A
  bagUpper : ℕ
  deriving DecidableEq, Repr

/-- The storage of the list: `ListNodes` with its counter, and `ListBags` holding each
bag's head and tail. -/
structure State (A : Type) where
  listNodes : AList fun _ : A => Node A
  counterForListNodes : ℕ
  listBags : AList fun _ : ℕ => Option A × Option A

variable {A : Type} [DecidableEq A]

/-- The empty storage. -/
def State.empty : State A := ⟨∅, 0, ∅⟩

/-- `notional_bag_for`: the first threshold that is not below the score, or `scoreMax`.
`partition_point` is the length of the prefix of thresholds below the score, which is
what the binary search returns on the sorted thresholds. -/
def notionalBagFor (thresholds : List ℕ) (score : ℕ) : ℕ :=
  (thresholds[(thresholds.takeWhile fun t => decide (t < score)).length]?).getD scoreMax

namespace State

/-- `Node::get`. -/
def getNode (s : State A) (id : A) : Option (Node A) := s.listNodes.lookup id

/-- `Node::put`: `ListNodes::insert`, which counts a new key. -/
def putNode (s : State A) (node : Node A) : State A :=
  { s with
    listNodes := s.listNodes.insert node.id node
    counterForListNodes :=
      if node.id ∈ s.listNodes then s.counterForListNodes else s.counterForListNodes + 1 }

/-- `Node::remove_from_storage_unchecked`: `ListNodes::remove`, which counts a removed key. -/
def removeNode (s : State A) (id : A) : State A :=
  { s with
    listNodes := s.listNodes.erase id
    counterForListNodes :=
      if id ∈ s.listNodes then s.counterForListNodes - 1 else s.counterForListNodes }

/-- `Bag::get`. -/
def getBag (s : State A) (bagUpper : ℕ) : Option (Bag A) :=
  (s.listBags.lookup bagUpper).map fun b => ⟨b.1, b.2, bagUpper⟩

/-- `Bag::get_or_make`. -/
def getOrMakeBag (s : State A) (bagUpper : ℕ) : Bag A :=
  (s.getBag bagUpper).getD ⟨none, none, bagUpper⟩

/-- `Bag::put`: an empty bag is removed. -/
def putBag (s : State A) (bag : Bag A) : State A :=
  if bag.head.isNone ∧ bag.tail.isNone then { s with listBags := s.listBags.erase bag.bagUpper }
  else { s with listBags := s.listBags.insert bag.bagUpper (bag.head, bag.tail) }

/-- `ListBags::remove`. -/
def removeBag (s : State A) (bagUpper : ℕ) : State A :=
  { s with listBags := s.listBags.erase bagUpper }

end State

/-- `Node::is_terminal`: the node is a head or a tail. -/
def Node.isTerminal (node : Node A) : Bool := node.prev.isNone || node.next.isNone

/-- `Node::excise`: links the node's neighbours to each other, reading each from storage
when it is written. -/
def excise (s : State A) (node : Node A) : State A :=
  let s := match node.prev.bind s.getNode with
    | some prev => s.putNode { prev with next := node.next }
    | none => s
  match node.next.bind s.getNode with
  | some next => s.putNode { next with prev := node.prev }
  | none => s

/-- `Bag::insert_node_unchecked`: the node becomes the bag's tail. -/
def insertNodeUnchecked (s : State A) (bag : Bag A) (node : Node A) : State A × Bag A :=
  if bag.tail = some node.id then (s, bag)
  else
    let id := node.id
    let s := s.putNode { node with bagUpper := bag.bagUpper, prev := bag.tail, next := none }
    let s := match bag.tail.bind s.getNode with
      | some oldTail => s.putNode { oldTail with next := some id }
      | none => s
    let bag := { bag with tail := some id }
    let bag := if bag.head.isNone then { bag with head := some id } else bag
    (s, bag)

/-- `Bag::remove_node_unchecked`. -/
def removeNodeUnchecked (s : State A) (bag : Bag A) (node : Node A) : State A × Bag A :=
  let s := excise s node
  let bag := if bag.tail = some node.id then { bag with tail := node.prev } else bag
  let bag := if bag.head = some node.id then { bag with head := node.next } else bag
  (s, bag)

/-- `Bag::iter`: the nodes from `start` along `next`. `fuel` bounds the walk; the number
of stored nodes is enough for a bag without a cycle. -/
def bagIter (s : State A) : ℕ → Option A → List (Node A)
  | 0, _ => []
  | _ + 1, none => []
  | fuel + 1, some id =>
    match s.getNode id with
    | none => []
    | some node => node :: bagIter s fuel node.next

/-- The ids of a stored bag, in order (`bag.iter().map(|node| node.id)`). -/
def bagIds (s : State A) (bag : Bag A) : List A :=
  (bagIter s s.listNodes.entries.length bag.head).map Node.id

/-- `List::iter`: the bags from the highest threshold down, with the last bag `scoreMax`
added when the thresholds do not name it, each from head to tail. -/
def iter (thresholds : List ℕ) (s : State A) : List (Node A) :=
  let uppers := if thresholds.getLast? = some scoreMax then thresholds.reverse
    else (thresholds ++ [scoreMax]).reverse
  (uppers.filterMap s.getBag).flatMap fun bag => bagIter s s.listNodes.entries.length bag.head

/-- `List::iter_from`: the nodes after `start` in its bag, then the bags of the thresholds
below its bag, found by `partition_point`. -/
def iterFrom (thresholds : List ℕ) (s : State A) (start : A) : Except ListError (List (Node A)) :=
  match s.getNode start with
  | none => .error .nodeNotFound
  | some startNode =>
    let startBag := bagIter s s.listNodes.entries.length startNode.next
    let idx := (thresholds.takeWhile fun t => decide (t < startNode.bagUpper)).length
    let leftoverBags := ((thresholds.take idx).reverse.filterMap s.getBag).flatMap fun bag =>
      bagIter s s.listNodes.entries.length bag.head
    .ok (startBag ++ leftoverBags)

/-- `List::contains`. -/
def contains (s : State A) (id : A) : Bool := decide (id ∈ s.listNodes)

/-- `List::insert`. -/
def insert (thresholds : List ℕ) (s : State A) (id : A) (score : ℕ) : Except ListError (State A) :=
  if contains s id then .error .duplicate
  else
    let bag := s.getOrMakeBag (notionalBagFor thresholds score)
    let (s, bag) := insertNodeUnchecked s bag ⟨id, none, none, 0, score⟩
    .ok (s.putBag bag)

/-- The loop of `List::remove_many`, with the bags it has touched kept in memory. -/
def removeManyLoop : List A → State A → List (Bag A) → ℕ → State A × List (Bag A) × ℕ
  | [], s, bags, count => (s, bags, count)
  | id :: ids, s, bags, count =>
    match s.getNode id with
    | none => removeManyLoop ids s bags count
    | some node =>
      let (s, bags) :=
        if !node.isTerminal then (excise s node, bags)
        else
          let bag := (bags.find? fun b => b.bagUpper = node.bagUpper).getD
            (s.getOrMakeBag node.bagUpper)
          let (s, bag) := removeNodeUnchecked s bag node
          (s, bag :: bags.filter fun b => b.bagUpper ≠ node.bagUpper)
      removeManyLoop ids (s.removeNode node.id) bags (count + 1)

/-- `List::remove_many`: the touched bags are written back in the order of their
thresholds, as the `BTreeMap` holding them iterates. -/
def removeMany (s : State A) (ids : List A) : State A × ℕ :=
  let (s, bags, count) := removeManyLoop ids s [] 0
  ((bags.insertionSort fun a b => a.bagUpper ≤ b.bagUpper).foldl State.putBag s, count)

/-- `List::remove`. -/
def remove (s : State A) (id : A) : Except ListError (State A) :=
  if !contains s id then .error .nodeNotFound else .ok (removeMany s [id]).1

/-- `List::insert_many`: inserts the ids that have a score, counting the successes. -/
def insertMany (thresholds : List ℕ) (s : State A) (ids : List A) (scoreOf : A → Option ℕ) :
    State A × ℕ :=
  ids.foldl (fun (s, count) v =>
    match scoreOf v with
    | some score =>
      match insert thresholds s v score with
      | .ok s' => (s', count + 1)
      | .error _ => (s, count)
    | none => (s, count)) (s, 0)

/-- `List::update_position_for`: moves a misplaced node to the bag of its new score. -/
def updatePositionFor (thresholds : List ℕ) (s : State A) (node : Node A) (newScore : ℕ) :
    State A × Option (ℕ × ℕ) :=
  let node := { node with score := newScore }
  if notionalBagFor thresholds newScore ≠ node.bagUpper then
    let oldBagUpper := node.bagUpper
    let s :=
      if !node.isTerminal then excise s node
      else match s.getBag node.bagUpper with
        | some bag =>
          let (s, bag) := removeNodeUnchecked s bag node
          s.putBag bag
        | none => s
    let newBagUpper := notionalBagFor thresholds newScore
    let (s, bag) := insertNodeUnchecked s (s.getOrMakeBag newBagUpper) node
    (s.putBag bag, some (oldBagUpper, newBagUpper))
  else (s.putNode node, none)

/-- `List::insert_at_unchecked`: puts `node` right in front of `atNode`; `none` is the
panic of the `expect` when the bag of `atNode` is missing. -/
def insertAtUnchecked (s : State A) (atNode node : Node A) : Option (State A) :=
  let node := { node with prev := atNode.prev }
  let s := match atNode.prev.bind s.getNode with
    | some prev => s.putNode { prev with next := some node.id }
    | none => s
  let node := { node with next := some atNode.id }
  let atNode := { atNode with prev := some node.id }
  let s? :=
    if node.isTerminal then
      match s.getBag atNode.bagUpper with
      | some bag =>
        let bag := if node.prev = none then { bag with head := some node.id } else bag
        some (s.putBag bag)
      | none => none
    else some s
  s?.map fun s => (s.putNode atNode).putNode node

/-- The derived order of Rust's `Option`: `None` is below every `Some`. -/
def optionLt : Option ℕ → Option ℕ → Bool
  | none, some _ => true
  | some a, some b => decide (a < b)
  | _, none => false

/-- `List::put_in_front_of`, with the score provider's scores `scoreOf`. -/
def putInFrontOf (scoreOf : A → Option ℕ) (s : State A) (lighterId heavierId : A) :
    Except ListError (Option (State A)) := do
  let some lighterNode := s.getNode lighterId | .error .nodeNotFound
  let some heavierNode := s.getNode heavierId | .error .nodeNotFound
  if lighterNode.bagUpper ≠ heavierNode.bagUpper then throw .notInSameBag
  if !optionLt (scoreOf lighterId) (scoreOf heavierId) then throw .notHeavier
  let s := (removeMany s [heavierId]).1
  let some lighterNode := s.getNode lighterId | .error .nodeNotFound
  return insertAtUnchecked s lighterNode heavierNode

section Migrate

variable {A : Type} [LinearOrder A]

/-- The elements of a `BTreeSet` built from `l`, in its iteration order. -/
def sortedSet {α : Type} [LinearOrder α] (l : List α) : List α :=
  l.dedup.insertionSort (· ≤ ·)

/-- The first loops of `List::migrate`: the accounts of each old bag that one of
`bagsOf` splits or removes, each bag visited once. -/
def affectedAccounts (s : State A) (bagsOf : List ℕ) (seen : List ℕ) (accounts : List A) :
    List ℕ × List A :=
  bagsOf.foldl (fun (seen, accounts) affectedBag =>
    if affectedBag ∈ seen then (seen, accounts)
    else
      let accounts := match s.getBag affectedBag with
        | some bag => accounts ++ bagIds s bag
        | none => accounts
      (affectedBag :: seen, accounts)) (seen, accounts)

/-- `List::migrate` from `oldThresholds` to `newThresholds` (`T::BagThresholds`): the
accounts of the bags that are split or removed are removed and inserted again with
their scores, and the removed bags are deleted. -/
def migrate (newThresholds : List ℕ) (s : State A) (oldThresholds : List ℕ)
    (scoreOf : A → Option ℕ) : State A × ℕ :=
  if newThresholds = oldThresholds then (s, 0)
  else
    let oldSet := sortedSet oldThresholds
    let newSet := sortedSet newThresholds
    let newBags := newSet.filter fun b => b ∉ oldSet
    let (seen, accounts) :=
      affectedAccounts s (newBags.map (notionalBagFor oldThresholds)) [] []
    let removedBags := oldSet.filter fun b => b ∉ newSet
    let (_, accounts) := affectedAccounts s removedBags seen accounts
    let accounts := sortedSet accounts
    let s := (removeMany s accounts).1
    let s := (insertMany newThresholds s accounts scoreOf).1
    (removedBags.foldl State.removeBag s, accounts.length)

end Migrate

end PolkadotSdk.BagsList
