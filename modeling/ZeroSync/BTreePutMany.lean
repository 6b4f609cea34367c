/-
`putMany` of `replicache/src/btree`: many entries at once.

The entries for one child go down together. The children that come back too
large or too small are repartitioned in groups, each with a sibling on either
side. The tree of an empty root is built level by level, from the leaves up;
`fuel` bounds the levels, and a call that gets `none` for any fuel never
returns.
-/
import ZeroSync.BTreeWrite
import ZeroSync.StateVersion

namespace ZeroSync

open BinarySearch

variable {V α : Type}

namespace NodeImpl

/-! ## Leaves -/

/-- The merge of `DataNodeImpl.putMany`: of two entries with one key, the new one stays. -/
def mergeEntries : List (BTreeEntry V) → List (BTreeEntry V) → List (BTreeEntry V)
  | [], entries => entries
  | thisEntries, [] => thisEntries
  | existingEntry :: thisEntries, newEntry :: entries =>
    match compare existingEntry.key newEntry.key with
    | .lt => existingEntry :: mergeEntries thisEntries (newEntry :: entries)
    | .gt => newEntry :: mergeEntries (existingEntry :: thisEntries) entries
    | .eq => newEntry :: mergeEntries thisEntries entries
termination_by thisEntries entries => thisEntries.length + entries.length

/-! ## Children -/

/-- `binarySearchFrom`. -/
def binarySearchFrom (key : String) (entries : List (BTreeEntry α)) (start : ℕ) : ℕ :=
  start + binarySearch key (entries.drop start)

/-- `childGroups`, and where the next search starts. -/
structure ChildGroups (V : Type) where
  groups : List (ℕ × List (BTreeEntry V))
  searchStart : ℕ

/-- `childGroups.get(i).push(entry)`, with a new group when there is none. -/
def pushGroup (i : ℕ) (entry : BTreeEntry V) : List (ℕ × List (BTreeEntry V)) → List (ℕ × List (BTreeEntry V))
  | [] => [(i, [entry])]
  | (j, group) :: groups => if j = i then (j, group ++ [entry]) :: groups else (j, group) :: pushGroup i entry groups

/-- The body of the loop that groups the entries by child. -/
def ChildGroups.push (thisEntries : List (BTreeEntry (NodeImpl V))) (s : ChildGroups V) (entry : BTreeEntry V) :
    ChildGroups V :=
  let i := binarySearchFrom entry.key thisEntries s.searchStart
  let i := if i = thisEntries.length then i - 1 else i
  { groups := pushGroup i entry s.groups, searchStart := i }

/-- The entries by the child they go to. -/
def childGroups (thisEntries : List (BTreeEntry (NodeImpl V))) (entries : List (BTreeEntry V)) :
    List (ℕ × List (BTreeEntry V)) :=
  (entries.foldl (ChildGroups.push thisEntries) { groups := [], searchStart := 0 }).groups

/-! ## Children to rebalance -/

/-- Adjacent children that are rebalanced together. -/
structure RebalanceGroup (V : Type) where
  nodes : List (ℕ × NodeImpl V)
  minIndex : ℕ
  maxIndex : ℕ

/-- A child to rebalance joins the last group, or starts a new one. -/
def addToGroups (groups : List (RebalanceGroup V)) (child : ℕ × NodeImpl V) : List (RebalanceGroup V) :=
  let new := { nodes := [child], minIndex := child.1, maxIndex := child.1 }
  match groups.getLast? with
  | none => [new]
  | some lastGroup =>
    if child.1 ≤ lastGroup.maxIndex + 1 then
      groups.dropLast ++ [{ lastGroup with nodes := lastGroup.nodes ++ [child], maxIndex := child.1 }]
    else groups ++ [new]

/-- `joinIterables` of many. -/
def joinAllIterables : List (Entries V) → Option (Entries V)
  | [] => none
  | [values] => some values
  | values :: allValues => do joinIterables values (← joinAllIterables allValues)

/-- The entries of the child at an index: those of its new node, if the group has one. -/
def RebalanceGroup.values (group : RebalanceGroup V) (newEntries : List (BTreeEntry (NodeImpl V))) (idx : ℕ) :
    Option (Entries V) :=
  match group.nodes.lookup idx with
  | some rebalancedNode => some rebalancedNode.entries
  | none => newEntries[idx]?.map (·.value.entries)

/-- New nodes in the place of a group of children and of a sibling on either side. -/
def rebalanceGroup (tree : BTreeSizes V) (level : ℕ) (group : RebalanceGroup V)
    (state : List (BTreeEntry (NodeImpl V)) × ℕ) : Option (List (BTreeEntry (NodeImpl V)) × ℕ) := do
  let (newEntries, next) := state
  let startIndex := group.minIndex - 1
  let endIndex := min (newEntries.length - 1) (group.maxIndex + 1)
  let removeCount := endIndex - startIndex + 1
  let allValues ← (List.range' startIndex removeCount).mapM (group.values newEntries)
  let merged ← joinAllIterables allValues
  let (rebalanced, next) ← partitionNodes tree (level - 1) merged next
  return (readonlySplice newEntries startIndex removeCount rebalanced, next)

/-- The groups, from right to left. -/
def rebalance (tree : BTreeSizes V) (level : ℕ) (childrenToRebalance : List (ℕ × NodeImpl V))
    (newEntries : List (BTreeEntry (NodeImpl V))) (next : ℕ) : Option (List (BTreeEntry (NodeImpl V)) × ℕ) :=
  let groups := (childrenToRebalance.mergeSort fun a b => a.1 ≤ b.1).foldl addToGroups []
  groups.reverse.foldlM (fun state group => rebalanceGroup tree level group state) (newEntries, next)

/-- `newEntries` and `childrenToRebalance`, with the next hash. -/
structure PutChildren (V : Type) where
  newEntries : List (BTreeEntry (NodeImpl V))
  childrenToRebalance : List (ℕ × NodeImpl V)
  next : ℕ

/-- A child that has its new entries. -/
def PutChildren.add (tree : BTreeSizes V) (s : PutChildren V) (childIndex : ℕ) (childNode : NodeImpl V) (next : ℕ) :
    Option (PutChildren V) :=
  let childNodeSize := childNode.getChildNodeSize tree
  if childNodeSize > tree.maxSize ∨ childNodeSize < tree.minSize then
    some { s with childrenToRebalance := s.childrenToRebalance ++ [(childIndex, childNode)], next }
  else do
    let newEntry ← createNewInternalEntryForNode tree childNode
    return { s with newEntries := s.newEntries.set childIndex newEntry, next }

/-- `putMany`. -/
def putMany (tree : BTreeSizes V) : NodeImpl V → List (BTreeEntry V) → ℕ → Option (NodeImpl V × ℕ)
  | data hash modified thisEntries, entries, next =>
    if entries.length = 0 then some (data hash modified thisEntries, next)
    else some (newDataNodeImpl (mergeEntries thisEntries entries) next)
  | internal hash modified level thisEntries, entries, next =>
    if entries.length = 0 then some (internal hash modified level thisEntries, next)
    else do
      let s ← (childGroups thisEntries entries).foldlM (fun (s : PutChildren V) group =>
        if h : group.1 < thisEntries.length then do
          let (childNode, next) ← thisEntries[group.1].value.putMany tree group.2 s.next
          s.add tree group.1 childNode next
        else none) ({ newEntries := thisEntries, childrenToRebalance := [], next } : PutChildren V)
      let (newEntries, next) ← rebalance tree level s.childrenToRebalance s.newEntries s.next
      return newInternalNodeImpl level newEntries next
termination_by node => sizeOf node
decreasing_by exact sizeOf_getElem h

/-! ## From the leaves up -/

/-- New nodes of a level, one for each part. -/
def newNodes (newNode : List α → ℕ → NodeImpl V × ℕ) : List (List α) → ℕ → List (NodeImpl V) × ℕ
  | [], next => ([], next)
  | part :: parts, next =>
    let (node, next) := newNode part next
    let (nodes, next) := newNodes newNode parts next
    (node :: nodes, next)

/-- The loop that builds a level from the one below, until one node is left. -/
def buildLevels (tree : BTreeSizes V) : ℕ → ℕ → List (NodeImpl V) → ℕ → Option (NodeImpl V × ℕ)
  | fuel, level, currentLevel, next =>
    if currentLevel.length > 1 then
      match fuel with
      | 0 => none
      | fuel + 1 => do
        let entries ← currentLevel.mapM (createNewInternalEntryForNode tree)
        let parentPartitions := partition entries (·.sizeOfEntry) (tree.minSize - tree.chunkHeaderSize)
          (tree.maxSize - tree.chunkHeaderSize)
        let (currentLevel, next) := newNodes (newInternalNodeImpl (level + 1)) parentPartitions next
        buildLevels tree fuel (level + 1) currentLevel next
    else currentLevel[0]?.map fun node => (node, next)

end NodeImpl

namespace BTreeWrite

open NodeImpl

/-- `sizedEntries`. -/
def sizedEntries (tree : BTreeSizes V) (entries : List (String × V)) : List (BTreeEntry V) :=
  entries.map fun e => { key := e.1, value := e.2, sizeOfEntry := tree.getEntrySize e.1 e.2 }

/-- The assertion on the order of the entries, by `<` of strings. -/
def AssertSorted (entries : List (String × V)) : Prop := entries.IsChain fun a b => stringLt a.1 b.1 = true

instance (entries : List (String × V)) : Decidable (AssertSorted entries) :=
  inferInstanceAs (Decidable (entries.IsChain fun a b => stringLt a.1 b.1 = true))

/-- `putMany`. -/
def putMany (tree : BTreeSizes V) (fuel : ℕ) (entries : List (String × V)) (t : BTreeWrite V) : Option (BTreeWrite V) :=
  if entries.length = 0 then some t
  else if ¬ AssertSorted entries then none
  else if t.root.hash = emptyHash then
    match partition (sizedEntries tree entries) (·.sizeOfEntry) (tree.minSize - tree.chunkHeaderSize)
      (tree.maxSize - tree.chunkHeaderSize) with
    | [] => some t
    | [part] =>
      let (leaf, next) := newDataNodeImpl part t.nextHash
      some { root := leaf, nextHash := next }
    | leafPartitions => do
      let (currentLevel, next) := newNodes newDataNodeImpl leafPartitions t.nextHash
      let (root, next) ← buildLevels tree fuel 0 currentLevel next
      return { root, nextHash := next }
  else do
    let (rootNode, next) ← t.root.putMany tree (sizedEntries tree entries) t.nextHash
    if rootNode.getChildNodeSize tree > tree.maxSize then
      let level := rootNode.level
      let (newEntries, next) ← partitionNodes tree level rootNode.entries next
      let (newRoot, next) := newInternalNodeImpl (level + 1) newEntries next
      return { root := newRoot, nextHash := next }
    else return { root := rootNode, nextHash := next }

end BTreeWrite

end ZeroSync
