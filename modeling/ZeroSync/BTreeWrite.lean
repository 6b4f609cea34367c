/-
`replicache/src/btree`: a B+ tree of entries, its nodes kept by hash.

A hash is a number: `newRandomHash` and `createChunk` give the next one, and
`emptyHash` is 0. The value of an internal entry is the node its hash leads
to. `modified` says that a node is in `#modified`; those are the mutable nodes,
and to change one and to make a new node is the same, for nodes are values
here. A result `none` is a call that throws, or that puts entries of the wrong
kind in a node.
-/
import ZeroSync.BinarySearch
import ZeroSync.Data
import Mathlib.Algebra.Order.Ring.Rat

namespace ZeroSync

open BinarySearch

/-- `Entry`. -/
structure BTreeEntry (α : Type) where
  key : String
  value : α
  sizeOfEntry : ℚ

/-- `DataNodeImpl` and `InternalNodeImpl`. -/
inductive NodeImpl (V : Type) where
  | data (hash : ℕ) (modified : Bool) (entries : List (BTreeEntry V))
  | internal (hash : ℕ) (modified : Bool) (level : ℕ) (entries : List (BTreeEntry (NodeImpl V)))

/-- The sizes a tree is made with; `getEntrySize` of a value and of a hash. -/
structure BTreeSizes (V : Type) where
  minSize : ℚ
  maxSize : ℚ
  chunkHeaderSize : ℚ
  getEntrySize : String → V → ℚ
  getHashSize : String → ℕ → ℚ
  getEntrySize_pos : ∀ key value, 0 < getEntrySize key value
  getHashSize_pos : ∀ key hash, 0 < getHashSize key hash

variable {V α : Type}

namespace NodeImpl

/-- The place of a key, by the shared `binarySearch`. -/
def place (key : String) (entries : List (BTreeEntry α)) : Position :=
  search (fun low high => low + (high - low) / 2)
    (fun i =>
      match entries[i]? with
      | none => .eq
      | some e => (compare key e.key).swap)
    entries.length 0 entries.length

/-- `binarySearch`. -/
def binarySearch (key : String) (entries : List (BTreeEntry α)) : ℕ := (place key entries).index

/-- `binarySearchFound`. -/
def binarySearchFound (i : ℕ) (entries : List (BTreeEntry α)) (key : String) : Bool :=
  match entries[i]? with
  | none => false
  | some e => e.key == key

/-- The child that `set` and `findLeaf` go to: the last one for a key after all of them. -/
def childIndex (key : String) (entries : List (BTreeEntry α)) : ℕ :=
  let i := binarySearch key entries
  if i = entries.length then i - 1 else i

/-- `readonlySplice`. -/
def readonlySplice (array : List α) (start deleteCount : ℕ) (items : List α) : List α :=
  array.take start ++ items ++ array.drop (start + deleteCount)

/-! ## `partition` -/

/-- The variables of `partition`; `lastPartition` with `lastSize`. -/
structure Partitioning (α : Type) where
  results : List (List α)
  sum : ℚ
  accum : List α
  lastPartition : Option (List α × ℚ)

/-- `commitLast`. -/
def Partitioning.commitLast (p : Partitioning α) : Partitioning α :=
  match p.lastPartition with
  | none => p
  | some (part, _) => { p with results := p.results ++ [part], lastPartition := none }

/-- The body of the loop. -/
def Partitioning.push (getSizeOfEntry : α → ℚ) (min max : ℚ) (p : Partitioning α) (value : α) : Partitioning α :=
  let size := getSizeOfEntry value
  if size ≥ max then
    let p :=
      if p.accum.length > 0 then
        { p.commitLast with lastPartition := some (p.accum, p.sum), accum := [], sum := 0 }
      else p
    { p.commitLast with lastPartition := some ([value], size) }
  else if p.sum + size ≥ min then
    { p.commitLast with lastPartition := some (p.accum ++ [value], p.sum + size), accum := [], sum := 0 }
  else { p with sum := p.sum + size, accum := p.accum ++ [value] }

/-- What is left at the end of the loop. -/
def Partitioning.finish (max : ℚ) (p : Partitioning α) : List (List α) :=
  if p.sum > 0 then
    match p.lastPartition with
    | some (part, lastSize) =>
      if p.sum + lastSize ≤ max then p.results ++ [part ++ p.accum] else p.commitLast.results ++ [p.accum]
    | none => p.results ++ [p.accum]
  else p.commitLast.results

/-- `partition`, to whose results `create` is applied in turn. -/
def partition (values : List α) (getSizeOfEntry : α → ℚ) (min max : ℚ) : List (List α) :=
  (values.foldl (Partitioning.push getSizeOfEntry min max)
    { results := [], sum := 0, accum := [], lastPartition := none }).finish max

/-! ## Nodes -/

/-- `entries`, of either kind. -/
inductive Entries (V : Type) where
  | data (entries : List (BTreeEntry V))
  | internal (entries : List (BTreeEntry (NodeImpl V)))

/-- `hash`. -/
def hash : NodeImpl V → ℕ
  | data hash _ _ => hash
  | internal hash _ _ _ => hash

/-- `level`. -/
def level : NodeImpl V → ℕ
  | data _ _ _ => 0
  | internal _ _ level _ => level

/-- `entries`. -/
def entries : NodeImpl V → Entries V
  | data _ _ entries => .data entries
  | internal _ _ _ entries => .internal entries

/-- `entries.length`. -/
def length : NodeImpl V → ℕ
  | data _ _ entries => entries.length
  | internal _ _ _ entries => entries.length

/-- `maxKey`. -/
def maxKey : NodeImpl V → Option String
  | data _ _ entries => entries.getLast?.map (·.key)
  | internal _ _ _ entries => entries.getLast?.map (·.key)

/-- `getChildNodeSize`. -/
def getChildNodeSize (tree : BTreeSizes V) : NodeImpl V → ℚ
  | data _ _ entries => entries.foldl (fun sum e => sum + e.sizeOfEntry) tree.chunkHeaderSize
  | internal _ _ _ entries => entries.foldl (fun sum e => sum + e.sizeOfEntry) tree.chunkHeaderSize

/-- `newDataNodeImpl`, with the hash after it. -/
def newDataNodeImpl (entries : List (BTreeEntry V)) (next : ℕ) : NodeImpl V × ℕ := (data next true entries, next + 1)

/-- `newInternalNodeImpl`, with the hash after it. -/
def newInternalNodeImpl (level : ℕ) (entries : List (BTreeEntry (NodeImpl V))) (next : ℕ) : NodeImpl V × ℕ :=
  (internal next true level entries, next + 1)

/-- `createNewInternalEntryForNode`. -/
def createNewInternalEntryForNode (tree : BTreeSizes V) (node : NodeImpl V) : Option (BTreeEntry (NodeImpl V)) :=
  node.maxKey.map fun key => { key, value := node, sizeOfEntry := tree.getHashSize key node.hash }

/-- The `create` of `partition`, for each part in turn. -/
def createNodes (tree : BTreeSizes V) (newNode : List α → ℕ → NodeImpl V × ℕ) :
    List (List α) → ℕ → Option (List (BTreeEntry (NodeImpl V)) × ℕ)
  | [], next => some ([], next)
  | part :: parts, next => do
    let (node, next) := newNode part next
    let e ← createNewInternalEntryForNode tree node
    let (rest, next) ← createNodes tree newNode parts next
    return (e :: rest, next)

/-- `partition` of the entries into new nodes of a level, by `newNodeImpl`. -/
def partitionNodes (tree : BTreeSizes V) (level : ℕ) (entries : Entries V) (next : ℕ) :
    Option (List (BTreeEntry (NodeImpl V)) × ℕ) :=
  let min := tree.minSize - tree.chunkHeaderSize
  let max := tree.maxSize - tree.chunkHeaderSize
  match entries with
  | .data entries =>
    if level = 0 then createNodes tree newDataNodeImpl (partition entries (·.sizeOfEntry) min max) next else none
  | .internal entries =>
    if level = 0 then none
    else createNodes tree (newInternalNodeImpl level) (partition entries (·.sizeOfEntry) min max) next

/-- `joinIterables`. -/
def joinIterables : Entries V → Entries V → Option (Entries V)
  | .data a, .data b => some (.data (a ++ b))
  | .internal a, .internal b => some (.internal (a ++ b))
  | _, _ => none

/-- `#mergeAndPartition` of the internal node of a level. -/
def mergeAndPartition (tree : BTreeSizes V) (level : ℕ) (thisEntries : List (BTreeEntry (NodeImpl V))) (i : ℕ)
    (childNode : NodeImpl V) (next : ℕ) : Option (NodeImpl V × ℕ) := do
  let (values, startIndex, removeCount) ←
    if i > 0 then do
      let previousSibling ← thisEntries[i - 1]?
      let values ← joinIterables previousSibling.value.entries childNode.entries
      some (values, i - 1, 2)
    else if i + 1 < thisEntries.length then do
      let nextSibling ← thisEntries[i + 1]?
      let values ← joinIterables childNode.entries nextSibling.value.entries
      some (values, i, 2)
    else some (childNode.entries, i, 1)
  let (newEntries, next) ← partitionNodes tree (level - 1) values next
  return newInternalNodeImpl level (readonlySplice thisEntries startIndex removeCount newEntries) next

/-- `#replaceChild` of the internal node of a level. -/
def replaceChild (level : ℕ) (thisEntries : List (BTreeEntry (NodeImpl V))) (index : ℕ)
    (newEntry : BTreeEntry (NodeImpl V)) (next : ℕ) : NodeImpl V × ℕ :=
  newInternalNodeImpl level (readonlySplice thisEntries index 1 [newEntry]) next

theorem sizeOf_getElem {hash level : ℕ} {modified : Bool} {entries : List (BTreeEntry (NodeImpl V))} {i : ℕ}
    (h : i < entries.length) : sizeOf entries[i].value < sizeOf (internal hash modified level entries) := by
  have hmem := List.sizeOf_lt_of_mem (List.getElem_mem h)
  have hentry : sizeOf entries[i].value < sizeOf entries[i] := by
    cases entries[i]
    simp
    omega
  rw [internal.sizeOf_spec]
  omega

/-! ## Operations of a node -/

/-- `set`. -/
def set (tree : BTreeSizes V) (key : String) (value : V) (entrySize : ℚ) : NodeImpl V → ℕ → Option (NodeImpl V × ℕ)
  | data _ _ entries, next =>
    let i := binarySearch key entries
    let deleteCount := if binarySearchFound i entries key then 1 else 0
    some (newDataNodeImpl (readonlySplice entries i deleteCount [{ key, value, sizeOfEntry := entrySize }]) next)
  | internal _ _ level entries, next =>
    let i := childIndex key entries
    if h : i < entries.length then do
      let (childNode, next) ← entries[i].value.set tree key value entrySize next
      let childNodeSize := childNode.getChildNodeSize tree
      if childNodeSize > tree.maxSize ∨ childNodeSize < tree.minSize then
        mergeAndPartition tree level entries i childNode next
      else
        let newEntry ← createNewInternalEntryForNode tree childNode
        return replaceChild level entries i newEntry next
    else none
termination_by node => sizeOf node
decreasing_by exact sizeOf_getElem h

/-- `del`. -/
def del (tree : BTreeSizes V) (key : String) : NodeImpl V → ℕ → Option (NodeImpl V × ℕ)
  | data hash modified entries, next =>
    let i := binarySearch key entries
    if binarySearchFound i entries key then some (newDataNodeImpl (readonlySplice entries i 1 []) next)
    else some (data hash modified entries, next)
  | internal hash modified level entries, next =>
    let i := binarySearch key entries
    if h : i < entries.length then do
      let oldChildNode := entries[i].value
      let (childNode, next) ← oldChildNode.del tree key next
      if childNode.hash = oldChildNode.hash then return (internal hash modified level entries, next)
      else if childNode.length = 0 then return newInternalNodeImpl level (readonlySplice entries i 1 []) next
      else if i = 0 ∧ entries.length = 1 then return (childNode, next)
      else if childNode.getChildNodeSize tree > tree.minSize then
        let entry ← createNewInternalEntryForNode tree childNode
        return replaceChild level entries i entry next
      else mergeAndPartition tree level entries i childNode next
    else some (internal hash modified level entries, next)
termination_by node => sizeOf node
decreasing_by exact sizeOf_getElem h

/-- `findLeaf`: the entries of the leaf. -/
def findLeaf (key : String) : NodeImpl V → Option (List (BTreeEntry V))
  | data _ _ entries => some entries
  | internal _ _ _ entries =>
    let i := childIndex key entries
    if h : i < entries.length then entries[i].value.findLeaf key else none
termination_by node => sizeOf node
decreasing_by exact sizeOf_getElem h

mutual

/-- `entriesIter`. -/
def entriesIter : NodeImpl V → List (BTreeEntry V)
  | data _ _ entries => entries
  | internal _ _ _ entries => childrenIter entries

def childrenIter : List (BTreeEntry (NodeImpl V)) → List (BTreeEntry V)
  | [] => []
  | ⟨_, child, _⟩ :: entries => entriesIter child ++ childrenIter entries

end

mutual

/-- `gatherNewChunks`, with the node that is read back for the hash it returns. -/
def gatherNewChunks : NodeImpl V → ℕ → NodeImpl V × ℕ
  | data hash modified entries, next =>
    if modified then (data next false entries, next + 1) else (data hash modified entries, next)
  | internal hash modified level entries, next =>
    if modified then
      let (entries, next) := gatherChildren entries next
      (internal next false level entries, next + 1)
    else (internal hash modified level entries, next)

def gatherChildren : List (BTreeEntry (NodeImpl V)) → ℕ → List (BTreeEntry (NodeImpl V)) × ℕ
  | [], next => ([], next)
  | ⟨key, child, sizeOfEntry⟩ :: entries, next =>
    let (child, next) := gatherNewChunks child next
    let (entries, next) := gatherChildren entries next
    (⟨key, child, sizeOfEntry⟩ :: entries, next)

end

end NodeImpl

/-! ## The tree -/

open NodeImpl

/-- `BTreeWrite`: the node of `rootHash`, and the next hash. -/
structure BTreeWrite (V : Type) where
  root : NodeImpl V
  nextHash : ℕ

namespace BTreeWrite

def emptyHash : ℕ := 0

/-- `emptyDataNodeImpl`. -/
def emptyDataNodeImpl : NodeImpl V := data emptyHash false []

/-- A new tree. -/
def empty : BTreeWrite V := { root := emptyDataNodeImpl, nextHash := 1 }

/-- `put`. -/
def put (tree : BTreeSizes V) (key : String) (value : V) (t : BTreeWrite V) : Option (BTreeWrite V) := do
  let entrySize := tree.getEntrySize key value
  let (rootNode, next) ← t.root.set tree key value entrySize t.nextHash
  if rootNode.getChildNodeSize tree > tree.maxSize then
    let level := rootNode.level
    let (entries, next) ← partitionNodes tree level rootNode.entries next
    let (newRoot, next) := newInternalNodeImpl (level + 1) entries next
    return { root := newRoot, nextHash := next }
  else return { root := rootNode, nextHash := next }

/-- The root after one layer was flattened. -/
def flatten : NodeImpl V → NodeImpl V
  | internal _ _ _ [e] => e.value
  | node => node

/-- `del`. -/
def del (tree : BTreeSizes V) (key : String) (t : BTreeWrite V) : Option (BTreeWrite V × Bool) := do
  let (newRootNode, next) ← t.root.del tree key t.nextHash
  let found := t.root.hash ≠ newRootNode.hash
  if found then return ({ root := flatten newRootNode, nextHash := next }, true)
  else return ({ t with nextHash := next }, false)

/-- `clear`. -/
def clear (t : BTreeWrite V) : BTreeWrite V := { t with root := emptyDataNodeImpl }

/-- `flush`. -/
def flush (t : BTreeWrite V) : BTreeWrite V :=
  if t.root.hash = emptyHash then t
  else
    let (root, next) := gatherNewChunks t.root t.nextHash
    { root, nextHash := next }

/-- `get`. -/
def get (key : String) (t : BTreeWrite V) : Option (Option V) := do
  let leaf ← t.root.findLeaf key
  let index := binarySearch key leaf
  return if binarySearchFound index leaf key then leaf[index]?.map (·.value) else none

/-- `has`. -/
def has (key : String) (t : BTreeWrite V) : Option Bool := do
  let leaf ← t.root.findLeaf key
  return binarySearchFound (binarySearch key leaf) leaf key

/-- `entries`. -/
def entries (t : BTreeWrite V) : List (BTreeEntry V) := t.root.entriesIter

end BTreeWrite

end ZeroSync
