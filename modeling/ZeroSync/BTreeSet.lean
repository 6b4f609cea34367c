/-
`shared/btree-set.ts`: a B+ tree of keys.

`isShared` only says which nodes must be copied before they are changed, and
is left out: nodes are values here. The arrays `keys` and `children` of an
internal node, which are changed together, are one list of entries. A result
`none` is a call that throws, or that leaves a node which is neither a leaf
nor internal.
-/
import ZeroSync.BinarySearch

namespace ZeroSync

open BinarySearch

def MAX_NODE_SIZE : ℕ := 32

/-- `BNode` and `BNodeInternal`: an entry holds `keys[i]` and `children[i]`. -/
inductive BNode (K : Type) where
  | leaf (keys : List K)
  | internal (entries : List (K × BNode K))

/-- A node after `set`: with the right sibling it was split from, and whether `tree.size` grows. -/
structure BNode.SetResult (K : Type) where
  node : BNode K
  sibling : Option (BNode K)
  added : Bool

variable {K : Type}

/-- `indexOf`. -/
def indexOf (cmp : K → K → Ordering) (key : K) (keys : List K) : Position :=
  search (fun low high => (low + high) / 2)
    (fun mid =>
      match keys[mid]? with
      | none => .eq
      | some k => cmp k key)
    keys.length 0 keys.length

namespace BNode

/-- The `keys` of an internal node. -/
def entryKeys (entries : List (K × BNode K)) : List K := entries.map (·.1)

/-- `keys`. -/
def keys : BNode K → List K
  | leaf keys => keys
  | internal entries => entryKeys entries

/-- `keys.length`. -/
def size : BNode K → ℕ
  | leaf keys => keys.length
  | internal entries => entries.length

/-- `maxKey`. -/
def maxKey (node : BNode K) : Option K := node.keys.getLast?

/-- The entry of a child. -/
def entry (child : BNode K) : Option (K × BNode K) := child.maxKey.map fun key => (key, child)

theorem sizeOf_getElem {entries : List (K × BNode K)} {i : ℕ} (h : i < entries.length) :
    sizeOf entries[i].2 < sizeOf (internal entries) := by
  have hmem := List.sizeOf_lt_of_mem (List.getElem_mem h)
  have hentry : sizeOf entries[i] = 1 + sizeOf entries[i].1 + sizeOf entries[i].2 := rfl
  have hnode : sizeOf (internal entries) = 1 + sizeOf entries := internal.sizeOf_spec entries
  omega

/-! ## Lookups -/

/-- `get`. -/
def get (cmp : K → K → Ordering) (key : K) : BNode K → Option K
  | leaf keys =>
    match indexOf cmp key keys with
    | .missing _ => none
    | .found i => keys[i]?
  | internal entries =>
    let i := (indexOf cmp key (entryKeys entries)).index
    if h : i < entries.length then entries[i].2.get cmp key else none
termination_by node => sizeOf node
decreasing_by exact sizeOf_getElem h

/-- `has`. -/
def has (cmp : K → K → Ordering) (key : K) : BNode K → Bool
  | leaf keys => (indexOf cmp key keys).isFound
  | internal entries =>
    let i := (indexOf cmp key (entryKeys entries)).index
    if h : i < entries.length then entries[i].2.has cmp key else false
termination_by node => sizeOf node
decreasing_by exact sizeOf_getElem h

/-! ## `set` -/

/-- `set` of a leaf, which splits when it is full. -/
def setLeaf (cmp : K → K → Ordering) (key : K) (keys : List K) : SetResult K :=
  match indexOf cmp key keys with
  | .missing i =>
    if keys.length < MAX_NODE_SIZE then { node := leaf (keys.insertIdx i key), sibling := none, added := true }
    else
      let half := keys.length / 2
      let left := keys.take half
      let right := keys.drop half
      if left.length < i then
        { node := leaf left, sibling := some (leaf (right.insertIdx (i - left.length) key)), added := true }
      else { node := leaf (left.insertIdx i key), sibling := some (leaf right), added := true }
  | .found i => { node := leaf (keys.set i key), sibling := none, added := false }

/-- `takeFromRight`: the node and the right one after its first key has moved. -/
def takeFromRight : BNode K → BNode K → Option (BNode K × BNode K)
  | leaf keys, leaf (key :: rhs) => some (leaf (keys ++ [key]), leaf rhs)
  | internal entries, internal (entry :: rhs) => some (internal (entries ++ [entry]), internal rhs)
  | _, _ => none

/-- `takeFromLeft`: the left node and the node after the last key of the left one has moved. -/
def takeFromLeft : BNode K → BNode K → Option (BNode K × BNode K)
  | leaf lhs, leaf keys => lhs.getLast?.map fun key => (leaf lhs.dropLast, leaf (key :: keys))
  | internal lhs, internal entries =>
    lhs.getLast?.map fun entry => (internal lhs.dropLast, internal (entry :: entries))
  | _, _ => none

/-- The sibling on the left of `children[i]`, when a key can be shifted to it. -/
def roomLeft (cmp : K → K → Ordering) (key : K) (entries : List (K × BNode K)) (i : ℕ) (child : BNode K) :
    Option (BNode K) :=
  match i with
  | 0 => none
  | i + 1 =>
    match entries[i]?, child.keys.head? with
    | some (_, other), some first => if other.size < MAX_NODE_SIZE ∧ cmp first key = .lt then some other else none
    | _, _ => none

/-- The sibling on the right of `children[i]`, when a key can be shifted to it. -/
def roomRight (cmp : K → K → Ordering) (key : K) (entries : List (K × BNode K)) (i : ℕ) (child : BNode K) :
    Option (BNode K) :=
  match entries[i + 1]?, child.maxKey with
  | some (_, other), some last => if other.size < MAX_NODE_SIZE ∧ cmp last key = .lt then some other else none
  | _, _ => none

/-- The entries and `children[i]` after a key of a full child was shifted to a sibling, where that avoids a split. -/
def shiftFull (cmp : K → K → Ordering) (key : K) (entries : List (K × BNode K)) (i : ℕ) (child : BNode K) :
    Option (List (K × BNode K) × BNode K) :=
  if child.size < MAX_NODE_SIZE then some (entries, child)
  else
    match roomLeft cmp key entries i child with
    | some other => do
      let (other, child) ← other.takeFromRight child
      let e ← other.entry
      return (entries.set (i - 1) e, child)
    | none =>
      match roomRight cmp key entries i child with
      | some other => do
        let (child, other) ← child.takeFromLeft other
        -- `keys[i + 1]` stays: the highest key of the sibling does not change.
        return (entries.modify (i + 1) fun e => (e.1, other), child)
      | none => some (entries, child)

/-- The entries after `child` has been set at `i` and, when it was split, its
sibling is to be inserted after it. -/
def insertSibling (cmp : K → K → Ordering) (entries : List (K × BNode K)) (i : ℕ) (result : SetResult K) :
    Option (SetResult K) := do
  let e ← result.node.entry
  let entries := entries.set i e
  match result.sibling with
  | none => return { node := internal entries, sibling := none, added := result.added }
  | some sibling =>
    let s ← sibling.entry
    if entries.length < MAX_NODE_SIZE then
      return { node := internal (entries.insertIdx (i + 1) s), sibling := none, added := result.added }
    else
      let half := entries.length / 2
      let left := entries.take half
      let right := entries.drop half
      let max ← (internal left).maxKey
      if cmp s.1 max = .gt then
        let right := right.insertIdx (i + 1 - left.length) s
        return { node := internal left, sibling := some (internal right), added := result.added }
      else
        return { node := internal (left.insertIdx (i + 1) s), sibling := some (internal right),
                 added := result.added }

theorem sizeOf_dropLast {α : Type} [SizeOf α] (l : List α) : sizeOf l.dropLast ≤ sizeOf l := by
  induction l with
  | nil => exact le_rfl
  | cons a l ih =>
    cases l with
    | nil => simp
    | cons b l =>
      rw [List.dropLast_cons_cons, List.cons.sizeOf_spec, List.cons.sizeOf_spec a]
      omega

theorem sizeOf_takeFromRight {lhs rhs lhs' rhs' : BNode K} (h : lhs.takeFromRight rhs = some (lhs', rhs')) :
    sizeOf rhs' ≤ sizeOf rhs := by
  unfold takeFromRight at h
  split at h
  · obtain ⟨-, rfl⟩ := Prod.mk.inj (Option.some.inj h)
    simp
  · obtain ⟨-, rfl⟩ := Prod.mk.inj (Option.some.inj h)
    simp
  · cases h

theorem sizeOf_takeFromLeft {lhs rhs lhs' rhs' : BNode K} (h : lhs.takeFromLeft rhs = some (lhs', rhs')) :
    sizeOf lhs' ≤ sizeOf lhs := by
  cases lhs with
  | leaf keys =>
    cases rhs with
    | leaf keys' =>
      obtain ⟨last, -, h⟩ := Option.map_eq_some_iff.mp h
      obtain ⟨rfl, -⟩ := Prod.mk.inj h
      have hle := sizeOf_dropLast keys
      simp only [leaf.sizeOf_spec]
      omega
    | internal entries => cases h
  | internal entries =>
    cases rhs with
    | leaf keys' => cases h
    | internal entries' =>
      obtain ⟨last, -, h⟩ := Option.map_eq_some_iff.mp h
      obtain ⟨rfl, -⟩ := Prod.mk.inj h
      have hle := sizeOf_dropLast entries
      simp only [internal.sizeOf_spec]
      omega

theorem sizeOf_shiftFull {cmp : K → K → Ordering} {key : K} {entries entries' : List (K × BNode K)} {i : ℕ}
    {child child' : BNode K} (h : shiftFull cmp key entries i child = some (entries', child')) :
    sizeOf child' ≤ sizeOf child := by
  unfold shiftFull at h
  split at h
  · obtain ⟨-, rfl⟩ := Prod.mk.inj (Option.some.inj h)
    exact le_rfl
  · split at h
    · obtain ⟨⟨other, child₁⟩, htake, h⟩ := Option.bind_eq_some_iff.mp h
      obtain ⟨e, -, h⟩ := Option.bind_eq_some_iff.mp h
      obtain ⟨-, rfl⟩ := Prod.mk.inj (Option.some.inj h)
      exact sizeOf_takeFromRight htake
    · split at h
      · obtain ⟨⟨child₁, other⟩, htake, h⟩ := Option.bind_eq_some_iff.mp h
        obtain ⟨-, rfl⟩ := Prod.mk.inj (Option.some.inj h)
        exact sizeOf_takeFromLeft htake
      · obtain ⟨-, rfl⟩ := Prod.mk.inj (Option.some.inj h)
        exact le_rfl

/-- `set`. -/
def set (cmp : K → K → Ordering) (key : K) : BNode K → Option (SetResult K)
  | leaf keys => some (setLeaf cmp key keys)
  | internal entries =>
    let i := min (indexOf cmp key (entryKeys entries)).index (entries.length - 1)
    if h : i < entries.length then
      match hs : shiftFull cmp key entries i entries[i].2 with
      | none => none
      | some (shifted, child) => do
        let result ← child.set cmp key
        insertSibling cmp shifted i result
    else none
termination_by node => sizeOf node
decreasing_by exact lt_of_le_of_lt (sizeOf_shiftFull hs) (sizeOf_getElem h)

/-! ## `delete` -/

theorem sizeOf_append {α : Type} [SizeOf α] (l l' : List α) : sizeOf (l ++ l') + 1 = sizeOf l + sizeOf l' := by
  induction l with
  | nil => simp [Nat.add_comm]
  | cons a l ih =>
    rw [List.cons_append, List.cons.sizeOf_spec, List.cons.sizeOf_spec]
    omega

theorem sizeOf_neighbours {entries : List (K × BNode K)} {i : ℕ} (h : i + 1 < entries.length) :
    sizeOf entries[i].2 + sizeOf entries[i + 1].2 < sizeOf entries := by
  have hi : i < entries.length := by omega
  have hsplit : entries = entries.take i ++ entries[i] :: entries[i + 1] :: entries.drop (i + 2) := by
    rw [List.getElem_cons_drop, List.getElem_cons_drop, List.take_append_drop]
  have hsize := sizeOf_append (entries.take i) (entries[i] :: entries[i + 1] :: entries.drop (i + 2))
  rw [← hsplit, List.cons.sizeOf_spec, List.cons.sizeOf_spec] at hsize
  have hleft : sizeOf entries[i] = 1 + sizeOf entries[i].1 + sizeOf entries[i].2 := rfl
  have hright : sizeOf entries[i + 1] = 1 + sizeOf entries[i + 1].1 + sizeOf entries[i + 1].2 := rfl
  have hpos : 0 < sizeOf (entries.take i) := by
    cases entries.take i with
    | nil => simp
    | cons e l =>
      rw [List.cons.sizeOf_spec]
      omega
  omega

mutual

/-- `mergeSibling`. -/
def mergeSibling : BNode K → BNode K → Option (BNode K)
  | leaf keys, leaf rhs => some (leaf (keys ++ rhs))
  | internal entries, internal rhs =>
    -- `tryMerge` does nothing at -1.
    if entries.length = 0 then some (internal (entries ++ rhs))
    else (tryMerge (entries ++ rhs) (entries.length - 1)).map internal
  | _, _ => none
termination_by lhs rhs => sizeOf lhs + sizeOf rhs
decreasing_by
  have happend := sizeOf_append entries rhs
  simp only [internal.sizeOf_spec]
  omega

/-- `tryMerge`. -/
def tryMerge (entries : List (K × BNode K)) (i : ℕ) : Option (List (K × BNode K)) :=
  if h : i + 1 < entries.length then
    if entries[i].2.size + entries[i + 1].2.size ≤ MAX_NODE_SIZE then do
      let merged ← mergeSibling entries[i].2 entries[i + 1].2
      let e ← merged.entry
      return (entries.eraseIdx (i + 1)).set i e
    else some entries
  else some entries
termination_by sizeOf entries
decreasing_by exact sizeOf_neighbours h

end

/-- A child that may have lost keys: it is merged with its right sibling, or removed when it is empty. -/
def mergeChild (entries : List (K × BNode K)) (i : ℕ) : Option (List (K × BNode K)) :=
  match entries[i]? with
  | none => none
  | some (_, child) =>
    if child.size ≤ MAX_NODE_SIZE / 2 then
      if child.size ≠ 0 then tryMerge entries i else some (entries.eraseIdx i)
    else some entries

/-- The loop over the children that may have lost keys: `children[i]` and the one on its left. -/
def mergeChildren (entries : List (K × BNode K)) : ℕ → Option (List (K × BNode K))
  | 0 => mergeChild entries 0
  | i + 1 => do
    let entries ← mergeChild entries (i + 1)
    mergeChild entries i

/-- `delete`: the node and whether the key was there. -/
def delete (cmp : K → K → Ordering) (key : K) : BNode K → Option (BNode K × Bool)
  | leaf keys =>
    match indexOf cmp key keys with
    | .missing _ => some (leaf keys, false)
    | .found i => some (leaf (keys.eraseIdx i), true)
  | internal entries =>
    let i := (indexOf cmp key (entryKeys entries)).index
    if h : i < entries.length then do
      let (child, deleted) ← entries[i].2.delete cmp key
      -- An empty child has no highest key; it is removed with the old one.
      let entries ← mergeChildren (entries.set i (child.maxKey.getD entries[i].1, child)) i
      return (internal entries, deleted)
    else some (internal entries, false)
termination_by node => sizeOf node
decreasing_by exact sizeOf_getElem h

end BNode

/-! ## `BTreeSet` -/

/-- `BTreeSet`, its comparator apart. -/
structure BTreeSet (K : Type) where
  root : BNode K
  size : ℤ

namespace BTreeSet

def empty : BTreeSet K := { root := .leaf [], size := 0 }

/-- `get`. -/
def get (cmp : K → K → Ordering) (t : BTreeSet K) (key : K) : Option K := t.root.get cmp key

/-- `has`. -/
def has (cmp : K → K → Ordering) (t : BTreeSet K) (key : K) : Bool := t.root.has cmp key

/-- `add`. -/
def add (cmp : K → K → Ordering) (t : BTreeSet K) (key : K) : Option (BTreeSet K) := do
  let result ← t.root.set cmp key
  let size := if result.added then t.size + 1 else t.size
  match result.sibling with
  | none => return { root := result.node, size }
  | some sibling =>
    -- Root node has split, so create a new root node.
    let e ← result.node.entry
    let s ← sibling.entry
    return { root := .internal [e, s], size }

/-- The loop at the end of `#delete`: a root with one child gives way to it. -/
def collapse : BNode K → BNode K
  | .internal [] => .leaf []
  | .internal [(_, child)] => collapse child
  | node => node

/-- `#delete`. -/
def delete (cmp : K → K → Ordering) (t : BTreeSet K) (key : K) : Option (BTreeSet K × Bool) := do
  let (root, deleted) ← t.root.delete cmp key
  return ({ root := collapse root, size := if deleted then t.size - 1 else t.size }, deleted)

/-- The constructor. -/
def new (cmp : K → K → Ordering) (entries : List K) : Option (BTreeSet K) := entries.foldlM (add cmp) empty

/-- The loop of `fromSorted` over the keys: the leaves, and the keys of the next one. -/
def pushKey (s : List (List K) × List K) (key : K) : List (List K) × List K :=
  let currentKeys := s.2 ++ [key]
  if currentKeys.length = MAX_NODE_SIZE then (s.1 ++ [currentKeys], []) else (s.1, currentKeys)

/-- The leaves `fromSorted` makes. -/
def leaves (sortedEntries : List K) : List (BNode K) :=
  let s := sortedEntries.foldl pushKey ([], [])
  (if s.2.length > 0 then s.1 ++ [s.2] else s.1).map .leaf

/-- A level of internal nodes over a level. -/
def nextLevel (level : List (BNode K)) : Option (List (BNode K)) :=
  if level.length = 0 then some []
  else do
    let entries ← (level.take MAX_NODE_SIZE).mapM BNode.entry
    let rest ← nextLevel (level.drop MAX_NODE_SIZE)
    return .internal entries :: rest
termination_by level.length
decreasing_by
  rw [List.length_drop]
  unfold MAX_NODE_SIZE
  omega

/-- The levels up to a single root; `fuel` bounds their number. -/
def buildRoot : ℕ → List (BNode K) → Option (BNode K)
  | _, [root] => some root
  | 0, _ => none
  | fuel + 1, level => do
    let next ← nextLevel level
    buildRoot fuel next

/-- `fromSorted`. -/
def fromSorted (sortedEntries : List K) : Option (BTreeSet K) :=
  if (leaves sortedEntries).length = 0 then some empty
  else do
    let root ← buildRoot sortedEntries.length (leaves sortedEntries)
    return { root, size := sortedEntries.length }

end BTreeSet

/-! ## Iterators -/

/-- `children`. -/
def BNode.children : BNode K → List (BNode K)
  | leaf _ => []
  | internal entries => entries.map (·.2)

/-- `#nodeQueue` with `#nodeIndex`, the level above the leaves first; `#leaf`;
and `#i`, the place in the leaf, forward the place after it. -/
structure BTreeIterator (K : Type) where
  levels : List (List (BNode K) × ℕ)
  leaf : BNode K
  i : ℕ

/-- What a round of the loop of `next` comes to. -/
inductive IteratorStep (K : Type) where
  | done
  | value (key : K) (rest : BTreeIterator K)
  /-- The loop goes on with another leaf. -/
  | next (rest : BTreeIterator K)
  | throws

namespace BTreeIterator

/-- An iterator that is done. -/
def finished : BTreeIterator K := { levels := [], leaf := .leaf [], i := 0 }

/-- `nodeQueue[0][nodeIndex[0]]`. -/
def current : List (List (BNode K) × ℕ) → Option (BNode K)
  | [] => none
  | (queue, index) :: _ => queue[index]?

/-- The levels at the next leaf. -/
def advance : List (List (BNode K) × ℕ) → Option (List (List (BNode K) × ℕ))
  | [] => none
  | (queue, index) :: above =>
    if index + 1 < queue.length then some ((queue, index + 1) :: above)
    else (advance above).map fun above => (((current above).map BNode.children).getD [], 0) :: above

/-- The levels at the leaf before. -/
def retreat : List (List (BNode K) × ℕ) → Option (List (List (BNode K) × ℕ))
  | [] => none
  | (queue, index) :: above =>
    if 0 < index then some ((queue, index - 1) :: above)
    else (retreat above).map fun above =>
      let queue := ((current above).map BNode.children).getD []
      (queue, queue.length - 1) :: above

/-- `next` of `BTreeForwardIterator`. -/
def forward (it : BTreeIterator K) : IteratorStep K :=
  match it.leaf.keys[it.i]? with
  | some key => .value key { it with i := it.i + 1 }
  | none =>
    match advance it.levels with
    | none => .done
    | some levels =>
      match current levels with
      | none => .throws
      | some leaf => .next { levels, leaf, i := 0 }

/-- `next` of `BTreeReverseIterator`. -/
def backward (it : BTreeIterator K) : IteratorStep K :=
  match it.i with
  | i + 1 =>
    match it.leaf.keys[i]? with
    | none => .throws
    | some key => .value key { it with i }
  | 0 =>
    match retreat it.levels with
    | none => .done
    | some levels =>
      match current levels with
      | none => .throws
      | some leaf => .next { levels, leaf, i := leaf.keys.length }

/-- The values an iterator yields until it is done. -/
inductive Yields (next : BTreeIterator K → IteratorStep K) : BTreeIterator K → List K → Prop
  | done {it} : next it = .done → Yields next it []
  | value {it key rest l} : next it = .value key rest → Yields next rest l → Yields next it (key :: l)
  | next {it rest l} : next it = .next rest → Yields next rest l → Yields next it l

end BTreeIterator

/-- `findPath`: the levels and the leaf the key belongs to. -/
def findPath (cmp : K → K → Ordering) (key : Option K) :
    BNode K → List (List (BNode K) × ℕ) → Option (List (List (BNode K) × ℕ) × BNode K)
  | .leaf keys, levels => some (levels, .leaf keys)
  | .internal entries, levels =>
    let i := (key.map fun key => (indexOf cmp key (BNode.entryKeys entries)).index).getD 0
    if h : i < entries.length then findPath cmp key entries[i].2 ((entries.map (·.2), i) :: levels)
    else none
termination_by node => sizeOf node
decreasing_by exact BNode.sizeOf_getElem h

namespace BTreeSet

/-- `valuesFrom`. -/
def valuesFrom (cmp : K → K → Ordering) (t : BTreeSet K) (lowestKey : Option K) (inclusive : Bool) : BTreeIterator K :=
  match findPath cmp lowestKey t.root [] with
  | none => .finished
  | some (levels, leaf) =>
    match lowestKey with
    | none => { levels, leaf, i := 0 }
    | some key =>
      let i := (indexOf cmp key leaf.keys).index
      let skip := !inclusive && leaf.keys[i]?.any fun k => cmp k key = .eq
      { levels, leaf, i := if skip then i + 1 else i }

/-- `valuesFromReversed`. -/
def valuesFromReversed (cmp : K → K → Ordering) (t : BTreeSet K) (highestKey : Option K) (inclusive : Bool) :
    Option (BTreeIterator K) :=
  match highestKey.or t.root.maxKey with
  | none => some .finished
  | some key => do
    let (levels, leaf) ← (findPath cmp (some key) t.root []).or (findPath cmp t.root.maxKey t.root [])
    let i := (indexOf cmp key leaf.keys).index
    let reached := inclusive && leaf.keys[i]?.any fun k => (cmp k key).isLE
    return { levels, leaf, i := if reached then i + 1 else i }

/-- `values`. -/
def values (cmp : K → K → Ordering) (t : BTreeSet K) : BTreeIterator K := t.valuesFrom cmp none true

end BTreeSet

end ZeroSync
