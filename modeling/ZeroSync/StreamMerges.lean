/-
`mergeSortedStreams` of `ivm/memory-source.ts` and `mergeFetches` of
`ivm/union-fan-in.ts`, with the `'yield'` markers in the streams.

A stream is the list of what it yields, and an iterator the list of what it
has yet to return. The merges are run to their end. What the `finally` block
of `mergeSortedStreams` then closes is `closed`; that of `mergeFetches` closes
every iterator, whether it is at its end or not, and is left out with the
`catch`, since no stream fails.
-/
import ZeroSync.Heap
import ZeroSync.Operator

namespace ZeroSync

/-- `Node | 'yield'`. -/
inductive StreamItem
  | yield
  | node (node : Node)

/-- `Stream<Node | 'yield'>`. -/
abbrev NodeStream := List StreamItem

namespace NodeStream

/-- The nodes of a stream, its markers left out. -/
def nodes : NodeStream → List Node
  | [] => []
  | .yield :: rest => nodes rest
  | .node n :: rest => n :: nodes rest

/-- How many markers a stream has. -/
def yields : NodeStream → ℕ
  | [] => 0
  | .yield :: rest => yields rest + 1
  | .node _ :: rest => yields rest

@[simp] theorem nodes_nil : nodes [] = [] := rfl
@[simp] theorem nodes_yield (rest : NodeStream) : nodes (.yield :: rest) = nodes rest := rfl
@[simp] theorem nodes_node (n : Node) (rest : NodeStream) : nodes (.node n :: rest) = n :: nodes rest := rfl
@[simp] theorem yields_nil : yields [] = 0 := rfl
@[simp] theorem yields_yield (rest : NodeStream) : yields (.yield :: rest) = yields rest + 1 := rfl
@[simp] theorem yields_node (n : Node) (rest : NodeStream) : yields (.node n :: rest) = yields rest := rfl

@[simp] theorem nodes_append (s s' : NodeStream) : nodes (s ++ s') = nodes s ++ nodes s' := by
  induction s with
  | nil => rfl
  | cons item s ih => cases item <;> simp [ih]

@[simp] theorem yields_append (s s' : NodeStream) : yields (s ++ s') = yields s + yields s' := by
  induction s with
  | nil => simp
  | cons item s ih => cases item <;> simp [ih, Nat.add_right_comm]

end NodeStream

/-! ## The next node of an iterator -/

/-- What reading an iterator up to its next node gives. -/
structure Pulled where
  forwarded : NodeStream
  node : Option Node
  rest : NodeStream

/-- The loop around `iter.next()` in both merges: markers are yielded on the
way to the next node, or to the end. -/
def pull : NodeStream → Pulled
  | [] => ⟨[], none, []⟩
  | .yield :: rest => { pull rest with forwarded := .yield :: (pull rest).forwarded }
  | .node n :: rest => ⟨[], some n, rest⟩

theorem pull_ended {iterator : NodeStream} (h : (pull iterator).node = none) : (pull iterator).rest = [] := by
  induction iterator with
  | nil => rfl
  | cons item rest ih =>
    cases item with
    | yield => exact ih h
    | node n => cases h

namespace Marked

/-! ## `mergeSortedStreams` -/

/-- `Entry`: the next node of a stream, and the place of the stream. -/
structure Entry (k : ℕ) where
  row : Node
  idx : Fin k

/-- The variables of `mergeSortedStreams`. -/
structure Merging (k : ℕ) where
  iterators : Vector NodeStream k
  active : Vector Bool k
  heap : Array (Entry k)

/-- The variables at first. -/
def Merging.start (streams : List NodeStream) : Merging streams.length where
  iterators := ⟨streams.toArray, List.size_toArray⟩
  active := Vector.replicate _ true
  heap := #[]

section
variable {k : ℕ} (compare : Node → Node → Ordering)

/-- Entries are compared by their rows. -/
def compareEntries (a b : Entry k) : Ordering := compare a.row b.row

/-- `pullNext`: what it does to the iterator. -/
def Merging.pullNext (m : Merging k) (idx : Fin k) : Merging k :=
  let pulled := pull (m.iterators.get idx)
  { m with
    iterators := m.iterators.set idx pulled.rest idx.isLt
    active := if pulled.node.isNone then m.active.set idx false idx.isLt else m.active }

/-- What the priming does with the node pulled: it is pushed. -/
def pushRow (heap : Array (Entry k)) (idx : Fin k) : Option Node → Array (Entry k)
  | none => heap
  | some row => Heap.siftUp (compareEntries compare) (heap.push ⟨row, idx⟩) heap.size (by simp)

/-- The variables after a turn of the priming. -/
def Merging.primed (m : Merging k) (i : Fin k) : Merging k :=
  { m.pullNext i with heap := pushRow compare m.heap i (pull (m.iterators.get i)).node }

/-- The priming, of the streams at the places given. -/
def prime (m : Merging k) : List (Fin k) → NodeStream × Merging k
  | [] => ([], m)
  | i :: is =>
    let (rest, primed) := prime (m.primed compare i) is
    ((pull (m.iterators.get i)).forwarded ++ rest, primed)

/-- What the loop does with the node pulled: it takes the root's place, or else the tail does. -/
def refillRoot (heap : Array (Entry k)) (h : 0 < heap.size) : Option Node → Array (Entry k)
  | some next => Heap.siftDown (compareEntries compare) (heap.set 0 ⟨next, heap[0].idx⟩) 0 (by simpa)
  | none =>
    let last := heap[heap.size - 1]
    let heap := heap.pop
    if h : 0 < heap.size then Heap.siftDown (compareEntries compare) (heap.set 0 last) 0 (by simpa using h) else heap

/-- The variables after a turn of the loop. -/
def Merging.refilled (m : Merging k) (h : 0 < m.heap.size) : Merging k :=
  { m.pullNext m.heap[0].idx with heap := refillRoot compare m.heap h (pull (m.iterators.get m.heap[0].idx)).node }

/-- The loop; `fuel` bounds the nodes left. -/
def mergeLoop : ℕ → Merging k → NodeStream × Merging k
  | 0, m => ([], m)
  | fuel + 1, m =>
    if h : 0 < m.heap.size then
      let top := m.heap[0]
      let (rest, merged) := mergeLoop fuel (m.refilled compare h)
      (.node top.row :: (pull (m.iterators.get top.idx)).forwarded ++ rest, merged)
    else ([], m)

end

/-- A run of `mergeSortedStreams`: what it yields, and the variables at its end. -/
def runMerge (streams : List NodeStream) (compare : Node → Node → Ordering) :
    NodeStream × Merging streams.length :=
  let (primed, m) := prime compare (.start streams) (List.finRange streams.length)
  let (merged, m) := mergeLoop compare (streams.map fun s => s.nodes.length).sum m
  (primed ++ merged, m)

/-- `mergeSortedStreams`. -/
def mergeSortedStreams (streams : List NodeStream) (compare : Node → Node → Ordering) : NodeStream :=
  (runMerge streams compare).1

/-- The iterators that the `finally` block of `mergeSortedStreams` closes. -/
def closed (streams : List NodeStream) (compare : Node → Node → Ordering) : List (Fin streams.length) :=
  (List.finRange streams.length).filter fun i => (runMerge streams compare).2.active.get i

/-! ## `mergeFetches` -/

/-- An iterator with its place in `current`, which is null once the iterator is at its end. -/
structure Cursor where
  current : Option Node
  iterator : NodeStream
  ended : current = none → iterator = []

/-- The cursor at the next node of an iterator. -/
def Cursor.at (iterator : NodeStream) : Cursor := ⟨(pull iterator).node, (pull iterator).rest, pull_ended⟩

section
variable (comparator : Node → Node → Ordering)

/-- `min`: the `reduce` over `current`, from the accumulator `acc` and the place `i` on. -/
def minCurrent (acc : Option (Node × ℕ)) (i : ℕ) : List Cursor → Option (Node × ℕ)
  | [] => acc
  | c :: cursors =>
    match c.current with
    | none => minCurrent acc (i + 1) cursors
    | some node =>
      minCurrent (if acc.all fun a => comparator node a.1 = .lt then some (node, i) else acc) (i + 1) cursors

theorem minCurrent_isSome_of_some (acc : Node × ℕ) (i : ℕ) (cursors : List Cursor) :
    (minCurrent comparator (some acc) i cursors).isSome := by
  induction cursors generalizing acc i with
  | nil => rfl
  | cons c cursors ih =>
    unfold minCurrent
    split
    · exact ih acc (i + 1)
    · split
      · exact ih _ (i + 1)
      · exact ih acc (i + 1)

theorem minCurrent_isSome {i : ℕ} {cursors : List Cursor} (h : cursors.any (·.current.isSome)) :
    (minCurrent comparator none i cursors).isSome := by
  induction cursors generalizing i with
  | nil => cases h
  | cons c cursors ih =>
    unfold minCurrent
    split
    · next hc =>
      rw [List.any_cons, hc] at h
      exact ih h
    · exact minCurrent_isSome_of_some comparator _ (i + 1) cursors

/-- The loop; `fuel` bounds the nodes left. -/
def fetchLoop : ℕ → Option Node → List Cursor → NodeStream
  | 0, _, _ => []
  | fuel + 1, lastNodeYielded, cursors =>
    if h : cursors.any (·.current.isSome) then
      let (minNode, minIndex) := (minCurrent comparator none 0 cursors).get (minCurrent_isSome comparator h)
      let iter := (cursors[minIndex]?).elim [] (·.iterator)
      let cursors := cursors.set minIndex (.at iter)
      if lastNodeYielded.any fun last => comparator last minNode = .eq then
        (pull iter).forwarded ++ fetchLoop fuel lastNodeYielded cursors
      else (pull iter).forwarded ++ .node minNode :: fetchLoop fuel (some minNode) cursors
    else []

end

/-- `mergeFetches`. -/
def mergeFetches (fetches : List NodeStream) (comparator : Node → Node → Ordering) : NodeStream :=
  fetches.flatMap (fun iter => (pull iter).forwarded) ++
    fetchLoop comparator (fetches.map fun s => s.nodes.length).sum none (fetches.map Cursor.at)

end Marked

end ZeroSync
