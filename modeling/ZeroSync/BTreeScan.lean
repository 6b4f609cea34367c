/-
`replicache/src/btree/read.ts`: `scan`, on a tree that `put` and `del` change.

Between the steps of the scan the operations run one at a time, each as a
whole. A node is read by its hash: one of the tree is what it is there; of a
hash that has left the tree the cache keeps the node, and operations may have
changed it since, so that all that is said of it is what is said of a leaf
(`LeftAs`).
-/
import ZeroSync.BTreeHashes

namespace ZeroSync

open NodeImpl

variable {V α : Type}

/-- A call of `scanForHash` that has not returned: it awaits `readNode`, or is in a loop, with the entries from `i`
on. With the hash to read stands the node that it led to when the call was made. -/
inductive ScanCall (V : Type) where
  | read (expectedRootHash : ℕ) (node : NodeImpl V) (fromKey : String)
  | children (expectedRootHash : ℕ) (fromKey : String) (entries : List (BTreeEntry (NodeImpl V)))
  | entries (expectedRootHash : ℕ) (entries : List (BTreeEntry V))

/-- A scan: the calls from the innermost one on, what they have yielded and the
tree it was yielded from, and the keys that were in the tree all the time. -/
structure Scan (V : Type) where
  tree : BTreeWrite V
  calls : List (ScanCall V)
  yielded : List (BTreeEntry V × BTreeWrite V)
  stayed : List String

/-- An operation on the tree, or a step of the scan, with the node that it reads. -/
inductive ScanEvent (V : Type) where
  | put (key : String) (value : V)
  | del (key : String)
  | next (answer : NodeImpl V)

/-- Where the loop starts. -/
def startIndex (fromKey : String) (entries : List (BTreeEntry α)) : ℕ :=
  if fromKey = "" then 0 else binarySearch fromKey entries

namespace Scan

/-- `scan`. -/
def start (fromKey : String) (t : BTreeWrite V) : Scan V where
  tree := t
  calls := [.read t.root.hash t.root fromKey]
  yielded := []
  stayed := t.entries.map (·.key)

/-- The innermost call goes on, to its next `await` or `yield`, or returns. -/
def resume (answer : NodeImpl V) (s : Scan V) : Scan V :=
  match s.calls with
  | [] => s
  | .read expectedRootHash node fromKey :: calls =>
    if node.hash = BTreeWrite.emptyHash then { s with calls }
    else
      match answer with
      | internal _ _ _ entries =>
        { s with calls := .children expectedRootHash fromKey (entries.drop (startIndex fromKey entries)) :: calls }
      | data _ _ entries => { s with calls := .entries expectedRootHash (entries.drop (startIndex fromKey entries)) :: calls }
  | .children expectedRootHash fromKey (e :: entries) :: calls =>
    { s with calls := .read expectedRootHash e.value fromKey :: .children expectedRootHash "" entries :: calls }
  | .entries expectedRootHash (e :: entries) :: calls =>
    let rootHash := s.tree.root.hash
    -- The rest of the loop is left to a new scan from the key.
    if expectedRootHash ≠ rootHash then { s with calls := .read rootHash s.tree.root e.key :: calls }
    else { s with calls := .entries expectedRootHash entries :: calls, yielded := s.yielded ++ [(e, s.tree)] }
  | .children _ _ [] :: calls | .entries _ [] :: calls => { s with calls }

/-- The tree has changed. -/
def change (t : BTreeWrite V) (s : Scan V) : Scan V :=
  { s with tree := t, stayed := s.stayed.filter fun key => t.entries.any fun e => e.key == key }

/-- An event. -/
def run (tree : BTreeSizes V) (s : Scan V) : ScanEvent V → Option (Scan V)
  | .put key value => (s.tree.put tree key value).map fun t => s.change t
  | .del key => (s.tree.del tree key).map fun r => s.change r.1
  | .next answer => some (s.resume answer)

/-- A leaf that has left the tree, as it is by now: it has lost no key that is still in the tree. -/
structure LeftAs (stayed : List String) (node answer : NodeImpl V) : Prop where
  leaf : ∃ hash modified entries, answer = .data hash modified entries
  sorted : answer.entriesIter.Pairwise fun a b => compare a.key b.key = .lt
  keys : ∀ e ∈ node.entriesIter, e.key ∈ stayed → ∃ e' ∈ answer.entriesIter, e'.key = e.key

/-- What `readNode` may answer. -/
def Possible (s : Scan V) : ScanEvent V → Prop
  | .next answer =>
    match s.calls with
    | .read _ node _ :: _ =>
      (∀ a, Within s.tree.root a → a.hash = node.hash → answer = a) ∧
        ((∀ a, Within s.tree.root a → a.hash ≠ node.hash) → node.level = 0 → LeftAs s.stayed node answer)
    | _ => True
  | _ => True

end Scan

/-- The runs of a scan, of events that a condition allows. -/
inductive ScanRun (tree : BTreeSizes V) (allowed : Scan V → ScanEvent V → Prop) (s₀ : Scan V) : Scan V → Prop
  | start : ScanRun tree allowed s₀ s₀
  | event {s s' e} : ScanRun tree allowed s₀ s → s.Possible e → allowed s e → s.run tree e = some s' →
      ScanRun tree allowed s₀ s'

/-- What a scan promises: keys from `fromKey` on, in order, of entries of the
tree, and in the end all keys that were in the tree all the time. -/
structure Scanned (fromKey : String) (s : Scan V) : Prop where
  ge : ∀ y ∈ s.yielded, fromKey ≤ y.1.key
  ascending : s.yielded.Pairwise fun a b => a.1.key < b.1.key
  present : ∀ y ∈ s.yielded, y.1 ∈ y.2.entries
  complete : s.calls = [] → ∀ key ∈ s.stayed, fromKey ≤ key → ∃ y ∈ s.yielded, y.1.key = key

end ZeroSync
