/-
`replicache/src/btree/read.ts` and `splice.ts`: the diff of two trees.

Nodes of unequal levels are brought to one level, and the children that both
have are cut out by the splices of their entries; what is left is merged leaf
by leaf. A composite node is used for its level and entries only: its hash is
not read. As in `BTreeWrite`, `none` is a node with entries of the wrong kind.
-/
import ZeroSync.BTreeWrite
import ZeroSync.StateVersion

namespace ZeroSync

/-- `deepEqual` of values: a value equals itself. -/
structure DeepEqual (V : Type) where
  equal : V → V → Bool
  refl : ∀ value, equal value value = true

/-- `InternalDiffOperation`. -/
inductive DiffOperation (V : Type)
  | add (key : String) (newValue : V)
  | del (key : String) (oldValue : V)
  | change (key : String) (oldValue newValue : V)
  deriving DecidableEq

/-- `Splice`; `from_` is none while it is unassigned. -/
structure Splice where
  at_ : ℕ
  removed : ℕ
  added : ℕ
  from_ : Option ℕ
  deriving DecidableEq

variable {V α : Type}

/-- `key`. -/
def DiffOperation.key : DiffOperation V → String
  | add key _ | del key _ | change key _ _ => key

namespace Splice

/-- `ensureAssigned`. -/
def ensureAssigned (index : ℕ) (splice : Splice) : Splice :=
  match splice.from_ with
  | none => { splice with from_ := some index }
  | some _ => splice

/-- A splice that is there, or a `newSplice` at an index. -/
def orNew (previousIndex : ℕ) (splice : Option Splice) : Splice := splice.getD ⟨previousIndex, 0, 0, none⟩

end Splice

open Splice

/-- The loop of `computeSplices`, from two indices on, and what follows it. -/
def splicesFrom (equal : α → α → Bool) : List (BTreeEntry α) → List (BTreeEntry α) → ℕ → ℕ → Option Splice → List Splice
  | p :: previous, c :: current, previousIndex, currentIndex, splice =>
    if p.key = c.key then
      if equal p.value c.value then
        (splice.map (ensureAssigned 0)).toList ++
          splicesFrom equal previous current (previousIndex + 1) (currentIndex + 1) none
      else
        let s := orNew previousIndex splice
        splicesFrom equal previous current (previousIndex + 1) (currentIndex + 1)
          (some ({ s with added := s.added + 1, removed := s.removed + 1 }.ensureAssigned currentIndex))
    else if stringLt p.key c.key then
      let s := orNew previousIndex splice
      splicesFrom equal previous (c :: current) (previousIndex + 1) currentIndex (some { s with removed := s.removed + 1 })
    else
      let s := orNew previousIndex splice
      splicesFrom equal (p :: previous) current previousIndex (currentIndex + 1)
        (some ({ s with added := s.added + 1 }.ensureAssigned currentIndex))
  | [], [], _, _, splice => (splice.map (ensureAssigned 0)).toList
  | [], c :: current, previousIndex, currentIndex, splice =>
    let s := orNew previousIndex splice
    [{ s with added := s.added + (c :: current).length }.ensureAssigned currentIndex]
  | p :: previous, [], previousIndex, _, splice =>
    let s := orNew previousIndex splice
    [{ s with removed := s.removed + (p :: previous).length }.ensureAssigned 0]
termination_by previous current => previous.length + current.length

/-- `computeSplices`. -/
def computeSplices (equal : α → α → Bool) (previous current : List (BTreeEntry α)) : List Splice :=
  splicesFrom equal previous current 0 0 none

namespace NodeImpl

/-- The entries of a leaf; an internal node without entries can stand for one. -/
def leafEntries : NodeImpl V → Option (List (BTreeEntry V))
  | data _ _ entries => some entries
  | internal _ _ _ [] => some []
  | internal _ _ _ (_ :: _) => none

/-- The entries of an internal node. -/
def internalEntries : NodeImpl V → Option (List (BTreeEntry (NodeImpl V)))
  | data _ _ _ => none
  | internal _ _ _ entries => some entries

/-- `getChildren`. -/
def getChildren (entries : List (BTreeEntry (NodeImpl V))) (start length : ℕ) : List (NodeImpl V) :=
  ((entries.take length).drop start).map (·.value)

/-- `getCompositeChildren` of an internal node: its level less one, and the entries of its children. -/
def getCompositeChildren (level : ℕ) (entries : List (BTreeEntry (NodeImpl V))) (start length : ℕ) : Option (NodeImpl V) :=
  if length = 0 then some (internal 0 true (level - 1) [])
  else
    let output := getChildren entries start (start + length)
    if level > 1 then do
      let entries ← output.mapM internalEntries
      return internal 0 true (level - 1) entries.flatten
    else if level = 1 then do
      let entries ← output.mapM leafEntries
      return data 0 true entries.flatten
    else none

theorem getCompositeChildren_level {level start length : ℕ} {entries : List (BTreeEntry (NodeImpl V))} {node : NodeImpl V}
    (h : getCompositeChildren level entries start length = some node) : node.level = level - 1 := by
  rw [getCompositeChildren] at h
  split at h
  · cases h
    rfl
  · dsimp only at h
    split at h
    · obtain ⟨es, -, hes⟩ := Option.bind_eq_some_iff.mp h
      cases hes
      rfl
    · split at h
      · next hone =>
        obtain ⟨es, -, hes⟩ := Option.bind_eq_some_iff.mp h
        cases hes
        rw [hone]
        rfl
      · cases h

end NodeImpl

open NodeImpl

/-- `diffEntries`, with the order that it compares keys by. -/
def diffEntriesBy (lt : String → String → Bool) (deepEqual : DeepEqual V) :
    List (BTreeEntry V) → List (BTreeEntry V) → List (DiffOperation V)
  | l :: last, c :: current =>
    if l.key = c.key then
      (if deepEqual.equal l.value c.value then [] else [.change l.key l.value c.value]) ++
        diffEntriesBy lt deepEqual last current
    else if lt l.key c.key then .del l.key l.value :: diffEntriesBy lt deepEqual last (c :: current)
    else .add c.key c.value :: diffEntriesBy lt deepEqual (l :: last) current
  | l :: last, [] => .del l.key l.value :: diffEntriesBy lt deepEqual last []
  | [], c :: current => .add c.key c.value :: diffEntriesBy lt deepEqual [] current
  | [], [] => []
termination_by last current => last.length + current.length

/-- `diffEntries`. -/
def diffEntries (deepEqual : DeepEqual V) : List (BTreeEntry V) → List (BTreeEntry V) → List (DiffOperation V) :=
  diffEntriesBy stringLt deepEqual

/-- `diffNodes`, with what it does with the entries of two leaves. -/
def diffNodesWith {β : Type} (diffLeaves : List (BTreeEntry V) → List (BTreeEntry V) → List β) (last current : NodeImpl V) :
    Option (List β) :=
  if _hlast : last.level > current.level then
    match last.internalEntries with
    | none => none
    | some entries =>
      match _hchild : getCompositeChildren last.level entries 0 entries.length with
      | none => none
      | some lastChild => diffNodesWith diffLeaves lastChild current
  else if _hcurrent : current.level > last.level then
    match current.internalEntries with
    | none => none
    | some entries =>
      match _hchild : getCompositeChildren current.level entries 0 entries.length with
      | none => none
      | some currentChild => diffNodesWith diffLeaves last currentChild
  else if _hleaf : last.level = 0 then
    match last.leafEntries, current.leafEntries with
    | some lastEntries, some currentEntries => some (diffLeaves lastEntries currentEntries)
    | _, _ => none
  else
    match last.internalEntries, current.internalEntries with
    | some lastEntries, some currentEntries => do
      let parts ← (computeSplices (fun a b => a.hash == b.hash) lastEntries currentEntries).mapM fun splice =>
        match _hl : getCompositeChildren last.level lastEntries splice.at_ splice.removed,
          _hc : getCompositeChildren current.level currentEntries (splice.from_.getD 0) splice.added with
        | some lastChild, some currentChild => diffNodesWith diffLeaves lastChild currentChild
        | _, _ => none
      return parts.flatten
    | _, _ => none
termination_by last.level + current.level
decreasing_by
  · have hlevel := getCompositeChildren_level _hchild
    omega
  · have hlevel := getCompositeChildren_level _hchild
    omega
  · have hlevel := getCompositeChildren_level _hl
    have hlevel' := getCompositeChildren_level _hc
    omega

/-- `diffNodes`. -/
def diffNodes (deepEqual : DeepEqual V) (last current : NodeImpl V) : Option (List (DiffOperation V)) :=
  diffNodesWith (diffEntries deepEqual) last current

/-- The pairs of lists of entries that `diffNodes` merges. -/
def mergedLeaves (last current : NodeImpl V) : Option (List (List (BTreeEntry V) × List (BTreeEntry V))) :=
  diffNodesWith (fun lastEntries currentEntries => [(lastEntries, currentEntries)]) last current

end ZeroSync
