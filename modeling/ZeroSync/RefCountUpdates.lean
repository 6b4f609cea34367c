/-
`replicache/src/dag/gc.ts`: the ref counts after a dag write.

The updates run concurrently: a task waits for the ref count of a hash, then
changes it, or waits for the refs of a chunk, then changes the counts of those.
A step lets one of the tasks go on, whichever it is; when none is left,
`compute` goes on with what it awaits next.
-/
import ZeroSync.OrderedMap
import Mathlib.Data.Int.Basic

namespace ZeroSync

/-- `Hash`. -/
abbrev Hash := String

/-- `emptyHash`. -/
def emptyHash : Hash := "0000000000000000000000"

/-- `HeadChange`. -/
structure HeadChange where
  new : Option Hash
  old : Option Hash

/-- The errors: a stored count that is no `Uint16`, and the assertions of `RefCountUpdates`. -/
inductive RefCountError
  | invalidRefCount
  | refsUndefined
  | negative
  deriving DecidableEq

/-- `RefCountUpdatesDelegate`. -/
structure RefCountUpdatesDelegate where
  getRefCount : Hash → Except RefCountError (Option ℤ)
  getRefs : Hash → Option (List Hash)
  areRefsCounted : Option (Hash → Bool)

/-- A call that has not returned. -/
inductive RefCountTask
  | changeRefCount (hash : Hash) (delta : ℤ)
  | updateRefsCounts (hash : Hash) (delta : ℤ)
  | ensureRefCountLoaded (hash : Hash)

/-- Where `compute` stands: the heads that are left, or the put chunks. -/
inductive RefCountPhase
  | newHeads (left : List Hash)
  | putChunks
  | oldHeads (left : List Hash)
  | done

/-- `RefCountUpdates` while it runs. -/
structure RefCountUpdates where
  refCountUpdates : OrderedMap Hash ℤ
  refsCounted : List Hash
  tasks : List RefCountTask
  phase : RefCountPhase

/-- `#newHeads`. -/
def newHeads (headChanges : List HeadChange) : List Hash :=
  (headChanges.filter fun c => c.old ≠ c.new).filterMap (·.new)

/-- `#oldHeads`. -/
def oldHeads (headChanges : List HeadChange) : List Hash :=
  (headChanges.filter fun c => c.old ≠ c.new).filterMap (·.old)

namespace RefCountUpdates

variable (delegate : RefCountUpdatesDelegate) (putChunks : List Hash)

/-- The start of `compute`. -/
def start (headChanges : List HeadChange) : RefCountUpdates where
  refCountUpdates := ∅
  refsCounted := []
  tasks := []
  phase := .newHeads (newHeads headChanges)

/-- `#ensureRefCountLoaded`, when the count has not been loaded. -/
def load (s : RefCountUpdates) (hash : Hash) : Except RefCountError RefCountUpdates := do
  let value ← delegate.getRefCount hash
  return { s with refCountUpdates := s.refCountUpdates.set hash (value.getD 0) }

/-- A task goes on; `rest` are the others. -/
def runTask (s : RefCountUpdates) (task : RefCountTask) (rest : List RefCountTask) : Except RefCountError RefCountUpdates :=
  match task with
  | .changeRefCount hash delta =>
    match s.refCountUpdates.get? hash with
    | none => s.load delegate hash
    | some oldCount =>
      let s := { s with refCountUpdates := s.refCountUpdates.set hash (oldCount + delta) }
      if (oldCount = 0 ∧ delta = 1) ∨ (oldCount = 1 ∧ delta = -1) then
        .ok { s with tasks := .updateRefsCounts hash delta :: rest }
      else .ok { s with tasks := rest }
  | .updateRefsCounts hash delta =>
    if hash = emptyHash then .ok { s with tasks := rest }
    else
      match delegate.getRefs hash with
      | none =>
        if delegate.areRefsCounted.isSome ∧ hash ∉ putChunks then .ok { s with tasks := rest }
        else .error .refsUndefined
      | some refs =>
        .ok { s with
          refsCounted := if delegate.areRefsCounted.isSome then hash :: s.refsCounted else s.refsCounted
          tasks := refs.map (.changeRefCount · delta) ++ rest }
  | .ensureRefCountLoaded hash =>
    match s.refCountUpdates.get? hash with
    | none => ({ s with tasks := rest }).load delegate hash
    | some _ => .ok { s with tasks := rest }

/-- A put chunk whose refs are to be counted. -/
def uncounted (s : RefCountUpdates) : Option Hash :=
  match delegate.areRefsCounted with
  | none => none
  | some areRefsCounted =>
    putChunks.find? fun hash =>
      !areRefsCounted hash && hash ∉ s.refsCounted && s.refCountUpdates.get? hash ≠ some 0

/-- What `compute` does when all it waits for has returned. -/
def advance (oldHeads : List Hash) (s : RefCountUpdates) : Except RefCountError RefCountUpdates :=
  match s.phase with
  | .newHeads (n :: left) => .ok { s with tasks := [.changeRefCount n 1], phase := .newHeads left }
  | .newHeads [] => .ok { s with tasks := putChunks.map .ensureRefCountLoaded, phase := .putChunks }
  | .putChunks =>
    match s.uncounted delegate putChunks with
    | some hash => .ok { s with tasks := [.updateRefsCounts hash 1] }
    | none => .ok { s with phase := .oldHeads oldHeads }
  | .oldHeads (o :: left) => .ok { s with tasks := [.changeRefCount o (-1)], phase := .oldHeads left }
  | .oldHeads [] =>
    if s.refCountUpdates.values.all (· ≥ 0) then .ok { s with phase := .done } else .error .negative
  | .done => .ok s

/-- A step: the chosen task goes on, or `compute` does. -/
def step (oldHeads : List Hash) (s : RefCountUpdates) (choice : ℕ) : Except RefCountError RefCountUpdates :=
  match s.tasks with
  | [] => s.advance delegate putChunks oldHeads
  | _ =>
    match s.tasks[choice]? with
    | none => .ok s
    | some task => s.runTask delegate putChunks task (s.tasks.eraseIdx choice)

/-- `compute`, with the choices of a schedule. -/
def run (headChanges : List HeadChange) (schedule : List ℕ) : Except RefCountError RefCountUpdates :=
  schedule.foldlM (step delegate putChunks (oldHeads headChanges)) (start headChanges)

end RefCountUpdates

end ZeroSync
