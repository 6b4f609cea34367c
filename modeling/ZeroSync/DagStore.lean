/-
`replicache/src/dag/store-impl.ts` and `chunk.ts`: the dag store over a kv store.

A write puts chunks and sets heads in its kv transaction, which reads its own
writes; `commit` then changes the ref counts, and removes the chunks whose count
is zero. The kv keys of the data, the refs and the ref count of a chunk, and of
a head, are four maps: no key of one is a key of another.
-/
import ZeroSync.RefCountUpdates

namespace ZeroSync

/-- `isHash`: `/^[0-9a-v-]+$/`. -/
def isHash (value : String) : Bool :=
  value ≠ "" && value.toList.all fun c => ('0' ≤ c && c ≤ '9') || ('a' ≤ c && c ≤ 'v') || c = '-'

/-- `Chunk`: it cannot reference itself. -/
structure Chunk (V : Type) where
  hash : Hash
  data : V
  refs : List Hash
  noSelf : hash ∉ refs

/-- The kv store of a dag store. -/
structure DagKV (V : Type) where
  data : OrderedMap Hash V
  refs : OrderedMap Hash (List Hash)
  refCounts : OrderedMap Hash ℤ
  heads : OrderedMap String Hash
  deriving DecidableEq

/-- `WriteImpl`. -/
structure DagWrite (V : Type) where
  kv : DagKV V
  putChunks : List Hash
  changedHeads : OrderedMap String HeadChange

/-- What a write is asked to do before it is committed. -/
inductive DagOperation (V : Type)
  | putChunk (c : Chunk V)
  | setHead (name : String) (hash : Hash)
  | removeHead (name : String)

variable {V : Type}

namespace DagKV

def empty : DagKV V := ⟨∅, ∅, ∅, ∅⟩

/-- `hasChunk`. -/
def hasChunk (kv : DagKV V) (hash : Hash) : Bool := kv.data.contains hash

/-- `getRefs`. -/
def getRefs (kv : DagKV V) (hash : Hash) : List Hash := (kv.refs.get? hash).getD []

/-- `getRefCount`. -/
def getRefCount (kv : DagKV V) (hash : Hash) : Except RefCountError (Option ℤ) :=
  match kv.refCounts.get? hash with
  | none => .ok none
  | some value => if value < 0 ∨ value > 0xffff then .error .invalidRefCount else .ok (some value)

/-- `#removeAllRelatedKeys`. -/
def removeAllRelatedKeys (kv : DagKV V) (hash : Hash) : DagKV V :=
  { kv with data := kv.data.erase hash, refs := kv.refs.erase hash, refCounts := kv.refCounts.erase hash }

/-- One entry of `#applyRefCountUpdates`. -/
def applyRefCountUpdate (kv : DagKV V) (entry : Hash × ℤ) : DagKV V :=
  if entry.2 = 0 then kv.removeAllRelatedKeys entry.1 else { kv with refCounts := kv.refCounts.set entry.1 entry.2 }

/-- `#applyRefCountUpdates`. -/
def applyRefCountUpdates (kv : DagKV V) (refCountCache : OrderedMap Hash ℤ) : DagKV V :=
  refCountCache.entries.foldl applyRefCountUpdate kv

end DagKV

namespace DagWrite

/-- `StoreImpl.write`. -/
def start (kv : DagKV V) : DagWrite V := ⟨kv, [], ∅⟩

/-- `putChunk`; it throws for a hash that is not valid. -/
def putChunk (assertValidHash : Hash → Bool) (w : DagWrite V) (c : Chunk V) : Option (DagWrite V) :=
  if !assertValidHash c.hash then none
  else
    let kv := { w.kv with data := w.kv.data.set c.hash c.data }
    let putChunks := if c.hash ∈ w.putChunks then w.putChunks else w.putChunks ++ [c.hash]
    if c.refs.length > 0 then
      if !c.refs.all assertValidHash then none
      else some { w with kv := { kv with refs := kv.refs.set c.hash c.refs }, putChunks := putChunks }
    else some { w with kv := kv, putChunks := putChunks }

/-- `getHead`; it throws when what is stored is no hash. -/
def getHead (w : DagWrite V) (name : String) : Option (Option Hash) :=
  match w.kv.heads.get? name with
  | none => some none
  | some data => if isHash data then some (some data) else none

/-- `#setHead`: of the old values of a head, it keeps the first. -/
def setHead (w : DagWrite V) (name : String) (hash : Option Hash) : Option (DagWrite V) := do
  let oldHash ← w.getHead name
  let heads :=
    match hash with
    | none => w.kv.heads.erase name
    | some hash => w.kv.heads.set name hash
  let change :=
    match w.changedHeads.get? name with
    | none => { new := hash, old := oldHash }
    | some v => { v with new := hash }
  return { w with kv := { w.kv with heads := heads }, changedHeads := w.changedHeads.set name change }

/-- An operation of a write. -/
def run (assertValidHash : Hash → Bool) (w : DagWrite V) : DagOperation V → Option (DagWrite V)
  | .putChunk c => w.putChunk assertValidHash c
  | .setHead name hash => w.setHead name (some hash)
  | .removeHead name => w.setHead name none

/-- The write as the delegate of `computeRefCountUpdates`. -/
def delegate (w : DagWrite V) : RefCountUpdatesDelegate where
  getRefCount := w.kv.getRefCount
  getRefs hash := some (w.kv.getRefs hash)
  areRefsCounted := none

/-- `computeRefCountUpdates` as `commit` calls it, so far as the schedule goes. -/
def computeRefCountUpdates (w : DagWrite V) (schedule : List ℕ) : Except RefCountError RefCountUpdates :=
  RefCountUpdates.run w.delegate w.putChunks w.changedHeads.values schedule

/-- `commit`: what is stored then, if the schedule goes so far. -/
def commit (w : DagWrite V) (schedule : List ℕ) : Except RefCountError (Option (DagKV V)) := do
  let s ← w.computeRefCountUpdates schedule
  match s.phase with
  | .done => return some (w.kv.applyRefCountUpdates s.refCountUpdates)
  | _ => return none

/-- A write from its start to its commit: what is stored then, if it is committed. -/
def transact (assertValidHash : Hash → Bool) (kv : DagKV V) (ops : List (DagOperation V)) (schedule : List ℕ) :
    Option (DagKV V) := do
  let w ← ops.foldlM (run assertValidHash) (start kv)
  match w.commit schedule with
  | .ok kv' => kv'
  | .error _ => none

end DagWrite

end ZeroSync
