/-
`replicache/src/sync/patch.ts`: a patch, made smaller and applied to a client view.

The view is the map that the tree of a `Write` holds. A value is an object with
its properties, or not one; nothing looks into either further. Secondary
indexes and the freezing of values are left out.
-/
import ZeroSync.StateVersion
import ZeroSync.OrderedMap

namespace ZeroSync

/-- A JSON value: an object, or another value. -/
inductive JSONValue (α : Type)
  | object (properties : OrderedMap String α)
  | other (value : α)

/-- `PatchOperationInternal`. -/
inductive PatchOperation (α : Type)
  | put (key : String) (value : JSONValue α)
  | update (key : String) (merge : Option (OrderedMap String α)) (constrain : Option (List String))
  | del (key : String)
  | clear

/-- Why a patch fails: `putMany entries must be sorted and unique`, or an
update of a value that is not an object. -/
inductive PatchError
  | notSorted
  | notAnObject
  deriving DecidableEq

/-- The client view. -/
abbrev View (α : Type) := String → Option (JSONValue α)

variable {α : Type}

namespace View

/-- `put`. -/
def put (view : View α) (key : String) (value : JSONValue α) : View α := fun k => if k = key then some value else view k

/-- `del`. -/
def del (view : View α) (key : String) : View α := fun k => if k = key then none else view k

/-- `clear`. -/
def clear : View α := fun _ => none

/-- The assertion of `putMany`: each key before the next. -/
def ascending : List String → Bool
  | key :: key' :: keys => stringLt key key' && ascending (key' :: keys)
  | _ => true

/-- `putMany`. -/
def putMany (view : View α) (entries : List (String × JSONValue α)) : Except PatchError (View α) :=
  if ascending (entries.map (·.1)) then .ok (entries.foldl (fun view e => view.put e.1 e.2) view)
  else .error .notSorted

end View

namespace PatchOperation

/-- `op === 'clear'`. -/
def isClear : PatchOperation α → Bool
  | clear => true
  | _ => false

/-- `op === 'del'`. -/
def isDel : PatchOperation α → Bool
  | del _ => true
  | _ => false

/-- The key and value of a put. -/
def asPut : PatchOperation α → Option (String × JSONValue α)
  | put key value => some (key, value)
  | _ => none

/-- `key`. -/
def key? : PatchOperation α → Option String
  | put key _ | update key _ _ | del key => some key
  | clear => none

end PatchOperation

open PatchOperation

/-! ## `optimizePatch` -/

/-- The index of the last clear. -/
def clearIndex : List (PatchOperation α) → Option ℕ
  | [] => none
  | p :: patch =>
    match clearIndex patch with
    | some i => some (i + 1)
    | none => if p.isClear then some 0 else none

/-- The loop that fills `keyOps`; `none` when there is an update. -/
def collectKeyOps (keyOps : OrderedMap String (PatchOperation α)) :
    List (PatchOperation α) → Option (OrderedMap String (PatchOperation α))
  | [] => some keyOps
  | p :: patch =>
    match p with
    | .put key _ | .del key => collectKeyOps (keyOps.set key p) patch
    | .update _ _ _ => none
    | .clear => collectKeyOps keyOps patch

/-- The order of the result: a clear first, then by key. -/
def before (a b : PatchOperation α) : Prop :=
  match a.key?, b.key? with
  | none, _ => True
  | some _, none => False
  | some key, some key' => key ≤ key'

instance : DecidableRel (before (α := α)) := fun a b => by
  unfold before
  split <;> infer_instance

/-- `optimizePatch`. -/
def optimizePatch (patch : List (PatchOperation α)) : List (PatchOperation α) :=
  match clearIndex patch with
  | none =>
    match collectKeyOps ∅ patch with
    | none => patch
    | some keyOps => keyOps.values.insertionSort before
  | some i =>
    match collectKeyOps ∅ (patch.drop (i + 1)) with
    | none => patch.drop i
    | some keyOps => (.clear :: keyOps.values.filter (!·.isDel)).insertionSort before

/-! ## `apply` -/

/-- `mergeUpdate`. -/
def mergeUpdate (merge : Option (OrderedMap String α)) (constrain : Option (List String))
    (existing : Option (OrderedMap String α)) : OrderedMap String α :=
  let addToEntries (toAdd : Option (OrderedMap String α)) : List (String × α) :=
    ((toAdd.map (·.entries)).getD []).filter fun e => constrain.all fun keys => keys.length = 0 || e.1 ∈ keys
  .ofList (addToEntries existing ++ addToEntries merge)

/-- The properties of the value that an update finds. -/
def existingObject : Option (JSONValue α) → Except PatchError (Option (OrderedMap String α))
  | none => .ok none
  | some (.object properties) => .ok (some properties)
  | some (.other _) => .error .notAnObject

/-- The body of the loop over the remaining operations. -/
def applyOne (view : View α) (op : PatchOperation α) : Except PatchError (View α) :=
  match op with
  | .put key value => .ok (view.put key value)
  | .update key merge constrain => do
    let existing ← existingObject (view key)
    return view.put key (.object (mergeUpdate merge constrain existing))
  | .del key => .ok (if (view key).isSome then view.del key else view)
  | .clear => .ok view

/-- `bulkLoadPuts`. -/
def bulkLoadPuts (view : View α) (puts : List (PatchOperation α)) : Except PatchError (View α) :=
  view.putMany (puts.filterMap (·.asPut))

/-- `apply`. -/
def applyPatch (view : View α) (patch : List (PatchOperation α)) : Except PatchError (View α) := do
  let optimized := optimizePatch patch
  let (view, operations) :=
    match optimized with
    | .clear :: operations => (View.clear, operations)
    | operations => (view, operations)
  let puts := operations.takeWhile (·.asPut.isSome)
  let view ← bulkLoadPuts view puts
  (operations.drop puts.length).foldlM applyOne view

/-! ## What a patch means -/

/-- One operation. -/
def PatchOperation.run (view : View α) : PatchOperation α → Except PatchError (View α)
  | .put key value => .ok (view.put key value)
  | .update key merge constrain => do
    let existing ← existingObject (view key)
    return view.put key (.object (mergeUpdate merge constrain existing))
  | .del key => .ok (view.del key)
  | .clear => .ok View.clear

/-- The operations one after another. -/
def runPatch (view : View α) (patch : List (PatchOperation α)) : Except PatchError (View α) :=
  patch.foldlM PatchOperation.run view

end ZeroSync
