/-
`ivm/union-fan-in.ts` and `ivm/union-fan-out.ts`: the branches of an `OR`, and
the one stream of rows and changes they are merged into.

The inputs of the fan-in are its branches, as they answer fetches at the
moment. A pusher is known by its place among them.
-/
import ZeroSync.Merge
import ZeroSync.PushAccumulated

namespace ZeroSync

open SortedList

/-- `mergeFetches`. -/
def mergeFetches (fetches : List (List Node)) (comparator : Node → Node → Ordering) : List Node :=
  merge comparator fetches

/-- The operator. -/
structure UnionFanIn where
  schema : SourceSchema
  fanOutPushStarted : Bool := false
  accumulatedPushes : List Change := []

namespace UnionFanIn

/-- The relationships of an input merged into the schema of the constructor. -/
def addRelationships (fanOutSchema : SourceSchema) :
    List (String × SourceSchema) → List (String × SourceSchema) → Except UnionError (List (String × SourceSchema))
  | relationships, [] => .ok relationships
  | relationships, (relName, relSchema) :: rest =>
    if (OrderedMap.lookup relName fanOutSchema.relationships).isSome then addRelationships fanOutSchema relationships rest
    else if (OrderedMap.lookup relName relationships).isSome then .error .relationshipInMultipleInputs
    else addRelationships fanOutSchema (OrderedMap.setEntries relName relSchema relationships) rest

/-- The loop of the constructor. -/
def addInputs (fanOutSchema : SourceSchema) :
    List (String × SourceSchema) → List SourceSchema → Except UnionError (List (String × SourceSchema))
  | relationships, [] => .ok relationships
  | relationships, inputSchema :: rest =>
    if fanOutSchema.tableName ≠ inputSchema.tableName then .error .tableNameMismatch
    else if fanOutSchema.primaryKey ≠ inputSchema.primaryKey then .error .primaryKeyMismatch
    else if fanOutSchema.system ≠ inputSchema.system then .error .systemMismatch
    else if fanOutSchema.sort ≠ inputSchema.sort then .error .sortMismatch
    else do
      let relationships ← addRelationships fanOutSchema relationships inputSchema.relationships
      addInputs fanOutSchema relationships rest

/-- The constructor. That the comparators are the same function is left out. -/
def new (fanOutSchema : SourceSchema) (inputSchemas : List SourceSchema) : Except UnionError UnionFanIn :=
  if fanOutSchema.sort.isNone then .error .requiresSortedInput
  else do
    let relationships ← addInputs fanOutSchema fanOutSchema.relationships inputSchemas
    return { schema := { fanOutSchema with relationships } }

/-- `fetch`. -/
def fetch (u : UnionFanIn) (inputs : List Input) (req : FetchRequest) : List Node :=
  mergeFetches (inputs.map fun input => input.fetch req) (byRow (directed u.schema.compareRows req.reverse))

/-- The loop of `#pushInternalChange`: whether it comes to its end, with `hadMatch`. -/
def pushInternalLoop (constraint : Constraint) (pusher : ℕ) : ℕ → List Input → Bool → Option Bool
  | _, [], hadMatch => some hadMatch
  | i, input :: inputs, hadMatch =>
    if i = pusher then pushInternalLoop constraint pusher (i + 1) inputs true
    else if (input.fetch { constraint := some constraint }).isEmpty then
      pushInternalLoop constraint pusher (i + 1) inputs hadMatch
    else none

/-- `#pushInternalChange`: the change pushed, if any. -/
def pushInternalChange (u : UnionFanIn) (inputs : List Input) (change : Change) (pusher : ℕ) :
    Except UnionError (Option Change) :=
  match change with
  | .child _ _ _ => .ok (some change)
  | .edit _ _ => .error .expectedAddOrRemove
  | .add node | .remove node =>
    let constraint := OrderedMap.ofList (u.schema.primaryKey.map fun key => (key, node.row key))
    match pushInternalLoop constraint pusher 0 inputs false with
    | none => .ok none
    | some true => .ok (some change)
    | some false => .error .pusherNotAnInput

/-- `push`. -/
def push (u : UnionFanIn) (inputs : List Input) (change : Change) (pusher : ℕ) :
    Except UnionError (Option Change × UnionFanIn) :=
  if u.fanOutPushStarted then .ok (none, { u with accumulatedPushes := u.accumulatedPushes ++ [change] })
  else do return (← u.pushInternalChange inputs change pusher, u)

/-- `fanOutStartedPushing`. -/
def fanOutStartedPushing (u : UnionFanIn) : Except UnionError UnionFanIn :=
  if u.fanOutPushStarted then .error .alreadyPushing else .ok { u with fanOutPushStarted := true }

/-- `fanOutDonePushing`. -/
def fanOutDonePushing (u : UnionFanIn) (inputs : List Input) (fanOutChangeType : ChangeType) :
    Except UnionError (Option Change × UnionFanIn) :=
  if !u.fanOutPushStarted then .error .notPushing
  else
    let u := { u with fanOutPushStarted := false }
    if inputs.length = 0 then .ok (none, u)
    else if u.accumulatedPushes.length = 0 then .ok (none, u)
    else do
      let pushed ← pushAccumulatedChanges u.accumulatedPushes fanOutChangeType u.schema
      return (pushed, { u with accumulatedPushes := [] })

/-- What the branches push into the fan-in, one after the other: the changes pushed on. -/
def pushAll (u : UnionFanIn) (inputs : List Input) : List (Change × ℕ) → Except UnionError (List Change × UnionFanIn)
  | [] => .ok ([], u)
  | (change, pusher) :: pushes => do
    let (pushed, u) ← u.push inputs change pusher
    let (rest, u) ← u.pushAll inputs pushes
    return (pushed.toList ++ rest, u)

end UnionFanIn

/-- `UnionFanOut.push`; `pushes` is what the branches make of the change. -/
def UnionFanOut.push (u : UnionFanIn) (inputs : List Input) (change : Change) (pushes : List (Change × ℕ)) :
    Except UnionError (List Change × UnionFanIn) := do
  let u ← u.fanOutStartedPushing
  let (pushed, u) ← u.pushAll inputs pushes
  let (last, u) ← u.fanOutDonePushing inputs change.type
  return (pushed ++ last.toList, u)

end ZeroSync
