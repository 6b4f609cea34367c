/-
`ivm/cap.ts`: the Cap operator, which keeps up to `limit` rows of each
partition of its input, in no order, by their primary keys.

As in Take, `push` returns each change it hands its output with the state it
is handed over in, and `input` is the input as it answers fetches during the
push.
-/
import ZeroSync.Take

namespace ZeroSync

/-- `serializePK`, `JSON.stringify(primaryKey.map(k => row[k]))`: the values
it spells, which `JSON.parse` gives back. -/
abbrev SerializedPK := List Value

/-- `CapState`. -/
structure CapState where
  size : ℤ
  pks : List SerializedPK

/-- The operator: its parameters and its storage, the cap states by key. -/
structure Cap where
  limit : ℕ
  partitionKey : Option (List String)
  primaryKey : List String
  states : TakeStateKey → Option CapState := fun _ => none

/-- The assertions of Cap. -/
inductive CapError
  /-- `Cap does not support start` -/
  | doesNotSupportStart
  /-- `Cap does not support reverse` -/
  | doesNotSupportReverse
  /-- `Cap fetch: constraint must match partition key when partitioned` -/
  | constraintMustMatchPartitionKey
  /-- `Constraint should match partition key` -/
  | constraintShouldMatchPartitionKey
  /-- `Cap state should be undefined` -/
  | capStateShouldBeUndefined
  /-- `Unexpected change of partition key` -/
  | unexpectedChangeOfPartitionKey
  deriving DecidableEq

/-- What a push hands the output: each change with the state it is handed in. -/
abbrev CapPushed := List (Change × Cap) × Cap

/-- `getCapStateKey`: the values of the partition key, as in a take state key. -/
abbrev getCapStateKey (partitionKey : Option (List String)) (read : String → Value) : TakeStateKey :=
  getTakeStateKey partitionKey read

/-- `serializePK`. -/
def serializePK (primaryKey : List String) (row : Row) : SerializedPK :=
  primaryKey.map fun k => normalizeUndefined (row k)

/-- `deserializePKToConstraint`. -/
def deserializePKToConstraint (pk : SerializedPK) (primaryKey : List String) : Constraint :=
  OrderedMap.ofList (primaryKey.zip pk)

namespace Cap

scoped instance : LawfulBEq SerializedPK := inferInstance

/-- `#storage.set`. -/
def setCapState (c : Cap) (key : TakeStateKey) (state : CapState) : Cap :=
  { c with states := fun k => if k = key then some state else c.states k }

/-- `#initialFetch`. -/
def initialFetch (c : Cap) (input : Input) (req : FetchRequest) : Except CapError (List Node × Cap) :=
  if c.limit = 0 then .ok ([], c)
  else if !constraintMatchesPartitionKey req.constraint c.partitionKey then
    .error .constraintShouldMatchPartitionKey
  else
    let key := getCapStateKey c.partitionKey (Constraint.read req.constraint)
    if (c.states key).isSome then .error .capStateShouldBeUndefined
    else
      let nodes := (input.fetch req).take c.limit
      let pks := nodes.map fun n => serializePK c.primaryKey n.row
      .ok (nodes, c.setCapState key ⟨nodes.length, pks⟩)

/-- `fetch`. -/
def fetch (c : Cap) (input : Input) (req : FetchRequest) : Except CapError (List Node × Cap) :=
  if req.start.isSome then .error .doesNotSupportStart
  else if req.reverse then .error .doesNotSupportReverse
  else if c.partitionKey.isSome &&
      !(req.constraint.isSome && constraintMatchesPartitionKey req.constraint c.partitionKey) then
    .error .constraintMustMatchPartitionKey
  else
    match c.states (getCapStateKey c.partitionKey (Constraint.read req.constraint)) with
    | none => c.initialFetch input req
    | some capState =>
      if capState.size = 0 then .ok ([], c)
      else .ok (capState.pks.flatMap fun pk =>
        input.fetch { constraint := some (deserializePKToConstraint pk c.primaryKey) }, c)

/-- A change handed to the output as the operator stands. -/
def output (c : Cap) (change : Change) : Change × Cap := (change, c)

/-- The `ADD` branch of `push`. -/
def pushAdd (c : Cap) (capState : CapState) (node : Node) : CapPushed :=
  if capState.size < c.limit then
    let pks := capState.pks ++ [serializePK c.primaryKey node.row]
    let c := c.setCapState (getCapStateKey c.partitionKey node.row) ⟨capState.size + 1, pks⟩
    ([c.output (.add node)], c)
  else ([], c)

/-- The `REMOVE` branch of `push`. -/
def pushRemove (c : Cap) (input : Input) (capState : CapState) (node : Node) : CapPushed :=
  let key := getCapStateKey c.partitionKey node.row
  let pk := serializePK c.primaryKey node.row
  if pk ∉ capState.pks then ([], c)
  else
    let pks := capState.pks.eraseIdx (capState.pks.idxOf pk)
    let newSize := capState.size - 1
    let constraint := Take.partitionConstraint c.partitionKey node.row
    let replacement := (input.fetch { constraint }).find? fun n => serializePK c.primaryKey n.row ∉ pks
    -- The remove is handed over without the replacement.
    let c := c.setCapState key ⟨newSize, pks⟩
    match replacement with
    | some replacement =>
      let replacementPK := serializePK c.primaryKey replacement.row
      let c' := c.setCapState key ⟨newSize + 1, pks ++ [replacementPK]⟩
      ([c.output (.remove node), c'.output (.add replacement)], c')
    | none => ([c.output (.remove node)], c)

/-- The keys with one replaced. -/
def replacePK (oldPK newPK : SerializedPK) (pks : List SerializedPK) : List SerializedPK :=
  pks.map fun p => if p = oldPK then newPK else p

/-- `#pushEditChange`. -/
def pushEditChange (c : Cap) (node oldNode : Node) : Except CapError CapPushed :=
  if c.partitionKey.any fun keys => makePartitionKeyComparator keys oldNode.row node.row ≠ .eq then
    .error .unexpectedChangeOfPartitionKey
  else
    let key := getCapStateKey c.partitionKey oldNode.row
    match c.states key with
    | none => .ok ([], c)
    | some capState =>
      let oldPK := serializePK c.primaryKey oldNode.row
      if oldPK ∈ capState.pks then
        let newPK := serializePK c.primaryKey node.row
        let c :=
          if oldPK ≠ newPK then c.setCapState key ⟨capState.size, replacePK oldPK newPK capState.pks⟩
          else c
        .ok ([c.output (.edit node oldNode)], c)
      else .ok ([], c)

/-- `push`. -/
def push (c : Cap) (input : Input) : Change → Except CapError CapPushed
  | .edit node oldNode => c.pushEditChange node oldNode
  | change =>
    match c.states (getCapStateKey c.partitionKey change.node.row) with
    | none => .ok ([], c)
    | some capState =>
      match change with
      | .add node => .ok (c.pushAdd capState node)
      | .remove node => .ok (c.pushRemove input capState node)
      | change =>
        if serializePK c.primaryKey change.node.row ∈ capState.pks then .ok ([c.output change], c)
        else .ok ([], c)

end Cap

end ZeroSync
