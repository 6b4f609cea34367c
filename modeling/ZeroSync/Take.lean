/-
`ivm/take.ts`: the Take operator, which keeps the first `limit` rows of each
partition of its input.

`push` returns what it hands its output, in order: each change with the
operator's state at that moment, which is the state a fetch made by the
output sees. `input` is the input as it answers fetches during the push.
-/
import ZeroSync.Operator

namespace ZeroSync

/-- A take-state key, `JSON.stringify(['take', ...partitionValues])`: the
values it spells, which `JSON.stringify` tells apart but for `undefined` in
an array, which it writes as `null`. -/
abbrev TakeStateKey := List Value

/-- `TakeState`. -/
structure TakeState where
  size : ℤ
  bound : Option Row

/-- The operator: its parameters, its storage (the take states by key, and
`maxBound`) and `#rowHiddenFromFetch`. -/
structure Take where
  limit : ℕ
  partitionKey : Option (List String)
  compareRows : Comparator
  states : TakeStateKey → Option TakeState := fun _ => none
  maxBound : Option Row := none
  rowHiddenFromFetch : Option Row := none

/-- The assertions of Take. -/
inductive TakeError
  /-- `Start should be undefined` -/
  | startShouldBeUndefined
  /-- `Reverse should be false` -/
  | reverseShouldBeFalse
  /-- `Constraint should match partition key` -/
  | constraintShouldMatchPartitionKey
  /-- `Take state should be undefined` -/
  | takeStateShouldBeUndefined
  /-- `Take: boundNode must be found during fetch` -/
  | boundNodeMustBeFound
  /-- `Unexpected change of partition key` -/
  | unexpectedChangeOfPartitionKey
  /-- `Bound should be set` -/
  | boundShouldBeSet
  /-- `Take: beforeBoundNode must be found during fetch` -/
  | beforeBoundNodeMustBeFound
  /-- `Take: newBoundNode must be found during fetch` -/
  | newBoundNodeMustBeFound
  /-- `Take: oldBoundNode must be found during fetch` -/
  | oldBoundNodeMustBeFound
  /-- `Take: afterBoundNode must be found during fetch` -/
  | afterBoundNodeMustBeFound
  /-- `Invalid state. Row has duplicate primary key` -/
  | duplicatePrimaryKey
  deriving DecidableEq

/-- What a push hands the output: each change with the state it is handed in. -/
abbrev TakePushed := List (Change × Take) × Take

/-- `getTakeStateKey`; `read` is the property read of the row or constraint,
which is `undefined` throughout when there is none. -/
def getTakeStateKey (partitionKey : Option (List String)) (read : String → Value) : TakeStateKey :=
  (partitionKey.getD []).map fun key => normalizeUndefined (read key)

/-- A property read of a constraint. -/
def Constraint.read (constraint : Option Constraint) (key : String) : Value :=
  ((constraint.bind (·.get? key)).getD .undefined)

/-- `constraintMatchesPartitionKey`. -/
def constraintMatchesPartitionKey : Option Constraint → Option (List String) → Bool
  | none, none => true
  | none, some _ | some _, none => false
  | some constraint, some partitionKey =>
    partitionKey.length = constraint.keys.length && partitionKey.all constraint.contains

/-- `makePartitionKeyComparator`. -/
def makePartitionKeyComparator (partitionKey : List String) : Comparator :=
  makeComparator (partitionKey.map fun key => (key, .asc))

namespace Take

/-- `#setTakeState`. -/
def setTakeState (t : Take) (key : TakeStateKey) (size : ℤ) (bound maxBound : Option Row) : Take :=
  { t with
    states := fun k => if k = key then some { size, bound } else t.states k
    maxBound :=
      match bound with
      | none => t.maxBound
      | some b =>
        if maxBound.all fun m => t.compareRows b m = .gt then some b else t.maxBound }

/-- `#initialFetch`. -/
def initialFetch (t : Take) (input : Input) (req : FetchRequest) : Except TakeError (List Node × Take) :=
  if req.start.isSome then .error .startShouldBeUndefined
  else if req.reverse then .error .reverseShouldBeFalse
  else if t.limit = 0 then .ok ([], t)
  else if !constraintMatchesPartitionKey req.constraint t.partitionKey then
    .error .constraintShouldMatchPartitionKey
  else
    let key := getTakeStateKey t.partitionKey (Constraint.read req.constraint)
    if (t.states key).isSome then .error .takeStateShouldBeUndefined
    else
      let nodes := (input.fetch req).take t.limit
      .ok (nodes, t.setTakeState key nodes.length (nodes.getLast?.map (·.row)) t.maxBound)

/-- `fetch`. -/
def fetch (t : Take) (input : Input) (req : FetchRequest) : Except TakeError (List Node × Take) :=
  if t.partitionKey.isNone ||
      (req.constraint.isSome && constraintMatchesPartitionKey req.constraint t.partitionKey) then
    match t.states (getTakeStateKey t.partitionKey (Constraint.read req.constraint)) with
    | none => t.initialFetch input req
    | some { bound := none, .. } => .ok ([], t)
    | some { bound := some bound, .. } =>
      let inBound := (input.fetch req).takeWhile fun n => t.compareRows bound n.row ≠ .lt
      .ok (inBound.filter fun n => t.rowHiddenFromFetch.all fun h => t.compareRows h n.row ≠ .eq, t)
  else
    match t.maxBound with
    | none => .ok ([], t)
    | some maxBound =>
      let inBound := (input.fetch req).takeWhile fun n => t.compareRows n.row maxBound ≠ .gt
      .ok (inBound.filter fun n =>
        match t.states (getTakeStateKey t.partitionKey n.row) with
        | some { bound := some bound, .. } => (t.compareRows bound n.row).isGE
        | _ => false, t)

/-- The constraint of `#getStateAndConstraint`: the row's partition. -/
def partitionConstraint (partitionKey : Option (List String)) (row : Row) : Option Constraint :=
  partitionKey.map fun keys => OrderedMap.ofList (keys.map fun key => (key, row key))

/-- A change handed to the output as the operator stands. -/
def output (t : Take) (change : Change) : Change × Take := (change, t)

/-- `#pushWithRowHiddenFromFetch`. -/
def pushWithRowHiddenFromFetch (t : Take) (row : Row) (change : Change) : Change × Take :=
  (change, { t with rowHiddenFromFetch := some row })

/-- The `ADD` branch of `push`. -/
def pushAdd (t : Take) (input : Input) (state : TakeState) (node : Node) : Except TakeError TakePushed :=
  let key := getTakeStateKey t.partitionKey node.row
  let constraint := partitionConstraint t.partitionKey node.row
  let change := Change.add node
  if state.size < t.limit then
    let bound := match state.bound with
      | none => node.row
      | some bound => if t.compareRows bound node.row = .lt then node.row else bound
    let t := t.setTakeState key (state.size + 1) (some bound) t.maxBound
    .ok ([t.output change], t)
  else
    match state.bound with
    | none => .ok ([], t)
    | some bound =>
    if (t.compareRows node.row bound).isGE then .ok ([], t)
    else
      -- The last row taken makes room, and the one before it is the next bound.
      let fetched :=
        if t.limit = 1 then
          ((input.fetch { constraint, start := some ⟨bound, .at⟩ })[0]?, none)
        else
          let nodes := input.fetch { constraint, start := some ⟨bound, .at⟩, reverse := true }
          (nodes[0]?, nodes[1]?)
      match fetched with
      | (none, _) => .error .boundNodeMustBeFound
      | (some boundNode, beforeBoundNode) =>
        let newBound := match beforeBoundNode with
          | none => node.row
          | some before => if t.compareRows node.row before.row = .gt then node.row else before.row
        let t := t.setTakeState key state.size (some newBound) t.maxBound
        .ok ([t.pushWithRowHiddenFromFetch node.row (.remove boundNode), t.output change], t)

/-- The loop of the `REMOVE` branch over the rows at or after the bound: the
first row after the bound, else the last row seen. -/
def replacement (compareRows : Comparator) (bound : Row) :
    List Node → Option (Node × Bool) → Option (Node × Bool)
  | [], newBound => newBound
  | node :: nodes, _ =>
    if compareRows node.row bound = .gt then some (node, true)
    else replacement compareRows bound nodes (some (node, false))

/-- The `REMOVE` branch of `push`. -/
def pushRemove (t : Take) (input : Input) (state : TakeState) (node : Node) : Except TakeError TakePushed :=
  let key := getTakeStateKey t.partitionKey node.row
  let constraint := partitionConstraint t.partitionKey node.row
  let change := Change.remove node
  match state.bound with
  | none => .ok ([], t)
  | some bound =>
  if t.compareRows node.row bound = .gt then .ok ([], t)
  else
    let before := (input.fetch { constraint, start := some ⟨bound, .after⟩, reverse := true })[0]?
    let newBound := before.map fun n => (n, decide (t.compareRows n.row bound = .gt))
    let newBound :=
      if newBound.any (·.2) then newBound
      else replacement t.compareRows bound (input.fetch { constraint, start := some ⟨bound, .at⟩ }) newBound
    match newBound with
    | some (newBoundNode, true) =>
      let t' := t.setTakeState key state.size (some newBoundNode.row) t.maxBound
      .ok ([t.output change, t'.output (.add newBoundNode)], t')
    | _ =>
      let t := t.setTakeState key (state.size - 1) (newBound.map (·.1.row)) t.maxBound
      .ok ([t.output change], t)

/-- `replaceBoundAndForwardChange`. -/
def replaceBoundAndForwardChange (t : Take) (state : TakeState) (node oldNode : Node) : TakePushed :=
  let t := t.setTakeState (getTakeStateKey t.partitionKey oldNode.row) state.size (some node.row) t.maxBound
  ([t.output (.edit node oldNode)], t)

/-- `#pushEditChange`, the row at the bound being the one edited. -/
def pushEditAtBound (t : Take) (input : Input) (state : TakeState) (bound : Row) (node oldNode : Node) :
    Except TakeError TakePushed :=
  let key := getTakeStateKey t.partitionKey oldNode.row
  let constraint := partitionConstraint t.partitionKey oldNode.row
  match t.compareRows node.row bound with
  | .eq => .ok ([t.output (.edit node oldNode)], t)
  | .lt =>
    if t.limit = 1 then .ok (t.replaceBoundAndForwardChange state node oldNode)
    else
      match (input.fetch { constraint, start := some ⟨bound, .after⟩, reverse := true })[0]? with
      | none => .error .beforeBoundNodeMustBeFound
      | some beforeBoundNode =>
        let t := t.setTakeState key state.size (some beforeBoundNode.row) t.maxBound
        .ok ([t.output (.edit node oldNode)], t)
  | .gt =>
    match (input.fetch { constraint, start := some ⟨bound, .at⟩ })[0]? with
    | none => .error .newBoundNodeMustBeFound
    | some newBoundNode =>
      if t.compareRows newBoundNode.row node.row = .eq then
        .ok (t.replaceBoundAndForwardChange state node oldNode)
      else
        let t := t.setTakeState key state.size (some newBoundNode.row) t.maxBound
        .ok ([t.pushWithRowHiddenFromFetch newBoundNode.row (.remove oldNode), t.output (.add newBoundNode)], t)

/-- `#pushEditChange`, the old row being after the bound. -/
def pushEditAfterBound (t : Take) (input : Input) (state : TakeState) (bound : Row) (node oldNode : Node) :
    Except TakeError TakePushed :=
  let key := getTakeStateKey t.partitionKey oldNode.row
  let constraint := partitionConstraint t.partitionKey oldNode.row
  match t.compareRows node.row bound with
  | .eq => .error .duplicatePrimaryKey
  | .gt => .ok ([], t)
  | .lt =>
    let nodes := input.fetch { constraint, start := some ⟨bound, .at⟩, reverse := true }
    match nodes[0]?, nodes[1]? with
    | none, _ => .error .oldBoundNodeMustBeFound
    | some _, none => .error .newBoundNodeMustBeFound
    | some oldBoundNode, some newBoundNode =>
      let t := t.setTakeState key state.size (some newBoundNode.row) t.maxBound
      .ok ([t.pushWithRowHiddenFromFetch node.row (.remove oldBoundNode), t.output (.add node)], t)

/-- `#pushEditChange`, the old row being before the bound. -/
def pushEditBeforeBound (t : Take) (input : Input) (state : TakeState) (bound : Row) (node oldNode : Node) :
    Except TakeError TakePushed :=
  let key := getTakeStateKey t.partitionKey oldNode.row
  let constraint := partitionConstraint t.partitionKey oldNode.row
  match t.compareRows node.row bound with
  | .eq => .error .duplicatePrimaryKey
  | .lt => .ok ([t.output (.edit node oldNode)], t)
  | .gt =>
    match (input.fetch { constraint, start := some ⟨bound, .after⟩ })[0]? with
    | none => .error .afterBoundNodeMustBeFound
    | some afterBoundNode =>
      if t.compareRows afterBoundNode.row node.row = .eq then
        .ok (t.replaceBoundAndForwardChange state node oldNode)
      else
        -- The remove goes out before the state changes: the old bound is still in place.
        let t' := t.setTakeState key state.size (some afterBoundNode.row) t.maxBound
        .ok ([t.output (.remove oldNode), t'.output (.add afterBoundNode)], t')

/-- `#pushEditChange`. -/
def pushEditChange (t : Take) (input : Input) (node oldNode : Node) : Except TakeError TakePushed :=
  if t.partitionKey.any fun keys => makePartitionKeyComparator keys oldNode.row node.row ≠ .eq then
    .error .unexpectedChangeOfPartitionKey
  else
    match t.states (getTakeStateKey t.partitionKey oldNode.row) with
    | none => .ok ([], t)
    | some { bound := none, .. } => .error .boundShouldBeSet
    | some state@{ bound := some bound, .. } =>
      match t.compareRows oldNode.row bound with
      | .eq => t.pushEditAtBound input state bound node oldNode
      | .gt => t.pushEditAfterBound input state bound node oldNode
      | .lt => t.pushEditBeforeBound input state bound node oldNode

/-- `push`. -/
def push (t : Take) (input : Input) : Change → Except TakeError TakePushed
  | .edit node oldNode => t.pushEditChange input node oldNode
  | change =>
    match t.states (getTakeStateKey t.partitionKey change.node.row) with
    | none => .ok ([], t)
    | some state =>
      match change with
      | .add node => t.pushAdd input state node
      | .remove node => t.pushRemove input state node
      | change =>
        if state.bound.any fun bound => (t.compareRows change.node.row bound).isLE then
          .ok ([t.output change], t)
        else .ok ([], t)

end Take

end ZeroSync
