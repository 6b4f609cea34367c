/-
`change-source/common/backfill-manager.ts`: the state of a `BackfillManager`,
and what it does on each message of the change stream (`onChange`).

A watermark is the major and the minor part of its state version, which sort as
their strings do (`stateVersionToString_order`). JSON values are of any type.
A call of `#runBackfill` is named by its place among those started: its locals
and the `await` it is at are part of the state (`Backfill`). How long a retry is
put off is left out: the timer may fire at any time.
-/
import Mathlib.Data.Prod.Lex
import Mathlib.Order.WithBot
import ZeroSync.OrderedMap

namespace ZeroSync.Backfills

/-- The major and the minor part of a state version. -/
abbrev Watermark := ℕ ×ₗ WithBot ℕ

abbrev Watermark.of (major : ℕ) (minor : WithBot ℕ) : Watermark := toLex (major, minor)

abbrev Watermark.major (w : Watermark) : ℕ := (ofLex w).1

abbrev Watermark.minor (w : Watermark) : WithBot ℕ := (ofLex w).2

structure Identifier where
  schema : String
  name : String
  deriving DecidableEq

def tableKey (id : Identifier) : String := s!"{id.schema}.{id.name}"

/-- A JSON object, in the type of its values. -/
abbrev JSONRecord (J : Type) := OrderedMap String J

structure TableMetadata (J : Type) where
  rowKey : JSONRecord J
  rest : JSONRecord J
  deriving DecidableEq

/-- A property of an object of columns: a `BackfillID`, or what every object has from `Object.prototype`. -/
inductive ColumnID (J : Type)
  | id (value : J)
  | inherited (name : String)
  deriving DecidableEq

/-- The properties of `Object.prototype`. -/
def objectPrototype : List String :=
  ["constructor", "__defineGetter__", "__defineSetter__", "hasOwnProperty", "__lookupGetter__", "__lookupSetter__",
    "isPrototypeOf", "propertyIsEnumerable", "toString", "valueOf", "__proto__", "toLocaleString"]

/-- `columns` of a `BackfillRequest`. -/
abbrev Columns (J : Type) := OrderedMap String (ColumnID J)

/-- `columns[name]`; `name in columns` where it is not `none`. -/
def Columns.property {J : Type} (columns : Columns J) (name : String) : Option (ColumnID J) :=
  match columns.get? name with
  | some id => some id
  | none => if name ∈ objectPrototype then some (.inherited name) else none

structure BackfillRequest (J : Type) where
  table : Identifier
  metadata : Option (TableMetadata J)
  columns : Columns J
  deriving DecidableEq

/-- The schema changes and data changes of the change source. -/
inductive SourceChange (J : Type)
  | createTable (table : Identifier) (metadata : Option (TableMetadata J)) (backfill : Option (JSONRecord J))
  | renameTable (old new : Identifier)
  | updateTableMetadata (table : Identifier) (new : TableMetadata J)
  | addColumn (table : Identifier) (column : String) (tableMetadata : Option (TableMetadata J)) (backfill : Option J)
  | updateColumn (table : Identifier) (oldName newName : String)
  | dropColumn (table : Identifier) (column : String)
  | dropTable (id : Identifier)
  | update (relation : Identifier) (key : Option (JSONRecord J)) (new : JSONRecord J)
  /-- `insert`, `delete`, `truncate`, `create-index` and `drop-index`. -/
  | other
  deriving DecidableEq

/-- `newRelationSchema` -/
structure Relation where
  id : Identifier
  rowKeyColumns : List String
  deriving DecidableEq

/-- `MessageBackfill` and `BackfillCompleted`. -/
inductive BackfillMessage (J : Type)
  | backfill (relation : Relation) (columns : List String) (watermark : Watermark) (rowValues : List (List J))
  | completed (relation : Relation) (columns : List String) (watermark : Watermark)
  deriving DecidableEq

def BackfillMessage.watermark {J : Type} : BackfillMessage J → Watermark
  | .backfill _ _ watermark _ => watermark
  | .completed _ _ watermark => watermark

inductive DataChange (J : Type)
  | source (c : SourceChange J)
  | backfill (msg : BackfillMessage J)
  deriving DecidableEq

/-- `ChangeStreamMessage` -/
inductive Message (J : Type)
  | begin (commitWatermark : Watermark)
  | data (change : DataChange J)
  | commit (watermark : Watermark)
  | status (watermark : Watermark)
  deriving DecidableEq

/-- The `await` that a call of `#runBackfill` is at, or how it has ended. -/
inductive Point (J : Type)
  /-- Waiting for the next message of its stream, or for the last to be taken downstream. -/
  | streaming
  /-- At `await mustWaitBeforeFlush`, which `reached` ends. -/
  | waiting (msg : BackfillMessage J) (reached : Bool)
  /-- At `await changeStream.reserve()`, which has or has not been granted. -/
  | reserving (msg : BackfillMessage J) (granted : Option Watermark)
  | returned
  | threw (e : String)
  /-- Its `then` or `catch` has run. -/
  | settled
  deriving DecidableEq

/-- A call of `#runBackfill` with its `RunningBackfillState`; `none` of `minWatermark` is `''`. -/
structure Backfill (J : Type) where
  request : BackfillRequest J
  canceledReason : Option String := none
  minWatermark : Option Watermark := none
  backfillTx : Option Watermark := none
  point : Point J := .streaming
  deriving DecidableEq

/-- A `BackfillManager`. `#awaitingStatusWatermarks` are the backfills that wait
for a watermark; `timers` counts the retries that are scheduled. -/
structure Manager (J : Type) where
  requiredBackfills : OrderedMap String (BackfillRequest J) := ∅
  runningBackfill : Option ℕ := none
  lastStatusWatermark : Option Watermark := none
  currentTxWatermark : Option Watermark := none
  backfillRetryTimer : Bool := false
  timers : ℕ := 0
  backfills : List (Backfill J) := []

namespace Manager

variable {J : Type} [DecidableEq J]

/-- An assignment to the locals or the state of a backfill. -/
def modify (m : Manager J) (i : ℕ) (f : Backfill J → Backfill J) : Manager J :=
  { m with backfills := m.backfills.modify i f }

def required (m : Manager J) (id : Identifier) : Option (BackfillRequest J) := m.requiredBackfills.get? (tableKey id)

def setRequiredBackfill (m : Manager J) (req : BackfillRequest J) : Manager J :=
  { m with requiredBackfills := m.requiredBackfills.set (tableKey req.table) req }

def deleteRequiredBackfill (m : Manager J) (id : Identifier) : Manager J :=
  { m with requiredBackfills := m.requiredBackfills.erase (tableKey id) }

/-- `#stopRunningBackfill`. -/
def stopRunningBackfill (m : Manager J) (reason : Option String) (inst : Option ℕ) : Manager J :=
  match m.runningBackfill with
  | none => m
  | some backfill =>
    if backfill = inst.getD backfill then
      { m.modify backfill fun b => { b with canceledReason := reason } with runningBackfill := none }
    else m

/-- `#checkAndStartBackfill`, where `pick` is what `randInt` draws from. -/
def checkAndStartBackfill (m : Manager J) (pick : ℕ) : Manager J :=
  if m.backfillRetryTimer || m.runningBackfill.isSome then m
  else
    let candidates := m.requiredBackfills.values
    match candidates[pick % candidates.length]? with
    | none => m
    | some request =>
      { m with runningBackfill := some m.backfills.length, backfills := m.backfills ++ [{ request }] }

/-- Ends the wait of a backfill for a watermark that has been reached. -/
def reach (watermark : Watermark) (b : Backfill J) : Backfill J :=
  match b.point with
  | .waiting msg false => if msg.watermark ≤ watermark then { b with point := .waiting msg true } else b
  | _ => b

/-- `(this.#lastStatusWatermark ?? '') < watermark` -/
def isBehind (m : Manager J) (watermark : Watermark) : Bool :=
  match m.lastStatusWatermark with
  | none => true
  | some last => last < watermark

/-- `#setLastStatusWatermark`. -/
def setLastStatusWatermark (m : Manager J) (watermark : Watermark) : Manager J :=
  if m.isBehind watermark then
    { m with lastStatusWatermark := some watermark, backfills := m.backfills.map (reach watermark) }
  else m

/-- `#backfillRunningFor`. -/
def backfillRunningFor (m : Manager J) (table : Identifier) : Option (ℕ × BackfillRequest J) := do
  let i ← m.runningBackfill
  let state ← m.backfills[i]?
  if state.request.table = table then some (i, state.request) else none

/-- Stops the backfill that runs for a table. -/
def stopFor (m : Manager J) (table : Identifier) (reason : String) : Manager J :=
  if (m.backfillRunningFor table).isSome then m.stopRunningBackfill (some reason) none else m

/-- Stops it where it fills the column. -/
def stopForColumn (m : Manager J) (table : Identifier) (column reason : String) : Manager J :=
  match m.backfillRunningFor table with
  | some (_, request) =>
    if (request.columns.property column).isSome then m.stopRunningBackfill (some reason) none else m
  | none => m

/-- The `case`s of `onChange` for the changes of the change source. -/
def onSourceChange (m : Manager J) : SourceChange J → Except String (Manager J)
  | .updateTableMetadata table metadata =>
    match m.required table with
    | none => .ok m
    | some backfillRequest =>
      .ok <| (m.setRequiredBackfill { backfillRequest with metadata := some metadata }).stopFor table
        "TableMetadata updated"
  | .createTable table metadata backfill =>
    match backfill with
    | none => .ok m
    | some columns => .ok <| m.setRequiredBackfill { table, metadata, columns := columns.mapValues .id }
  | .renameTable old newTable =>
    match m.required old with
    | none => .ok m
    | some backfillRequest =>
      .ok <| ((m.deleteRequiredBackfill old).setRequiredBackfill { backfillRequest with table := newTable }).stopFor old
        "table renamed"
  | .dropTable id =>
    match m.required id with
    | none => .ok m
    | some _ => .ok <| (m.deleteRequiredBackfill id).stopFor id "table dropped"
  | .addColumn table column metadata backfill =>
    match backfill with
    | none => .ok m
    | some id =>
      match m.required table with
      | none => .ok <| m.setRequiredBackfill { table, metadata, columns := OrderedMap.ofList [(column, .id id)] }
      | some backfillRequest =>
        .ok <| m.setRequiredBackfill
          { backfillRequest with metadata, columns := backfillRequest.columns.set column (.id id) }
  | .updateColumn table oldName newName =>
    if oldName = newName then .ok m
    else
      match m.required table with
      | none => .ok m
      | some backfillRequest =>
        match backfillRequest.columns.property oldName with
        | none => .ok m
        | some colSpec =>
          let columns := (backfillRequest.columns.erase oldName).set newName colSpec
          .ok <| (m.setRequiredBackfill { backfillRequest with columns }).stopForColumn table oldName "column renamed"
  | .dropColumn table column =>
    match m.required table with
    | none => .ok m
    | some backfillRequest =>
      match backfillRequest.columns.property column with
      | none => .ok m
      | some _ =>
        let remaining := backfillRequest.columns.erase column
        let m := if remaining.entries = [] then m.deleteRequiredBackfill table
          else m.setRequiredBackfill { backfillRequest with columns := remaining }
        .ok <| m.stopForColumn table column "column dropped"
  | .update relation key row =>
    match m.currentTxWatermark with
    | none => .error "not in a tx"
    | some txWatermark =>
      match m.backfillRunningFor relation, key with
      | some (i, request), some key =>
        match request.metadata with
        | none => .ok m
        | some metadata =>
          if metadata.rowKey.keys.any fun col => key.get? col ≠ row.get? col then
            .ok <| m.modify i fun b => { b with minWatermark := some txWatermark }
          else .ok m
      | _, _ => .ok m
  | .other => .ok m

/-- The `case`s of `onChange` for the messages of a backfill. -/
def onBackfillMessage (m : Manager J) : BackfillMessage J → Except String (Manager J)
  | .backfill .. => .ok m
  | .completed relation columns _ =>
    match m.required relation.id with
    -- the source writes out the message here
    | none => .error "No BackfillRequest completed backfill"
    | some backfillRequest =>
      let remaining := backfillRequest.columns.entries.filter fun (col, _) =>
        !(columns.contains col || relation.rowKeyColumns.contains col)
      let m := if remaining = [] then m.deleteRequiredBackfill relation.id
        else m.setRequiredBackfill { backfillRequest with columns := OrderedMap.ofList remaining }
      .ok <| m.stopRunningBackfill none none

/-- `onChange`. -/
def onChange (m : Manager J) (pick : ℕ) : Message J → Except String (Manager J)
  | .begin commitWatermark => .ok { m with currentTxWatermark := some commitWatermark }
  | .commit watermark =>
    .ok <| ({ m with currentTxWatermark := none }.setLastStatusWatermark watermark).checkAndStartBackfill pick
  | .status watermark => .ok <| m.setLastStatusWatermark watermark
  | .data (.source change) => m.onSourceChange change
  | .data (.backfill msg) => m.onBackfillMessage msg

/-- `run`. -/
def run (lastWatermark : Watermark) (initialRequests : List (BackfillRequest J)) (pick : ℕ) : Manager J :=
  (initialRequests.foldl setRequiredBackfill { lastStatusWatermark := some lastWatermark }).checkAndStartBackfill pick

/-- The `then` and `catch` of a call of `#runBackfill` that has ended. -/
def settle (m : Manager J) (i : ℕ) : Manager J :=
  match m.backfills[i]?.map Backfill.point with
  | some .returned => (m.stopRunningBackfill (some "backfill exited") (some i)).modify i fun b => { b with point := .settled }
  | some (.threw e) =>
    { (m.stopRunningBackfill (some e) (some i)).modify i fun b => { b with point := .settled } with
      backfillRetryTimer := true
      timers := m.timers + 1 }
  | _ => m

/-- The callback of `#retryBackfillWithBackoff`. -/
def retry (m : Manager J) (pick : ℕ) : Manager J :=
  { m with backfillRetryTimer := false, timers := m.timers - 1 }.checkAndStartBackfill pick

/-- `cancel`; what `clearTimeout` leaves is the timers set before the last. -/
def cancel (m : Manager J) : Manager J :=
  { m.stopRunningBackfill (some "change stream canceled") none with
    timers := if m.backfillRetryTimer then m.timers - 1 else m.timers }

end Manager

end ZeroSync.Backfills
