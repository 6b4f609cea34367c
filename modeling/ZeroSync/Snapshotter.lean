/-
`view-syncer/snapshotter.ts` and `#advance` of `pipeline-driver.ts`: the diff
between two snapshots of the database, and its changes pushed into the sources
over the earlier one.

The earlier snapshot is read anew for each entry of the change log, after the
changes of the entries before have been written to it. The time limit of an
advancement (`advancement-timeout`) is left out.
-/
import ZeroSync.TableSource
import ZeroSync.StateVersion

namespace ZeroSync

/-- The rows of each table. -/
abbrev Tables := String → List Row

/-- The operations of the change log. -/
inductive ChangeLogOp
  | set
  | del
  | truncate
  | reset
  deriving DecidableEq

/-- `ChangeLogEntry`. -/
structure ChangeLogEntry where
  stateVersion : String
  table : String
  rowKey : List (String × Value)
  op : ChangeLogOp

/-- Why an advancement ends early: a `ResetPipelinesSignal`, an `InvalidDiffError`,
another error of the diff, or one of a source. -/
inductive AdvanceError
  | schemaChange
  | truncation
  | permissionsChange
  | invalidDiff
  | unknownTable
  | minRowVersion
  | missingValue
  | typeError
  | source (e : SourceError)
  deriving DecidableEq

/-- `Change`. -/
structure TableChange where
  table : String
  prevValues : List Row
  nextValue : Option Row

/-- `Diff`; `curr` with its version, and the version of `prev`. -/
structure Diff where
  permissionsTable : String
  syncableTables : String → Option TableSpec
  allTableNames : List String
  prevVersion : String
  currVersion : String
  curr : Tables

/-- `Snapshot.getRow`. -/
def getRow (spec : TableSpec) (rows : List Row) (rowKey : List (String × Value)) : Option Row :=
  (rows.find? fun row => rowKey.all fun k => valuesEqual (row k.1) k.2).map (selectColumns spec.columns)

/-- `Snapshot.getRows`. -/
def getRows (spec : TableSpec) (rows : List Row) (row : Row) : List Row :=
  let validKeys := spec.uniqueKeys.filter fun key => key.all fun c => row c ≠ .null && row c ≠ .undefined
  (rows.filter fun r => validKeys.any fun key => sqlMatches key r row).map (selectColumns spec.columns)

/-- The version of a row; `'~'` when it has none. -/
def rowVersion (row : Row) : String :=
  match row "_0_version" with
  | .str version => version
  | _ => "~"

namespace Diff

variable (diff : Diff)

/-- `checkThatDiffIsValid`. -/
def isValid (stateVersion : String) (prevValues : List Row) (nextValue : Option Row) : Bool :=
  !stringLt diff.currVersion stateVersion &&
    !prevValues.any (fun prevValue => stringLt diff.prevVersion (rowVersion prevValue)) &&
      nextValue.all fun next => next "_0_version" = .str stateVersion

/-- What the iterator makes of an entry of the change log: a change, or
nothing when it goes on to the next entry. -/
def next (prev : Tables) (e : ChangeLogEntry) : Except AdvanceError (Option TableChange) :=
  match e.op with
  | .reset => .error .schemaChange
  | .truncate => .error .truncation
  | _ =>
    match diff.syncableTables e.table with
    | none => if e.table ∈ diff.allTableNames then .ok none else .error .unknownTable
    | some spec =>
      if !stringLt (spec.minRowVersion.getD "") e.stateVersion then .error .minRowVersion
      else
        let nextValue := if e.op = .set then getRow spec (diff.curr e.table) e.rowKey else none
        let prevValues :=
          match nextValue with
          | some next => getRows spec (prev e.table) next
          | none => (getRow spec (prev e.table) e.rowKey).toList
        if e.op = .set ∧ nextValue = none then .error .missingValue
        else if !diff.isValid e.stateVersion prevValues nextValue then .error .invalidDiff
        else if prevValues.length = 0 ∧ nextValue = none then .ok none
        else
          let change := { table := e.table, prevValues, nextValue }
          if e.table = diff.permissionsTable then
            match nextValue with
            | none => if prevValues.length = 0 then .ok (some change) else .error .typeError
            | some next =>
              if prevValues.any fun prevValue => prevValue "permissions" ≠ next "permissions" then
                .error .permissionsChange
              else .ok (some change)
          else .ok (some change)

end Diff

/-! ## `#advance` -/

/-- A push into a source. -/
def pushInto (source : TableSource) (rows : List Row) (change : SourceChange) : Except AdvanceError (List Row) :=
  (source.push rows change).mapError .source

/-- `prevValue` has the primary key of `nextValue`. -/
def sameKey (source : TableSource) (prevValue nextValue : Row) : Bool :=
  source.spec.primaryKey.all fun c => prevValue c = nextValue c

/-- The loop over `prevValues`: the rows that are left, and `editOldRow`. -/
def pushPrev (source : TableSource) (nextValue : Option Row) (s : List Row × Option Row) (prevValue : Row) :
    Except AdvanceError (List Row × Option Row) :=
  if nextValue.any (sameKey source prevValue) then .ok (s.1, some prevValue)
  else do
    let rows ← pushInto source s.1 (.remove prevValue)
    return (rows, s.2)

/-- The pushes for a change. -/
def pushChange (source : TableSource) (rows : List Row) (change : TableChange) : Except AdvanceError (List Row) := do
  let (rows, editOldRow) ← change.prevValues.foldlM (pushPrev source change.nextValue) (rows, none)
  match change.nextValue with
  | none => return rows
  | some next =>
    match editOldRow with
    | some oldRow => pushInto source rows (.edit next oldRow)
    | none => pushInto source rows (.add next)

/-- One entry of the diff, pushed into the source of its table, when there is one. -/
def advanceEntry (diff : Diff) (sources : String → Option TableSource) (prev : Tables) (e : ChangeLogEntry) :
    Except AdvanceError Tables := do
  match ← diff.next prev e with
  | none => return prev
  | some change =>
    match sources change.table with
    | none => return prev
    | some source =>
      let rows ← pushChange source (prev change.table) change
      return fun table => if table = change.table then rows else prev table

/-- `#advance`: the tables of the earlier snapshot after all entries. -/
def advance (diff : Diff) (sources : String → Option TableSource) (prev : Tables) (log : List ChangeLogEntry) :
    Except AdvanceError Tables :=
  log.foldlM (advanceEntry diff sources) prev

end ZeroSync
