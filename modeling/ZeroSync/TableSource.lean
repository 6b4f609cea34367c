/-
`zqlite/table-source.ts`: a source over a table of a database snapshot, and
what a push writes to it.

A stored row has a value in every column of the table. A source reads and
writes the columns that are synced: in a row it inserts the others are `NULL`,
and an update leaves them. SQLite refuses a write that breaks a unique index
(two rows that agree on its columns, none of them `NULL`). What the pipelines
do with a push is left out, for they do not write; so are the conversions
between SQLite's values and ZQL's, but for what a missing value becomes.
-/
import ZeroSync.Data

namespace ZeroSync

/-- `ValueType`. -/
inductive ValueType
  | boolean
  | number
  | string
  | null
  deriving DecidableEq

/-- `toSQLiteType`, as it is read back: a column without a value is `NULL`, but
`0` when it is a boolean. -/
def toSQLiteType (v : Value) (type : ValueType) : Value :=
  if v = .undefined ∧ type = .boolean then .bool false else normalizeUndefined v

/-- `LiteTableSpecWithKeysAndVersion`: the synced columns with their types, the
columns of the unique indexes, and the primary key that a source goes by.
`TableSource` asserts that this has a unique index; its columns are synced, as
are row versions. -/
structure TableSpec where
  columns : List String
  type : String → ValueType
  primaryKey : List String
  uniqueKeys : List (List String)
  minRowVersion : Option String
  primaryKey_unique : ∃ key ∈ uniqueKeys, ∀ c, c ∈ key ↔ c ∈ primaryKey
  primaryKey_nodup : primaryKey.Nodup
  primaryKey_synced : ∀ c ∈ primaryKey, c ∈ columns
  version_synced : "_0_version" ∈ columns

/-- The columns that a `SELECT` of the synced columns has. -/
def selectColumns (columns : List String) (row : Row) : Row := fun c => if c ∈ columns then row c else .undefined

/-- `"c" = ?` for each of the columns. -/
def sqlMatches (columns : List String) (row values : Row) : Bool := columns.all fun c => valuesEqual (row c) (values c)

/-- The rows agree on the columns of a unique index. -/
def conflicts (spec : TableSpec) (a b : Row) : Bool := spec.uniqueKeys.any fun key => sqlMatches key a b

/-- `SourceChange`. -/
inductive SourceChange
  | add (row : Row)
  | remove (row : Row)
  | edit (row oldRow : Row)

/-- Why a push throws: "Row already exists", "Row not found", or a unique index. -/
inductive SourceError
  | alreadyExists
  | notFound
  | uniqueConstraint
  deriving DecidableEq

/-- `TableSource`: its table, and the `splitEditKeys` of its connections. -/
structure TableSource where
  spec : TableSpec
  splitEditKeys : List (List String)

namespace TableSource

variable (source : TableSource)

/-- `checkExists`. -/
def checkExists (rows : List Row) (row : Row) : Bool := rows.any fun r => sqlMatches source.spec.primaryKey r row

/-- `INSERT`. -/
def insert (rows : List Row) (row : Row) : Except SourceError (List Row) :=
  let stored : Row := fun c => if c ∈ source.spec.columns then toSQLiteType (row c) (source.spec.type c) else .null
  if rows.any (conflicts source.spec stored) then .error .uniqueConstraint else .ok (rows ++ [stored])

/-- `DELETE`. -/
def delete (rows : List Row) (row : Row) : List Row :=
  rows.filter fun r => !sqlMatches source.spec.primaryKey r row

/-- The stored row after an `UPDATE` of the columns outside of the primary key. -/
def updated (row stored : Row) : Row := fun c =>
  if c ∈ source.spec.columns ∧ c ∉ source.spec.primaryKey then toSQLiteType (row c) (source.spec.type c) else stored c

/-- `UPDATE`. -/
def update (rows : List Row) (row : Row) : Except SourceError (List Row) :=
  let rest := source.delete rows row
  if rows.any fun r => sqlMatches source.spec.primaryKey r row && rest.any (conflicts source.spec (source.updated row r)) then
    .error .uniqueConstraint
  else .ok (rows.map fun r => if sqlMatches source.spec.primaryKey r row then source.updated row r else r)

/-- `{...oldRow, ...row}`. -/
def mergedRow (oldRow row : Row) : Row := fun c => if row c = .undefined then oldRow c else row c

/-- `canUseUpdate`. -/
def canUseUpdate (oldRow row : Row) : Bool :=
  source.spec.primaryKey.all (fun c => oldRow c = row c) && source.spec.columns.length > source.spec.primaryKey.length

/-- `#writeChange`. -/
def writeChange (rows : List Row) : SourceChange → Except SourceError (List Row)
  | .add row => source.insert rows row
  | .remove row => .ok (source.delete rows row)
  | .edit row oldRow =>
    if source.canUseUpdate oldRow row then source.update rows (mergedRow oldRow row)
    else source.insert (source.delete rows oldRow) row

/-- `genPushAndWrite`. -/
def genPushAndWrite (rows : List Row) (change : SourceChange) : Except SourceError (List Row) :=
  match change with
  | .add row => if source.checkExists rows row then .error .alreadyExists else source.writeChange rows change
  | .remove row => if source.checkExists rows row then source.writeChange rows change else .error .notFound
  | .edit _ oldRow => if source.checkExists rows oldRow then source.writeChange rows change else .error .notFound

/-- `shouldSplitEdit`. -/
def shouldSplitEdit (row oldRow : Row) : Bool :=
  source.splitEditKeys.any fun keys => keys.any fun key => !valuesEqual (row key) (oldRow key)

/-- `push`, by `genPushAndWriteWithSplitEdit`. -/
def push (rows : List Row) (change : SourceChange) : Except SourceError (List Row) :=
  match change with
  | .edit row oldRow =>
    if source.shouldSplitEdit row oldRow then do
      let rows ← source.genPushAndWrite rows (.remove oldRow)
      source.genPushAndWrite rows (.add row)
    else source.genPushAndWrite rows change
  | _ => source.genPushAndWrite rows change

end TableSource

end ZeroSync
