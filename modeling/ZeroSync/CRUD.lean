/-
`zero-protocol/src/mutation.ts`: CRUD ops, and what they do to a database when
they are run one after another as `INSERT`, `INSERT .. ON CONFLICT .. UPDATE`,
`UPDATE` and `DELETE`.

An op's value has the columns it was sent with; the others read as `undefined`.
Its row is the one of its table's primary key. A column that an insert leaves
out gets its default, which is `NULL` where the column has none.
-/
import Mathlib.Logic.Function.Basic
import ZeroSync.Evaluation
import ZeroSync.Runs
import ZeroSync.TableSourceFacts

namespace ZeroSync

/-- `op` of a `CRUDOp`. -/
inductive CRUDKind
  | insert
  | upsert
  | update
  | delete
  deriving DecidableEq

/-- `op` of an `Exclude<CRUDOp, UpsertOp>`. -/
inductive NormalizedKind
  | insert
  | update
  | delete
  deriving DecidableEq

/-- An op of some kind. -/
structure Op (Kind : Type) where
  op : Kind
  tableName : String
  primaryKey : List String
  value : Row

abbrev CRUDOp := Op CRUDKind

abbrev NormalizedOp := Op NormalizedKind

/-- `tableSpecs`. -/
abbrev SourceSpecs := String → Option TableSpec

/-- The default of each column of each table. -/
abbrev Defaults := String → String → Value

/-- The row an `INSERT` of the value adds. -/
def insertedRow (spec : TableSpec) (defaults : String → Value) (value : Row) : Row := fun c =>
  if c ∈ spec.columns then
    if value c = .undefined then normalizeUndefined (defaults c) else value c
  else .null

/-- The row after its columns are `SET` to those of the value. -/
def assignedRow (value row : Row) : Row := fun c => if value c = .undefined then row c else value c

/-- The row of the op is there. -/
def rowExists (spec : TableSpec) (rows : List Row) (value : Row) : Bool :=
  rows.any fun row => sqlMatches spec.primaryKey row value

/-- `UPDATE`. -/
def updateRows (spec : TableSpec) (rows : List Row) (value : Row) : List Row :=
  rows.map fun row => if sqlMatches spec.primaryKey row value then assignedRow value row else row

/-- The rows of the op's table after it is run. -/
def runOpRows (spec : TableSpec) (defaults : String → Value) (rows : List Row) (op : CRUDKind) (value : Row) : List Row :=
  match op with
  | .insert => rows ++ [insertedRow spec defaults value]
  | .upsert => if rowExists spec rows value then updateRows spec rows value else rows ++ [insertedRow spec defaults value]
  | .update => updateRows spec rows value
  | .delete => rows.filter fun row => !sqlMatches spec.primaryKey row value

section
variable (specs : SourceSpecs) (defaults : Defaults)

/-- The database after an op. -/
def runOp (db : Database) (op : CRUDOp) : Database :=
  match specs op.tableName with
  | none => db
  | some spec =>
    Function.update db op.tableName (runOpRows spec (defaults op.tableName) (db op.tableName) op.op op.value)

/-- The database after a list of ops. -/
def runOps (db : Database) (ops : List CRUDOp) : Database := ops.foldl (runOp specs defaults) db

/-- The op is one that the database can run: its columns are those of a table,
its key has values, it inserts a row that is not there and updates or deletes
one that is, and the unique indexes are kept. -/
def Executable (db : Database) (op : CRUDOp) : Prop :=
  ∃ spec, specs op.tableName = some spec ∧ (∀ c, op.value c ≠ .undefined → c ∈ spec.columns) ∧
    (∀ c ∈ spec.primaryKey, op.value c ≠ .null ∧ op.value c ≠ .undefined) ∧
    (op.op = .insert → rowExists spec (db op.tableName) op.value = false) ∧
    (op.op = .update ∨ op.op = .delete → rowExists spec (db op.tableName) op.value = true) ∧
    Keeps spec (runOp specs defaults db op op.tableName)

/-- The tables of a database keep their indexes, and their rows have a value in every synced column. -/
def ValidDatabase (db : Database) : Prop :=
  ∀ table spec, specs table = some spec →
    Keeps spec (db table) ∧ ∀ row ∈ db table, ∀ c ∈ spec.columns, row c ≠ .undefined

/-- The databases have the same rows, as far as these are synced. -/
def SameRows (db db' : Database) : Prop :=
  ∀ table spec, specs table = some spec →
    ((db table).map (selectColumns spec.columns)).Perm ((db' table).map (selectColumns spec.columns))

end

end ZeroSync
