/-
`change-source/pg/change-source.ts`, `#makeSchemaChanges`: the changes that
lead from one published schema to the next, in the order in which they are
sent downstream.

Tables are matched by their oid, the columns of a table by their attnum, and
indexes by `idString`. An index that is found on both sides is dropped and
created again when `isIndexStructurallyChanged` says so. What throws
(`validate`, a table without a schema oid, a row key of an unknown column) is
caught at the end of `#makeSchemaChanges` and halts the replication; the
error here is its description. Logging is left out, and of a column what is
only logged or passed on.
-/
import ZeroSync.BackfillManager
import ZeroSync.Data

namespace ZeroSync.SchemaChanges

open Backfills (Identifier)

/-! ## Published schemas -/

structure ColumnSpec where
  /-- The attnum of the column, which is never used again. -/
  pos : ℕ
  dataType : String
  /-- `null` and `undefined` are the same here. -/
  notNull : Option Bool
  dflt : Option String
  deriving DecidableEq

structure Column where
  name : String
  spec : ColumnSpec
  deriving DecidableEq

inductive ReplicaIdentity
  | default
  | nothing
  | full
  | index
  deriving DecidableEq

/-- `PublishedTableWithReplicaIdentity` -/
structure PublishedTable where
  oid : ℕ
  schemaOID : Option ℕ
  schema : String
  name : String
  columns : OrderedMap String ColumnSpec
  replicaIdentity : Option ReplicaIdentity
  replicaIdentityColumns : List String
  deriving DecidableEq

def PublishedTable.id (t : PublishedTable) : Identifier := ⟨t.schema, t.name⟩

/-- `PublishedIndexSpec` -/
structure PublishedIndex where
  schema : String
  tableName : String
  name : String
  unique : Bool
  isPrimaryKey : Option Bool
  isReplicaIdentity : Option Bool
  isImmediate : Option Bool
  columns : OrderedMap String Direction
  deriving DecidableEq

def PublishedIndex.id (i : PublishedIndex) : Identifier := ⟨i.schema, i.name⟩

/-- The table of an index, which is in the schema of the index. -/
def PublishedIndex.table (i : PublishedIndex) : Identifier := ⟨i.schema, i.tableName⟩

structure PublishedSchema where
  tables : List PublishedTable
  indexes : List PublishedIndex
  deriving DecidableEq

/-! ## Changes -/

structure TableMetadata where
  schemaOID : ℕ
  relationOID : ℕ
  /-- The attnums of the columns of the row key. -/
  rowKey : OrderedMap String ℕ
  deriving DecidableEq

/-- `deepEqual`, which does not look at the order of keys. -/
def TableMetadata.deepEqual (a b : TableMetadata) : Bool :=
  a.schemaOID = b.schemaOID && a.relationOID = b.relationOID && a.rowKey.entries.length = b.rowKey.entries.length &&
    a.rowKey.entries.all fun e => b.rowKey.get? e.1 = some e.2

/-- A `backfill` is the attnums of the columns to fill. -/
inductive SchemaChange
  | dropIndex (id : Identifier)
  | dropTable (id : Identifier)
  | renameTable (old new : Identifier)
  | updateTableMetadata (table : Identifier) (old new : TableMetadata)
  | dropColumn (table : Identifier) (column : String)
  | updateColumn (table : Identifier) (old new : Column)
  | addColumn (table : Identifier) (column : Column) (metadata : TableMetadata) (backfill : Option ℕ)
  | createTable (spec : PublishedTable) (metadata : TableMetadata) (backfill : Option (OrderedMap String ℕ))
  | createIndex (spec : PublishedIndex)
  deriving DecidableEq

/-! ## Defaults

`mapPostgresToLiteDefault` accepts a default that SQLite can be given when a
column is added. -/

def isWordChar (c : Char) : Bool := c.isAlphanum || c = '_'

/-- What `\s` matches. -/
def isSpaceChar (c : Char) : Bool :=
  (9 ≤ c.toNat && c.toNat ≤ 13) || (0x2000 ≤ c.toNat && c.toNat ≤ 0x200a) ||
    c.toNat ∈ [0x20, 0xa0, 0x1680, 0x2028, 0x2029, 0x202f, 0x205f, 0x3000, 0xfeff]

/-- `NUMERIC_LITERAL_REGEX` -/
def isNumericLiteral (cs : List Char) : Bool :=
  let digits := if cs.head? = some '-' then cs.tail else cs
  let fraction := digits.dropWhile Char.isDigit
  (digits.head?.any Char.isDigit) &&
    (fraction.isEmpty || (fraction.head? = some '.' && !fraction.tail.isEmpty && fraction.tail.all Char.isDigit))

/-- `BOOLEAN_LITERAL_REGEX` -/
def isBooleanLiteral (dflt : String) : Bool := dflt = "true" || dflt = "false"

def isLineTerminator (c : Char) : Bool :=
  c = '\n' || c = '\r' || c = Char.ofNat 0x2028 || c = Char.ofNat 0x2029

/-- `QUOTED_STRING_WITH_CAST_REGEX`, read from the end: the name of a type,
`::`, and a quoted string of one line. -/
def isQuotedStringWithCast (cs : List Char) : Bool :=
  let type := cs.reverse.takeWhile isWordChar
  match cs.reverse.dropWhile isWordChar with
  | ':' :: ':' :: '\'' :: quoted =>
    !type.isEmpty && quoted.getLast? = some '\'' && !quoted.dropLast.any isLineTerminator
  | _ => false

/-- `::`, the name of a type and `[]`. -/
def isArrayCast : List Char → Bool
  | ':' :: ':' :: cs =>
    let type := cs.takeWhile isWordChar
    !type.isEmpty && cs.dropWhile isWordChar = ['[', ']']
  | _ => false

/-- `EMPTY_ARRAY_CONSTRUCTOR_REGEX` -/
def isEmptyArrayConstructor (cs : List Char) : Bool :=
  (cs.take 5).map Char.toLower = ['a', 'r', 'r', 'a', 'y'] &&
    match (cs.drop 5).dropWhile isSpaceChar with
    | '[' :: inner =>
      match inner.dropWhile isSpaceChar with
      | ']' :: cast => isArrayCast cast
      | _ => false
    | _ => false

/-- `EMPTY_ARRAY_LITERAL_REGEX` -/
def isEmptyArrayLiteral : List Char → Bool
  | '\'' :: '\x7b' :: '\x7d' :: '\'' :: cast => isArrayCast cast
  | _ => false

/-- Whether `mapPostgresToLiteDefault`, and with it `mapPostgresToLiteColumn`,
throws an `UnsupportedColumnDefaultError`. -/
def hasUnsupportedDefault (spec : ColumnSpec) : Bool :=
  match spec.dflt with
  | none => false
  | some dflt =>
    !(dflt = "" || isNumericLiteral dflt.toList || isBooleanLiteral dflt || isQuotedStringWithCast dflt.toList ||
      isEmptyArrayConstructor dflt.toList || isEmptyArrayLiteral dflt.toList)

/-! ## Sets of keys -/

section Keys

variable {κ α : Type} [DecidableEq κ]

/-- `symmetricDifferences` -/
def symmetricDifferences (a b : OrderedMap κ α) : List κ × List κ :=
  (a.keys.filter fun k => !b.contains k, b.keys.filter fun k => !a.contains k)

/-- `intersection`, in the order of the smaller map. -/
def intersection (a b : OrderedMap κ α) : List κ :=
  if a.entries.length > b.entries.length then b.keys.filter fun k => a.contains k
  else a.keys.filter fun k => b.contains k

/-- What the first map holds for the keys that it alone has. -/
def onlyFirst (a b : OrderedMap κ α) : List α := (symmetricDifferences a b).1.filterMap a.get?

/-- What the second map holds for the keys that it alone has. -/
def onlySecond (a b : OrderedMap κ α) : List α := (symmetricDifferences a b).2.filterMap b.get?

/-- What the two maps hold for a key. -/
def both (a b : OrderedMap κ α) (k : κ) : Option (α × α) :=
  match a.get? k, b.get? k with
  | some old, some new => some (old, new)
  | _, _ => none

/-- What the maps hold for the keys they share, in the order in which the loop
over their `intersection` comes to them. -/
def kept (a b : OrderedMap κ α) : List (α × α) := (intersection a b).filterMap (both a b)

end Keys

/-! ## Comparing schemas -/

def idString (id : Identifier) : String := s!"{id.schema}.{id.name}"

/-- The tables of `specsByID`. -/
def tablesByID (published : PublishedSchema) : OrderedMap ℕ PublishedTable :=
  .ofList (published.tables.map fun t => (t.oid, t))

/-- The indexes of `specsByID`. -/
def indexesByID (published : PublishedSchema) : OrderedMap String PublishedIndex :=
  .ofList (published.indexes.map fun i => (idString i.id, i))

def findTableBySchemaAndName (tables : OrderedMap ℕ PublishedTable) (schema name : String) : Option PublishedTable :=
  tables.values.find? fun table => table.schema = schema && table.name = name

/-- The direction of each attnum in an index, with those of unknown columns under `none`. -/
def byAttnum (table : PublishedTable) (columns : OrderedMap String Direction) : OrderedMap (Option ℕ) Direction :=
  .ofList (columns.entries.map fun (name, dir) => ((table.columns.get? name).map (·.pos), dir))

def isIndexStructurallyChanged (prev next : PublishedIndex) (prevTables nextTables : OrderedMap ℕ PublishedTable) :
    Bool :=
  if prev.unique ≠ next.unique ∨ prev.isPrimaryKey ≠ next.isPrimaryKey ∨
      prev.isReplicaIdentity ≠ next.isReplicaIdentity ∨ prev.isImmediate ≠ next.isImmediate then
    true
  else
    match findTableBySchemaAndName prevTables prev.schema prev.tableName,
        findTableBySchemaAndName nextTables next.schema next.tableName with
    | some prevTable, some nextTable =>
      if prev.columns.entries.length ≠ next.columns.entries.length then
        true
      else
        let prevByAttnum := byAttnum prevTable prev.columns
        let nextByAttnum := byAttnum nextTable next.columns
        if prevByAttnum.contains none || nextByAttnum.contains none then
          true
        else if prevByAttnum.entries.length ≠ nextByAttnum.entries.length then
          true
        else
          prevByAttnum.entries.any fun (attnum, dir) => nextByAttnum.get? attnum ≠ some dir
    | _, _ => true

def columnsByID (columns : OrderedMap String ColumnSpec) : OrderedMap ℕ Column :=
  .ofList (columns.entries.map fun (name, spec) => (spec.pos, ⟨name, spec⟩))

def getMetadata (table : PublishedTable) : Except String TableMetadata := do
  let schemaOID ← match table.schemaOID with
    | some oid => pure oid
    | none => throw "Error: Unexpected undefined value"
  let rowKey ← table.replicaIdentityColumns.mapM fun k =>
    match table.columns.get? k with
    | some spec => pure (k, spec.pos)
    | none => throw "TypeError: Cannot read properties of undefined (reading 'pos')"
  return ⟨schemaOID, table.oid, .ofList rowKey⟩

/-! ## Validation -/

def ZERO_VERSION_COLUMN_NAME : String := "_0_version"

/-- `ALLOWED_TABLE_CHARS` -/
def hasAllowedTableChars (name : String) : Bool :=
  match name.toList with
  | [] => false
  | c :: cs => (c.isAlpha || c = '_') && cs.all fun c => isWordChar c || c = '-'

/-- `ALLOWED_COLUMN_CHARS` -/
def hasAllowedColumnChars (name : String) : Bool :=
  match name.toList with
  | [] => false
  | c :: cs => (c.isAlpha || c = '_') && cs.all fun c => isWordChar c || c = '-' || c = '.'

def unsupportedTableSchema (msg : String) : String := "UnsupportedTableSchemaError: " ++ msg

def validate (table : PublishedTable) : Except String Unit := do
  if table.columns.contains ZERO_VERSION_COLUMN_NAME then
    throw (unsupportedTableSchema
      s!"Table \"{table.name}\" uses reserved column name \"{ZERO_VERSION_COLUMN_NAME}\"")
  if table.replicaIdentity = some .nothing then
    throw (unsupportedTableSchema s!"Table \"{table.name}\" with REPLICA IDENTITY NOTHING cannot be replicated")
  if table.replicaIdentity = some .index ∧ table.replicaIdentityColumns = [] then
    throw (unsupportedTableSchema s!"Table \"{table.name}\" is missing its REPLICA IDENTITY INDEX")
  if !hasAllowedTableChars table.name then
    throw (unsupportedTableSchema s!"Table \"{table.name}\" has invalid characters.")
  -- the version column that `mapPostgresToLite` adds comes last and is allowed
  (table.columns.keys ++ [ZERO_VERSION_COLUMN_NAME]).forM fun col =>
    if !hasAllowedColumnChars col then
      throw (unsupportedTableSchema s!"Column \"{col}\" in table \"{table.name}\" has invalid characters.")
    else pure ()

/-! ## The changes -/

/-- The columns that both versions of a table have, in the order in which they are updated. -/
def keptColumns (tables : PublishedTable × PublishedTable) : List (Column × Column) :=
  kept (columnsByID tables.1.columns) (columnsByID tables.2.columns)

/-- The change of a kept column, if its name, type or nullability is another. -/
def updatedColumn (table : Identifier) (c : Column × Column) : Option SchemaChange :=
  if c.1.name ≠ c.2.name ∨ c.1.spec.dataType ≠ c.2.spec.dataType ∨ c.1.spec.notNull ≠ c.2.spec.notNull then
    some (.updateColumn table c.1 c.2)
  else none

/-- A column that is added, without its default when it has to be filled from upstream. -/
def addedColumn (table : Identifier) (metadata : TableMetadata) (ddlTag : String) (column : Column) : SchemaChange :=
  let alwaysBackfill := ddlTag ≠ "ALTER TABLE"
  if alwaysBackfill ∨ hasUnsupportedDefault column.spec then
    .addColumn table ⟨column.name, { column.spec with dflt := none }⟩ metadata (some column.spec.pos)
  else
    .addColumn table column metadata none

/-- `#getTableChanges` -/
def getTableChanges (oldTable newTable : PublishedTable) (ddlTag : String) : Except String (List SchemaChange) := do
  let renamed := if oldTable.id ≠ newTable.id then [.renameTable oldTable.id newTable.id] else []
  let oldMetadata ← getMetadata oldTable
  let newMetadata ← getMetadata newTable
  let table := newTable.id
  let metadata := if oldMetadata.deepEqual newMetadata then [] else [.updateTableMetadata table oldMetadata newMetadata]
  let oldColumns := columnsByID oldTable.columns
  let newColumns := columnsByID newTable.columns
  let drops := (onlyFirst oldColumns newColumns).map fun c => .dropColumn table c.name
  let updates := (keptColumns (oldTable, newTable)).filterMap (updatedColumn table)
  let adds := (onlySecond oldColumns newColumns).map (addedColumn table newMetadata ddlTag)
  return renamed ++ metadata ++ drops ++ updates ++ adds

/-- Only the tables of a `CREATE` statement need no backfill. -/
def createdTable (tag : String) (spec : PublishedTable) : Except String SchemaChange := do
  let metadata ← getMetadata spec
  return .createTable spec metadata (if tag.startsWith "CREATE" then none else some (spec.columns.mapValues (·.pos)))

/-- The tables that both schemas have, in the order in which they are altered. -/
def keptTables (prev next : PublishedSchema) : List (PublishedTable × PublishedTable) :=
  kept (tablesByID prev) (tablesByID next)

/-- The names of the indexes that are dropped and created again. -/
def changedIndexes (prev next : PublishedSchema) : List String :=
  (intersection (indexesByID prev) (indexesByID next)).filter fun id =>
    (both (indexesByID prev) (indexesByID next) id).any fun (i, j) =>
      isIndexStructurallyChanged i j (tablesByID prev) (tablesByID next)

def droppedIndexes (prev next : PublishedSchema) : List PublishedIndex :=
  ((symmetricDifferences (indexesByID prev) (indexesByID next)).1 ++ changedIndexes prev next).filterMap
    (indexesByID prev).get?

def createdIndexes (prev next : PublishedSchema) : List PublishedIndex :=
  ((symmetricDifferences (indexesByID prev) (indexesByID next)).2 ++ changedIndexes prev next).filterMap
    (indexesByID next).get?

/-- `#makeSchemaChanges` -/
def makeSchemaChanges (prev next : PublishedSchema) (tag : String) : Except String (List SchemaChange) := do
  (tablesByID next).values.forM validate
  let dropIndexes := (droppedIndexes prev next).map fun i => .dropIndex i.id
  let dropTables := (onlyFirst (tablesByID prev) (tablesByID next)).map fun t => .dropTable t.id
  let alterTables ← (keptTables prev next).mapM fun (old, new) => getTableChanges old new tag
  let createTables ← (onlySecond (tablesByID prev) (tablesByID next)).mapM (createdTable tag)
  let createIndexes := (createdIndexes prev next).map .createIndex
  return dropIndexes ++ dropTables ++ alterTables.flatten ++ createTables ++ createIndexes

end ZeroSync.SchemaChanges
