/-
`zero-cache/src/auth/write-authorizer.ts`: how a mutation's ops are normalized,
and pushed into the table sources for the checks after it.

The pre-mutation row is looked up by the values of the key as they were sent;
which of them the SQLite driver takes as parameters is `bindable`. No pipeline
is connected to the sources when the ops are pushed. Policies are left to
`PolicyChecks`.
-/
import ZeroSync.CRUD

namespace ZeroSync

/-- `WriteAuthorizerImpl`: its table specs. -/
structure WriteAuthorizer where
  tableSpecs : SourceSpecs
  bindable : Value → Bool

/-- What the authorizer throws. -/
inductive AuthorizerError
  /-- "Table .. not found" -/
  | tableNotFound
  /-- "Primary key column .. is missing from operation value for table .." -/
  | keyMissing (column : String)
  /-- A key that `primaryKeyValueSchema` refuses. -/
  | invalidKey
  /-- A key that the driver refuses. -/
  | unbindable
  /-- "Pre-mutation row not found for .." -/
  | rowNotFound
  | source (e : SourceError)
  deriving DecidableEq

/-- What a source throws the authorizer throws. -/
def sourceResult {α : Type} : Except SourceError α → Except AuthorizerError α
  | .error e => .error (.source e)
  | .ok a => .ok a

namespace WriteAuthorizer

variable (auth : WriteAuthorizer)

/-- `this.#tableSpecs.get(tableName)`. -/
def tableSpec (tableName : String) : Except AuthorizerError TableSpec :=
  match auth.tableSpecs tableName with
  | none => .error .tableNotFound
  | some spec => .ok spec

/-- `#getPrimaryKey`. -/
def getPrimaryKey (spec : TableSpec) (value : Row) : Except AuthorizerError Row :=
  match spec.primaryKey.find? fun c => value c = .undefined with
  | some c => .error (.keyMissing c)
  | none => .ok (selectColumns spec.primaryKey value)

/-- The parameters of the `SELECT`. -/
def bindKey (spec : TableSpec) (key : Row) : Except AuthorizerError Unit :=
  if spec.primaryKey.any fun c => key c = .null then .error .invalidKey
  else if spec.primaryKey.any fun c => !auth.bindable (key c) then .error .unbindable
  else .ok ()

/-- `#getPreMutationRow`. -/
def getPreMutationRow (db : Database) (tableName : String) (value : Row) : Except AuthorizerError (Option Row) := do
  let spec ← auth.tableSpec tableName
  let key ← getPrimaryKey spec value
  auth.bindKey spec key
  return ((db tableName).find? fun row => sqlMatches spec.primaryKey row key).map (selectColumns spec.columns)

/-- `#requirePreMutationRow`. -/
def requirePreMutationRow (db : Database) (tableName : String) (value : Row) : Except AuthorizerError Row := do
  match ← auth.getPreMutationRow db tableName value with
  | none => .error .rowNotFound
  | some row => .ok row

/-- One op of `normalizeOps`. -/
def normalizeOp (db : Database) (op : CRUDOp) : Except AuthorizerError NormalizedOp :=
  match op.op with
  | .upsert => do
    match ← auth.getPreMutationRow db op.tableName op.value with
    | some _ => .ok { op with op := .update }
    | none => .ok { op with op := .insert }
  | .insert => .ok { op with op := .insert }
  | .update => .ok { op with op := .update }
  | .delete => .ok { op with op := .delete }

/-- `normalizeOps`. -/
def normalizeOps (db : Database) (ops : List CRUDOp) : Except AuthorizerError (List NormalizedOp) :=
  ops.mapM (auth.normalizeOp db)

/-- The change of an op. -/
def changeOf (db : Database) (op : NormalizedOp) : Except AuthorizerError SourceChange :=
  match op.op with
  | .insert => .ok (.add op.value)
  | .update => do return .edit op.value (← auth.requirePreMutationRow db op.tableName op.value)
  | .delete => do return .remove (← auth.requirePreMutationRow db op.tableName op.value)

/-- An op is pushed into the source of its table. -/
def pushOp (db : Database) (op : NormalizedOp) : Except AuthorizerError Database := do
  let spec ← auth.tableSpec op.tableName
  let change ← auth.changeOf db op
  let rows ← sourceResult (TableSource.push { spec, splitEditKeys := [] } (db op.tableName) change)
  return Function.update db op.tableName rows

/-- The ops of `canPostMutation` pushed, before its checks. -/
def pushOps (db : Database) (ops : List NormalizedOp) : Except AuthorizerError Database := ops.foldlM auth.pushOp db

/-- The database that the checks after a mutation read. -/
def simulate (db : Database) (ops : List CRUDOp) : Except AuthorizerError Database := do
  let normalizedOps ← auth.normalizeOps db ops
  auth.pushOps db normalizedOps

end WriteAuthorizer

end ZeroSync
