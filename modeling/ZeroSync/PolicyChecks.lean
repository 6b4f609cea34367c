/-
The checks of `zero-cache/src/auth/write-authorizer.ts`, and the two calls that
`processMutationWithTx` starts: `canPreMutation` and `canPostMutation`, over one
SQLite connection.

A call runs up to the `await` of a check's outcome; then it waits to be resumed.
Both are started before either is resumed, `canPreMutation` first, and from
then on they are resumed in any order. What each check reads is what the
connection has at that moment. That `buildPipeline` throws for some queries
(`NOT EXISTS` is not enabled) is up to `buildable`.
-/
import ZeroSync.SimplifyCondition
import ZeroSync.WriteAuthorizer

namespace ZeroSync

/-- `Phase`. -/
inductive Phase
  | preMutation
  | postMutation
  deriving DecidableEq

/-- The policy of a row, or of a cell, for an op in a phase. -/
def applicablePolicy (policies : AssetPermissions) (phase : Phase) (op : NormalizedKind) : Option Policy :=
  match op, phase with
  | .insert, .postMutation => policies.insert
  | .update, .preMutation => policies.update.bind UpdatePolicies.preMutation
  | .update, .postMutation => policies.update.bind UpdatePolicies.postMutation
  | .delete, .preMutation => policies.delete
  | _, _ => none

/-- `applicableCellPolicies`: those of the cells that an update leaves are not checked. -/
def applicableCellPolicies (cell : List (String × AssetPermissions)) (phase : Phase) (op : NormalizedOp) : List Policy :=
  cell.filterMap fun (column, policies) =>
    if op.op = .update ∧ op.value column = .undefined then none else applicablePolicy policies phase op.op

/-- One call of `#passesPolicy`, for an op. -/
structure PolicyCheck where
  op : NormalizedOp
  policy : Option Policy

/-- The calls of `#passesPolicy` that `#canDo` makes for an op, while they pass. -/
def policyChecks (permissions : PermissionsConfig) (phase : Phase) (op : NormalizedOp) : List PolicyCheck :=
  let rules := permissions op.tableName
  let rowPolicy := rules.bind TablePermissions.row |>.bind (applicablePolicy · phase op.op)
  let cellPolicies := applicableCellPolicies ((rules.map TablePermissions.cell).getD []) phase op
  ⟨op, rowPolicy⟩ :: cellPolicies.map fun policy => ⟨op, some policy⟩

/-- The checks of `canPreMutation`: none for an insert. -/
def preMutationChecks (permissions : PermissionsConfig) (ops : List NormalizedOp) : List PolicyCheck :=
  ops.flatMap fun op => if op.op = .insert then [] else policyChecks permissions .preMutation op

/-- The checks of `canPostMutation`: none for a delete. -/
def postMutationChecks (permissions : PermissionsConfig) (ops : List NormalizedOp) : List PolicyCheck :=
  ops.flatMap fun op => if op.op = .delete then [] else policyChecks permissions .postMutation op

/-- `rowQuery.where(pk, '=', primaryKeyValues[pk])` for each column of the key. -/
def rowQueryWhere (spec : TableSpec) (value : Row) : Unbound.Condition :=
  Unbound.simplifyCondition (.group .and (spec.primaryKey.map fun pk =>
    .simple { op := .eq, left := .column pk, right := .literal (.value (normalizeUndefined (value pk))) }))

/-- `updateWhere`. -/
def updateWhere (where_ : Unbound.Condition) (policy : Policy) : Unbound.Condition :=
  Unbound.simplifyCondition (.group .and [where_, .group .or policy])

/-- What a check throws: what the authorizer throws, or `buildPipeline`. -/
inductive CheckError
  | authorizer (e : AuthorizerError)
  | build
  deriving DecidableEq

/-- A call of `canPreMutation` or `canPostMutation`: the checks it is still to make, or how it ended. -/
inductive AuthorizeCall
  | awaiting (checks : List PolicyCheck)
  | returned (allowed : Bool)
  | threw (e : CheckError)

/-- The call has settled. -/
def AuthorizeCall.settled : AuthorizeCall → Bool
  | .awaiting _ => false
  | _ => true

/-- What an authorization goes by: the authorizer with its permissions, the auth data. -/
structure Authorization where
  authorizer : WriteAuthorizer
  permissions : PermissionsConfig
  authData : Option AuthValue
  getLikePredicate : Value → Bool → Value → Bool
  buildable : AST → Bool

namespace Authorization

variable (env : Authorization)

/-- The parameters of a policy. -/
def parameters : StaticQueryParameters
  | .authData => env.authData
  | .preMutationRow => none

/-- The query of a policy. -/
def policyQuery (spec : TableSpec) (op : NormalizedOp) (policy : Policy) : AST :=
  bindStaticParameters
    { schema := none, table := op.tableName, where_ := some (updateWhere (rowQueryWhere spec op.value) policy)
      related := none, start := none, limit := none, orderBy := none } env.parameters

/-- `#passesPolicy`, with the key of the row query. -/
def passesPolicy (db : Database) (check : PolicyCheck) : Except CheckError Bool :=
  match env.authorizer.tableSpecs check.op.tableName with
  | none => .error (.authorizer .tableNotFound)
  | some spec =>
    match WriteAuthorizer.getPrimaryKey spec check.op.value, check.policy with
    | .error e, _ => .error (.authorizer e)
    | .ok _, none | .ok _, some [] => .ok false
    | .ok _, some policy =>
      let query := env.policyQuery spec check.op policy
      if env.buildable query then .ok !(query.rows env.getLikePredicate db fun _ => true).isEmpty
      else .error .build

/-- A call goes on to the outcome of its next check, or returns. -/
def proceed (db : Database) : AuthorizeCall → AuthorizeCall
  | .awaiting [] => .returned true
  | .awaiting (check :: checks) =>
    match env.passesPolicy db check with
    | .error e => .threw e
    | .ok false => .returned false
    | .ok true => .awaiting checks
  | call => call

end Authorization

/-- The two calls, and what their connection reads. -/
structure AuthorizeRun where
  db : Database
  canPre : AuthorizeCall
  canPost : AuthorizeCall

/-- Which call is resumed. -/
inductive Resumed
  | canPre
  | canPost
  deriving DecidableEq

namespace Authorization

variable (env : Authorization)

/-- The transaction of `canPostMutation` is rolled back when the call settles. -/
def rollback (replica : Database) (s : AuthorizeRun) : AuthorizeRun :=
  if s.canPost.settled then { s with db := replica } else s

/-- The calls are started: `canPreMutation` runs to its first `await`, then
`canPostMutation` begins its transaction, pushes the ops and does so as well. -/
def start (replica : Database) (ops : List NormalizedOp) : AuthorizeRun :=
  let canPre := env.proceed replica (.awaiting (preMutationChecks env.permissions ops))
  match env.authorizer.pushOps replica ops with
  | .error e => { db := replica, canPre, canPost := .threw (.authorizer e) }
  | .ok db =>
    rollback replica { db, canPre, canPost := env.proceed db (.awaiting (postMutationChecks env.permissions ops)) }

/-- One of the calls is resumed. -/
def resume (replica : Database) (s : AuthorizeRun) : Resumed → AuthorizeRun
  | .canPre => { s with canPre := env.proceed s.db s.canPre }
  | .canPost => rollback replica { s with canPost := env.proceed s.db s.canPost }

/-- The calls after they were resumed in some order. -/
def run (replica : Database) (ops : List NormalizedOp) (order : List Resumed) : AuthorizeRun :=
  order.foldl (env.resume replica) (env.start replica ops)

end Authorization

/-- `canPre && canPost`. -/
def AuthorizeRun.allowed (s : AuthorizeRun) : Bool :=
  match s.canPre, s.canPost with
  | .returned canPre, .returned canPost => canPre && canPost
  | _, _ => false

/-- Both calls have settled. -/
def AuthorizeRun.settled (s : AuthorizeRun) : Bool := s.canPre.settled && s.canPost.settled

end ZeroSync
