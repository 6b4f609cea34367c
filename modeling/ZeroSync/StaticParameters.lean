/-
Queries with static parameters, how `zql/src/builder/builder.ts` binds them, and
the rules that are written in them.

These are the queries and rules before an `AST` is made of them: a value may be
a parameter, a field of the auth data or of the row before a mutation. A
JSON value of the auth data is what its property reads compute, with what a comparison
makes of the value itself.
-/
import ZeroSync.AST

namespace ZeroSync

/-- A `JSONValue` of the auth data. -/
inductive AuthValue
  | mk (value : LiteralValue) (property : String → Option AuthValue)

def AuthValue.value : AuthValue → LiteralValue
  | .mk value _ => value

/-- `value?.[field]`. -/
def AuthValue.property : AuthValue → String → Option AuthValue
  | .mk _ property => property

/-- The namespace of a parameter. -/
inductive Anchor
  | authData
  | preMutationRow
  deriving DecidableEq

/-- `StaticQueryParameters`. -/
abbrev StaticQueryParameters := Anchor → Option AuthValue

/-- `resolveField`. A field that is one name is a path of one. -/
def resolveField (anchor : Option AuthValue) (field : List String) : LiteralValue :=
  match field.foldl (fun acc f => acc.bind (AuthValue.property · f)) anchor with
  | none => .value .null
  | some v => v.value

namespace Unbound

/-- `ValuePosition`. -/
inductive ValuePosition
  | literal (value : LiteralValue)
  | column (name : String)
  | static (anchor : Anchor) (field : List String)

/-- `Exclude<ValuePosition, ColumnReference>`. -/
inductive RightPosition
  | literal (value : LiteralValue)
  | static (anchor : Anchor) (field : List String)

/-- `SimpleCondition`. -/
structure SimpleCondition where
  op : SimpleOperator
  left : ValuePosition
  right : RightPosition

mutual

/-- `AST`. -/
structure AST where
  schema : Option String
  table : String
  where_ : Option Condition
  related : Option (List CorrelatedSubquery)
  start : Option Bound
  limit : Option ℕ
  orderBy : Option SortOrder

/-- `CorrelatedSubquery`, with the alias of its subquery. -/
structure CorrelatedSubquery where
  correlation : Correlation
  alias_ : String
  subquery : AST

/-- `Condition`. -/
inductive Condition
  | simple (condition : SimpleCondition)
  | group (type : Connective) (conditions : List Condition)
  | correlatedSubquery (related : CorrelatedSubquery) (op : ExistsOperator) (flip scalar : Option Bool)

end

section
variable (params : StaticQueryParameters)

/-- `bindValue` of a left side. -/
def ValuePosition.bindValue : ValuePosition → ZeroSync.ValuePosition
  | .literal value => .literal value
  | .column name => .column name
  | .static anchor field => .literal (resolveField (params anchor) field)

/-- `bindValue` of a right side. -/
def RightPosition.bindValue : RightPosition → LiteralValue
  | .literal value => value
  | .static anchor field => resolveField (params anchor) field

mutual

/-- `visit` of `bindStaticParameters`. -/
def AST.visit : AST → ZeroSync.AST
  | { schema, table, where_, related, start, limit, orderBy } =>
    { schema, table, where_ := bindWhere where_, related := visitRelated related, start, limit, orderBy }

/-- `bindCondition` of a `where`. -/
def bindWhere : Option Condition → Option ZeroSync.Condition
  | none => none
  | some c => some c.bindCondition

/-- `bindCondition`. -/
def Condition.bindCondition : Condition → ZeroSync.Condition
  | .simple c => .simple { op := c.op, left := c.left.bindValue params, right := c.right.bindValue params }
  | .group type conditions => .group type (bindConditions conditions)
  | .correlatedSubquery related op flip scalar => .correlatedSubquery related.visit op flip scalar

/-- `conditions.map(bindCondition)`. -/
def bindConditions : List Condition → List ZeroSync.Condition
  | [] => []
  | c :: conditions => c.bindCondition :: bindConditions conditions

/-- A subquery after a visit. -/
def CorrelatedSubquery.visit : CorrelatedSubquery → ZeroSync.CorrelatedSubquery
  | { correlation, alias_, subquery } => { correlation, alias_, subquery := subquery.visit }

/-- `related?.map`. -/
def visitRelated : Option (List CorrelatedSubquery) → Option (List ZeroSync.CorrelatedSubquery)
  | none => none
  | some related => some (visitEach related)

def visitEach : List CorrelatedSubquery → List ZeroSync.CorrelatedSubquery
  | [] => []
  | r :: related => r.visit :: visitEach related

end

end

end Unbound

/-- `bindStaticParameters`. -/
def bindStaticParameters (ast : Unbound.AST) (params : StaticQueryParameters) : AST := ast.visit params

/-! ## `compiled-permissions.ts` -/

/-- `Policy`: the conditions of its rules. -/
abbrev Policy := List Unbound.Condition

/-- `update` of `AssetPermissions`. -/
structure UpdatePolicies where
  preMutation : Option Policy
  postMutation : Option Policy

/-- `AssetPermissions`. -/
structure AssetPermissions where
  select : Option Policy
  insert : Option Policy
  update : Option UpdatePolicies
  delete : Option Policy

/-- The permissions of a table; those of its cells by column. -/
structure TablePermissions where
  row : Option AssetPermissions
  cell : List (String × AssetPermissions)

/-- `PermissionsConfig`. -/
abbrev PermissionsConfig := String → Option TablePermissions

end ZeroSync
