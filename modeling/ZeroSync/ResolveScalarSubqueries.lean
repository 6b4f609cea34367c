/-
`zqlite/resolve-scalar-subqueries.ts`: subqueries with the `scalar` hint that
can only have one row are run, and their condition is replaced by a comparison
with the value they give.

What the recursion pushes to `companions` and `ignoredScalarHints` it returns
here, in the order of the pushes. The unique keys of a table are all that is
read of its spec.
-/
import ZeroSync.AST
import ZeroSync.Filter

namespace ZeroSync

/-- `tableSpecs`: the unique keys of each table. -/
abbrev TableSpecs := String → Option (List (List String))

/-- `CompanionSubquery`. -/
structure CompanionSubquery where
  ast : AST
  childField : String
  resolvedValue : LiteralValue

/-- `IgnoredScalarHint`. -/
structure IgnoredScalarHint where
  table : String
  uniqueKeys : List (List String)

/-- `Out`. -/
structure Out where
  companions : List CompanionSubquery := []
  ignoredScalarHints : List IgnoredScalarHint := []

/-- One after the other. -/
def Out.append (a b : Out) : Out := ⟨a.companions ++ b.companions, a.ignoredScalarHints ++ b.ignoredScalarHints⟩

/-! ## `isSimpleSubquery` -/

mutual

/-- `collectConstraints`. -/
def collectConstraints : Condition → OrderedMap String LiteralValue → OrderedMap String LiteralValue
  | .simple { op := .eq, left := .column name, right }, constraints => constraints.set name right
  | .group .and conditions, constraints => collectAll conditions constraints
  | _, constraints => constraints

/-- The loop over the members of a conjunction. -/
def collectAll : List Condition → OrderedMap String LiteralValue → OrderedMap String LiteralValue
  | [], constraints => constraints
  | c :: conditions, constraints => collectAll conditions (collectConstraints c constraints)

end

/-- `extractLiteralEqualityConstraints`. -/
def extractLiteralEqualityConstraints (condition : Condition) : OrderedMap String LiteralValue :=
  collectConstraints condition ∅

section
variable (tableSpecs : TableSpecs)

/-- `isSimpleSubquery`. -/
def isSimpleSubquery (subquery : AST) : Bool :=
  match tableSpecs subquery.table, subquery.where_ with
  | some uniqueKeys, some where_ =>
    let constraints := extractLiteralEqualityConstraints where_
    if constraints.entries.isEmpty then false
    else uniqueKeys.any fun key => key.all fun col => (constraints.get? col).isSome
  | _, _ => false

/-! ## The recursion -/

/-- `ALWAYS_FALSE`. -/
def alwaysFalse : Condition := .simple ⟨.eq, .literal (.value (.num 1)), .value (.num 0)⟩

/-- `ALWAYS_TRUE`. -/
def alwaysTrue : Condition := .simple ⟨.eq, .literal (.value (.num 1)), .value (.num 1)⟩

variable (execute : AST → String → LiteralValue)

/-- `parentField[0]`. -/
def Correlation.parentColumn (c : Correlation) : String := c.parentField.head c.nonempty

/-- `childField[0]`. -/
def Correlation.childColumn (c : Correlation) : String :=
  c.childField.head (List.ne_nil_of_length_pos (c.length_eq ▸ List.length_pos_of_ne_nil c.nonempty))

/-- `resolveScalarSubquery`, its subquery resolved. -/
def resolveScalarSubquery (related : CorrelatedSubquery) (op : ExistsOperator) (flip scalar : Option Bool) :
    Condition × Out :=
  let subquery := related.subquery
  if isSimpleSubquery tableSpecs subquery then
    let value := execute subquery related.correlation.childColumn
    let out := { companions := [⟨subquery, related.correlation.childColumn, value⟩] }
    if value.isNullish then (if op = .exists then alwaysFalse else alwaysTrue, out)
    else (.simple ⟨if op = .exists then .eq else .isNot, .column related.correlation.parentColumn, value⟩, out)
  else
    (.correlatedSubquery related op flip scalar,
      { ignoredScalarHints := [⟨subquery.table, (tableSpecs subquery.table).getD []⟩] })

mutual

/-- `resolveASTRecursive`. -/
def resolveASTRecursive : AST → AST × Out
  | { schema, table, where_, related, start, limit, orderBy } =>
    let (where_, out) := resolveWhere where_
    let (related, out') := resolveRelated related
    ({ schema, table, where_, related, start, limit, orderBy }, out.append out')

def resolveWhere : Option Condition → Option Condition × Out
  | none => (none, {})
  | some c =>
    let (c, out) := resolveCondition c
    (some c, out)

/-- `resolveCondition`. -/
def resolveCondition : Condition → Condition × Out
  | .simple c => (.simple c, {})
  | .correlatedSubquery related op flip scalar =>
    let (related, out) := resolveSubquery related
    if scalar = some true then
      let (condition, out') := resolveScalarSubquery tableSpecs execute related op flip scalar
      (condition, out.append out')
    else (.correlatedSubquery related op flip scalar, out)
  | .group type conditions =>
    let (conditions, out) := resolveConditions conditions
    (.group type conditions, out)

def resolveConditions : List Condition → List Condition × Out
  | [] => ([], {})
  | c :: conditions =>
    let (c, out) := resolveCondition c
    let (conditions, out') := resolveConditions conditions
    (c :: conditions, out.append out')

/-- A correlated subquery, its subquery resolved. -/
def resolveSubquery : CorrelatedSubquery → CorrelatedSubquery × Out
  | { correlation, alias_, subquery } =>
    let (subquery, out) := resolveASTRecursive subquery
    ({ correlation, alias_, subquery }, out)

def resolveRelated : Option (List CorrelatedSubquery) → Option (List CorrelatedSubquery) × Out
  | none => (none, {})
  | some related =>
    let (related, out) := resolveEach related
    (some related, out)

def resolveEach : List CorrelatedSubquery → List CorrelatedSubquery × Out
  | [] => ([], {})
  | r :: related =>
    let (r, out) := resolveSubquery r
    let (related, out') := resolveEach related
    (r :: related, out.append out')

end

/-- `ResolveResult`. -/
structure ResolveResult where
  ast : AST
  out : Out

/-- `resolveSimpleScalarSubqueries`. -/
def resolveSimpleScalarSubqueries (ast : AST) : ResolveResult :=
  let (ast, out) := resolveASTRecursive tableSpecs execute ast
  ⟨ast, out⟩

end

end ZeroSync
