/-
`zero-protocol/src/ast.ts`: queries.

An AST here is one that a pipeline is built from or that is normalized:
parameters are resolved to literals, and subqueries have an alias. What only
the planner or the views read (`hidden`, `system`, plan ids) is left out.
-/
import ZeroSync.Data

namespace ZeroSync

/-- `LiteralValue`. -/
inductive LiteralValue
  | value (v : Value)
  | array (vs : List Value)
  deriving DecidableEq

/-- `ValuePosition`. -/
inductive ValuePosition
  | literal (value : LiteralValue)
  | column (name : String)
  deriving DecidableEq

/-- `SimpleOperator`. -/
inductive SimpleOperator
  | eq | ne | is | isNot | lt | gt | le | ge
  | like | notLike | ilike | notIlike | in | notIn
  deriving DecidableEq

/-- The text of an operator. -/
def SimpleOperator.text : SimpleOperator → String
  | .eq => "=" | .ne => "!=" | .is => "IS" | .isNot => "IS NOT"
  | .lt => "<" | .gt => ">" | .le => "<=" | .ge => ">="
  | .like => "LIKE" | .notLike => "NOT LIKE" | .ilike => "ILIKE" | .notIlike => "NOT ILIKE"
  | .in => "IN" | .notIn => "NOT IN"

/-- `SimpleCondition`. The right side is no column. -/
structure SimpleCondition where
  op : SimpleOperator
  left : ValuePosition
  right : LiteralValue
  deriving DecidableEq

/-- `Correlation`: the columns of two compound keys, one by one. -/
structure Correlation where
  parentField : List String
  childField : List String
  nonempty : parentField ≠ []
  length_eq : childField.length = parentField.length
  deriving DecidableEq

/-- `Bound`. -/
structure Bound where
  row : Row
  exclusive : Bool

/-- The type of a `Conjunction` or `Disjunction`. -/
inductive Connective
  | and
  | or
  deriving DecidableEq

/-- `'and' | 'or'`. -/
def Connective.text : Connective → String
  | .and => "and"
  | .or => "or"

/-- `CorrelatedSubqueryConditionOperator`. -/
inductive ExistsOperator
  | exists
  | notExists
  deriving DecidableEq

/-- `'EXISTS' | 'NOT EXISTS'`. -/
def ExistsOperator.text : ExistsOperator → String
  | .exists => "EXISTS"
  | .notExists => "NOT EXISTS"

mutual

/-- `AST`. -/
structure AST where
  schema : Option String
  table : String
  where_ : Option Condition
  related : Option (List CorrelatedSubquery)
  start : Option Bound
  limit : Option ℕ
  orderBy : Option SortOrder

/-- `CorrelatedSubquery`, with the alias of its subquery. -/
structure CorrelatedSubquery where
  correlation : Correlation
  alias_ : String
  subquery : AST

/-- `Condition`. -/
inductive Condition
  | simple (condition : SimpleCondition)
  | group (type : Connective) (conditions : List Condition)
  | correlatedSubquery (related : CorrelatedSubquery) (op : ExistsOperator) (flip scalar : Option Bool)

end

end ZeroSync
