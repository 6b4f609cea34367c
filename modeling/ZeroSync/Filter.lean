/-
`zql/src/builder/filter.ts`: the predicate of a condition without subqueries.

`getLikePredicate` (`like.ts`) is a parameter: the pattern, whether case is
ignored, and the value. Where the source throws for the types of the two
sides (a list where `IN` needs none or has none), the predicate is false.
-/
import ZeroSync.AST

namespace ZeroSync

namespace LiteralValue

/-- `lhs === rhs`: two lists are two objects. -/
def same : LiteralValue → LiteralValue → Bool
  | .value lhs, .value rhs => lhs = rhs
  | _, _ => false

/-- `value === null || value === undefined`. -/
def isNullish : LiteralValue → Bool
  | .value .undefined | .value .null => true
  | _ => false

end LiteralValue

/-- `createIsPredicate`. -/
def createIsPredicate (rhs : LiteralValue) (op : SimpleOperator) (lhs : LiteralValue) : Bool :=
  match op with
  | .isNot => !lhs.same rhs
  | _ => lhs.same rhs

section
variable (getLikePredicate : Value → Bool → Value → Bool)

/-- `createPredicateImpl`. -/
def createPredicateImpl (rhs : LiteralValue) (op : SimpleOperator) (lhs : LiteralValue) : Bool :=
  match op, lhs, rhs with
  | .eq, lhs, rhs => lhs.same rhs
  | .ne, lhs, rhs => !lhs.same rhs
  | .lt, .value lhs, .value rhs => compareValues lhs rhs = .lt
  | .le, .value lhs, .value rhs => compareValues lhs rhs ≠ .gt
  | .gt, .value lhs, .value rhs => compareValues lhs rhs = .gt
  | .ge, .value lhs, .value rhs => compareValues lhs rhs ≠ .lt
  | .like, .value lhs, .value rhs => getLikePredicate rhs false lhs
  | .notLike, .value lhs, .value rhs => !getLikePredicate rhs false lhs
  | .ilike, .value lhs, .value rhs => getLikePredicate rhs true lhs
  | .notIlike, .value lhs, .value rhs => !getLikePredicate rhs true lhs
  | .in, lhs, .array rhs => rhs.any fun v => lhs.same (.value v)
  | .notIn, lhs, .array rhs => !rhs.any fun v => lhs.same (.value v)
  | _, _, _ => false

/-- What stands at a position, for a row. -/
def ValuePosition.read (row : Row) : ValuePosition → LiteralValue
  | .literal value => value
  | .column name => .value (row name)

/-- `createPredicate` of a simple condition. -/
def SimpleCondition.createPredicate (c : SimpleCondition) (row : Row) : Bool :=
  let lhs := c.left.read row
  if c.op = .is ∨ c.op = .isNot then createIsPredicate c.right c.op lhs
  else !c.right.isNullish && !lhs.isNullish && createPredicateImpl getLikePredicate c.right c.op lhs

end

end ZeroSync
