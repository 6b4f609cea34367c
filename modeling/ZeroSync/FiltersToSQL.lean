/-
`filtersToSQL` of `zqlite/query-builder.ts`, and the LIKE of `like.ts` as
`createPredicate` takes it.

The elements of an `IN` are the literals that `json_each` reads back from
their text. `lower()` and the LIKE that ignores case are parameters.
-/
import ZeroSync.CreatePredicate
import ZeroSync.QueryBuilder

namespace ZeroSync.QueryBuilder

/-- `getJsType`. -/
def getJsType : Value → ValueType
  | .undefined => .json
  | .null => .null
  | .bool _ => .boolean
  | .num _ => .number
  | .str _ => .string

/-- `JSON.stringify` of a list. -/
def arrayText [NumberText] (vs : List Value) : String := "[" ++ ",".intercalate (vs.map jsonText) ++ "]"

/-- `valuePositionToSQL` of a literal. -/
def literalToSQL [NumberText] : LiteralValue → SQLValue
  | .value v => toSQLiteType v (getJsType v)
  | .array vs => .text (arrayText vs)

/-- `valuePositionToSQL`. -/
def valuePositionToSQL [NumberText] : ValuePosition → SQLOperand
  | .column name => .ident name
  | .literal value => .value (literalToSQL value)

/-- `SELECT value FROM json_each(?)`, for the text of a literal. A boolean is read as a number. -/
def jsonEach : LiteralValue → List SQLValue
  | .value v => [bind v]
  | .array vs => vs.map bind

section
variable [NumberText] (lower : String → String)

/-- `likeConditionToSQL`. -/
def likeConditionToSQL (filter : SimpleCondition) : SQLQuery :=
  let caseInsensitive := filter.op = .ilike ∨ filter.op = .notIlike
  let negated := filter.op = .notLike ∨ filter.op = .notIlike
  let left := valuePositionToSQL filter.left
  let right := valuePositionToSQL (.literal filter.right)
  if caseInsensitive then .like (.call lower left) negated (.call lower right)
  else .like left negated right

/-- `simpleConditionToSQL`. -/
def simpleConditionToSQL (filter : SimpleCondition) : SQLQuery :=
  let left := valuePositionToSQL filter.left
  let right := valuePositionToSQL (.literal filter.right)
  match filter.op with
  | .in => .isIn left false (jsonEach filter.right)
  | .notIn => .isIn left true (jsonEach filter.right)
  | .like | .notLike | .ilike | .notIlike => likeConditionToSQL lower filter
  | .eq => .binary left .eq right
  | .ne => .binary left .ne right
  | .is => .binary left .is right
  | .isNot => .binary left .isNot right
  | .lt => .binary left .lt right
  | .gt => .binary left .gt right
  | .le => .binary left .le right
  | .ge => .binary left .ge right

mutual

/-- `filtersToSQL`. -/
def filtersToSQL : NoSubqueryCondition → SQLQuery
  | .simple c => simpleConditionToSQL lower c
  | .group .and conditions => if conditions = [] then .literal true else .and (conditionsToSQL conditions)
  | .group .or conditions => if conditions = [] then .literal false else .or (conditionsToSQL conditions)

/-- `filters.conditions.map(condition => filtersToSQL(condition))` -/
def conditionsToSQL : List NoSubqueryCondition → List SQLQuery
  | [] => []
  | condition :: conditions => filtersToSQL condition :: conditionsToSQL conditions

end

end

/-! ## The predicate -/

/-- `String(value)` -/
def stringOf [NumberText] : LiteralValue → String
  | .value .undefined => "undefined"
  | .value .null => "null"
  | .value (.bool b) => if b then "true" else "false"
  | .value (.num n) => NumberText.numberToString n
  | .value (.str s) => s
  | .array vs => ",".intercalate (vs.map elementText)
where
  /-- A list leaves `null` and `undefined` out. -/
  elementText : Value → String
    | .undefined | .null => ""
    | .bool b => if b then "true" else "false"
    | .num n => NumberText.numberToString n
    | .str s => s

/-- `getLikePredicate` without the flag `i`. The text of a pattern is always one that `new RegExp` reads. -/
def likePredicate [NumberText] (pattern : LiteralValue) :
    Except PredicateError (LiteralValue → Except PredicateError Bool) :=
  match Like.getLikePredicate (Like.units (stringOf pattern).toList) with
  | .error _ => .error .likePattern
  | .ok op =>
    .ok fun
      | .value (.str lhs) => .ok (op (Like.units lhs.toList))
      | _ => .error .notAString

/-- `getLikePredicate`. -/
def getLikePredicate [NumberText]
    (ignoreCase : LiteralValue → Except PredicateError (LiteralValue → Except PredicateError Bool))
    (pattern : LiteralValue) (i : Bool) : Except PredicateError (LiteralValue → Except PredicateError Bool) :=
  if i then ignoreCase pattern else likePredicate pattern

/-! ## Conditions whose literals are of the types of the columns -/

mutual

/-- The simple conditions of a condition. -/
def leaves : NoSubqueryCondition → List SimpleCondition
  | .simple c => [c]
  | .group _ conditions => leavesOf conditions

def leavesOf : List NoSubqueryCondition → List SimpleCondition
  | [] => []
  | condition :: conditions => leaves condition ++ leavesOf conditions

end

/-- A literal of the type. No literal but `null` is of type `json`. -/
def ValueType.literal : ValueType → Value → Bool
  | _, .null | .boolean, .bool _ | .number, .num _ | .string, .str _ => true
  | _, _ => false

/-- What stands on the left has the type; `null` has every type. -/
def leftHasType (columnTypes : String → SchemaValue) (type : ValueType) : ValuePosition → Bool
  | .column name => (columnTypes name).type = type
  | .literal (.value v) => type.literal v
  | .literal (.array _) => false

/-- What stands on the right of an operator, for a type. -/
def rightHasType (type : ValueType) (op : SimpleOperator) (right : LiteralValue) : Bool :=
  match op, right with
  | .ilike, _ | .notIlike, _ => false
  | _, .value .null => true
  | .in, .array vs | .notIn, .array vs => vs.all fun v => v ≠ .null ∧ type.literal v
  | .in, .value _ | .notIn, .value _ => false
  | .like, .value v | .notLike, .value v => type = .string ∧ type.literal v
  | _, .value v => type.literal v
  | _, .array _ => false

/-- The operands are of one type, and the operator is not `ILIKE` or `NOT ILIKE`. -/
def WellTyped (columnTypes : String → SchemaValue) (c : SimpleCondition) : Prop :=
  ∃ type, leftHasType columnTypes type c.left = true ∧ rightHasType type c.op c.right = true

/-! ## Conditions that mean the same to both -/

/-- The pattern has no NUL and does not end in an escape. -/
def PlainPattern (pattern : String) : Prop :=
  '\x00' ∉ pattern.toList ∧ Like.endsInEscape (Like.units pattern.toList) = false

/-- The string has no NUL, and where the pattern has a `_` that is not escaped, each of its characters is one code
unit. -/
def PlainFor (pattern s : String) : Prop :=
  '\x00' ∉ s.toList ∧ (Like.hasUnderscore pattern.toList = true → ∀ c ∈ s.toList, Like.IsUnit c)

/-- What a condition must not ask of a row: whether `null` is in none of no values; a pattern that `LIKE` does not read
alike; and whether a JSON `null` that is stored as a text is `null`. -/
def Portable (stored : StoredRow) (row : Row) (c : SimpleCondition) : Prop :=
  match c.op, c.right with
  | .notIn, .array vs => vs = [] → (c.left.read row).isNullish = false
  | .like, .value (.str pattern) | .notLike, .value (.str pattern) =>
    PlainPattern pattern ∧ ∀ s, c.left.read row = .value (.str s) → PlainFor pattern s
  | .is, .value .null | .isNot, .value .null => ∀ name, c.left = .column name → row name = .null → stored name = .null
  | _, _ => True

end ZeroSync.QueryBuilder
