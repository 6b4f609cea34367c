/-
`zqlite/query-builder.ts`: conditions as SQLite evaluates them, and the one by
which it finds where a fetch starts.

A condition is the tree of the text the source joins, with the values it
binds; `SQLQuery.eval` is what SQLite makes of it for a stored row, `none` for
`NULL`. An ordering without columns, of which the source makes no SQL that
can be read, has the empty tree.

What a row has in a `json` column is a value that `compareValues` takes;
arrays and objects, for which it throws, are left out.
-/
import ZeroSync.JSONText
import ZeroSync.Operator
import ZeroSync.SQLiteLike
import ZeroSync.ThreeValued

namespace ZeroSync.QueryBuilder

open ThreeValued (Truth)

/-! ## SQLite -/

/-- A value that is stored or bound. -/
inductive SQLValue
  | null
  | real (x : ℚ)
  | text (s : String)
  deriving DecidableEq

/-- How two values compare: not at all when one is `NULL`; a number is less than a text. -/
def SQLValue.compare : SQLValue → SQLValue → Option Ordering
  | .null, _ => none
  | _, .null => none
  | .real x, .real y => some (Ord.compare x y)
  | .real _, .text _ => some .lt
  | .text _, .real _ => some .gt
  | .text s, .text t => some (Ord.compare s t)

/-- A row of a table of the database. -/
abbrev StoredRow := String → SQLValue

inductive SQLOperator
  | eq | ne | lt | le | gt | ge | is | isNot
  deriving DecidableEq

def SQLOperator.apply (op : SQLOperator) (a b : SQLValue) : Truth :=
  match op with
  | .eq => (a.compare b).map (· = .eq)
  | .ne => (a.compare b).map (· ≠ .eq)
  | .lt => (a.compare b).map (· = .lt)
  | .le => (a.compare b).map (· ≠ .gt)
  | .gt => (a.compare b).map (· = .gt)
  | .ge => (a.compare b).map (· ≠ .lt)
  | .is => some (a = b)
  | .isNot => some (a ≠ b)

/-- `IN`: equality to one of the elements. -/
def SQLValue.isIn (v : SQLValue) (elements : List SQLValue) : Truth := ThreeValued.any (elements.map (SQLOperator.eq.apply v))

/-- `LIKE` with `ESCAPE '\'`. The texts it would take numbers for are left out. -/
def SQLValue.like : SQLValue → SQLValue → Truth
  | .text s, .text pattern => some (Like.likeMatch (Like.untilNul pattern) (Like.untilNul s))
  | _, _ => none

/-- A truth value, or under `NOT` the contrary. -/
def negate (negated : Bool) (b : Truth) : Truth := if negated then b.not else b

inductive SQLOperand
  /-- `sql.ident(name)` -/
  | ident (name : String)
  /-- A value in the place of a `?`. -/
  | value (v : SQLValue)
  /-- A function of texts, of an operand. -/
  | call (f : String → String) (operand : SQLOperand)

def SQLOperand.eval (row : StoredRow) : SQLOperand → SQLValue
  | .ident name => row name
  | .value v => v
  | .call f operand =>
    match operand.eval row with
    | .text s => .text (f s)
    | v => v

/-- `SQLQuery`, of a condition. -/
inductive SQLQuery
  /-- `TRUE`, `FALSE` -/
  | literal (b : Bool)
  | binary (left : SQLOperand) (op : SQLOperator) (right : SQLOperand)
  /-- `IN`, or `NOT IN`, and the values that a subquery selects. -/
  | isIn (left : SQLOperand) (negated : Bool) (elements : List SQLValue)
  | like (left : SQLOperand) (negated : Bool) (right : SQLOperand)
  /-- `(${sql.join(conditions, sql.AND)})` -/
  | and (conditions : List SQLQuery)
  | or (conditions : List SQLQuery)

mutual

def SQLQuery.eval (row : StoredRow) : SQLQuery → Truth
  | .literal b => some b
  | .binary left op right => op.apply (left.eval row) (right.eval row)
  | .isIn left negated elements => negate negated ((left.eval row).isIn elements)
  | .like left negated right => negate negated ((left.eval row).like (right.eval row))
  | .and conditions => ThreeValued.all (evals row conditions)
  | .or conditions => ThreeValued.any (evals row conditions)

def evals (row : StoredRow) : List SQLQuery → List Truth
  | [] => []
  | condition :: conditions => condition.eval row :: evals row conditions

end

theorem evals_eq_map (row : StoredRow) (conditions : List SQLQuery) :
    evals row conditions = conditions.map (SQLQuery.eval row) := by
  induction conditions with
  | nil => rfl
  | cons condition conditions ih => rw [evals, ih, List.map_cons]

@[simp] theorem eval_and_eq_true_iff {row : StoredRow} {conditions : List SQLQuery} :
    (SQLQuery.and conditions).eval row = some true ↔ ∀ c ∈ conditions, c.eval row = some true := by
  rw [SQLQuery.eval, ThreeValued.all_eq_true_iff, evals_eq_map, List.forall_mem_map]

@[simp] theorem eval_or_eq_true_iff {row : StoredRow} {conditions : List SQLQuery} :
    (SQLQuery.or conditions).eval row = some true ↔ ∃ c ∈ conditions, c.eval row = some true := by
  rw [SQLQuery.eval, ThreeValued.any_eq_true_iff, evals_eq_map, List.mem_map]

/-! ## Columns -/

/-- `ValueType`, with the type of JSON values. -/
inductive ValueType
  | boolean
  | number
  | string
  | null
  | json
  deriving DecidableEq

/-- `SchemaValue`. A column of type `null` has no other value, so it is optional. -/
structure SchemaValue where
  type : ValueType
  optional : Bool
  null_optional : type = .null → optional = true

/-- Whether a condition takes the value for true. -/
def truthy : Value → Bool
  | .undefined | .null => false
  | .bool b => b
  | .num n => n ≠ 0
  | .str s => s ≠ ""

/-- The value as the driver binds it, which refuses booleans: only a `boolean` column has any. -/
def bind : Value → SQLValue
  | .undefined | .null => .null
  | .bool b => .real (if b then 1 else 0)
  | .num n => .real n
  | .str s => .text s

/-- `Number.prototype.toString` -/
class NumberText where
  numberToString : ℚ → String

/-- `JSON.stringify` -/
def jsonText [NumberText] : Value → String
  | .undefined | .null => "null"
  | .bool b => if b then "true" else "false"
  | .num n => NumberText.numberToString n
  | .str s => .ofList (JSONText.quote s.toList)

/-- `toSQLiteType`. -/
def toSQLiteType [NumberText] (v : Value) (type : ValueType) : SQLValue :=
  match type with
  | .boolean => if v = .null then .null else .real (if truthy v then 1 else 0)
  | .number | .string | .null => bind v
  | .json => .text (jsonText v)

/-! ## `gatherStartConstraints` -/

/-- `'>' | '<'`. -/
inductive RangeOperator
  | gt
  | lt
  deriving DecidableEq

def RangeOperator.operator : RangeOperator → SQLOperator
  | .gt => .gt
  | .lt => .lt

def RangeOperator.inclusiveOperator : RangeOperator → SQLOperator
  | .gt => .ge
  | .lt => .le

/-- `nullableAwareEquality`. -/
def nullableAwareEquality (field : String) (value : SQLValue) (columnType : SchemaValue) : SQLQuery :=
  if value = .null then .binary (.ident field) .is (.value value)
  else if columnType.optional then .binary (.ident field) .is (.value value)
  else .binary (.ident field) .eq (.value value)

/-- `nullableAwareRangeComparison`. -/
def nullableAwareRangeComparison (field : String) (value : SQLValue) (operator : RangeOperator)
    (columnType : SchemaValue) : SQLQuery :=
  if value = .null then
    match operator with
    | .gt => .binary (.ident field) .isNot (.value .null)
    | .lt => .literal false
  else
    let comparison := .binary (.ident field) operator.operator (.value value)
    if ¬columnType.optional then comparison
    else
      match operator with
      | .gt => comparison
      | .lt => .or [.binary (.ident field) .is (.value .null), comparison]

/-- `sargableLeadingStartBound`. -/
def sargableLeadingStartBound (field : String) (value : SQLValue) (operator : RangeOperator)
    (columnType : SchemaValue) : Option SQLQuery :=
  if value = .null ∨ columnType.optional ∧ operator = .lt then none
  else some (.binary (.ident field) operator.inclusiveOperator (.value value))

/-- `operator`. -/
def rangeOperator (reverse : Bool) : Direction → RangeOperator
  | .asc => if reverse then .lt else .gt
  | .desc => if reverse then .gt else .lt

section
variable [NumberText] (start : Row) (reverse : Bool) (columnTypes : String → SchemaValue)

/-- `toSQLiteType(from[field] ?? null, columnType.type)` -/
def constraintValue (field : String) : SQLValue :=
  toSQLiteType (normalizeUndefined (start field)) (columnTypes field).type

/-- The condition on a column before the last of a group. -/
def equality (ord : String × Direction) : SQLQuery :=
  nullableAwareEquality ord.1 (constraintValue start columnTypes ord.1) (columnTypes ord.1)

/-- The condition on the last column of a group. -/
def range (ord : String × Direction) : SQLQuery :=
  nullableAwareRangeComparison ord.1 (constraintValue start columnTypes ord.1) (rangeOperator reverse ord.2)
    (columnTypes ord.1)

/-- The loop over the columns, of which those before have been seen: a group for each. -/
def groups (before : SortOrder) : SortOrder → List SQLQuery
  | [] => []
  | ord :: order =>
    .and (before.map (equality start columnTypes) ++ [range start reverse columnTypes ord]) ::
      groups (before ++ [ord]) order

/-- `leadingBound`. -/
def leadingBound : SortOrder → Option SQLQuery
  | [] => none
  | ord :: _ =>
    sargableLeadingStartBound ord.1 (constraintValue start columnTypes ord.1) (rangeOperator reverse ord.2)
      (columnTypes ord.1)

end

/-- `gatherStartConstraints`. -/
def gatherStartConstraints [NumberText] (start : Start) (reverse : Bool) (order : SortOrder)
    (columnTypes : String → SchemaValue) : SQLQuery :=
  let constraints := groups start.row reverse columnTypes [] order
  let constraints :=
    if start.basis = .at then constraints ++ [.and (order.map (equality start.row columnTypes))] else constraints
  let lexicographicStart := SQLQuery.or constraints
  match leadingBound start.row reverse columnTypes order with
  | none => lexicographicStart
  | some leadingBound => .and [leadingBound, lexicographicStart]

/-! ## Rows as they are stored and read -/

/-- What `fromSQLiteType` makes of a stored value. -/
inductive ReadAs [NumberText] : ValueType → SQLValue → Value → Prop
  | null (type : ValueType) : ReadAs type .null .null
  | boolean (b : Bool) : ReadAs .boolean (.real (if b then 1 else 0)) (.bool b)
  | number (n : ℚ) : ReadAs .number (.real n) (.num n)
  | string (s : String) : ReadAs .string (.text s) (.str s)
  /-- `JSON.parse` reads what `JSON.stringify` writes. -/
  | json {v : Value} (h : v ≠ .undefined) : ReadAs .json (.text (jsonText v)) v

/-- A stored row and the row it is read as; only optional columns hold `NULL`. -/
structure Stores [NumberText] (columnTypes : String → SchemaValue) (stored : StoredRow) (row : Row) : Prop where
  readAs : ∀ c, ReadAs (columnTypes c).type (stored c) (row c)
  notNull : ∀ c, (columnTypes c).optional = false → stored c ≠ .null

/-- Values of the type, or none. -/
def ValueType.admits : ValueType → Value → Bool
  | _, .undefined | _, .null => true
  | .boolean, .bool _ | .number, .num _ | .string, .str _ | .json, _ => true
  | _, _ => false

end ZeroSync.QueryBuilder
