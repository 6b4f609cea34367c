/-
What a query selects from a database: the meaning that `zql/src/builder` gives
an AST, without the pipelines that keep it up to date.

Conditions mean what `createPredicate` makes of them, an empty conjunction is
true and an empty disjunction false; `EXISTS` asks for a row of the subquery
that is correlated with the row at hand. A query's rows are those of its table
that satisfy its condition, in its order, from its start, up to its limit,
each with the rows of its related queries by alias. Of two related queries
with one alias the last counts.
-/
import Mathlib.Data.List.Basic
import ZeroSync.Filter
import ZeroSync.JoinUtils

namespace ZeroSync

/-- The tables of a database. -/
abbrev Database := String → List Row

/-- A selected row with its related rows. -/
inductive Selected
  | mk (row : Row) (related : String → Option (List Selected))

/-- `shouldBePresent` of `Skip`: the row is not before the start. -/
def Bound.admits (b : Bound) (orderBy : Option SortOrder) (row : Row) : Bool :=
  match makeComparator (orderBy.getD []) b.row row with
  | .lt => true
  | .eq => !b.exclusive
  | .gt => false

/-- The rows in the order a query asks for. -/
def sortRows (orderBy : Option SortOrder) (rows : List Row) : List Row :=
  rows.mergeSort fun a b => makeComparator (orderBy.getD []) a b ≠ .gt

/-- The rows of a query, of those of its table that satisfy its condition. -/
def cut (orderBy : Option SortOrder) (start : Option Bound) (limit : Option ℕ) (rows : List Row) : List Row :=
  let rows := (sortRows orderBy rows).filter fun row => start.all fun b => b.admits orderBy row
  match limit with
  | none => rows
  | some n => rows.take n

/-- The child belongs to the parent. -/
def Correlation.holds (c : Correlation) (parent child : Row) : Bool :=
  isJoinMatch parent c.parentField child c.childField

section
variable (getLikePredicate : Value → Bool → Value → Bool) (db : Database)

mutual

/-- The truth of a condition for a row. -/
def Condition.holds : Condition → Row → Bool
  | .simple c, row => c.createPredicate getLikePredicate row
  | .group .and conditions, row => allHold conditions row
  | .group .or conditions, row => anyHolds conditions row
  | .correlatedSubquery related op _ _, row => related.exists row == (op == .exists)

/-- Every condition holds. -/
def allHold : List Condition → Row → Bool
  | [], _ => true
  | c :: cs, row => c.holds row && allHold cs row

/-- Some condition holds. -/
def anyHolds : List Condition → Row → Bool
  | [], _ => false
  | c :: cs, row => c.holds row || anyHolds cs row

/-- A row of the subquery belongs to the row. -/
def CorrelatedSubquery.exists : CorrelatedSubquery → Row → Bool
  | { correlation, subquery, .. }, row => !(subquery.rows (correlation.holds row)).isEmpty

/-- The rows that a query selects among those that satisfy a constraint. -/
def AST.rows : AST → (Row → Bool) → List Row
  | { table, where_, start, limit, orderBy, .. }, constraint =>
    cut orderBy start limit ((db table).filter fun row => constraint row && whereHolds where_ row)

/-- The truth of a `where`. -/
def whereHolds : Option Condition → Row → Bool
  | none, _ => true
  | some c, row => c.holds row

end

mutual

/-- What a query selects among the rows that satisfy a constraint. -/
def AST.select : AST → (Row → Bool) → List Selected
  | ast@{ related, .. }, constraint =>
    (ast.rows getLikePredicate db constraint).map fun row => .mk row (selectRelated related row)

/-- The related rows of a row, by alias. -/
def selectRelated : Option (List CorrelatedSubquery) → Row → String → Option (List Selected)
  | none, _, _ => none
  | some related, row, name => selectLast related row name

/-- The last related query of that name counts. -/
def selectLast : List CorrelatedSubquery → Row → String → Option (List Selected)
  | [], _, _ => none
  | r :: related, row, name =>
    match selectLast related row name with
    | some selected => some selected
    | none => if r.alias_ = name then some (r.select row) else none

/-- The rows of a related query that belong to a row. -/
def CorrelatedSubquery.select : CorrelatedSubquery → Row → List Selected
  | { correlation, subquery, .. }, row => subquery.select (correlation.holds row)

end

/-! ## The equations, read off the fields -/

variable {getLikePredicate db}

theorem allHold_eq (cs : List Condition) (row : Row) :
    allHold getLikePredicate db cs row = cs.all fun c => c.holds getLikePredicate db row := by
  induction cs with
  | nil => rfl
  | cons c cs ih => rw [allHold, ih, List.all_cons]

theorem anyHolds_eq (cs : List Condition) (row : Row) :
    anyHolds getLikePredicate db cs row = cs.any fun c => c.holds getLikePredicate db row := by
  induction cs with
  | nil => rfl
  | cons c cs ih => rw [anyHolds, ih, List.any_cons]

theorem AST.rows_eq (ast : AST) (constraint : Row → Bool) :
    ast.rows getLikePredicate db constraint = cut ast.orderBy ast.start ast.limit
      ((db ast.table).filter fun row => constraint row && whereHolds getLikePredicate db ast.where_ row) := by
  cases ast
  rfl

theorem AST.select_eq (ast : AST) (constraint : Row → Bool) :
    ast.select getLikePredicate db constraint =
      (ast.rows getLikePredicate db constraint).map fun row => .mk row (selectRelated getLikePredicate db ast.related row) := by
  cases ast
  rfl

theorem CorrelatedSubquery.exists_eq (r : CorrelatedSubquery) (row : Row) :
    r.exists getLikePredicate db row = !(r.subquery.rows getLikePredicate db (r.correlation.holds row)).isEmpty := by
  cases r
  rfl

theorem CorrelatedSubquery.select_eq (r : CorrelatedSubquery) (row : Row) :
    r.select getLikePredicate db row = r.subquery.select getLikePredicate db (r.correlation.holds row) := by
  cases r
  rfl

/-! ## Groups -/

/-- What a group of that type is without conditions, and what changes nothing in it. -/
def Connective.neutral : Connective → Bool
  | .and => true
  | .or => false

/-- The truth of a group from those of two parts of it. -/
def Connective.combine : Connective → Bool → Bool → Bool
  | .and, a, b => a && b
  | .or, a, b => a || b

theorem holds_group (type : Connective) (cs : List Condition) (row : Row) :
    (Condition.group type cs).holds getLikePredicate db row =
      match type with
      | .and => cs.all fun c => c.holds getLikePredicate db row
      | .or => cs.any fun c => c.holds getLikePredicate db row := by
  cases type with
  | and => rw [Condition.holds, allHold_eq]
  | or => rw [Condition.holds, anyHolds_eq]

theorem holds_group_nil (type : Connective) (row : Row) :
    (Condition.group type []).holds getLikePredicate db row = type.neutral := by
  cases type <;> rfl

theorem holds_group_singleton (type : Connective) (c : Condition) (row : Row) :
    (Condition.group type [c]).holds getLikePredicate db row = c.holds getLikePredicate db row := by
  cases type <;> simp [holds_group]

theorem holds_group_append (type : Connective) (l m : List Condition) (row : Row) :
    (Condition.group type (l ++ m)).holds getLikePredicate db row =
      type.combine ((Condition.group type l).holds getLikePredicate db row)
        ((Condition.group type m).holds getLikePredicate db row) := by
  cases type <;> simp [holds_group, Connective.combine]

theorem holds_group_cons (type : Connective) (c : Condition) (cs : List Condition) (row : Row) :
    (Condition.group type (c :: cs)).holds getLikePredicate db row =
      type.combine (c.holds getLikePredicate db row) ((Condition.group type cs).holds getLikePredicate db row) := by
  cases type <;> simp [holds_group, Connective.combine]

end

end ZeroSync
