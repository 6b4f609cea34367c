/-
`zero-cache/src/auth/read-authorizer.ts`: the select rules added to a query, and
what the query then selects.

A transformed query selects from a database what the query selects from the
same database without the rows its user may not select, in each place where the
query names a table; the rules themselves read the whole database.
-/
import ZeroSync.SimplifyCondition

namespace ZeroSync

/-- `permissionRules?.tables?.[table]?.row?.select`. -/
def selectRules (permissionRules : PermissionsConfig) (table : String) : Option Policy :=
  permissionRules table |>.bind TablePermissions.row |>.bind AssetPermissions.select

/-- `rowSelectRules`: without rules, one that no row satisfies. -/
def rowSelectRules (permissionRules : PermissionsConfig) (table : String) : Policy :=
  match selectRules permissionRules table with
  | none | some [] => [.group .or []]
  | some rules => rules

/-- `addRulesToWhere`. -/
def addRulesToWhere (where_ : Option Unbound.Condition) (rules : Policy) : Unbound.Condition :=
  .group .and (where_.toList ++ [.group .or rules])

section
variable (permissionRules : PermissionsConfig)

mutual

/-- `transformQueryInternal`. -/
def transformQueryInternal : Unbound.AST → Unbound.AST
  | { schema, table, where_, related, start, limit, orderBy } =>
    { schema, table, start, limit, orderBy
      where_ := some (Unbound.simplifyCondition
        (addRulesToWhere (transformQueryWhere where_) (rowSelectRules permissionRules table)))
      related := transformRelated related }

/-- `query.where ? transformCondition(..) : undefined`. -/
def transformQueryWhere : Option Unbound.Condition → Option Unbound.Condition
  | none => none
  | some c => some (transformCondition c)

/-- `transformCondition`. -/
def transformCondition : Unbound.Condition → Unbound.Condition
  | .simple c => .simple c
  | .group type conditions => .group type (transformConditions conditions)
  | .correlatedSubquery related op flip scalar => .correlatedSubquery (transformSubquery related) op flip scalar

/-- `cond.conditions.map`. -/
def transformConditions : List Unbound.Condition → List Unbound.Condition
  | [] => []
  | c :: conditions => transformCondition c :: transformConditions conditions

/-- A correlated subquery with its query transformed. -/
def transformSubquery : Unbound.CorrelatedSubquery → Unbound.CorrelatedSubquery
  | { correlation, alias_, subquery } => { correlation, alias_, subquery := transformQueryInternal subquery }

/-- `query.related?.map`. -/
def transformRelated : Option (List Unbound.CorrelatedSubquery) → Option (List Unbound.CorrelatedSubquery)
  | none => none
  | some related => some (transformSubqueries related)

def transformSubqueries : List Unbound.CorrelatedSubquery → List Unbound.CorrelatedSubquery
  | [] => []
  | r :: related => transformSubquery r :: transformSubqueries related

end

end

/-- The parameters of a read: `auth.decoded`, or `{}`. -/
def readParameters (auth : Option AuthValue) : StaticQueryParameters
  | .authData => some (auth.getD (.mk (.array []) fun _ => none))
  | .preMutationRow => none

/-- `transformQuery`. -/
def transformQuery (query : Unbound.AST) (permissionRules : PermissionsConfig) (auth : Option AuthValue) : AST :=
  bindStaticParameters (transformQueryInternal permissionRules query) (readParameters auth)

/-! ## What a transformed query selects -/

/-- The database without the rows that no select rule of their table holds of.
The rules are read off the whole database. -/
def readableDatabase (getLikePredicate : Value → Bool → Value → Bool) (permissionRules : PermissionsConfig)
    (params : StaticQueryParameters) (db : Database) : Database := fun table =>
  (db table).filter fun row => ((selectRules permissionRules table).getD []).any fun rule =>
    rule.holds getLikePredicate db params row

section
variable {getLikePredicate : Value → Bool → Value → Bool} {db : Database} {params : StaticQueryParameters}
  {permissionRules : PermissionsConfig}

theorem rowSelectRules_hold (table : String) (row : Row) :
    (Unbound.Condition.group .or (rowSelectRules permissionRules table)).holds getLikePredicate db params row =
      ((selectRules permissionRules table).getD []).any fun rule => rule.holds getLikePredicate db params row := by
  rw [Unbound.holds_group, rowSelectRules]
  cases selectRules permissionRules table with
  | none => rfl
  | some rules =>
    cases rules with
    | nil => rfl
    | cons rule rules => rfl

/-- The `where` of a transformed query. -/
theorem addRulesToWhere_holds (w : Option Unbound.Condition) (rules : Policy) (row : Row) :
    (Unbound.simplifyCondition (addRulesToWhere w rules)).holds getLikePredicate db params row =
      (whereHolds getLikePredicate db (Unbound.bindWhere params w) row &&
        (Unbound.Condition.group .or rules).holds getLikePredicate db params row) := by
  rw [simplifyCondition_holds, addRulesToWhere, Unbound.holds_group]
  cases w with
  | none => simp [Unbound.bindWhere, whereHolds]
  | some c => simp [Unbound.bindWhere, whereHolds, Unbound.Condition.holds]

mutual

/-- **The rows of a transformed query** are those of the query among the rows that may be selected. -/
theorem transformQuery_rows : ∀ (ast : Unbound.AST) (constraint : Row → Bool),
    ((transformQueryInternal permissionRules ast).visit params).rows getLikePredicate db constraint =
      (ast.visit params).rows getLikePredicate (readableDatabase getLikePredicate permissionRules params db) constraint
  | { table, where_, .. }, constraint => by
    have hwhere := transformQueryWhere_holds where_
    rw [AST.rows_eq, AST.rows_eq, transformQueryInternal, Unbound.AST.visit, Unbound.AST.visit]
    refine congrArg _ ?_
    rw [readableDatabase, List.filter_filter]
    refine List.filter_congr fun row _ => ?_
    change (constraint row && (Unbound.simplifyCondition _).holds getLikePredicate db params row) = _
    rw [addRulesToWhere_holds, hwhere, rowSelectRules_hold, Bool.and_assoc]

theorem transformQueryWhere_holds : ∀ (w : Option Unbound.Condition) (row : Row),
    whereHolds getLikePredicate db (Unbound.bindWhere params (transformQueryWhere permissionRules w)) row =
      whereHolds getLikePredicate (readableDatabase getLikePredicate permissionRules params db) (Unbound.bindWhere params w) row
  | none, _ => rfl
  | some c, row => transformCondition_holds c row

theorem transformCondition_holds : ∀ (c : Unbound.Condition) (row : Row),
    (transformCondition permissionRules c).holds getLikePredicate db params row =
      c.holds getLikePredicate (readableDatabase getLikePredicate permissionRules params db) params row
  | .simple _, _ => rfl
  | .correlatedSubquery { correlation, subquery, .. } op flip scalar, row => by
    have hrows := transformQuery_rows subquery (correlation.holds row)
    simp only [Unbound.Condition.holds, transformCondition, Unbound.Condition.bindCondition, Condition.holds,
      CorrelatedSubquery.exists_eq, transformSubquery, Unbound.CorrelatedSubquery.visit]
    rw [hrows]
  | .group type cs, row => transformConditions_hold type cs row

theorem transformConditions_hold : ∀ (type : Connective) (cs : List Unbound.Condition) (row : Row),
    (Unbound.Condition.group type (transformConditions permissionRules cs)).holds getLikePredicate db params row =
      (Unbound.Condition.group type cs).holds getLikePredicate (readableDatabase getLikePredicate permissionRules params db)
        params row
  | type, [], _ => by cases type <;> rfl
  | type, c :: cs, row => by
    rw [transformConditions, Unbound.holds_group_cons, Unbound.holds_group_cons, transformCondition_holds c,
      transformConditions_hold type cs]

end

mutual

theorem select_transformQueryInternal : ∀ (ast : Unbound.AST) (constraint : Row → Bool),
    ((transformQueryInternal permissionRules ast).visit params).select getLikePredicate db constraint =
      (ast.visit params).select getLikePredicate (readableDatabase getLikePredicate permissionRules params db) constraint
  | { schema, table, where_, related, start, limit, orderBy }, constraint => by
    have hrelated := selectRelated_transformed related
    rw [AST.select_eq, AST.select_eq, transformQuery_rows]
    rw [transformQueryInternal, Unbound.AST.visit, Unbound.AST.visit]
    exact List.map_congr_left fun row _ => congrArg _ (funext (hrelated row))

theorem selectRelated_transformed : ∀ (related : Option (List Unbound.CorrelatedSubquery)) (row : Row) (name : String),
    selectRelated getLikePredicate db (Unbound.visitRelated params (transformRelated permissionRules related)) row name =
      selectRelated getLikePredicate (readableDatabase getLikePredicate permissionRules params db)
        (Unbound.visitRelated params related) row name
  | none, _, _ => rfl
  | some related, row, name => selectLast_transformed related row name

theorem selectLast_transformed : ∀ (related : List Unbound.CorrelatedSubquery) (row : Row) (name : String),
    selectLast getLikePredicate db (Unbound.visitEach params (transformSubqueries permissionRules related)) row name =
      selectLast getLikePredicate (readableDatabase getLikePredicate permissionRules params db)
        (Unbound.visitEach params related) row name
  | [], _, _ => rfl
  | { correlation, alias_, subquery } :: related, row, name => by
    have hlast := selectLast_transformed related row name
    have hselect := select_transformQueryInternal subquery (correlation.holds row)
    rw [transformSubqueries, Unbound.visitEach, Unbound.visitEach, selectLast, selectLast, hlast]
    simp only [CorrelatedSubquery.select_eq, transformSubquery, Unbound.CorrelatedSubquery.visit, hselect]

end

end

/-- **Read permissions are a filtered view**: a transformed query selects from a
database what the query selects, its parameters bound, from the rows that may
be selected. -/
theorem select_transformQuery (getLikePredicate : Value → Bool → Value → Bool) (db : Database) (query : Unbound.AST)
    (permissionRules : PermissionsConfig) (auth : Option AuthValue) (constraint : Row → Bool) :
    (transformQuery query permissionRules auth).select getLikePredicate db constraint =
      (bindStaticParameters query (readParameters auth)).select getLikePredicate
        (readableDatabase getLikePredicate permissionRules (readParameters auth) db) constraint :=
  select_transformQueryInternal query constraint

end ZeroSync
