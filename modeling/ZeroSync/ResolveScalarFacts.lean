/-
Resolving scalar subqueries keeps what a query selects when every comparison
it makes stands for a correlation on one column: the comparison is with the
first column of the correlation, and says nothing of the others.

A subquery whose condition fixes the columns of a unique key has at most one
row (`isSimpleSubquery_unique`), so that it has a row for a parent when that
one belongs to the parent (`exists_of_simple`). Its condition may be fixed by
subqueries of its own that were resolved before, which is why the induction
goes through the resolved query.
-/
import ZeroSync.Evaluation
import ZeroSync.ResolveScalarSubqueries
import ZeroSync.TableSource

namespace ZeroSync

/-! ## A subquery with one row -/

/-- A row has the values that were collected. -/
def Fixes (constraints : OrderedMap String LiteralValue) (row : Row) : Prop :=
  ∀ col v, constraints.get? col = some v → v = .value (row col) ∧ v.isNullish = false

section
variable {getLikePredicate : Value → Bool → Value → Bool} {db : Database}

/-- `column = literal` holds of the rows with that value, which is not `null`. -/
theorem createPredicate_eq_iff {name : String} {right : LiteralValue} {row : Row} :
    (SimpleCondition.mk .eq (.column name) right).createPredicate getLikePredicate row = true ↔
      right = .value (row name) ∧ right.isNullish = false := by
  rcases right with v | vs <;>
    simp only [SimpleCondition.createPredicate, ValuePosition.read, createPredicateImpl, LiteralValue.same, reduceCtorEq,
      or_self, if_false, Bool.and_eq_true, Bool.not_eq_true', decide_eq_true_eq, LiteralValue.value.injEq, Bool.and_false,
      Bool.false_eq_true, false_and]
  constructor
  · rintro ⟨⟨hv, -⟩, rfl⟩
    exact ⟨rfl, hv⟩
  · rintro ⟨rfl, hv⟩
    exact ⟨⟨hv, hv⟩, rfl⟩

mutual

theorem collectConstraints_fixes {row : Row} : ∀ {c : Condition} {constraints : OrderedMap String LiteralValue},
    c.holds getLikePredicate db row = true → Fixes constraints row → Fixes (collectConstraints c constraints) row
  | .group .and cs, constraints, h, hfix => by
    rw [collectConstraints]
    exact collectAll_fixes h hfix
  | .group .or _, constraints, _, hfix => by simpa [collectConstraints] using hfix
  | .correlatedSubquery .., constraints, _, hfix => by simpa [collectConstraints] using hfix
  | .simple { op, left, right }, constraints, h, hfix => by
    rw [collectConstraints.eq_def]
    split
    · next name _ heq =>
      obtain ⟨rfl, rfl, rfl⟩ := by simpa using heq
      intro col v hv
      rw [OrderedMap.get?_set] at hv
      split at hv
      · next hcol =>
        obtain rfl := hcol
        obtain rfl := Option.some.inj hv
        exact createPredicate_eq_iff.mp h
      · exact hfix col v hv
    · next heq => cases heq
    · exact hfix

theorem collectAll_fixes {row : Row} : ∀ {cs : List Condition} {constraints : OrderedMap String LiteralValue},
    allHold getLikePredicate db cs row = true → Fixes constraints row → Fixes (collectAll cs constraints) row
  | [], _, _, hfix => hfix
  | c :: cs, constraints, h, hfix => by
    rw [allHold, Bool.and_eq_true] at h
    rw [collectAll]
    exact collectAll_fixes h.2 (collectConstraints_fixes h.1 hfix)

end

/-- No two rows of a table agree on the columns of a unique key. -/
def UniqueKeysHold (tableSpecs : TableSpecs) (db : Database) : Prop :=
  ∀ table keys, tableSpecs table = some keys → ∀ key ∈ keys, (db table).Pairwise fun a b => sqlMatches key a b = false

theorem isSimpleSubquery_unique {tableSpecs : TableSpecs} {ast : AST} (hkeys : UniqueKeysHold tableSpecs db)
    (h : isSimpleSubquery tableSpecs ast = true) :
    ((db ast.table).filter fun row => whereHolds getLikePredicate db ast.where_ row).length ≤ 1 := by
  unfold isSimpleSubquery at h
  split at h
  · next keys c hspec hwhere =>
    dsimp only at h
    split at h
    · cases h
    obtain ⟨key, hkey, hcols⟩ := List.any_eq_true.mp h
    have hpairs := (hkeys _ _ hspec key hkey).filter fun row => whereHolds getLikePredicate db ast.where_ row
    have hmem : ∀ row ∈ (db ast.table).filter fun row => whereHolds getLikePredicate db ast.where_ row,
        Fixes (extractLiteralEqualityConstraints c) row := by
      intro row hrow
      have hholds := (List.mem_filter.mp hrow).2
      rw [hwhere, whereHolds] at hholds
      exact collectConstraints_fixes hholds fun col v hv => by simp at hv
    match hrows : (db ast.table).filter fun row => whereHolds getLikePredicate db ast.where_ row with
    | [] | [_] => simp
    | a :: b :: rows =>
      rw [hrows] at hpairs hmem
      have hne := (List.pairwise_cons.mp hpairs).1 b (List.mem_cons_self ..)
      have heq : sqlMatches key a b = true := by
        refine List.all_eq_true.mpr fun col hcol => ?_
        obtain ⟨v, hv⟩ := Option.isSome_iff_exists.mp (List.all_eq_true.mp hcols col hcol)
        obtain ⟨rfl, hnull⟩ := hmem a (List.mem_cons_self ..) col v hv
        obtain ⟨hb, -⟩ := hmem b (by simp) col _ hv
        rw [valuesEqual_iff]
        refine ⟨LiteralValue.value.inj hb, fun h => ?_, fun h => ?_⟩ <;> simp [h, LiteralValue.isNullish] at hnull
      rw [heq] at hne
      cases hne
  · cases h

theorem sortRows_singleton (orderBy : Option SortOrder) (row : Row) : sortRows orderBy [row] = [row] := by
  simp [sortRows]

theorem cut_filter (orderBy : Option SortOrder) (start : Option Bound) (limit : Option ℕ) (p : Row → Bool) :
    ∀ {rows : List Row}, rows.length ≤ 1 → cut orderBy start limit (rows.filter p) = (cut orderBy start limit rows).filter p
  | [], _ => by cases limit <;> simp [cut, sortRows]
  | [row], _ => by
    have hnil : cut orderBy start limit [] = [] := by cases limit <;> simp [cut, sortRows]
    have hone : cut orderBy start limit [row] = [] ∨ cut orderBy start limit [row] = [row] := by
      simp only [cut, sortRows_singleton, List.filter_cons, List.filter_nil]
      rcases limit with _ | _ | n <;> dsimp only <;> split <;> simp
    rw [List.filter_cons, List.filter_nil]
    by_cases hp : p row = true
    · rw [if_pos hp]
      rcases hone with h | h <;> simp [h, hp]
    · rw [if_neg hp, hnil]
      rcases hone with h | h <;> simp [h, hp]
  | _ :: _ :: _, h => by simp at h

theorem rows_of_simple {tableSpecs : TableSpecs} {ast : AST} (hkeys : UniqueKeysHold tableSpecs db)
    (h : isSimpleSubquery tableSpecs ast = true) (constraint : Row → Bool) :
    ast.rows getLikePredicate db constraint = (ast.rows getLikePredicate db fun _ => true).filter constraint := by
  rw [AST.rows_eq, AST.rows_eq, ← cut_filter _ _ _ _ (by simpa using isSimpleSubquery_unique hkeys h), List.filter_filter]
  simp

theorem length_cut_le (orderBy : Option SortOrder) (start : Option Bound) (limit : Option ℕ) (rows : List Row) :
    (cut orderBy start limit rows).length ≤ rows.length := by
  have hsort : (sortRows orderBy rows).length = rows.length := List.length_mergeSort ..
  have hfilter (p : Row → Bool) : ((sortRows orderBy rows).filter p).length ≤ rows.length :=
    (List.length_filter_le ..).trans hsort.le
  cases limit with
  | none => exact hfilter _
  | some n => exact (List.length_take_le' ..).trans (hfilter _)

theorem length_rows_of_simple {tableSpecs : TableSpecs} {ast : AST} (hkeys : UniqueKeysHold tableSpecs db)
    (h : isSimpleSubquery tableSpecs ast = true) : (ast.rows getLikePredicate db fun _ => true).length ≤ 1 := by
  rw [AST.rows_eq]
  exact (length_cut_le ..).trans (by simpa using isSimpleSubquery_unique hkeys h)

end

/-! ## The comparison with its value -/

section
variable {getLikePredicate : Value → Bool → Value → Bool} {db : Database} {tableSpecs : TableSpecs}
  {execute : AST → String → LiteralValue}

/-- The executor gives the child field of a query's one row, `undefined` if there is no row. -/
def Executes (getLikePredicate : Value → Bool → Value → Bool) (db : Database) (execute : AST → String → LiteralValue) :
    Prop :=
  ∀ (ast : AST) (childField : String), (ast.rows getLikePredicate db fun _ => true).length ≤ 1 →
    execute ast childField =
      match ast.rows getLikePredicate db fun _ => true with
      | [] => .value .undefined
      | row :: _ => .value (row childField)

theorem exists_of_simple {related : CorrelatedSubquery} (hkeys : UniqueKeysHold tableSpecs db)
    (h : isSimpleSubquery tableSpecs related.subquery = true) (row : Row) :
    related.exists getLikePredicate db row =
      (related.subquery.rows getLikePredicate db fun _ => true).any (related.correlation.holds row) := by
  rw [CorrelatedSubquery.exists_eq, rows_of_simple hkeys h]
  cases hrows : related.subquery.rows getLikePredicate db fun _ => true with
  | nil => rfl
  | cons child rows =>
    have hlen : (related.subquery.rows getLikePredicate db fun _ => true).length ≤ 1 := length_rows_of_simple hkeys h
    rw [hrows] at hlen
    obtain rfl := List.eq_nil_of_length_eq_zero (Nat.le_zero.mp (Nat.le_of_succ_le_succ hlen))
    cases h : related.correlation.holds row child <;> simp [h]

theorem LiteralValue.isNullish_value {v : Value} : (LiteralValue.value v).isNullish = true ↔ v = .undefined ∨ v = .null := by
  cases v <;> simp [LiteralValue.isNullish]

/-- Nothing is correlated with a row whose child field is `null`. -/
theorem Correlation.holds_of_nullish {c : Correlation} {parent child : Row}
    (h : (LiteralValue.value (child c.childColumn)).isNullish = true) : c.holds parent child = false := by
  obtain ⟨parentField, childField, hnonempty, hlen⟩ := c
  obtain ⟨p, ps, rfl⟩ := List.exists_cons_of_ne_nil hnonempty
  obtain ⟨ch, chs, rfl⟩ :=
    List.exists_cons_of_ne_nil (List.ne_nil_of_length_pos (hlen ▸ List.length_pos_of_ne_nil hnonempty))
  have hne : valuesEqual (parent p) (child ch) = false := by
    rw [Bool.eq_false_iff, Ne, valuesEqual_iff]
    rintro ⟨heq, hu, hn⟩
    rw [heq] at hu hn
    exact (LiteralValue.isNullish_value.mp h).elim hu hn
  simp [Correlation.holds, isJoinMatch, hne]

theorem Correlation.holds_of_single {c : Correlation} (h : c.parentField.length = 1) (parent child : Row) :
    c.holds parent child = valuesEqual (parent c.parentColumn) (child c.childColumn) := by
  obtain ⟨parentField, childField, hnonempty, hlen⟩ := c
  obtain ⟨p, rfl⟩ := List.length_eq_one_iff.mp h
  obtain ⟨ch, rfl⟩ := List.length_eq_one_iff.mp (hlen.trans h)
  simp [Correlation.holds, isJoinMatch, Correlation.parentColumn, Correlation.childColumn]

/-- The comparison that `resolveScalarSubquery` makes is on the whole of the correlation. -/
def comparesWhole (tableSpecs : TableSpecs) (execute : AST → String → LiteralValue) (related : CorrelatedSubquery) : Bool :=
  !isSimpleSubquery tableSpecs related.subquery || (execute related.subquery related.correlation.childColumn).isNullish ||
    related.correlation.parentField.length == 1

theorem alwaysFalse_holds (row : Row) : alwaysFalse.holds getLikePredicate db row = false := by
  simp [alwaysFalse, Condition.holds, SimpleCondition.createPredicate, ValuePosition.read, createPredicateImpl, LiteralValue.same,
    LiteralValue.isNullish]

theorem alwaysTrue_holds (row : Row) : alwaysTrue.holds getLikePredicate db row = true := by
  simp [alwaysTrue, Condition.holds, SimpleCondition.createPredicate, ValuePosition.read, createPredicateImpl, LiteralValue.same,
    LiteralValue.isNullish]

/-- **A resolved condition** holds of the rows that the subquery's existence held of. -/
theorem resolveScalarSubquery_holds {related : CorrelatedSubquery} {op : ExistsOperator} {flip scalar : Option Bool}
    (hkeys : UniqueKeysHold tableSpecs db) (hexecute : Executes getLikePredicate db execute)
    (hwhole : comparesWhole tableSpecs execute related = true) (row : Row) :
    (resolveScalarSubquery tableSpecs execute related op flip scalar).1.holds getLikePredicate db row =
      (Condition.correlatedSubquery related op flip scalar).holds getLikePredicate db row := by
  unfold resolveScalarSubquery
  by_cases hsimple : isSimpleSubquery tableSpecs related.subquery = true
  swap
  · rw [if_neg hsimple]
  have hexecute := hexecute _ related.correlation.childColumn (length_rows_of_simple hkeys hsimple)
  have hexists : related.exists getLikePredicate db row = _ := exists_of_simple hkeys hsimple row
  have hlen : (related.subquery.rows getLikePredicate db fun _ => true).length ≤ 1 := length_rows_of_simple hkeys hsimple
  rw [if_pos hsimple]
  dsimp only
  rw [apply_ite Prod.fst, Condition.holds, hexists]
  match hrows : related.subquery.rows getLikePredicate db fun _ => true with
  | [] =>
    rw [hrows] at hexecute
    rw [hexecute]
    dsimp only
    rw [if_pos (show (LiteralValue.value .undefined).isNullish = true from rfl)]
    cases op
    · exact alwaysFalse_holds row
    · exact alwaysTrue_holds row
  | _ :: _ :: _ => simp [hrows] at hlen
  | [child] =>
    rw [hrows] at hexecute
    rw [hexecute, List.any_cons, List.any_nil, Bool.or_false]
    dsimp only
    by_cases hnull : (LiteralValue.value (child related.correlation.childColumn)).isNullish = true
    · rw [if_pos hnull, Correlation.holds_of_nullish hnull]
      cases op
      · exact alwaysFalse_holds row
      · exact alwaysTrue_holds row
    · have hsingle : related.correlation.parentField.length = 1 := by
        simpa [comparesWhole, hsimple, hexecute, hnull] using hwhole
      rw [if_neg hnull, Correlation.holds_of_single hsingle]
      have hchild := fun h => hnull (LiteralValue.isNullish_value.mpr h)
      have hequal : valuesEqual (row related.correlation.parentColumn) (child related.correlation.childColumn) =
          decide (row related.correlation.parentColumn = child related.correlation.childColumn) := by
        rw [Bool.eq_iff_iff, valuesEqual_iff, decide_eq_true_eq]
        exact ⟨And.left, fun h => ⟨h, fun hu => hchild (.inl (h ▸ hu)), fun hn => hchild (.inr (h ▸ hn))⟩⟩
      rw [hequal]
      cases op
      · rw [if_pos rfl, Bool.eq_iff_iff, Condition.holds, createPredicate_eq_iff]
        simp [Bool.eq_false_iff.mpr hnull, eq_comm]
      · by_cases heq : row related.correlation.parentColumn = child related.correlation.childColumn <;>
          simp [Condition.holds, SimpleCondition.createPredicate, ValuePosition.read, createIsPredicate, LiteralValue.same, heq]

end

/-! ## The whole of a query -/

section
variable (tableSpecs : TableSpecs) (execute : AST → String → LiteralValue)

mutual

/-- Every comparison that a query is resolved to is on the whole of a correlation. -/
def AST.comparesWhole : AST → Bool
  | { where_, related, .. } => whereComparesWhole where_ && relatedCompareWhole related

def whereComparesWhole : Option Condition → Bool
  | none => true
  | some c => c.comparesWhole

def Condition.comparesWhole : Condition → Bool
  | .simple _ => true
  | .correlatedSubquery related _ _ scalar =>
    related.comparesWhole &&
      (scalar != some true || ZeroSync.comparesWhole tableSpecs execute (resolveSubquery tableSpecs execute related).1)
  | .group _ conditions => conditionsCompareWhole conditions

def conditionsCompareWhole : List Condition → Bool
  | [] => true
  | c :: cs => c.comparesWhole && conditionsCompareWhole cs

def CorrelatedSubquery.comparesWhole : CorrelatedSubquery → Bool
  | { subquery, .. } => subquery.comparesWhole

def relatedCompareWhole : Option (List CorrelatedSubquery) → Bool
  | none => true
  | some related => eachComparesWhole related

def eachComparesWhole : List CorrelatedSubquery → Bool
  | [] => true
  | r :: related => r.comparesWhole && eachComparesWhole related

end

end

section
variable {getLikePredicate : Value → Bool → Value → Bool} {db : Database} {tableSpecs : TableSpecs}
  {execute : AST → String → LiteralValue}

theorem resolveAST_eq (ast : AST) :
    (resolveASTRecursive tableSpecs execute ast).1 =
      { ast with
        where_ := (resolveWhere tableSpecs execute ast.where_).1
        related := (resolveRelated tableSpecs execute ast.related).1 } := by
  cases ast
  rfl

theorem resolveSubquery_eq (r : CorrelatedSubquery) :
    (resolveSubquery tableSpecs execute r).1 = { r with subquery := (resolveASTRecursive tableSpecs execute r.subquery).1 } := by
  cases r
  rfl

section
set_option linter.unusedSectionVars false
variable (hkeys : UniqueKeysHold tableSpecs db) (hexecute : Executes getLikePredicate db execute)
include hkeys hexecute

mutual

/-- **The rows of a resolved query** are those of the query. -/
theorem resolveAST_rows : ∀ ast : AST, ast.comparesWhole tableSpecs execute = true → ∀ constraint,
    (resolveASTRecursive tableSpecs execute ast).1.rows getLikePredicate db constraint = ast.rows getLikePredicate db constraint
  | { where_, .. }, h, constraint => by
    rw [AST.comparesWhole, Bool.and_eq_true] at h
    have hwhere := resolveWhere_holds where_ h.1
    rw [resolveAST_eq, AST.rows_eq, AST.rows_eq]
    exact congrArg _ (List.filter_congr fun row _ => by rw [hwhere])

theorem resolveWhere_holds : ∀ w : Option Condition, whereComparesWhole tableSpecs execute w = true → ∀ row,
    whereHolds getLikePredicate db (resolveWhere tableSpecs execute w).1 row = whereHolds getLikePredicate db w row
  | none, _, _ => rfl
  | some c, h, row => resolveCondition_holds c h row

theorem resolveCondition_holds : ∀ c : Condition, c.comparesWhole tableSpecs execute = true → ∀ row,
    (resolveCondition tableSpecs execute c).1.holds getLikePredicate db row = c.holds getLikePredicate db row
  | .simple _, _, _ => rfl
  | .correlatedSubquery related op flip scalar, h, row => by
    rw [Condition.comparesWhole, Bool.and_eq_true] at h
    have hexists := resolveSubquery_exists related h.1 row
    rw [Condition.holds, ← hexists, resolveCondition]
    dsimp only
    split
    · next hscalar =>
      have hwhole := h.2
      rw [hscalar] at hwhole ⊢
      exact resolveScalarSubquery_holds hkeys hexecute hwhole row
    · rw [Condition.holds]
  | .group type cs, h, row => by
    have hcs := resolveConditions_holds cs h row
    rw [resolveCondition]
    cases type
    · exact hcs.1
    · exact hcs.2

theorem resolveConditions_holds : ∀ cs : List Condition, conditionsCompareWhole tableSpecs execute cs = true → ∀ row,
    allHold getLikePredicate db (resolveConditions tableSpecs execute cs).1 row = allHold getLikePredicate db cs row ∧
      anyHolds getLikePredicate db (resolveConditions tableSpecs execute cs).1 row = anyHolds getLikePredicate db cs row
  | [], _, _ => ⟨rfl, rfl⟩
  | c :: cs, h, row => by
    rw [conditionsCompareWhole, Bool.and_eq_true] at h
    have hc := resolveCondition_holds c h.1 row
    obtain ⟨hall, hany⟩ := resolveConditions_holds cs h.2 row
    rw [resolveConditions]
    exact ⟨by rw [allHold, allHold, hc, hall], by rw [anyHolds, anyHolds, hc, hany]⟩

theorem resolveSubquery_exists : ∀ r : CorrelatedSubquery, r.comparesWhole tableSpecs execute = true → ∀ row,
    (resolveSubquery tableSpecs execute r).1.exists getLikePredicate db row = r.exists getLikePredicate db row
  | { subquery, .. }, h, row => by
    rw [CorrelatedSubquery.exists_eq, CorrelatedSubquery.exists_eq, resolveSubquery_eq]
    dsimp only
    rw [resolveAST_rows subquery h]

end

mutual

/-- A query whose comparisons are on whole correlations selects the same rows
and related rows when its scalar subqueries are resolved. -/
theorem select_resolveAST : ∀ ast : AST, ast.comparesWhole tableSpecs execute = true → ∀ constraint,
    (resolveASTRecursive tableSpecs execute ast).1.select getLikePredicate db constraint =
      ast.select getLikePredicate db constraint
  | { related, .. }, h, constraint => by
    have hrows := resolveAST_rows hkeys hexecute _ h constraint
    rw [AST.comparesWhole, Bool.and_eq_true] at h
    have hrelated := selectRelated_resolve related h.2
    rw [AST.select_eq, AST.select_eq, hrows, resolveAST_eq]
    exact List.map_congr_left fun row _ => congrArg _ (funext (hrelated row))

theorem selectRelated_resolve : ∀ related : Option (List CorrelatedSubquery),
    relatedCompareWhole tableSpecs execute related = true → ∀ row name,
    selectRelated getLikePredicate db (resolveRelated tableSpecs execute related).1 row name =
      selectRelated getLikePredicate db related row name
  | none, _, _, _ => rfl
  | some related, h, row, name => selectLast_resolve related h row name

theorem selectLast_resolve : ∀ related : List CorrelatedSubquery,
    eachComparesWhole tableSpecs execute related = true → ∀ row name,
    selectLast getLikePredicate db (resolveEach tableSpecs execute related).1 row name =
      selectLast getLikePredicate db related row name
  | [], _, _, _ => rfl
  | { correlation, alias_, subquery } :: related, h, row, name => by
    rw [eachComparesWhole, Bool.and_eq_true] at h
    have hlast := selectLast_resolve related h.2 row name
    have hselect := select_resolveAST subquery h.1 (correlation.holds row)
    rw [resolveEach, selectLast, selectLast]
    dsimp only
    rw [hlast, resolveSubquery_eq, CorrelatedSubquery.select_eq, CorrelatedSubquery.select_eq]
    dsimp only
    rw [hselect]

end

end

end

theorem select_resolveSimpleScalarSubqueries {getLikePredicate : Value → Bool → Value → Bool} {db : Database}
    {tableSpecs : TableSpecs} {execute : AST → String → LiteralValue} (hkeys : UniqueKeysHold tableSpecs db)
    (hexecute : Executes getLikePredicate db execute) (ast : AST) (h : ast.comparesWhole tableSpecs execute = true)
    (constraint : Row → Bool) :
    (resolveSimpleScalarSubqueries tableSpecs execute ast).ast.select getLikePredicate db constraint =
      ast.select getLikePredicate db constraint :=
  select_resolveAST hkeys hexecute ast h constraint

/-! ## Issues and their owners -/

/-- An executor that runs the query. -/
def runQuery (getLikePredicate : Value → Bool → Value → Bool) (db : Database) (ast : AST) (childField : String) :
    LiteralValue :=
  match ast.rows getLikePredicate db fun _ => true with
  | [] => .value .undefined
  | row :: _ => .value (row childField)

/-- A row with two columns. -/
def twoColumns (a : String) (v : Value) (b : String) (w : Value) : Row := fun c =>
  if c = a then v else if c = b then w else .undefined

/-- Ann is a member of the first project, and an issue of the second is hers. -/
def projects : Database := fun table =>
  if table = "issue" then [twoColumns "owner" (.str "ann") "project" (.num 2)]
  else if table = "member" then [twoColumns "name" (.str "ann") "project" (.num 1)]
  else []

/-- Members have different names. -/
def memberKeys : TableSpecs := fun table => if table = "member" then some [["name"]] else none

/-- The member called Ann. -/
def memberAnn : AST where
  schema := none
  table := "member"
  where_ := some (.simple ⟨.eq, .column "name", .value (.str "ann")⟩)
  related := none
  start := none
  limit := none
  orderBy := some [("name", .asc)]

/-- Issues with a condition. -/
def issues (c : Condition) : AST where
  schema := none
  table := "issue"
  where_ := some c
  related := none
  start := none
  limit := none
  orderBy := some [("owner", .asc)]

/-- Issues whose owner is Ann, by the columns of a correlation. -/
def issuesOfAnn (c : Correlation) : AST := issues (.correlatedSubquery ⟨c, "owner", memberAnn⟩ .exists none (some true))

theorem uniqueKeysHold_projects : UniqueKeysHold memberKeys projects := by
  intro table keys hspec key hkey
  unfold memberKeys at hspec
  split at hspec
  · next htable =>
    rw [htable]
    simp [projects]
  · cases hspec

theorem select_issuesOfAnn :
    (resolveSimpleScalarSubqueries memberKeys (runQuery (fun _ _ _ => false) projects)
        (issuesOfAnn ⟨["owner"], ["name"], by decide, rfl⟩)).ast.select (fun _ _ _ => false) projects (fun _ => true) =
      (issuesOfAnn ⟨["owner"], ["name"], by decide, rfl⟩).select (fun _ _ _ => false) projects fun _ => true :=
  select_resolveSimpleScalarSubqueries uniqueKeysHold_projects (fun _ _ _ => rfl) _
    (by simp [issuesOfAnn, issues, memberAnn, AST.comparesWhole, whereComparesWhole, Condition.comparesWhole,
      CorrelatedSubquery.comparesWhole, relatedCompareWhole, comparesWhole, resolveSubquery_eq]) _

theorem rows_memberAnn (like : Value → Bool → Value → Bool) :
    memberAnn.rows like projects (fun _ => true) = [twoColumns "name" (.str "ann") "project" (.num 1)] := by
  have hann : whereHolds like projects memberAnn.where_ (twoColumns "name" (.str "ann") "project" (.num 1)) = true := by
    rw [memberAnn, whereHolds, Condition.holds, createPredicate_eq_iff]
    decide
  rw [AST.rows_eq, show projects memberAnn.table = [twoColumns "name" (.str "ann") "project" (.num 1)] from rfl,
    List.filter_cons, hann]
  simp [cut, sortRows, memberAnn]

/-- The issue's owner is a member of another project: no member belongs to it,
and the resolved query does not look at the project. -/
theorem resolve_drops_column :
    UniqueKeysHold memberKeys projects ∧ Executes (fun _ _ _ => false) projects (runQuery (fun _ _ _ => false) projects) ∧
      (resolveSimpleScalarSubqueries memberKeys (runQuery (fun _ _ _ => false) projects)
          (issuesOfAnn ⟨["owner", "project"], ["name", "project"], by decide, rfl⟩)).ast.select (fun _ _ _ => false) projects
          (fun _ => true) ≠
        (issuesOfAnn ⟨["owner", "project"], ["name", "project"], by decide, rfl⟩).select (fun _ _ _ => false) projects
          fun _ => true := by
  refine ⟨uniqueKeysHold_projects, fun _ _ _ => rfl, fun h => ?_⟩
  have hsimple : isSimpleSubquery memberKeys memberAnn = true := by decide
  have hresolved : (resolveSimpleScalarSubqueries memberKeys (runQuery (fun _ _ _ => false) projects)
      (issuesOfAnn ⟨["owner", "project"], ["name", "project"], by decide, rfl⟩)).ast =
        issues (.simple ⟨.eq, .column "owner", .value (.str "ann")⟩) := by
    have hmember : resolveASTRecursive memberKeys (runQuery (fun _ _ _ => false) projects) memberAnn = (memberAnn, {}) := rfl
    simp [resolveSimpleScalarSubqueries, resolveASTRecursive, resolveWhere, resolveCondition, resolveSubquery, resolveRelated,
      resolveScalarSubquery, issuesOfAnn, issues, hmember, hsimple, runQuery, rows_memberAnn, twoColumns,
      Correlation.childColumn, Correlation.parentColumn, LiteralValue.isNullish]
  have hlen := congrArg List.length h
  rw [hresolved, AST.select_eq, AST.select_eq, List.length_map, List.length_map, AST.rows_eq, AST.rows_eq] at hlen
  have hissue : projects "issue" = [twoColumns "owner" (.str "ann") "project" (.num 2)] := rfl
  have howner : whereHolds (fun _ _ _ => false) projects (some (.simple ⟨.eq, .column "owner", .value (.str "ann")⟩))
      (twoColumns "owner" (.str "ann") "project" (.num 2)) = true := by
    rw [whereHolds, Condition.holds, createPredicate_eq_iff]
    decide
  have hnobody (c : Correlation) (hc : (c.parentField, c.childField) = (["owner", "project"], ["name", "project"])) :
      whereHolds (fun _ _ _ => false) projects (issuesOfAnn c).where_ (twoColumns "owner" (.str "ann") "project" (.num 2)) =
        false := by
    obtain ⟨hparent, hchild⟩ := Prod.mk.inj hc
    have hexists (row : Row) : (CorrelatedSubquery.mk c "owner" memberAnn).exists (fun _ _ _ => false) projects row = _ :=
      exists_of_simple uniqueKeysHold_projects hsimple row
    simp [issuesOfAnn, issues, whereHolds, Condition.holds, hexists, rows_memberAnn, Correlation.holds, hparent, hchild,
      isJoinMatch, twoColumns, valuesEqual]
  rw [show (issuesOfAnn _).table = "issue" from rfl, show (issues _).table = "issue" from rfl, hissue, List.filter_cons,
    List.filter_cons, hnobody _ rfl] at hlen
  simp [issues, howner, issuesOfAnn, cut, sortRows] at hlen

end ZeroSync
