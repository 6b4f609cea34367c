/-
The condition of `gatherStartConstraints` against the comparator of the
connection.

For a column of any type but `json` SQLite compares what is stored with what
is bound just as `compareValues` compares the values (`compared`), so each
condition on a column holds where the comparator says so, and the groups of
them where the row is past the start (`groups_iff`). `JSON.stringify` makes a
text of every value, `null` as well, and texts are not in the order of the
values: an ordering with a `json` column is the one that goes wrong
(`gatherStartConstraints_iff`).
-/
import ZeroSync.QueryBuilder

namespace ZeroSync.QueryBuilder

/-! ## What is stored and what is bound -/

/-- A stored and a bound value, and the comparison of the values they stand for. -/
inductive Compared : SQLValue → SQLValue → Ordering → Prop
  | nulls : Compared .null .null .eq
  | storedNull {bound : SQLValue} (h : bound ≠ .null) : Compared .null bound .lt
  | boundNull {stored : SQLValue} (h : stored ≠ .null) : Compared stored .null .gt
  | values {stored bound : SQLValue} {o : Ordering} (h : stored.compare bound = some o) : Compared stored bound o

theorem SQLValue.compare_eq_iff {a b : SQLValue} : a.compare b = some .eq ↔ a = b ∧ a ≠ .null := by
  cases a <;> cases b <;> simp [SQLValue.compare]

theorem SQLValue.notNull_of_compare {a b : SQLValue} {o : Ordering} (h : a.compare b = some o) :
    a ≠ .null ∧ b ≠ .null := by
  cases a <;> cases b <;> simp [SQLValue.compare] at h ⊢

theorem compare_truth (a b : Bool) :
    Ord.compare (if a then 1 else 0 : ℚ) (if b then 1 else 0) = Ord.compare a b := by
  cases a <;> cases b <;> decide

theorem toSQLiteType_ne_null [NumberText] {v : Value} (h : v.rank ≠ 0) (type : ValueType) : toSQLiteType v type ≠ .null := by
  cases v with
  | undefined | null => exact absurd rfl h
  | bool b | num n | str s => cases type <;> simp [toSQLiteType, bind]

theorem compared [NumberText] {type : ValueType} {stored : SQLValue} {v w : Value} (hread : ReadAs type stored v)
    (hadmits : type.admits w = true) (hjson : type ≠ .json) :
    Compared stored (toSQLiteType (normalizeUndefined w) type) (compareValues v w) := by
  cases hread with
  | null =>
    cases w with
    | undefined | null => cases type <;> first | exact .nulls | exact absurd rfl hjson
    | bool b | num n | str s => exact .storedNull (toSQLiteType_ne_null (by simp [normalizeUndefined, Value.rank]) _)
  | boolean b =>
    cases w with
    | undefined | null => exact .boundNull (by simp)
    | bool b' => exact .values (congrArg some (compare_truth b b'))
    | num n | str s => cases hadmits
  | number n =>
    cases w with
    | undefined | null => exact .boundNull (by simp)
    | num n' => exact .values rfl
    | bool b | str s => cases hadmits
  | string s =>
    cases w with
    | undefined | null => exact .boundNull (by simp)
    | str s' => exact .values rfl
    | bool b | num n => cases hadmits
  | json h => exact absurd rfl hjson

/-! ## The conditions on a column -/

@[simp] theorem eval_column (row : StoredRow) (field : String) (op : SQLOperator) (v : SQLValue) :
    (SQLQuery.binary (.ident field) op (.value v)).eval row = op.apply (row field) v := rfl

/-- The comparison that a row past the start has. -/
def RangeOperator.ordering : RangeOperator → Ordering
  | .gt => .gt
  | .lt => .lt

section
variable {row : StoredRow} {field : String} {bound : SQLValue} {o : Ordering} {columnType : SchemaValue}
  (h : Compared (row field) bound o) (hnull : columnType.optional = false → row field ≠ .null)
include h

theorem is_iff : SQLOperator.apply .is (row field) bound = some true ↔ o = .eq := by
  generalize row field = stored at h
  cases h with
  | nulls => simp [SQLOperator.apply]
  | storedNull hbound => simp [SQLOperator.apply, hbound.symm]
  | boundNull hstored => simp [SQLOperator.apply, hstored]
  | values hcompare =>
    have hne := SQLValue.notNull_of_compare hcompare
    have heq := @SQLValue.compare_eq_iff stored bound
    rw [hcompare, Option.some.injEq] at heq
    simp [SQLOperator.apply, heq, hne.1]

theorem range_apply_iff (operator : RangeOperator) (hbound : bound ≠ .null) (hstored : row field ≠ .null) :
    operator.operator.apply (row field) bound = some true ↔ o = operator.ordering := by
  generalize row field = stored at h hstored
  cases h with
  | nulls => exact absurd rfl hbound
  | storedNull => exact absurd rfl hstored
  | boundNull => exact absurd rfl hbound
  | values hcompare =>
    cases operator <;> simp [RangeOperator.operator, RangeOperator.ordering, SQLOperator.apply, hcompare]

theorem null_iff : (bound = .null → (row field = .null ↔ o = .eq) ∧ (row field ≠ .null ↔ o = .gt)) ∧
    (row field = .null → bound ≠ .null → o = .lt) := by
  generalize row field = stored at h
  cases h with
  | nulls => simp
  | storedNull hbound => simp [hbound]
  | boundNull hstored => simp [hstored]
  | values hcompare =>
    have hne := SQLValue.notNull_of_compare hcompare
    simp [hne.1, hne.2]

include hnull

theorem nullableAwareEquality_iff : (nullableAwareEquality field bound columnType).eval row = some true ↔ o = .eq := by
  have his := is_iff h
  unfold nullableAwareEquality
  split_ifs with hbound hoptional
  · exact his
  · exact his
  · have hstored := hnull (by simpa using hoptional)
    rw [eval_column, ← his]
    generalize row field = stored at h hstored
    cases h with
    | nulls => exact absurd rfl hbound
    | storedNull => exact absurd rfl hstored
    | boundNull => exact absurd rfl hbound
    | values hcompare =>
      have heq := @SQLValue.compare_eq_iff stored bound
      simp [SQLOperator.apply, hcompare, hstored] at heq ⊢
      exact heq

theorem nullableAwareRangeComparison_iff (operator : RangeOperator) :
    (nullableAwareRangeComparison field bound operator columnType).eval row = some true ↔ o = operator.ordering := by
  obtain ⟨hboundNull, hstoredNull⟩ := null_iff h
  unfold nullableAwareRangeComparison
  by_cases hbound : bound = .null
  · obtain ⟨heq, hgt⟩ := hboundNull hbound
    rw [if_pos hbound]
    cases operator with
    | gt => simpa [SQLOperator.apply, RangeOperator.ordering] using hgt
    | lt =>
      -- Nothing is before `NULL`.
      by_cases hstored : row field = .null
      · simp [SQLQuery.eval, RangeOperator.ordering, heq.mp hstored]
      · simp [SQLQuery.eval, RangeOperator.ordering, hgt.mp hstored]
  · rw [if_neg hbound]
    dsimp only
    by_cases hstored : row field = .null
    · have hoptional : columnType.optional = true := by
        by_contra hfalse
        exact hnull (by simpa using hfalse) hstored
      rw [if_neg (by simpa using hoptional), hstoredNull hstored hbound]
      cases operator with
      | gt => simp [SQLOperator.apply, RangeOperator.operator, RangeOperator.ordering, hstored, SQLValue.compare]
      | lt => simp [SQLOperator.apply, RangeOperator.ordering, hstored]
    · have happly := range_apply_iff h operator hbound hstored
      split
      · exact happly
      · cases operator with
        | gt => exact happly
        | lt => simpa [SQLOperator.apply, hstored] using happly

theorem sargableLeadingStartBound_holds {operator : RangeOperator} {q : SQLQuery}
    (hq : sargableLeadingStartBound field bound operator columnType = some q)
    (ho : o = .eq ∨ o = operator.ordering) : q.eval row = some true := by
  unfold sargableLeadingStartBound at hq
  split at hq
  · cases hq
  · next hcond =>
    obtain rfl := Option.some.inj hq
    rw [not_or, not_and] at hcond
    rw [eval_column]
    generalize row field = stored at h hnull
    cases h with
    | nulls => exact absurd rfl hcond.1
    | boundNull => exact absurd rfl hcond.1
    | storedNull =>
      cases operator with
      | gt => rcases ho with ho | ho <;> cases ho
      | lt =>
        refine absurd rfl (hnull ?_)
        by_contra htrue
        exact hcond.2 (by simpa using htrue) rfl
    | values hcompare =>
      rcases ho with rfl | rfl <;>
        cases operator <;> simp [SQLOperator.apply, RangeOperator.inclusiveOperator, RangeOperator.ordering, hcompare]

end

/-! ## The comparator in the direction of the fetch -/

/-- How a row compares in the direction of the fetch, from how its columns do. -/
def lexicographic (reverse : Bool) (columns : String → Ordering) : SortOrder → Ordering
  | [] => .eq
  | ord :: order =>
    (match rangeOperator reverse ord.2 with
      | .gt => columns ord.1
      | .lt => (columns ord.1).swap).then (lexicographic reverse columns order)

theorem directed_makeComparator (order : SortOrder) (reverse : Bool) (a b : Row) :
    directed (makeComparator order) reverse a b = lexicographic reverse (fun c => compareValues (a c) (b c)) order := by
  have hswap (c : String) : compareValues (b c) (a c) = (compareValues (a c) (b c)).swap := Std.OrientedCmp.eq_swap
  induction order with
  | nil => cases reverse <;> rfl
  | cons ord order ih =>
    obtain ⟨f, d⟩ := ord
    rw [lexicographic, ← ih]
    cases d <;> cases reverse <;> simp [directed, makeComparator, compareField, rangeOperator, hswap f]

section
variable {reverse : Bool} {columns : String → Ordering}

theorem lexicographic_eq_iff {order : SortOrder} :
    lexicographic reverse columns order = .eq ↔ ∀ ord ∈ order, columns ord.1 = .eq := by
  induction order with
  | nil => simp [lexicographic]
  | cons ord order ih =>
    rw [lexicographic, Ordering.then_eq_eq, ih, List.forall_mem_cons]
    cases rangeOperator reverse ord.2 <;> simp

theorem lexicographic_cons_gt_iff {ord : String × Direction} {order : SortOrder} :
    lexicographic reverse columns (ord :: order) = .gt ↔ columns ord.1 = (rangeOperator reverse ord.2).ordering ∨
      columns ord.1 = .eq ∧ lexicographic reverse columns order = .gt := by
  rw [lexicographic, Ordering.then_eq_gt]
  cases rangeOperator reverse ord.2 <;> cases columns ord.1 <;> simp [RangeOperator.ordering]

theorem lexicographic_swap (order : SortOrder) :
    lexicographic reverse (fun c => (columns c).swap) order = (lexicographic reverse columns order).swap := by
  induction order with
  | nil => rfl
  | cons ord order ih =>
    rw [lexicographic, lexicographic, ih, Ordering.swap_then]
    cases rangeOperator reverse ord.2 <;> rfl

/-- A row that compares with the start like this is one to fetch. -/
def admitted : Basis → Ordering → Bool
  | .at, o => o.isGE
  | .after, o => o = .gt

/-! ## The groups -/

variable [NumberText] {start : Row} {columnTypes : String → SchemaValue} {stored : StoredRow}

theorem groups_iff {before order : SortOrder}
    (h : ∀ ord ∈ before ++ order, Compared (stored ord.1) (constraintValue start columnTypes ord.1) (columns ord.1))
    (hnull : ∀ c, (columnTypes c).optional = false → stored c ≠ .null) :
    (∃ group ∈ groups start reverse columnTypes before order, group.eval stored = some true) ↔
      (∀ ord ∈ before, columns ord.1 = .eq) ∧ lexicographic reverse columns order = .gt := by
  induction order generalizing before with
  | nil => simp [groups, lexicographic]
  | cons ord order ih =>
    have hbefore : (∀ q ∈ before.map (equality start columnTypes), q.eval stored = some true) ↔
        ∀ ord ∈ before, columns ord.1 = .eq := by
      rw [List.forall_mem_map]
      exact forall₂_congr fun ord' hmem => nullableAwareEquality_iff (h ord' (List.mem_append_left _ hmem)) (hnull _)
    have hrange : (range start reverse columnTypes ord).eval stored = some true ↔
        columns ord.1 = (rangeOperator reverse ord.2).ordering :=
      nullableAwareRangeComparison_iff (h ord (by simp)) (hnull _) _
    rw [groups, List.exists_mem_cons_iff, ih (by simpa using h), eval_and_eq_true_iff, List.forall_mem_append,
      List.forall_mem_append, hbefore, List.forall_mem_singleton, List.forall_mem_singleton, hrange,
      lexicographic_cons_gt_iff]
    tauto

theorem leadingBound_holds {order : SortOrder} {q : SQLQuery}
    (h : ∀ ord ∈ order, Compared (stored ord.1) (constraintValue start columnTypes ord.1) (columns ord.1))
    (hnull : ∀ c, (columnTypes c).optional = false → stored c ≠ .null)
    (hq : leadingBound start reverse columnTypes order = some q)
    (hstart : (lexicographic reverse columns order).isGE = true) : q.eval stored = some true := by
  cases order with
  | nil => cases hq
  | cons ord order =>
    refine sargableLeadingStartBound_holds (h ord (by simp)) (hnull _) hq ?_
    rw [lexicographic] at hstart
    revert hstart
    cases rangeOperator reverse ord.2 <;> cases columns ord.1 <;> simp [RangeOperator.ordering]

theorem eval_gatherStartConstraints {order : SortOrder}
    (h : ∀ ord ∈ order, Compared (stored ord.1) (constraintValue start columnTypes ord.1) (columns ord.1))
    (hnull : ∀ c, (columnTypes c).optional = false → stored c ≠ .null) (basis : Basis) :
    (gatherStartConstraints ⟨start, basis⟩ reverse order columnTypes).eval stored = some true ↔
      admitted basis (lexicographic reverse columns order) = true := by
  have hgroups : (∃ group ∈ groups start reverse columnTypes [] order, group.eval stored = some true) ↔
      lexicographic reverse columns order = .gt := by
    rw [groups_iff h hnull]
    simp
  have hequal : (SQLQuery.and (order.map (equality start columnTypes))).eval stored = some true ↔
      lexicographic reverse columns order = .eq := by
    rw [eval_and_eq_true_iff, List.forall_mem_map, lexicographic_eq_iff]
    exact forall₂_congr fun ord hmem => nullableAwareEquality_iff (h ord hmem) (hnull _)
  have hlexicographic : (SQLQuery.or (if basis = .at then
        groups start reverse columnTypes [] order ++ [.and (order.map (equality start columnTypes))]
      else groups start reverse columnTypes [] order)).eval stored = some true ↔
      admitted basis (lexicographic reverse columns order) = true := by
    cases basis with
    | «at» =>
      simp only [if_true, eval_or_eq_true_iff, List.mem_append, List.mem_singleton, or_and_right, exists_or,
        exists_eq_left, hgroups, hequal, admitted]
      cases lexicographic reverse columns order <;> decide
    | after =>
      simp only [reduceCtorEq, if_false, eval_or_eq_true_iff, hgroups, admitted, decide_eq_true_eq]
  unfold gatherStartConstraints
  dsimp only
  cases hleading : leadingBound start reverse columnTypes order with
  | none => exact hlexicographic
  | some q =>
    dsimp only
    rw [eval_and_eq_true_iff, List.forall_mem_cons, List.forall_mem_singleton, hlexicographic]
    refine and_iff_right_of_imp fun hstart => leadingBound_holds h hnull hleading ?_
    unfold admitted at hstart
    split at hstart
    · exact hstart
    · rw [of_decide_eq_true hstart]
      rfl

end

/-! ## Where the condition is right -/

/-- A value of each type. -/
def sampleValue : ValueType → Value
  | .boolean | .json => .bool false
  | .number => .num 0
  | .string => .str ""
  | .null => .null

/-- A row with these values. -/
def sampleRow (columnTypes : String → SchemaValue) : Row := fun c => sampleValue (columnTypes c).type

/-- The row with `null` for its JSON values. -/
def sampleStart (columnTypes : String → SchemaValue) : Row := fun c =>
  if (columnTypes c).type = .json then .null else sampleRow columnTypes c

theorem stores_sampleRow [NumberText] (columnTypes : String → SchemaValue) :
    Stores columnTypes (fun c => toSQLiteType (sampleRow columnTypes c) (columnTypes c).type) (sampleRow columnTypes) where
  readAs c := by
    unfold sampleRow
    cases (columnTypes c).type with
    | boolean => exact .boolean false
    | number => exact .number 0
    | string => exact .string ""
    | null => exact .null .null
    | json => exact .json (by simp [sampleValue])
  notNull c h := by
    have hne : (columnTypes c).type ≠ .null := fun hnull => by
      rw [(columnTypes c).null_optional hnull] at h
      cases h
    unfold sampleRow
    revert hne
    cases (columnTypes c).type <;> simp [sampleValue, toSQLiteType, bind]

theorem admits_sampleStart (columnTypes : String → SchemaValue) (c : String) :
    (columnTypes c).type.admits (sampleStart columnTypes c) = true := by
  unfold sampleStart sampleRow
  cases (columnTypes c).type <;> rfl

/-- **The start of a fetch**: for an ordering without `json` columns, and for no other, the
condition holds of just the rows that the comparator puts at or after the start. -/
theorem gatherStartConstraints_iff [NumberText] (columnTypes : String → SchemaValue) (order : SortOrder)
    (reverse : Bool) (basis : Basis) :
    (∀ (start : Row) (stored : StoredRow) (row : Row), (∀ c, (columnTypes c).type.admits (start c) = true) →
      Stores columnTypes stored row →
      ((gatherStartConstraints ⟨start, basis⟩ reverse order columnTypes).eval stored = some true ↔
        Start.admits (directed (makeComparator order) reverse) ⟨start, basis⟩ row = true)) ↔
    ∀ ord ∈ order, (columnTypes ord.1).type ≠ .json := by
  have hstart (start row : Row) : Start.admits (directed (makeComparator order) reverse) ⟨start, basis⟩ row =
      admitted basis (lexicographic reverse (fun c => compareValues (row c) (start c)) order) := by
    rw [← directed_makeComparator]
    cases basis <;> rfl
  constructor
  · intro h ord hmem hjson
    -- SQLite has the text of `false` before that of `null`.
    let columns : String → Ordering := fun c => if (columnTypes c).type = .json then .lt else .eq
    have hcompared (c : String) : Compared (toSQLiteType (sampleRow columnTypes c) (columnTypes c).type)
        (constraintValue (sampleStart columnTypes) columnTypes c) (columns c) := by
      by_cases hc : (columnTypes c).type = .json
      · have htexts : SQLValue.compare (.text "false") (.text "null") = some .lt := by decide
        simp only [columns, constraintValue, sampleStart, sampleRow, hc, if_true]
        exact .values htexts
      · have hself := compared ((stores_sampleRow columnTypes).readAs c) (admits_sampleStart columnTypes c) hc
        rw [sampleStart, if_neg hc, compareValues_eq_iff.mpr rfl] at hself
        simpa [columns, constraintValue, sampleStart, hc] using hself
    have hvalues : (fun c => compareValues (sampleRow columnTypes c) (sampleStart columnTypes c)) =
        fun c => (columns c).swap := by
      funext c
      by_cases hc : (columnTypes c).type = .json
      · simp only [columns, sampleStart, sampleRow, hc, if_true]
        rfl
      · simp only [columns, sampleStart, hc, if_false]
        exact compareValues_eq_iff.mpr rfl
    have heval := @eval_gatherStartConstraints reverse columns _ (sampleStart columnTypes) columnTypes _ order
      (fun ord _ => hcompared ord.1) (stores_sampleRow columnTypes).notNull basis
    rw [h _ _ _ (admits_sampleStart columnTypes) (stores_sampleRow columnTypes), hstart, hvalues,
      lexicographic_swap] at heval
    have hne : lexicographic reverse columns order ≠ .eq := fun heq => by
      have := lexicographic_eq_iff.mp heq ord hmem
      simp [columns, hjson] at this
    revert heval hne
    cases basis <;> cases lexicographic reverse columns order <;> decide
  · intro hjson start stored row hadmits hstores
    rw [hstart]
    exact eval_gatherStartConstraints
      (fun ord hmem => compared (hstores.readAs ord.1) (hadmits ord.1) (hjson ord hmem)) hstores.notNull basis

section

/-- The texts of whole numbers. -/
@[reducible] def wholeNumbers : NumberText := ⟨fun n => n.num.repr⟩

attribute [local instance] wholeNumbers

/-- Rows with an `id` and a JSON value or none. -/
def metaColumns : String → SchemaValue := fun c =>
  if c = "meta" then ⟨.json, true, fun _ => rfl⟩ else ⟨.string, false, fun h => by cases h⟩

def metaStored : StoredRow := fun c => if c = "meta" then .null else .text "a"

def metaRow : Row := fun c => if c = "meta" then .null else .str "a"

/-- A row without a JSON value is not at the start that it is itself. -/
theorem start_at_null_json : (∀ c, (metaColumns c).type.admits (metaRow c) = true) ∧
    Stores metaColumns metaStored metaRow ∧
    Start.admits (directed (makeComparator [("meta", .asc), ("id", .asc)]) false) ⟨metaRow, .at⟩ metaRow = true ∧
    (gatherStartConstraints ⟨metaRow, .at⟩ false [("meta", .asc), ("id", .asc)] metaColumns).eval metaStored ≠
      some true := by
  have hreads (c : String) : ReadAs (metaColumns c).type (metaStored c) (metaRow c) := by
    unfold metaColumns metaStored metaRow
    split
    · exact .null .json
    · exact .string "a"
  refine ⟨fun c => ?_, ⟨hreads, fun c h => ?_⟩, by decide +kernel, by decide +kernel⟩
  · unfold metaColumns metaRow
    split <;> rfl
  · unfold metaColumns at h
    unfold metaStored
    split at h
    · cases h
    · next hc => simp [hc]

end

end ZeroSync.QueryBuilder
