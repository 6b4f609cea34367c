/-
The SQL of a condition against its predicate.

A stored value compares with what is bound for a literal of its type as the
values do (`compare_bind`), so that a simple condition is true to SQLite just
where the predicate accepts the row (`agrees_simple`), short of the three
things `Portable` names. Conditions are joined alike, for `NULL` is never
negated there (`agrees`).
-/
import ZeroSync.FiltersToSQL
import ZeroSync.QueryBuilderFacts

namespace ZeroSync.QueryBuilder

open ThreeValued (Truth)

/-! ## Operands -/

theorem literalToSQL_value [NumberText] {w : Value} (h : w ≠ .undefined) : literalToSQL (.value w) = bind w := by
  cases w with
  | undefined => exact absurd rfl h
  | null | num n | str s => rfl
  | bool b => cases b <;> rfl

theorem ne_undefined_of_literal {type : ValueType} {w : Value} (h : type.literal w = true) : w ≠ .undefined := by
  rintro rfl
  cases type <;> cases h

theorem readAs_bind [NumberText] {type : ValueType} {w : Value} (h : type.literal w = true) : ReadAs type (bind w) w := by
  cases w with
  | undefined => exact absurd rfl (ne_undefined_of_literal h)
  | null => exact .null type
  | bool b => cases type <;> first | exact .boolean b | cases h
  | num n => cases type <;> first | exact .number n | cases h
  | str s => cases type <;> first | exact .string s | cases h

theorem ReadAs.ne_undefined [NumberText] {type : ValueType} {a : SQLValue} {v : Value} (h : ReadAs type a v) : v ≠ .undefined := by
  cases h with
  | json hv => exact hv
  | _ => exact Value.noConfusion

theorem left_readAs [NumberText] {columnTypes : String → SchemaValue} {stored : StoredRow} {row : Row}
    (hstores : Stores columnTypes stored row) {left : ValuePosition} {type : ValueType}
    (h : leftHasType columnTypes type left = true) :
    ∃ v, left.read row = .value v ∧ ReadAs type ((valuePositionToSQL left).eval stored) v := by
  cases left with
  | column name =>
    have htype : (columnTypes name).type = type := of_decide_eq_true h
    exact ⟨row name, rfl, htype ▸ hstores.readAs name⟩
  | literal value =>
    cases value with
    | array vs => cases h
    | value v =>
      refine ⟨v, rfl, ?_⟩
      have hbind : (valuePositionToSQL (.literal (.value v))).eval stored = bind v :=
        literalToSQL_value (ne_undefined_of_literal h)
      rw [hbind]
      exact readAs_bind h

theorem compare_bind [NumberText] {type : ValueType} {a : SQLValue} {v w : Value} (hread : ReadAs type a v)
    (hw : type.literal w = true) (hne : w ≠ .null) :
    a.compare (bind w) = if v = .null then none else some (compareValues v w) := by
  cases hread with
  | null => rfl
  | boolean b =>
    cases w with
    | bool b' => exact congrArg some (compare_truth b b')
    | null => exact absurd rfl hne
    | undefined | num _ | str _ => cases hw
  | number n =>
    cases w with
    | num n' => rfl
    | null => exact absurd rfl hne
    | undefined | bool _ | str _ => cases hw
  | string s =>
    cases w with
    | str s' => rfl
    | null => exact absurd rfl hne
    | undefined | bool _ | num _ => cases hw
  | json h =>
    cases w with
    | null => exact absurd rfl hne
    | undefined | bool _ | num _ | str _ => cases hw

theorem compareLiterals_ok [NumberText] {type : ValueType} {a : SQLValue} {v w : Value} (hread : ReadAs type a v)
    (hw : type.literal w = true) : Throwing.compareLiterals (.value v) (.value w) = .ok (compareValues v w) := by
  refine if_pos ?_
  cases hread with
  | null => exact .inr (.inl rfl)
  | boolean b | number n | string s | json h =>
    cases w with
    | null => exact .inr (.inr rfl)
    | undefined => cases hw
    | bool _ | num _ | str _ => first | exact .inl rfl | cases hw

theorem compareValues_eq_iff_eq {v w : Value} (hv : v ≠ .undefined) (hw : w ≠ .undefined) :
    compareValues v w = .eq ↔ v = w := by
  have hnormal {u : Value} (hu : u ≠ .undefined) : normalizeUndefined u = u := by
    cases u with
    | undefined => exact absurd rfl hu
    | _ => rfl
  rw [compareValues_eq_iff, hnormal hv, hnormal hw]

theorem same_eq {v w : Value} (hv : v ≠ .undefined) (hw : w ≠ .undefined) :
    (LiteralValue.value v).same (.value w) = decide (compareValues v w = .eq) :=
  Bool.eq_iff_iff.mpr (by simp [LiteralValue.same, compareValues_eq_iff_eq hv hw])

theorem compare_bind_eq_iff [NumberText] {type : ValueType} {a : SQLValue} {v w : Value} (hread : ReadAs type a v)
    (hw : type.literal w = true) (hne : w ≠ .null) : a.compare (bind w) = some .eq ↔ v = w := by
  rw [compare_bind hread hw hne]
  by_cases hnull : v = .null
  · simp [hnull, hne.symm]
  · simp [hnull, compareValues_eq_iff_eq hread.ne_undefined (ne_undefined_of_literal hw)]

theorem compare_null (a : SQLValue) : a.compare .null = none := by cases a <;> rfl

theorem apply_null {op : SQLOperator} (hop : ¬(op = .is ∨ op = .isNot)) (a : SQLValue) : op.apply a .null = none := by
  cases op <;> first | exact absurd (by decide) hop | simp [SQLOperator.apply, compare_null]

theorem isIn_null (a : SQLValue) : a.isIn [.null] = none := by
  rw [SQLValue.isIn, List.map_singleton, apply_null (by decide)]
  rfl

theorem like_null (a : SQLValue) : a.like .null = none := by cases a <;> rfl

@[simp] theorem negate_none (negated : Bool) : negate negated none = none := by cases negated <;> rfl

/-- What a literal on the right is, if it is not `null`. -/
theorem rightHasType_value {type : ValueType} {op : SimpleOperator} {w : Value} (hne : w ≠ .null) :
    rightHasType type op (.value w) = match op with
      | .ilike | .notIlike | .in | .notIn => false
      | .like | .notLike => type = .string ∧ type.literal w
      | _ => type.literal w := by
  cases w with
  | null => exact absurd rfl hne
  | _ => cases op <;> rfl

theorem isIn_bind_iff [NumberText] {type : ValueType} {a : SQLValue} {v : Value} (hread : ReadAs type a v) {vs : List Value}
    (hvs : ∀ w ∈ vs, w ≠ .null ∧ type.literal w = true) :
    (a.isIn (vs.map bind) = some true ↔ v ≠ .null ∧ v ∈ vs) ∧
      (a.isIn (vs.map bind) = some false ↔ ∀ w ∈ vs, v ≠ .null ∧ v ≠ w) := by
  have happly {w : Value} (hw : w ∈ vs) : SQLOperator.eq.apply a (bind w) =
      if v = .null then none else some (decide (v = w)) := by
    obtain ⟨hne, hliteral⟩ := hvs w hw
    have heq := compareValues_eq_iff_eq hread.ne_undefined (ne_undefined_of_literal hliteral)
    rw [SQLOperator.apply, compare_bind hread hliteral hne]
    by_cases hnull : v = .null <;> simp [hnull, ← heq]
  rw [SQLValue.isIn, List.map_map, ThreeValued.any_eq_true_iff, ThreeValued.any_eq_false_iff, List.forall_mem_map]
  constructor
  · rw [List.mem_map]
    constructor
    · rintro ⟨w, hw, htrue⟩
      rw [Function.comp_apply, happly hw] at htrue
      by_cases hnull : v = .null
      · simp [hnull] at htrue
      · have hv : v = w := by simpa [hnull] using htrue
        exact ⟨hnull, hv ▸ hw⟩
    · rintro ⟨hnull, hv⟩
      exact ⟨v, hv, by rw [Function.comp_apply, happly hv, if_neg hnull, decide_eq_true rfl]⟩
  · refine forall₂_congr fun w hw => ?_
    rw [Function.comp_apply, happly hw]
    by_cases hnull : v = .null <;> simp [hnull]

theorem likePredicate_eq [NumberText] {pattern : String} (h : Like.endsInEscape (Like.units pattern.toList) = false) :
    ∃ predicate, likePredicate (.value (.str pattern)) = .ok predicate ∧ ∀ s, ∃ b, predicate (.value (.str s)) = .ok b ∧
      (b = true ↔ Like.LikeMatches (Like.units pattern.toList) (Like.units s.toList)) := by
  cases hpieces : Like.likePieces (Like.units pattern.toList) with
  | none => cases h.symm.trans ((Like.likePieces_eq_none _).mp hpieces)
  | some ps =>
    obtain ⟨op, hop, hspells⟩ := Like.getLikeOp_pieces hpieces
    have hlike : Like.getLikePredicate (Like.units (stringOf (.value (.str pattern))).toList) = .ok op := by
      rw [Like.getLikePredicate, stringOf, hop]
      rfl
    rw [likePredicate, hlike]
    refine ⟨_, rfl, fun s => ⟨op (Like.units s.toList), rfl, ?_⟩⟩
    rw [hspells, Like.likeMatches_iff hpieces]

/-! ## Simple conditions -/

section
variable [NumberText] (lower : String → String)
  (ignoreCase : LiteralValue → Except PredicateError (LiteralValue → Except PredicateError Bool))

/-- The predicate can be built and throws nothing, and SQLite and it decide the same. -/
def Agrees (stored : StoredRow) (row : Row) (c : NoSubqueryCondition) : Prop :=
  ∃ predicate b, Throwing.createPredicate (getLikePredicate ignoreCase) c = .ok predicate ∧ predicate row = .ok b ∧
    ((filtersToSQL lower c).eval stored = some true ↔ b = true)

variable {lower ignoreCase} {columnTypes : String → SchemaValue} {stored : StoredRow} {row : Row}

theorem agrees_of_simple {c : SimpleCondition} {b : Bool} {predicate : Row → Except PredicateError Bool}
    (hbuilt : Throwing.simplePredicate (getLikePredicate ignoreCase) c = .ok predicate) (hrow : predicate row = .ok b)
    (heval : (simpleConditionToSQL lower c).eval stored = some true ↔ b = true) :
    Agrees lower ignoreCase stored row (.simple c) :=
  ⟨predicate, b, by rw [Throwing.createPredicate]; exact hbuilt, hrow, by rw [filtersToSQL]; exact heval⟩

/-- A predicate of an operator other than `IS` and `IS NOT`, from what its implementation gives. -/
theorem agrees_of_impl {c : SimpleCondition} {v : Value} {b : Bool} {impl : LiteralValue → Except PredicateError Bool}
    (hop : ¬(c.op = .is ∨ c.op = .isNot)) (hright : c.right.isNullish = false)
    (himpl : Throwing.createPredicateImpl (getLikePredicate ignoreCase) c.right c.op = .ok impl)
    (hleft : c.left.read row = .value v) (hv : v ≠ .undefined) (hb : v ≠ .null → impl (.value v) = .ok b)
    (heval : (simpleConditionToSQL lower c).eval stored = some true ↔ v ≠ .null ∧ b = true) :
    Agrees lower ignoreCase stored row (.simple c) := by
  have hnullish : (LiteralValue.value v).isNullish = decide (v = .null) := by
    cases v with
    | undefined => exact absurd rfl hv
    | null => rfl
    | bool _ | num _ | str _ => rfl
  have hbuilt : ∃ predicate, Throwing.simplePredicate (getLikePredicate ignoreCase) c = .ok predicate ∧
      predicate row = .ok (decide (v ≠ .null) && b) := by
    obtain ⟨op, left, right⟩ := c
    dsimp only at *
    rw [Throwing.simplePredicate, if_neg hop, if_neg (by rw [hright]; exact Bool.false_ne_true), himpl]
    cases left with
    | column name =>
      refine ⟨_, rfl, ?_⟩
      have hname : LiteralValue.value (row name) = .value v := hleft
      dsimp only
      rw [hname, hnullish]
      by_cases hnull : v = .null
      · simp [hnull]
      · simp [hnull, hb hnull]
    | literal value =>
      have hvalue : value = .value v := hleft
      subst hvalue
      by_cases hnull : v = .null
      · subst hnull
        exact ⟨fun _ => .ok false, rfl, rfl⟩
      · exact ⟨fun _ => .ok b, by simp [hnullish, hnull, hb hnull, Bind.bind, Except.bind, pure, Except.pure],
          by simp [hnull]⟩
  obtain ⟨predicate, hpredicate, hrow⟩ := hbuilt
  exact agrees_of_simple hpredicate hrow (heval.trans (by simp))

/-- What holds of a condition whose right side is `null`, but for `IS` and `IS NOT`: neither is true. -/
theorem agrees_of_right_null {c : SimpleCondition} (hop : ¬(c.op = .is ∨ c.op = .isNot)) (hright : c.right = .value .null) :
    Agrees lower ignoreCase stored row (.simple c) := by
  obtain ⟨op, left, right⟩ := c
  dsimp only at *
  subst hright
  have hbuilt : Throwing.simplePredicate (getLikePredicate ignoreCase) ⟨op, left, .value .null⟩ =
      .ok fun _ => .ok false := by
    rw [Throwing.simplePredicate, if_neg hop]
    exact if_pos rfl
  have hnone : (simpleConditionToSQL lower ⟨op, left, .value .null⟩).eval stored = none := by
    cases op with
    | is => exact absurd (.inl rfl) hop
    | isNot => exact absurd (.inr rfl) hop
    | «in» => exact isIn_null _
    | notIn => exact congrArg (negate true) (isIn_null _)
    | like | ilike => exact like_null _
    | notLike | notIlike => exact congrArg (negate true) (like_null _)
    | eq | ne | lt | gt | le | ge =>
      have hright : (valuePositionToSQL (.literal (.value .null))).eval stored = .null := rfl
      simp [simpleConditionToSQL, SQLQuery.eval, hright, apply_null]
  exact agrees_of_simple hbuilt rfl (by simp [hnone])

theorem agrees_comparison {op : SimpleOperator} {left : ValuePosition} {type : ValueType} {w v : Value}
    {sqlOp : SQLOperator} {test : Ordering → Bool} (hop : ¬(op = .is ∨ op = .isNot))
    (hread : ReadAs type ((valuePositionToSQL left).eval stored) v) (hleft : left.read row = .value v)
    (hw : type.literal w = true) (hne : w ≠ .null) {impl : LiteralValue → Except PredicateError Bool}
    (himpl : Throwing.createPredicateImpl (getLikePredicate ignoreCase) (.value w) op = .ok impl)
    (hresult : impl (.value v) = .ok (test (compareValues v w)))
    (hsql : simpleConditionToSQL lower ⟨op, left, .value w⟩ =
      .binary (valuePositionToSQL left) sqlOp (valuePositionToSQL (.literal (.value w))))
    (happly : ∀ a b, sqlOp.apply a b = (a.compare b).map test) :
    Agrees lower ignoreCase stored row (.simple ⟨op, left, .value w⟩) := by
  have hnullish : (LiteralValue.value w).isNullish = false := by
    cases w with
    | undefined => exact absurd rfl (ne_undefined_of_literal hw)
    | null => exact absurd rfl hne
    | bool _ | num _ | str _ => rfl
  refine agrees_of_impl hop hnullish himpl hleft hread.ne_undefined (fun _ => hresult) ?_
  have hright : (valuePositionToSQL (.literal (.value w))).eval stored = bind w :=
    literalToSQL_value (ne_undefined_of_literal hw)
  rw [hsql, SQLQuery.eval, happly, hright, compare_bind hread hw hne]
  by_cases hnull : v = .null <;> simp [hnull]

theorem agrees_is (negated : Bool) {left : ValuePosition} {type : ValueType} {w v : Value}
    (hread : ReadAs type ((valuePositionToSQL left).eval stored) v) (hleft : left.read row = .value v)
    (hw : type.literal w = true) (hstored : w = .null → v = .null → (valuePositionToSQL left).eval stored = .null) :
    Agrees lower ignoreCase stored row (.simple ⟨if negated then .isNot else .is, left, .value w⟩) := by
  have hright : (valuePositionToSQL (.literal (.value w))).eval stored = bind w :=
    literalToSQL_value (ne_undefined_of_literal hw)
  have hsame : (valuePositionToSQL left).eval stored = bind w ↔ v = w := by
    generalize (valuePositionToSQL left).eval stored = a at hread hstored
    by_cases hne : w = .null
    · subst hne
      refine ⟨fun ha => ?_, fun hv => hstored rfl hv⟩
      have ha : a = .null := ha
      subst ha
      cases hread
      rfl
    · have hbind : bind w ≠ .null := by
        cases w with
        | undefined => exact absurd rfl (ne_undefined_of_literal hw)
        | null => exact absurd rfl hne
        | bool _ | num _ | str _ => exact SQLValue.noConfusion
      rw [← compare_bind_eq_iff hread hw hne, SQLValue.compare_eq_iff]
      exact ⟨fun ha => ⟨ha, ha ▸ hbind⟩, And.left⟩
  have himpl (lhs : LiteralValue) (hlhs : lhs = .value v) : createIsPredicate (.value w)
      (if negated then .isNot else .is) lhs = (if negated then !decide (v = w) else decide (v = w)) := by
    subst hlhs
    cases negated <;> rfl
  have hbuilt : ∃ predicate, Throwing.simplePredicate (getLikePredicate ignoreCase)
      ⟨if negated then .isNot else .is, left, .value w⟩ = .ok predicate ∧
        predicate row = .ok (if negated then !decide (v = w) else decide (v = w)) := by
    rw [Throwing.simplePredicate, if_pos (by cases negated <;> simp)]
    cases left with
    | literal value => exact ⟨_, rfl, congrArg Except.ok (himpl value hleft)⟩
    | column name => exact ⟨_, rfl, congrArg Except.ok (himpl (.value (row name)) hleft)⟩
  obtain ⟨predicate, hpredicate, hrow⟩ := hbuilt
  refine agrees_of_simple hpredicate hrow ?_
  cases negated <;> simp [simpleConditionToSQL, SQLQuery.eval, SQLOperator.apply, hright, hsame]

theorem agrees_in (negated : Bool) {left : ValuePosition} {type : ValueType} {vs : List Value} {v : Value}
    (hread : ReadAs type ((valuePositionToSQL left).eval stored) v) (hleft : left.read row = .value v)
    (hvs : ∀ w ∈ vs, w ≠ .null ∧ type.literal w = true) (hempty : negated = true → vs = [] → v ≠ .null) :
    Agrees lower ignoreCase stored row (.simple ⟨if negated then .notIn else .in, left, .array vs⟩) := by
  have hany : (vs.any fun w => (LiteralValue.value v).same (.value w)) = true ↔ v ∈ vs := by
    simp [LiteralValue.same]
  obtain ⟨htrue, hfalse⟩ := isIn_bind_iff hread hvs
  cases negated with
  | false =>
    refine agrees_of_impl (by simp) rfl rfl hleft hread.ne_undefined (fun _ => rfl) ?_
    rw [hany]
    exact htrue
  | true =>
    refine agrees_of_impl (by simp) rfl rfl hleft hread.ne_undefined (fun _ => rfl) ?_
    have hnot : (!vs.any fun w => (LiteralValue.value v).same (.value w)) = true ↔ v ∉ vs := by
      rw [Bool.not_eq_true', ← Bool.not_eq_true, hany]
    rw [hnot]
    refine (ThreeValued.Truth.not_eq_true_iff.trans hfalse).trans ?_
    cases vs with
    | nil => simp [hempty rfl rfl]
    | cons w vs =>
      constructor
      · exact fun h => ⟨(h w List.mem_cons_self).1, fun hv => (h v hv).2 rfl⟩
      · rintro ⟨hnull, hv⟩ w hw
        exact ⟨hnull, fun heq => hv (heq ▸ hw)⟩

theorem agrees_like (negated : Bool) {left : ValuePosition} {pattern : String} {v : Value}
    (hread : ReadAs .string ((valuePositionToSQL left).eval stored) v) (hleft : left.read row = .value v)
    (hpattern : PlainPattern pattern) (hplain : ∀ s, v = .str s → PlainFor pattern s) :
    Agrees lower ignoreCase stored row (.simple ⟨if negated then .notLike else .like, left, .value (.str pattern)⟩) := by
  have himpl : ∃ impl, Throwing.createPredicateImpl (getLikePredicate ignoreCase) (.value (.str pattern))
      (if negated then .notLike else .like) = .ok impl ∧ ∀ s, ∃ b, impl (.value (.str s)) = .ok (b ^^ negated) ∧
        (b = true ↔ Like.LikeMatches (Like.units pattern.toList) (Like.units s.toList)) := by
    obtain ⟨predicate, hpredicate, hmatches⟩ := likePredicate_eq hpattern.2
    cases negated with
    | false =>
      refine ⟨predicate, hpredicate, fun s => ?_⟩
      obtain ⟨b, hb, hiff⟩ := hmatches s
      exact ⟨b, by rw [hb, Bool.xor_false], hiff⟩
    | true =>
      refine ⟨fun lhs => (predicate lhs).map not, congrArg (Except.map _) hpredicate, fun s => ?_⟩
      obtain ⟨b, hb, hiff⟩ := hmatches s
      exact ⟨b, (congrArg (Except.map not) hb).trans (by rw [Bool.xor_true]; rfl), hiff⟩
  have hsql : (simpleConditionToSQL lower ⟨if negated then .notLike else .like, left, .value (.str pattern)⟩).eval stored =
      negate negated (((valuePositionToSQL left).eval stored).like (.text pattern)) := by
    cases negated <;> rfl
  have hop : ¬((if negated then SimpleOperator.notLike else .like) = .is ∨
      (if negated then SimpleOperator.notLike else .like) = .isNot) := by cases negated <;> simp
  obtain ⟨impl, himpl, hresult⟩ := himpl
  generalize (valuePositionToSQL left).eval stored = a at hread hsql
  cases hread with
  | null =>
    refine agrees_of_impl (b := false) hop rfl himpl hleft Value.noConfusion (fun hne => absurd rfl hne) ?_
    rw [hsql]
    exact iff_of_false (by simp [SQLValue.like]) (by simp)
  | string s =>
    obtain ⟨b, hb, hiff⟩ := hresult s
    obtain ⟨hnul, hunits⟩ := hplain s rfl
    have hlike : SQLValue.like (.text s) (.text pattern) = some b := by
      rw [SQLValue.like, Like.untilNul_eq hpattern.1, Like.untilNul_eq hnul, Option.some.injEq, Bool.eq_iff_iff, hiff,
        Like.likeMatch_iff hunits]
    refine agrees_of_impl hop rfl himpl hleft Value.noConfusion (fun _ => hb) ?_
    rw [hsql, hlike]
    cases negated <;> cases b <;> simp [negate, ThreeValued.Truth.not]

/-- **A simple condition** whose operands are of one type. -/
theorem agrees_simple (hstores : Stores columnTypes stored row) {c : SimpleCondition} (htyped : WellTyped columnTypes c)
    (hportable : Portable stored row c) : Agrees lower ignoreCase stored row (.simple c) := by
  obtain ⟨type, hleft, hright⟩ := htyped
  obtain ⟨v, hv, hread⟩ := left_readAs hstores hleft
  obtain ⟨op, left, right⟩ := c
  dsimp only at hleft hright hv hread
  cases right with
  | array vs =>
    have hvs (h : (vs.all fun v => v ≠ .null ∧ type.literal v) = true) : ∀ w ∈ vs, w ≠ .null ∧ type.literal w = true :=
      fun w hw => of_decide_eq_true (List.all_eq_true.mp h w hw)
    cases op with
    | «in» => exact agrees_in false hread hv (hvs hright) Bool.noConfusion
    | notIn =>
      refine agrees_in true hread hv (hvs hright) fun _ hempty hnull => ?_
      have hnullish : (left.read row).isNullish = false := hportable hempty
      rw [hv, hnull] at hnullish
      cases hnullish
    | _ => cases hright
  | value w =>
    by_cases hne : w = .null
    · subst hne
      have hliteral : type.literal .null = true := by cases type <;> rfl
      have hstored (h : ∀ name, left = .column name → row name = .null → stored name = .null) :
          Value.null = .null → v = .null → (valuePositionToSQL left).eval stored = .null := by
        rintro - rfl
        cases left with
        | column name => exact h name rfl (LiteralValue.value.inj hv)
        | literal value =>
          have hvalue : value = .value .null := hv
          subst hvalue
          rfl
      cases op with
      | is => exact agrees_is false hread hv hliteral (hstored hportable)
      | isNot => exact agrees_is true hread hv hliteral (hstored hportable)
      | _ => exact agrees_of_right_null (by simp) rfl
    · rw [rightHasType_value hne] at hright
      have hsame (hliteral : type.literal w = true) := same_eq hread.ne_undefined (ne_undefined_of_literal hliteral)
      cases op with
      | ilike | notIlike | «in» | notIn => cases hright
      | is => exact agrees_is false hread hv hright fun h => absurd h hne
      | isNot => exact agrees_is true hread hv hright fun h => absurd h hne
      | like | notLike =>
        obtain ⟨rfl, hliteral⟩ := of_decide_eq_true hright
        cases w with
        | str pattern =>
          have hplain := fun s hs => hportable.2 s (hv.trans (congrArg LiteralValue.value hs))
          first | exact agrees_like false hread hv hportable.1 hplain | exact agrees_like true hread hv hportable.1 hplain
        | null => exact absurd rfl hne
        | undefined | bool _ | num _ => cases hliteral
      | eq => exact agrees_comparison (by simp) hread hv hright hne rfl (congrArg Except.ok (hsame hright)) rfl fun _ _ => rfl
      | ne =>
        refine agrees_comparison (by simp) hread hv hright hne rfl (congrArg Except.ok ?_) rfl fun _ _ => rfl
        rw [hsame hright, decide_not]
      | lt | gt | le | ge =>
        exact agrees_comparison (by simp) hread hv hright hne rfl
          (congrArg (Except.map _) (compareLiterals_ok hread hright)) rfl fun _ _ => rfl

/-! ## Conditions -/

omit [NumberText] in
theorem condition_induction {motive : NoSubqueryCondition → Prop} (simple : ∀ c, motive (.simple c))
    (group : ∀ type conditions, (∀ c ∈ conditions, motive c) → motive (.group type conditions)) : ∀ c, motive c
  | .simple c => simple c
  | .group type conditions => group type conditions fun c _ => condition_induction simple group c

theorem conditionsToSQL_eq_map (conditions : List NoSubqueryCondition) :
    conditionsToSQL lower conditions = conditions.map (filtersToSQL lower) := by
  induction conditions with
  | nil => rfl
  | cons c conditions ih => rw [conditionsToSQL, ih, List.map_cons]

omit [NumberText] in
theorem leavesOf_eq_flatMap (conditions : List NoSubqueryCondition) : leavesOf conditions = conditions.flatMap leaves := by
  induction conditions with
  | nil => rfl
  | cons c conditions ih => rw [leavesOf, ih, List.flatMap_cons]

theorem eval_group (type : Connective) (conditions : List NoSubqueryCondition) :
    (filtersToSQL lower (.group type conditions)).eval stored = some true ↔ match type with
      | .and => ∀ c ∈ conditions, (filtersToSQL lower c).eval stored = some true
      | .or => ∃ c ∈ conditions, (filtersToSQL lower c).eval stored = some true := by
  cases type with
  | and =>
    rw [filtersToSQL]
    split
    · next hempty => simp [hempty, SQLQuery.eval]
    · rw [eval_and_eq_true_iff, conditionsToSQL_eq_map, List.forall_mem_map]
  | or =>
    rw [filtersToSQL]
    split
    · next hempty => simp [hempty, SQLQuery.eval]
    · rw [eval_or_eq_true_iff, conditionsToSQL_eq_map]
      simp

theorem createPredicates_agree {conditions : List NoSubqueryCondition}
    (h : ∀ c ∈ conditions, Agrees lower ignoreCase stored row c) :
    ∃ predicates conj disj, Throwing.createPredicates (getLikePredicate ignoreCase) conditions = .ok predicates ∧
      Throwing.everyPredicate predicates row = .ok conj ∧ Throwing.somePredicate predicates row = .ok disj ∧
      ((∀ c ∈ conditions, (filtersToSQL lower c).eval stored = some true) ↔ conj = true) ∧
      ((∃ c ∈ conditions, (filtersToSQL lower c).eval stored = some true) ↔ disj = true) := by
  induction conditions with
  | nil => exact ⟨[], true, false, rfl, rfl, rfl, by simp, by simp⟩
  | cons c conditions ih =>
    obtain ⟨hc, hconditions⟩ := List.forall_mem_cons.mp h
    obtain ⟨predicate, b, hpredicate, hrow, hb⟩ := hc
    obtain ⟨predicates, conj, disj, hpredicates, hconj, hdisj, hconjIff, hdisjIff⟩ := ih hconditions
    refine ⟨predicate :: predicates, b && conj, b || disj, ?_, ?_, ?_, ?_, ?_⟩
    · rw [Throwing.createPredicates, hpredicate, hpredicates]
      rfl
    · rw [Throwing.everyPredicate, hrow, hconj]
      cases b <;> rfl
    · rw [Throwing.somePredicate, hrow, hdisj]
      cases b <;> rfl
    · rw [List.forall_mem_cons, hb, hconjIff, Bool.and_eq_true]
    · rw [List.exists_mem_cons_iff, hb, hdisjIff, Bool.or_eq_true]

theorem agrees {c : NoSubqueryCondition} (h : ∀ s ∈ leaves c, Agrees lower ignoreCase stored row (.simple s)) :
    Agrees lower ignoreCase stored row c := by
  induction c using condition_induction with
  | simple c => exact h c (by simp [leaves])
  | group type conditions ih =>
    rw [leaves, leavesOf_eq_flatMap] at h
    obtain ⟨predicates, conj, disj, hpredicates, hconj, hdisj, hconjIff, hdisjIff⟩ :=
      createPredicates_agree fun c hc => ih c hc fun s hs => h s (List.mem_flatMap.mpr ⟨c, hc, hs⟩)
    cases type with
    | and =>
      refine ⟨Throwing.everyPredicate predicates, conj, ?_, hconj, (eval_group _ _).trans hconjIff⟩
      rw [Throwing.createPredicate, hpredicates]
      rfl
    | or =>
      refine ⟨Throwing.somePredicate predicates, disj, ?_, hdisj, (eval_group _ _).trans hdisjIff⟩
      rw [Throwing.createPredicate, hpredicates]
      rfl

end

/-- **A condition without subqueries** is true of a stored row just where its predicate accepts the row that is read, if
its literals are of the types of the columns and it asks nothing of the row that the two read differently. -/
theorem filtersToSQL_iff_createPredicate [NumberText] (lower : String → String)
    (ignoreCase : LiteralValue → Except PredicateError (LiteralValue → Except PredicateError Bool))
    {columnTypes : String → SchemaValue} {stored : StoredRow} {row : Row} (hstores : Stores columnTypes stored row)
    {c : NoSubqueryCondition} (htyped : ∀ s ∈ leaves c, WellTyped columnTypes s)
    (hportable : ∀ s ∈ leaves c, Portable stored row s) :
    (filtersToSQL lower c).eval stored = some true ↔
      ∃ predicate, Throwing.createPredicate (getLikePredicate ignoreCase) c = .ok predicate ∧ predicate row = .ok true := by
  obtain ⟨predicate, b, hpredicate, hrow, hb⟩ : Agrees lower ignoreCase stored row c :=
    agrees fun s hs => agrees_simple hstores (htyped s hs) (hportable s hs)
  rw [hb]
  constructor
  · rintro rfl
    exact ⟨predicate, hpredicate, hrow⟩
  · rintro ⟨predicate', hpredicate', hrow'⟩
    obtain rfl := Except.ok.inj (hpredicate.symm.trans hpredicate')
    exact Except.ok.inj (hrow.symm.trans hrow')

section
attribute [local instance] wholeNumbers

/-- Rows with a `title`. -/
def titleColumns : String → SchemaValue := fun _ => ⟨.string, false, ValueType.noConfusion⟩

def titleStored (title : String) : StoredRow := fun _ => .text title

def titleRow (title : String) : Row := fun _ => .str title

theorem stores_title (title : String) : Stores titleColumns (titleStored title) (titleRow title) where
  readAs _ := .string title
  notNull _ _ := SQLValue.noConfusion

/-- Titles of one letter or more that are not `b`: of the title `a`. -/
theorem filtersToSQL_iff_createPredicate_title :
    let c : NoSubqueryCondition := .group .and
      [.simple ⟨.like, .column "title", .value (.str "_%")⟩, .simple ⟨.notIn, .column "title", .array [.str "b"]⟩]
    (filtersToSQL id c).eval (titleStored "a") = some true ↔
      ∃ predicate, Throwing.createPredicate (getLikePredicate fun _ => .error .likePattern) c = .ok predicate ∧
        predicate (titleRow "a") = .ok true := by
  refine filtersToSQL_iff_createPredicate id _ (stores_title "a") ?_ ?_
  · exact List.forall_mem_cons.mpr ⟨⟨.string, by decide, by decide⟩,
      List.forall_mem_cons.mpr ⟨⟨.string, by decide, by decide⟩, List.forall_mem_nil _⟩⟩
  · refine List.forall_mem_cons.mpr ⟨⟨⟨by decide +kernel, by decide +kernel⟩, fun s hs => ?_⟩,
      List.forall_mem_cons.mpr ⟨fun h => (by cases h), List.forall_mem_nil _⟩⟩
    obtain rfl : "a" = s := Value.str.inj (LiteralValue.value.inj hs)
    have hletter : "a".toList = ['a'] := by decide
    exact ⟨by decide +kernel, fun _ => hletter ▸ List.forall_mem_singleton.mpr (by decide)⟩

/-- An emoji is one character to SQLite and two code units to the predicate. -/
theorem like_underscore_emoji :
    let c : NoSubqueryCondition := .simple ⟨.like, .column "title", .value (.str "_")⟩
    Stores titleColumns (titleStored "😀") (titleRow "😀") ∧ (∀ s ∈ leaves c, WellTyped titleColumns s) ∧
      (filtersToSQL id c).eval (titleStored "😀") = some true ∧
      ∃ predicate, Throwing.createPredicate (getLikePredicate fun _ => .error .likePattern) c = .ok predicate ∧
        predicate (titleRow "😀") = .ok false := by
  refine ⟨stores_title _, ?_, by decide +kernel, _, rfl, by decide +kernel⟩
  exact List.forall_mem_singleton.mpr ⟨.string, by decide, by decide⟩

end

end ZeroSync.QueryBuilder
