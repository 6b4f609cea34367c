/-
`createPredicate` of `zql/src/builder/filter.ts` for a condition without subqueries, with
what it throws, and what it makes of a column that a row leaves out.

A column that is not there reads as `undefined`, which the comparisons of `data.ts` take
for `null`. So do all operators but `IS` and `IS NOT` (`simpleResult_normalizeRow`);
whether a predicate as a whole does is a matter of what these two decide in it
(`createPredicate_normalizeRow_iff`).
-/
import ZeroSync.Filter
import ZeroSync.Fallible

namespace ZeroSync

/-- `NoSubqueryCondition`. -/
inductive NoSubqueryCondition
  | simple (condition : SimpleCondition)
  | group (type : Connective) (conditions : List NoSubqueryCondition)

/-- What is thrown when a predicate is built or applied. -/
inductive PredicateError
  /-- `Cannot compare values of different types: ${typeof a} and ${typeof b}` -/
  | differentTypes
  /-- `Unsupported type: ${a}` -/
  | unsupportedType
  /-- `Expected rhs to be an array for IN operator`, or for `NOT IN` -/
  | notAnArray
  /-- `LIKE pattern must not end with escape character` -/
  | likePattern
  /-- `assertString` -/
  | notAString
  /-- `Unexpected operator: ${operator}` -/
  | unexpectedOperator
  deriving DecidableEq

namespace Throwing

/-- `compareValues`, of what may be a list. -/
def compareLiterals : LiteralValue → LiteralValue → Except PredicateError Ordering
  | .value a, .value b =>
    if a.rank = b.rank ∨ a.rank = 0 ∨ b.rank = 0 then .ok (compareValues a b) else .error .differentTypes
  | .value a, .array _ => if a.rank = 0 then .ok .lt else .error .differentTypes
  | .array _, .value b => if b.rank = 0 then .ok .gt else .error .differentTypes
  | .array _, .array _ => .error .unsupportedType

section
variable (getLikePredicate : LiteralValue → Bool → Except PredicateError (LiteralValue → Except PredicateError Bool))

def createPredicateImpl (rhs : LiteralValue) (op : SimpleOperator) :
    Except PredicateError (LiteralValue → Except PredicateError Bool) :=
  match op with
  | .eq => .ok fun lhs => .ok (lhs.same rhs)
  | .ne => .ok fun lhs => .ok (!lhs.same rhs)
  | .lt => .ok fun lhs => (compareLiterals lhs rhs).map fun c => c = .lt
  | .le => .ok fun lhs => (compareLiterals lhs rhs).map fun c => c ≠ .gt
  | .gt => .ok fun lhs => (compareLiterals lhs rhs).map fun c => c = .gt
  | .ge => .ok fun lhs => (compareLiterals lhs rhs).map fun c => c ≠ .lt
  | .like => getLikePredicate rhs false
  | .notLike => (getLikePredicate rhs false).map fun like lhs => (like lhs).map not
  | .ilike => getLikePredicate rhs true
  | .notIlike => (getLikePredicate rhs true).map fun like lhs => (like lhs).map not
  | .in =>
    match rhs with
    | .array rhs => .ok fun lhs => .ok (rhs.any fun v => lhs.same (.value v))
    | .value _ => .error .notAnArray
  | .notIn =>
    match rhs with
    | .array rhs => .ok fun lhs => .ok (!rhs.any fun v => lhs.same (.value v))
    | .value _ => .error .notAnArray
  | .is | .isNot => .error .unexpectedOperator

/-- `createPredicate` of a simple condition. -/
def simplePredicate (c : SimpleCondition) : Except PredicateError (Row → Except PredicateError Bool) :=
  if c.op = .is ∨ c.op = .isNot then
    let impl := createIsPredicate c.right c.op
    match c.left with
    | .literal value => .ok fun _ => .ok (impl value)
    | .column name => .ok fun row => .ok (impl (.value (row name)))
  else if c.right.isNullish then .ok fun _ => .ok false
  else do
    let impl ← createPredicateImpl getLikePredicate c.right c.op
    match c.left with
    | .literal value =>
      if value.isNullish then return fun _ => .ok false
      else
        let result ← impl value
        return fun _ => .ok result
    | .column name =>
      return fun row =>
        let lhs := LiteralValue.value (row name)
        if lhs.isNullish then .ok false else impl lhs

/-- The loop of an `and`. -/
def everyPredicate : List (Row → Except PredicateError Bool) → Row → Except PredicateError Bool
  | [], _ => .ok true
  | predicate :: predicates, row => do
    if ← predicate row then everyPredicate predicates row else return false

/-- The loop of an `or`. -/
def somePredicate : List (Row → Except PredicateError Bool) → Row → Except PredicateError Bool
  | [], _ => .ok false
  | predicate :: predicates, row => do
    if ← predicate row then return true else somePredicate predicates row

mutual

def createPredicate : NoSubqueryCondition → Except PredicateError (Row → Except PredicateError Bool)
  | .simple c => simplePredicate getLikePredicate c
  | .group type conditions => do
    let predicates ← createPredicates conditions
    match type with
    | .and => return everyPredicate predicates
    | .or => return somePredicate predicates

/-- `condition.conditions.map(c => createPredicate(c))` -/
def createPredicates : List NoSubqueryCondition → Except PredicateError (List (Row → Except PredicateError Bool))
  | [] => .ok []
  | c :: conditions => do
    let predicate ← createPredicate c
    let predicates ← createPredicates conditions
    return predicate :: predicates

end

end

end Throwing

/-! ## Rows without `undefined` -/

/-- The row with `null` for `undefined`. -/
def normalizeRow (row : Row) : Row := fun name => normalizeUndefined (row name)

/-- `IS` or `IS NOT` compares a column that the row leaves out with `null`. -/
def readsMissing (row : Row) (c : SimpleCondition) : Bool :=
  decide (c.op = .is ∨ c.op = .isNot) && c.right.isNullish &&
    match c.left with
    | .column name => decide (row name = .undefined)
    | .literal _ => false

mutual

/-- A condition from what its simple conditions give, taken in turn until it is decided. -/
def NoSubqueryCondition.evaluate (simple : SimpleCondition → Except PredicateError Bool) :
    NoSubqueryCondition → Except PredicateError Bool
  | .simple c => simple c
  | .group .and conditions => evaluateAnd simple conditions
  | .group .or conditions => evaluateOr simple conditions

def evaluateAnd (simple : SimpleCondition → Except PredicateError Bool) :
    List NoSubqueryCondition → Except PredicateError Bool
  | [] => .ok true
  | c :: conditions => do
    if ← c.evaluate simple then evaluateAnd simple conditions else return false

def evaluateOr (simple : SimpleCondition → Except PredicateError Bool) :
    List NoSubqueryCondition → Except PredicateError Bool
  | [] => .ok false
  | c :: conditions => do
    if ← c.evaluate simple then return true else evaluateOr simple conditions

end

section
variable {getLikePredicate : LiteralValue → Bool → Except PredicateError (LiteralValue → Except PredicateError Bool)}

/-- What a simple condition gives for a row. -/
def simpleResult
    (getLikePredicate : LiteralValue → Bool → Except PredicateError (LiteralValue → Except PredicateError Bool))
    (row : Row) (c : SimpleCondition) : Except PredicateError Bool :=
  Throwing.simplePredicate getLikePredicate c >>= fun predicate => predicate row

theorem isNullish_normalizeUndefined (v : Value) :
    (LiteralValue.value (normalizeUndefined v)).isNullish = (LiteralValue.value v).isNullish := by
  cases v <;> rfl

theorem normalizeUndefined_of_not_nullish {v : Value} (h : (LiteralValue.value v).isNullish = false) :
    normalizeUndefined v = v := by
  cases v with
  | undefined => cases h
  | _ => rfl

/-- `===` takes `undefined` for `null` but where it compares the two. -/
theorem same_normalizeUndefined (v : Value) (rhs : LiteralValue) :
    (LiteralValue.value (normalizeUndefined v)).same rhs =
      if v = .undefined ∧ rhs.isNullish = true then !(LiteralValue.value v).same rhs
      else (LiteralValue.value v).same rhs := by
  by_cases hv : v = .undefined
  · subst hv
    cases rhs with
    | array vs => rfl
    | value rhs => cases rhs <;> rfl
  · have hsame : normalizeUndefined v = v := by
      cases v with
      | undefined => exact absurd rfl hv
      | _ => rfl
    rw [hsame, if_neg fun h => hv h.1]

theorem simpleResult_is {op : SimpleOperator} (hop : op = .is ∨ op = .isNot) (row : Row) (name : String)
    (right : LiteralValue) : simpleResult getLikePredicate row ⟨op, .column name, right⟩ =
      .ok (createIsPredicate right op (.value (row name))) := by
  rw [simpleResult, Throwing.simplePredicate, if_pos hop]
  rfl

/-- A simple condition gives the same for the row with `null`, but that `IS` and `IS NOT` give the contrary where they
compare a missing column with `null`. -/
theorem simpleResult_normalizeRow (row : Row) (c : SimpleCondition) :
    simpleResult getLikePredicate row c =
      if readsMissing row c then (simpleResult getLikePredicate (normalizeRow row) c).map not
      else simpleResult getLikePredicate (normalizeRow row) c := by
  obtain ⟨op, left, right⟩ := c
  by_cases hop : op = .is ∨ op = .isNot
  · cases left with
    | literal value =>
      have hreads : readsMissing row ⟨op, .literal value, right⟩ = false := by simp [readsMissing]
      rw [hreads, if_neg Bool.false_ne_true, simpleResult, simpleResult, Throwing.simplePredicate, if_pos hop]
      rfl
    | column name =>
      have hsame : (LiteralValue.value (normalizeRow row name)).same right = _ := same_normalizeUndefined (row name) right
      rw [simpleResult_is hop, simpleResult_is hop]
      by_cases hreads : row name = .undefined ∧ right.isNullish = true
      · rw [if_pos hreads] at hsame
        rw [if_pos (by simp [readsMissing, hop, hreads]), Except.map]
        obtain rfl | rfl := hop
        · simp only [createIsPredicate, hsame, Bool.not_not]
        · simp only [createIsPredicate, hsame, Bool.not_not]
      · rw [if_neg hreads] at hsame
        rw [if_neg (by simp [readsMissing, hop]; tauto)]
        obtain rfl | rfl := hop
        · simp only [createIsPredicate, hsame]
        · simp only [createIsPredicate, hsame]
  · have hreads : readsMissing row ⟨op, left, right⟩ = false := by simp [readsMissing, hop]
    rw [hreads, if_neg Bool.false_ne_true, simpleResult, simpleResult, Throwing.simplePredicate, if_neg hop]
    by_cases hright : right.isNullish = true
    · rw [if_pos hright]
      rfl
    · rw [if_neg hright]
      cases Throwing.createPredicateImpl getLikePredicate right op with
      | error e => rfl
      | ok impl =>
        cases left with
        | literal value =>
          by_cases hvalue : value.isNullish = true
          · simp only [bind, Except.bind, hvalue, if_true]
            rfl
          · simp only [bind, Except.bind, hvalue]
            cases impl value <;> rfl
        | column name =>
          have hnullish : (LiteralValue.value (normalizeRow row name)).isNullish = _ :=
            isNullish_normalizeUndefined (row name)
          by_cases hvalue : (LiteralValue.value (row name)).isNullish = true
          · simp only [bind, Except.bind, pure, Except.pure, hnullish, hvalue, if_true]
          · have hname : normalizeRow row name = row name :=
              normalizeUndefined_of_not_nullish (Bool.eq_false_iff.2 hvalue)
            simp only [bind, Except.bind, pure, Except.pure, hname]

/-! ## Predicates -/

theorem createPredicates_ok {c : NoSubqueryCondition} {cs : List NoSubqueryCondition}
    {predicates : List (Row → Except PredicateError Bool)}
    (h : Throwing.createPredicates getLikePredicate (c :: cs) = .ok predicates) :
    ∃ predicate rest, predicates = predicate :: rest ∧ Throwing.createPredicate getLikePredicate c = .ok predicate ∧
      Throwing.createPredicates getLikePredicate cs = .ok rest := by
  rw [Throwing.createPredicates] at h
  obtain ⟨predicate, hpredicate, h⟩ := Fallible.bind_ok h
  obtain ⟨rest, hrest, h⟩ := Fallible.bind_ok h
  exact ⟨predicate, rest, (Except.ok.inj h).symm, hpredicate, hrest⟩

mutual

theorem createPredicate_eq_evaluate {c : NoSubqueryCondition} {predicate : Row → Except PredicateError Bool}
    (h : Throwing.createPredicate getLikePredicate c = .ok predicate) (row : Row) :
    predicate row = c.evaluate (simpleResult getLikePredicate row) := by
  match c with
  | .simple c =>
    rw [Throwing.createPredicate] at h
    rw [NoSubqueryCondition.evaluate, simpleResult, h]
    rfl
  | .group type cs =>
    rw [Throwing.createPredicate] at h
    obtain ⟨predicates, hpredicates, h⟩ := Fallible.bind_ok h
    obtain ⟨hand, hor⟩ := createPredicates_eq_evaluate hpredicates row
    cases type with
    | and =>
      rw [← Except.ok.inj h, hand]
      rfl
    | or =>
      rw [← Except.ok.inj h, hor]
      rfl

theorem createPredicates_eq_evaluate {cs : List NoSubqueryCondition} {predicates : List (Row → Except PredicateError Bool)}
    (h : Throwing.createPredicates getLikePredicate cs = .ok predicates) (row : Row) :
    Throwing.everyPredicate predicates row = evaluateAnd (simpleResult getLikePredicate row) cs ∧
      Throwing.somePredicate predicates row = evaluateOr (simpleResult getLikePredicate row) cs := by
  match cs with
  | [] =>
    rw [← Except.ok.inj h]
    exact ⟨rfl, rfl⟩
  | c :: cs =>
    obtain ⟨predicate, rest, rfl, hpredicate, hrest⟩ := createPredicates_ok h
    obtain ⟨hand, hor⟩ := createPredicates_eq_evaluate hrest row
    rw [Throwing.everyPredicate, Throwing.somePredicate, evaluateAnd, evaluateOr, hand, hor,
      createPredicate_eq_evaluate hpredicate row]
    exact ⟨rfl, rfl⟩

end

/-- **A predicate** gives the same for a row and for the row with `null` for `undefined` exactly where the condition
comes out the same when `IS` and `IS NOT` are negated where they compare a missing column with `null`. -/
theorem createPredicate_normalizeRow_iff {c : NoSubqueryCondition} {predicate : Row → Except PredicateError Bool}
    (h : Throwing.createPredicate getLikePredicate c = .ok predicate) (row : Row) :
    predicate (normalizeRow row) = predicate row ↔
      c.evaluate (simpleResult getLikePredicate (normalizeRow row)) =
        c.evaluate fun s =>
          if readsMissing row s then (simpleResult getLikePredicate (normalizeRow row) s).map not
          else simpleResult getLikePredicate (normalizeRow row) s := by
  have hrow : simpleResult getLikePredicate row = _ := funext fun s => simpleResult_normalizeRow row s
  rw [createPredicate_eq_evaluate h, createPredicate_eq_evaluate h, hrow]

end

/-- Where `IS` decides nothing: of a row without `archived`, with an `owner`. -/
theorem createPredicate_normalizeRow_of_owner :
    let row : Row := fun name => if name = "owner" then .str "me" else .undefined
    let archived : NoSubqueryCondition := .simple ⟨.is, .column "archived", .value .null⟩
    let owned : NoSubqueryCondition := .simple ⟨.eq, .column "owner", .value (.str "me")⟩
    ∃ predicate, Throwing.createPredicate (fun _ _ => .error .likePattern) (.group .or [archived, owned]) = .ok predicate ∧
      predicate (normalizeRow row) = predicate row := by
  intro row archived owned
  have h : Throwing.createPredicate (fun _ _ => .error .likePattern) (.group .or [archived, owned]) = .ok _ := rfl
  exact ⟨_, h, (createPredicate_normalizeRow_iff h row).2 rfl⟩

/-- `archived IS NULL` is false of a row that leaves `archived` out, and true of it with `null`. -/
theorem createPredicate_is_null_missing :
    ∃ predicate, Throwing.createPredicate (fun _ _ => .error .likePattern)
        (.simple ⟨.is, .column "archived", .value .null⟩) = .ok predicate ∧
      predicate (fun _ => .undefined) = .ok false ∧ predicate (normalizeRow fun _ => .undefined) = .ok true :=
  ⟨_, rfl, rfl, rfl⟩

end ZeroSync
