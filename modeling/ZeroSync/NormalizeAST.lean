/-
`normalizeAST` of `zero-protocol/src/ast.ts`: groups in groups are flattened,
conditions and related queries are sorted.

`cmpCondition` is no order (a group comes before a subquery, and the subquery
before the group), so that how `sort` places conditions is up to the
implementation: `sort` is a parameter. Numbers turn into strings as JS has it,
by a parameter too. Tables and columns keep their names.
-/
import ZeroSync.AST

namespace ZeroSync

/-! ## `flattened` -/

mutual

/-- `flattened`. -/
def flattened : Condition → Option Condition
  | .simple c => some (.simple c)
  | .correlatedSubquery related op flip scalar => some (.correlatedSubquery related op flip scalar)
  | .group type conditions =>
    match flattenedMembers type conditions with
    | [] => none
    | [c] => some c
    | conditions => some (.group type conditions)

/-- `defined(cond.conditions.flatMap(..))`: a member of the same type gives its members. -/
def flattenedMembers (type : Connective) : List Condition → List Condition
  | [] => []
  | .group type' cs :: conditions =>
    (if type' = type then flattenedEach cs else (flattened (.group type' cs)).toList) ++ flattenedMembers type conditions
  | c :: conditions => (flattened c).toList ++ flattenedMembers type conditions

/-- `c.conditions.map(c => flattened(c))`, of those defined. -/
def flattenedEach : List Condition → List Condition
  | [] => []
  | c :: conditions => (flattened c).toList ++ flattenedEach conditions

end

theorem sizeOf_append_condition (l m : List Condition) : sizeOf (l ++ m) + 1 = sizeOf l + sizeOf m := by
  induction l with
  | nil => simp [Nat.add_comm]
  | cons c l ih =>
    simp only [List.cons_append, List.cons.sizeOf_spec]
    omega

mutual

theorem sizeOf_flattened : ∀ c : Condition, sizeOf (flattened c).toList ≤ sizeOf c + 2
  | .simple c => by simp [flattened]; omega
  | .correlatedSubquery .. => by simp [flattened]; omega
  | .group type conditions => by
    have h := sizeOf_flattenedMembers type conditions
    rw [flattened]
    split
    · simp
    · next c heq =>
      rw [heq] at h
      simp only [Option.toList_some, Condition.group.sizeOf_spec]
      omega
    · simp only [Option.toList_some, List.cons.sizeOf_spec, List.nil.sizeOf_spec, Condition.group.sizeOf_spec]
      omega

theorem sizeOf_flattenedMembers (type : Connective) :
    ∀ conditions : List Condition, sizeOf (flattenedMembers type conditions) ≤ sizeOf conditions
  | [] => by simp [flattenedMembers]
  | .group type' cs :: conditions => by
    have hcs := sizeOf_flattenedEach cs
    have hc := sizeOf_flattened (.group type' cs)
    have hrest := sizeOf_flattenedMembers type conditions
    have happ (l) := sizeOf_append_condition l (flattenedMembers type conditions)
    rw [flattenedMembers]
    split
    · have := happ (flattenedEach cs)
      simp only [List.cons.sizeOf_spec, Condition.group.sizeOf_spec]
      omega
    · have := happ (flattened (.group type' cs)).toList
      rw [List.cons.sizeOf_spec]
      omega
  | .simple c :: conditions => by
    have hrest := sizeOf_flattenedMembers type conditions
    simp only [flattenedMembers, flattened, Option.toList_some, List.cons_append, List.nil_append, List.cons.sizeOf_spec]
    omega
  | .correlatedSubquery .. :: conditions => by
    have hrest := sizeOf_flattenedMembers type conditions
    simp only [flattenedMembers, flattened, Option.toList_some, List.cons_append, List.nil_append, List.cons.sizeOf_spec]
    omega

theorem sizeOf_flattenedEach : ∀ conditions : List Condition, sizeOf (flattenedEach conditions) ≤ sizeOf conditions
  | [] => by simp [flattenedEach]
  | c :: conditions => by
    have hc := sizeOf_flattened c
    have hrest := sizeOf_flattenedEach conditions
    have happ := sizeOf_append_condition (flattened c).toList (flattenedEach conditions)
    rw [flattenedEach, List.cons.sizeOf_spec]
    omega

end

/-! ## The comparisons -/

/-- The sign of a comparison as a number. -/
def signOf : Ordering → ℤ
  | .lt => -1
  | .eq => 0
  | .gt => 1

/-- `compareUTF8`. -/
def compareUTF8 (a b : String) : ℤ := signOf (compare a b)

/-- `a || b`, of numbers. -/
def orElse (a b : ℤ) : ℤ := if a ≠ 0 then a else b

/-- `cmpOptionalBool`. -/
def cmpOptionalBool (a b : Option Bool) : ℤ :=
  let toNum : Option Bool → ℤ
    | none => 0
    | some true => 2
    | some false => 1
  toNum a - toNum b

/-- `cmpRelated`. -/
def cmpRelated (a b : CorrelatedSubquery) : ℤ := compareUTF8 a.alias_ b.alias_

section
variable (numberToString : ℚ → String)

/-- `String(value)`. -/
def stringOfValue : Value → String
  | .undefined => "undefined"
  | .null => "null"
  | .bool true => "true"
  | .bool false => "false"
  | .num n => numberToString n
  | .str s => s

/-- `String(value)` of a literal: a list by its elements, between commas. -/
def stringOfLiteral : LiteralValue → String
  | .value v => stringOfValue numberToString v
  | .array vs => ",".intercalate (vs.map (stringOfValue numberToString))

/-- `compareValuePosition`. -/
def compareValuePosition : ValuePosition → ValuePosition → ℤ
  | .literal a, .literal b => compareUTF8 (stringOfLiteral numberToString a) (stringOfLiteral numberToString b)
  | .column a, .column b => compareUTF8 a b
  | .literal _, .column _ => compareUTF8 "literal" "column"
  | .column _, .literal _ => compareUTF8 "column" "literal"

mutual

/-- `cmpCondition`. -/
def cmpCondition : Condition → Condition → ℤ
  | .simple a, .simple b =>
    orElse (compareValuePosition numberToString a.left b.left) <|
      orElse (compareUTF8 a.op.text b.op.text)
        (compareValuePosition numberToString (.literal a.right) (.literal b.right))
  | .simple _, _ => -1
  | _, .simple _ => 1
  | .correlatedSubquery a aop aflip ascalar, .correlatedSubquery b bop bflip bscalar =>
    orElse (cmpRelated a b) <| orElse (compareUTF8 aop.text bop.text) <|
      orElse (cmpOptionalBool aflip bflip) (cmpOptionalBool ascalar bscalar)
  | .correlatedSubquery .., _ => -1
  | _, .correlatedSubquery .. => -1
  | .group a as, .group b bs =>
    orElse (compareUTF8 a.text b.text) <| orElse (cmpConditions as bs) (as.length - bs.length : ℤ)

/-- The loop over the members: the first difference. -/
def cmpConditions : List Condition → List Condition → ℤ
  | a :: as, b :: bs => orElse (cmpCondition a b) (cmpConditions as bs)
  | _, _ => 0

end

end

/-! ## `normalizeAST` -/

/-- `sortedRelated`. -/
def sortedRelated (related : List CorrelatedSubquery) : List CorrelatedSubquery :=
  related.mergeSort fun a b => cmpRelated a b ≤ 0

section
variable (sort : (Condition → Condition → ℤ) → List Condition → List Condition) (numberToString : ℚ → String)

mutual

/-- `transformAST` of `NORMALIZE_TRANSFORM`. -/
def normalizeAST : AST → AST
  | { schema, table, where_, related, start, limit, orderBy } =>
    { schema, table
      where_ := normalizeWhere where_
      related := normalizeRelated related
      start, limit, orderBy }

/-- The `where` that `transform.where` returns is transformed. -/
def normalizeWhere : Option Condition → Option Condition
  | none => none
  | some c =>
    match h : flattened c with
    | none => none
    | some c' =>
      have : sizeOf c' ≤ sizeOf c := by
        have := sizeOf_flattened c
        simp only [h, Option.toList_some, List.cons.sizeOf_spec, List.nil.sizeOf_spec] at this
        omega
      some (transformWhere c')

/-- `transformWhere`. -/
def transformWhere : Condition → Condition
  | .simple c => .simple c
  | .correlatedSubquery related op flip scalar => .correlatedSubquery (normalizeSubquery related) op flip scalar
  | .group type conditions => .group type (sort (cmpCondition numberToString) (transformEach conditions))

/-- `where.conditions.map(c => transformWhere(c, table, transform))`. -/
def transformEach : List Condition → List Condition
  | [] => []
  | c :: conditions => transformWhere c :: transformEach conditions

/-- A correlated subquery, its subquery transformed. -/
def normalizeSubquery : CorrelatedSubquery → CorrelatedSubquery
  | { correlation, alias_, subquery } => { correlation, alias_, subquery := normalizeAST subquery }

/-- The related queries, each transformed, sorted. -/
def normalizeRelated : Option (List CorrelatedSubquery) → Option (List CorrelatedSubquery)
  | none => none
  | some related => some (sortedRelated (normalizeEach related))

def normalizeEach : List CorrelatedSubquery → List CorrelatedSubquery
  | [] => []
  | r :: related => normalizeSubquery r :: normalizeEach related

end

end

end ZeroSync
