/-
`simplifyCondition` of `zql/src/query/expression.ts`, which rules and queries go
through when they are combined: no condition changes its truth by it, whatever the truth
of its simple conditions and subqueries (`simplifyCondition_truth`), and an empty
disjunction stays false.
-/
import ZeroSync.Evaluation
import ZeroSync.StaticParameters

namespace ZeroSync

namespace Unbound

/-- `isAlwaysTrue`. -/
def Condition.isAlwaysTrue : Condition → Bool
  | .group .and [] => true
  | _ => false

/-- `isAlwaysFalse`. -/
def Condition.isAlwaysFalse : Condition → Bool
  | .group .or [] => true
  | _ => false

/-- `flatten`. -/
def flatten (type : Connective) : List Condition → List Condition
  | [] => []
  | .group type' cs :: conditions =>
    if type' = type then cs ++ flatten type conditions else .group type' cs :: flatten type conditions
  | c :: conditions => c :: flatten type conditions

mutual

/-- `simplifyCondition`. -/
def simplifyCondition : Condition → Condition
  | .simple c => .simple c
  | .correlatedSubquery related op flip scalar => .correlatedSubquery related op flip scalar
  | .group _ [c] => simplifyCondition c
  | .group type conditions =>
    let conditions := flatten type (simplifyEach conditions)
    if type = .and ∧ conditions.any Condition.isAlwaysFalse then .group .or []
    else if type = .or ∧ conditions.any Condition.isAlwaysTrue then .group .and []
    else .group type conditions

/-- `c.conditions.map(simplifyCondition)`. -/
def simplifyEach : List Condition → List Condition
  | [] => []
  | c :: conditions => simplifyCondition c :: simplifyEach conditions

end

end Unbound

/-! ## The truth of a simplified condition -/

section
variable (simple : Unbound.SimpleCondition → Bool)
  (subquery : Unbound.CorrelatedSubquery → ExistsOperator → Option Bool → Option Bool → Bool)

mutual

/-- The truth of a condition, from those of its simple conditions and of its subqueries. -/
def Unbound.Condition.truth : Unbound.Condition → Bool
  | .simple c => simple c
  | .group .and cs => allTrue cs
  | .group .or cs => anyTrue cs
  | .correlatedSubquery related op flip scalar => subquery related op flip scalar

def allTrue : List Unbound.Condition → Bool
  | [] => true
  | c :: cs => c.truth && allTrue cs

def anyTrue : List Unbound.Condition → Bool
  | [] => false
  | c :: cs => c.truth || anyTrue cs

end

variable {simple subquery}

open Unbound (simplifyCondition simplifyEach flatten)

theorem truth_group_cons (type : Connective) (c : Unbound.Condition) (cs : List Unbound.Condition) :
    (Unbound.Condition.group type (c :: cs)).truth simple subquery =
      type.combine (c.truth simple subquery) ((Unbound.Condition.group type cs).truth simple subquery) := by
  cases type <;> rfl

theorem truth_group_append (type : Connective) (l m : List Unbound.Condition) :
    (Unbound.Condition.group type (l ++ m)).truth simple subquery =
      type.combine ((Unbound.Condition.group type l).truth simple subquery)
        ((Unbound.Condition.group type m).truth simple subquery) := by
  induction l with
  | nil => cases type <;> rfl
  | cons c l ih =>
    rw [List.cons_append, truth_group_cons, ih, truth_group_cons]
    cases type
    · exact (Bool.and_assoc ..).symm
    · exact (Bool.or_assoc ..).symm

theorem truth_group_singleton (type : Connective) (c : Unbound.Condition) :
    (Unbound.Condition.group type [c]).truth simple subquery = c.truth simple subquery := by
  rw [truth_group_cons]
  cases type
  · exact Bool.and_true _
  · exact Bool.or_false _

theorem flatten_truth (type : Connective) (cs : List Unbound.Condition) :
    (Unbound.Condition.group type (flatten type cs)).truth simple subquery =
      (Unbound.Condition.group type cs).truth simple subquery := by
  induction cs with
  | nil => rfl
  | cons c cs ih =>
    rw [truth_group_cons, ← ih]
    cases c with
    | group type' conditions =>
      rw [flatten]
      split
      · next htype => rw [htype, truth_group_append]
      · rw [truth_group_cons]
    | simple c => rw [flatten, truth_group_cons]; exact fun _ _ h => by cases h
    | correlatedSubquery related op flip scalar =>
      rw [flatten, truth_group_cons]; exact fun _ _ h => by cases h

theorem truth_of_isAlwaysFalse {cs : List Unbound.Condition} (h : cs.any Unbound.Condition.isAlwaysFalse = true) :
    (Unbound.Condition.group .and cs).truth simple subquery = false := by
  induction cs with
  | nil => cases h
  | cons c cs ih =>
    rw [truth_group_cons]
    rw [List.any_cons, Bool.or_eq_true] at h
    obtain h | h := h
    · unfold Unbound.Condition.isAlwaysFalse at h
      split at h
      · exact Bool.false_and ((Unbound.Condition.group .and cs).truth simple subquery)
      · cases h
    · rw [ih h]
      exact Bool.and_false _

theorem truth_of_isAlwaysTrue {cs : List Unbound.Condition} (h : cs.any Unbound.Condition.isAlwaysTrue = true) :
    (Unbound.Condition.group .or cs).truth simple subquery = true := by
  induction cs with
  | nil => cases h
  | cons c cs ih =>
    rw [truth_group_cons]
    rw [List.any_cons, Bool.or_eq_true] at h
    obtain h | h := h
    · unfold Unbound.Condition.isAlwaysTrue at h
      split at h
      · exact Bool.true_or ((Unbound.Condition.group .or cs).truth simple subquery)
      · cases h
    · rw [ih h]
      exact Bool.or_true _

theorem absorbed_truth (type : Connective) (cs : List Unbound.Condition) :
    (if type = .and ∧ cs.any Unbound.Condition.isAlwaysFalse then Unbound.Condition.group .or []
      else if type = .or ∧ cs.any Unbound.Condition.isAlwaysTrue then .group .and []
      else .group type cs).truth simple subquery = (Unbound.Condition.group type cs).truth simple subquery := by
  split
  · next h =>
    obtain ⟨rfl, hany⟩ := h
    exact (truth_of_isAlwaysFalse hany).symm
  split
  · next h =>
    obtain ⟨rfl, hany⟩ := h
    exact (truth_of_isAlwaysTrue hany).symm
  · rfl

mutual

/-- **Simplification** changes no truth. -/
theorem simplifyCondition_truth : ∀ c : Unbound.Condition,
    (simplifyCondition c).truth simple subquery = c.truth simple subquery
  | .simple _ => rfl
  | .correlatedSubquery .. => rfl
  | .group type [] => by
    rw [simplifyCondition]
    · cases type <;> rfl
    · exact fun _ h => by cases h
  | .group type [c] => by rw [simplifyCondition, simplifyCondition_truth c, truth_group_singleton]
  | .group type (a :: b :: cs) => by
    rw [simplifyCondition]
    · rw [absorbed_truth, flatten_truth, simplifyEach_truth]
    · exact fun _ h => by cases h

theorem simplifyEach_truth : ∀ {type : Connective} (cs : List Unbound.Condition),
    (Unbound.Condition.group type (simplifyEach cs)).truth simple subquery =
      (Unbound.Condition.group type cs).truth simple subquery
  | _, [] => rfl
  | _, c :: cs => by
    rw [simplifyEach, truth_group_cons, truth_group_cons, simplifyCondition_truth c, simplifyEach_truth cs]

end

end

/-! ## Conditions in a database -/

section
variable {getLikePredicate : Value → Bool → Value → Bool} {db : Database} {params : StaticQueryParameters} {row : Row}

open Unbound (bindConditions simplifyCondition)

theorem bindConditions_eq (cs : List Unbound.Condition) : bindConditions params cs = cs.map (·.bindCondition params) := by
  induction cs with
  | nil => rfl
  | cons c cs ih => rw [bindConditions, ih, List.map_cons]

/-- The truth of a condition with its parameters bound. -/
def Unbound.Condition.holds (getLikePredicate : Value → Bool → Value → Bool) (db : Database) (params : StaticQueryParameters)
    (c : Unbound.Condition) (row : Row) : Bool :=
  (c.bindCondition params).holds getLikePredicate db row

theorem Unbound.holds_group (type : Connective) (cs : List Unbound.Condition) :
    (Condition.group type cs).holds getLikePredicate db params row = match type with
      | .and => cs.all fun c => c.holds getLikePredicate db params row
      | .or => cs.any fun c => c.holds getLikePredicate db params row := by
  rw [Condition.holds, Condition.bindCondition, bindConditions_eq, ZeroSync.holds_group]
  cases type with
  | and => exact List.all_map
  | or => exact List.any_map

theorem Unbound.holds_group_cons (type : Connective) (c : Unbound.Condition) (cs : List Unbound.Condition) :
    (Condition.group type (c :: cs)).holds getLikePredicate db params row =
      type.combine (c.holds getLikePredicate db params row)
        ((Condition.group type cs).holds getLikePredicate db params row) := by
  cases type <;> simp [Unbound.holds_group, Connective.combine]

mutual

theorem holds_eq_truth : ∀ c : Unbound.Condition, c.holds getLikePredicate db params row =
    c.truth (fun c => (Unbound.Condition.simple c).holds getLikePredicate db params row)
      fun related op flip scalar =>
        (Unbound.Condition.correlatedSubquery related op flip scalar).holds getLikePredicate db params row
  | .simple _ => rfl
  | .correlatedSubquery .. => rfl
  | .group type cs => holds_group_eq_truth type cs

theorem holds_group_eq_truth : ∀ (type : Connective) (cs : List Unbound.Condition),
    (Unbound.Condition.group type cs).holds getLikePredicate db params row =
      (Unbound.Condition.group type cs).truth (fun c => (Unbound.Condition.simple c).holds getLikePredicate db params row)
        fun related op flip scalar =>
          (Unbound.Condition.correlatedSubquery related op flip scalar).holds getLikePredicate db params row
  | type, [] => by cases type <;> rfl
  | type, c :: cs => by
    rw [Unbound.holds_group_cons, truth_group_cons, holds_eq_truth c, holds_group_eq_truth type cs]

end

theorem simplifyCondition_holds (c : Unbound.Condition) :
    (simplifyCondition c).holds getLikePredicate db params row = c.holds getLikePredicate db params row := by
  rw [holds_eq_truth, simplifyCondition_truth, ← holds_eq_truth]

end

end ZeroSync
