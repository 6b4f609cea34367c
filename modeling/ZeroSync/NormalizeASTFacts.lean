/-
A normalized query selects what the query selects, on every database, unless
`flattened` drops an empty group where it is not neutral: an empty disjunction
(false) from a conjunction or as the whole `where`, an empty conjunction
(true) from a disjunction. Dropping it anywhere else is right, whatever it
was nested in.

What flattening keeps is shown on conditions first (`flattened_holds`), with
the subqueries in them untouched (`subqueries_flattened`). Sorting changes no
truth, and, being stable, not which of two related queries of one alias is
last.
-/
import ZeroSync.Evaluation
import ZeroSync.NormalizeAST
import ZeroSync.SortedList

namespace ZeroSync

/-! ## What is dropped -/

mutual

/-- The truth of a condition of groups alone. -/
def Condition.constant : Condition → Bool
  | .group .and conditions => allConstant conditions
  | .group .or conditions => anyConstant conditions
  | _ => false

def allConstant : List Condition → Bool
  | [] => true
  | c :: cs => c.constant && allConstant cs

def anyConstant : List Condition → Bool
  | [] => false
  | c :: cs => c.constant || anyConstant cs

end

mutual

/-- In a query, what flattening drops is neutral where it stands. -/
def AST.dropsNeutral : AST → Bool
  | { where_, related, .. } => whereDropsNeutral where_ && relatedDropNeutral related

/-- A `where` stands as in a conjunction. -/
def whereDropsNeutral : Option Condition → Bool
  | none => true
  | some c => if (flattened c).isNone then c.constant == Connective.neutral .and else c.dropsNeutral

/-- In a condition that flattening keeps, what it drops is neutral. -/
def Condition.dropsNeutral : Condition → Bool
  | .simple _ => true
  | .correlatedSubquery related _ _ _ => related.dropsNeutral
  | .group type conditions => membersDropNeutral type conditions

def membersDropNeutral (type : Connective) : List Condition → Bool
  | [] => true
  | c :: cs => (if (flattened c).isNone then c.constant == type.neutral else c.dropsNeutral) && membersDropNeutral type cs

def CorrelatedSubquery.dropsNeutral : CorrelatedSubquery → Bool
  | { subquery, .. } => subquery.dropsNeutral

def relatedDropNeutral : Option (List CorrelatedSubquery) → Bool
  | none => true
  | some related => eachDropsNeutral related

def eachDropsNeutral : List CorrelatedSubquery → Bool
  | [] => true
  | r :: related => r.dropsNeutral && eachDropsNeutral related

end

mutual

/-- The subqueries in a condition, those inside of them apart. -/
def Condition.subqueries : Condition → List CorrelatedSubquery
  | .simple _ => []
  | .correlatedSubquery related _ _ _ => [related]
  | .group _ conditions => subqueriesOf conditions

def subqueriesOf : List Condition → List CorrelatedSubquery
  | [] => []
  | c :: cs => c.subqueries ++ subqueriesOf cs

end

theorem subqueriesOf_eq (cs : List Condition) : subqueriesOf cs = cs.flatMap Condition.subqueries := by
  induction cs with
  | nil => rfl
  | cons c cs ih => rw [subqueriesOf, ih, List.flatMap_cons]

/-! ## Flattening -/

theorem flattenedMembers_eq_nil (type : Connective) :
    ∀ cs : List Condition, flattenedMembers type cs = [] ↔ flattenedEach cs = []
  | [] => by simp [flattenedMembers, flattenedEach]
  | .simple c :: cs => by simp [flattenedMembers, flattenedEach, flattened]
  | .correlatedSubquery .. :: cs => by simp [flattenedMembers, flattenedEach, flattened]
  | .group type' inner :: cs => by
    have ih := flattenedMembers_eq_nil type cs
    rw [flattenedMembers, flattenedEach, List.append_eq_nil_iff, List.append_eq_nil_iff, ih]
    refine and_congr_left fun _ => ?_
    split
    · rw [← flattenedMembers_eq_nil type', flattened]
      split <;> simp_all
    · rfl

theorem flattened_group_eq_none {type : Connective} {cs : List Condition} :
    flattened (.group type cs) = none ↔ flattenedMembers type cs = [] := by
  rw [flattened]
  split <;> simp_all

mutual

theorem subqueries_flattened : ∀ c : Condition, subqueriesOf (flattened c).toList = c.subqueries
  | .simple _ => rfl
  | .correlatedSubquery .. => rfl
  | .group type cs => by
    rw [Condition.subqueries, ← subqueriesOf_flattenedMembers type cs, flattened]
    split
    · next h => rw [h]; rfl
    · next c h => rw [h]; rfl
    · simp [subqueriesOf, Condition.subqueries]

theorem subqueriesOf_flattenedMembers (type : Connective) :
    ∀ cs : List Condition, subqueriesOf (flattenedMembers type cs) = subqueriesOf cs
  | [] => rfl
  | .simple _ :: cs => by
    rw [flattenedMembers, subqueriesOf, ← subqueriesOf_flattenedMembers type cs]
    all_goals simp [subqueriesOf_eq, flattened]
  | .correlatedSubquery .. :: cs => by
    rw [flattenedMembers, subqueriesOf, ← subqueriesOf_flattenedMembers type cs]
    all_goals simp [subqueriesOf_eq, flattened]
  | .group type' inner :: cs => by
    have hc := subqueries_flattened (.group type' inner)
    have hinner := subqueriesOf_flattenedEach inner
    have hcs := subqueriesOf_flattenedMembers type cs
    simp only [subqueriesOf_eq] at hc hinner hcs ⊢
    rw [flattenedMembers, List.flatMap_append, hcs, List.flatMap_cons]
    congr 1
    split
    · rw [hinner, Condition.subqueries, subqueriesOf_eq]
    · exact hc

theorem subqueriesOf_flattenedEach : ∀ cs : List Condition, subqueriesOf (flattenedEach cs) = subqueriesOf cs
  | [] => rfl
  | c :: cs => by
    have hc := subqueries_flattened c
    have hcs := subqueriesOf_flattenedEach cs
    simp only [subqueriesOf_eq] at hc hcs ⊢
    rw [flattenedEach, List.flatMap_append, hc, hcs, List.flatMap_cons]

end

/-! ## The truth of a flattened condition -/

theorem flattenedEach_eq_nil {cs : List Condition} : flattenedEach cs = [] ↔ ∀ c ∈ cs, flattened c = none := by
  induction cs with
  | nil => simp [flattenedEach]
  | cons c cs ih => simp [flattenedEach, ih]

theorem allConstant_eq (cs : List Condition) : allConstant cs = cs.all Condition.constant := by
  induction cs with
  | nil => rfl
  | cons c cs ih => rw [allConstant, ih, List.all_cons]

theorem anyConstant_eq (cs : List Condition) : anyConstant cs = cs.any Condition.constant := by
  induction cs with
  | nil => rfl
  | cons c cs ih => rw [anyConstant, ih, List.any_cons]

theorem membersDropNeutral_iff {type : Connective} {cs : List Condition} :
    membersDropNeutral type cs = true ↔
      ∀ c ∈ cs, (flattened c = none → c.constant = type.neutral) ∧ (flattened c ≠ none → c.dropsNeutral = true) := by
  induction cs with
  | nil => simp [membersDropNeutral]
  | cons c cs ih =>
    rw [membersDropNeutral, Bool.and_eq_true, ih, List.forall_mem_cons]
    refine and_congr_left fun _ => ?_
    by_cases h : flattened c = none <;> simp [h]

section
variable {getLikePredicate : Value → Bool → Value → Bool} {db : Database}

theorem holds_of_flattened_none {row : Row} :
    ∀ {c : Condition}, flattened c = none → c.holds getLikePredicate db row = c.constant
  | .simple _, h => by simp [flattened] at h
  | .correlatedSubquery .., h => by simp [flattened] at h
  | .group type cs, h => by
    have hnone := flattenedEach_eq_nil.mp ((flattenedMembers_eq_nil ..).mp (flattened_group_eq_none.mp h))
    have hcs : ∀ c ∈ cs, c.holds getLikePredicate db row = c.constant := fun c hc =>
      holds_of_flattened_none (hnone c hc)
    rw [holds_group, Bool.eq_iff_iff]
    cases type with
    | and =>
      rw [Condition.constant, allConstant_eq, List.all_eq_true, List.all_eq_true]
      exact forall₂_congr fun c hc => by rw [hcs c hc]
    | or =>
      rw [Condition.constant, anyConstant_eq, List.any_eq_true, List.any_eq_true]
      exact exists_congr fun c => and_congr_right fun hc => by rw [hcs c hc]

mutual

/-- **Flattening keeps the truth** of a condition in which it drops what is neutral. -/
theorem flattened_holds {row : Row} : ∀ {c c' : Condition}, c.dropsNeutral = true → flattened c = some c' →
    c'.holds getLikePredicate db row = c.holds getLikePredicate db row
  | .simple _, c', _, h => by rw [Option.some.inj h]
  | .correlatedSubquery .., c', _, h => by rw [Option.some.inj h]
  | .group type cs, c', hneutral, h => by
    rw [← flattenedMembers_holds type (membersDropNeutral_iff.mp hneutral)]
    rw [flattened] at h
    split at h
    · cases h
    · next heq =>
      obtain rfl := Option.some.inj h
      rw [heq, holds_group_singleton]
    · rw [Option.some.inj h]

theorem flattened_toList_holds {row : Row} (type : Connective) : ∀ {c : Condition},
    (flattened c = none → c.constant = type.neutral) → (flattened c ≠ none → c.dropsNeutral = true) →
    (Condition.group type (flattened c).toList).holds getLikePredicate db row = c.holds getLikePredicate db row
  | c, hnone, hsome => by
    match h : flattened c with
    | none => rw [holds_of_flattened_none h, hnone h, Option.toList_none, holds_group_nil]
    | some c' => rw [Option.toList_some, holds_group_singleton, flattened_holds (hsome (by simp [h])) h]

theorem flattenedMembers_holds {row : Row} (type : Connective) : ∀ {cs : List Condition},
    (∀ c ∈ cs, (flattened c = none → c.constant = type.neutral) ∧ (flattened c ≠ none → c.dropsNeutral = true)) →
    (Condition.group type (flattenedMembers type cs)).holds getLikePredicate db row =
      (Condition.group type cs).holds getLikePredicate db row
  | [], _ => rfl
  | .simple _ :: cs, h => by
    rw [flattenedMembers, holds_group_append, holds_group_cons,
      flattenedMembers_holds type fun c hc => h c (List.mem_cons_of_mem _ hc)]
    all_goals simp [flattened, holds_group_singleton]
  | .correlatedSubquery .. :: cs, h => by
    rw [flattenedMembers, holds_group_append, holds_group_cons,
      flattenedMembers_holds type fun c hc => h c (List.mem_cons_of_mem _ hc)]
    all_goals simp [flattened, holds_group_singleton]
  | .group type' inner :: cs, h => by
    obtain ⟨hnone, hsome⟩ := h _ (List.mem_cons_self ..)
    rw [flattenedMembers, holds_group_append, holds_group_cons,
      flattenedMembers_holds type fun c hc => h c (List.mem_cons_of_mem _ hc)]
    congr 1
    split
    · next htype =>
      subst htype
      by_cases hdropped : flattened (.group type' inner) = none
      · rw [(flattenedMembers_eq_nil ..).mp (flattened_group_eq_none.mp hdropped), holds_group_nil,
          holds_of_flattened_none hdropped, hnone hdropped]
      · exact flattenedEach_holds type' (membersDropNeutral_iff.mp (hsome hdropped))
    · exact flattened_toList_holds type hnone hsome

theorem flattenedEach_holds {row : Row} (type : Connective) : ∀ {cs : List Condition},
    (∀ c ∈ cs, (flattened c = none → c.constant = type.neutral) ∧ (flattened c ≠ none → c.dropsNeutral = true)) →
    (Condition.group type (flattenedEach cs)).holds getLikePredicate db row =
      (Condition.group type cs).holds getLikePredicate db row
  | [], _ => rfl
  | c :: cs, h => by
    obtain ⟨hnone, hsome⟩ := h _ (List.mem_cons_self ..)
    rw [flattenedEach, holds_group_append, holds_group_cons, flattened_toList_holds type hnone hsome,
      flattenedEach_holds type fun c hc => h c (List.mem_cons_of_mem _ hc)]

end

end

/-! ## Subqueries -/

theorem subqueries_of_flattened {c c' : Condition} (h : flattened c = some c') : c'.subqueries = c.subqueries := by
  have := subqueries_flattened c
  rw [h] at this
  simpa [subqueriesOf] using this

theorem Condition.dropsNeutral_subqueries : ∀ {c : Condition}, c.dropsNeutral = true →
    ∀ r ∈ c.subqueries, r.dropsNeutral = true
  | .simple _, _, r, hr => by simp [Condition.subqueries] at hr
  | .correlatedSubquery .., h, r, hr => by
    obtain rfl := List.mem_singleton.mp hr
    exact h
  | .group type cs, h, r, hr => by
    rw [Condition.subqueries, subqueriesOf_eq] at hr
    obtain ⟨c, hc, hr⟩ := List.mem_flatMap.mp hr
    obtain ⟨-, hsome⟩ := membersDropNeutral_iff.mp h c hc
    refine Condition.dropsNeutral_subqueries (hsome fun hnone => ?_) r hr
    -- what is dropped has no subquery
    rw [← subqueries_flattened c, hnone] at hr
    cases hr

theorem sizeOf_subqueries : ∀ {c : Condition}, ∀ r ∈ c.subqueries, sizeOf r.subquery < sizeOf c
  | .simple _, r, hr => by simp [Condition.subqueries] at hr
  | .correlatedSubquery .., r, hr => by
    obtain rfl := List.mem_singleton.mp hr
    cases r
    simp only [Condition.correlatedSubquery.sizeOf_spec, CorrelatedSubquery.mk.sizeOf_spec]
    omega
  | .group type cs, r, hr => by
    rw [Condition.subqueries, subqueriesOf_eq] at hr
    obtain ⟨c, hc, hr⟩ := List.mem_flatMap.mp hr
    have := sizeOf_subqueries r hr
    have := List.sizeOf_lt_of_mem hc
    rw [Condition.group.sizeOf_spec]
    omega

theorem eachDropsNeutral_iff {related : List CorrelatedSubquery} :
    eachDropsNeutral related = true ↔ ∀ r ∈ related, r.subquery.dropsNeutral = true := by
  induction related with
  | nil => simp [eachDropsNeutral]
  | cons r related ih =>
    cases r
    rw [eachDropsNeutral, Bool.and_eq_true, ih, List.forall_mem_cons, CorrelatedSubquery.dropsNeutral]

/-! ## Normalized queries -/

section
variable {sort : (Condition → Condition → ℤ) → List Condition → List Condition} {numberToString : ℚ → String}
  {getLikePredicate : Value → Bool → Value → Bool} {db : Database}

theorem transformEach_eq (cs : List Condition) :
    transformEach sort numberToString cs = cs.map (transformWhere sort numberToString) := by
  induction cs with
  | nil => rw [transformEach, List.map_nil]
  | cons c cs ih => rw [transformEach, ih, List.map_cons]

theorem normalizeEach_eq (related : List CorrelatedSubquery) :
    normalizeEach sort numberToString related = related.map (normalizeSubquery sort numberToString) := by
  induction related with
  | nil => rw [normalizeEach, List.map_nil]
  | cons r related ih => rw [normalizeEach, ih, List.map_cons]

theorem normalizeAST_eq (ast : AST) :
    normalizeAST sort numberToString ast =
      { ast with
        where_ := normalizeWhere sort numberToString ast.where_
        related := normalizeRelated sort numberToString ast.related } := by
  cases ast
  rw [normalizeAST]

theorem normalizeSubquery_eq (r : CorrelatedSubquery) :
    normalizeSubquery sort numberToString r = { r with subquery := normalizeAST sort numberToString r.subquery } := by
  cases r
  rw [normalizeSubquery]

theorem holds_group_perm (type : Connective) {l m : List Condition} (h : l.Perm m) (row : Row) :
    (Condition.group type l).holds getLikePredicate db row = (Condition.group type m).holds getLikePredicate db row := by
  cases type <;> simp only [holds_group]
  · exact h.all_eq
  · exact h.any_eq

theorem transformWhere_holds (hsort : ∀ cmp l, (sort cmp l).Perm l) {row : Row} : ∀ {c : Condition},
    (∀ r ∈ c.subqueries, ∀ row,
      (normalizeSubquery sort numberToString r).exists getLikePredicate db row = r.exists getLikePredicate db row) →
    (transformWhere sort numberToString c).holds getLikePredicate db row = c.holds getLikePredicate db row
  | .simple _, _ => by rw [transformWhere]
  | .correlatedSubquery r .., h => by
    rw [transformWhere, Condition.holds, Condition.holds, h r (List.mem_singleton.mpr rfl)]
  | .group type cs, h => by
    have hcs : ∀ c ∈ cs,
        (transformWhere sort numberToString c).holds getLikePredicate db row = c.holds getLikePredicate db row := by
      intro c hc
      refine transformWhere_holds hsort fun r hr => h r ?_
      rw [Condition.subqueries, subqueriesOf_eq]
      exact List.mem_flatMap.mpr ⟨c, hc, hr⟩
    rw [transformWhere, transformEach_eq, holds_group_perm type (hsort _ _), holds_group, holds_group, Bool.eq_iff_iff]
    cases type with
    | and =>
      rw [List.all_map, List.all_eq_true, List.all_eq_true]
      exact forall₂_congr fun c hc => by rw [Function.comp_apply, hcs c hc]
    | or =>
      rw [List.any_map, List.any_eq_true, List.any_eq_true]
      exact exists_congr fun c => and_congr_right fun hc => by rw [Function.comp_apply, hcs c hc]

/-- A normalized `where` holds of the rows it held of. -/
theorem normalizeWhere_holds (hsort : ∀ cmp l, (sort cmp l).Perm l) {w : Option Condition}
    (hneutral : whereDropsNeutral w = true)
    (hsub : ∀ c ∈ w, ∀ r ∈ c.subqueries, r.dropsNeutral = true → ∀ row,
      (normalizeSubquery sort numberToString r).exists getLikePredicate db row = r.exists getLikePredicate db row)
    (row : Row) :
    whereHolds getLikePredicate db (normalizeWhere sort numberToString w) row = whereHolds getLikePredicate db w row := by
  cases w with
  | none => rw [normalizeWhere]
  | some c =>
    rw [normalizeWhere, whereHolds]
    rw [whereDropsNeutral] at hneutral
    split
    · next hnone =>
      rw [hnone, Option.isNone_none, if_pos rfl, beq_iff_eq] at hneutral
      rw [holds_of_flattened_none hnone, hneutral]
      rfl
    · next c' hsome =>
      rw [hsome, Option.isNone_some, if_neg Bool.false_ne_true] at hneutral
      rw [whereHolds, transformWhere_holds hsort, flattened_holds hneutral hsome]
      rw [subqueries_of_flattened hsome]
      exact fun r hr => hsub c rfl r hr (Condition.dropsNeutral_subqueries hneutral r hr)

theorem AST.dropsNeutral_iff (ast : AST) :
    ast.dropsNeutral = true ↔ whereDropsNeutral ast.where_ = true ∧ relatedDropNeutral ast.related = true := by
  cases ast
  rw [AST.dropsNeutral, Bool.and_eq_true]

theorem normalizeAST_rows (hsort : ∀ cmp l, (sort cmp l).Perm l) (ast : AST) (hneutral : ast.dropsNeutral = true)
    (constraint : Row → Bool) :
    (normalizeAST sort numberToString ast).rows getLikePredicate db constraint = ast.rows getLikePredicate db constraint := by
  rw [AST.rows_eq, AST.rows_eq, normalizeAST_eq]
  congr 1
  refine List.filter_congr fun row _ => ?_
  congr 1
  refine normalizeWhere_holds hsort ((ast.dropsNeutral_iff.mp hneutral).1) (fun c hc r hr hr' row => ?_) row
  have hlt : sizeOf r.subquery < sizeOf ast := by
    have := sizeOf_subqueries r hr
    have hw : ast.where_ = some c := hc
    cases ast
    subst hw
    simp only [AST.mk.sizeOf_spec, Option.some.sizeOf_spec]
    omega
  have hneutral' : r.subquery.dropsNeutral = true := by
    cases r
    exact hr'
  rw [normalizeSubquery_eq, CorrelatedSubquery.exists_eq, CorrelatedSubquery.exists_eq,
    normalizeAST_rows hsort r.subquery hneutral']
termination_by sizeOf ast

end

/-! ## Related queries -/

theorem signOf_le_zero {o : Ordering} : signOf o ≤ 0 ↔ o.isLE := by cases o <;> decide

theorem filter_sortedRelated (name : String) (related : List CorrelatedSubquery) :
    ((sortedRelated related).filter fun r => r.alias_ = name) = related.filter fun r => r.alias_ = name := by
  refine SortedList.filter_mergeSort ?_ ?_ ?_ related
  · intro a b c hab hbc
    simp only [cmpRelated, compareUTF8, decide_eq_true_eq, signOf_le_zero] at *
    exact Std.TransCmp.isLE_trans hab hbc
  · intro a b
    have hswap : compare b.alias_ a.alias_ = (compare a.alias_ b.alias_).swap := Std.OrientedCmp.eq_swap
    simp only [cmpRelated, compareUTF8, Bool.or_eq_true, decide_eq_true_eq, signOf_le_zero, hswap]
    cases compare a.alias_ b.alias_ <;> decide
  · intro a b ha hb
    simp [cmpRelated, compareUTF8, of_decide_eq_true ha, of_decide_eq_true hb, signOf]

section
variable {sort : (Condition → Condition → ℤ) → List Condition → List Condition} {numberToString : ℚ → String}
  {getLikePredicate : Value → Bool → Value → Bool} {db : Database}

theorem selectLast_eq (related : List CorrelatedSubquery) (row : Row) (name : String) :
    selectLast getLikePredicate db related row name =
      ((related.filter fun r => r.alias_ = name).getLast?).map fun r => r.select getLikePredicate db row := by
  induction related with
  | nil => rfl
  | cons r related ih =>
    rw [selectLast, ih, List.filter_cons]
    by_cases h : r.alias_ = name
    · cases hlast : (related.filter fun r => r.alias_ = name).getLast? with
      | none => simp [h, List.getLast?_eq_none_iff.mp hlast]
      | some r' => simp [h, List.getLast?_cons, hlast]
    · simp only [h, decide_false, Bool.false_eq_true, if_false]
      cases (related.filter fun r => r.alias_ = name).getLast? <;> rfl

/-- A query in which flattening drops only what is neutral selects the same
rows and related rows when it is normalized. -/
theorem select_normalizeAST (hsort : ∀ cmp l, (sort cmp l).Perm l) (ast : AST) (hneutral : ast.dropsNeutral = true)
    (constraint : Row → Bool) :
    (normalizeAST sort numberToString ast).select getLikePredicate db constraint =
      ast.select getLikePredicate db constraint := by
  rw [AST.select_eq, AST.select_eq, normalizeAST_rows hsort ast hneutral, normalizeAST_eq]
  refine List.map_congr_left fun row _ => ?_
  congr 1
  funext name
  obtain ⟨-, hrelated⟩ := ast.dropsNeutral_iff.mp hneutral
  match h : ast.related with
  | none => rw [normalizeRelated]
  | some related =>
    rw [h, relatedDropNeutral, eachDropsNeutral_iff] at hrelated
    rw [normalizeRelated, selectRelated, selectRelated, selectLast_eq, selectLast_eq, filter_sortedRelated, normalizeEach_eq,
      List.filter_map, List.getLast?_map, Option.map_map]
    have hname : (fun r => decide (r.alias_ = name)) ∘ normalizeSubquery sort numberToString =
        fun r => decide (r.alias_ = name) := funext fun r => by rw [Function.comp_apply, normalizeSubquery_eq]
    rw [hname]
    refine Option.map_congr fun r hr => ?_
    have hr : r ∈ related := (List.mem_filter.mp (List.mem_of_getLast? hr)).1
    have hlt : sizeOf r.subquery < sizeOf ast := by
      have := List.sizeOf_lt_of_mem hr
      cases ast
      cases r
      subst h
      simp only [AST.mk.sizeOf_spec, CorrelatedSubquery.mk.sizeOf_spec, Option.some.sizeOf_spec] at *
      omega
    rw [Function.comp_apply, normalizeSubquery_eq, CorrelatedSubquery.select_eq, CorrelatedSubquery.select_eq,
      select_normalizeAST hsort r.subquery (hrelated r hr)]
termination_by sizeOf ast

end

/-! ## On an `issue` table -/

/-- `sort`, as an implementation has it. -/
def mergeSorted (cmp : Condition → Condition → ℤ) (l : List Condition) : List Condition :=
  l.mergeSort fun a b => cmp a b ≤ 0

/-- One issue. -/
def oneIssue : Database := fun table => if table = "issue" then [fun c => if c = "id" then .str "a" else .undefined] else []

/-- `issue` with a condition. -/
def issuesWhere (c : Condition) : AST where
  schema := none
  table := "issue"
  where_ := some c
  related := none
  start := none
  limit := none
  orderBy := some [("id", .asc)]

/-- `closed = false AND (creator = "a" OR (owner = "a" OR or()))`. -/
def nestedOr : Condition :=
  .group .and [.simple ⟨.eq, .column "closed", .value (.bool false)⟩,
    .group .or [.simple ⟨.eq, .column "creator", .value (.str "a")⟩,
      .group .or [.simple ⟨.eq, .column "owner", .value (.str "a")⟩, .group .or []]]]

theorem select_normalizeAST_nestedOr :
    (normalizeAST mergeSorted (fun n => toString n.num) (issuesWhere nestedOr)).select (fun _ _ _ => false) oneIssue
        (fun _ => true) =
      (issuesWhere nestedOr).select (fun _ _ _ => false) oneIssue fun _ => true :=
  select_normalizeAST (fun _ _ => List.mergeSort_perm ..) (issuesWhere nestedOr) (by decide) _

/-- `or()` selects nothing, and is dropped: the normalized query selects every issue. -/
theorem normalizeAST_drops_or :
    (normalizeAST mergeSorted (fun n => toString n.num) (issuesWhere (.group .or []))).select (fun _ _ _ => false) oneIssue
        (fun _ => true) ≠
      (issuesWhere (.group .or [])).select (fun _ _ _ => false) oneIssue fun _ => true := by
  intro h
  have hlen := congrArg List.length h
  rw [normalizeAST_eq, AST.select_eq, AST.select_eq, AST.rows_eq, AST.rows_eq] at hlen
  simp [issuesWhere, normalizeWhere, flattened, flattenedMembers, whereHolds, Condition.holds, anyHolds, oneIssue, cut,
    sortRows] at hlen

end ZeroSync
