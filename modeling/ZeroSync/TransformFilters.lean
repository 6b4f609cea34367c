/-
`transformFilters` of `zql/src/builder/filter.ts`: what a source filters by when a query
has subqueries in its `where`.
-/
import ZeroSync.SimplifyCondition

namespace ZeroSync

namespace Unbound

/-- What `transformFilters` returns. -/
structure TransformedFilters where
  filters : Option Condition
  conditionsRemoved : Bool

mutual

/-- `transformFilters` of a condition. -/
def transformFilter : Condition → TransformedFilters
  | .simple c => { filters := some (.simple c), conditionsRemoved := false }
  | .correlatedSubquery .. => { filters := none, conditionsRemoved := true }
  | .group type conditions => transformFilterLoop type conditions [] false

/-- The loop over the conditions of a group, and what is returned after it. -/
def transformFilterLoop (type : Connective) : List Condition → List Condition → Bool → TransformedFilters
  | [], transformedConditions, conditionsRemoved =>
    { filters := some (simplifyCondition (.group type transformedConditions)), conditionsRemoved }
  | cond :: conditions, transformedConditions, conditionsRemoved =>
    let transformed := transformFilter cond
    match transformed.filters, type with
    | none, .or => { filters := none, conditionsRemoved := true }
    | none, .and =>
      transformFilterLoop type conditions transformedConditions (conditionsRemoved || transformed.conditionsRemoved)
    | some filter, _ =>
      transformFilterLoop type conditions (transformedConditions ++ [filter])
        (conditionsRemoved || transformed.conditionsRemoved)

end

def transformFilters : Option Condition → TransformedFilters
  | none => { filters := none, conditionsRemoved := false }
  | some filters => transformFilter filters

mutual

/-- A `NoSubqueryCondition`. -/
def Condition.noSubquery : Condition → Bool
  | .simple _ => true
  | .group _ conditions => noSubqueries conditions
  | .correlatedSubquery .. => false

def noSubqueries : List Condition → Bool
  | [] => true
  | c :: conditions => c.noSubquery && noSubqueries conditions

end

end Unbound

/-! ## No subqueries -/

open Unbound

theorem noSubqueries_append (l m : List Unbound.Condition) :
    noSubqueries (l ++ m) = (noSubqueries l && noSubqueries m) := by
  induction l with
  | nil => rfl
  | cons c l ih => rw [List.cons_append, noSubqueries, ih, noSubqueries, Bool.and_assoc]

theorem noSubqueries_flatten (type : Connective) (cs : List Unbound.Condition) :
    noSubqueries (flatten type cs) = noSubqueries cs := by
  induction cs with
  | nil => rfl
  | cons c cs ih =>
    cases c with
    | group type' conditions =>
      rw [flatten]
      split
      · rw [noSubqueries_append, ih, noSubqueries, Condition.noSubquery]
      · rw [noSubqueries, ih, noSubqueries]
    | simple c => rw [flatten, noSubqueries, ih, noSubqueries]; exact fun _ _ h => by cases h
    | correlatedSubquery related op flip scalar =>
      rw [flatten, noSubqueries, ih, noSubqueries]; exact fun _ _ h => by cases h

mutual

theorem noSubquery_simplifyCondition : ∀ {c : Unbound.Condition}, c.noSubquery = true →
    (simplifyCondition c).noSubquery = true
  | .simple _, _ => rfl
  | .group type [], _ => by
    rw [simplifyCondition]
    · cases type <;> rfl
    · exact fun _ h => by cases h
  | .group type [c], h => by
    rw [simplifyCondition]
    rw [Condition.noSubquery, noSubqueries, Bool.and_eq_true] at h
    exact noSubquery_simplifyCondition h.1
  | .group type (a :: b :: cs), h => by
    have heach := @noSubqueries_simplifyEach (a :: b :: cs) h
    rw [simplifyCondition]
    · split
      · rfl
      split
      · rfl
      · rwa [Condition.noSubquery, noSubqueries_flatten]
    · exact fun _ h => by cases h

theorem noSubqueries_simplifyEach : ∀ {cs : List Unbound.Condition}, noSubqueries cs = true →
    noSubqueries (simplifyEach cs) = true
  | [], _ => rfl
  | c :: cs, h => by
    rw [noSubqueries, Bool.and_eq_true] at h
    rw [simplifyEach, noSubqueries, noSubquery_simplifyCondition h.1, noSubqueries_simplifyEach h.2]
    rfl

end

/-! ## What the filters let through -/

section
variable (simple : Unbound.SimpleCondition → Bool)
  (subquery : Unbound.CorrelatedSubquery → ExistsOperator → Option Bool → Option Bool → Bool)

/-- The truth of filters, which is that of no condition where there are none. -/
def filtersTruth : Option Unbound.Condition → Bool
  | none => true
  | some c => c.truth simple subquery

/-- Filters without subqueries that let through what has some truth, and that alone where nothing was removed. -/
structure Weaker (truth removed : Bool) (t : TransformedFilters) : Prop where
  noSubquery : ∀ c ∈ t.filters, c.noSubquery = true
  weaker : truth = true → filtersTruth simple subquery t.filters = true
  same : t.conditionsRemoved = false → removed = false ∧ t.filters.isSome ∧ filtersTruth simple subquery t.filters = truth

variable {simple subquery}

mutual

theorem transformFilter_weaker : ∀ c : Unbound.Condition,
    Weaker simple subquery (c.truth simple subquery) false (transformFilter c)
  | .simple c => ⟨fun c' h => (by cases h; rfl), fun h => h, fun _ => ⟨rfl, rfl, rfl⟩⟩
  | .correlatedSubquery .. => ⟨fun c' h => (by cases h), fun _ => rfl, fun h => (by cases h)⟩
  | .group type cs => by
    have hloop := transformFilterLoop_weaker type cs [] false rfl
    have hnil : type.combine ((Unbound.Condition.group type []).truth simple subquery)
        ((Unbound.Condition.group type cs).truth simple subquery) =
          (Unbound.Condition.group type cs).truth simple subquery := by
      cases type
      · exact Bool.true_and _
      · exact Bool.false_or _
    rw [hnil] at hloop
    exact hloop

theorem transformFilterLoop_weaker : ∀ (type : Connective) (cs transformed : List Unbound.Condition) (removed : Bool),
    noSubqueries transformed = true →
    Weaker simple subquery (type.combine ((Unbound.Condition.group type transformed).truth simple subquery)
      ((Unbound.Condition.group type cs).truth simple subquery)) removed (transformFilterLoop type cs transformed removed)
  | type, [], transformed, removed, hfree => by
    have hnil : type.combine ((Unbound.Condition.group type transformed).truth simple subquery)
        ((Unbound.Condition.group type []).truth simple subquery) =
          (Unbound.Condition.group type transformed).truth simple subquery := by
      cases type
      · exact Bool.and_true _
      · exact Bool.or_false _
    have htruth : (simplifyCondition (.group type transformed)).truth simple subquery = _ := simplifyCondition_truth _
    rw [hnil, transformFilterLoop]
    refine ⟨fun c hc => ?_, fun h => htruth.trans h, fun h => ⟨h, rfl, htruth⟩⟩
    rw [← Option.some.inj hc]
    exact noSubquery_simplifyCondition hfree
  | type, cond :: cs, transformed, removed, hfree => by
    have hcond : Weaker simple subquery (cond.truth simple subquery) false (transformFilter cond) :=
      transformFilter_weaker cond
    obtain ⟨hcfree, hcweaker, hcsame⟩ := hcond
    rw [truth_group_cons, transformFilterLoop.eq_def]
    cases hfilters : (transformFilter cond).filters with
    | none =>
      rw [hfilters] at hcsame
      cases type with
      | or =>
        simp only [hfilters]
        exact ⟨fun c h => (by cases h), fun _ => rfl, fun h => (by cases h)⟩
      | and =>
        simp only [hfilters]
        obtain ⟨hlfree, hlweaker, hlsame⟩ := transformFilterLoop_weaker .and cs transformed
          (removed || (transformFilter cond).conditionsRemoved) hfree
        refine ⟨hlfree, fun h => hlweaker ?_, fun h => ?_⟩
        · simp only [Connective.combine, Bool.and_eq_true] at h ⊢
          exact ⟨h.1, h.2.2⟩
        · have hkept := (Bool.or_eq_false_iff.1 (hlsame h).1).2
          exact absurd (hcsame hkept).2.1 Bool.false_ne_true
    | some filter =>
      rw [hfilters] at hcfree hcweaker hcsame
      simp only [hfilters]
      have hfree' : noSubqueries (transformed ++ [filter]) = true := by
        rw [noSubqueries_append, hfree, noSubqueries, hcfree filter rfl]
        rfl
      obtain ⟨hlfree, hlweaker, hlsame⟩ := transformFilterLoop_weaker type cs (transformed ++ [filter])
        (removed || (transformFilter cond).conditionsRemoved) hfree'
      rw [truth_group_append, truth_group_singleton] at hlweaker hlsame
      refine ⟨hlfree, fun h => hlweaker ?_, fun h => ?_⟩
      · cases type with
        | and =>
          simp only [Connective.combine, Bool.and_eq_true] at h ⊢
          exact ⟨⟨h.1, hcweaker h.2.1⟩, h.2.2⟩
        | or =>
          simp only [Connective.combine, Bool.or_eq_true] at h ⊢
          obtain h | h | h := h
          · exact .inl (.inl h)
          · exact .inl (.inr (hcweaker h))
          · exact .inr h
      · obtain ⟨hkept, hsome, htruth⟩ := hlsame h
        obtain ⟨hremoved, hcond⟩ := Bool.or_eq_false_iff.1 hkept
        have hfilter : filter.truth simple subquery = cond.truth simple subquery := (hcsame hcond).2.2
        refine ⟨hremoved, hsome, htruth.trans ?_⟩
        rw [hfilter]
        cases type
        · exact Bool.and_assoc ..
        · exact Bool.or_assoc ..

end

/-- **`transformFilters`** returns a filter without subqueries that holds where the condition does, and nowhere else
where no conditions were removed; and simplification changes no truth. -/
theorem transformFilters_weaker (filters : Option Unbound.Condition) (simple : Unbound.SimpleCondition → Bool)
    (subquery : Unbound.CorrelatedSubquery → ExistsOperator → Option Bool → Option Bool → Bool) :
    (∀ c ∈ (transformFilters filters).filters, c.noSubquery = true) ∧
    (filtersTruth simple subquery filters = true →
      filtersTruth simple subquery (transformFilters filters).filters = true) ∧
    ((transformFilters filters).conditionsRemoved = false →
      filtersTruth simple subquery (transformFilters filters).filters = filtersTruth simple subquery filters) ∧
    ∀ c : Unbound.Condition, (simplifyCondition c).truth simple subquery = c.truth simple subquery := by
  cases filters with
  | none => exact ⟨fun c h => (by cases h), fun h => h, fun _ => rfl, simplifyCondition_truth⟩
  | some filters =>
    have hfilter : Weaker simple subquery (filters.truth simple subquery) false (transformFilter filters) :=
      transformFilter_weaker filters
    obtain ⟨hfree, hweaker, hsame⟩ := hfilter
    exact ⟨hfree, hweaker, fun h => (hsame h).2.2, simplifyCondition_truth⟩

end

end ZeroSync
