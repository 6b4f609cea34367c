/-
`Skip` of `zql/src/ivm/skip.ts`: the part of an input that is not before a bound.

A fetch combines the bound with the start it is asked for into one start, and cuts a
reverse fetch off at the bound. Over an input that answers its requests
(`Input.Serves`) this comes to the rows of the input that are at or after the bound
(`fetch_eq`), and a push keeps to them: what it emits takes the rows that were there
before to those after (`push_applies`).
-/
import ZeroSync.AST
import ZeroSync.JoinOverlay

namespace ZeroSync

open SortedList

/-- `Skip`. Its constructor asserts that the input is sorted. -/
structure Skip where
  schema : SourceSchema
  bound : Bound
  sorted : schema.sort.isSome

/-- What `#getStart` returns: a start, or none, to fetch from, or `'empty'`. -/
inductive SkipStart
  | start (start : Option Start)
  | empty

namespace Skip

/-- `#shouldBePresent`. -/
def shouldBePresent (skip : Skip) (row : Row) : Bool :=
  let cmp := skip.schema.compareRows skip.bound.row row
  cmp = .lt || cmp = .eq && !skip.bound.exclusive

/-- `boundStart`. -/
def boundStart (skip : Skip) : Start where
  row := skip.bound.row
  basis := if skip.bound.exclusive then .after else .at

/-- `#getStart`. -/
def getStart (skip : Skip) (req : FetchRequest) : SkipStart :=
  match req.start with
  | none => .start (if req.reverse then none else some skip.boundStart)
  | some start =>
    let cmp := skip.schema.compareRows skip.bound.row start.row
    if !req.reverse then
      if cmp = .gt then
        .start (some skip.boundStart)
      else if cmp = .eq then
        if skip.bound.exclusive || start.basis = .after then
          .start (some { row := skip.bound.row, basis := .after })
        else
          .start (some skip.boundStart)
      else
        .start (some start)
    else if cmp = .gt then
      .empty
    else if cmp = .eq then
      if !skip.bound.exclusive && start.basis = .at then .start (some skip.boundStart) else .empty
    else
      .start (some start)

/-- `fetch`. A reverse fetch ends at the first node that should not be present. -/
def fetch (skip : Skip) (input : Input) (req : FetchRequest) : List Node :=
  match skip.getStart req with
  | .empty => []
  | .start start =>
    let nodes := input.fetch { req with start }
    if !req.reverse then nodes else nodes.takeWhile fun node => skip.shouldBePresent node.row

end Skip

/-- `maybeSplitAndPushEditChange`: what the output is pushed. -/
def maybeSplitAndPushEditChange (node oldNode : Node) (predicate : Row → Bool) : List Change :=
  let oldWasPresent := predicate oldNode.row
  let newIsPresent := predicate node.row
  if oldWasPresent && newIsPresent then
    [.edit node oldNode]
  else if oldWasPresent && !newIsPresent then
    [.remove oldNode]
  else if !oldWasPresent && newIsPresent then
    [.add node]
  else
    []

/-- `push`: what the output is pushed. -/
def Skip.push (skip : Skip) : Change → List Change
  | .edit node oldNode => maybeSplitAndPushEditChange node oldNode skip.shouldBePresent
  | change => if skip.shouldBePresent change.node.row then [change] else []

/-- The row is at or after the bound, or after one that is exclusive. -/
def Bound.reaches (compareRows : Comparator) (bound : Bound) (row : Row) : Bool :=
  if bound.exclusive then compareRows row bound.row = .gt else (compareRows row bound.row).isGE

/-- The input answers every request with those of the nodes that it asks for, in its order. -/
structure Input.Serves (input : Input) (schema : SourceSchema) (nodes : List Node) : Prop where
  listing : Listing schema nodes
  fetch : ∀ req, input.fetch req = (req.order nodes).filter fun node => req.admits schema.compareRows node.row

theorem Input.serves_ofRows (schema : SourceSchema) (rows : List Row) (h : Listing schema (rows.map .ofRow)) :
    (Input.ofRows schema rows).Serves schema (rows.map .ofRow) where
  listing := h
  fetch req := by
    have horder : req.order (rows.map Node.ofRow) = (req.order rows).map .ofRow := by
      cases hrev : req.reverse <;> simp [FetchRequest.order, hrev]
    rw [horder, List.filter_map]
    rfl

/-- The changes, one after the other, take the nodes of an input to the nodes after them. -/
def AppliesEach (schema : SourceSchema) : List Change → List Node → List Node → Prop
  | [], before, after => after = before
  | change :: changes, before, after =>
    ∃ between, Listing schema between ∧ change.Applies schema before between ∧ AppliesEach schema changes between after

/-! ## The start of a fetch -/

theorem takeWhile_eq_filter {α : Type*} {p : α → Bool} {l : List α} (h : l.Pairwise fun a b => p b → p a) :
    l.takeWhile p = l.filter p := by
  induction l with
  | nil => rfl
  | cons a l ih =>
    obtain ⟨ha, hl⟩ := List.pairwise_cons.mp h
    cases hp : p a with
    | true => rw [List.takeWhile_cons_of_pos hp, List.filter_cons_of_pos hp, ih hl]
    | false =>
      have hnone : l.filter p = [] := by
        refine List.filter_eq_nil_iff.mpr fun b hb hpb => ?_
        cases hp.symm.trans (ha b hb hpb)
      rw [List.takeWhile_cons_of_neg (by simp [hp]), List.filter_cons_of_neg (by simp [hp]), hnone]

namespace Start

variable {compare : Comparator} [Std.TransCmp compare]

theorem admits_congr {row row' : Row} (h : compare row row' = .eq) (basis : Basis) (x : Row) :
    (Start.mk row basis).admits compare x = (Start.mk row' basis).admits compare x := by
  have hx : compare x row = compare x row' := Std.TransCmp.congr_right h
  cases basis <;> simp [Start.admits, hx]

theorem isLE_of_admits {start : Start} {row : Row} (h : start.admits compare row = true) :
    (compare start.row row).isLE := by
  have hswap : compare row start.row = (compare start.row row).swap := Std.OrientedCmp.eq_swap
  obtain ⟨startRow, basis⟩ := start
  cases basis <;> cases hcmp : compare startRow row <;> simp_all [Start.admits]

theorem admits_of_lt {start : Start} {row : Row} (h : compare start.row row = .lt) : start.admits compare row = true := by
  have hswap : compare row start.row = .gt := Std.OrientedCmp.gt_of_lt h
  obtain ⟨startRow, basis⟩ := start
  cases basis <;> simp_all [Start.admits]

end Start

namespace Skip

variable (skip : Skip)

section
variable [Std.TransCmp skip.schema.compareRows]

theorem shouldBePresent_eq (row : Row) :
    skip.shouldBePresent row = skip.bound.reaches skip.schema.compareRows row := by
  have hswap : skip.schema.compareRows row skip.bound.row = (skip.schema.compareRows skip.bound.row row).swap :=
    Std.OrientedCmp.eq_swap
  cases hexcl : skip.bound.exclusive <;> cases hcmp : skip.schema.compareRows skip.bound.row row <;>
    simp [Bound.reaches, shouldBePresent, hexcl, hswap, hcmp]

theorem boundStart_admits (row : Row) :
    skip.boundStart.admits skip.schema.compareRows row = skip.shouldBePresent row := by
  rw [shouldBePresent_eq]
  cases hexcl : skip.bound.exclusive <;> simp [boundStart, Start.admits, Bound.reaches, hexcl]

theorem isLE_of_present {row : Row} (h : skip.shouldBePresent row = true) :
    (skip.schema.compareRows skip.bound.row row).isLE := by
  rw [← skip.boundStart_admits] at h
  exact Start.isLE_of_admits h

theorem present_of_isLE {row row' : Row} (h : (skip.schema.compareRows row row').isLE)
    (hp : skip.shouldBePresent row = true) : skip.shouldBePresent row' = true := by
  have hle := skip.isLE_of_present hp
  cases hcmp : skip.schema.compareRows skip.bound.row row with
  | lt =>
    have hlt : skip.schema.compareRows skip.bound.row row' = .lt := Std.TransCmp.lt_of_lt_of_isLE hcmp h
    simp [shouldBePresent, hlt]
  | eq =>
    have hexcl : skip.bound.exclusive = false := by simpa [shouldBePresent, hcmp] using hp
    have hle' : (skip.schema.compareRows skip.bound.row row').isLE := Std.TransCmp.isLE_trans hle h
    cases hcmp' : skip.schema.compareRows skip.bound.row row' <;> simp_all [shouldBePresent]
  | gt => simp [hcmp] at hle

theorem getStart_forward {req : FetchRequest} (h : req.reverse = false) :
    ∃ start, skip.getStart req = .start (some start) ∧ ∀ row, start.admits skip.schema.compareRows row =
      (req.start.all (·.admits skip.schema.compareRows row) && skip.shouldBePresent row) := by
  cases hstart : req.start with
  | none => exact ⟨skip.boundStart, by simp [getStart, hstart, h], fun row => by simp [boundStart_admits]⟩
  | some start =>
    cases hcmp : skip.schema.compareRows skip.bound.row start.row with
    | gt =>
      refine ⟨skip.boundStart, by simp [getStart, hstart, h, hcmp], fun row => ?_⟩
      rw [boundStart_admits, Option.all_some]
      cases hp : skip.shouldBePresent row with
      | false => rw [Bool.and_false]
      | true =>
        have hlt : skip.schema.compareRows start.row row = .lt :=
          Std.TransCmp.lt_of_lt_of_isLE (Std.OrientedCmp.lt_of_gt hcmp) (skip.isLE_of_present hp)
        rw [Start.admits_of_lt hlt, Bool.and_true]
    | lt =>
      refine ⟨start, by simp [getStart, hstart, h, hcmp], fun row => ?_⟩
      rw [Option.all_some]
      cases ha : start.admits skip.schema.compareRows row with
      | false => rw [Bool.false_and]
      | true =>
        have hlt : skip.schema.compareRows skip.bound.row row = .lt :=
          Std.TransCmp.lt_of_lt_of_isLE hcmp (Start.isLE_of_admits ha)
        simp [shouldBePresent, hlt]
    | eq =>
      obtain ⟨startRow, basis⟩ := start
      have hcongr : ∀ row, (Start.mk startRow basis).admits skip.schema.compareRows row =
          (Start.mk skip.bound.row basis).admits skip.schema.compareRows row :=
        fun row => (Start.admits_congr hcmp basis row).symm
      cases hexcl : skip.bound.exclusive with
      | false =>
        refine ⟨⟨skip.bound.row, basis⟩, ?_, fun row => ?_⟩
        · cases basis <;> simp [getStart, hstart, h, hcmp, hexcl, boundStart]
        · rw [Option.all_some, hcongr]
          cases ha : (Start.mk skip.bound.row basis).admits skip.schema.compareRows row with
          | false => rw [Bool.false_and]
          | true =>
            have hle := Start.isLE_of_admits ha
            cases hrow : skip.schema.compareRows skip.bound.row row <;> simp_all [shouldBePresent]
      | true =>
        refine ⟨⟨skip.bound.row, .after⟩, by simp [getStart, hstart, h, hcmp, hexcl], fun row => ?_⟩
        have hbound := skip.boundStart_admits row
        simp only [boundStart, hexcl, if_true] at hbound
        rw [Option.all_some, hcongr, hbound]
        cases hp : skip.shouldBePresent row with
        | false => rw [Bool.and_false]
        | true =>
          have hlt : skip.schema.compareRows skip.bound.row row = .lt := by
            simpa [shouldBePresent, hexcl] using hp
          rw [Start.admits_of_lt hlt, Bool.and_true]

theorem getStart_reverse {req : FetchRequest} (h : req.reverse = true) :
    match skip.getStart req with
    | .start start => ∀ row, start.all (·.admits (directed skip.schema.compareRows true) row) =
        req.start.all (·.admits (directed skip.schema.compareRows true) row)
    | .empty => ∀ row, req.start.all (·.admits (directed skip.schema.compareRows true) row) = true →
        skip.shouldBePresent row = false := by
  cases hstart : req.start with
  | none => simp [getStart, hstart, h]
  | some start =>
    cases hcmp : skip.schema.compareRows skip.bound.row start.row with
    | gt =>
      simp only [getStart, hstart, h, hcmp, Option.all_some]
      intro row hrow
      have hle : (skip.schema.compareRows row start.row).isLE := Start.isLE_of_admits hrow
      have hgt : skip.schema.compareRows skip.bound.row row = .gt :=
        Std.OrientedCmp.gt_of_lt (Std.TransCmp.lt_of_isLE_of_lt hle (Std.OrientedCmp.lt_of_gt hcmp))
      simp [shouldBePresent, hgt]
    | lt => simp [getStart, hstart, h, hcmp]
    | eq =>
      obtain ⟨startRow, basis⟩ := start
      have hbound : directed skip.schema.compareRows true startRow skip.bound.row = .eq := hcmp
      have hcongr : ∀ row, (Start.mk startRow basis).admits (directed skip.schema.compareRows true) row =
          (Start.mk skip.bound.row basis).admits (directed skip.schema.compareRows true) row :=
        fun row => Start.admits_congr hbound basis row
      cases hexcl : skip.bound.exclusive <;> cases basis
      · simpa [getStart, hstart, h, hcmp, hexcl, boundStart] using fun row => (hcongr row).symm
      all_goals
        simp only [getStart, hstart, h, hcmp, hexcl]
        intro row hrow
        rw [Option.all_some, hcongr] at hrow
        cases hrow' : skip.schema.compareRows skip.bound.row row <;>
          simp_all [Start.admits, directed, shouldBePresent]

theorem takeWhile_present {nodes : List Node} (h : Listing skip.schema nodes) (p : Node → Bool) :
    (nodes.reverse.filter p).takeWhile (fun node => skip.shouldBePresent node.row) =
      (nodes.reverse.filter p).filter fun node => skip.shouldBePresent node.row := by
  refine takeWhile_eq_filter (List.Pairwise.filter p (List.pairwise_reverse.mpr ?_))
  exact (h.sorted skip.sorted).imp fun hlt => skip.present_of_isLE (Ordering.isLE_of_eq_lt hlt)

end

theorem fetch_eq {input : Input} {nodes : List Node} (h : input.Serves skip.schema nodes) (req : FetchRequest) :
    skip.fetch input req = (input.fetch req).filter fun node => skip.shouldBePresent node.row := by
  have := h.listing.total
  have hfetch : ∀ start, input.fetch { req with start } = (req.order nodes).filter fun node =>
      req.matches node.row && start.all (·.admits (directed skip.schema.compareRows req.reverse) node.row) :=
    fun start => h.fetch { req with start }
  have hreq := hfetch req.start
  cases hrev : req.reverse with
  | false =>
    obtain ⟨start, hstart, hadmits⟩ := skip.getStart_forward hrev
    have hskip : skip.fetch input req = input.fetch { req with start := some start } := by simp [fetch, hstart, hrev]
    rw [hskip, hfetch, hreq, List.filter_filter]
    refine List.filter_congr fun node _ => ?_
    simp only [directed, hrev, Bool.false_eq_true, if_false, Option.all_some, hadmits]
    rw [← Bool.and_assoc, Bool.and_comm]
  | true =>
    have hstart := skip.getStart_reverse hrev
    cases hget : skip.getStart req with
    | empty =>
      rw [hget] at hstart
      simp only [fetch, hget]
      rw [hreq, hrev]
      refine (List.filter_eq_nil_iff.mpr fun node hnode => ?_).symm
      obtain ⟨-, hadmits⟩ := List.mem_filter.mp hnode
      simp [hstart node.row (Bool.and_eq_true_iff.mp hadmits).2]
    | start start =>
      rw [hget] at hstart
      have hskip : skip.fetch input req =
          (input.fetch { req with start }).takeWhile fun node => skip.shouldBePresent node.row := by
        simp [fetch, hget, hrev]
      rw [hskip, hfetch, hreq, hrev]
      simp only [hstart, FetchRequest.order, hrev, if_true]
      exact skip.takeWhile_present h.listing _

theorem serves {input : Input} {nodes : List Node} (h : input.Serves skip.schema nodes) :
    Input.Serves { schema := skip.schema, fetch := skip.fetch input } skip.schema
      (nodes.filter fun node => skip.shouldBePresent node.row) where
  listing := h.listing.filter skip.shouldBePresent
  fetch req := by
    have hfetch := skip.fetch_eq h req
    rw [h.fetch, List.filter_filter] at hfetch
    refine hfetch.trans ?_
    cases hrev : req.reverse <;> simp [FetchRequest.order, hrev, List.filter_filter, List.filter_reverse, Bool.and_comm]

/-! ## Pushes -/

theorem appliesEach_one {schema : SourceSchema} {change : Change} {before after : List Node} (ha : Listing schema after)
    (h : change.Applies schema before after) : AppliesEach schema [change] before after :=
  ⟨after, ha, h, rfl⟩

theorem appliesEach_none {schema : SourceSchema} {before after : List Node} (hs : schema.sort.isSome)
    (hb : Listing schema before) (ha : Listing schema after) (h : after.Perm before) :
    AppliesEach schema [] before after := by
  have := hb.total
  exact (ha.sorted hs).eq_of_perm (hb.sorted hs) h

theorem push_unsplit {change : Change} {before after : List Node}
    (hb : Listing skip.schema (before.filter fun node => skip.shouldBePresent node.row))
    (ha : Listing skip.schema (after.filter fun node => skip.shouldBePresent node.row))
    (h : change.Applies skip.schema before after) (hedit : ∀ new old, change ≠ .edit new old) :
    AppliesEach skip.schema (skip.push change) (before.filter fun node => skip.shouldBePresent node.row)
      (after.filter fun node => skip.shouldBePresent node.row) := by
  have hpush : skip.push change = if skip.shouldBePresent change.node.row then [change] else [] := by
    cases change with
    | edit new old => exact absurd rfl (hedit new old)
    | add _ | remove _ | child _ _ _ => rfl
  rw [hpush]
  cases hp : skip.shouldBePresent change.node.row with
  | true => exact appliesEach_one ha (h.filter hp fun new old heq => absurd heq (hedit new old))
  | false => exact appliesEach_none skip.sorted hb ha (h.filter_of_not hp hedit)

theorem push_applies {change : Change} {before after : List Node} (hb : Listing skip.schema before)
    (ha : Listing skip.schema after) (h : change.Applies skip.schema before after) :
    AppliesEach skip.schema (skip.push change) (before.filter fun node => skip.shouldBePresent node.row)
      (after.filter fun node => skip.shouldBePresent node.row) := by
  have hb' := hb.filter skip.shouldBePresent
  have ha' := ha.filter skip.shouldBePresent
  cases change with
  | edit node oldNode =>
    obtain ⟨rest, hbefore, hafter⟩ := h
    have hbefore := hbefore.filter fun node => skip.shouldBePresent node.row
    have hafter := hafter.filter fun node => skip.shouldBePresent node.row
    cases hold : skip.shouldBePresent oldNode.row <;> cases hnew : skip.shouldBePresent node.row <;>
      simp only [List.filter_cons, hold, hnew, if_true, Bool.false_eq_true, if_false] at hbefore hafter <;>
      simp only [push, maybeSplitAndPushEditChange, hold, hnew, Bool.not_true, Bool.not_false, Bool.and_true,
        Bool.and_false, if_true, Bool.false_eq_true, if_false]
    · exact appliesEach_none skip.sorted hb' ha' (hafter.trans hbefore.symm)
    · exact appliesEach_one ha' (hafter.trans (hbefore.symm.cons node))
    · exact appliesEach_one ha' (hbefore.trans (hafter.symm.cons oldNode))
    · exact appliesEach_one ha' ⟨_, hbefore, hafter⟩
  | add new => exact skip.push_unsplit hb' ha' h fun _ _ => nofun
  | remove old => exact skip.push_unsplit hb' ha' h fun _ _ => nofun
  | child new name change => exact skip.push_unsplit hb' ha' h fun _ _ => nofun

end Skip

/-- **Skip is what is left of its input from the bound on.** A fetch is the fetch of the input less the rows before the
bound, and applying what is pushed for a change to what there was gives what there is after it. -/
theorem skip_from_bound (skip : Skip) {input : Input} {nodes : List Node} (h : input.Serves skip.schema nodes) :
    (∀ req, skip.fetch input req =
      (input.fetch req).filter fun node => skip.bound.reaches skip.schema.compareRows node.row) ∧
    ∀ change input' nodes', Input.Serves input' skip.schema nodes' → change.Applies skip.schema nodes nodes' →
      AppliesEach skip.schema (skip.push change) (skip.fetch input {}) (skip.fetch input' {}) := by
  have := h.listing.total
  have hall : ∀ {input : Input} {nodes : List Node}, input.Serves skip.schema nodes →
      skip.fetch input {} = nodes.filter fun node => skip.shouldBePresent node.row := by
    intro input nodes h
    have hfetch := (skip.serves h).fetch {}
    simpa [FetchRequest.order, FetchRequest.admits, FetchRequest.matches] using hfetch
  constructor
  · intro req
    rw [skip.fetch_eq h]
    exact List.filter_congr fun node _ => skip.shouldBePresent_eq node.row
  · intro change input' nodes' h' happlies
    rw [hall h, hall h']
    exact skip.push_applies h.listing h'.listing happlies

/-- The issues from `a` on. -/
def skipFromA : Skip where
  schema := keyedSchema "issue" []
  bound := { row := keyedRow "a", exclusive := false }
  sorted := rfl

theorem skip_from_bound_removed :
    AppliesEach (keyedSchema "issue" []) [.remove (.ofRow (keyedRow "a"))]
      (skipFromA.fetch (.ofRows (keyedSchema "issue" []) [keyedRow "a", keyedRow "b"]) {})
      (skipFromA.fetch (.ofRows (keyedSchema "issue" []) [keyedRow "b"]) {}) := by
  have hlt : makeComparator [("id", .asc)] (keyedRow "a") (keyedRow "b") = .lt := by decide
  have htotal : Std.TransCmp (keyedSchema "issue" []).compareRows := inferInstanceAs (Std.TransCmp (makeComparator _))
  have htwo : Listing (keyedSchema "issue" []) [.ofRow (keyedRow "a"), .ofRow (keyedRow "b")] := by
    refine ⟨htotal, List.pairwise_pair.mpr fun heq => ?_, fun _ => List.pairwise_pair.mpr hlt⟩
    have heq : makeComparator [("id", .asc)] (keyedRow "a") (keyedRow "b") = .eq := heq
    cases hlt.symm.trans heq
  have hone : Listing (keyedSchema "issue" []) [.ofRow (keyedRow "b")] :=
    ⟨htotal, List.pairwise_singleton .., fun _ => List.pairwise_singleton ..⟩
  have hbefore := Input.serves_ofRows (keyedSchema "issue" []) [keyedRow "a", keyedRow "b"] htwo
  have hafter := Input.serves_ofRows (keyedSchema "issue" []) [keyedRow "b"] hone
  exact (skip_from_bound skipFromA hbefore).2 (.remove (.ofRow (keyedRow "a"))) _ _ hafter (.refl _)

end ZeroSync
