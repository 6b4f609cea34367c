/-
`ivm/join.ts`: the Join operator, which gives each node of its parent input a
relationship with the nodes of its child input that have the same key.

A change of a child is pushed once for each parent it concerns, and the
operator shows the parents it has not come to the children as they were.
`parent` and `child` are the inputs as they answer fetches during the push. A
push returns each change with the operator as the output sees it then.
-/
import ZeroSync.JoinKeys
import ZeroSync.JoinOverlay
import ZeroSync.Streams

namespace ZeroSync

open SortedList

/-- The operator. -/
structure Join where
  parent : Input
  child : Input
  parentKey : List String
  childKey : List String
  relationshipName : String
  system : String
  /-- `The parentKey and childKey keys must have same length` -/
  keys_length : parentKey.length = childKey.length
  inprogressChildChange : Option Change := none
  inprogressChildChangePosition : Option Row := none

namespace Join

/-- `getSchema`. -/
def schema (j : Join) : SourceSchema :=
  { j.parent.schema with
    relationships := OrderedMap.setEntries j.relationshipName { j.child.schema with system := j.system }
      j.parent.schema.relationships }

/-- The in-progress child change, where `#processParentNode` shows the parent the children before it. -/
def overlayFor (j : Join) (parentNodeRow : Row) : Option Change :=
  match j.inprogressChildChange, j.inprogressChildChangePosition with
  | some change, some position =>
    if isJoinMatch parentNodeRow j.parentKey change.node.row j.childKey ∧
        j.parent.schema.compareRows parentNodeRow position = .gt then some change
    else none
  | _, _ => none

/-- The stream of `#processParentNode`, before any overlay. -/
def fetchChildren (j : Join) (parentNodeRow : Row) : List Node :=
  match buildJoinConstraint parentNodeRow j.parentKey j.childKey with
  | some constraint => j.child.fetch { constraint := some constraint }
  | none => []

/-- `childStream`, in `#processParentNode`. -/
def childStream (j : Join) (parentNodeRow : Row) : Except JoinError (List Node) :=
  let stream := j.fetchChildren parentNodeRow
  match j.overlayFor parentNodeRow with
  | some change =>
    if j.child.schema.sort.isNone then generateWithOverlayUnordered stream change j.child.schema
    else generateWithOverlay stream change j.child.schema
  | none => .ok stream

/-- `#processParentNode`. -/
def processParentNode (j : Join) (parentNode : Node) : Except JoinError Node := do
  return parentNode.setRelationship j.relationshipName (← j.childStream parentNode.row)

/-- `fetch`. -/
def fetch (j : Join) (req : FetchRequest) : Except JoinError (List Node) :=
  (j.parent.fetch req).mapM j.processParentNode

/-- `#pushParent`: the change handed to the output. -/
def pushParent (j : Join) : Change → Except JoinError Change
  | .add node => do return .add (← j.processParentNode node)
  | .remove node => do return .remove (← j.processParentNode node)
  | .child node name change => do return .child (← j.processParentNode node) name change
  | .edit node oldNode =>
    if rowEqualsForCompoundKey oldNode.row node.row j.parentKey then do
      return .edit (← j.processParentNode node) (← j.processParentNode oldNode)
    else .error .parentEditChangesRelationship

/-- The parents `#pushChildChange` goes through. -/
def fetchParents (j : Join) (childRow : Row) : List Node :=
  match buildJoinConstraint childRow j.childKey j.parentKey with
  | some constraint => j.parent.fetch { constraint := some constraint }
  | none => []

/-- `#pushChildChange`. -/
def pushChildChange (j : Join) (childRow : Row) (change : Change) : Except JoinError (List (Change × Join) × Join) := do
  let parentNodes := j.fetchParents childRow
  let pushed ← parentNodes.mapM fun parentNode => do
    let j := { j with
      inprogressChildChange := some change
      inprogressChildChangePosition := some parentNode.row }
    return (.child (← j.processParentNode parentNode) j.relationshipName change, j)
  return (pushed, { j with
    inprogressChildChange := none
    inprogressChildChangePosition := parentNodes.getLast?.map (·.row) })

/-- `#pushChild`. -/
def pushChild (j : Join) (change : Change) : Except JoinError (List (Change × Join) × Join) :=
  match change with
  | .add _ | .remove _ | .child _ _ _ => j.pushChildChange change.node.row change
  | .edit node oldNode =>
    if rowEqualsForCompoundKey oldNode.row node.row j.childKey then j.pushChildChange node.row change
    else .error .childEditChangesRelationship

/-! ## Children -/

/-- The nodes among those of the child input that match a parent. -/
def childrenOf (j : Join) (children : List Node) (parent : Row) : List Node :=
  children.filter fun n => isJoinMatch parent j.parentKey n.row j.childKey

/-- What a parent shows while the parent of row `position` has its turn in a
child push: if the change concerns it and it comes later, the children before
the change, else those after. -/
def Shows (j : Join) (change : Change) (before after : List Node) (position parent : Row) (shown : List Node) : Prop :=
  if isJoinMatch parent j.parentKey change.node.row j.childKey ∧
      j.parent.schema.compareRows parent position = .gt then
    change.Restores j.child.schema (j.childrenOf before parent) shown ∧
      (change.Ordered j.child.schema → shown = j.childrenOf before parent)
  else shown = j.childrenOf after parent

/-- A change comes from the child input: the inputs, the children reflecting
the change, and the nodes it takes them from. No key names a column twice. -/
structure Receives (j : Join) (change : Change) (parents : List Row) (before after : List Node) : Prop where
  idle : j.inprogressChildChange = none
  parentKey : j.parentKey.Nodup
  childKey : j.childKey.Nodup
  total : Std.TransCmp j.parent.schema.compareRows
  sorted : Sorted j.parent.schema.compareRows parents
  parents : j.parent.Reflects j.parent.schema.compareRows parents
  children : ∀ constraint, j.child.fetch { constraint := some constraint } =
    after.filter fun n => constraintMatchesRow constraint n.row
  listingBefore : Listing j.child.schema before
  listingAfter : Listing j.child.schema after
  applies : change.Applies j.child.schema before after
  edit : ∀ node oldNode, change = .edit node oldNode → rowEqualsForCompoundKey oldNode.row node.row j.childKey = true
  unordered : j.child.schema.sort = none → ComparesKeys j.child.schema

section
variable {j : Join} {change : Change} {parents : List Row} {before after : List Node}

/-- The operator while the parent of a row has its turn. -/
def during (j : Join) (change : Change) (position : Row) : Join :=
  { j with
    inprogressChildChange := some change
    inprogressChildChangePosition := some position }

theorem Receives.fetchChildren (h : j.Receives change parents before after) (parent : Row) :
    j.fetchChildren parent = j.childrenOf after parent := by
  have hmatch : ∀ child, _ = isJoinMatch parent j.parentKey child j.childKey :=
    buildJoinConstraint_child j.keys_length h.childKey
  rw [Join.fetchChildren, childrenOf]
  cases hc : buildJoinConstraint parent j.parentKey j.childKey with
  | none =>
    simp only [hc, Option.any_none] at hmatch
    simp [← hmatch]
  | some constraint =>
    simp only [hc, Option.any_some] at hmatch
    simp only [h.children, hmatch]

theorem Receives.childStream (h : j.Receives change parents before after) (position parent : Row) :
    ∃ shown, (j.during change position).childStream parent = .ok shown ∧
      j.Shows change before after position parent shown := by
  have hstream : (j.during change position).fetchChildren parent = j.childrenOf after parent := h.fetchChildren parent
  by_cases hlater : isJoinMatch parent j.parentKey change.node.row j.childKey ∧
      j.parent.schema.compareRows parent position = .gt
  · have hoverlay : (j.during change position).overlayFor parent = some change := if_pos hlater
    have happlies : change.Applies j.child.schema (j.childrenOf before parent) (j.childrenOf after parent) := by
      refine h.applies.filter (p := fun row => isJoinMatch parent j.parentKey row j.childKey) hlater.1
        fun node oldNode hedit => ?_
      rw [isJoinMatch_congr (h.edit node oldNode hedit)]
      subst hedit
      exact hlater.1
    have hbefore : Listing j.child.schema (j.childrenOf before parent) :=
      h.listingBefore.filter fun row => isJoinMatch parent j.parentKey row j.childKey
    have hafter : Listing j.child.schema (j.childrenOf after parent) :=
      h.listingAfter.filter fun row => isJoinMatch parent j.parentKey row j.childKey
    obtain ⟨shown, hshown, hrestores⟩ : ∃ shown, (j.during change position).childStream parent = .ok shown ∧
        change.Restores j.child.schema (j.childrenOf before parent) shown := by
      rw [Join.childStream, hoverlay, hstream]
      cases hsort : j.child.schema.sort with
      | none =>
        obtain ⟨out, hout, hrestores⟩ :=
          generateWithOverlayUnordered_restores change hsort ((h.unordered hsort).distinct hafter) happlies
        exact ⟨out, (if_pos (by simp [during, hsort])).trans hout, hrestores⟩
      | some sort =>
        obtain ⟨out, hout, hrestores⟩ := generateWithOverlay_restores change hbefore hafter happlies
        exact ⟨out, (if_neg (by simp [during, hsort])).trans hout, hrestores⟩
    exact ⟨shown, hshown, by rw [Shows, if_pos hlater]; exact ⟨hrestores, hrestores.eq⟩⟩
  · have hoverlay : (j.during change position).overlayFor parent = none := if_neg hlater
    exact ⟨_, by rw [Join.childStream, hoverlay, hstream], by rw [Shows, if_neg hlater]⟩

theorem Receives.fetch (h : j.Receives change parents before after) (position : Row) (req : FetchRequest) :
    ∃ nodes, (j.during change position).fetch req = .ok nodes ∧
      List.Forall₂ (fun n m => ∃ shown, m = n.setRelationship j.relationshipName shown ∧
        j.Shows change before after position n.row shown) (j.parent.fetch req) nodes := by
  refine List.mapM_ok_forall₂ fun n _ => ?_
  obtain ⟨shown, hshown, hshows⟩ := h.childStream position n.row
  refine ⟨n.setRelationship j.relationshipName shown, ?_, shown, rfl, hshows⟩
  rw [processParentNode, hshown]
  rfl

theorem Receives.fetch_idle (h : j.Receives change parents before after) (position : Option Row) (req : FetchRequest) :
    ∃ nodes, ({ j with
        inprogressChildChange := none
        inprogressChildChangePosition := position } : Join).fetch req = .ok nodes ∧
      List.Forall₂ (fun n m => m = n.setRelationship j.relationshipName (j.childrenOf after n.row))
        (j.parent.fetch req) nodes := by
  refine List.mapM_ok_forall₂ fun n _ => ⟨_, ?_, rfl⟩
  rw [← h.fetchChildren n.row]
  rfl

theorem Receives.fetchParents (h : j.Receives change parents before after) :
    (j.fetchParents change.node.row).map (·.row) =
      parents.filter fun p => isJoinMatch p j.parentKey change.node.row j.childKey := by
  have hmatch : ∀ parent, _ = isJoinMatch parent j.parentKey change.node.row j.childKey :=
    buildJoinConstraint_parent j.keys_length h.parentKey
  rw [Join.fetchParents]
  cases hc : buildJoinConstraint change.node.row j.childKey j.parentKey with
  | none =>
    simp only [hc, Option.any_none] at hmatch
    simp [← hmatch]
  | some constraint =>
    simp only [hc, Option.any_some] at hmatch
    rw [h.parents.constraint]
    exact List.filter_congr fun parent _ => hmatch parent

theorem Receives.turn (h : j.Receives change parents before after) (parentNode : Node) :
    (j.during change parentNode.row).processParentNode parentNode =
      .ok (parentNode.setRelationship j.relationshipName (j.childrenOf after parentNode.row)) := by
  obtain ⟨shown, hshown, hshows⟩ := h.childStream parentNode.row parentNode.row
  have htotal := h.total
  have hself : j.parent.schema.compareRows parentNode.row parentNode.row = .eq := Std.ReflCmp.compare_self
  rw [Shows, if_neg (by simp [hself])] at hshows
  rw [processParentNode, hshown, hshows]
  rfl

/-- `#pushChild` of a change that keeps the key goes through the parents. -/
theorem Receives.pushChild (h : j.Receives change parents before after) :
    j.pushChild change = .ok
      ((j.fetchParents change.node.row).map fun n =>
        (.child (n.setRelationship j.relationshipName (j.childrenOf after n.row)) j.relationshipName change,
          j.during change n.row),
      { j with
        inprogressChildChange := none
        inprogressChildChangePosition := (j.fetchParents change.node.row).getLast?.map (·.row) }) := by
  have hpush : j.pushChild change = j.pushChildChange change.node.row change := by
    cases change with
    | add _ | remove _ | child _ _ _ => rfl
    | edit node oldNode => exact if_pos (h.edit node oldNode rfl)
  have hturns : ((j.fetchParents change.node.row).mapM fun n => do
      return (Change.child (← (j.during change n.row).processParentNode n) j.relationshipName change,
        j.during change n.row)) = .ok _ :=
    List.mapM_ok fun n _ => by
      rw [h.turn n]
      exact rfl
  rw [hpush]
  show ((j.fetchParents change.node.row).mapM fun n => do
      return (Change.child (← (j.during change n.row).processParentNode n) j.relationshipName change,
        j.during change n.row)) >>= _ = _
  rw [hturns]
  rfl

end

/-- A row of an id; every row has the same owner. -/
def owned (id : String) : Row := fun column =>
  if column = "id" then .str id else if column = "owner" then .str "ann" else .undefined

def ownedSchema (sort : Option SortOrder) : SourceSchema where
  tableName := "owned"
  primaryKey := ["id"]
  sort := sort
  compareRows := makeComparator [("id", .asc)]

/-- The children are sorted, or not; they reflect the remove. -/
def owners (sort : Option SortOrder) : Join where
  parent := Input.ofRows (ownedSchema (some [("id", .asc)])) [owned "p1", owned "p2"]
  child := Input.ofRows (ownedSchema sort) [owned "a"]
  parentKey := ["owner"]
  childKey := ["owner"]
  relationshipName := "children"
  system := "client"
  keys_length := rfl

theorem receives_owned (sort : Option SortOrder) : (owners sort).Receives (.remove (.ofRow (owned "b")))
    [owned "p1", owned "p2"] [.ofRow (owned "a"), .ofRow (owned "b")] [.ofRow (owned "a")] := by
  have hparents : makeComparator [("id", .asc)] (owned "p1") (owned "p2") = .lt := by decide
  have hchildren : makeComparator [("id", .asc)] (owned "a") (owned "b") = .lt := by decide
  have htotal : Std.TransCmp (ownedSchema sort).compareRows := inferInstanceAs (Std.TransCmp (makeComparator _))
  refine
    { idle := rfl
      parentKey := List.nodup_singleton _
      childKey := List.nodup_singleton _
      total := inferInstanceAs (Std.TransCmp (makeComparator _))
      sorted := List.pairwise_pair.mpr hparents
      parents := fun req => Input.reflects_ofRows _ _ req
      children := Input.fetch_ofRows_constraint _ _
      listingBefore := ⟨htotal, List.pairwise_pair.mpr ?_, fun _ => List.pairwise_pair.mpr hchildren⟩
      listingAfter := ⟨htotal, List.pairwise_singleton .., fun _ => List.pairwise_singleton ..⟩
      applies := List.Perm.swap ..
      edit := fun _ _ h => by cases h
      unordered := fun _ => comparesKeys_of_primaryKey .asc rfl }
  have hchildren : byRow (ownedSchema sort).compareRows (.ofRow (owned "a")) (.ofRow (owned "b")) = .lt := hchildren
  exact fun h => by cases hchildren.symm.trans h

end Join

end ZeroSync
