/-
`ivm/data.ts`, `change.ts`, `constraint.ts` and `operator.ts`: the nodes and
changes that flow between operators, and the requests a fetch answers.

A stream is the list it yields. The `'yield'` markers, which hand control
back to the scheduler, are left out: an operator passes each on and does
nothing else with it. A relationship is the list its stream function
yields when it is called at the moment the node is looked at.
-/
import ZeroSync.Data
import ZeroSync.Delta

namespace ZeroSync

/-- `Node`: a row and its relationships. -/
inductive Node
  | mk (row : Row) (relationships : List (String × List Node))

namespace Node

def row : Node → Row
  | mk r _ => r

def relationships : Node → List (String × List Node)
  | mk _ rels => rels

/-- `{row, relationships: {}}`. -/
def ofRow (r : Row) : Node := mk r []

/-- `node.relationships[name]()`; an absent relationship has no nodes. -/
def relationship (n : Node) (name : String) : List Node :=
  (OrderedMap.lookup name n.relationships).getD []

/-- `{...node, relationships: {...node.relationships, [name]: () => nodes}}`. -/
def setRelationship (n : Node) (name : String) (nodes : List Node) : Node :=
  mk n.row (OrderedMap.setEntries name nodes n.relationships)

@[simp] theorem row_mk (r : Row) (rels) : (mk r rels).row = r := rfl
@[simp] theorem relationships_mk (r : Row) (rels) : (mk r rels).relationships = rels := rfl
@[simp] theorem row_ofRow (r : Row) : (ofRow r).row = r := rfl

@[simp] theorem row_setRelationship (n : Node) (name : String) (nodes : List Node) :
    (n.setRelationship name nodes).row = n.row := rfl

@[simp] theorem relationship_setRelationship_self (n : Node) (name : String) (nodes : List Node) :
    (n.setRelationship name nodes).relationship name = nodes := by
  simp [relationship, setRelationship, OrderedMap.lookup_setEntries]

@[simp] theorem lookup_setRelationship_self (n : Node) (name : String) (nodes : List Node) :
    OrderedMap.lookup name (n.setRelationship name nodes).relationships = some nodes := by
  simp [setRelationship, OrderedMap.lookup_setEntries]

@[simp] theorem setRelationship_setRelationship (n : Node) (name : String) (nodes nodes' : List Node) :
    (n.setRelationship name nodes).setRelationship name nodes' = n.setRelationship name nodes' := by
  simp [setRelationship, OrderedMap.setEntries_setEntries]

theorem setRelationship_self {n : Node} {name : String} {nodes : List Node}
    (h : OrderedMap.lookup name n.relationships = some nodes) : n.setRelationship name nodes = n := by
  cases n with
  | mk row rels => rw [setRelationship, OrderedMap.setEntries_lookup h]; rfl

end Node

/-- `ChangeType`. -/
inductive ChangeType
  | add
  | remove
  | child
  | edit
  deriving DecidableEq

/-- `Change`. A child change carries its `ChildData` as two fields. -/
inductive Change
  | add (node : Node)
  | remove (node : Node)
  | child (node : Node) (relationshipName : String) (change : Change)
  | edit (node oldNode : Node)

namespace Change

/-- `change[ChangeIndex.TYPE]`. -/
def type : Change → ChangeType
  | add _ => .add
  | remove _ => .remove
  | child _ _ _ => .child
  | edit _ _ => .edit

/-- `change[ChangeIndex.NODE]`. -/
def node : Change → Node
  | add n | remove n | child n _ _ | edit n _ => n

end Change

/-- `Constraint`. -/
abbrev Constraint := OrderedMap String Value

/-- `MultiConstraint`. -/
abbrev MultiConstraint := List Constraint

/-- `constraintMatchesRow`. -/
def constraintMatchesRow (constraint : Constraint) (row : Row) : Bool :=
  constraint.entries.all fun e => valuesEqual (row e.1) e.2

/-- `constraintsAreCompatible`. -/
def constraintsAreCompatible (left right : Constraint) : Bool :=
  left.entries.all fun e =>
    match right.get? e.1 with
    | none => true
    | some v => valuesEqual e.2 v

/-- `'at' | 'after'`. -/
inductive Basis
  | at
  | after
  deriving DecidableEq

/-- `Start`. -/
structure Start where
  row : Row
  basis : Basis

/-- `FetchRequest`. -/
structure FetchRequest where
  constraint : Option Constraint := none
  multiConstraints : List MultiConstraint := []
  start : Option Start := none
  reverse : Bool := false

/-- `SourceSchema`, the parts the operators read. -/
structure SourceSchema where
  tableName : String
  primaryKey : List String
  sort : Option SortOrder
  compareRows : Comparator
  system : String := "client"
  relationships : List (String × SourceSchema) := []

/-- `Input`, at one moment: its schema and what its `fetch` returns. -/
structure Input where
  schema : SourceSchema
  fetch : FetchRequest → List Node

/-- What a change does to the rows, its relationships left aside. -/
def Change.delta : Change → Delta Row
  | .add n => .add n.row
  | .remove n => .remove n.row
  | .child n _ _ => .touch n.row
  | .edit n o => .edit n.row o.row

/-! ## What a fetch is asked for -/

/-- The comparator of the order a fetch returns its rows in. -/
def directed (compareRows : Comparator) (reverse : Bool) : Comparator :=
  if reverse then fun a b => compareRows b a else compareRows

instance (compareRows : Comparator) (reverse : Bool) [Std.TransCmp compareRows] :
    Std.TransCmp (directed compareRows reverse) := by
  cases reverse
  · exact inferInstanceAs (Std.TransCmp compareRows)
  · exact inferInstanceAs (Std.TransCmp fun a b => compareRows b a)

/-- The order of nodes by their rows. -/
def byRow (compareRows : Comparator) (a b : Node) : Ordering := compareRows a.row b.row

instance (compareRows : Comparator) [Std.TransCmp compareRows] : Std.TransCmp (byRow compareRows) where
  eq_swap {a b} := by
    have h : compareRows a.row b.row = (compareRows b.row a.row).swap := Std.OrientedCmp.eq_swap
    exact h
  isLE_trans {a b c} hab hbc := by
    have hab : (compareRows a.row b.row).isLE := hab
    have h : (compareRows a.row c.row).isLE := Std.TransCmp.isLE_trans hab hbc
    exact h

/-- The row lies at or after, or strictly after, the start. -/
def Start.admits (compare : Comparator) (start : Start) (row : Row) : Bool :=
  match start.basis with
  | .at => (compare row start.row).isGE
  | .after => compare row start.row = .gt

/-- The row satisfies the request's constraint and every multi-constraint. -/
def FetchRequest.matches (req : FetchRequest) (row : Row) : Bool :=
  req.constraint.all (constraintMatchesRow · row) &&
    req.multiConstraints.all fun mc => mc.any (constraintMatchesRow · row)

/-- The row is one the request asks for. -/
def FetchRequest.admits (compareRows : Comparator) (req : FetchRequest) (row : Row) : Bool :=
  req.matches row && req.start.all (·.admits (directed compareRows req.reverse) row)

/-- A list in the direction of the request. -/
def FetchRequest.order {α} (req : FetchRequest) (l : List α) : List α :=
  if req.reverse then l.reverse else l

/-- The input answers every request with the rows it asks for, in order. -/
def Input.Reflects (input : Input) (compareRows : Comparator) (rows : List Row) : Prop :=
  ∀ req, (input.fetch req).map (·.row) = (req.order rows).filter (req.admits compareRows)

theorem Input.Reflects.constraint {input : Input} {compareRows : Comparator} {rows : List Row}
    (h : input.Reflects compareRows rows) (constraint : Constraint) :
    (input.fetch { constraint := some constraint }).map (·.row) = rows.filter (constraintMatchesRow constraint) := by
  rw [h]
  exact List.filter_congr fun row _ => by simp [FetchRequest.admits, FetchRequest.matches]

/-- An input of plain rows. -/
def Input.ofRows (schema : SourceSchema) (rows : List Row) : Input where
  schema := schema
  fetch req := ((req.order rows).filter (req.admits schema.compareRows)).map .ofRow

theorem Input.reflects_ofRows (schema : SourceSchema) (rows : List Row) :
    (Input.ofRows schema rows).Reflects schema.compareRows rows := fun req => by
  simp [Input.ofRows, Function.comp_def]

theorem Input.fetch_ofRows_constraint (schema : SourceSchema) (rows : List Row) (constraint : Constraint) :
    (Input.ofRows schema rows).fetch { constraint := some constraint } =
      (rows.map .ofRow).filter fun n => constraintMatchesRow constraint n.row := by
  rw [List.filter_map]
  refine congrArg (List.map Node.ofRow) (List.filter_congr fun row _ => ?_)
  simp [FetchRequest.admits, FetchRequest.matches]

end ZeroSync
