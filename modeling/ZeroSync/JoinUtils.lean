/-
`ivm/join-utils.ts`: the overlays that turn the children after a change back
into those before it, and the keys of a join.

An overlay runs over the stream of children to its end and returns what it
yielded, or the assertion that failed. The relationship of a child that a
nested change is about is overlaid there and then.
-/
import ZeroSync.Operator

namespace ZeroSync

/-- The assertions of the overlays and the joins. -/
inductive JoinError
  /-- `edit overlay: new node must be applied before old node` -/
  | newBeforeOld
  /-- `overlayGenerator: overlay was never applied to any fetched node` -/
  | neverApplied
  /-- A `TypeError`: the node or its schema has no such relationship. -/
  | noRelationship
  /-- `Parent edit must not change relationship.` -/
  | parentEditChangesRelationship
  /-- `Child edit must not change relationship.` -/
  | childEditChangesRelationship
  deriving DecidableEq

/-- The variables of the loop of `generateWithOverlay`. -/
structure OverlayState where
  applied : Bool := false
  editOldApplied : Bool := false
  editNewApplied : Bool := false

/-- `{row, relationships: {...relationships, [name]: () => generate(...)}}`, the
node of a nested change. -/
def overlayRelationship (generate : List Node → SourceSchema → Except JoinError (List Node)) (name : String)
    (schema : SourceSchema) (node : Node) : Except JoinError Node :=
  match OrderedMap.lookup name node.relationships, OrderedMap.lookup name schema.relationships with
  | some nodes, some nested => do return node.setRelationship name (← generate nodes nested)
  | _, _ => .error .noRelationship

section
variable (overlay : Change) (overlayChild : Node → Except JoinError Node)

/-- The body of the loop of `generateWithOverlay`. -/
def overlayNode (compareRows : Comparator) (s : OverlayState) (node : Node) :
    Except JoinError (List Node × OverlayState) :=
  if s.applied then .ok ([node], s)
  else
    match overlay with
    | .add new =>
      if compareRows new.row node.row = .eq then .ok ([], { s with applied := true })
      else .ok ([node], s)
    | .remove old =>
      if compareRows old.row node.row = .lt then .ok ([old, node], { s with applied := true })
      else .ok ([node], s)
    | .edit new old =>
      let isOld := !s.editOldApplied && decide (compareRows old.row node.row = .lt)
      let s := if isOld then { s with editOldApplied := true, applied := s.editNewApplied } else s
      let isNew := !s.editNewApplied && decide (compareRows new.row node.row = .eq)
      let s := if isNew then { s with editNewApplied := true, applied := s.editOldApplied } else s
      .ok ((if isOld then [old] else []) ++ (if isNew then [] else [node]), s)
    | .child new _ _ =>
      if compareRows new.row node.row = .eq then do
        let node ← overlayChild node
        return ([node], { s with applied := true })
      else .ok ([node], s)

/-- The loop of `generateWithOverlay`, and what follows it. -/
def overlayLoop (compareRows : Comparator) : OverlayState → List Node → Except JoinError (List Node)
  | s, [] =>
    if s.applied then .ok []
    else
      match overlay with
      | .remove old => .ok [old]
      | .edit _ old => if s.editNewApplied then .ok [old] else .error .newBeforeOld
      | .add _ | .child _ _ _ => .error .neverApplied
  | s, node :: stream => do
    let (yielded, s) ← overlayNode overlay overlayChild compareRows s node
    return yielded ++ (← overlayLoop compareRows s stream)

end

/-- `generateWithOverlay`. -/
def generateWithOverlay : List Node → Change → SourceSchema → Except JoinError (List Node)
  | stream, .child new name change, schema =>
    overlayLoop (.child new name change)
      (overlayRelationship (fun nodes nested => generateWithOverlay nodes change nested) name schema)
      schema.compareRows {} stream
  | stream, overlay, schema => overlayLoop overlay pure schema.compareRows {} stream

/-- `rowEqualsForCompoundKey`. -/
def rowEqualsForCompoundKey (a b : Row) (key : List String) : Bool :=
  key.all fun k => compareValues (a k) (b k) = .eq

/-- The loop of `generateWithOverlayUnordered` until it has suppressed a node, and its assertion. -/
def unorderedLoop (overlay : Change) (overlayChild : Node → Except JoinError Node) (primaryKey : List String) :
    List Node → Except JoinError (List Node)
  | [] => if overlay.type = .remove then .ok [] else .error .neverApplied
  | node :: stream =>
    match overlay with
    | .add new | .edit new _ =>
      if rowEqualsForCompoundKey new.row node.row primaryKey then .ok stream
      else do return node :: (← unorderedLoop overlay overlayChild primaryKey stream)
    | .child new _ _ =>
      if rowEqualsForCompoundKey new.row node.row primaryKey then do return (← overlayChild node) :: stream
      else do return node :: (← unorderedLoop overlay overlayChild primaryKey stream)
    | .remove _ => do return node :: (← unorderedLoop overlay overlayChild primaryKey stream)

/-- `generateWithOverlayUnordered`. -/
def generateWithOverlayUnordered (stream : List Node) (overlay : Change) (schema : SourceSchema) :
    Except JoinError (List Node) :=
  match overlay with
  | .add _ => unorderedLoop overlay pure schema.primaryKey stream
  -- The removed row, or the old one of an edit, is yielded first.
  | .remove old | .edit _ old => do return old :: (← unorderedLoop overlay pure schema.primaryKey stream)
  | .child _ name change =>
    unorderedLoop overlay
      (overlayRelationship (fun nodes nested => generateWithOverlay nodes change nested) name schema)
      schema.primaryKey stream

/-- `isJoinMatch`. -/
def isJoinMatch (parent : Row) (parentKey : List String) (child : Row) (childKey : List String) : Bool :=
  (parentKey.zip childKey).all fun k => valuesEqual (parent k.1) (child k.2)

/-- `buildJoinConstraint`: `none` if a value of the source is `null`. -/
def buildJoinConstraint (sourceRow : Row) (sourceKey targetKey : List String) : Option Constraint :=
  if (sourceKey.zip targetKey).any fun k => sourceRow k.1 = .null then none
  else some (OrderedMap.ofList ((sourceKey.zip targetKey).map fun k => (k.2, sourceRow k.1)))

end ZeroSync
