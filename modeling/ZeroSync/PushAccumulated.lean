/-
`ivm/push-accumulated.ts`: the one change that the end of a fan-out/fan-in
sub-graph makes of the changes its branches passed on.
-/
import ZeroSync.Operator

namespace ZeroSync

/-- The assertions of `push-accumulated.ts`, `union-fan-in.ts` and `union-fan-out.ts`. -/
inductive UnionError
  /-- `Fan-in:child expected at most one … when fan-out is of type child` -/
  | childExpectedAtMostOne
  /-- `Fan-in:remove expected all removes` -/
  | removeExpectedAllRemoves
  /-- `Fan-in:add expected all adds` -/
  | addExpectedAllAdds
  /-- `Fan-in:edit expected all adds, removes, or edits` -/
  | editExpectedAddsRemovesEdits
  /-- `Fan-in:child expected all adds, removes, or children` -/
  | childExpectedAddsRemovesChildren
  /-- `Fan-in:child expected at most 2 types on a child change from fan-out` -/
  | childExpectedAtMostTwoTypes
  /-- `Fan-in:child expected either add or remove, not both` -/
  | childExpectedAddOrRemove
  /-- `mergeRelationships: when types differ, left.type must be edit` -/
  | leftMustBeEdit
  /-- `unreachable` -/
  | unreachable
  /-- `must` of a missing change. -/
  | missing
  /-- `UnionFanIn: expected add or remove change type` -/
  | expectedAddOrRemove
  /-- `Pusher was not one of the inputs to union-fan-in!` -/
  | pusherNotAnInput
  /-- `UnionFanIn: fanOutStartedPushing called while already pushing` -/
  | alreadyPushing
  /-- `UnionFanIn: fanOutDonePushing called without fanOutStartedPushing` -/
  | notPushing
  /-- `UnionFanIn requires sorted input` -/
  | requiresSortedInput
  /-- `Table name mismatch in union fan-in` -/
  | tableNameMismatch
  /-- `Primary key mismatch in union fan-in` -/
  | primaryKeyMismatch
  /-- `System mismatch in union fan-in` -/
  | systemMismatch
  /-- `Sort mismatch in union fan-in` -/
  | sortMismatch
  /-- `Relationship … exists in multiple upstream inputs to union fan-in` -/
  | relationshipInMultipleInputs
  deriving DecidableEq

/-- `{row: left.row, relationships: {...right.relationships, ...left.relationships}}`. -/
def mergeNodes (left right : Node) : Node :=
  .mk left.row (left.relationships.foldl (fun rels e => OrderedMap.setEntries e.1 e.2 rels) right.relationships)

/-- `mergeRelationships`. -/
def mergeRelationships : Change → Change → Except UnionError Change
  | .add left, .add right => .ok (.add (mergeNodes left right))
  | .remove left, .remove right => .ok (.remove (mergeNodes left right))
  | .edit left oldLeft, .edit right oldRight => .ok (.edit (mergeNodes left right) (mergeNodes oldLeft oldRight))
  | .child left name change, .child right _ _ => .ok (.child (mergeNodes left right) name change)
  | .edit left oldLeft, .add right => .ok (.edit (mergeNodes left right) oldLeft)
  | .edit left oldLeft, .remove right => .ok (.edit left (mergeNodes oldLeft right))
  | .edit _ _, .child _ _ _ => .error .unreachable
  | _, _ => .error .leftMustBeEdit

/-- `mergeEmpty`. -/
def mergeEmpty (names : List String) (node : Node) : Node :=
  .mk node.row (names.foldl
    (fun rels name => if (OrderedMap.lookup name rels).isNone then OrderedMap.setEntries name [] rels else rels)
    node.relationships)

/-- `makeAddEmptyRelationships`. -/
def addEmptyRelationships (schema : SourceSchema) (change : Change) : Change :=
  let names := schema.relationships.map (·.1)
  match change with
  | .add node => .add (mergeEmpty names node)
  | .remove node => .remove (mergeEmpty names node)
  | .edit node oldNode => .edit (mergeEmpty names node) (mergeEmpty names oldNode)
  | .child _ _ _ => change

/-- The first loop of `pushAccumulatedChanges`: the changes collapsed to one per type. -/
def collapse (fanOutChangeType : ChangeType) :
    OrderedMap ChangeType Change → List Change → Except UnionError (OrderedMap ChangeType Change)
  | candidates, [] => .ok candidates
  | candidates, change :: changes =>
    if fanOutChangeType = .child ∧ change.type ≠ .child ∧ candidates.contains change.type then
      .error .childExpectedAtMostOne
    else
      match candidates.get? change.type with
      | some existing => do
        let merged ← mergeRelationships existing change
        collapse fanOutChangeType (candidates.set change.type merged) changes
      | none => collapse fanOutChangeType (candidates.set change.type change) changes

/-- `pushAccumulatedChanges`: the change pushed, if any. -/
def pushAccumulatedChanges (accumulatedPushes : List Change) (fanOutChangeType : ChangeType) (schema : SourceSchema) :
    Except UnionError (Option Change) :=
  if accumulatedPushes.length = 0 then .ok none
  else do
    let candidatesToPush ← collapse fanOutChangeType ∅ accumulatedPushes
    let types := candidatesToPush.keys
    let must : Option Change → Except UnionError (Option Change)
      | some change => .ok (some (addEmptyRelationships schema change))
      | none => .error .missing
    let addChange := candidatesToPush.get? .add
    let removeChange := candidatesToPush.get? .remove
    match fanOutChangeType with
    | .remove => if types = [.remove] then must removeChange else .error .removeExpectedAllRemoves
    | .add => if types = [.add] then must addChange else .error .addExpectedAllAdds
    | .edit =>
      if !types.all fun type => type = .add || type = .remove || type = .edit then
        .error .editExpectedAddsRemovesEdits
      else
        match candidatesToPush.get? .edit with
        | some editChange => do
          -- An edit supersedes adds and removes: it represents both.
          let editChange ← match addChange with
            | some addChange => mergeRelationships editChange addChange
            | none => pure editChange
          let editChange ← match removeChange with
            | some removeChange => mergeRelationships editChange removeChange
            | none => pure editChange
          return some (addEmptyRelationships schema editChange)
        | none =>
          match addChange, removeChange with
          | some addChange, some removeChange =>
            .ok (some (addEmptyRelationships schema (.edit addChange.node removeChange.node)))
          | _, _ => must (addChange.or removeChange)
    | .child =>
      if !types.all fun type => type = .add || type = .remove || type = .child then
        .error .childExpectedAddsRemovesChildren
      else if ¬ types.length ≤ 2 then .error .childExpectedAtMostTwoTypes
      else
        match candidatesToPush.get? .child with
        | some childChange => .ok (some childChange)
        | none =>
          if addChange.isSome ∧ removeChange.isSome then .error .childExpectedAddOrRemove
          else must (addChange.or removeChange)

end ZeroSync
