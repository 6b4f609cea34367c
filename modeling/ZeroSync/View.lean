/-
`ivm/view-apply-change.ts`: the changes of a pipeline applied to the tree of
entries that a listener sees.

An entry is a row with a reference count and its relationships; the rows of a
table have the same columns, so spreading a row over an entry leaves that row.
Whether an object is copied or mutated in place is not seen in what is
returned, and is left out, with the ids.
-/
import ZeroSync.BinarySearch
import ZeroSync.Fallible
import ZeroSync.Operator

namespace ZeroSync

open BinarySearch Fallible

/-- `SourceSchema`, the parts `applyChange` reads. -/
structure ViewSchema where
  compareRows : Comparator
  isHidden : Bool := false
  relationships : List (String × ViewSchema) := []

/-- `Format`. -/
structure Format where
  singular : Bool := false
  relationships : List (String × Format) := []

mutual

/-- `MetaEntry`. -/
inductive Entry
  | mk (row : Row) (refCount : ℕ) (relations : List (String × Relation))

/-- The value of a relationship: an `EntryList`, or an `Entry` or `undefined`. -/
inductive Relation
  | plural (view : List Entry)
  | singular (entry : Option Entry)

end

/-- `ViewChange`. -/
inductive ViewChange
  | add (node : Node)
  | remove (node : Node)
  | child (row : Row) (relationshipName : String) (change : ViewChange)
  | edit (row oldRow : Row)

/-- The assertions of `applyChange`. -/
inductive ViewError
  /-- `Singular relationship … should not have multiple rows` -/
  | multipleRows
  /-- `node does not exist` -/
  | nodeDoesNotExist
  /-- `old node does not exist` -/
  | oldNodeDoesNotExist
  /-- `assertArray` of a relationship that is not a list. -/
  | notAnArray
  /-- `assertMetaEntry` of a relationship that is not an entry. -/
  | notAnEntry
  /-- `must` of the schema of a relationship. -/
  | noSchema
  deriving DecidableEq

namespace Entry

def row : Entry → Row
  | mk row _ _ => row

def refCount : Entry → ℕ
  | mk _ refCount _ => refCount

def relations : Entry → List (String × Relation)
  | mk _ _ relations => relations

/-- `setRefCount`. -/
def setRefCount (e : Entry) (count : ℕ) : Entry := mk e.row count e.relations

/-- `setRelation`. -/
def setRelation (e : Entry) (relationship : String) (value : Relation) : Entry :=
  mk e.row e.refCount (OrderedMap.setEntries relationship value e.relations)

/-- `applyEdit`. -/
def applyEdit (e : Entry) (row : Row) : Entry := mk row e.refCount e.relations

/-- `makeNewMetaEntry`. -/
def new (row : Row) : Entry := mk row 1 []

@[simp] theorem row_setRefCount (e : Entry) (count : ℕ) : (e.setRefCount count).row = e.row := rfl
@[simp] theorem refCount_setRefCount (e : Entry) (count : ℕ) : (e.setRefCount count).refCount = count := rfl
@[simp] theorem row_applyEdit (e : Entry) (row : Row) : (e.applyEdit row).row = row := rfl
@[simp] theorem refCount_applyEdit (e : Entry) (row : Row) : (e.applyEdit row).refCount = e.refCount := rfl
@[simp] theorem row_setRelation (e : Entry) (name : String) (value : Relation) : (e.setRelation name value).row = e.row := rfl
@[simp] theorem refCount_setRelation (e : Entry) (name : String) (value : Relation) :
    (e.setRelation name value).refCount = e.refCount := rfl
@[simp] theorem row_new (row : Row) : (new row).row = row := rfl
@[simp] theorem refCount_new (row : Row) : (new row).refCount = 1 := rfl

/-- `getChildEntryList`. -/
def getChildEntryList (e : Entry) (relationship : String) : Except ViewError (List Entry) :=
  match OrderedMap.lookup relationship e.relations with
  | some (.plural view) => .ok view
  | _ => .error .notAnArray

/-- `getOptionalSingularEntry`. -/
def getOptionalSingularEntry (e : Entry) (relationship : String) : Except ViewError (Option Entry) :=
  match OrderedMap.lookup relationship e.relations with
  | none => .ok none
  | some (.singular entry) => .ok entry
  | some (.plural _) => .error .notAnEntry

/-- `getSingularEntry`. -/
def getSingularEntry (e : Entry) (relationship : String) : Except ViewError Entry := do
  match ← e.getOptionalSingularEntry relationship with
  | some entry => .ok entry
  | none => .error .nodeDoesNotExist

end Entry

/-- `binarySearch`. -/
def binarySearch (view : List Entry) (target : Row) (comparator : Comparator) : Position :=
  search (fun low high => (low + (high - 1)) / 2)
    (fun i => match view[i]? with
      | some e => comparator e.row target
      | none => .gt)
    view.length 0 view.length

/-- `incRefCount` of the entry at a place. -/
def incRefCountAt (view : List Entry) (i : ℕ) : List Entry := view.modify i fun e => e.setRefCount (e.refCount + 1)

/-- `removeAndUpdateRefCount`. -/
def removeAndUpdateRefCount (view : List Entry) (row : Row) (compareRows : Comparator) :
    Except ViewError (List Entry) :=
  match binarySearch view row compareRows with
  | .missing _ => .error .nodeDoesNotExist
  | .found pos =>
    match view[pos]? with
    | none => .error .nodeDoesNotExist
    | some oldEntry =>
      if oldEntry.refCount = 1 then .ok (view.eraseIdx pos)
      else .ok (view.set pos (oldEntry.setRefCount (oldEntry.refCount - 1)))

/-- The plural `edit` case of `applyChangeInternal`. -/
def editInView (view : List Entry) (row oldRow : Row) (compareRows : Comparator) : Except ViewError (List Entry) :=
  if compareRows oldRow row ≠ .eq then
    match binarySearch view oldRow compareRows with
    | .missing _ => .error .oldNodeDoesNotExist
    | .found oldPos =>
      match view[oldPos]? with
      | none => .error .oldNodeDoesNotExist
      | some oldEntry =>
        let rawPos := binarySearch view row compareRows
        let pos := rawPos.index
        -- The row need not be moved, just edited.
        if oldEntry.refCount = 1 ∧ (pos = oldPos ∨ pos = oldPos + 1) then
          .ok (view.set oldPos (oldEntry.applyEdit row))
        else
          let newRefCount := oldEntry.refCount - 1
          let (newView, adjustedPos) :=
            if newRefCount = 0 then (view.eraseIdx oldPos, if oldPos < pos then pos - 1 else pos)
            else (view.set oldPos (oldEntry.setRefCount newRefCount), pos)
          if rawPos.isFound then
            -- Merge with the entry at the new place.
            .ok (newView.modify adjustedPos fun e => (e.applyEdit row).setRefCount (e.refCount + 1))
          else .ok (newView.insertIdx adjustedPos ((oldEntry.applyEdit row).setRefCount 1))
  else
    match binarySearch view oldRow compareRows with
    | .missing _ => .error .nodeDoesNotExist
    | .found pos => .ok (view.modify pos fun e => e.applyEdit row)

mutual

/-- The `add` case of `applyChangeInternal`. -/
def applyAdd (parentEntry : Entry) (schema : ViewSchema) (relationship : String) (format : Format) :
    Node → Except ViewError Entry
  | .mk row relationships =>
    if schema.isHidden then addHidden parentEntry schema format relationships
    else if format.singular then do
      match ← parentEntry.getOptionalSingularEntry relationship with
      | some oldEntry =>
        if schema.compareRows oldEntry.row row = .eq then
          return parentEntry.setRelation relationship
            (.singular (some (oldEntry.setRefCount (oldEntry.refCount + 1))))
        else .error .multipleRows
      | none =>
        let newEntry ← initializeRelationships (.new row) schema format.relationships relationships
        return parentEntry.setRelation relationship (.singular (some newEntry))
    else do
      let view ← parentEntry.getChildEntryList relationship
      match binarySearch view row schema.compareRows with
      | .found pos => return parentEntry.setRelation relationship (.plural (incRefCountAt view pos))
      | .missing pos =>
        let newEntry ← initializeRelationships (.new row) schema format.relationships relationships
        return parentEntry.setRelation relationship (.plural (view.insertIdx pos newEntry))

/-- The `add` of a hidden node: its children are added in its place, each
under the name it has at the hidden node. -/
def addHidden (currentParent : Entry) (schema : ViewSchema) (format : Format) :
    List (String × List Node) → Except ViewError Entry
  | [] => .ok currentParent
  | (relationship, nodes) :: relationships =>
    match OrderedMap.lookup relationship schema.relationships with
    | none => .error .noSchema
    | some childSchema => do
      let currentParent ← addNodes currentParent childSchema relationship format nodes
      addHidden currentParent schema format relationships

/-- Nodes added one after the other. -/
def addNodes (parentEntry : Entry) (schema : ViewSchema) (relationship : String) (format : Format) :
    List Node → Except ViewError Entry
  | [] => .ok parentEntry
  | node :: nodes => do
    let parentEntry ← applyAdd parentEntry schema relationship format node
    addNodes parentEntry schema relationship format nodes

/-- `initializeRelationshipsForNewEntryIfAny`. -/
def initializeRelationships (entry : Entry) (schema : ViewSchema) (childFormats : List (String × Format)) :
    List (String × List Node) → Except ViewError Entry
  | [] => .ok entry
  | (name, nodes) :: relationships =>
    match OrderedMap.lookup name schema.relationships with
    | none => .error .noSchema
    | some childSchema =>
      match OrderedMap.lookup name childFormats with
      | none => initializeRelationships entry schema childFormats relationships
      | some childFormat =>
        if childSchema.isHidden ∨ childFormat.singular then do
          let entry := entry.setRelation name (if childFormat.singular then .singular none else .plural [])
          let entry ← addNodes entry childSchema name childFormat nodes
          initializeRelationships entry schema childFormats relationships
        else do
          let childArray ← buildArray [] childSchema childFormat nodes
          initializeRelationships (entry.setRelation name (.plural childArray)) schema childFormats relationships

/-- The array of a plural relationship, built in place. -/
def buildArray (childArray : List Entry) (childSchema : ViewSchema) (childFormat : Format) :
    List Node → Except ViewError (List Entry)
  | [] => .ok childArray
  | .mk row relationships :: nodes =>
    match binarySearch childArray row childSchema.compareRows with
    | .found pos => buildArray (incRefCountAt childArray pos) childSchema childFormat nodes
    | .missing pos => do
      let newEntry ← initializeRelationships (.new row) childSchema childFormat.relationships relationships
      buildArray (childArray.insertIdx pos newEntry) childSchema childFormat nodes

end

mutual

/-- The `remove` case of `applyChangeInternal`. -/
def applyRemove (parentEntry : Entry) (schema : ViewSchema) (relationship : String) (format : Format) :
    Node → Except ViewError Entry
  | .mk row relationships =>
    if schema.isHidden then removeHidden parentEntry schema format relationships
    else if format.singular then do
      let oldEntry ← parentEntry.getSingularEntry relationship
      if oldEntry.refCount = 1 then return parentEntry.setRelation relationship (.singular none)
      else
        let newEntry := oldEntry.setRefCount (oldEntry.refCount - 1)
        return parentEntry.setRelation relationship (.singular (some newEntry))
    else do
      let view ← parentEntry.getChildEntryList relationship
      let newView ← removeAndUpdateRefCount view row schema.compareRows
      return parentEntry.setRelation relationship (.plural newView)

/-- The `remove` of a hidden node. -/
def removeHidden (currentParent : Entry) (schema : ViewSchema) (format : Format) :
    List (String × List Node) → Except ViewError Entry
  | [] => .ok currentParent
  | (relationship, nodes) :: relationships =>
    match OrderedMap.lookup relationship schema.relationships with
    | none => .error .noSchema
    | some childSchema => do
      let currentParent ← removeNodes currentParent childSchema relationship format nodes
      removeHidden currentParent schema format relationships

/-- Nodes removed one after the other. -/
def removeNodes (parentEntry : Entry) (schema : ViewSchema) (relationship : String) (format : Format) :
    List Node → Except ViewError Entry
  | [] => .ok parentEntry
  | node :: nodes => do
    let parentEntry ← applyRemove parentEntry schema relationship format node
    removeNodes parentEntry schema relationship format nodes

end

/-- `applyChangeInternal`. -/
def applyChange (parentEntry : Entry) (schema : ViewSchema) (relationship : String) (format : Format) :
    ViewChange → Except ViewError Entry
  | .add node => applyAdd parentEntry schema relationship format node
  | .remove node => applyRemove parentEntry schema relationship format node
  | .edit row oldRow =>
    -- Of a hidden row that was changed nothing is seen.
    if schema.isHidden then .ok parentEntry
    else if format.singular then do
      let existing ← parentEntry.getSingularEntry relationship
      return parentEntry.setRelation relationship (.singular (some (existing.applyEdit row)))
    else do
      let view ← parentEntry.getChildEntryList relationship
      return parentEntry.setRelation relationship (.plural (← editInView view row oldRow schema.compareRows))
  | .child row name change =>
    match OrderedMap.lookup name schema.relationships with
    | none => .error .noSchema
    | some childSchema =>
      if schema.isHidden then applyChange parentEntry childSchema relationship format change
      else
        match OrderedMap.lookup name format.relationships with
        | none => .ok parentEntry
        | some childFormat =>
          if format.singular then do
            let existing ← parentEntry.getSingularEntry relationship
            let newExisting ← applyChange existing childSchema name childFormat change
            return parentEntry.setRelation relationship (.singular (some newExisting))
          else do
            let view ← parentEntry.getChildEntryList relationship
            match binarySearch view row schema.compareRows with
            | .missing _ => .error .nodeDoesNotExist
            | .found pos =>
              match view[pos]? with
              | none => .error .nodeDoesNotExist
              | some existing => do
                let newExisting ← applyChange existing childSchema name childFormat change
                return parentEntry.setRelation relationship (.plural (view.set pos newExisting))

/-! ## The row and the count of the parent entry stay -/

/-- The entry differs in its relationships at most. -/
def Entry.SameRow (e e' : Entry) : Prop := e'.row = e.row ∧ e'.refCount = e.refCount

theorem Entry.SameRow.trans {e e' e'' : Entry} (h : e.SameRow e') (h' : e'.SameRow e'') : e.SameRow e'' :=
  ⟨h'.1.trans h.1, h'.2.trans h.2⟩

mutual

theorem applyAdd_sameRow : ∀ {node : Node} {parentEntry e : Entry} {schema : ViewSchema} {relationship : String}
    {format : Format}, applyAdd parentEntry schema relationship format node = .ok e → parentEntry.SameRow e
  | .mk row relationships, parentEntry, e, schema, relationship, format, h => by
    rw [applyAdd] at h
    split at h
    · exact addHidden_sameRow h
    · split at h
      · obtain ⟨oldEntry, -, h⟩ := bind_ok h
        split at h
        · split at h
          · cases h
            exact ⟨rfl, rfl⟩
          · cases h
        · obtain ⟨newEntry, -, h⟩ := bind_ok h
          cases h
          exact ⟨rfl, rfl⟩
      · obtain ⟨view, -, h⟩ := bind_ok h
        split at h
        · cases h
          exact ⟨rfl, rfl⟩
        · obtain ⟨newEntry, -, h⟩ := bind_ok h
          cases h
          exact ⟨rfl, rfl⟩

theorem addHidden_sameRow : ∀ {relationships : List (String × List Node)} {currentParent e : Entry}
    {schema : ViewSchema} {format : Format},
    addHidden currentParent schema format relationships = .ok e → currentParent.SameRow e
  | [], currentParent, e, schema, format, h => by
    cases h
    exact ⟨rfl, rfl⟩
  | (relationship, nodes) :: relationships, currentParent, e, schema, format, h => by
    rw [addHidden] at h
    split at h
    · cases h
    · obtain ⟨mid, hmid, h⟩ := bind_ok h
      exact (addNodes_sameRow hmid).trans (addHidden_sameRow h)

theorem addNodes_sameRow : ∀ {nodes : List Node} {parentEntry e : Entry} {schema : ViewSchema}
    {relationship : String} {format : Format},
    addNodes parentEntry schema relationship format nodes = .ok e → parentEntry.SameRow e
  | [], parentEntry, e, schema, relationship, format, h => by
    cases h
    exact ⟨rfl, rfl⟩
  | node :: nodes, parentEntry, e, schema, relationship, format, h => by
    rw [addNodes] at h
    obtain ⟨mid, hmid, h⟩ := bind_ok h
    exact (applyAdd_sameRow hmid).trans (addNodes_sameRow h)

end

theorem initializeRelationships_sameRow {relationships : List (String × List Node)} {entry e : Entry}
    {schema : ViewSchema} {childFormats : List (String × Format)}
    (h : initializeRelationships entry schema childFormats relationships = .ok e) : entry.SameRow e := by
  induction relationships generalizing entry with
  | nil =>
    cases h
    exact ⟨rfl, rfl⟩
  | cons rel relationships ih =>
    obtain ⟨name, nodes⟩ := rel
    rw [initializeRelationships] at h
    split at h
    · cases h
    · split at h
      · exact ih h
      · split at h
        · obtain ⟨mid, hmid, h⟩ := bind_ok h
          have hset (value : Relation) : entry.SameRow (entry.setRelation name value) := ⟨rfl, rfl⟩
          exact ((hset _).trans (addNodes_sameRow hmid)).trans (ih h)
        · obtain ⟨childArray, -, h⟩ := bind_ok h
          have hset (value : Relation) : entry.SameRow (entry.setRelation name value) := ⟨rfl, rfl⟩
          exact (hset _).trans (ih h)

end ZeroSync
