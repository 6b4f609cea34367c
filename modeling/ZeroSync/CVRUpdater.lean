/-
`view-syncer/cvr.ts` and `view-syncer.ts`: the CVRQueryDrivenUpdater, which
turns the rows received from queries into row records for the CVR store and
patches for the clients, and `#processChanges`, which feeds it in batches.

A `RowID` is taken up to `rowIDString`, by which every map of rows is keyed;
`ρ` is the type of them, `κ` that of row contents.
-/
import ZeroSync.CVRVersion
import ZeroSync.OrderedMap

namespace ZeroSync

/-- `refCounts`: query hash to count. -/
abbrev RefCounts := OrderedMap String ℤ

/-- `RowRecord`; `refCounts` is `none` for a tombstone. -/
structure RowRecord (ρ : Type) where
  id : ρ
  rowVersion : String
  patchVersion : CVRVersion
  refCounts : Option RefCounts

/-- `RowUpdate`. -/
structure RowUpdate (κ : Type) where
  version : Option String := none
  contents : Option κ := none
  refCounts : RefCounts

/-- `RowPatchInfo`; `rowVersion` is `none` for a row-del. -/
structure RowPatchInfo where
  rowVersion : Option String
  toVersion : CVRVersion

/-- `Patch`. -/
inductive Patch (ρ κ : Type)
  | rowPut (id : ρ) (contents : κ)
  | rowDel (id : ρ)
  | queryPut (id : String)
  | queryDel (id : String)

/-- `PatchToVersion`. -/
structure PatchToVersion (ρ κ : Type) where
  patch : Patch ρ κ
  toVersion : CVRVersion

/-- `QueryRecord`, the fields an updater reads or writes. -/
structure QueryRecord where
  id : String
  internal : Bool
  transformationHash : Option String := none
  transformationVersion : Option CVRVersion := none
  patchVersion : Option CVRVersion := none

/-- The assertions of the updater, and the property reads of an absent query record. -/
inductive UpdaterError
  /-- `Cannot sync from an older replicaVersion` -/
  | olderReplicaVersion
  /-- `stateVersion must be >= cvr.version.stateVersion` -/
  | olderStateVersion
  /-- `Expected new version to be greater than current version` -/
  | expectedGreaterVersion
  /-- `trackQueries already called` -/
  | trackQueriesAlreadyCalled
  /-- `Query already tracked as executed or removed` -/
  | alreadyTracked
  /-- A `TypeError`: the CVR has no such query. -/
  | noSuchQuery
  /-- `Query ID is reserved for internal use` -/
  | reservedForInternalUse
  /-- `Expected CVR version to have been bumped above original` -/
  | expectedBumpedVersion
  /-- `rowVersion is required when contents is present` -/
  | rowVersionRequired
  /-- `Expected no received rows for query-less update` -/
  | expectedNoReceivedRows
  /-- `trackQueries() was not called` -/
  | trackQueriesNotCalled
  /-- `allRowRecords should not include null refCounts` -/
  | nullRefCounts
  /-- `Must have queries to add or remove` -/
  | mustHaveQueries
  deriving DecidableEq

/-- The parts of a CVR an updater reads. -/
structure CVRSnapshot where
  version : CVRVersion
  replicaVersion : Option String
  queries : OrderedMap String QueryRecord

/-- A CVRQueryDrivenUpdater with the part of its CVR store it writes: the row
records of the CVR and `#pendingRowRecordUpdates`, where `none` cancels. -/
structure CVRQueryDrivenUpdater (ρ : Type) [DecidableEq ρ] where
  orig : CVRSnapshot
  cvr : CVRSnapshot
  rowRecords : OrderedMap ρ (RowRecord ρ)
  pendingRowRecordUpdates : OrderedMap ρ (Option (RowRecord ρ)) := ∅
  removedOrExecutedQueryIDs : List String := []
  receivedRows : OrderedMap ρ (Option RefCounts) := ∅
  lastPatches : OrderedMap ρ RowPatchInfo := ∅
  existingRows : Option (Except UpdaterError (List (RowRecord ρ))) := none

/-- `oneAfter`, of a version. -/
def oneAfter (v : CVRVersion) : CVRVersion :=
  { stateVersion := v.stateVersion, configVersion := some (v.configVersion.getD 0 + 1) }

/-- `merged[hash] = (merged[hash] ?? 0) + count`, with a count of zero deleted. -/
def addRefCount (merged : RefCounts) (hash : String) (count : ℤ) : RefCounts :=
  let sum := (merged.get? hash).getD 0 + count
  if sum = 0 then merged.erase hash else merged.set hash sum

/-- `mergeRefCounts`. -/
def mergeRefCounts (existing received : Option RefCounts) (removeHashes : List String := []) : Option RefCounts :=
  let merged := match existing with
    | none => received.getD ∅
    | some existing =>
      let kept := existing.entries.filter fun e => e.1 ∉ removeHashes
      (kept ++ (received.getD ∅).entries).foldl (fun merged e => addRefCount merged e.1 e.2) ∅
  if merged.values.any (0 < ·) then some merged else none

namespace CVRQueryDrivenUpdater

variable {ρ κ : Type} [DecidableEq ρ]

/-- `_setVersion`. -/
def setVersion (u : CVRQueryDrivenUpdater ρ) (version : CVRVersion) : Except UpdaterError (CVRQueryDrivenUpdater ρ) :=
  if cmpVersions u.cvr.version version < 0 then .ok { u with cvr := { u.cvr with version } }
  else .error .expectedGreaterVersion

/-- `_ensureNewVersion`. -/
def ensureNewVersion (u : CVRQueryDrivenUpdater ρ) : Except UpdaterError (CVRQueryDrivenUpdater ρ) :=
  if cmpVersions u.orig.version u.cvr.version = 0 then u.setVersion (oneAfter u.cvr.version) else .ok u

/-- The constructor. -/
def new (rowRecords : OrderedMap ρ (RowRecord ρ)) (cvr : CVRSnapshot) (stateVersion replicaVersion : String) :
    Except UpdaterError (CVRQueryDrivenUpdater ρ) :=
  let u := { orig := cvr, cvr := { cvr with replicaVersion := some replicaVersion }, rowRecords }
  if replicaVersion < cvr.replicaVersion.getD replicaVersion then .error .olderReplicaVersion
  else if stateVersion < cvr.version.stateVersion then .error .olderStateVersion
  else if cvr.version.stateVersion < stateVersion then u.setVersion { stateVersion }
  else .ok u

/-! ## `trackQueries` -/

/-- `#trackExecuted`. -/
def trackExecuted (u : CVRQueryDrivenUpdater ρ) (queryID transformationHash : String) :
    Except UpdaterError (List (Patch ρ κ) × CVRQueryDrivenUpdater ρ) :=
  if queryID ∈ u.removedOrExecutedQueryIDs then .error .alreadyTracked
  else
    let u := { u with removedOrExecutedQueryIDs := u.removedOrExecutedQueryIDs ++ [queryID] }
    match u.cvr.queries.get? queryID with
    | none => .error .noSuchQuery
    | some query =>
      if query.transformationHash = some transformationHash then .ok ([], u)
      else do
        let u ← u.ensureNewVersion
        let transformationVersion := u.cvr.version
        let gotten := !query.internal && query.patchVersion.isNone
        let query := { query with
          patchVersion := if gotten then some transformationVersion else query.patchVersion
          transformationHash := some transformationHash
          transformationVersion := some transformationVersion }
        return (if gotten then [.queryPut query.id] else [],
          { u with cvr := { u.cvr with queries := u.cvr.queries.set queryID query } })

/-- `#trackRemoved`. -/
def trackRemoved (u : CVRQueryDrivenUpdater ρ) (queryID : String) :
    Except UpdaterError (List (Patch ρ κ) × CVRQueryDrivenUpdater ρ) :=
  match u.cvr.queries.get? queryID with
  | none => .error .noSuchQuery
  | some query =>
    if query.internal then .error .reservedForInternalUse
    else if queryID ∈ u.removedOrExecutedQueryIDs then .error .alreadyTracked
    else do
      let u := { u with
        removedOrExecutedQueryIDs := u.removedOrExecutedQueryIDs ++ [queryID]
        cvr := { u.cvr with queries := u.cvr.queries.erase queryID } }
      let u ← u.ensureNewVersion
      return ([.queryDel queryID], u)

/-- `#lookupRowsForExecutedAndRemovedQueries`: the rows with a reference by one of those queries. -/
def lookupRowsForExecutedAndRemovedQueries (u : CVRQueryDrivenUpdater ρ) : Except UpdaterError (List (RowRecord ρ)) :=
  if u.removedOrExecutedQueryIDs.length = 0 then .ok []
  else if u.rowRecords.values.any (·.refCounts.isNone) then .error .nullRefCounts
  else
    let found := u.rowRecords.values.filter fun existing =>
      existing.refCounts.any fun refCounts => refCounts.keys.any (· ∈ u.removedOrExecutedQueryIDs)
    .ok (OrderedMap.ofList (found.map fun existing => (existing.id, existing))).values

/-- `#trackExecuted` or `#trackRemoved` of each query of a list. -/
def trackAll {α : Type} (track : CVRQueryDrivenUpdater ρ → α → Except UpdaterError (List (Patch ρ κ) × CVRQueryDrivenUpdater ρ)) :
    CVRQueryDrivenUpdater ρ → List α → Except UpdaterError (List (Patch ρ κ) × CVRQueryDrivenUpdater ρ)
  | u, [] => .ok ([], u)
  | u, q :: qs => do
    let (patches, u) ← track u q
    let (rest, u) ← trackAll track u qs
    return (patches ++ rest, u)

/-- `trackQueries`; the new version is that of the updater returned. -/
def trackQueries (u : CVRQueryDrivenUpdater ρ) (executed : List (String × String)) (removed : List String) :
    Except UpdaterError (List (PatchToVersion ρ κ) × CVRQueryDrivenUpdater ρ) :=
  if u.existingRows.isSome then .error .trackQueriesAlreadyCalled
  else do
    let (executedPatches, u) ← trackAll (fun u q => u.trackExecuted q.1 q.2) u executed
    let (removedPatches, u) ← trackAll (fun u id => u.trackRemoved id) u removed
    return ((executedPatches ++ removedPatches).map fun patch => { patch, toVersion := u.cvr.version },
      { u with existingRows := some u.lookupRowsForExecutedAndRemovedQueries })

/-- The start of `#addAndRemoveQueries`, up to the poke: a new updater that
tracks the queries. -/
def addAndRemoveQueries (rowRecords : OrderedMap ρ (RowRecord ρ)) (cvr : CVRSnapshot)
    (stateVersion replicaVersion : String) (addQueries : List (String × String)) (removeQueries : List String) :
    Except UpdaterError (List (PatchToVersion ρ κ) × CVRQueryDrivenUpdater ρ) :=
  if addQueries.length = 0 ∧ removeQueries.length = 0 then .error .mustHaveQueries
  else do
    let u ← new rowRecords cvr stateVersion replicaVersion
    let sameHash := fun q : String × String => (cvr.queries.get? q.1).bind (·.transformationHash) = some q.2
    let sameHashRehydrated := addQueries.any sameHash
    let trackQueriesWillBumpVersion := decide (cvr.version.stateVersion < stateVersion) ||
      decide (0 < removeQueries.length) || addQueries.any fun q => !sameHash q
    let u ← if sameHashRehydrated && !trackQueriesWillBumpVersion then u.ensureNewVersion else pure u
    u.trackQueries addQueries removeQueries

/-! ## `received` -/

/-- `#assertNewVersion`. -/
def assertNewVersion (u : CVRQueryDrivenUpdater ρ) : Except UpdaterError CVRVersion :=
  if cmpVersions u.orig.version u.cvr.version < 0 then .ok u.cvr.version else .error .expectedBumpedVersion

/-- `merged`, in the loop of `received`. -/
def merged (removeHashes : List String) (existing : Option (RowRecord ρ))
    (previouslyReceived : Option (Option RefCounts)) (refCounts : RefCounts) : Option RefCounts :=
  match previouslyReceived with
  | some previouslyReceived => mergeRefCounts previouslyReceived (some refCounts)
  | none => mergeRefCounts (existing.bind (·.refCounts)) (some refCounts) removeHashes

/-- `patchVersion`, in the loop of `received`. -/
def rowPatchVersion (u : CVRQueryDrivenUpdater ρ) (existing : Option (RowRecord ρ)) (newRowVersion : Option String) :
    Except UpdaterError CVRVersion :=
  match existing with
  | some existing =>
    -- An existing row is unchanged.
    if some existing.rowVersion = newRowVersion then .ok existing.patchVersion else u.assertNewVersion
  | none => u.assertNewVersion

/-- The record the loop of `received` puts; `none` where it cancels the put of
a row that is not in the CVR. -/
def rowRecord (id : ρ) (existing : Option (RowRecord ρ)) (version : Option String) (patchVersion : CVRVersion)
    (refCounts : Option RefCounts) : Option (RowRecord ρ) :=
  match version.or (existing.map (·.rowVersion)) with
  | some rowVersion => if rowVersion = "" then none else some { id, rowVersion, patchVersion, refCounts }
  | none => none

/-- The patch the loop of `received` sends, if any, with what it leaves in `#lastPatches`. -/
def rowPatch (id : ρ) (existing : Option (RowRecord ρ)) (previouslyReceived : Option (Option RefCounts))
    (lastPatch : Option RowPatchInfo) (contents : Option κ) (patchVersion : CVRVersion) (merged : Option RefCounts)
    (record : Option (RowRecord ρ)) : Except UpdaterError (Option (PatchToVersion ρ κ × RowPatchInfo)) :=
  let toVersion := maxVersion patchVersion (lastPatch.map (·.toVersion))
  match merged, contents, record with
  | none, _, _ =>
    if (existing.isSome || previouslyReceived.any (·.isSome)) && !lastPatch.any (·.rowVersion.isNone) then
      .ok (some ({ patch := .rowDel id, toVersion }, { rowVersion := none, toVersion }))
    else .ok none
  | some _, none, _ => .ok none
  | some _, some _, none => .error .rowVersionRequired
  | some _, some contents, some { rowVersion, .. } =>
    let sent := (lastPatch.bind (·.rowVersion)).getD ""
    if sent = "" ∨ sent < rowVersion then
      .ok (some ({ patch := .rowPut id contents, toVersion }, { rowVersion := some rowVersion, toVersion }))
    else .ok none

/-- The body of the loop of `received`. -/
def receivedRow (u : CVRQueryDrivenUpdater ρ) (id : ρ) (update : RowUpdate κ) :
    Except UpdaterError (List (PatchToVersion ρ κ) × CVRQueryDrivenUpdater ρ) := do
  let existing := u.rowRecords.get? id
  let previouslyReceived := u.receivedRows.get? id
  let lastPatch := u.lastPatches.get? id
  let merged := merged u.removedOrExecutedQueryIDs existing previouslyReceived update.refCounts
  let patchVersion ← u.rowPatchVersion existing (if merged.isNone then none else update.version)
  let record := rowRecord id existing update.version patchVersion merged
  let patch ← rowPatch id existing previouslyReceived lastPatch update.contents patchVersion merged record
  return (patch.toList.map (·.1), { u with
    receivedRows := u.receivedRows.set id merged
    pendingRowRecordUpdates := u.pendingRowRecordUpdates.set id record
    lastPatches := patch.elim u.lastPatches fun sent => u.lastPatches.set id sent.2 })

/-- `received`, over the entries of the map. -/
def received (u : CVRQueryDrivenUpdater ρ) :
    List (ρ × RowUpdate κ) → Except UpdaterError (List (PatchToVersion ρ κ) × CVRQueryDrivenUpdater ρ)
  | [] => .ok ([], u)
  | (id, update) :: rows => do
    let (patches, u) ← u.receivedRow id update
    let (rest, u) ← received u rows
    return (patches ++ rest, u)

/-! ## `deleteUnreferencedRows` -/

/-- `#deleteUnreferencedRow`. -/
def deleteUnreferencedRow (u : CVRQueryDrivenUpdater ρ) (existing : RowRecord ρ) :
    Except UpdaterError (Option ρ × CVRQueryDrivenUpdater ρ) :=
  match u.receivedRows.get? existing.id with
  | some (some _) => .ok (none, u)
  | _ => do
    let newRefCounts := mergeRefCounts existing.refCounts none u.removedOrExecutedQueryIDs
    let patchVersion ← if newRefCounts.isSome then pure existing.patchVersion else u.assertNewVersion
    let rowRecord := { existing with patchVersion, refCounts := newRefCounts }
    return (if newRefCounts.isSome then none else some existing.id,
      { u with pendingRowRecordUpdates := u.pendingRowRecordUpdates.set existing.id (some rowRecord) })

/-- The loop of `deleteUnreferencedRows`. -/
def deleteUnreferencedRowsLoop (u : CVRQueryDrivenUpdater ρ) :
    List (RowRecord ρ) → Except UpdaterError (List (PatchToVersion ρ κ) × CVRQueryDrivenUpdater ρ)
  | [] => .ok ([], u)
  | existing :: rows => do
    let (deletedID, u) ← u.deleteUnreferencedRow existing
    match deletedID with
    | none => deleteUnreferencedRowsLoop u rows
    | some id =>
      let lastPatch := u.lastPatches.get? id
      if lastPatch.any (·.rowVersion.isNone) then deleteUnreferencedRowsLoop u rows
      else
        let toVersion := maxVersion u.cvr.version (lastPatch.map (·.toVersion))
        let u := { u with lastPatches := u.lastPatches.set id { rowVersion := none, toVersion } }
        let (rest, u) ← deleteUnreferencedRowsLoop u rows
        return ({ patch := .rowDel id, toVersion } :: rest, u)

/-- `deleteUnreferencedRows`. -/
def deleteUnreferencedRows (u : CVRQueryDrivenUpdater ρ) :
    Except UpdaterError (List (PatchToVersion ρ κ) × CVRQueryDrivenUpdater ρ) :=
  if u.removedOrExecutedQueryIDs.length = 0 then
    if u.receivedRows.entries.length = 0 then .ok ([], u) else .error .expectedNoReceivedRows
  else
    match u.existingRows with
    | none => .error .trackQueriesNotCalled
    | some (.error e) => .error e
    | some (.ok existingRows) => u.deleteUnreferencedRowsLoop existingRows

end CVRQueryDrivenUpdater

/-! ## `view-syncer.ts` -/

/-- What `contentsAndVersion` returns; it throws when the version is missing or empty. -/
structure VersionedRow (κ : Type) where
  version : String
  contents : κ
  version_ne : version ≠ ""

/-- `RowChange`: the query, the row's id and, but for a remove, the row. -/
inductive RowChange (ρ κ : Type)
  | add (queryID : String) (id : ρ) (row : VersionedRow κ)
  | edit (queryID : String) (id : ρ) (row : VersionedRow κ)
  | remove (queryID : String) (id : ρ)

namespace RowChange

variable {ρ κ : Type}

def queryID : RowChange ρ κ → String
  | add q _ _ | edit q _ _ | remove q _ => q

def id : RowChange ρ κ → ρ
  | add _ id _ | edit _ id _ | remove _ id => id

/-- The row of an ADD or EDIT. -/
def row? : RowChange ρ κ → Option (VersionedRow κ)
  | add _ _ row | edit _ _ row => some row
  | remove _ _ => none

/-- What the change does to its query's count. -/
def count : RowChange ρ κ → ℤ
  | add _ _ _ => 1
  | edit _ _ _ => 0
  | remove _ _ => -1

end RowChange

section
variable {ρ κ : Type} [DecidableEq ρ]

/-- The body of the loop of `#processChanges`: a change taken into its row's update. -/
def addChange (rows : OrderedMap ρ (RowUpdate κ)) (change : RowChange ρ κ) : OrderedMap ρ (RowUpdate κ) :=
  let parsedRow := (rows.get? change.id).getD { refCounts := ∅ }
  let refCounts := parsedRow.refCounts.set change.queryID
    ((parsedRow.refCounts.get? change.queryID).getD 0 + change.count)
  -- An ADD or EDIT updates the version and contents, a REMOVE leaves them.
  rows.set change.id
    { version := (change.row?.map (·.version)).or parsedRow.version
      contents := (change.row?.map (·.contents)).or parsedRow.contents
      refCounts }

/-- `#processChanges` from a batch under way; `pageSize` is `CURSOR_PAGE_SIZE`. -/
def processChanges (pageSize : ℕ) (u : CVRQueryDrivenUpdater ρ) (rows : OrderedMap ρ (RowUpdate κ)) :
    List (RowChange ρ κ) → Except UpdaterError (List (PatchToVersion ρ κ) × CVRQueryDrivenUpdater ρ)
  | [] => if rows.entries.length = 0 then .ok ([], u) else u.received rows.entries
  | change :: changes =>
    let rows := addChange rows change
    if rows.entries.length % pageSize = 0 then do
      let (patches, u) ← u.received rows.entries
      let (rest, u) ← processChanges pageSize u ∅ changes
      return (patches ++ rest, u)
    else processChanges pageSize u rows changes

end

end ZeroSync
