/-
`view-syncer/cvr.ts` and `cvr-store.ts`: the queries each client desires, in
the CVR and in the tables `instances`, `clients`, `queries` and `desires`.

An updater changes a copy of the CVR and queues writes in the store; `flush`
writes them in one transaction, and `load` reads a CVR back. `α` is the type
of what defines a query, an AST or a name with arguments; the ASTs of the
internal queries are left out. Versions are kept as `CVRVersion`s where the
tables have strings.
-/
import ZeroSync.CVRUpdater
import ZeroSync.StateVersion
import ZeroSync.TTL
import Mathlib.Data.List.Sort

namespace ZeroSync

/-- `ClientRecord`. -/
structure ClientRecord where
  id : String
  desiredQueryIDs : List String

/-- `clientState` of one client. -/
structure ClientState where
  inactivatedAt : Option ℚ
  ttl : ℚ
  version : CVRVersion

/-- `QueryRecord` with its `clientState` and what defines it. -/
structure ConfigQuery (α : Type) extends QueryRecord where
  definition : Option α
  clientState : OrderedMap String ClientState := ∅

/-- `CVR`, the parts the desired queries are about. -/
structure ConfigCVR (α : Type) where
  version : CVRVersion
  replicaVersion : Option String
  clients : OrderedMap String ClientRecord
  queries : OrderedMap String (ConfigQuery α)

/-! ## The tables -/

/-- `InstancesRow`. -/
structure InstancesRow where
  version : CVRVersion
  replicaVersion : Option String

/-- `QueriesRow`. -/
structure QueriesRow (α : Type) where
  queryHash : String
  definition : Option α
  patchVersion : Option CVRVersion
  transformationHash : Option String
  transformationVersion : Option CVRVersion
  internal : Bool
  deleted : Bool

/-- The fields `#updateQueryFields` sets. -/
structure PartialQueriesRow where
  patchVersion : Option CVRVersion
  transformationHash : Option String
  transformationVersion : Option CVRVersion
  deleted : Bool

/-- `DesiresRow`. -/
structure DesiresRow where
  clientID : String
  queryHash : String
  patchVersion : CVRVersion
  deleted : Bool
  ttl : Option ℚ
  inactivatedAt : Option ℚ

/-- The rows of a client group, by primary key. -/
structure CVRDatabase (α : Type) where
  instance? : Option InstancesRow := none
  clients : List String := []
  queries : OrderedMap String (QueriesRow α) := ∅
  desires : OrderedMap (String × String) DesiresRow := ∅

/-- A queued write to the table `clients`. -/
inductive ClientWrite
  | insertClient (id : String)
  | deleteClient (id : String)

/-- `CVRStore`: the tables and what is queued for them. -/
structure CVRStore (α : Type) where
  db : CVRDatabase α
  pendingInstanceWrite : Bool
  writes : List ClientWrite := []
  pendingQueryUpdates : OrderedMap String (QueriesRow α) := ∅
  pendingQueryPartialUpdates : OrderedMap String PartialQueriesRow := ∅
  pendingDesireUpdates : OrderedMap String DesiresRow := ∅

/-- A `CVRUpdater` of either kind with its store. -/
structure ConfigUpdater (α : Type) where
  orig : ConfigCVR α
  cvr : ConfigCVR α
  store : CVRStore α
  removedOrExecutedQueryIDs : List String := []

/-- What an update or a flush throws. -/
inductive ConfigError
  /-- An assertion the row updates share. -/
  | updater (error : UpdaterError)
  /-- `must` of a query that is needed. -/
  | noSuchDesiredQuery
  /-- `Must provide name and args` -/
  | mustProvideNameAndArgs
  /-- `Query is already inactivated` -/
  | alreadyInactivated
  /-- `ConcurrentModificationException` -/
  | concurrentModification
  /-- A client is inserted that is there. -/
  | duplicateClient
  /-- A desire of a query that is not in the table. -/
  | noSuchQueryRow
  deriving DecidableEq

/-! ## TTLs -/

/-- `ttlMs` of `convertTTLValues`. -/
def convertTTL (ttl : ℚ) : Option ℚ := if ttl < 0 then none else some ttl

/-! ## Queueing writes -/

namespace CVRStore

variable {α : Type}

/-- `putQuery`. -/
def putQuery (s : CVRStore α) (query : ConfigQuery α) : CVRStore α :=
  { s with pendingQueryUpdates := s.pendingQueryUpdates.set query.id {
      queryHash := query.id
      definition := query.definition
      patchVersion := query.patchVersion
      transformationHash := query.transformationHash
      transformationVersion := query.transformationVersion
      internal := query.internal
      deleted := false } }

/-- `updateQuery`. -/
def updateQuery (s : CVRStore α) (query : ConfigQuery α) : CVRStore α :=
  { s with pendingQueryPartialUpdates := s.pendingQueryPartialUpdates.set query.id {
      patchVersion := if query.internal then none else query.patchVersion
      transformationHash := query.transformationHash
      transformationVersion := query.transformationVersion
      deleted := false } }

/-- `markQueryAsDeleted`. -/
def markQueryAsDeleted (s : CVRStore α) (version : CVRVersion) (id : String) : CVRStore α :=
  { s with pendingQueryPartialUpdates := s.pendingQueryPartialUpdates.set id {
      patchVersion := some version
      transformationHash := none
      transformationVersion := none
      deleted := true } }

/-- `insertClient`. -/
def insertClient (s : CVRStore α) (id : String) : CVRStore α := { s with writes := s.writes ++ [.insertClient id] }

/-- `deleteClient`. -/
def deleteClient (s : CVRStore α) (id : String) : CVRStore α := { s with writes := s.writes ++ [.deleteClient id] }

/-- `${client.id}:${query.id}` -/
def desireKey (clientID queryID : String) : String := clientID ++ ":" ++ queryID

/-- `putDesiredQuery`. -/
def putDesiredQuery (s : CVRStore α) (newVersion : CVRVersion) (queryID clientID : String) (deleted : Bool)
    (inactivatedAt : Option ℚ) (ttl : ℚ) : CVRStore α :=
  { s with pendingDesireUpdates := s.pendingDesireUpdates.set (desireKey clientID queryID) {
      clientID := clientID
      queryHash := queryID
      patchVersion := newVersion
      deleted := deleted
      ttl := convertTTL ttl
      inactivatedAt := inactivatedAt } }

/-! ## `flush` -/

/-- Nothing is queued. -/
def isIdle (s : CVRStore α) : Bool :=
  !s.pendingInstanceWrite && s.writes.isEmpty && s.pendingQueryUpdates.entries.isEmpty &&
    s.pendingQueryPartialUpdates.entries.isEmpty && s.pendingDesireUpdates.entries.isEmpty

/-- A write to the table `clients`, whose primary key is the client. -/
def writeClient (clients : List String) : ClientWrite → Except ConfigError (List String)
  | .insertClient id => if id ∈ clients then .error .duplicateClient else .ok (clients ++ [id])
  | .deleteClient id => .ok (clients.erase id)

/-- The fields of a row that are set. -/
def PartialQueriesRow.assign (fields : PartialQueriesRow) (row : QueriesRow α) : QueriesRow α :=
  { row with
    patchVersion := fields.patchVersion
    transformationHash := fields.transformationHash
    transformationVersion := fields.transformationVersion
    deleted := fields.deleted }

/-- `#flushQueries`: the full updates, with the fields set for the same query
merged in, then the fields set for other rows. -/
def flushQueries (s : CVRStore α) : OrderedMap String (QueriesRow α) :=
  let full := s.pendingQueryUpdates.entries.map fun e =>
    (e.1, ((s.pendingQueryPartialUpdates.get? e.1).map fun fields => PartialQueriesRow.assign fields e.2).getD e.2)
  let queries := full.foldl (fun queries e => queries.set e.1 e.2) s.db.queries
  let partialOnly := s.pendingQueryPartialUpdates.entries.filter fun e => !s.pendingQueryUpdates.contains e.1
  partialOnly.foldl (fun queries e =>
    match queries.get? e.1 with
    | none => queries
    | some row => queries.set e.1 (PartialQueriesRow.assign e.2 row)) queries

/-- A row of `#flushDesires`, which refers to a row of `queries`. -/
def writeDesire (queries : OrderedMap String (QueriesRow α)) (desires : OrderedMap (String × String) DesiresRow)
    (row : DesiresRow) : Except ConfigError (OrderedMap (String × String) DesiresRow) :=
  if queries.contains row.queryHash then .ok (desires.set (row.clientID, row.queryHash) row)
  else .error .noSuchQueryRow

/-- `flush` of the store, when something is queued. -/
def flush (s : CVRStore α) (expectedCurrentVersion : CVRVersion) (cvr : ConfigCVR α) :
    Except ConfigError (CVRDatabase α) :=
  let version : CVRVersion := (s.db.instance?.map (·.version)).getD { stateVersion := "00" }
  if cmpVersions version expectedCurrentVersion ≠ 0 then .error .concurrentModification
  else do
    let clients ← s.writes.foldlM writeClient s.db.clients
    let queries := s.flushQueries
    let desires ← s.pendingDesireUpdates.values.foldlM (writeDesire queries) s.db.desires
    return { instance? := some { version := cvr.version, replicaVersion := cvr.replicaVersion }
             clients := clients
             queries := queries
             desires := desires }

end CVRStore

/-! ## `load` -/

namespace CVRDatabase

variable {α : Type}

/-- `asQuery`. -/
def asQuery (row : QueriesRow α) : ConfigQuery α where
  id := row.queryHash
  internal := row.internal
  transformationHash := row.transformationHash
  transformationVersion := row.transformationVersion
  patchVersion := if row.internal then none else row.patchVersion
  definition := row.definition

/-- What a row of `desires` says of its client. -/
def loadDesired (clients : OrderedMap String ClientRecord) (row : DesiresRow) : OrderedMap String ClientRecord :=
  if !row.deleted && row.inactivatedAt.isNone then
    match clients.get? row.clientID with
    | none => clients
    | some client =>
      clients.set row.clientID { client with desiredQueryIDs := client.desiredQueryIDs ++ [row.queryHash] }
  else clients

/-- What a row of `desires` says of its query. -/
def loadClientState (queries : OrderedMap String (ConfigQuery α)) (row : DesiresRow) :
    OrderedMap String (ConfigQuery α) :=
  match queries.get? row.queryHash with
  | none => queries
  | some query =>
    if !query.internal && (!row.deleted || row.inactivatedAt.isSome) then
      queries.set row.queryHash { query with clientState := query.clientState.set row.clientID {
        inactivatedAt := row.inactivatedAt
        ttl := clampTTL (row.ttl.getD DEFAULT_TTL_MS)
        version := row.patchVersion } }
    else queries

/-- `#load`. -/
def load (db : CVRDatabase α) : ConfigCVR α :=
  let clients := OrderedMap.ofList (db.clients.map fun id => (id, ({ id, desiredQueryIDs := [] } : ClientRecord)))
  let rows := db.queries.entries.filter fun e => !e.2.deleted
  let queries := OrderedMap.ofList (rows.map fun e => (e.1, asQuery e.2))
  { version := (db.instance?.map (·.version)).getD { stateVersion := "00" }
    replicaVersion := db.instance?.bind (·.replicaVersion)
    clients := db.desires.values.foldl loadDesired clients
    queries := db.desires.values.foldl loadClientState queries }

/-- The store of a CVR that was loaded: that of a new client group has its instance to write. -/
def store (db : CVRDatabase α) : CVRStore α where
  db := db
  pendingInstanceWrite := db.instance?.isNone

end CVRDatabase

/-! ## The updaters -/

/-- A config patch for the clients. -/
structure DesirePatch where
  put : Bool
  id : String
  clientID : String
  toVersion : CVRVersion

/-- A query a client asks for: `hash`, what defines it, and its TTL. -/
structure DesiredQuery (α : Type) where
  hash : String
  definition : Option α := none
  ttl : Option ℚ := none

namespace ConfigUpdater

variable {α : Type}

/-- The constructor of `CVRUpdater`. -/
def new (db : CVRDatabase α) (cvr : ConfigCVR α) (replicaVersion : Option String) : ConfigUpdater α where
  orig := cvr
  cvr := { cvr with replicaVersion }
  store := db.store

/-- `_setVersion`. -/
def setVersion (u : ConfigUpdater α) (version : CVRVersion) : Except ConfigError (ConfigUpdater α) :=
  if cmpVersions u.cvr.version version < 0 then .ok { u with cvr := { u.cvr with version } }
  else .error (.updater .expectedGreaterVersion)

/-- `_ensureNewVersion`. -/
def ensureNewVersion (u : ConfigUpdater α) : Except ConfigError (ConfigUpdater α) :=
  if cmpVersions u.orig.version u.cvr.version = 0 then u.setVersion (oneAfter u.cvr.version) else .ok u

/-- `flush`: the CVR afterwards, the original one when nothing was queued. -/
def flush (u : ConfigUpdater α) : Except ConfigError (ConfigCVR α × CVRDatabase α) :=
  if u.store.isIdle then .ok (u.orig, u.store.db)
  else do
    let db ← u.store.flush u.orig.version u.cvr
    return (u.cvr, db)

/-- An internal query, put when it is missing. -/
def putInternalQuery (u : ConfigUpdater α) (id : String) : ConfigUpdater α :=
  if u.cvr.queries.contains id then u
  else
    let query : ConfigQuery α := { id, internal := true, definition := none }
    { u with
      cvr := { u.cvr with queries := u.cvr.queries.set id query }
      store := u.store.putQuery query }

/-- `ensureClient`. -/
def ensureClient (u : ConfigUpdater α) (id : String) : Except ConfigError (ClientRecord × ConfigUpdater α) :=
  match u.cvr.clients.get? id with
  | some client => .ok (client, u)
  | none => do
    let client : ClientRecord := { id, desiredQueryIDs := [] }
    let u := { u with cvr := { u.cvr with clients := u.cvr.clients.set id client } }
    let u ← u.ensureNewVersion
    let u := { u with store := u.store.insertClient id }
    return (client, (u.putInternalQuery "lmids").putInternalQuery "mutationResults")

/-- `toSorted`, by `stringCompare`. -/
def toSorted (ids : List String) : List String := ids.insertionSort fun a b => codeUnits a ≤ codeUnits b

/-- The queries a client is to desire, sorted. -/
def setDesiredQueryIDs (u : ConfigUpdater α) (client : ClientRecord) (ids : List String) : ConfigUpdater α :=
  { u with cvr := { u.cvr with
      clients := u.cvr.clients.set client.id { client with desiredQueryIDs := toSorted ids } } }

/-- The query is new to the client, was inactivated, or gets a longer TTL. -/
def isNeeded (cvr : ConfigCVR α) (clientID : String) (q : DesiredQuery α) : Bool :=
  match cvr.queries.get? q.hash with
  | none => true
  | some query =>
    if query.internal then false
    else
      match query.clientState.get? clientID with
      | none => true
      | some old => old.inactivatedAt.isSome || decide (0 < compareTTL (q.ttl.getD DEFAULT_TTL_MS) old.ttl)

/-- `newQueryRecord`. -/
def newQueryRecord (id : String) : Option α → Except ConfigError (ConfigQuery α)
  | none => .error .mustProvideNameAndArgs
  | some definition => .ok { id, internal := false, definition := some definition }

/-- The record of a query to put: the one there is, else a new one. -/
def queryToPut (cvr : ConfigCVR α) (id : String) (definition : Option α) : Except ConfigError (ConfigQuery α) :=
  match cvr.queries.get? id with
  | some query => .ok query
  | none => newQueryRecord id definition

/-- The loop of `putDesiredQueries`, for one query that is needed. -/
def putNeeded (queries : List (DesiredQuery α)) (clientID : String) (newVersion : CVRVersion)
    (u : ConfigUpdater α) (id : String) : Except ConfigError (ConfigUpdater α) :=
  match queries.find? (·.hash = id) with
  | none => .error .noSuchDesiredQuery
  | some q => do
    let ttl := clampTTL (q.ttl.getD DEFAULT_TTL_MS)
    let query ← queryToPut u.cvr id q.definition
    if query.internal then .error (.updater .reservedForInternalUse)
    else
      let state : ClientState := { inactivatedAt := none, ttl, version := newVersion }
      let query := { query with clientState := query.clientState.set clientID state }
      return { u with
        cvr := { u.cvr with queries := u.cvr.queries.set id query }
        store := (u.store.putQuery query).putDesiredQuery newVersion query.id clientID false none ttl }

/-- `putDesiredQueries`. -/
def putDesiredQueries (u : ConfigUpdater α) (clientID : String) (queries : List (DesiredQuery α)) :
    Except ConfigError (List DesirePatch × ConfigUpdater α) := do
  let (client, u) ← u.ensureClient clientID
  let current := client.desiredQueryIDs.eraseDups
  let needed := ((queries.filter (isNeeded u.cvr clientID)).map (·.hash)).eraseDups
  if needed.length = 0 then return ([], u)
  else
    let u ← u.ensureNewVersion
    let newVersion := u.cvr.version
    let u := u.setDesiredQueryIDs client (current ++ needed).eraseDups
    let u ← needed.foldlM (putNeeded queries clientID newVersion) u
    return (needed.map fun id => { put := true, id, clientID, toVersion := newVersion }, u)

/-- The record of a query the client no longer desires, and the TTL to write. -/
def withoutDesire (query : ConfigQuery α) (clientID : String) (inactivatedAt : Option ℚ) (newVersion : CVRVersion) :
    Except ConfigError (ConfigQuery α × ℚ) :=
  match inactivatedAt, query.clientState.get? clientID with
  | none, _ => .ok ({ query with clientState := query.clientState.erase clientID }, DEFAULT_TTL_MS)
  | some _, none => .ok (query, DEFAULT_TTL_MS)
  | some _, some clientState =>
    if clientState.inactivatedAt.isSome then .error .alreadyInactivated
    else
      let state : ClientState := { inactivatedAt, ttl := clampTTL clientState.ttl, version := newVersion }
      .ok ({ query with clientState := query.clientState.set clientID state }, clampTTL clientState.ttl)

/-- The loop of `#deleteQueries`, for one query to remove. -/
def deleteQuery (clientID : String) (inactivatedAt : Option ℚ) (newVersion : CVRVersion) (u : ConfigUpdater α)
    (id : String) : Except ConfigError (ConfigUpdater α) :=
  match u.cvr.queries.get? id with
  -- Query itself has already been removed.
  | none => .ok u
  | some query =>
    if query.internal then .error (.updater .reservedForInternalUse)
    else do
      let (query, ttl) ← withoutDesire query clientID inactivatedAt newVersion
      return { u with
        cvr := { u.cvr with queries := u.cvr.queries.set id query }
        store := (u.store.putQuery query).putDesiredQuery newVersion query.id clientID true inactivatedAt ttl }

/-- `intersection`, which goes through the smaller set. -/
def intersection (a b : List String) : List String :=
  if b.length < a.length then b.filter (· ∈ a) else a.filter (· ∈ b)

/-- `#deleteQueries`. -/
def deleteQueries (u : ConfigUpdater α) (clientID : String) (queryHashes : List String) (inactivatedAt : Option ℚ) :
    Except ConfigError (List DesirePatch × ConfigUpdater α) := do
  let (client, u) ← u.ensureClient clientID
  let current := client.desiredQueryIDs.eraseDups
  let unwanted := queryHashes.eraseDups
  let remove := intersection unwanted current
  if remove.length = 0 then return ([], u)
  else
    let u ← u.ensureNewVersion
    let newVersion := u.cvr.version
    let u := u.setDesiredQueryIDs client (current.filter (· ∉ remove))
    let deleted := remove.filter u.cvr.queries.contains
    let u ← remove.foldlM (deleteQuery clientID inactivatedAt newVersion) u
    return (deleted.map fun id => { put := false, id, clientID, toVersion := newVersion }, u)

/-- `markDesiredQueriesAsInactive`. -/
def markDesiredQueriesAsInactive (u : ConfigUpdater α) (clientID : String) (queryHashes : List String)
    (ttlClock : ℚ) : Except ConfigError (List DesirePatch × ConfigUpdater α) :=
  u.deleteQueries clientID queryHashes (some ttlClock)

/-- `deleteDesiredQueries`. -/
def deleteDesiredQueries (u : ConfigUpdater α) (clientID : String) (queryHashes : List String) :
    Except ConfigError (List DesirePatch × ConfigUpdater α) :=
  u.deleteQueries clientID queryHashes none

/-- `clearDesiredQueries`. -/
def clearDesiredQueries (u : ConfigUpdater α) (clientID : String) :
    Except ConfigError (List DesirePatch × ConfigUpdater α) := do
  let (client, u) ← u.ensureClient clientID
  u.deleteQueries clientID client.desiredQueryIDs none

/-- `deleteClient`. -/
def deleteClient (u : ConfigUpdater α) (clientID : String) (ttlClock : ℚ) :
    Except ConfigError (List DesirePatch × ConfigUpdater α) :=
  match u.cvr.clients.get? clientID with
  | none => .ok ([], u)
  | some client => do
    let (patches, u) ← u.markDesiredQueriesAsInactive clientID client.desiredQueryIDs ttlClock
    return (patches, { u with
      cvr := { u.cvr with clients := u.cvr.clients.erase clientID }
      store := u.store.deleteClient clientID })

/-- The constructor of `CVRQueryDrivenUpdater`. -/
def newQueryDriven (db : CVRDatabase α) (cvr : ConfigCVR α) (stateVersion replicaVersion : String) :
    Except ConfigError (ConfigUpdater α) :=
  let u := new db cvr (some replicaVersion)
  if replicaVersion < cvr.replicaVersion.getD replicaVersion then .error (.updater .olderReplicaVersion)
  else if stateVersion < cvr.version.stateVersion then .error (.updater .olderStateVersion)
  else if cvr.version.stateVersion < stateVersion then u.setVersion { stateVersion }
  else .ok u

/-- `#trackExecuted`. -/
def trackExecuted (u : ConfigUpdater α) (executed : String × String) : Except ConfigError (ConfigUpdater α) :=
  let (queryID, transformationHash) := executed
  if queryID ∈ u.removedOrExecutedQueryIDs then .error (.updater .alreadyTracked)
  else
    let u := { u with removedOrExecutedQueryIDs := u.removedOrExecutedQueryIDs ++ [queryID] }
    match u.cvr.queries.get? queryID with
    | none => .error (.updater .noSuchQuery)
    | some query =>
      if query.transformationHash = some transformationHash then .ok u
      else do
        let u ← u.ensureNewVersion
        let transformationVersion := u.cvr.version
        let gotten := !query.internal && query.patchVersion.isNone
        let query := { query with
          patchVersion := if gotten then some transformationVersion else query.patchVersion
          transformationHash := some transformationHash
          transformationVersion := some transformationVersion }
        return { u with
          cvr := { u.cvr with queries := u.cvr.queries.set queryID query }
          store := u.store.updateQuery query }

/-- `#trackRemoved`. -/
def trackRemoved (u : ConfigUpdater α) (queryID : String) : Except ConfigError (ConfigUpdater α) :=
  match u.cvr.queries.get? queryID with
  | none => .error (.updater .noSuchQuery)
  | some query =>
    if query.internal then .error (.updater .reservedForInternalUse)
    else if queryID ∈ u.removedOrExecutedQueryIDs then .error (.updater .alreadyTracked)
    else do
      let u := { u with
        removedOrExecutedQueryIDs := u.removedOrExecutedQueryIDs ++ [queryID]
        cvr := { u.cvr with queries := u.cvr.queries.erase queryID } }
      let u ← u.ensureNewVersion
      return { u with store := u.store.markQueryAsDeleted u.cvr.version queryID }

/-- `trackQueries`. -/
def trackQueries (u : ConfigUpdater α) (executed : List (String × String)) (removed : List String) :
    Except ConfigError (ConfigUpdater α) := do
  let u ← executed.foldlM trackExecuted u
  removed.foldlM trackRemoved u

end ConfigUpdater

/-! ## Operations -/

/-- A call of an updater. -/
inductive ConfigOperation (α : Type)
  | ensureClient (clientID : String)
  | putDesiredQueries (clientID : String) (queries : List (DesiredQuery α))
  | markDesiredQueriesAsInactive (clientID : String) (queryHashes : List String) (ttlClock : ℚ)
  | deleteDesiredQueries (clientID : String) (queryHashes : List String)
  | clearDesiredQueries (clientID : String)
  | deleteClient (clientID : String) (ttlClock : ℚ)
  | trackQueries (stateVersion replicaVersion : String) (executed : List (String × String)) (removed : List String)

/-- The updater of the operation after the call. -/
def ConfigOperation.updated {α : Type} (cvr : ConfigCVR α) (db : CVRDatabase α) :
    ConfigOperation α → Except ConfigError (ConfigUpdater α)
  | ensureClient clientID =>
    (·.2) <$> (ConfigUpdater.new db cvr cvr.replicaVersion).ensureClient clientID
  | putDesiredQueries clientID queries =>
    (·.2) <$> (ConfigUpdater.new db cvr cvr.replicaVersion).putDesiredQueries clientID queries
  | markDesiredQueriesAsInactive clientID queryHashes ttlClock =>
    (·.2) <$> (ConfigUpdater.new db cvr cvr.replicaVersion).markDesiredQueriesAsInactive clientID queryHashes ttlClock
  | deleteDesiredQueries clientID queryHashes =>
    (·.2) <$> (ConfigUpdater.new db cvr cvr.replicaVersion).deleteDesiredQueries clientID queryHashes
  | clearDesiredQueries clientID =>
    (·.2) <$> (ConfigUpdater.new db cvr cvr.replicaVersion).clearDesiredQueries clientID
  | deleteClient clientID ttlClock =>
    (·.2) <$> (ConfigUpdater.new db cvr cvr.replicaVersion).deleteClient clientID ttlClock
  | trackQueries stateVersion replicaVersion executed removed => do
    let u ← ConfigUpdater.newQueryDriven db cvr stateVersion replicaVersion
    u.trackQueries executed removed

/-- The operation, followed by a flush. -/
def ConfigOperation.run {α : Type} (op : ConfigOperation α) (cvr : ConfigCVR α) (db : CVRDatabase α) :
    Except ConfigError (ConfigCVR α × CVRDatabase α) := do
  let u ← op.updated cvr db
  u.flush

end ZeroSync
