/-
What is done with the SQLite change log: `replicator/change-log-stream-writer.ts`
appends the stream's transactions, `replicator/sqlite-change-log-purger.ts` deletes
aged-out ones, `change-streamer/sqlite-change-log-reader.ts` reads what a subscriber
has not seen, and `change-streamer/sqlite-change-log-writer.ts` opens, reconciles and
writes the file (`ChangeLogProcess`).
-/
import ZeroSync.ChangeLogDB

namespace ZeroSync.ChangeLogDB

open Backfills (CookieSet)

variable {J : Type}

/-! ## A connection -/

/-- A connection to a database: what is committed, and what its open transaction has. -/
structure Connection (J : Type) where
  committed : Database J
  working : Option (Database J)

namespace Connection

def inTransaction (c : Connection J) : Bool := c.working.isSome

def beginImmediate (c : Connection J) : Except SqlError (Connection J) :=
  if c.inTransaction then .error .nestedTransaction else .ok { c with working := some c.committed }

/-- A statement, in the open transaction or in one of its own. -/
def exec (c : Connection J) (f : Database J → Except SqlError (Database J)) : Except SqlError (Connection J) :=
  match c.working with
  | some db => (f db).map fun db => { c with working := some db }
  | none => (f c.committed).map fun db => { c with committed := db }

def commit (c : Connection J) : Connection J := ⟨c.working.getD c.committed, none⟩

def rollback (c : Connection J) : Connection J := { c with working := none }

end Connection

/-- SQLite's files have at most 2^48 bytes, and so fewer rows. -/
def maxTableRows : ℕ := 2 ^ 48

/-- An `INSERT` of a row of the stream. -/
def Database.insertRow (r : StreamRow) (db : Database J) : Except SqlError (Database J) :=
  match db.stream with
  | none => .error .noSuchTable
  | some t =>
    if maxTableRows ≤ t.rows.length then .error .io
    else
      match t.insert? r with
      | some t => .ok { db with stream := some t }
      | none => .error .constraint

/-! ## The writer of the stream -/

inductive WriteError
  /-- `change-log stream transaction already open at ${watermark}` -/
  | alreadyOpen (watermark : Watermark)
  /-- `change-log stream message received outside of a transaction` -/
  | outsideTransaction
  /-- `change-log stream commit ${watermark} does not match begin ${precommit}` -/
  | commitMismatch (watermark precommit : Watermark)
  | sql (e : SqlError)
  deriving DecidableEq

/-- `ChangeLogStreamWriter` -/
structure ChangeLogStreamWriter where
  watermark : Option Watermark := none
  pos : ℕ := 0

namespace ChangeLogStreamWriter

variable (s : ChangeLogStreamWriter) (c : Connection J)

def requireWatermark : Except WriteError Watermark :=
  match s.watermark with
  | some watermark => .ok watermark
  | none => .error .outsideTransaction

def begin (watermark : Watermark) (json : String) : Except WriteError (ChangeLogStreamWriter × Connection J) := do
  if let some opened := s.watermark then throw (.alreadyOpen opened)
  let c ← c.beginImmediate.mapError .sql
  let c ← (c.exec (Database.insertRow (streamRow watermark 0 .begin (extractChangeSubstring json .begin)))).mapError .sql
  return (⟨some watermark, 0⟩, c)

def append (json : String) (change : DataOrSchemaChange J) : Except WriteError (ChangeLogStreamWriter × Connection J) := do
  let watermark ← s.requireWatermark
  let row := streamRow watermark (s.pos + 1) (.change change.name) (extractChangeSubstring json (.change change.name))
  let c ← (c.exec (Database.insertRow row)).mapError .sql
  let c ← (c.exec fun db => db.withCookies fun t => t.apply change.change).mapError .sql
  return ({ s with pos := s.pos + 1 }, c)

def commit (watermark : Watermark) (json : String) (writeTimeMs : ℤ) :
    Except WriteError (ChangeLogStreamWriter × Connection J) := do
  let precommit ← s.requireWatermark
  if watermark ≠ precommit then throw (.commitMismatch watermark precommit)
  let row := commitRow watermark (s.pos + 1) (extractChangeSubstring json .commit) writeTimeMs
  let c ← (c.exec (Database.insertRow row)).mapError .sql
  return ({}, c.commit)

def rollback : ChangeLogStreamWriter × Connection J := ({}, if c.inTransaction then c.rollback else c)

end ChangeLogStreamWriter

/-! ## Purging -/

structure PurgeBatchOptions where
  externalFloor : Watermark
  retentionCutoffMs : ℤ
  maxRows : ℕ
  maxDurationMs : ℚ

namespace StreamTable

variable (t : StreamTable)

/-- `SQLITE_CHANGE_LOG_ELIGIBLE_COMMITS_SQL`, a row's write time with it. -/
def eligible (opts : PurgeBatchOptions) : List (ℤ × Watermark) :=
  t.rows.filterMap fun r =>
    match r.writeTimeMs with
    | some writeTimeMs =>
      if writeTimeMs < opts.retentionCutoffMs ∧ r.watermark < opts.externalFloor ∧
          (readChangeLogHead t).any (r.watermark < ·) then
        some (writeTimeMs, r.watermark)
      else none
    | none => none

def eligibleCommits (opts : PurgeBatchOptions) (limit : ℕ) : List Watermark :=
  (((eligible t opts).insertionSort fun a b => toLex a ≤ toLex b).take limit).map (·.2)

/-- `SQLITE_CHANGE_LOG_COUNT_TRANSACTION_SQL` -/
def countTransaction (watermark : Watermark) (limit : ℕ) : ℕ :=
  ((t.rows.filter fun r => r.watermark = watermark).take limit).length

def deleteThrough (watermark : Watermark) : StreamTable := t.deleteWhere fun r => r.watermark ≤ watermark

/-- `TEAR_BOUNDARY_SQL` -/
def tearBoundary (watermark : Watermark) (offset : ℕ) : Option ℕ :=
  ((t.rows.filter fun r => r.watermark = watermark)[offset]?).map (·.pos)

def deleteBelowPos (watermark : Watermark) (pos : ℕ) : StreamTable :=
  t.deleteWhere fun r => r.watermark = watermark ∧ r.pos < pos

/-- The loop of `#purge` over the candidates. -/
def fit (budget : ℕ) (rows : ℕ) (deletedThrough : Option Watermark) : List Watermark → Option Watermark
  | [] => deletedThrough
  | watermark :: candidates =>
    let remaining := budget - rows
    let n := countTransaction t watermark (remaining + 1)
    if remaining < n then deletedThrough else fit budget (rows + n) (some watermark) candidates

end StreamTable

/-- `PurgeBatchResult`, with what the delete leaves and whether it has deleted its budget. -/
structure PurgeBatchResult where
  table : StreamTable
  deletedRows : ℕ
  deletedThrough : Option Watermark
  moreEligible : Bool

inductive PurgeError
  /-- `change-log purge maxRows must be a positive safe integer` -/
  | maxRows
  /-- `change-log purge maxDurationMs must be positive` -/
  | maxDurationMs
  /-- `change-log purge found eligible transactions in an empty log` -/
  | emptyLog
  | sql (e : SqlError)
  deriving DecidableEq

/-- `SQLiteChangeLogPurger.#timed` of a delete: the row budget of the next batch. -/
def timed (opts : PurgeBatchOptions) (budget deletedRows : ℕ) (elapsedMs : ℚ) : ℕ :=
  if opts.maxDurationMs < elapsedMs then max 1 (budget / 2)
  else if budget ≤ deletedRows ∧ elapsedMs * 2 ≤ opts.maxDurationMs then min opts.maxRows (budget * 2)
  else budget

/-- `#budget` -/
def purgeBudget (opts : PurgeBatchOptions) (budgetRows : Option ℕ) : ℕ :=
  max 1 (min opts.maxRows (budgetRows.getD opts.maxRows))

namespace StreamTable

variable (t : StreamTable)

def anyEligible (opts : PurgeBatchOptions) : Bool := !(eligibleCommits t opts 1).isEmpty

/-- A prefix delete of `#purge` or `#tear`. -/
def purgeThrough (opts : PurgeBatchOptions) (watermark : Watermark) : PurgeBatchResult :=
  let t' := deleteThrough t watermark
  ⟨t', t.rows.length - t'.rows.length, some watermark, anyEligible t' opts⟩

/-- `#tear` -/
def tear (opts : PurgeBatchOptions) (budget : ℕ) : Except PurgeError PurgeBatchResult :=
  match readMinWatermark t with
  | none => .error .emptyLog
  | some minWatermark =>
    match tearBoundary t minWatermark budget with
    | none => .ok (purgeThrough t opts minWatermark)
    | some pos =>
      let t' := deleteBelowPos t minWatermark pos
      .ok ⟨t', t.rows.length - t'.rows.length, none, true⟩

/-- `#purge`, without the clock; whether a delete has run. -/
def purge (opts : PurgeBatchOptions) (budget : ℕ) : Except PurgeError (Bool × PurgeBatchResult) :=
  let limit := max 1 ((budget + 1) / 2)
  let candidates := eligibleCommits t opts limit
  if candidates.isEmpty then .ok (false, ⟨t, 0, none, false⟩)
  else
    match fit t budget 0 none candidates with
    | none => (tear t opts budget).map fun result => (true, result)
    | some deletedThrough => .ok (true, purgeThrough t opts deletedThrough)

end StreamTable

/-- `purgeBatch`, of a delete that takes `elapsedMs`. -/
def purgeBatch (c : Connection J) (budgetRows : Option ℕ) (opts : PurgeBatchOptions) (elapsedMs : ℚ) :
    Except PurgeError (Connection J × Option ℕ × PurgeBatchResult) := do
  if opts.maxRows = 0 then throw .maxRows
  if opts.maxDurationMs ≤ 0 then throw .maxDurationMs
  let c ← c.beginImmediate.mapError .sql
  match c.committed.stream with
  | none => throw (.sql .noSuchTable)
  | some t =>
    let budget := purgeBudget opts budgetRows
    let (deletes, result) ← StreamTable.purge t opts budget
    let budgetRows := if deletes then some (timed opts budget result.deletedRows elapsedMs) else budgetRows
    return (⟨{ c.committed with stream := some result.table }, none⟩, budgetRows, result)

/-! ## Reading -/

inductive CatchupPlan
  | range (minWatermark headWatermark : Watermark)
  | ahead (headWatermark : Watermark)
  | tooOld (minWatermark headWatermark : Watermark)
  | notReady
  deriving DecidableEq

/-- `SQLITE_CHANGE_LOG_BOUNDARY_SQL`; no row is no boundary. -/
def boundaryExists (t : StreamTable) (fromWatermark : Watermark) : Bool :=
  match (t.rows.filter fun r => r.watermark = fromWatermark).getLast? with
  | some r => r.precommit = some fromWatermark && r.tag = .commit
  | none => false

/-- `SQLiteChangeLogReader.plan` -/
def plan (stream : Option StreamTable) (fromWatermark : Watermark) : CatchupPlan :=
  match stream with
  | none => .notReady
  | some t =>
    match readChangeLogHead t, readMinWatermark t with
    | some headWatermark, some minWatermark =>
      if headWatermark < fromWatermark then .ahead headWatermark
      else if fromWatermark < minWatermark || !boundaryExists t fromWatermark then .tooOld minWatermark headWatermark
      else .range minWatermark headWatermark
    | _, _ => .notReady

def maxSafeInteger : ℕ := 2 ^ 53 - 1

/-- `SQLITE_CHANGE_LOG_READ_BATCH_SQL` -/
def readBatch (t : StreamTable) (lastWatermark : Watermark) (lastPos : ℕ) (throughWatermark : Watermark) (limit : ℕ) :
    List StreamRow :=
  (t.rows.filter fun r => toLex (lastWatermark, lastPos) < r.key && r.watermark ≤ throughWatermark).take limit

inductive ReadError
  /-- `SQLite change log batch size must be a positive safe integer` -/
  | batchSize
  /-- `SQLite change log row limit must be a positive safe integer` -/
  | maxRows
  /-- `SQLite change log did not end at pinned head ${throughWatermark}` -/
  | notAtHead (throughWatermark : Watermark)
  deriving DecidableEq

/-- The variables of the loop of `read`, and the batches it has yielded. -/
structure ReadState where
  lastWatermark : Watermark
  lastPos : ℕ
  lastTag : Option ChangeTag
  rowsRead : ℕ
  batches : List (List WatermarkedChange)

/-- A turn of the loop of `read`; `none` when it ends. -/
def readTurn (t : StreamTable) (throughWatermark : Watermark) (batchSize : ℕ) (maxRows : Option ℕ) (s : ReadState) :
    Option ReadState :=
  let remainingRows := match maxRows with
    | none => batchSize
    | some maxRows => maxRows - s.rowsRead
  if remainingRows = 0 then none
  else
    let rows := readBatch t s.lastWatermark s.lastPos throughWatermark (min batchSize remainingRows)
    match rows.getLast? with
    | none => none
    | some last =>
      some
        { lastWatermark := last.watermark
          lastPos := last.pos
          lastTag := some last.tag
          rowsRead := s.rowsRead + rows.length
          batches := s.batches ++ [rows.map fun r => reconstructWatermarkedChange r.watermark r.tag r.change] }

/-- The loop of `read`, over what the table holds at each of its turns; `none` when it
has not ended. -/
def readLoop (throughWatermark : Watermark) (batchSize : ℕ) (maxRows : Option ℕ) :
    List StreamTable → ReadState → Option ReadState
  | [], _ => none
  | t :: tables, s =>
    match readTurn t throughWatermark batchSize maxRows s with
    | none => some s
    | some s => readLoop throughWatermark batchSize maxRows tables s

/-- `SQLiteChangeLogReader.read`: the batches it yields, and the exception it ends with. -/
def read (fromWatermark throughWatermark : Watermark) (batchSize : ℕ) (maxRows : Option ℕ) (tables : List StreamTable) :
    Option (List (List WatermarkedChange) × Except ReadError Unit) :=
  if batchSize = 0 then some ([], .error .batchSize)
  else if maxRows = some 0 then some ([], .error .maxRows)
  else
    (readLoop throughWatermark batchSize maxRows tables ⟨fromWatermark, maxSafeInteger, none, 0, []⟩).map fun s =>
      let complete := s.lastWatermark = throughWatermark ∧ s.lastTag = some .commit
      if fromWatermark ≠ throughWatermark ∧ maxRows.all (s.rowsRead < ·) ∧ ¬ complete then
        (s.batches, .error (.notAtHead throughWatermark))
      else (s.batches, .ok ())

end ZeroSync.ChangeLogDB
