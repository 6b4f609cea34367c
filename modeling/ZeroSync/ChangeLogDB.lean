/-
`replicator/change-log-db.ts` and the tables of `change-log-cookies.ts`: the SQLite
change log, a table of the stream's rows, a row about the log itself and the two
tables of cookies, and how it is brought to where a stream resumes
(`reconcileChangeLog`).

A database is what its tables hold, `none` for one that does not exist. Names and
watermarks are compared as SQLite does, by code points. A JSON text that a cookie
is kept as stands for its value.
-/
import ZeroSync.ChangeLogCodec
import ZeroSync.KeyedTable
import Mathlib.Data.Prod.Lex

namespace ZeroSync.ChangeLogDB

open Backfills (CookieSet TableMetadataCookie BackfillCookie CookieOp cookieOps Identifier TableMetadata)

variable {J : Type}

def changeLogDBSchemaVersion : ℕ := 4

/-! ## Tables -/

/-- A row of `_zero.changeLogStream`. -/
structure StreamRow where
  watermark : Watermark
  pos : ℕ
  tag : ChangeTag
  estimatedBytes : ℕ
  change : String
  precommit : Option Watermark
  writeTimeMs : Option ℤ
  deriving DecidableEq

def StreamRow.key (r : StreamRow) : Watermark ×ₗ ℕ := toLex (r.watermark, r.pos)

abbrev StreamTable := KeyedTable StreamRow.key

def integerBytes : ℕ := 8

def estimateChangeLogStreamRowBytes (watermark : Watermark) (tag : ChangeTag) (change : String)
    (precommit : Option Watermark) (hasWriteTime : Bool) : ℕ :=
  watermark.text.utf8ByteSize + integerBytes + tag.text.utf8ByteSize + change.utf8ByteSize +
    (precommit.map (·.text.utf8ByteSize)).getD 0 + if hasWriteTime then integerBytes else 0

structure ChangeLogIdentity where
  epoch : Option String
  generation : String
  replicaID : Option String
  deriving DecidableEq

structure ChangeLogResumePoint (J : Type) where
  resumeWatermark : Watermark
  cookies : CookieSet J

structure ChangeLogAnchor (J : Type) extends ChangeLogResumePoint J where
  identity : ChangeLogIdentity
  nowMs : ℤ

/-- The row of `_zero.changeLogMeta`. -/
structure ChangeLogMeta extends ChangeLogIdentity where
  schemaVersion : ℕ
  seededAtMs : ℤ
  seedWatermark : Watermark

def metadataKey (c : TableMetadataCookie J) : String ×ₗ String := toLex (c.table.schema, c.table.name)

def backfillKey (c : BackfillCookie J) : String ×ₗ String ×ₗ String :=
  toLex (c.table.schema, toLex (c.table.name, c.column))

abbrev MetadataTable (J : Type) := KeyedTable (metadataKey (J := J))

abbrev BackfillingTable (J : Type) := KeyedTable (backfillKey (J := J))

structure Database (J : Type) where
  stream : Option StreamTable
  metaRow : Option (Option ChangeLogMeta)
  tableMetadata : Option (MetadataTable J)
  backfilling : Option (BackfillingTable J)

/-- A new file. -/
def Database.empty : Database J := ⟨none, none, none, none⟩

/-- The exceptions of SQLite. -/
inductive SqlError
  | noSuchTable
  | constraint
  | nestedTransaction
  /-- The limits of a table, of the disk, and of what can go wrong with a file. -/
  | io
  deriving DecidableEq

/-! ## Cookies -/

/-- The tables of the cookies. -/
structure CookieTables (J : Type) where
  tableMetadata : MetadataTable J
  backfilling : BackfillingTable J

namespace CookieTables

/-- `ChangeLogCookieWriter.#run` -/
def run (t : CookieTables J) : CookieOp J → Option (CookieTables J)
  | .upsertMetadata table metadata => some { t with tableMetadata := t.tableMetadata.upsert ⟨table, metadata⟩ }
  | .upsertBackfill table column backfill =>
    some { t with backfilling := t.backfilling.upsert ⟨table, column, backfill⟩ }
  | .renameTable old new => do
    let tableMetadata ← t.tableMetadata.update? (fun c => c.table = old) fun c => { c with table := new }
    let backfilling ← t.backfilling.update? (fun c => c.table = old) fun c => { c with table := new }
    some ⟨tableMetadata, backfilling⟩
  | .dropTable table =>
    some ⟨t.tableMetadata.deleteWhere fun c => c.table = table, t.backfilling.deleteWhere fun c => c.table = table⟩
  | .renameColumn table old new => do
    let backfilling ← t.backfilling.update? (fun c => c.table = table ∧ c.column = old) fun c => { c with column := new }
    some { t with backfilling }
  | .dropColumn table column =>
    some { t with backfilling := t.backfilling.deleteWhere fun c => c.table = table ∧ c.column = column }
  | .completeBackfill table columns =>
    some { t with
      backfilling :=
        columns.foldl (fun b column => b.deleteWhere fun c => c.table = table ∧ c.column = column) t.backfilling }

/-- `ChangeLogCookieWriter.apply`; a change that is no schema change has no ops. -/
def apply (t : CookieTables J) (change : Backfills.DataChange J) : Option (CookieTables J) :=
  (cookieOps change).foldlM run t

/-- `replaceCookies` -/
def replace (cookies : CookieSet J) : Option (CookieTables J) := do
  let tableMetadata ← KeyedTable.ofRows? cookies.tableMetadata
  let backfilling ← KeyedTable.ofRows? cookies.backfilling
  some ⟨tableMetadata, backfilling⟩

/-- `readCookies` -/
def cookies (t : CookieTables J) : CookieSet J := ⟨t.tableMetadata.rows, t.backfilling.rows⟩

end CookieTables

/-- Statements on the tables of the cookies. -/
def Database.withCookies (db : Database J) (f : CookieTables J → Option (CookieTables J)) :
    Except SqlError (Database J) :=
  match db.tableMetadata, db.backfilling with
  | some tableMetadata, some backfilling =>
    match f ⟨tableMetadata, backfilling⟩ with
    | some t => .ok { db with tableMetadata := some t.tableMetadata, backfilling := some t.backfilling }
    | none => .error .constraint
  | _, _ => .error .noSuchTable

/-! ## Reconciliation -/

inductive ReseedReason
  | created
  | schemaMismatch
  | identityMismatch
  | gap
  | oversizedTruncate
  deriving DecidableEq

def maxReconcileTruncateRows : ℕ := 10000

def maxReconcileTruncateBytes : ℕ := 16 * 1024 * 1024

structure ChangeLogRebuildRequired where
  reason : ReseedReason
  rows : Option ℕ := none
  estimatedBytes : Option ℕ := none
  deriving DecidableEq

inductive ReconcileResult
  | none (head : Watermark)
  | truncated (head : Watermark) (rows : ℕ)
  | reseeded (head : Watermark) (reason : ReseedReason)
  deriving DecidableEq

def ReconcileResult.head : ReconcileResult → Watermark
  | none head | truncated head _ | reseeded head _ => head

inductive ReconcileError
  | rebuildRequired (required : ChangeLogRebuildRequired)
  | sql (e : SqlError)
  deriving DecidableEq

/-- `changeLogWipeReason` -/
def changeLogWipeReason (db : Database J) (identity : ChangeLogIdentity) : Option ReseedReason :=
  match db.stream, db.metaRow with
  | some _, some (some row) =>
    if row.schemaVersion ≠ changeLogDBSchemaVersion then some .schemaMismatch
    else if db.tableMetadata.isNone || db.backfilling.isNone then some .created
    else if row.toChangeLogIdentity ≠ identity then some .identityMismatch
    else none
  | _, _ => some .created

/-- `readChangeLogHead` -/
def readChangeLogHead (t : StreamTable) : Option Watermark := (t.rows.map (·.watermark)).max?

def readMinWatermark (t : StreamTable) : Option Watermark := (t.rows.map (·.watermark)).min?

/-- `rebuildRequired` -/
def rebuildRequired (db : Database J) (anchor : ChangeLogAnchor J) : Except SqlError (Option ChangeLogRebuildRequired) :=
  match changeLogWipeReason db anchor.identity with
  | some wipe => .ok (some ⟨wipe, none, none⟩)
  | none =>
    match db.stream with
    | none => .error .noSuchTable
    | some t =>
      match readChangeLogHead t with
      | none => .ok (some ⟨.gap, none, none⟩)
      | some head =>
        if head < anchor.resumeWatermark then .ok (some ⟨.gap, none, none⟩)
        else if head = anchor.resumeWatermark then .ok none
        else if t.rows.all (·.watermark ≠ anchor.resumeWatermark) then .ok (some ⟨.gap, none, none⟩)
        else
          let above := (t.rows.filter (anchor.resumeWatermark < ·.watermark)).take (maxReconcileTruncateRows + 1)
          let estimatedBytes := (above.map (·.estimatedBytes)).sum
          if maxReconcileTruncateRows < above.length ∨ maxReconcileTruncateBytes < estimatedBytes then
            .ok (some ⟨.oversizedTruncate, some above.length, some estimatedBytes⟩)
          else .ok none

/-- The row of a message. -/
def streamRow (watermark : Watermark) (pos : ℕ) (tag : ChangeTag) (change : String) : StreamRow where
  watermark
  pos
  tag
  estimatedBytes := estimateChangeLogStreamRowBytes watermark tag change none false
  change
  precommit := none
  writeTimeMs := none

/-- The row of a `commit`. -/
def commitRow (watermark : Watermark) (pos : ℕ) (change : String) (writeTimeMs : ℤ) : StreamRow where
  watermark
  pos
  tag := .commit
  estimatedBytes := estimateChangeLogStreamRowBytes watermark .commit change (some watermark) true
  change
  precommit := some watermark
  writeTimeMs := some writeTimeMs

/-- `seedChangeLogStream`; a row that is there already stays. -/
def seedChangeLogStream (t : StreamTable) (anchor : ChangeLogAnchor J) : StreamTable :=
  let insert (t : StreamTable) (r : StreamRow) := (t.insert? r).getD t
  insert (insert t (streamRow anchor.resumeWatermark 0 .begin "\x7b\"tag\":\"begin\"\x7d"))
    (commitRow anchor.resumeWatermark 1 "\x7b\"tag\":\"commit\"\x7d" anchor.nowMs)

/-- `reseed`; every table is dropped and created. -/
def reseed (anchor : ChangeLogAnchor J) (reason : ReseedReason) : Except SqlError (Database J × ReconcileResult) :=
  let created : Database J :=
    { stream := some (seedChangeLogStream .empty anchor)
      metaRow := some (some
        { toChangeLogIdentity := anchor.identity
          schemaVersion := changeLogDBSchemaVersion
          seededAtMs := anchor.nowMs
          seedWatermark := anchor.resumeWatermark })
      tableMetadata := some .empty
      backfilling := some .empty }
  (created.withCookies fun _ => CookieTables.replace anchor.cookies).map fun db =>
    (db, .reseeded anchor.resumeWatermark reason)

/-- `reconcile` -/
def reconcile (db : Database J) (anchor : ChangeLogAnchor J) : Except SqlError (Database J × ReconcileResult) :=
  match changeLogWipeReason db anchor.identity with
  | some wipe => reseed anchor wipe
  | none =>
    match db.stream with
    | none => .error .noSuchTable
    | some t =>
      let truncates := (readChangeLogHead t).any (anchor.resumeWatermark < ·)
      let t' := if truncates then t.deleteWhere (anchor.resumeWatermark < ·.watermark) else t
      let rows := t.rows.length - t'.rows.length
      if readChangeLogHead t' ≠ some anchor.resumeWatermark then reseed anchor .gap
      else if 0 < rows then
        ({ db with stream := some t' }.withCookies fun _ => CookieTables.replace anchor.cookies).map fun db =>
          (db, .truncated anchor.resumeWatermark rows)
      else .ok ({ db with stream := some t' }, .none anchor.resumeWatermark)

structure ReconcileOptions where
  rebuildInsteadOfUnboundedWork : Bool := false
  reseedReason : Option ReseedReason := none

/-- `reconcileChangeLog`: one transaction, which an exception rolls back. -/
def reconcileChangeLog (db : Database J) (anchor : ChangeLogAnchor J) (opts : ReconcileOptions) :
    Except ReconcileError (Database J × ReconcileResult) := do
  if opts.rebuildInsteadOfUnboundedWork then
    match rebuildRequired db anchor with
    | .error e => throw (.sql e)
    | .ok (some required) => throw (.rebuildRequired required)
    | .ok none => pure ()
  match opts.reseedReason with
  | some reason => (reseed anchor reason).mapError .sql
  | none => (reconcile db anchor).mapError .sql

end ZeroSync.ChangeLogDB
