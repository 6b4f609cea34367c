/-
`zero-cache/src/services/change-streamer/storer.ts`: `#catchup` of a subscriber from
the change log, and `purgeRecordsBefore`; and the first entries of the log, by
`ensureReplicationConfig` of `schema/tables.ts`.

A catchup reads one snapshot. Its rows come in batches, and a batch waits for the one
before it to be consumed, which changes nothing of what is sent. What is left out is the
error that a read may throw.
-/
import ZeroSync.Storer
import Mathlib.Data.String.Basic

namespace ZeroSync

/-- The tables `changeLog` and `replicationState` of the change db. -/
structure ChangeDB where
  changeLog : List ChangeLogRow
  lastWatermark : String

/-- A transaction of the stream, as the storer writes it. -/
structure CommittedTx where
  watermark : String
  changes : List String
  precommit : Option String
  nonempty : changes ≠ []

namespace CommittedTx

/-- The rows of a transaction; `precommit` is of the last. -/
def rows (tx : CommittedTx) : List ChangeLogRow :=
  tx.changes.zipIdx.map fun (change, pos) =>
    { watermark := tx.watermark, precommit := if pos + 1 = tx.changes.length then tx.precommit else none, pos, change }

/-- `initialTx` -/
def initial (replicaVersion : String) : CommittedTx where
  watermark := replicaVersion
  changes := ["\x7b\"tag\":\"begin\"\x7d", "\x7b\"tag\":\"commit\"\x7d"]
  precommit := none
  nonempty := List.cons_ne_nil _ _

end CommittedTx

inductive CatchupErrorType
  | unknown
  | wrongReplicaVersion
  | watermarkTooOld
  | streamTooFarBehind
  deriving DecidableEq

/-- How a catchup ends. -/
inductive CatchupEnd
  | caughtUp
  | closed (error : CatchupErrorType) (message : String)
  /-- The change db is marked for a reset, and the subscriber fails. -/
  | autoReset (message : String)
  deriving DecidableEq

namespace ChangeDB

/-- `ensureReplicationConfig` of empty tables. -/
def ensureReplicationConfig (replicaVersion : String) : ChangeDB where
  changeLog := (CommittedTx.initial replicaVersion).rows
  lastWatermark := replicaVersion

def commit (db : ChangeDB) (tx : CommittedTx) : ChangeDB :=
  { changeLog := db.changeLog ++ tx.rows, lastWatermark := tx.watermark }

/-- `SELECT max(watermark)` -/
def keep (db : ChangeDB) : Option String := (db.changeLog.map (·.watermark)).max?

def purgeRecordsBefore (db : ChangeDB) (watermark : String) : ChangeDB :=
  { db with changeLog := db.changeLog.filter fun row => !(row.watermark < watermark ∧ db.keep.any (row.watermark < ·)) }

/-- `ORDER BY watermark, pos` -/
def rowLE (a b : ChangeLogRow) : Bool := a.watermark < b.watermark ∨ (a.watermark = b.watermark ∧ a.pos ≤ b.pos)

/-- The query of a catchup. -/
def catchupEntries (db : ChangeDB) (watermark : String) : List ChangeLogRow :=
  (db.changeLog.filter fun row => watermark ≤ row.watermark ∧ row.watermark ≤ db.lastWatermark).mergeSort rowLE

end ChangeDB

/-- The loop of `#catchup`: what is sent to the subscriber, and how it ends. -/
def catchupLoop (sub : SubscriberAndMode) : Bool → List ChangeLogRow → List ChangeLogRow × CatchupEnd
  | _, [] => ([], .caughtUp)
  | watermarkFound, entry :: entries =>
    if entry.watermark = sub.watermark then catchupLoop sub true entries
    else if watermarkFound then
      let (sent, ended) := catchupLoop sub true entries
      (entry :: sent, ended)
    else
      match sub.mode with
      | .backup =>
        ([], .autoReset
          ("backup replica at watermark " ++ sub.watermark ++ " is behind change db: " ++ entry.watermark ++ ")"))
      | .serving =>
        ([], .closed .watermarkTooOld
          ("earliest supported watermark is " ++ entry.watermark ++ " (requested " ++ sub.watermark ++ ")"))

/-- `#catchup` -/
def ChangeDB.catchup (db : ChangeDB) (replicaVersion : String) (sub : SubscriberAndMode) :
    List ChangeLogRow × CatchupEnd :=
  catchupLoop sub (sub.watermark = replicaVersion) (db.catchupEntries sub.watermark)

/-! ## Runs -/

inductive ChangeDBEvent
  | commit (tx : CommittedTx)
  | purge (watermark : String)

namespace ChangeDB

def step (db : ChangeDB) : ChangeDBEvent → ChangeDB
  | .commit tx => db.commit tx
  | .purge watermark => db.purgeRecordsBefore watermark

def run (replicaVersion : String) (events : List ChangeDBEvent) : ChangeDB :=
  events.foldl step (ensureReplicationConfig replicaVersion)

end ChangeDB

/-- The transactions that events commit. -/
def committedBy (events : List ChangeDBEvent) : List CommittedTx :=
  events.filterMap fun
    | .commit tx => some tx
    | .purge _ => none

end ZeroSync
