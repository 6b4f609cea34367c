/-
`zero-cache/src/services/change-streamer/storer.ts`: the queue of the storer and
the loop that takes entries from it.

A step is a call of the storer, or one turn of the loop: it takes an entry and
goes on until it waits for the next one. What the database does then is an
outcome of the step: a transaction, or the read that starts a catchup, may fail.
Back pressure, the metadata of backfills and the catchup itself are left out.
-/
import Mathlib.Data.List.Basic

namespace ZeroSync

/-- `ReplicatorMode`. -/
inductive ReplicatorMode
  | backup
  | serving
  deriving DecidableEq

/-- `SubscriberAndMode`. -/
structure SubscriberAndMode where
  id : String
  watermark : String
  mode : ReplicatorMode
  deriving DecidableEq

/-- The changes that the queue keeps: those that are no data changes. -/
inductive StoredChange
  | begin (skipAck : Bool)
  | commit
  | rollback
  | schemaChange
  deriving DecidableEq

/-- `QueueEntry`. -/
inductive QueueEntry
  | change (watermark : String) (json : String) (orig : Option StoredChange)
  | ready
  | subscriber (subscriber : SubscriberAndMode)
  | abort
  | stop
  deriving DecidableEq

/-- `ChangeLogRow`. -/
structure ChangeLogRow where
  watermark : String
  precommit : Option String
  pos : ℕ
  change : String
  deriving DecidableEq

/-- `PendingTransaction`, with the rows that are flushed to its pool. -/
structure PendingTransaction where
  preCommitWatermark : String
  pos : ℕ
  ack : Bool
  batch : List ChangeLogRow
  flushed : List ChangeLogRow
  deriving DecidableEq

/-- The storer, with the variables of `#processQueue` while it runs, the tables
of the change db, and what has become of the subscribers. -/
structure Storer where
  queue : List QueueEntry
  running : Bool
  tx : Option PendingTransaction
  catchupQueue : List SubscriberAndMode
  changeLog : List ChangeLogRow
  lastWatermark : String
  committed : List String
  started : List (SubscriberAndMode × String)
  failed : List SubscriberAndMode

/-- What the database does in a turn of the loop. -/
inductive StorerOutcome
  | succeeds
  | txFails
  | readFails
  deriving DecidableEq

/-- `substring`. -/
def substring (s : List Char) (start stop : ℕ) : List Char := (s.drop (min start stop)).take (max start stop - min start stop)

/-- `extractChangeSubstring`. -/
def extractChangeSubstring (streamMessageJSON : String) (change : Option StoredChange) : String :=
  let s := streamMessageJSON.toList
  let start := ((s.idxOf? ',').map (· + 1)).getD 0
  let lastIndexOf (c : Char) := ((s.reverse.idxOf? c).map (s.length - 1 - ·)).getD 0
  match change with
  | some (.begin _) | some .commit => String.ofList (substring s start (lastIndexOf ','))
  | _ => String.ofList (substring s start (lastIndexOf ']'))

/-- `#flushChangeLog`. -/
def PendingTransaction.flushChangeLog (tx : PendingTransaction) : PendingTransaction :=
  { tx with batch := [], flushed := tx.flushed ++ tx.batch }

/-- A change in its transaction; none when an assertion fails. -/
def PendingTransaction.next (tx : Option PendingTransaction) (watermark : String) (change : Option StoredChange) :
    Option PendingTransaction :=
  match change, tx with
  | some (.begin skipAck), none => some ⟨watermark, 0, !skipAck, [], []⟩
  | some (.begin _), some _ => none
  | _, some tx => some { tx with pos := tx.pos + 1 }
  | _, none => none

/-- The row of a change, buffered or flushed. -/
def PendingTransaction.add (changeLogBatchSize : ℕ) (tx : PendingTransaction) (watermark json : String)
    (change : Option StoredChange) : PendingTransaction :=
  let entry : ChangeLogRow :=
    { watermark := if change = some .commit then watermark else tx.preCommitWatermark
      precommit := if change = some .commit then some tx.preCommitWatermark else none
      pos := tx.pos
      change := extractChangeSubstring json change }
  if change = some .schemaChange then
    let tx := tx.flushChangeLog
    { tx with flushed := tx.flushed ++ [entry] }
  else
    let tx := { tx with batch := tx.batch ++ [entry] }
    if tx.batch.length ≥ changeLogBatchSize then tx.flushChangeLog else tx

namespace Storer

/-- The subscribers that wait in the queue. -/
def waiting (queue : List QueueEntry) : List SubscriberAndMode :=
  queue.filterMap fun
    | .subscriber subscriber => some subscriber
    | _ => none

/-- `#startCatchup`: the read fixes the watermark up to which the subscribers are
caught up. The error is the storer when it throws. -/
def startCatchup (s : Storer) (subs : List SubscriberAndMode) (outcome : StorerOutcome) : Except Storer Storer :=
  if subs.isEmpty then .ok s
  else if outcome = .readFails then .error { s with failed := s.failed ++ subs }
  else .ok { s with started := s.started ++ subs.map (·, s.lastWatermark) }

/-- The end of a transaction, and the catchup of the subscribers that waited for it. -/
def endTransaction (s : Storer) (outcome : StorerOutcome) : Except Storer Storer :=
  ({ s with tx := none, catchupQueue := [] }).startCatchup s.catchupQueue outcome

/-- A turn of the loop for a change; `none` is a data change. -/
def processChange (changeLogBatchSize : ℕ) (s : Storer) (watermark json : String) (change : Option StoredChange)
    (outcome : StorerOutcome) : Except Storer Storer :=
  match PendingTransaction.next s.tx watermark change with
  | none => .error s
  | some tx =>
    if outcome = .txFails then .error s
    else
      let tx := tx.add changeLogBatchSize watermark json change
      match change with
      | some .commit =>
        endTransaction
          { s with
            changeLog := s.changeLog ++ tx.flushChangeLog.flushed
            lastWatermark := watermark
            committed := if tx.ack then s.committed ++ [watermark] else s.committed }
          outcome
      | some .rollback => s.endTransaction outcome
      | _ => .ok { s with tx := some tx }

/-- A turn of the loop for an entry other than `stop`. -/
def processEntry (changeLogBatchSize : ℕ) (s : Storer) (entry : QueueEntry) (outcome : StorerOutcome) :
    Except Storer Storer :=
  match entry with
  | .ready | .stop => .ok s
  | .subscriber subscriber =>
    match s.tx with
    | some _ => .ok { s with catchupQueue := s.catchupQueue ++ [subscriber] }
    | none => s.startCatchup [subscriber] outcome
  | .abort =>
    match s.tx with
    | some _ => if outcome = .txFails then .error s else .ok { s with tx := none }
    | none => .ok s
  | .change watermark json orig => s.processChange changeLogBatchSize watermark json orig outcome

/-- The `catch` of `#processQueue`. -/
def failCatchupQueue (s : Storer) : Storer := { s with failed := s.failed ++ s.catchupQueue }

/-- The `finally` of `run`, with `#cancelQueueEntries`; the variables of `#processQueue` are gone. -/
def finish (s : Storer) : Storer :=
  { s with queue := [], running := false, tx := none, catchupQueue := [], failed := s.failed ++ waiting s.queue }

/-- A turn of the loop. -/
def process (changeLogBatchSize : ℕ) (s : Storer) (outcome : StorerOutcome) : Storer :=
  match s.queue with
  | [] => s
  | .stop :: queue => finish { s with queue := queue }
  | entry :: queue =>
    match processEntry changeLogBatchSize { s with queue := queue } entry outcome with
    | .ok s => s
    | .error s => s.failCatchupQueue.finish

end Storer

/-- A call of the storer, or a turn of its loop. -/
inductive StorerCall
  | store (watermark : String) (json : String) (orig : Option StoredChange)
  | abort
  | catchup (subscriber : SubscriberAndMode)
  | allProcessed
  | stop
  | run
  | process (outcome : StorerOutcome)

namespace Storer

/-- What a call does; none when it cannot be made. -/
def call (changeLogBatchSize : ℕ) (s : Storer) : StorerCall → Option Storer
  | .store watermark json orig => some { s with queue := s.queue ++ [.change watermark json orig] }
  | .abort => some { s with queue := s.queue ++ [.abort] }
  | .catchup subscriber => some { s with queue := s.queue ++ [.subscriber subscriber] }
  | .allProcessed => some (if s.running then { s with queue := s.queue ++ [.ready] } else s)
  | .stop => some (if s.running then { s with queue := s.queue ++ [.abort, .stop] } else s)
  | .run => if s.running then none else some { s with running := true, tx := none, catchupQueue := [] }
  | .process outcome => if s.running then some (s.process changeLogBatchSize outcome) else none

end Storer

end ZeroSync
