/-
`change-source/common/change-stream-multiplexer.ts`, and `#runBackfill` of
`change-source/common/backfill-manager.ts` over it.

What runs between two `await`s is one step: a call of `#runBackfill` goes from
one `Point` to the next, on what its stream yields or when its promise has been
resolved. The replication stream is the other producer; it pushes whole
transactions at majors above all that it has announced.
-/
import ZeroSync.BackfillManager
import Mathlib

namespace ZeroSync.Backfills

variable {J : Type} [DecidableEq J]

inductive Producer
  | replication
  | backfill (i : ℕ)
  deriving DecidableEq

/-- A `ChangeStreamMultiplexer`, with what it has pushed to its subscription. -/
structure Multiplexer (J : Type) where
  lastWatermark : Option Watermark
  waiters : List Producer := []
  pushed : List (Message J) := []

namespace Multiplexer

/-- `reserve`; `none` is a promise. -/
def reserve (c : Multiplexer J) (producer : Producer) : Multiplexer J × Option Watermark :=
  match c.lastWatermark with
  | some lastWatermark => ({ c with lastWatermark := none }, some lastWatermark)
  | none => ({ c with waiters := c.waiters ++ [producer] }, none)

/-- `release`, with the waiter that it grants the reservation. -/
def release (c : Multiplexer J) (newWatermark : Watermark) : Multiplexer J × Option Producer :=
  match c.waiters with
  | [] => ({ c with lastWatermark := some newWatermark }, none)
  | waiter :: waiters => ({ c with waiters }, some waiter)

/-- `waiterDelay() > 0`; `delayed` says whether the clock has moved since the first waiter came. -/
def waiterDelayed (c : Multiplexer J) (delayed : Bool) : Bool := !c.waiters.isEmpty && delayed

end Multiplexer

/-- Where the loop of the replication stream is. -/
inductive MainPoint
  | idle
  | reserving (granted : Option Watermark)
  /-- Between transactions, `lastWatermark` being the last committed. -/
  | reserved (lastWatermark : Watermark)
  | inTransaction (watermark : Watermark)
  /-- `changes.fail` -/
  | failed (e : String)
  deriving DecidableEq

/-- The multiplexer with its producers; `announced` is the greatest major the replication stream has announced. -/
structure System (J : Type) where
  changes : Multiplexer J
  manager : Manager J
  main : MainPoint
  announced : ℕ

/-- `minor + 1n`, where no minor is `0n`. -/
def nextMinor (w : Watermark) : Watermark := .of w.major ((w.minor.unbotD 0 + 1 : ℕ) : WithBot ℕ)

/-- The watermark of the transaction that `beginTxFor` begins. -/
def txFor (lastWatermark : Watermark) (msg : BackfillMessage J) : Watermark :=
  let tx := nextMinor lastWatermark
  match msg with
  | .backfill .. => tx
  | .completed _ _ watermark => if tx < watermark then watermark else tx

def BackfillMessage.isCompleted : BackfillMessage J → Bool
  | .backfill .. => false
  | .completed .. => true

/-- `state.canceledReason`, as a condition. -/
def Backfill.isCanceled (b : Backfill J) : Bool := b.canceledReason.any (· ≠ "")

/-- Whether the message is older than a change of a row's key. -/
def Backfill.predates (b : Backfill J) : BackfillMessage J → Bool
  | .backfill _ _ watermark _ => b.minWatermark.any (watermark < ·)
  | .completed .. => false

/-- Rows that are not identified by a key. -/
def BackfillMessage.missesRowKey : BackfillMessage J → Bool
  | .backfill relation _ _ rowValues => !rowValues.isEmpty && relation.rowKeyColumns.isEmpty
  | .completed .. => false

/-- `String(new MissingRowKeyError(bf))` -/
def missingRowKeyError (bf : BackfillRequest J) : String :=
  let columns := String.intercalate "," bf.columns.keys
  s!"MissingRowKeyError: Cannot backfill {bf.table.schema}.{bf.table.name}[{columns}]: \"{bf.table.name}\" is missing a PRIMARY KEY"

namespace System

def onManager (s : System J) (f : Manager J → Manager J) : System J := { s with manager := f s.manager }

def modify (s : System J) (i : ℕ) (f : Backfill J → Backfill J) : System J := s.onManager fun m => m.modify i f

/-- Lets a backfill come to its next `await` or to its end. -/
def goTo (s : System J) (i : ℕ) (point : Point J) : System J := s.modify i fun b => { b with point }

def setTx (s : System J) (i : ℕ) (backfillTx : Option Watermark) : System J := s.modify i fun b => { b with backfillTx }

/-- What follows a call that may throw, in `#runBackfill`. -/
def orThrow (s : System J) (i : ℕ) (result : Except String (System J)) (next : System J → System J) : System J :=
  match result with
  | .error e => s.goTo i (.threw e)
  | .ok s => next s

/-- `push`. -/
def push (s : System J) (pick : ℕ) (msg : Message J) : Except String (System J) :=
  if s.changes.lastWatermark.isSome then .error "push() called without reserve()-ing the stream"
  else
    match s.manager.onChange pick msg with
    | .error e => .error e
    | .ok manager => .ok { s with manager, changes.pushed := s.changes.pushed ++ [msg] }

/-- `grantReservation`. -/
def grant (s : System J) (producer : Producer) (watermark : Watermark) : System J :=
  match producer with
  | .replication => { s with main := .reserving (some watermark) }
  | .backfill i =>
    s.modify i fun b =>
      match b.point with
      | .reserving msg _ => { b with point := .reserving msg (some watermark) }
      | _ => b

def release (s : System J) (newWatermark : Watermark) : System J :=
  match s.changes.release newWatermark with
  | (changes, none) => { s with changes }
  | (changes, some waiter) => { s with changes }.grant waiter newWatermark

/-! ### `#runBackfill` -/

/-- `commitTx`, in a transaction. -/
def commitTx (s : System J) (i pick : ℕ) (backfillTx : Watermark) : Except String (System J) :=
  match s.push pick (.commit backfillTx) with
  | .error e => .error e
  | .ok s => .ok ((s.release backfillTx).setTx i none)

/-- From the push of the message to the next one. -/
def pushData (s : System J) (i pick : ℕ) (msg : BackfillMessage J) : System J :=
  s.orThrow i (s.push pick (.data (.backfill msg))) fun s => s.goTo i .streaming

/-- `beginTxFor` from the grant of its reservation. -/
def beginTxFor (s : System J) (i pick : ℕ) (b : Backfill J) (msg : BackfillMessage J) (lastWatermark : Watermark) :
    System J :=
  if b.isCanceled || b.predates msg then
    -- the reason in the source also names the two watermarks
    let s := if b.canceledReason.isNone then
        s.onManager fun m => m.stopRunningBackfill (some "row key change postdates backfill watermark") (some i)
      else s
    ((s.release lastWatermark).onManager fun m => m.checkAndStartBackfill pick).goTo i .returned
  else
    let tx := txFor lastWatermark msg
    s.orThrow i (s.push pick (.begin tx)) fun s => (s.setTx i (some tx)).pushData i pick msg

/-- From the end of `await mustWaitBeforeFlush`, or where there is none. -/
def afterWait (s : System J) (i pick : ℕ) (b : Backfill J) (backfillTx : Option Watermark) (msg : BackfillMessage J) :
    System J :=
  if msg.missesRowKey then s.goTo i (.threw (missingRowKeyError b.request))
  else
    match backfillTx with
    | some _ => s.pushData i pick msg
    | none =>
      match s.changes.reserve (.backfill i) with
      | (changes, granted) => { s with changes }.goTo i (.reserving msg granted)

/-- `mustWaitBeforeFlush`. -/
def mustWait (s : System J) (b : Backfill J) (msg : BackfillMessage J) : Bool :=
  msg.isCompleted && (s.manager.isBehind msg.watermark || b.backfillTx.any (· < msg.watermark))

/-- Whether the transaction is committed before the message is sent. -/
def yieldsReservation (s : System J) (b : Backfill J) (msg : BackfillMessage J) (delayed : Bool) : Bool :=
  s.changes.waiterDelayed delayed || s.mustWait b msg

/-- A turn of the loop of `#runBackfill`. -/
def onMessage (s : System J) (i pick : ℕ) (delayed : Bool) (b : Backfill J) (msg : BackfillMessage J) : System J :=
  let waits := s.mustWait b msg
  let yields := s.yieldsReservation b msg delayed
  let s := if waits then s.goTo i (.waiting msg (!s.manager.isBehind msg.watermark)) else s
  let next (backfillTx : Option Watermark) (s : System J) := if waits then s else s.afterWait i pick b backfillTx msg
  match b.backfillTx with
  | none => next none s
  | some tx => if yields then s.orThrow i (s.commitTx i pick tx) (next none) else next (some tx) s

/-- The end of the loop of `#runBackfill`. -/
def onEnd (s : System J) (i pick : ℕ) (b : Backfill J) : System J :=
  match b.backfillTx with
  | none => s.goTo i .returned
  | some tx => s.orThrow i (s.commitTx i pick tx) fun s => s.goTo i .returned

/-- A backfill goes on from a promise that has been resolved. -/
def resume (s : System J) (i pick : ℕ) (b : Backfill J) : System J :=
  match b.point with
  | .waiting msg true => s.afterWait i pick b b.backfillTx msg
  | .reserving msg (some lastWatermark) => s.beginTxFor i pick b msg lastWatermark
  | _ => s

/-! ### The replication stream -/

def mainReserve (s : System J) : System J :=
  match s.changes.reserve .replication with
  | (changes, some lastWatermark) => { s with changes, main := .reserved lastWatermark }
  | (changes, none) => { s with changes, main := .reserving none }

/-- A message of the replication stream, and where it goes on from. -/
def mainPush (s : System J) (pick : ℕ) (msg : Message J) (next : MainPoint) : System J :=
  match s.push pick msg with
  | .error e => { s with main := .failed e }
  | .ok s => { s with main := next }

/-- `pushStatus`, which passes on what is to be acknowledged and lag reports. -/
def pushStatus (s : System J) (pick : ℕ) (watermark : Watermark) (passedOn : Bool) : System J :=
  match s.manager.onChange pick (.status watermark) with
  | .error e => { s with main := .failed e }
  | .ok manager =>
    { s with
      manager
      changes.pushed := if passedOn then s.changes.pushed ++ [.status watermark] else s.changes.pushed }

end System

/-- What may happen next. -/
inductive Event (J : Type)
  /-- The stream of a backfill yields a message. -/
  | yields (i : ℕ) (msg : BackfillMessage J) (delayed : Bool) (pick : ℕ)
  | ends (i pick : ℕ)
  | throws (i : ℕ) (e : String)
  | resumes (i pick : ℕ)
  | settles (i : ℕ)
  | retries (pick : ℕ)
  | cancels
  | mainReserves
  | mainResumes
  | mainBegins (major pick : ℕ)
  | mainChanges (change : SourceChange J) (pick : ℕ)
  | mainCommits (pick : ℕ)
  | mainReleases
  | mainStatus (major : ℕ) (passedOn : Bool) (pick : ℕ)

namespace System

/-- A step of a backfill, if there is one of that name. -/
def onBackfill (s : System J) (i : ℕ) (f : Backfill J → System J) : System J :=
  match s.manager.backfills[i]? with
  | none => s
  | some b => f b

def step (s : System J) : Event J → System J
  | .yields i msg delayed pick => s.onBackfill i fun b => s.onMessage i pick delayed b msg
  | .ends i pick => s.onBackfill i fun b => s.onEnd i pick b
  | .throws i e => s.goTo i (.threw e)
  | .resumes i pick => s.onBackfill i fun b => s.resume i pick b
  | .settles i => s.onManager fun m => m.settle i
  | .retries pick => s.onManager fun m => m.retry pick
  | .cancels => s.onManager fun m => m.cancel
  | .mainReserves => s.mainReserve
  | .mainResumes =>
    match s.main with
    | .reserving (some lastWatermark) => { s with main := .reserved lastWatermark }
    | _ => s
  | .mainBegins major pick =>
    { s with announced := max s.announced major }.mainPush pick (.begin (.of major ⊥)) (.inTransaction (.of major ⊥))
  | .mainChanges change pick => s.mainPush pick (.data (.source change)) s.main
  | .mainCommits pick =>
    match s.main with
    | .inTransaction watermark => s.mainPush pick (.commit watermark) (.reserved watermark)
    | _ => s
  | .mainReleases =>
    match s.main with
    | .reserved lastWatermark => { s with main := .idle }.release lastWatermark
    | _ => s
  | .mainStatus major passedOn pick =>
    { s with announced := max s.announced major }.pushStatus pick (.of major ⊥) passedOn

/-- Where a backfill is. -/
def pointOf (s : System J) (i : ℕ) : Option (Point J) := s.manager.backfills[i]?.map Backfill.point

/-- Whether an event may happen: a call goes on from where it is, and the
replication stream pushes whole transactions, above all it has announced. -/
def Possible (s : System J) : Event J → Prop
  | .yields i .. | .ends i _ | .throws i _ => s.pointOf i = some .streaming
  | .resumes i _ =>
    ∃ msg, s.pointOf i = some (.waiting msg true) ∨ ∃ w, s.pointOf i = some (.reserving msg (some w))
  | .settles i => s.pointOf i = some .returned ∨ ∃ e, s.pointOf i = some (.threw e)
  | .retries _ => 0 < s.manager.timers
  | .cancels => True
  | .mainReserves => s.main = .idle
  | .mainResumes => ∃ w, s.main = .reserving (some w)
  | .mainBegins major _ => (∃ w, s.main = .reserved w) ∧ s.announced < major
  | .mainChanges .. => ∃ w, s.main = .inTransaction w
  | .mainCommits _ => ∃ w, s.main = .inTransaction w
  | .mainReleases => ∃ w, s.main = .reserved w
  | .mainStatus .. => True

/-- A stream at `lastWatermark`, with the backfills that are required there. -/
def start (lastWatermark : Watermark) (initialRequests : List (BackfillRequest J)) (pick : ℕ) : System J where
  changes := { lastWatermark := some lastWatermark }
  manager := .run lastWatermark initialRequests pick
  main := .idle
  announced := lastWatermark.major

end System

end ZeroSync.Backfills
