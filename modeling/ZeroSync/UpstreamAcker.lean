/-
`change-streamer/upstream-acker.ts`: which watermarks are acked upstream.

Watermarks are only compared, so they are the elements of any linear order
with a least one, which is the empty string. `AckerRun` runs an acker against
an upstream log, each connection streaming the transactions after a watermark.
-/
import Mathlib.Order.BoundedOrder.Basic
import Mathlib.Order.Lattice

namespace ZeroSync

variable {W : Type} [LinearOrder W] [OrderBot W]

/-- `UpstreamAcker`; `upstream` says whether there is one. -/
structure UpstreamAcker (W : Type) where
  trackPgChangeLog : Bool
  trackBackup : Bool
  /-- At least one of trackPgChangeLog or trackBackup must be true. -/
  tracks : (trackPgChangeLog || trackBackup) = true
  pgChangeLogWatermark : W
  backupWatermark : W
  upstream : Bool
  lastTx : W
  lastStatus : W
  lastAck : W

/-- The messages of `ChangeSourceUpstream` that are pushed. -/
inductive UpstreamAck (W : Type) where
  | commit (watermark : W)
  | status (watermark : W)
  deriving DecidableEq

def UpstreamAck.watermark : UpstreamAck W → W
  | commit watermark => watermark
  | status watermark => watermark

namespace UpstreamAcker

/-- A new acker. -/
def new (trackPgChangeLog trackBackup : Bool) (tracks : (trackPgChangeLog || trackBackup) = true) : UpstreamAcker W :=
  { trackPgChangeLog, trackBackup, tracks, pgChangeLogWatermark := ⊥, backupWatermark := ⊥, upstream := false,
    lastTx := ⊥, lastStatus := ⊥, lastAck := ⊥ }

/-- `currentWatermark`. -/
def currentWatermark (a : UpstreamAcker W) : W :=
  if !a.trackBackup then a.pgChangeLogWatermark
  else if !a.trackPgChangeLog then a.backupWatermark
  else min a.pgChangeLogWatermark a.backupWatermark

/-- A push to the upstream, if there is one. -/
def push (a : UpstreamAcker W) (ack : UpstreamAck W) : List (UpstreamAck W) := if a.upstream then [ack] else []

/-- `#maybeAck`. -/
def maybeAck (a : UpstreamAcker W) : UpstreamAcker W × List (UpstreamAck W) :=
  let currentWatermark := a.currentWatermark
  let (a, acks) :=
    if currentWatermark > a.lastAck then ({ a with lastAck := currentWatermark }, a.push (.commit currentWatermark))
    else (a, [])
  if a.lastAck ≥ a.lastTx ∧ a.lastStatus > a.lastAck then
    ({ a with lastAck := a.lastStatus }, acks ++ a.push (.status a.lastStatus))
  else (a, acks)

/-- `reset`. -/
def reset (a : UpstreamAcker W) : UpstreamAcker W := { a with upstream := true, lastTx := ⊥, lastStatus := ⊥, lastAck := ⊥ }

end UpstreamAcker

/-- The calls of an acker; a reset starts the stream after `lastWatermark`. -/
inductive AckerCall (W : Type) where
  | reset (lastWatermark : W)
  | status (ack : Bool) (watermark : W)
  | commit (watermark : W)
  | trackPgChangeLog (committedWatermark : W)
  | trackBackup (backedUpWatermark : W)

/-- What a call records. -/
def AckerCall.record (a : UpstreamAcker W) : AckerCall W → UpstreamAcker W
  | reset _ => a.reset
  | status ack watermark => if ack then { a with lastStatus := watermark } else a
  | commit watermark => { a with lastTx := watermark }
  | trackPgChangeLog committedWatermark =>
    { a with pgChangeLogWatermark := max committedWatermark a.pgChangeLogWatermark }
  | trackBackup backedUpWatermark => { a with backupWatermark := max backedUpWatermark a.backupWatermark }

/-- A call: all but `reset` end with `#maybeAck`. -/
def AckerCall.apply (a : UpstreamAcker W) (call : AckerCall W) : UpstreamAcker W × List (UpstreamAck W) :=
  match call with
  | reset _ => (call.record a, [])
  | _ => (call.record a).maybeAck

/-! ## Runs -/

/-- An acker, what it pushed on this connection, where the connection started and
is in the log, and what was committed and reported since the acker was made. -/
structure AckerRun (W : Type) where
  acker : UpstreamAcker W
  acks : List W
  lastWatermark : W
  position : W
  committed : List W
  pgReports : List W
  backupReports : List W

namespace AckerRun

def start (acker : UpstreamAcker W) : AckerRun W :=
  { acker, acks := [], lastWatermark := ⊥, position := ⊥, committed := [], pgReports := [], backupReports := [] }

/-- What a call tells the run, before anything is acked. -/
def note (s : AckerRun W) (call : AckerCall W) : AckerRun W :=
  let s := { s with acker := call.record s.acker }
  match call with
  | .reset lastWatermark => { s with acks := [], lastWatermark, position := lastWatermark }
  | .status ack watermark => if ack then { s with position := watermark } else s
  | .commit watermark => { s with position := watermark, committed := watermark :: s.committed }
  | .trackPgChangeLog committedWatermark => { s with pgReports := committedWatermark :: s.pgReports }
  | .trackBackup backedUpWatermark => { s with backupReports := backedUpWatermark :: s.backupReports }

/-- The watermarks a call acks. -/
def pushed (s : AckerRun W) (call : AckerCall W) : List W := (call.apply s.acker).2.map (·.watermark)

/-- One call. -/
def step (s : AckerRun W) (call : AckerCall W) : AckerRun W :=
  { s.note call with acker := (call.apply s.acker).1, acks := (s.note call).acks ++ s.pushed call }

/-- The calls that the stream allows, for a log of transactions: those of a
connection in the order of the log, without gaps, and each status that wants an
ack in its place among them. -/
def Possible (log : W → Prop) (s : AckerRun W) : AckerCall W → Prop
  | .status ack watermark => s.acker.upstream = true ∧
      (ack = true → s.position ≤ watermark ∧ ∀ t, log t → s.position < t → watermark < t)
  | .commit watermark => s.acker.upstream = true ∧ log watermark ∧ s.position < watermark ∧
      ∀ t, log t → s.position < t → watermark ≤ t
  | _ => True

/-- Each store that is tracked has reported the transaction. -/
def Persisted (s : AckerRun W) (t : W) : Prop :=
  (s.acker.trackPgChangeLog = true → ∃ r ∈ s.pgReports, t ≤ r) ∧
  (s.acker.trackBackup = true → ∃ r ∈ s.backupReports, t ≤ r)

/-- What a call acks is persisted, and the acks of a connection increase. -/
def Safe (s : AckerRun W) (call : AckerCall W) : Prop :=
  (∀ a ∈ s.pushed call, ∀ t ∈ (s.step call).committed, t ≤ a → (s.step call).Persisted t) ∧
  (s.step call).acks.Pairwise (· < ·)

/-- When a status wants an ack before the first commit of a connection, what
was committed up to the start of the connection is persisted. -/
def Covered (s : AckerRun W) : AckerCall W → Prop
  | .status ack _ => ack = true → s.acker.lastTx = ⊥ → ∀ t ∈ s.committed, t ≤ s.lastWatermark → s.Persisted t
  | _ => True

end AckerRun

end ZeroSync
