/-
`mutagen/mutagen.ts`: `processMutation` and the transactions it attempts.

A call is taken apart at its transactions: each is an attempt, with what became
of it (`Attempt`), and the `catch` clause says how the call goes on. Attempts of
any calls may come in any order. The row of a client in `clients` is its last
mutation ID, 0 where there is no row.
-/
import ZeroSync.Runs
import Mathlib.Data.Int.Notation
import Mathlib.Data.Nat.Notation

namespace ZeroSync

/-- The key of a row of `clients`. -/
structure ClientKey where
  clientGroupID : String
  clientID : String
  deriving DecidableEq

/-- The kinds of a `ProtocolError` that `processMutation` tells apart. -/
inductive ProtocolErrorKind where
  | invalidPush
  | other
  deriving DecidableEq

/-- What the transaction of an attempt throws, with its message. -/
inductive AttemptError where
  /-- `MutationAlreadyProcessedError` -/
  | alreadyProcessed (message : String)
  | protocol (kind : ProtocolErrorKind) (message : String)
  /-- A `PostgresError` with the code `PG_SERIALIZATION_FAILURE`. -/
  | serializationFailure (message : String)
  | other (message : String)
  deriving DecidableEq

/-- `MutationError`, of the kind `MutationFailed`. -/
structure MutationFailed where
  desc : String
  deriving DecidableEq

def maxSerializationAttempts : ℕ := 10

/-- `checkSchemaVersionAndIncrementLastMutationID`, which increments a row that it reads: the row it leaves. -/
def checkLastMutationID (client : ClientKey) (row : ℕ) (receivedMutationID : ℤ) : Except AttemptError ℕ :=
  let lastMutationID := row + 1
  if receivedMutationID < lastMutationID then
    .error (.alreadyProcessed s!"Ignoring mutation from {client.clientID} with ID {receivedMutationID} as it was already processed. Expected: {lastMutationID}")
  else if receivedMutationID > lastMutationID then
    .error (.protocol .invalidPush s!"Push contains unexpected mutation id {receivedMutationID} for client {client.clientID}. Expected mutation id {lastMutationID}.")
  else .ok lastMutationID

/-- Whether the tasks of `processMutationWithTx` have the mutation's ops among them. -/
def runsOps (errorMode canPre canPost : Bool) : Bool := !errorMode && canPre && canPost

/-- A call of `processMutation`, with the variables of its loop; `finished` is
what it returned or threw. -/
structure ProcessMutation where
  client : ClientKey
  id : ℤ
  customMutatorsEnabled : Bool
  i : ℕ := 0
  errorMode : Bool := false
  result : Option MutationFailed := none
  finished : Option (Except AttemptError (Option MutationFailed)) := none

namespace ProcessMutation

/-- `return`, or the end of the loop. -/
def returns (c : ProcessMutation) (result : Option MutationFailed) : ProcessMutation :=
  { c with finished := some (.ok result) }

def throws (c : ProcessMutation) (e : AttemptError) : ProcessMutation := { c with finished := some (.error e) }

/-- `continue`. -/
def continues (c : ProcessMutation) : ProcessMutation :=
  let i := c.i + 1
  if i < maxSerializationAttempts then { c with i } else { c with i }.returns c.result

/-- The `catch` clause. -/
def catches (c : ProcessMutation) (e : AttemptError) : ProcessMutation :=
  match e with
  | .alreadyProcessed _ => c.returns none
  | .protocol kind _ =>
    if !c.errorMode && kind = .invalidPush && c.customMutatorsEnabled && c.i < 2 then c.continues else c.throws e
  | .serializationFailure _ => if c.errorMode then c.throws e else c.continues
  | .other message =>
    if c.errorMode then c.throws e
    -- `i--`, and then `i++`.
    else { c with result := some { desc := message }, errorMode := true }

/-- An attempt has ended. -/
def ended (c : ProcessMutation) : Except AttemptError Unit → ProcessMutation
  | .ok _ => c.returns c.result
  | .error e => c.catches e

end ProcessMutation

/-- What becomes of an attempt. -/
inductive Attempt where
  /-- It commits. -/
  | commit (canPre canPost : Bool)
  /-- It commits, and the connection is lost before the call knows. -/
  | commitLost (canPre canPost : Bool) (message : String)
  /-- The check of the last mutation ID throws, for the row that the transaction sees. -/
  | check (row : ℕ)
  /-- It is rolled back with another error, or fails to commit. -/
  | fail (e : AttemptError)

/-- The calls, the rows of the clients, and the mutations that were committed,
each with whether its ops were run. -/
structure MutagenRun where
  lastMutationID : ClientKey → ℕ
  calls : List ProcessMutation
  committed : List (ClientKey × ℤ × Bool)

inductive MutagenEvent where
  /-- A new call. -/
  | call (client : ClientKey) (id : ℤ) (customMutatorsEnabled : Bool)
  /-- The next attempt of a call. -/
  | attempt (k : ℕ) (attempt : Attempt)

namespace MutagenRun

/-- A database, and no calls yet. -/
def start (lastMutationID : ClientKey → ℕ) : MutagenRun := { lastMutationID, calls := [], committed := [] }

/-- A transaction for the mutation of a call commits. -/
def commit (s : MutagenRun) (c : ProcessMutation) (canPre canPost : Bool) : MutagenRun :=
  match checkLastMutationID c.client (s.lastMutationID c.client) c.id with
  | .ok row =>
    { s with
      lastMutationID := fun client => if client = c.client then row else s.lastMutationID client
      committed := (c.client, c.id, runsOps c.errorMode canPre canPost) :: s.committed }
  | .error _ => s

/-- What an attempt tells its call. -/
def outcome (c : ProcessMutation) : Attempt → Except AttemptError Unit
  | .commit _ _ => .ok ()
  | .commitLost _ _ message => .error (.other message)
  | .check row => (checkLastMutationID c.client row c.id).map fun _ => ()
  | .fail e => .error e

/-- What an attempt leaves in the database. -/
def effect (s : MutagenRun) (c : ProcessMutation) : Attempt → MutagenRun
  | .commit canPre canPost => s.commit c canPre canPost
  | .commitLost canPre canPost _ => s.commit c canPre canPost
  | _ => s

def step (s : MutagenRun) : MutagenEvent → MutagenRun
  | .call client id customMutatorsEnabled => { s with calls := s.calls ++ [{ client, id, customMutatorsEnabled }] }
  | .attempt k attempt =>
    match s.calls[k]? with
    | none => s
    | some c => { s.effect c attempt with calls := s.calls.set k (c.ended (outcome c attempt)) }

/-- What can become of an attempt: it commits when its check passes; a
transaction may see an earlier row of the client. -/
def CanBe (s : MutagenRun) (c : ProcessMutation) : Attempt → Prop
  | .commit _ _ => ∃ row, checkLastMutationID c.client (s.lastMutationID c.client) c.id = .ok row
  | .commitLost _ _ _ => ∃ row, checkLastMutationID c.client (s.lastMutationID c.client) c.id = .ok row
  | .check row => row ≤ s.lastMutationID c.client ∧ ∃ e, checkLastMutationID c.client row c.id = .error e
  | .fail e => ∀ message, e ≠ .alreadyProcessed message

/-- A call makes attempts until it has returned or thrown. -/
def Possible (s : MutagenRun) : MutagenEvent → Prop
  | .call _ _ _ => True
  | .attempt k attempt => ∃ c, s.calls[k]? = some c ∧ c.finished = none ∧ s.CanBe c attempt

/-- Calls that returned have left the last mutation ID at their mutation's, or after it. -/
def Settled (s : MutagenRun) : Prop :=
  ∀ c ∈ s.calls, ∀ result, c.finished = some (.ok result) → c.id ≤ s.lastMutationID c.client

/-- Last mutation IDs move only to the ID of a mutation, from the one before it, by an attempt for it. -/
def Moves (s : MutagenRun) (e : MutagenEvent) : Prop :=
  ∀ client, (s.step e).lastMutationID client = s.lastMutationID client ∨
    ∃ k attempt c, e = .attempt k attempt ∧ s.calls[k]? = some c ∧ c.client = client ∧
      s.lastMutationID client = c.id - 1 ∧ (s.step e).lastMutationID client = c.id

/-- Of no mutation are the ops run twice. -/
def AtMostOnce (s : MutagenRun) : Prop := ∀ client id, s.committed.count (client, id, true) ≤ 1

/-- What is claimed of a step. -/
def Right (s : MutagenRun) (e : MutagenEvent) : Prop := (s.step e).Settled ∧ s.Moves e ∧ (s.step e).AtMostOnce

/-- The last attempt of a call does not fail to serialize, unless the mutation is processed already. -/
def NotUsedUp (s : MutagenRun) : MutagenEvent → Prop
  | .attempt k (.fail (.serializationFailure _)) => ∀ c, s.calls[k]? = some c → c.errorMode = false →
      c.i + 1 = maxSerializationAttempts → c.id ≤ s.lastMutationID c.client
  | _ => True

end MutagenRun

end ZeroSync
