/-
`process-mutations.ts` over the transactions of `zql-database.ts`: a `/mutate`
request and the mutations it processes.

User code is a tree (`Handler`): what a handler does next depends on what
`transact` told it. The callback that a handler gives to `transact` works on data
of any type; a query of it that fails is an error it throws. What the database
fails at is said in advance, one entry for each transaction to come
(`Database.faults`). Each committed transaction is logged. A body or a query that
does not parse is given with the message of its error.
-/
import Mathlib.Data.Rat.Init
import Mathlib.Algebra.Order.Ring.Int

namespace ZeroSync.ProcessMutations

inductive JSONValue where
  | null
  | boolean (b : Bool)
  | number (n : ℚ)
  | string (s : String)
  | array (elements : List JSONValue)
  | object (properties : List (String × JSONValue))

/-- Whether a condition takes the value for true. -/
def JSONValue.truthy : JSONValue → Bool
  | .null => false
  | .boolean b => b
  | .number n => n ≠ 0
  | .string s => s ≠ ""
  | _ => true

structure MutationID where
  id : ℤ
  clientID : String
  deriving DecidableEq

structure CustomMutation where
  id : ℤ
  clientID : String
  name : String
  args : List JSONValue

def CustomMutation.mutationID (m : CustomMutation) : MutationID := ⟨m.id, m.clientID⟩

inductive Mutation where
  | crud (id : ℤ) (clientID : String)
  | custom (m : CustomMutation)

def Mutation.mutationID : Mutation → MutationID
  | .crud id clientID => ⟨id, clientID⟩
  | .custom m => m.mutationID

/-- The errors of `zeroErrorSchema`. -/
inductive ZeroError where
  | oooMutation
  | alreadyProcessed
  deriving DecidableEq

inductive MutationResult where
  | ok (data : Option JSONValue)
  | app (message : Option String) (details : Option JSONValue)
  | zero (error : ZeroError) (details : Option JSONValue)

/-- A success or an application error. -/
def MutationResult.processed : MutationResult → Bool
  | .zero _ _ => false
  | _ => true

structure MutationResponse where
  id : MutationID
  result : MutationResult

/-! ## Errors -/

structure ApplicationError where
  message : String
  details : Option JSONValue

inductive DatabaseTransactionPhase where
  /-- `'open'` -/
  | opening
  | execute

/-- The errors that user code can throw or catch. -/
inductive Failure where
  | application (e : ApplicationError)
  /-- `OutOfOrderMutation` -/
  | outOfOrder (clientID : String) (receivedMutationID lastMutationID : ℤ)
  /-- `DatabaseTransactionError` -/
  | databaseTransaction (phase : DatabaseTransactionPhase) (cause : Failure)
  /-- Any other, with what `getErrorMessage` and `getErrorDetails` find in it. -/
  | other (message : String) (details : Option JSONValue)

/-- `MutationAlreadyProcessedError` is known to this code and to no user's. -/
inductive Thrown where
  | alreadyProcessed (clientID : String) (received actual : ℤ)
  | failure (f : Failure)

def Failure.getErrorMessage : Failure → String
  | .application e => e.message
  | .outOfOrder clientID receivedMutationID lastMutationID =>
    s!"Client {clientID} sent mutation ID {receivedMutationID} but expected {lastMutationID}"
  | .databaseTransaction .opening cause => s!"Failed to open database transaction: {cause.getErrorMessage}"
  | .databaseTransaction .execute cause => s!"Database transaction failed after opening: {cause.getErrorMessage}"
  | .other message _ => message

def Thrown.getErrorMessage : Thrown → String
  | .alreadyProcessed clientID received actual =>
    s!"Ignoring mutation from {clientID} with ID {received} as it was already processed. Expected: {actual}"
  | .failure f => f.getErrorMessage

def Failure.getErrorDetails : Failure → Option JSONValue
  | .application e => some (e.details.getD (.object [("name", .string "ApplicationError")]))
  | .outOfOrder _ _ _ => none
  | .databaseTransaction _ _ => some (.object [("name", .string "DatabaseTransactionError")])
  | .other _ details => details

def Thrown.getErrorDetails : Thrown → Option JSONValue
  | .alreadyProcessed _ _ _ => none
  | .failure f => f.getErrorDetails

def wrapWithApplicationError : Failure → ApplicationError
  | .application e => e
  | f => { message := f.getErrorMessage, details := f.getErrorDetails }

/-- What `applicationErrorWrapper` throws for what it catches. -/
def applicationErrorWrapper : Failure → Failure
  | .databaseTransaction phase cause => .databaseTransaction phase cause
  | .outOfOrder clientID receivedMutationID lastMutationID => .outOfOrder clientID receivedMutationID lastMutationID
  | f => .application (wrapWithApplicationError f)

def makeAppErrorResponse (m : CustomMutation) (error : ApplicationError) : MutationResponse :=
  { id := m.mutationID, result := .app (some error.message) (error.details.filter JSONValue.truthy) }

/-! ## The database -/

/-- The key of a row of `clients`, with the schema the table is in. -/
structure ClientKey where
  upstreamSchema : String
  clientGroupID : String
  clientID : String
  deriving DecidableEq

structure TransactionProviderInput where
  upstreamSchema : String
  clientGroupID : String
  clientID : String
  mutationID : ℤ

def TransactionProviderInput.client (input : TransactionProviderInput) : ClientKey :=
  ⟨input.upstreamSchema, input.clientGroupID, input.clientID⟩

/-- A row of `mutations`. -/
structure MutationRow where
  client : ClientKey
  mutationID : ℤ
  result : MutationResult

/-- The tables `clients` and `mutations`, and the data of the application. -/
structure Store (D : Type) where
  clients : ClientKey → Option ℤ
  mutations : List MutationRow
  data : D

/-- The last mutation ID of a client; one without a row has processed nothing. -/
def Store.lastMutationID {D : Type} (s : Store D) (client : ClientKey) : ℤ := (s.clients client).getD 0

/-- Where a transaction can fail. -/
inductive Step where
  /-- `BEGIN`, or the queries of `#makeServerTransaction` -/
  | opening
  | updateClientMutationID
  | writeMutationResult
  | deleteMutationResults
  | commit
  /-- The transaction has committed, and the connection is lost before the code knows. -/
  | reply
  deriving DecidableEq

/-- A step that fails, with the message and the details of its error. -/
structure Fault where
  step : Step
  message : String
  details : Option JSONValue

/-- What a transaction is for. -/
inductive Work where
  | mutator
  | errorResult
  | cleanup
  deriving DecidableEq

/-- A transaction that was committed. -/
structure Commit (D : Type) where
  work : Work
  input : TransactionProviderInput
  before : Store D
  after : Store D

structure Database (D : Type) where
  store : Store D
  /-- What happens to the transactions to come; none of those after the last fails. -/
  faults : List (Option Fault)
  log : List (Commit D)

/-- A transaction that is open, as its own queries see the store. -/
structure Tx (D : Type) where
  store : Store D
  fault : Option Fault

/-- What a transaction comes to. -/
structure Outcome (D α : Type) where
  /-- The phase it was in at the end. -/
  phase : DatabaseTransactionPhase
  result : Except Thrown α
  db : Database D

variable {D α : Type}

/-- A step of a transaction: it fails if it is the one that is to. -/
def reach (fault : Option Fault) (step : Step) : Except Thrown Unit :=
  match fault with
  | some f => if f.step = step then .error (.failure (.other f.message f.details)) else .ok ()
  | none => .ok ()

/-- What is to happen to the next transaction. -/
def Database.nextFault (db : Database D) : Option Fault := db.faults.head?.join

/-- `ZQLDatabase.transaction`; `work` goes to the log alone. -/
def Database.transaction (db : Database D) (work : Work) (input : TransactionProviderInput)
    (callback : Tx D → Except Thrown (Tx D × α)) : Outcome D α :=
  let fault := db.nextFault
  let db := { db with faults := db.faults.tail }
  match reach fault .opening with
  | .error e => ⟨.opening, .error e, db⟩
  | .ok _ =>
    match callback ⟨db.store, fault⟩ with
    | .error e => ⟨.execute, .error e, db⟩
    | .ok (tx, a) =>
      match reach fault .commit with
      | .error e => ⟨.execute, .error e, db⟩
      | .ok _ =>
        let log := db.log ++ [⟨work, input, db.store, tx.store⟩]
        ⟨.execute, (reach fault .reply).map fun _ => a, { db with store := tx.store, log }⟩

/-- The hook; a client's first row says 1. -/
def Tx.updateClientMutationID (tx : Tx D) (input : TransactionProviderInput) : Except Thrown (Tx D × ℤ) := do
  reach tx.fault .updateClientMutationID
  let lastMutationID := match tx.store.clients input.client with
    | none => 1
    | some current => current + 1
  let clients := fun client => if client = input.client then some lastMutationID else tx.store.clients client
  .ok ({ tx with store := { tx.store with clients } }, lastMutationID)

/-- The hook; the rows have the client and the ID of the mutation for their key. -/
def Tx.writeMutationResult (tx : Tx D) (input : TransactionProviderInput) (response : MutationResponse) :
    Except Thrown (Tx D) := do
  reach tx.fault .writeMutationResult
  let client := { input.client with clientID := response.id.clientID }
  if tx.store.mutations.any fun row => row.client = client && row.mutationID = response.id.id then
    .error (.failure (.other "duplicate key value violates unique constraint" none))
  else
    let row := { client, mutationID := response.id.id, result := response.result }
    .ok { tx with store := { tx.store with mutations := row :: tx.store.mutations } }

inductive CleanupResultsArg where
  /-- With the `type` or without it. -/
  | single (clientGroupID clientID : String) (upToMutationID : ℤ)
  | bulk (clientGroupID clientID : String) (clientIDs : List String)

/-- Whether a row is one of those to delete. -/
def CleanupResultsArg.covers (upstreamSchema : String) (row : MutationRow) : CleanupResultsArg → Bool
  | .single clientGroupID clientID upToMutationID =>
    row.client = ⟨upstreamSchema, clientGroupID, clientID⟩ && row.mutationID ≤ upToMutationID
  | .bulk clientGroupID clientID clientIDs =>
    row.client.upstreamSchema = upstreamSchema && row.client.clientGroupID = clientGroupID &&
      (clientID :: clientIDs).contains row.client.clientID

/-- The hook. -/
def Tx.deleteMutationResults (tx : Tx D) (input : TransactionProviderInput) (args : CleanupResultsArg) :
    Except Thrown (Tx D) := do
  reach tx.fault .deleteMutationResults
  let mutations := tx.store.mutations.filter fun row => !args.covers input.upstreamSchema row
  .ok { tx with store := { tx.store with mutations } }

/-! ## `Transactor` -/

/-- A `TransactFnCallback`, as what it makes of the data. -/
abbrev TransactFnCallback (D : Type) := String → Option JSONValue → D → Except Failure D

structure Transactor where
  /-- The `schema` of the query parameters. -/
  schema : String
  clientGroupID : String

namespace Transactor

variable (t : Transactor)

def client (clientID : String) : ClientKey := ⟨t.schema, t.clientGroupID, clientID⟩

def getTransactionInput (mutation : CustomMutation) : TransactionProviderInput :=
  { upstreamSchema := t.schema, clientGroupID := t.clientGroupID
    clientID := mutation.clientID, mutationID := mutation.id }

def checkAndIncrementLastMutationID (tx : Tx D) (input : TransactionProviderInput) (clientID : String)
    (receivedMutationID : ℤ) : Except Thrown (Tx D) := do
  let (tx, lastMutationID) ← tx.updateClientMutationID input
  if receivedMutationID < lastMutationID then
    .error (.alreadyProcessed clientID receivedMutationID lastMutationID)
  else if receivedMutationID > lastMutationID then
    .error (.failure (.outOfOrder clientID receivedMutationID lastMutationID))
  else .ok tx

/-- The callback of `#transactImpl`. -/
def execute (mutation : CustomMutation) (cb : TransactFnCallback D) (appError : Option ApplicationError) (tx : Tx D) :
    Except Thrown (Tx D × MutationResponse) := do
  let input := t.getTransactionInput mutation
  let tx ← checkAndIncrementLastMutationID tx input mutation.clientID mutation.id
  let ret : MutationResponse := { id := mutation.mutationID, result := .ok none }
  match appError with
  | none =>
    match cb mutation.name mutation.args.head? tx.store.data with
    | .ok data => .ok ({ tx with store := { tx.store with data } }, ret)
    | .error f => .error (.failure f)
  | some e =>
    let tx ← tx.writeMutationResult input (makeAppErrorResponse mutation e)
    .ok (tx, ret)

/-- What `#transactImpl` throws for what it catches. -/
def rethrown (transactionPhase : DatabaseTransactionPhase) : Thrown → Thrown
  | .alreadyProcessed clientID received actual => .alreadyProcessed clientID received actual
  | .failure (.application e) => .failure (.application e)
  | .failure (.outOfOrder clientID received last) => .failure (.outOfOrder clientID received last)
  | .failure f => .failure (.databaseTransaction transactionPhase f)

def transactImpl (db : Database D) (mutation : CustomMutation) (cb : TransactFnCallback D)
    (appError : Option ApplicationError) : Except Thrown MutationResponse × Database D :=
  let work := if appError.isNone then .mutator else .errorResult
  let outcome := db.transaction work (t.getTransactionInput mutation) (t.execute mutation cb appError)
  (outcome.result.mapError (rethrown outcome.phase), outcome.db)

/-- `originalError`. -/
def originalError : Failure → Failure
  | .databaseTransaction _ cause => cause
  | f => f

def alreadyProcessedResponse (mutation : CustomMutation) (error : Thrown) : MutationResponse :=
  { id := mutation.mutationID, result := .zero .alreadyProcessed (some (.string error.getErrorMessage)) }

/-- The loop; with an `appError` it does not go on. -/
def transact (db : Database D) (mutation : CustomMutation) (cb : TransactFnCallback D) :
    Except Failure MutationResponse × Database D :=
  match t.transactImpl db mutation cb none with
  | (.ok ret, db) => (.ok ret, db)
  | (.error (.failure (.outOfOrder clientID received last)), db) => (.error (.outOfOrder clientID received last), db)
  | (.error (.alreadyProcessed clientID received actual), db) =>
    (.ok (alreadyProcessedResponse mutation (.alreadyProcessed clientID received actual)), db)
  | (.error (.failure f), db) =>
    let appError := wrapWithApplicationError (originalError f)
    match t.transactImpl db mutation cb (some appError) with
    | (.ok _, db) => (.ok (makeAppErrorResponse mutation appError), db)
    | (.error (.alreadyProcessed clientID received actual), db) =>
      (.ok (alreadyProcessedResponse mutation (.alreadyProcessed clientID received actual)), db)
    | (.error (.failure f), db) => (.error f, db)

def persistPreTransactionFailure (db : Database D) (mutation : CustomMutation) (appError : ApplicationError) :
    Except Thrown MutationResponse × Database D :=
  t.transactImpl db mutation (fun _ _ data => .ok data) (some appError)

end Transactor

/-! ## `handleMutateRequest` -/

/-- A handler at work: it answers, throws, or calls `transact` and goes on with
what that returns or throws. -/
inductive Handler (D : Type) where
  | answer (response : MutationResponse)
  | fail (error : Failure)
  | transact (cb : TransactFnCallback D) (next : Except Failure MutationResponse → Handler D)

inductive MutationPhase where
  | preTransaction
  | transactionPending
  | postCommit
  deriving DecidableEq

/-- How a handler was left. -/
structure HandlerExit (D : Type) where
  result : Except Failure MutationResponse
  mutationPhase : MutationPhase
  db : Database D

/-- The handler is run, with `transactProxy` for its `transact`. -/
def Handler.run (t : Transactor) (m : CustomMutation) : Handler D → MutationPhase → Database D → HandlerExit D
  | .answer response, mutationPhase, db => ⟨.ok response, mutationPhase, db⟩
  | .fail error, mutationPhase, db => ⟨.error error, mutationPhase, db⟩
  | .transact cb next, _, db =>
    match t.transact db m cb with
    | (.ok result, db) => (next (.ok result)).run t m .postCommit db
    | (.error error, db) => (next (.error error)).run t m .transactionPending db

/-- A custom mutation in the loop: the response it is given, or what ends the loop. -/
def processMutation (t : Transactor) (m : CustomMutation) (handler : Handler D) (db : Database D) :
    Except Thrown MutationResponse × Database D :=
  let exit := handler.run t m .preTransaction db
  match exit.result with
  | .ok res => (.ok res, exit.db)
  | .error thrown =>
    match applicationErrorWrapper thrown with
    | .application error =>
      if exit.mutationPhase = .preTransaction then
        match t.persistPreTransactionFailure exit.db m error with
        | (.ok _, db) => (.ok (makeAppErrorResponse m error), db)
        | (.error e, db) => (.error e, db)
      else (.ok (makeAppErrorResponse m error), exit.db)
    | error => (.error (.failure error), exit.db)

def CLEANUP_RESULTS_MUTATION_NAME : String := "_zero_cleanupResults"

/-- `processCleanupResultsMutation`; `parse` is `v.test` with the schema of the arguments. -/
def processCleanupResultsMutation (parse : Option JSONValue → Option CleanupResultsArg) (t : Transactor)
    (mutation : CustomMutation) (db : Database D) : Database D :=
  match parse mutation.args.head? with
  | none => db
  | some args =>
    let (clientGroupID, clientID) := match args with
      | .single clientGroupID clientID _ => (clientGroupID, clientID)
      | .bulk clientGroupID clientID _ => (clientGroupID, clientID)
    let input := { upstreamSchema := t.schema, clientGroupID, clientID, mutationID := 0 }
    let outcome := db.transaction .cleanup input fun tx => (tx.deleteMutationResults input args).map fun tx => (tx, ())
    -- What it throws is logged.
    outcome.db

/-- The variables of the loop. -/
structure Progress (D : Type) where
  responses : List MutationResponse
  processedCount : ℕ
  db : Database D

structure Params where
  schema : String

structure PushBody where
  clientGroupID : String
  mutations : List Mutation
  pushVersion : ℤ

/-- Why something was not parsed: the message and the details of the error. -/
structure ParseError where
  message : String
  details : Option JSONValue

/-- What the application brings to a request: the handler, which may keep a state
of its own from call to call, and what the database fails at. -/
structure Exchange (D : Type) where
  body : Except ParseError PushBody
  params : Except ParseError Params
  userID : Option (Option String)
  /-- For the mutation at an index of the request. -/
  handler : ℕ → CustomMutation → Handler D
  faults : List (Option Fault)
  parseCleanup : Option JSONValue → Option CleanupResultsArg

/-- The loop over the mutations; what ends it early is thrown. -/
def Exchange.processMutations (e : Exchange D) (t : Transactor) :
    Progress D → List Mutation → Progress D × Option Thrown
  | p, [] => (p, none)
  | p, .crud _ _ :: _ => (p, some (.failure (.other "Expected custom mutation" none)))
  | p, .custom m :: rest =>
    if m.name = CLEANUP_RESULTS_MUTATION_NAME then
      let db := processCleanupResultsMutation e.parseCleanup t m p.db
      e.processMutations t { p with processedCount := p.processedCount + 1, db } rest
    else
      match processMutation t m (e.handler p.processedCount m) p.db with
      | (.ok res, db) => e.processMutations t ⟨p.responses ++ [res], p.processedCount + 1, db⟩ rest
      | (.error error, db) => ({ p with db }, some error)

inductive ErrorReason where
  | parse
  | unsupportedPushVersion
  | outOfOrderMutation
  | database
  | internal
  deriving DecidableEq

inductive MutateResponse where
  | mutateResponse (mutations : List MutationResponse) (userID : Option (Option String))
  /-- `PushFailed`, of the origin `Server`. -/
  | pushFailed (reason : ErrorReason) (message : String) (mutationIDs : List MutationID) (details : Option JSONValue)

def Thrown.reason : Thrown → ErrorReason
  | .failure (.outOfOrder _ _ _) => .outOfOrderMutation
  | .failure (.databaseTransaction _ _) => .database
  | _ => .internal

/-- A message that a parse failed, which details are spread into when they are truthy. -/
def parseFailed (what : String) (mutationIDs : List MutationID) (e : ParseError) : MutateResponse :=
  .pushFailed .parse s!"Failed to parse {what}: {e.message}" mutationIDs (e.details.filter JSONValue.truthy)

def PushBody.mutationIDs (body : PushBody) : List MutationID := body.mutations.map Mutation.mutationID

def handleMutateRequest (e : Exchange D) (db : Database D) : MutateResponse × Database D :=
  let db := { db with faults := e.faults }
  match e.body with
  | .error error => (parseFailed "push body" [] error, db)
  | .ok body =>
    match e.params with
    | .error error => (parseFailed "push query parameters" body.mutationIDs error, db)
    | .ok params =>
      if body.pushVersion ≠ 1 then
        (.pushFailed .unsupportedPushVersion s!"Unsupported push version: {body.pushVersion}" body.mutationIDs none, db)
      else
        match e.processMutations ⟨params.schema, body.clientGroupID⟩ ⟨[], 0, db⟩ body.mutations with
        | (p, none) => (.mutateResponse p.responses e.userID, p.db)
        | (p, some error) =>
          (.pushFailed error.reason error.getErrorMessage (body.mutationIDs.drop p.processedCount)
            (error.getErrorDetails.filter JSONValue.truthy), p.db)

end ZeroSync.ProcessMutations
