/-
`view-syncer/connection-context-manager.ts` and the `resolveAuth` of
`auth/auth.ts`: the auth state of the connections of one view-syncer.

Every operation runs to its end at once but `updateAuth`, which reads the
record of its connection, awaits `resolveAuth`, and then writes the record
that it has read back with the new auth: `beginUpdateAuth` and
`completeUpdateAuth`. The clock is read where the source reads it; what
`validateLegacyJWT` answers is given to the completion. Logging is left out.
-/
import Mathlib.Data.List.Sort
import ZeroSync.OrderedMap

namespace ZeroSync.ConnectionContexts

/-! ## Auth -/

structure JWTPayload where
  sub : Option String
  iat : Option ℕ
  deriving DecidableEq

inductive Auth
  | opaqueToken (raw : String)
  | jwt (raw : String) (decoded : JWTPayload)
  deriving DecidableEq

inductive ErrorKind
  | unauthorized
  | authInvalidated
  | invalidConnectionRequest
  deriving DecidableEq

structure ProtocolError where
  kind : ErrorKind
  message : String
  deriving DecidableEq

def unauthorized (message : String) : ProtocolError := ⟨.unauthorized, message⟩

/-- `authEquals`: the same type and the same token. -/
def authEquals : Option Auth → Option Auth → Bool
  | none, none => true
  | some (.opaqueToken a), some (.opaqueToken b) => a = b
  | some (.jwt a _), some (.jwt b _) => a = b
  | _, _ => false

/-- What `resolveAuth` resolves to: the very object it was given, or a new one. -/
inductive NextAuth
  | previous
  | token (auth : Auth)
  deriving DecidableEq

/-- `pickToken`, of a new token that is a JWT. -/
def pickToken (previousToken : Option Auth) (raw : String) (decoded : JWTPayload) : Except ProtocolError NextAuth :=
  match previousToken with
  | none => .ok (.token (.jwt raw decoded))
  | some (.opaqueToken _) =>
    .error (unauthorized "Token type cannot change. Client groups are pinned to a single token type.")
  | some (.jwt _ previous) =>
    if previous.sub ≠ decoded.sub then
      .error (unauthorized ("The user id in the new token does not match the previous token. " ++
        "Client groups are pinned to a single user."))
    else
      match previous.iat, decoded.iat with
      | none, _ => .ok (.token (.jwt raw decoded))
      | some _, none =>
        .error (unauthorized ("The new token does not have an issued at time but the prior token does. " ++
          "Tokens for a client group must either all have issued at times or all not have issued at times"))
      | some old, some new => if old < new then .ok (.token (.jwt raw decoded)) else .ok .previous

/-- `resolveAuth`. `verified` is what `validateLegacyJWT` answers, if there is
one: the token, or the error it throws, as `String(e)`. -/
def resolveAuth (previousAuth : Option Auth) (userID wireAuth : Option String)
    (verified : Option (Except String (String × JWTPayload))) : Except ProtocolError NextAuth :=
  match wireAuth.filter (· ≠ "") with
  | none =>
    if previousAuth.isSome then
      .error (unauthorized ("No token provided. An unauthenticated client cannot connect " ++
        "to an authenticated client group."))
    else .ok .previous
  | some token =>
    if userID = none then .error (unauthorized "Authenticated connections require a userID.")
    else
      match verified with
      | some (.error e) => .error ⟨.authInvalidated, "Failed to decode auth token: " ++ e⟩
      | some (.ok (raw, decoded)) => pickToken previousAuth raw decoded
      | none =>
        match previousAuth with
        | some (.jwt _ _) =>
          .error (unauthorized ("Token type cannot change from JWT to opaque. " ++
            "Connections are pinned to a single token type."))
        | some (.opaqueToken raw) => if raw = token then .ok .previous else .ok (.token (.opaqueToken token))
        | none => .ok (.token (.opaqueToken token))

/-! ## Connections -/

inductive ConnectionState
  | provisional
  | validated
  deriving DecidableEq

/-- `ConnectionValidation` -/
inductive ConnectionValidation
  | clientFallback
  | serverValidated (validatedUserID : Option String)
  deriving DecidableEq

/-- `ConnectionSelector`: one websocket of a client. -/
structure ConnectionSelector where
  clientID : String
  wsID : String
  deriving DecidableEq

abbrev Headers := OrderedMap String String

structure HeaderOptions where
  apiKey : Option String
  customHeaders : Option Headers
  requestHeaders : Option Headers
  cookie : Option String
  origin : Option String
  deriving DecidableEq

/-- `ConnectionFetchContext`, with the URL patterns as they were compiled from. -/
structure ConnectionFetchContext where
  url : Option String
  allowedUrlPatterns : Option (List String)
  headerOptions : HeaderOptions
  deriving DecidableEq

structure ConnectionContext where
  state : ConnectionState
  clientID : String
  wsID : String
  /-- `user.id` -/
  user : Option String
  auth : Option Auth
  profileID : Option String
  baseCookie : Option String
  protocolVersion : ℕ
  revision : ℕ
  revalidateAt : Option ℕ
  insertionOrder : ℕ
  queryContext : ConnectionFetchContext
  mutateContext : ConnectionFetchContext
  deriving DecidableEq

def ConnectionContext.selector (c : ConnectionContext) : ConnectionSelector := ⟨c.clientID, c.wsID⟩

structure GroupAuthState where
  /-- `pinnedUser?.id`: no user is pinned, or one that may be logged out. -/
  pinnedUser : Option (Option String)
  backgroundConnection : Option ConnectionSelector
  retransformAt : Option ℕ
  maintenanceNotBeforeAt : Option ℕ
  deriving DecidableEq

/-- `FetchConfig` -/
structure FetchConfig where
  url : Option (List String)
  apiKey : Option String
  forwardCookies : Bool
  allowedClientHeaders : Option (List String)
  allowedRequestHeaders : Option (List String)

/-- What the manager is constructed with. -/
structure Config where
  revalidateIntervalMs : Option ℕ
  retransformIntervalMs : Option ℕ
  queryConfig : Option FetchConfig
  pushConfig : Option FetchConfig
  /-- Whether there is a `validateLegacyJWT`. -/
  legacyJWT : Bool

/-- `ConnectParams`, what is read of them. -/
structure ConnectParams where
  clientID : String
  wsID : String
  userID : Option String
  profileID : Option String
  baseCookie : Option String
  protocolVersion : ℕ
  requestHeaders : Option Headers
  origin : Option String
  httpCookie : Option String

/-- `InitConnectionBody`, what is read of it. -/
structure InitConnectionBody where
  userQueryURL : Option String
  userQueryHeaders : Option Headers
  userPushURL : Option String
  userPushHeaders : Option Headers

/-- `ConnectionContextManagerImpl` -/
structure ConnectionContextManager where
  /-- The live records, by `clientID`. -/
  connections : OrderedMap String ConnectionContext
  group : GroupAuthState
  sharedRetransformReady : Bool
  nextInsertionOrder : ℕ
  deriving DecidableEq

/-- A call of `updateAuth` that awaits `resolveAuth`: the record it has read, and the token. -/
structure UpdateAuthCall where
  connection : ConnectionContext
  wireAuth : Option String
  deriving DecidableEq

/-- The auth that a call of `updateAuth` goes on with. -/
def UpdateAuthCall.resolve (cfg : Config) (call : UpdateAuthCall)
    (verified : Except String (String × JWTPayload)) : Except ProtocolError NextAuth :=
  resolveAuth call.connection.auth call.connection.user call.wireAuth (if cfg.legacyJWT then some verified else none)

/-- `filterHeaders`. The names of headers are ASCII. -/
def filterHeaders (headers : Option Headers) (allowedHeaders : Option (List String)) : Option Headers :=
  match headers, allowedHeaders with
  | some headers, some (a :: as) =>
    let allowed := (a :: as).map String.toLower
    match headers.entries.filter fun e => e.1.toLower ∈ allowed with
    | [] => none
    | kept => some (.ofList kept)
  | _, _ => none

namespace ConnectionContextManager

variable (cfg : Config)

def init : ConnectionContextManager := ⟨∅, ⟨none, none, none, none⟩, false, 0⟩

/-! ## Derived state -/

def getConnectionContext (m : ConnectionContextManager) (selector : ConnectionSelector) : Option ConnectionContext :=
  (m.connections.get? selector.clientID).filter fun c => c.wsID = selector.wsID

def mustGetConnectionContext (m : ConnectionContextManager) (selector : ConnectionSelector) :
    Except ProtocolError ConnectionContext :=
  match m.getConnectionContext selector with
  | some c => .ok c
  | none =>
    .error ⟨.invalidConnectionRequest, "Connection auth state was not available for this websocket."⟩

def getBackgroundConnectionContext (m : ConnectionContextManager) : Option ConnectionContext :=
  m.group.backgroundConnection.bind m.getConnectionContext

def storeConnection (m : ConnectionContextManager) (c : ConnectionContext) : ConnectionContextManager :=
  { m with connections := m.connections.set c.clientID c }

def setBackgroundConnection (m : ConnectionContextManager) (selector : Option ConnectionSelector) :
    ConnectionContextManager :=
  { m with group := { m.group with backgroundConnection := selector } }

/-- The newest validated connection. No two have the same `insertionOrder`. -/
def newestValidated (m : ConnectionContextManager) : Option ConnectionContext :=
  ((m.connections.values.filter fun c => c.state = .validated).insertionSort fun a b =>
    b.insertionOrder ≤ a.insertionOrder).head?

/-- `#refreshBackgroundConnectionContext()` -/
def refreshBackgroundConnectionContext (m : ConnectionContextManager) : ConnectionContextManager :=
  if m.getBackgroundConnectionContext.any fun c => c.state = .validated then m
  else m.setBackgroundConnection (m.newestValidated.map (·.selector))

/-- `#refreshBackgroundConnectionContext(preferred)`, of a validated connection. -/
def preferBackgroundConnectionContext (m : ConnectionContextManager) (preferred : ConnectionContext) :
    ConnectionContextManager :=
  if m.getBackgroundConnectionContext.isSome then m else m.setBackgroundConnection (some preferred.selector)

/-- `#updateBackgroundRetransformDeadline` -/
def updateBackgroundRetransformDeadline (m : ConnectionContextManager) (now : ℕ) (reset : Bool) :
    ConnectionContextManager :=
  match m.getBackgroundConnectionContext, cfg.retransformIntervalMs, m.sharedRetransformReady with
  | some _, some interval, true =>
    if reset || m.group.retransformAt = none then
      { m with group := { m.group with retransformAt := some (now + interval) } }
    else m
  | _, _, _ => { m with group := { m.group with retransformAt := none } }

/-- The two calls that follow a change of the connections. -/
def refresh (m : ConnectionContextManager) (now : ℕ) : ConnectionContextManager :=
  m.refreshBackgroundConnectionContext.updateBackgroundRetransformDeadline cfg now false

def nextRevalidateAt (now : ℕ) : Option ℕ := cfg.revalidateIntervalMs.map (now + ·)

/-- `#removeConnection`; with a revision, only the connection that still has it. -/
def removeConnection (m : ConnectionContextManager) (selector : ConnectionSelector) (revision : Option ℕ) (now : ℕ) :
    ConnectionContextManager :=
  match m.getConnectionContext selector with
  | none => m
  | some c =>
    if revision.any (· ≠ c.revision) then m
    else { m with connections := m.connections.erase c.clientID }.refresh cfg now

/-- `#demoteConnection` -/
def demoteConnection (m : ConnectionContextManager) (c : ConnectionContext) (now : ℕ) : ConnectionContextManager :=
  (m.storeConnection { c with state := .provisional, revalidateAt := none }).refresh cfg now

/-! ## Operations -/

/-- The fetch context of a new connection. -/
def fetchContext (config : Option FetchConfig) (params : ConnectParams) : ConnectionFetchContext where
  url := config.bind fun c => c.url.bind List.head?
  allowedUrlPatterns := config.bind (·.url)
  headerOptions := {
    apiKey := config.bind (·.apiKey)
    customHeaders := none
    requestHeaders := filterHeaders params.requestHeaders (config.bind (·.allowedRequestHeaders))
    cookie := if config.any (·.forwardCookies) then params.httpCookie else none
    origin := params.origin
  }

def registerConnection (m : ConnectionContextManager) (params : ConnectParams) (auth : Option Auth) (now : ℕ) :
    ConnectionContextManager :=
  let m := m.removeConnection cfg ⟨params.clientID, params.wsID⟩ none now
  let connection : ConnectionContext := {
    state := .provisional
    clientID := params.clientID
    wsID := params.wsID
    user := params.userID
    auth := auth
    profileID := params.profileID
    baseCookie := params.baseCookie
    protocolVersion := params.protocolVersion
    revision := 0
    revalidateAt := none
    insertionOrder := m.nextInsertionOrder + 1
    queryContext := fetchContext cfg.queryConfig params
    mutateContext := fetchContext cfg.pushConfig params
  }
  ({ m with nextInsertionOrder := m.nextInsertionOrder + 1 }.storeConnection connection).refresh cfg now

/-- A fetch context with the URL and the headers of an `initConnection`. -/
def initFetchContext (context : ConnectionFetchContext) (url : Option String) (headers : Option Headers)
    (allowedClientHeaders : Option (List String)) : ConnectionFetchContext :=
  let context := match url.filter (· ≠ "") with
    | some url => { context with url := some url }
    | none => context
  match headers with
  | some headers =>
    { context with headerOptions :=
      { context.headerOptions with customHeaders := filterHeaders (some headers) allowedClientHeaders } }
  | none => context

def initConnection (m : ConnectionContextManager) (selector : ConnectionSelector) (body : InitConnectionBody) (now : ℕ) :
    Except ProtocolError ConnectionContextManager := do
  let connection ← m.mustGetConnectionContext selector
  return m.demoteConnection cfg { connection with
    revision := connection.revision + 1
    queryContext := initFetchContext connection.queryContext body.userQueryURL body.userQueryHeaders
      (cfg.queryConfig.bind (·.allowedClientHeaders))
    mutateContext := initFetchContext connection.mutateContext body.userPushURL body.userPushHeaders
      (cfg.pushConfig.bind (·.allowedClientHeaders)) } now

/-- `updateAuth`, until it awaits. -/
def beginUpdateAuth (m : ConnectionContextManager) (selector : ConnectionSelector) (wireAuth : Option String) :
    Except ProtocolError UpdateAuthCall := do
  let connection ← m.mustGetConnectionContext selector
  return ⟨connection, wireAuth⟩

/-- `updateAuth`, from where `resolveAuth` has resolved. -/
def completeUpdateAuth (m : ConnectionContextManager) (call : UpdateAuthCall) (next : NextAuth) (now : ℕ) :
    ConnectionContextManager :=
  match next with
  | .previous => m
  | .token auth =>
    if authEquals call.connection.auth (some auth) then m.storeConnection { call.connection with auth := some auth }
    else
      m.demoteConnection cfg { call.connection with auth := some auth, revision := call.connection.revision + 1 } now

/-- The user that a validation is of: the one the server has validated, or the one the client claims. -/
def incomingUserState (connection : ConnectionContext) : ConnectionValidation → Except ProtocolError (Option String)
  | .clientFallback => .ok connection.user
  | .serverValidated validatedUserID =>
    if connection.user ≠ validatedUserID then
      .error (unauthorized "Connection userID does not match validated server userID.")
    else .ok validatedUserID

/-- Pins the user of the group, if none is pinned. -/
def pin (m : ConnectionContextManager) (user : Option String) : ConnectionContextManager :=
  { m with group := { m.group with pinnedUser := some (m.group.pinnedUser.getD user) } }

def validatedRecord (connection : ConnectionContext) (now : ℕ) : ConnectionContext :=
  { connection with state := .validated, revalidateAt := nextRevalidateAt cfg now }

/-- The end of `validateConnection`: the user is pinned and the connection is validated. -/
def recordValidation (m : ConnectionContextManager) (connection : ConnectionContext) (user : Option String) (now : ℕ) :
    ConnectionContextManager :=
  let validated := validatedRecord cfg connection now
  let m := ((m.pin user).storeConnection validated).preferBackgroundConnectionContext validated
  m.updateBackgroundRetransformDeadline cfg now false

def validateConnection (m : ConnectionContextManager) (selector : ConnectionSelector) (revision : ℕ)
    (validation : ConnectionValidation) (now : ℕ) : Except ProtocolError ConnectionContextManager :=
  match m.getConnectionContext selector with
  | none => .ok m
  | some connection =>
    if connection.revision ≠ revision then .ok m
    else do
      let incomingUser ← incomingUserState connection validation
      if m.group.pinnedUser.any (· ≠ incomingUser) then
        throw (unauthorized ("Client groups are pinned to a single userID. " ++
          "Connection userID does not match existing client group userID."))
      return m.recordValidation cfg connection incomingUser now

def failConnection (m : ConnectionContextManager) (selector : ConnectionSelector) (revision : ℕ) (now : ℕ) :
    ConnectionContextManager :=
  m.removeConnection cfg selector (some revision) now

def closeConnection (m : ConnectionContextManager) (selector : ConnectionSelector) (now : ℕ) :
    ConnectionContextManager :=
  m.removeConnection cfg selector none now

def markBackgroundRetransformSuccess (m : ConnectionContextManager) (selector : ConnectionSelector) (revision : ℕ)
    (now : ℕ) : ConnectionContextManager :=
  match m.getBackgroundConnectionContext with
  | none => m
  | some c =>
    if c.clientID ≠ selector.clientID ∨ c.wsID ≠ selector.wsID ∨ c.revision ≠ revision then m
    else m.updateBackgroundRetransformDeadline cfg now true

def setSharedRetransformReady (m : ConnectionContextManager) (ready : Bool) (now : ℕ) : ConnectionContextManager :=
  if m.sharedRetransformReady = ready then m
  else { m with sharedRetransformReady := ready }.updateBackgroundRetransformDeadline cfg now true

end ConnectionContextManager

end ZeroSync.ConnectionContexts
