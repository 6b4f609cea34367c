/-
`mutagen/pusher.ts`: `combinePushes`, which takes what the queue of the pusher
holds and combines the pushes of each connection into one.

Of a connection context and a push the fields are kept that `combinePushes`
compares, and those that tell one push from another. The mutations of a push are
of any type: nothing here reads them.
-/
import ZeroSync.Grouping

namespace ZeroSync

/-- The types of `Auth`. -/
inductive AuthType where
  | jwt
  | opaqueToken
  deriving DecidableEq

structure Auth where
  type : AuthType
  raw : String
  deriving DecidableEq

/-- `authEquals`: two auths that are one object have one type and one token. -/
def authEquals (a b : Option Auth) : Bool :=
  match a, b with
  | none, none => true
  | some a, some b => a.type = b.type && a.raw = b.raw
  | _, _ => false

/-- Of `HeaderOptions`. -/
structure HeaderOptions where
  cookie : Option String
  origin : Option String
  deriving DecidableEq

/-- `ConnectionFetchContext`. -/
structure FetchContext where
  url : Option String
  headerOptions : HeaderOptions
  deriving DecidableEq

/-- One auth revision of one socket of a client. -/
structure ConnectionSnapshot where
  clientID : String
  wsID : String
  revision : ℕ
  deriving DecidableEq

/-- `ConnectionContext`. -/
structure ConnectionContext extends ConnectionSnapshot where
  auth : Option Auth
  /-- `user.id` -/
  userID : Option String
  mutateContext : FetchContext
  deriving DecidableEq

structure PushBody (μ : Type) where
  mutations : List μ
  schemaVersion : Option ℕ
  pushVersion : ℕ
  timestamp : ℕ
  requestID : String
  deriving DecidableEq

structure PusherEntry (μ : Type) where
  push : PushBody μ
  connCtx : ConnectionContext
  deriving DecidableEq

/-- `PusherEntryOrStop | undefined`. -/
inductive QueuedEntry (μ : Type) where
  | entry (e : PusherEntry μ)
  | stop
  | undefined
  deriving DecidableEq

namespace CombinePushes

variable {μ : Type}

/-- `assert`. -/
def assert (b : Bool) (message : String) : Except String Unit := if b then .ok () else .error message

def assertAreCompatiblePushes (left right : PusherEntry μ) : Except String Unit := do
  assert (left.connCtx.clientID = right.connCtx.clientID) "clientID must be the same for all pushes"
  assert (left.connCtx.wsID = right.connCtx.wsID) "wsID must be the same for all pushes"
  assert (left.connCtx.revision = right.connCtx.revision) "revision must be the same for all pushes"
  assert (authEquals left.connCtx.auth right.connCtx.auth)
    "auth must be the same for all pushes with the same clientID"
  assert (left.push.schemaVersion = right.push.schemaVersion)
    "schemaVersion must be the same for all pushes with the same clientID"
  assert (left.push.pushVersion = right.push.pushVersion)
    "pushVersion must be the same for all pushes with the same clientID"
  assert (left.connCtx.mutateContext.headerOptions.cookie = right.connCtx.mutateContext.headerOptions.cookie)
    "httpCookie must be the same for all pushes with the same clientID"
  assert (left.connCtx.mutateContext.headerOptions.origin = right.connCtx.mutateContext.headerOptions.origin)
    "origin must be the same for all pushes with the same clientID"
  assert (left.connCtx.userID = right.connCtx.userID) "userID must be the same for all pushes with the same clientID"
  assert (left.connCtx.mutateContext.url = right.connCtx.mutateContext.url)
    "userPushURL must be the same for all pushes with the same clientID"

/-- The key that `combinePushes` groups entries by. -/
def key (entry : PusherEntry μ) : String :=
  s!"{entry.connCtx.clientID}:{entry.connCtx.wsID}:{entry.connCtx.revision}"

/-- The composite with the mutations of one more entry. -/
def addMutations (composite entry : PusherEntry μ) : Except String (PusherEntry μ) := do
  assertAreCompatiblePushes composite entry
  return { composite with push.mutations := composite.push.mutations ++ entry.push.mutations }

/-- The composite of the entries of a connection. -/
def compositeOf (entries : List (PusherEntry μ)) : Except String (PusherEntry μ) :=
  match entries with
  | [] => .error "Cannot read properties of undefined (reading 'push')"
  | first :: _ => entries.foldlM addMutations { first with push.mutations := [] }

def collect (pushesByConnection : OrderedMap String (List (PusherEntry μ))) : Except String (List (PusherEntry μ)) :=
  pushesByConnection.values.mapM compositeOf

/-- The loop over the entries, which ends at the first that is no push. -/
def combineFrom (pushesByConnection : OrderedMap String (List (PusherEntry μ))) :
    List (QueuedEntry μ) → Except String (List (PusherEntry μ) × Bool)
  | [] => do return (← collect pushesByConnection, false)
  | .stop :: _ | .undefined :: _ => do return (← collect pushesByConnection, true)
  | .entry entry :: entries =>
    match pushesByConnection.get? (key entry) with
    | some existing => combineFrom (pushesByConnection.set (key entry) (existing ++ [entry])) entries
    | none => combineFrom (pushesByConnection.set (key entry) [entry]) entries

end CombinePushes

/-- `combinePushes`. -/
def combinePushes {μ : Type} (entries : List (QueuedEntry μ)) : Except String (List (PusherEntry μ) × Bool) :=
  CombinePushes.combineFrom ∅ entries

end ZeroSync
