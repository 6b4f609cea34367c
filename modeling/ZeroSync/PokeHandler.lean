/-
`zero-client/src/client/zero-poke-handler.ts` with what `zero.ts` does around
it: the last mutation ids the client receives, applies and reports.

A poke is kept as far as the client's own last mutation ID and the cookies
go; its patches are left out, and a chunk decodes by a function that is a
parameter. The playback loop may begin a frame whenever the poke lock is
free, and a frame takes as long as it takes.
-/
import ZeroSync.MutationTracker
import ZeroSync.Runs
import Mathlib

namespace ZeroSync

/-- `PokeStartBody`; the base cookie may be `null`. -/
structure PokeStart (ω : Type) where
  pokeID : String
  baseCookie : Option ω
  deriving DecidableEq

/-- `PokePartBody`: the client's entry of `lastMutationIDChanges`. -/
structure PokePart where
  pokeID : String
  lastMutationID : Option ℕ
  deriving DecidableEq

/-- `PokeEndBody`. -/
structure PokeEnd (ω : Type) where
  pokeID : String
  cookie : ω
  cancel : Bool
  deriving DecidableEq

/-- `ReceivingPoke`. -/
structure ReceivingPoke (ω γ : Type) where
  pokeStart : PokeStart ω
  parts : List PokePart
  chunks : List γ

/-- `PokeAccumulator`. -/
structure PokeAccumulator (ω : Type) where
  pokeStart : PokeStart ω
  parts : List PokePart
  pokeEnd : PokeEnd ω

/-- `PokeInternal`, what `mergePokes` makes of a buffer. -/
structure PokeInternal (ω : Type) where
  baseCookie : Option ω
  cookie : ω
  lastMutationID : Option ℕ

/-- The last value that parts carry: of `summarizePoke`, and of the merged changes. -/
def lastMutationIDChange (parts : List PokePart) : Option ℕ := (parts.filterMap (·.lastMutationID)).getLast?

section MergePokes

variable {ω : Type} [LinearOrder ω]

/-- Two pokes one after the other leave a gap between their cookies. -/
def cookieGap (prev next : PokeAccumulator ω) : Bool :=
  match next.pokeStart.baseCookie with
  | some base => decide (prev.pokeEnd.cookie < base)
  | none => false

/-- A gap anywhere in a buffer. -/
def hasCookieGap : List (PokeAccumulator ω) → Bool
  | prev :: next :: rest => cookieGap prev next || hasCookieGap (next :: rest)
  | _ => false

/-- `mergePokes`. -/
def mergePokes (pokeBuffer : List (PokeAccumulator ω)) : Except String (Option (PokeInternal ω)) :=
  match pokeBuffer.head?, pokeBuffer.getLast? with
  | some first, some lastPoke =>
    if hasCookieGap pokeBuffer then .error "unexpected cookie gap"
    else
      .ok (some {
        baseCookie := first.pokeStart.baseCookie
        cookie := lastPoke.pokeEnd.cookie
        lastMutationID := lastMutationIDChange (pokeBuffer.flatMap (·.parts)) })
  | _, _ => .ok none

end MergePokes

/-- The client as far as its last mutation ids go. -/
structure PokeSession (ω γ δ ε : Type) where
  /-- The cookie of the client's store, and its last mutation ID there. -/
  cookie : Option ω
  lastMutationID : Option ℕ
  tracker : MutationTracker δ ε
  lastMutationIDReceived : ℕ
  receivingPoke : Option (ReceivingPoke ω γ)
  pokeBuffer : List (PokeAccumulator ω)
  /-- The frame that holds the poke lock and is being applied. -/
  inFlight : Option (PokeInternal ω)
  socket : Bool
  /-- The attempt still waits for its `connected`. -/
  connecting : Bool
  /-- `connectCookie`: the store's cookie when the attempt read it. -/
  connectCookie : Option ω
  /-- The cookie up to which the server has sent pokes by this socket. -/
  sent : Option ω
  /-- Every id that a poke has brought. -/
  received : List ℕ
  /-- Every value given to `lmidAdvanced`, with the tracker's id at that time. -/
  calls : List (ℕ × ℕ)
  /-- The ids of the mutations that `lmidAdvanced` settled. -/
  reported : List ℕ

namespace PokeSession

variable {ω γ δ ε : Type} [LinearOrder ω] (decodePokeChunks : List γ → Except String (List PokePart))

/-- What happens to the client. -/
inductive Event (ω γ ε : Type)
  | trackMutation
  | mutationIDAssigned (id mutationID : ℕ)
  | rejectMutation (id : ℕ) (e : ε)
  | pokeStart (pokeStart : PokeStart ω)
  | pokePart (pokePart : PokePart)
  | pokeChunk (chunk : γ)
  | pokeEnd (pokeEnd : PokeEnd ω)
  /-- A scheduled callback gets the poke lock. -/
  | beginFrame
  /-- The frame has been applied, or its application failed for a reason of the store. -/
  | endFrame (fails : Bool)
  | disconnect
  /-- An attempt reads the store's cookie. -/
  | readCookie
  /-- Its socket is opened. -/
  | connect
  /-- `connected` has been handled and `#connectAttempt` goes on. -/
  | connected

def init (clientID : String) : PokeSession ω γ δ ε :=
  { cookie := none, lastMutationID := none, tracker := .init clientID, lastMutationIDReceived := 0, receivingPoke := none,
    pokeBuffer := [], inFlight := none, socket := false, connecting := false, connectCookie := none, sent := none, received := [], calls := [],
    reported := [] }

/-- `#clear`. -/
def clear (s : PokeSession ω γ δ ε) : PokeSession ω γ δ ε := { s with receivingPoke := none, pokeBuffer := [] }

/-- `#disconnect`. -/
def disconnect (s : PokeSession ω γ δ ε) : PokeSession ω γ δ ε := { s.clear with socket := false, connecting := false }

/-- `#handlePokeError`: clears, and disconnects. -/
def handlePokeError (s : PokeSession ω γ δ ε) : PokeSession ω γ δ ε := s.clear.disconnect

/-- The client receives a last mutation ID of its own. -/
def receive (s : PokeSession ω γ δ ε) : Option ℕ → PokeSession ω γ δ ε
  | some n => { s with lastMutationIDReceived := n, received := s.received ++ [n] }
  | none => s

def handlePokeStart (s : PokeSession ω γ δ ε) (pokeStart : PokeStart ω) : PokeSession ω γ δ ε :=
  match s.receivingPoke with
  | some _ => s.handlePokeError
  | none => { s with receivingPoke := some ⟨pokeStart, [], []⟩ }

def handlePokePart (s : PokeSession ω γ δ ε) (pokePart : PokePart) : PokeSession ω γ δ ε :=
  match s.receivingPoke with
  | none => s.handlePokeError
  | some poke =>
    if pokePart.pokeID ≠ poke.pokeStart.pokeID then s.handlePokeError
    else if poke.chunks.length > 0 then s.handlePokeError
    else
      receive { s with receivingPoke := some { poke with parts := poke.parts ++ [pokePart] } } pokePart.lastMutationID

def handlePokeChunk (s : PokeSession ω γ δ ε) (chunk : γ) : PokeSession ω γ δ ε :=
  match s.receivingPoke with
  | none => s.handlePokeError
  | some poke =>
    if poke.parts.length > 0 then s.handlePokeError
    else { s with receivingPoke := some { poke with chunks := poke.chunks ++ [chunk] } }

/-- The parts of a poke that ends. -/
def partsOf (poke : ReceivingPoke ω γ) : Except String (List PokePart) :=
  if poke.chunks.length > 0 then decodePokeChunks poke.chunks else .ok poke.parts

def handlePokeEnd (s : PokeSession ω γ δ ε) (pokeEnd : PokeEnd ω) : PokeSession ω γ δ ε :=
  match s.receivingPoke with
  | none => s.handlePokeError
  | some poke =>
    if pokeEnd.pokeID ≠ poke.pokeStart.pokeID then s.handlePokeError
    else if pokeEnd.cancel then { s with receivingPoke := none }
    else
      match partsOf decodePokeChunks poke with
      | .error _ => s.handlePokeError
      | .ok parts =>
        receive { s with
          pokeBuffer := s.pokeBuffer ++ [⟨poke.pokeStart, parts, pokeEnd⟩]
          receivingPoke := none
          sent := some pokeEnd.cookie } (lastMutationIDChange parts)

/-- `lmidAdvanced`: on an assertion that fails, `none`. -/
def lmidAdvanced (s : PokeSession ω γ δ ε) (lmid : ℕ) : PokeSession ω γ δ ε × Bool :=
  let s := { s with calls := s.calls ++ [(lmid, s.tracker.currentMutationID)] }
  match s.tracker.lmidAdvanced lmid with
  | .error _ => (s, false)
  | .ok (tracker, _) =>
    let settled := s.tracker.outstandingMutations.entries.filter fun e => (tracker.outstandingMutations.get? e.1).isNone
    ({ s with tracker, reported := s.reported ++ settled.filterMap (·.2) }, true)

/-- `#processPokesForFrame` up to the poke of Replicache. -/
def beginFrame (s : PokeSession ω γ δ ε) : PokeSession ω γ δ ε :=
  match s.inFlight with
  | some _ => s
  | none =>
    match mergePokes s.pokeBuffer with
    | .error _ => s.handlePokeError
    | .ok merged => { s with pokeBuffer := [], inFlight := merged }

/-- `handlePullResponseV1`: the store after a poke. -/
def handlePullResponse (s : PokeSession ω γ δ ε) (poke : PokeInternal ω) : Except String (PokeSession ω γ δ ε) :=
  if poke.baseCookie ≠ s.cookie then .error "unexpected base cookie for poke"
  else if (poke.lastMutationID.any fun lmid => s.lastMutationID.any fun old => decide (lmid < old)) then
    .error "Received lastMutationID is < than last snapshot lastMutationID; ignoring client view"
  else if s.cookie.any fun cookie => decide (poke.cookie < cookie) then
    .error "Received cookie is < than last snapshot cookie; ignoring client view"
  else if some poke.cookie = s.cookie then .ok s
  else .ok { s with cookie := some poke.cookie, lastMutationID := poke.lastMutationID.or s.lastMutationID }

/-- `#processPokesForFrame` from the poke of Replicache on. -/
def endFrame (s : PokeSession ω γ δ ε) (fails : Bool) : PokeSession ω γ δ ε :=
  match s.inFlight with
  | none => s
  | some poke =>
    let s := { s with inFlight := none }
    if fails then s.handlePokeError
    else
      match s.handlePullResponse poke with
      | .error _ => s.handlePokeError
      | .ok s =>
        match poke.lastMutationID with
        | none => s
        | some lmid =>
          let (s, ok) := s.lmidAdvanced lmid
          if ok then s else s.handlePokeError

/-- The end of `#connectAttempt`: `onConnected`. -/
def handleConnected (s : PokeSession ω γ δ ε) : PokeSession ω γ δ ε :=
  if s.connecting then
    let (s, ok) := lmidAdvanced { s with connecting := false } s.lastMutationIDReceived
    if ok then s else s.disconnect
  else s

def step (s : PokeSession ω γ δ ε) : Event ω γ ε → PokeSession ω γ δ ε
  | .trackMutation => { s with tracker := s.tracker.trackMutation }
  | .mutationIDAssigned id mutationID => { s with tracker := s.tracker.mutationIDAssigned id mutationID }
  | .rejectMutation id e => { s with tracker := s.tracker.rejectMutation id e }
  | .pokeStart pokeStart => if s.socket then s.handlePokeStart pokeStart else s
  | .pokePart pokePart => if s.socket then s.handlePokePart pokePart else s
  | .pokeChunk chunk => if s.socket then s.handlePokeChunk chunk else s
  | .pokeEnd pokeEnd => if s.socket then s.handlePokeEnd decodePokeChunks pokeEnd else s
  | .beginFrame => s.beginFrame
  | .endFrame fails => s.endFrame fails
  | .disconnect => s.disconnect
  | .readCookie => { s with connectCookie := s.cookie }
  | .connect => if s.socket then s else { s with socket := true, connecting := true, sent := s.connectCookie }
  | .connected => s.handleConnected

/-! ## The server's pokes -/

/-- What the server sends when the client's last mutation ID at a cookie is
`lmidAt`: pokes one after the other from the cookie the client connected
with, each with the ID at its cookie if that is another one. -/
def Legal (lmidAt : Option ω → ℕ) (s : PokeSession ω γ δ ε) : Event ω γ ε → Prop
  | .pokeStart pokeStart => pokeStart.baseCookie = s.sent
  | .pokePart pokePart => ∀ n, pokePart.lastMutationID = some n → lmidAt s.sent ≤ n
  | .pokeEnd pokeEnd => ∀ poke parts, s.receivingPoke = some poke → partsOf decodePokeChunks poke = .ok parts →
      pokeEnd.cancel = false → (∀ cookie, s.sent = some cookie → cookie < pokeEnd.cookie) ∧
        lastMutationIDChange parts =
          if lmidAt (some pokeEnd.cookie) = lmidAt s.sent then none else some (lmidAt (some pokeEnd.cookie))
  | _ => True

/-! ## The order of the ids -/

/-- The ids on their way to the tracker: that of the frame in flight, and the
one the buffer would be merged to. -/
def carried (s : PokeSession ω γ δ ε) : List ℕ :=
  (s.inFlight.bind (·.lastMutationID)).toList ++ (lastMutationIDChange (s.pokeBuffer.flatMap (·.parts))).toList

/-- The id that a message brings. -/
def brings (s : PokeSession ω γ δ ε) : Event ω γ ε → Option ℕ
  | .pokePart pokePart => if s.socket then pokePart.lastMutationID else none
  | .pokeEnd pokeEnd =>
    match s.receivingPoke with
    | none => none
    | some poke =>
      if pokeEnd.cancel then none
      else
        match partsOf decodePokeChunks poke with
        | .ok parts => if s.socket then lastMutationIDChange parts else none
        | .error _ => none
  | _ => none

/-- No message brings an id below the tracker's or below one that is on its
way; and when `connected` is handled, no id on its way is below the last one
received. -/
def Guarded (s : PokeSession ω γ δ ε) (e : Event ω γ ε) : Prop :=
  (∀ n, s.brings decodePokeChunks e = some n → s.tracker.currentMutationID ≤ n ∧ ∀ m ∈ s.carried, m ≤ n) ∧
    (e = .connected → ∀ m ∈ s.carried, s.lastMutationIDReceived ≤ m)

/-- Every value given to `lmidAdvanced` is at least the tracker's id, and a
mutation it settles is covered by an id that a poke brought. -/
structure Right (s : PokeSession ω γ δ ε) : Prop where
  calls : ∀ call ∈ s.calls, call.2 ≤ call.1
  reported : ∀ m ∈ s.reported, ∃ n ∈ s.received, m ≤ n

end PokeSession

end ZeroSync
