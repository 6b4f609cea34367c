/-
`zero-client/src/client/query-manager.ts`: the queries a client registers
with the server, and the changes of that set it still has to send.

An entry is an object that cleanup callbacks hold on to after its query was
evicted, so entries live in a heap and `queries` maps a hash to one. Hashes
(strings the source computes, never empty) and JSON arguments are type
parameters. What is got, the callbacks for it and the metrics are left out.
-/
import ZeroSync.AST
import ZeroSync.Fallible
import ZeroSync.OrderedMap
import ZeroSync.TTL

namespace ZeroSync

/-! ## The state -/

/-- `Entry`. -/
structure QueryManager.Entry (β : Type) where
  normalized : AST
  name : Option String
  args : Option (List β)
  count : ℤ
  ttl : ℚ

/-- `UpQueriesPatchOp`. The client sends no `clear`. -/
inductive UpQueriesPatchOp (κ β : Type)
  | put (hash : κ) (ast : Option AST) (name : Option String) (args : Option (List β)) (ttl : ℚ)
  | del (hash : κ)

/-- The cleanup callback `#add` returns: what it closes over. -/
structure CleanupCb (κ : Type) where
  entry : ℕ
  queryId : κ
  removed : Bool

/-- `QueryManager`. -/
structure QueryManager (κ β : Type) where
  /-- The entry objects, by identity. -/
  entries : ℕ → QueryManager.Entry β
  nextEntry : ℕ
  queries : OrderedMap κ ℕ
  recentQueriesMaxSize : ℕ
  recentQueries : List κ
  pendingQueryChanges : List (UpQueriesPatchOp κ β)
  /-- The arguments of `#remove` in each pending removal. -/
  pendingRemovals : List (ℕ × κ)
  cleanups : List (CleanupCb κ)

namespace UpQueriesPatchOp

variable {κ β : Type}

def hash : UpQueriesPatchOp κ β → κ
  | put hash .. => hash
  | del hash => hash

/-- `op === 'put'`. -/
def isPut : UpQueriesPatchOp κ β → Bool
  | put .. => true
  | del _ => false

end UpQueriesPatchOp

/-- The `put` of an entry. -/
def QueryManager.Entry.put {κ β : Type} (entry : QueryManager.Entry β) (hash : κ) : UpQueriesPatchOp κ β :=
  .put hash (if entry.name = none then some entry.normalized else none) entry.name entry.args entry.ttl

namespace QueryManager

variable {κ β : Type} [DecidableEq κ]

/-- A new manager. The entry before any is made is never read. -/
def init (blank : Entry β) (recentQueriesMaxSize : ℕ) : QueryManager κ β :=
  { entries := fun _ => blank, nextEntry := 0, queries := ∅, recentQueriesMaxSize, recentQueries := [],
    pendingQueryChanges := [], pendingRemovals := [], cleanups := [] }

/-- `this.#queries.has(hash)`. -/
def has (qm : QueryManager κ β) (hash : κ) : Bool := qm.queries.contains hash

/-! ## `getQueriesPatch` -/

/-- The patch from the desired queries the client has stored to its queries. -/
def patchFrom (qm : QueryManager κ β) (existingQueryHashes : List κ) : OrderedMap κ (UpQueriesPatchOp κ β) :=
  let patch := existingQueryHashes.foldl (fun patch hash => if qm.has hash then patch else patch.set hash (.del hash)) ∅
  qm.queries.entries.foldl (fun patch e =>
    if e.1 ∈ existingQueryHashes then patch
    else patch.set e.1 ({ qm.entries e.2 with ttl := clampTTL (qm.entries e.2).ttl }.put e.1)) patch

/-- The second half of `getQueriesPatch`: what `lastPatch` did not send. -/
def withoutLast (lastPatch patch : OrderedMap κ (UpQueriesPatchOp κ β)) : OrderedMap κ (UpQueriesPatchOp κ β) :=
  let patch := lastPatch.entries.foldl (fun patch e =>
    if e.2.isPut ∧ ¬ patch.contains e.1 then patch.set e.1 (.del e.1) else patch) patch
  patch.entries.foldl (fun kept e =>
    match lastPatch.get? e.1 with
    | some lastPatchOp => if lastPatchOp.isPut = e.2.isPut then kept.erase e.1 else kept
    | none => kept) patch

/-- `getQueriesPatch`. -/
def getQueriesPatch (qm : QueryManager κ β) (existingQueryHashes : List κ)
    (lastPatch : Option (OrderedMap κ (UpQueriesPatchOp κ β))) : OrderedMap κ (UpQueriesPatchOp κ β) :=
  match lastPatch with
  | none => qm.patchFrom existingQueryHashes
  | some lastPatch => withoutLast lastPatch (qm.patchFrom existingQueryHashes)

/-! ## Changes -/

/-- `#queueQueryChange`. -/
def queueQueryChange (qm : QueryManager κ β) (op : UpQueriesPatchOp κ β) : QueryManager κ β :=
  { qm with pendingQueryChanges := qm.pendingQueryChanges ++ [op] }

/-- Sets an entry object. -/
def setEntry (qm : QueryManager κ β) (i : ℕ) (entry : Entry β) : QueryManager κ β :=
  { qm with entries := Function.update qm.entries i entry }

/-- The cleanup callback `#add` returns. -/
def addCleanup (qm : QueryManager κ β) (i : ℕ) (queryId : κ) : QueryManager κ β :=
  { qm with cleanups := qm.cleanups ++ [⟨i, queryId, false⟩] }

/-- `#updateEntry`. -/
def updateEntry (qm : QueryManager κ β) (i : ℕ) (queryID : κ) (ttl : TTL) : QueryManager κ β :=
  let ttl := ttl.clamp
  if compareTTL ttl (qm.entries i).ttl > 0 then
    let entry := { qm.entries i with ttl }
    (qm.setEntry i entry).queueQueryChange (entry.put queryID)
  else qm

/-- `updateCustom`, `updateLegacy`. -/
def update (qm : QueryManager κ β) (queryID : κ) (ttl : TTL) : Except String (QueryManager κ β) :=
  match qm.queries.get? queryID with
  | some i => .ok (qm.updateEntry i queryID ttl)
  | none => .error "Unexpected undefined value"

/-- `#add`. -/
def add (qm : QueryManager κ β) (queryId : κ) (normalized : AST) (name : Option String) (args : Option (List β))
    (ttl : TTL) : Except String (QueryManager κ β) :=
  if name.isNone ≠ args.isNone then .error "If name is defined, args must be defined"
  else
    let ttl := ttl.clamp
    let qm := { qm with recentQueries := qm.recentQueries.erase queryId }
    match qm.queries.get? queryId with
    | none =>
      let entry : Entry β := { normalized, name, args, count := 1, ttl }
      let i := qm.nextEntry
      let qm := { qm.setEntry i entry with nextEntry := i + 1, queries := qm.queries.set queryId i }
      .ok ((qm.queueQueryChange (entry.put queryId)).addCleanup i queryId)
    | some i =>
      let qm := qm.setEntry i { qm.entries i with count := (qm.entries i).count + 1 }
      let qm := qm.updateEntry i queryId (.ms ttl)
      .ok (qm.addCleanup i queryId)

/-- `flushBatch`: the batch it gives to `#send`. -/
def flushBatch (qm : QueryManager κ β) : List (UpQueriesPatchOp κ β) × QueryManager κ β :=
  (qm.pendingQueryChanges, { qm with pendingQueryChanges := [] })

/-- The end of `#remove`: evicts the least recently used query. -/
def evict (qm : QueryManager κ β) : Except String (QueryManager κ β) :=
  match qm.recentQueries with
  | [] => .error "Expected LRU query ID to exist"
  | lruQueryID :: recentQueries =>
    if qm.has lruQueryID then
      .ok ({ qm with queries := qm.queries.erase lruQueryID, recentQueries }.queueQueryChange (.del lruQueryID))
    else .error "Expected evicted AST to exist"

/-- `#remove`. -/
def remove (qm : QueryManager κ β) (i : ℕ) (astHash : κ) : Except String (QueryManager κ β) :=
  let entry := { qm.entries i with count := (qm.entries i).count - 1 }
  let qm := qm.setEntry i entry
  if entry.count = 0 then
    let recentQueries := if astHash ∈ qm.recentQueries then qm.recentQueries else qm.recentQueries ++ [astHash]
    let qm := { qm with recentQueries }
    if qm.recentQueries.length > qm.recentQueriesMaxSize then qm.evict else .ok qm
  else .ok qm

/-- The `k`-th cleanup callback, called while `size` mutations are outstanding. -/
def cleanup (qm : QueryManager κ β) (size k : ℕ) : Except String (QueryManager κ β) :=
  match qm.cleanups[k]? with
  | none => .ok qm
  | some cb =>
    if cb.removed then .ok qm
    else
      let qm := { qm with cleanups := qm.cleanups.set k { cb with removed := true } }
      if size > 0 then .ok { qm with pendingRemovals := qm.pendingRemovals ++ [(cb.entry, cb.queryId)] }
      else qm.remove cb.entry cb.queryId

/-- The listener of `onAllMutationsApplied`. -/
def allMutationsApplied (qm : QueryManager κ β) : Except String (QueryManager κ β) :=
  qm.pendingRemovals.foldlM (fun qm removal => qm.remove removal.1 removal.2) { qm with pendingRemovals := [] }

end QueryManager

/-- `{table: 'issue'}`. -/
def issuesAST : AST :=
  { schema := none, table := "issue", where_ := none, related := none, start := none, limit := none, orderBy := none }

end ZeroSync
