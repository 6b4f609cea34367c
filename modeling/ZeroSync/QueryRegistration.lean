/-
What the server holds as desired, and the client's queries: the handshake's
patch, the patch that answers `connected`, and the batches.

The client's stored keys and the server's record agree when an attempt
starts. From then on the server holds what the ops it received say of a
hash last, and a batch that is flushed before the connection is up is lost.
-/
import ZeroSync.QueryManager
import ZeroSync.Runs
import Mathlib.Data.List.Perm.Basic

namespace ZeroSync

variable {κ β : Type} [DecidableEq κ]

/-! ## A record of what is desired -/

/-- The hashes desired after an op. -/
def desire (desired : List κ) : UpQueriesPatchOp κ β → List κ
  | .put hash .. => if hash ∈ desired then desired else desired ++ [hash]
  | .del hash => desired.filter (· ≠ hash)

/-- The hashes desired after the ops of a message. -/
def desireAll (desired : List κ) (ops : List (UpQueriesPatchOp κ β)) : List κ := ops.foldl desire desired

/-- What a list of ops says of a hash last: whether it is desired, or nothing. -/
def lastSaid (ops : List (UpQueriesPatchOp κ β)) (hash : κ) : Option Bool :=
  ops.foldl (fun said op => if op.hash = hash then some op.isPut else said) none

theorem mem_desire (desired : List κ) (op : UpQueriesPatchOp κ β) (hash : κ) :
    hash ∈ desire desired op ↔ if op.hash = hash then op.isPut = true else hash ∈ desired := by
  cases op with
  | put hash' =>
    by_cases h : hash' = hash
    · subst h
      by_cases hmem : hash' ∈ desired <;> simp [desire, UpQueriesPatchOp.hash, UpQueriesPatchOp.isPut, hmem]
    · by_cases hmem : hash' ∈ desired <;> simp [desire, UpQueriesPatchOp.hash, hmem, h, Ne.symm h]
  | del hash' =>
    by_cases h : hash' = hash
    · simp [desire, UpQueriesPatchOp.hash, UpQueriesPatchOp.isPut, h]
    · simp [desire, UpQueriesPatchOp.hash, h, Ne.symm h]

theorem lastSaid_concat (ops : List (UpQueriesPatchOp κ β)) (op : UpQueriesPatchOp κ β) (hash : κ) :
    lastSaid (ops ++ [op]) hash = if op.hash = hash then some op.isPut else lastSaid ops hash := by
  simp [lastSaid]

theorem mem_desireAll (desired : List κ) (ops : List (UpQueriesPatchOp κ β)) (hash : κ) :
    hash ∈ desireAll desired ops ↔ match lastSaid ops hash with | some b => b = true | none => hash ∈ desired := by
  induction ops using List.reverseRecOn with
  | nil => exact Iff.rfl
  | append_singleton ops op ih =>
    have hconcat : desireAll desired (ops ++ [op]) = desire (desireAll desired ops) op := by simp [desireAll]
    rw [hconcat, mem_desire, lastSaid_concat]
    by_cases h : op.hash = hash
    · simp [h]
    · simpa [h] using ih

/-- A patch whose ops are about their keys. -/
def KeyedByHash (patch : OrderedMap κ (UpQueriesPatchOp κ β)) : Prop := ∀ k op, patch.get? k = some op → op.hash = k

theorem lastSaid_values {patch : OrderedMap κ (UpQueriesPatchOp κ β)} (hkeyed : KeyedByHash patch) (hash : κ) :
    lastSaid patch.values hash = (patch.get? hash).map (·.isPut) := by
  have hkey : ∀ e ∈ patch.entries, e.2.hash = e.1 := fun e he => hkeyed e.1 e.2 ((patch.mem_entries_iff e.1 e.2).mp he)
  have hnodup := patch.nodup
  simp only [OrderedMap.values, OrderedMap.get?]
  generalize patch.entries = l at hkey hnodup
  induction l using List.reverseRecOn with
  | nil => rfl
  | append_singleton l e ih =>
    rw [List.map_append, List.nodup_append] at hnodup
    have hnot : e.1 ∉ l.map (·.1) := fun hm => hnodup.2.2 e.1 hm e.1 (by simp) rfl
    have hih := ih (fun e he => hkey e (List.mem_append_left _ he)) hnodup.1
    have he := hkey e (by simp)
    rw [List.map_append, List.map_singleton, lastSaid_concat, hih, he, OrderedMap.lookup_append]
    by_cases h : e.1 = hash
    · subst h
      simp [OrderedMap.lookup_of_notMem hnot, OrderedMap.lookup]
    · simp [h, OrderedMap.lookup]

/-! ## What a patch says -/

namespace QueryManager

variable {qm : QueryManager κ β} {stored : List κ} {lastPatch patch : OrderedMap κ (UpQueriesPatchOp κ β)}

theorem has_iff (qm : QueryManager κ β) (hash : κ) : qm.has hash = true ↔ hash ∈ qm.queries.keys := by
  rw [has, OrderedMap.contains, OrderedMap.mem_keys_iff]

/-- A patch holds a `del` for each stored query that is none any more, and a
`put` for each query that is not stored. -/
theorem get?_patchFrom (qm : QueryManager κ β) (stored : List κ) (hash : κ) :
    ((qm.patchFrom stored).get? hash).map (·.isPut) =
      if hash ∈ stored then (if qm.has hash then none else some false) else if qm.has hash then some true else none := by
  have hdels : ∀ m : OrderedMap κ (UpQueriesPatchOp κ β),
      ((stored.foldl (fun patch hash => if qm.has hash then patch else patch.set hash (.del hash)) m).get? hash) =
        if hash ∈ stored ∧ qm.has hash = false then some (.del hash) else m.get? hash := by
    induction stored with
    | nil => simp
    | cons h l ih =>
      intro m
      rw [List.foldl_cons, ih]
      by_cases hh : hash = h
      · subst hh
        by_cases hq : qm.has hash = true <;> simp [hq]
      · by_cases hq : qm.has h = true
        · simp [hq, hh]
        · simp [hq, hh, OrderedMap.get?_set_of_ne _ _ (Ne.symm hh)]
  rw [patchFrom, OrderedMap.get?_foldl (g := fun k i op => if k ∈ stored then op
    else some ({ qm.entries i with ttl := clampTTL (qm.entries i).ttl }.put k)) ?_, hdels]
  · simp only [has, OrderedMap.contains]
    rcases Option.eq_none_or_eq_some (qm.queries.get? hash) with hq | ⟨i, hq⟩
    · by_cases hs : hash ∈ stored <;> simp [hq, hs, UpQueriesPatchOp.isPut]
    · by_cases hs : hash ∈ stored <;> simp [hq, hs, Entry.put, UpQueriesPatchOp.isPut]
  · intro m e k
    by_cases hk : e.1 = k
    · subst hk
      by_cases hs : e.1 ∈ stored <;> simp [hs]
    · by_cases hs : e.1 ∈ stored <;> simp [hs, hk, OrderedMap.get?_set_of_ne]

/-- What is left of a patch beside the last one: a `del` for what only the
last one put, and nothing that the last one says. -/
theorem get?_withoutLast (lastPatch patch : OrderedMap κ (UpQueriesPatchOp κ β)) (hash : κ) :
    ((withoutLast lastPatch patch).get? hash).map (·.isPut) =
      let said := if (lastPatch.get? hash).map (·.isPut) = some true ∧ patch.get? hash = none then some false
        else (patch.get? hash).map (·.isPut)
      if (lastPatch.get? hash).map (·.isPut) = said then none else said := by
  rw [withoutLast, OrderedMap.get?_foldl (g := fun k v kept => (lastPatch.get? k).elim kept fun lastPatchOp =>
    if lastPatchOp.isPut = v.isPut then none else kept) ?_, OrderedMap.get?_foldl (g := fun k v op => if v.isPut ∧ op = none then some (.del k) else op) ?_]
  · have hdel : (UpQueriesPatchOp.del hash : UpQueriesPatchOp κ β).isPut = false := rfl
    rcases Option.eq_none_or_eq_some (lastPatch.get? hash) with hl | ⟨l, hl⟩
    · rcases Option.eq_none_or_eq_some (patch.get? hash) with hp | ⟨op, hp⟩ <;> simp [hl, hp]
    · rcases Option.eq_none_or_eq_some (patch.get? hash) with hp | ⟨op, hp⟩
      · by_cases hput : l.isPut = true <;> simp [hl, hp, hput, hdel]
      · by_cases hput : l.isPut = op.isPut <;> simp [hl, hp, hput]
  · intro m e k
    by_cases hk : e.1 = k
    · subst hk
      by_cases hc : e.2.isPut = true ∧ m.get? e.1 = none <;> simp [hc, OrderedMap.contains]
    · split <;> simp [hk, OrderedMap.get?_set_of_ne]
  · intro m e k
    by_cases hk : e.1 = k
    · subst hk
      rcases Option.eq_none_or_eq_some (lastPatch.get? e.1) with hl | ⟨l, hl⟩
      · simp [hl]
      · by_cases hput : l.isPut = e.2.isPut <;> simp [hl, hput, OrderedMap.get?_erase]
    · rcases Option.eq_none_or_eq_some (lastPatch.get? e.1) with hl | ⟨l, hl⟩
      · simp [hl, hk]
      · by_cases hput : l.isPut = e.2.isPut <;> simp [hl, hput, hk, OrderedMap.get?_erase]

end QueryManager

namespace KeyedByHash

variable {patch : OrderedMap κ (UpQueriesPatchOp κ β)}

theorem set (h : KeyedByHash patch) {k : κ} {op : UpQueriesPatchOp κ β} (hop : op.hash = k) :
    KeyedByHash (patch.set k op) := by
  intro k' op' hop'
  by_cases hk : k = k'
  · subst hk
    rw [OrderedMap.get?_set_self] at hop'
    exact Option.some.inj hop' ▸ hop
  · rw [OrderedMap.get?_set_of_ne _ _ hk] at hop'
    exact h k' op' hop'

theorem erase (h : KeyedByHash patch) (k : κ) : KeyedByHash (patch.erase k) := by
  intro k' op hop
  rw [OrderedMap.get?_erase] at hop
  split at hop
  · cases hop
  · exact h k' op hop

theorem foldl {α : Type} {step : OrderedMap κ (UpQueriesPatchOp κ β) → α → OrderedMap κ (UpQueriesPatchOp κ β)}
    (hstep : ∀ m a, KeyedByHash m → KeyedByHash (step m a)) (l : List α) (h : KeyedByHash patch) :
    KeyedByHash (l.foldl step patch) := by
  induction l generalizing patch with
  | nil => exact h
  | cons a l ih => exact ih (hstep patch a h)

end KeyedByHash

namespace QueryManager

theorem patchFrom_keyed (qm : QueryManager κ β) (stored : List κ) : KeyedByHash (qm.patchFrom stored) := by
  refine KeyedByHash.foldl (fun m e hm => ?_) _ (KeyedByHash.foldl (fun m hash hm => ?_) _ fun k op hop => by cases hop)
  · dsimp only
    split
    · exact hm
    · exact hm.set rfl
  · split
    · exact hm
    · exact hm.set rfl

theorem withoutLast_keyed {lastPatch patch : OrderedMap κ (UpQueriesPatchOp κ β)} (h : KeyedByHash patch) :
    KeyedByHash (withoutLast lastPatch patch) := by
  refine KeyedByHash.foldl (fun m e hm => ?_) _ (KeyedByHash.foldl (fun m e hm => ?_) _ h)
  · split
    · split
      · exact hm.erase _
      · exact hm
    · exact hm
  · split
    · exact hm.set rfl
    · exact hm

theorem getQueriesPatch_keyed (qm : QueryManager κ β) (stored : List κ)
    (lastPatch : Option (OrderedMap κ (UpQueriesPatchOp κ β))) : KeyedByHash (qm.getQueriesPatch stored lastPatch) := by
  cases lastPatch with
  | none => exact qm.patchFrom_keyed stored
  | some lastPatch => exact withoutLast_keyed (qm.patchFrom_keyed stored)

theorem mem_desireAll_patchFrom (qm : QueryManager κ β) (stored : List κ) (hash : κ) :
    hash ∈ desireAll stored (qm.patchFrom stored).values ↔ qm.has hash = true := by
  rw [mem_desireAll, lastSaid_values (qm.patchFrom_keyed stored), qm.get?_patchFrom]
  by_cases hs : hash ∈ stored <;> by_cases hq : qm.has hash = true <;> simp [hs, hq]

/-- After the handshake's patch and the second one the server holds exactly
the queries there are by then that the handshake did not delete. -/
theorem mem_desireAll_second (first second : QueryManager κ β) (stored : List κ) (hash : κ) :
    hash ∈ desireAll (desireAll stored (first.patchFrom stored).values)
        (second.getQueriesPatch stored (some (first.patchFrom stored))).values ↔
      second.has hash = true ∧ ((first.patchFrom stored).get? hash).map (·.isPut) ≠ some false := by
  rw [mem_desireAll, lastSaid_values (second.getQueriesPatch_keyed stored _), getQueriesPatch, get?_withoutLast,
    mem_desireAll_patchFrom, first.get?_patchFrom, second.get?_patchFrom]
  have hnone : (second.patchFrom stored).get? hash = none ↔ (hash ∈ stored ↔ second.has hash = true) := by
    rw [← Option.map_eq_none_iff (f := (·.isPut)), second.get?_patchFrom]
    by_cases hs : hash ∈ stored <;> by_cases hq : second.has hash = true <;> simp [hs, hq]
  simp only [hnone]
  by_cases hs : hash ∈ stored <;> by_cases hq : first.has hash = true <;> by_cases hq' : second.has hash = true <;>
    simp [hs, hq, hq']

end QueryManager

/-! ## Sessions -/

/-- A handler of `connected` that waits for its patch: the attempt whose
socket the message came by, and the patch with the queries it was read from. -/
structure ConnectedHandler (κ β : Type) where
  attempt : ℕ
  read : List κ
  queriesPatch : OrderedMap κ (UpQueriesPatchOp κ β)

/-- A client's connection as far as its queries go, and the server's record. -/
structure QuerySession (κ β : Type) where
  queryManager : QueryManager κ β
  /-- The client's stored desired-query keys. -/
  stored : List κ
  attempts : ℕ
  /-- `#socket`, by the attempt that opened it. -/
  socket : Option ℕ
  /-- The socket's `connected` has arrived. -/
  acknowledged : Bool
  initConnectionQueries : Option (OrderedMap κ (UpQueriesPatchOp κ β))
  handlers : List (ConnectedHandler κ β)
  /-- `#connectionManager.is(ConnectionStatus.Connected)`. -/
  connected : Bool
  /-- The hashes the server holds as desired for the client. -/
  server : List κ

namespace QuerySession

/-- What happens to a session. -/
inductive Event (κ β : Type)
  | add (queryId : κ) (normalized : AST) (name : Option String) (args : Option (List β)) (ttl : TTL)
  | cleanup (size k : ℕ)
  | allMutationsApplied
  | update (queryID : κ) (ttl : TTL)
  | flushBatch
  /-- `createSocket`, while the client stores `stored`; the patch may not fit the header. -/
  | openSocket (stored : List κ) (fits : Bool)
  /-- `connected` arrives, and its handler reads the second patch. -/
  | connected
  /-- The `k`-th handler goes on with its patch. -/
  | answer (k : ℕ)
  | disconnect

def init (blank : QueryManager.Entry β) (recentQueriesMaxSize : ℕ) : QuerySession κ β :=
  { queryManager := .init blank recentQueriesMaxSize, stored := [], attempts := 0, socket := none, acknowledged := false,
    initConnectionQueries := none, handlers := [], connected := false, server := [] }

/-- A call of the query manager; one that throws leaves it as it is. -/
def change (s : QuerySession κ β) : Except String (QueryManager κ β) → QuerySession κ β
  | .ok queryManager => { s with queryManager }
  | .error _ => s

/-- `#send`, of a message with a patch. -/
def send (s : QuerySession κ β) (desiredQueriesPatch : List (UpQueriesPatchOp κ β)) : QuerySession κ β :=
  if s.socket.isSome then { s with server := desireAll s.server desiredQueriesPatch } else s

/-- `flushBatch` with `#sendIfConnected`. -/
def flushBatch (s : QuerySession κ β) : QuerySession κ β :=
  let (batch, queryManager) := s.queryManager.flushBatch
  { if s.connected then s.send batch else s with queryManager }

/-- `createSocket` and what `#connectAttempt` does with its result. The server
takes the handshake's patch; an attempt is refused while connected. -/
def openSocket (s : QuerySession κ β) (stored : List κ) (fits : Bool) : QuerySession κ β :=
  if s.connected then s
  else
    let queriesPatch := s.queryManager.getQueriesPatch stored none
    { s with
      stored
      attempts := s.attempts + 1
      socket := some s.attempts
      acknowledged := false
      initConnectionQueries := if fits then some queriesPatch else none
      server := if fits then desireAll stored queriesPatch.values else stored }

/-- `#handleConnectedMessage` up to the patch it awaits. -/
def receiveConnected (s : QuerySession κ β) : QuerySession κ β :=
  match s.socket with
  | none => s
  | some attempt =>
    if s.acknowledged then s
    else
      let queriesPatch := s.queryManager.getQueriesPatch s.stored s.initConnectionQueries
      { s with acknowledged := true, handlers := s.handlers ++ [⟨attempt, s.queryManager.queries.keys, queriesPatch⟩] }

/-- `#handleConnectedMessage` once it has its patch. -/
def answer (s : QuerySession κ β) (k : ℕ) : QuerySession κ β :=
  match s.handlers[k]? with
  | none => s
  | some handler =>
    let sends := (0 < handler.queriesPatch.entries.length ∧ s.initConnectionQueries.isSome) ∨ s.initConnectionQueries.isNone
    { if sends then s.send handler.queriesPatch.values else s with
      handlers := s.handlers.eraseIdx k, initConnectionQueries := none, connected := true }

def step (s : QuerySession κ β) : Event κ β → QuerySession κ β
  | .add queryId normalized name args ttl => s.change (s.queryManager.add queryId normalized name args ttl)
  | .cleanup size k => s.change (s.queryManager.cleanup size k)
  | .allMutationsApplied => s.change s.queryManager.allMutationsApplied
  | .update queryID ttl => s.change (s.queryManager.update queryID ttl)
  | .flushBatch => s.flushBatch
  | .openSocket stored fits => s.openSocket stored fits
  | .connected => s.receiveConnected
  | .answer k => s.answer k
  | .disconnect => { s with socket := none, connected := false }

/-- Connected with all batches flushed, the server holds the client's queries. -/
def Registered (s : QuerySession κ β) : Prop :=
  s.connected = true → s.socket.isSome = true → s.queryManager.pendingQueryChanges = [] →
    ∀ hash, hash ∈ s.server ↔ s.queryManager.has hash = true

/-- The handshake's patch deleted a hash. -/
def Deleted (s : QuerySession κ β) (hash : κ) : Prop :=
  (s.initConnectionQueries.bind (·.get? hash)).map (·.isPut) = some false

/-- A handler that goes on while a socket is up belongs to it, and of each
hash without a change in the batch: it is a query now just if it was one when
the handler read its patch and the handshake had not deleted it. -/
def Answerable (s : QuerySession κ β) : Event κ β → Prop
  | .answer k => ∀ handler, s.handlers[k]? = some handler → ∀ attempt, s.socket = some attempt →
      handler.attempt = attempt ∧ ∀ hash, hash ∉ s.queryManager.pendingQueryChanges.map (·.hash) →
        (s.queryManager.has hash = true ↔ hash ∈ handler.read ∧ ¬ s.Deleted hash)
  | _ => True

end QuerySession

/-! ## What the manager's calls leave in the batch -/

namespace QueryManager

variable {qm qm' qm'' : QueryManager κ β}

/-- What the batch says of a hash last is whether it is a query. -/
def Consistent (qm : QueryManager κ β) : Prop :=
  ∀ hash b, lastSaid qm.pendingQueryChanges hash = some b → b = qm.has hash

/-- The changes from one state to another are in the batch of the other. -/
structure Follows (qm qm' : QueryManager κ β) : Prop where
  consistent : qm.Consistent → qm'.Consistent
  unsaid : ∀ hash, lastSaid qm'.pendingQueryChanges hash = none →
    lastSaid qm.pendingQueryChanges hash = none ∧ qm'.has hash = qm.has hash

theorem Follows.of_eq (hqueries : qm'.queries = qm.queries) (hpending : qm'.pendingQueryChanges = qm.pendingQueryChanges) :
    qm.Follows qm' := by
  constructor
  · simp only [Consistent, has, hqueries, hpending]
    exact id
  · simp [has, hqueries, hpending]

theorem Follows.trans (h : qm.Follows qm') (h' : qm'.Follows qm'') : qm.Follows qm'' where
  consistent := h'.consistent ∘ h.consistent
  unsaid hash hnone :=
    have ⟨hnone', heq'⟩ := h'.unsaid hash hnone
    have ⟨hnone, heq⟩ := h.unsaid hash hnone'
    ⟨hnone, heq'.trans heq⟩

theorem Follows.after (h : qm'.Follows qm'') (hqueries : qm'.queries = qm.queries)
    (hpending : qm'.pendingQueryChanges = qm.pendingQueryChanges) : qm.Follows qm'' :=
  (Follows.of_eq hqueries hpending).trans h

theorem Follows.of_queue {op : UpQueriesPatchOp κ β}
    (hqueries : ∀ hash, qm'.has hash = if op.hash = hash then op.isPut else qm.has hash)
    (hpending : qm'.pendingQueryChanges = qm.pendingQueryChanges ++ [op]) : qm.Follows qm' := by
  constructor
  · intro h hash b hsaid
    rw [hpending, lastSaid_concat] at hsaid
    rw [hqueries]
    split at hsaid
    · next heq => rw [if_pos heq]; exact (Option.some.inj hsaid).symm
    · next hne => rw [if_neg hne]; exact h hash b hsaid
  · intro hash hnone
    rw [hpending, lastSaid_concat] at hnone
    split at hnone
    · cases hnone
    · next hne => exact ⟨hnone, by rw [hqueries, if_neg hne]⟩

theorem updateEntry_follows (qm : QueryManager κ β) {i : ℕ} {queryID : κ} (ttl : TTL) (hq : qm.has queryID = true) :
    qm.Follows (qm.updateEntry i queryID ttl) := by
  unfold updateEntry
  dsimp only
  split
  · refine Follows.of_queue (fun hash => ?_) rfl
    split
    · next h => exact h ▸ hq
    · rfl
  · exact Follows.of_eq rfl rfl

theorem update_follows {queryID : κ} {ttl : TTL} (h : qm.update queryID ttl = .ok qm') : qm.Follows qm' := by
  unfold update at h
  split at h
  · next i hi =>
    obtain rfl := Except.ok.inj h
    exact qm.updateEntry_follows ttl (by simp [has, OrderedMap.contains, hi])
  · cases h

theorem add_follows {queryId : κ} {normalized : AST} {name : Option String} {args : Option (List β)} {ttl : TTL}
    (h : qm.add queryId normalized name args ttl = .ok qm') : qm.Follows qm' := by
  unfold add at h
  split at h
  · cases h
  dsimp only at h
  split at h
  · obtain rfl := Except.ok.inj h
    refine Follows.of_queue (fun hash => ?_) rfl
    show OrderedMap.contains (qm.queries.set queryId qm.nextEntry) hash = if queryId = hash then true else _
    rw [OrderedMap.contains, OrderedMap.get?_set]
    by_cases hk : queryId = hash <;> simp [hk, has, OrderedMap.contains]
  · next i hi =>
    obtain rfl := Except.ok.inj h
    let counted : QueryManager κ β := ({ qm with recentQueries := qm.recentQueries.erase queryId }).setEntry i
      { qm.entries i with count := (qm.entries i).count + 1 }
    have hcounted : qm.Follows counted := Follows.of_eq rfl rfl
    have hq : counted.has queryId = true := by
      show OrderedMap.contains qm.queries queryId = true
      simp [OrderedMap.contains, hi]
    exact (hcounted.trans (counted.updateEntry_follows (.ms ttl.clamp) hq)).trans (Follows.of_eq rfl rfl)

theorem evict_follows (h : qm.evict = .ok qm') : qm.Follows qm' := by
  unfold evict at h
  split at h
  · cases h
  · next lru recent hrecent =>
    split at h
    · obtain rfl := Except.ok.inj h
      refine Follows.of_queue (fun hash => ?_) rfl
      show OrderedMap.contains (qm.queries.erase lru) hash = if lru = hash then false else _
      rw [OrderedMap.contains, OrderedMap.get?_erase]
      by_cases hk : lru = hash <;> simp [hk, has, OrderedMap.contains]
    · cases h

theorem remove_follows {i : ℕ} {astHash : κ} (h : qm.remove i astHash = .ok qm') : qm.Follows qm' := by
  unfold remove at h
  dsimp only at h
  split at h
  · by_cases hfull : (if astHash ∈ qm.recentQueries then qm.recentQueries
      else qm.recentQueries ++ [astHash]).length > qm.recentQueriesMaxSize
    · exact (evict_follows ((if_pos hfull).symm.trans h)).after rfl rfl
    · obtain rfl := Except.ok.inj ((if_neg hfull).symm.trans h)
      exact Follows.of_eq rfl rfl
  · obtain rfl := Except.ok.inj h
    exact Follows.of_eq rfl rfl

theorem cleanup_follows {size k : ℕ} (h : qm.cleanup size k = .ok qm') : qm.Follows qm' := by
  unfold cleanup at h
  split at h
  · obtain rfl := Except.ok.inj h
    exact Follows.of_eq rfl rfl
  · split at h
    · obtain rfl := Except.ok.inj h
      exact Follows.of_eq rfl rfl
    · dsimp only at h
      split at h
      · obtain rfl := Except.ok.inj h
        exact Follows.of_eq rfl rfl
      · exact (remove_follows h).after rfl rfl

theorem allMutationsApplied_follows (h : qm.allMutationsApplied = .ok qm') : qm.Follows qm' := by
  have hreleased : qm.Follows { qm with pendingRemovals := [] } := Follows.of_eq rfl rfl
  exact Fallible.foldlM_ok (I := fun q => qm.Follows q) (fun _ _ _ _ hI hr => hI.trans (remove_follows hr)) hreleased h

end QueryManager

/-! ## The invariant of a session -/

namespace QuerySession

variable {s : QuerySession κ β} {e : Event κ β}

/-- What holds of a session whose handlers go on as they should. -/
structure Inv (s : QuerySession κ β) : Prop where
  consistent : s.queryManager.Consistent
  socket_lt : ∀ n, s.socket = some n → n < s.attempts
  handler_lt : ∀ handler ∈ s.handlers, handler.attempt < s.attempts
  nodup : (s.handlers.map (·.attempt)).Nodup
  unacknowledged : ∀ n, s.socket = some n → s.acknowledged = false →
    n ∉ s.handlers.map (·.attempt) ∧ s.connected = false
  /-- Until the handshake is answered the server holds what it said. -/
  begun : s.socket.isSome = true → s.connected = false →
    match s.initConnectionQueries with
    | none => s.server = s.stored
    | some patch => ∃ first : QueryManager κ β, patch = first.patchFrom s.stored ∧ s.server = desireAll s.stored patch.values
  handling : ∀ handler ∈ s.handlers, s.socket = some handler.attempt → s.connected = false ∧
    ∃ second : QueryManager κ β, handler.read = second.queries.keys ∧
      handler.queriesPatch = second.getQueriesPatch s.stored s.initConnectionQueries
  upToDate : s.connected = true → s.socket.isSome = true → ∀ hash,
    lastSaid s.queryManager.pendingQueryChanges hash = none → (hash ∈ s.server ↔ s.queryManager.has hash = true)

theorem Inv.init (blank : QueryManager.Entry β) (recentQueriesMaxSize : ℕ) :
    Inv (init blank recentQueriesMaxSize : QuerySession κ β) where
  consistent hash b hsaid := by cases hsaid
  socket_lt n hn := by cases hn
  handler_lt handler hmem := by cases hmem
  nodup := List.nodup_nil
  unacknowledged n hn := by cases hn
  begun hn := by cases hn
  handling handler hmem := by cases hmem
  upToDate hc := by cases hc

theorem lastSaid_eq_none_iff (ops : List (UpQueriesPatchOp κ β)) (hash : κ) :
    lastSaid ops hash = none ↔ hash ∉ ops.map (·.hash) := by
  induction ops using List.reverseRecOn with
  | nil => simp [lastSaid]
  | append_singleton ops op ih =>
    rw [lastSaid_concat]
    by_cases h : op.hash = hash
    · simp [h]
    · simpa [h, Ne.symm h] using ih

theorem Inv.change (h : s.Inv) {result : Except String (QueryManager κ β)}
    (hfollows : ∀ qm', result = .ok qm' → s.queryManager.Follows qm') : (s.change result).Inv := by
  cases result with
  | error e => exact h
  | ok qm' =>
    have hf := hfollows qm' rfl
    exact { h with
      consistent := hf.consistent h.consistent
      upToDate := fun hc hs hash hnone => by
        obtain ⟨hnone', heq⟩ := hf.unsaid hash hnone
        rw [show (QuerySession.change s (.ok qm')).queryManager.has hash = s.queryManager.has hash from heq]
        exact h.upToDate hc hs hash hnone' }

theorem Inv.flushBatch (h : s.Inv) : s.flushBatch.Inv := by
  have hempty : ∀ hash b, lastSaid ([] : List (UpQueriesPatchOp κ β)) hash = some b → b = s.queryManager.has hash :=
    fun _ _ hsaid => by cases hsaid
  by_cases hc : s.connected = true
  · by_cases hs : s.socket.isSome = true
    · have hflush : s.flushBatch = { s with
          server := desireAll s.server s.queryManager.pendingQueryChanges
          queryManager := { s.queryManager with pendingQueryChanges := [] } } := by
        simp [QuerySession.flushBatch, QueryManager.flushBatch, hc, send, hs]
      rw [hflush]
      refine { h with consistent := hempty, begun := fun _ hc' => ?_, upToDate := fun _ _ hash _ => ?_ }
      · rw [hc] at hc'
        cases hc'
      · show hash ∈ desireAll s.server s.queryManager.pendingQueryChanges ↔ s.queryManager.has hash = true
        rw [mem_desireAll]
        cases hsaid : lastSaid s.queryManager.pendingQueryChanges hash with
        | none => exact h.upToDate hc hs hash hsaid
        | some b => rw [h.consistent hash b hsaid]
    · have hflush : s.flushBatch = { s with queryManager := { s.queryManager with pendingQueryChanges := [] } } := by
        simp [QuerySession.flushBatch, QueryManager.flushBatch, hc, send, hs]
      rw [hflush]
      exact { h with consistent := hempty, upToDate := fun _ hs' => absurd hs' hs }
  · have hflush : s.flushBatch = { s with queryManager := { s.queryManager with pendingQueryChanges := [] } } := by
      simp [QuerySession.flushBatch, QueryManager.flushBatch, hc]
    rw [hflush]
    exact { h with consistent := hempty, upToDate := fun hc' => absurd hc' hc }

theorem Inv.openSocket (h : s.Inv) (stored : List κ) (fits : Bool) : (s.openSocket stored fits).Inv := by
  unfold QuerySession.openSocket
  split
  · exact h
  next hc =>
  have hnew : ∀ handler ∈ s.handlers, handler.attempt ≠ s.attempts := fun handler hmem => (h.handler_lt handler hmem).ne
  exact {
    consistent := h.consistent
    socket_lt := fun n hn => by
      obtain rfl : s.attempts = n := Option.some.inj hn
      exact Nat.lt_succ_self _
    handler_lt := fun handler hmem => (h.handler_lt handler hmem).trans (Nat.lt_succ_self _)
    nodup := h.nodup
    unacknowledged := fun n hn _ => by
      obtain rfl : s.attempts = n := Option.some.inj hn
      refine ⟨fun hmem => ?_, by simpa using hc⟩
      obtain ⟨handler, hhandler, heq⟩ := List.mem_map.mp hmem
      exact hnew handler hhandler heq
    begun := fun _ _ => by
      cases fits with
      | false => rfl
      | true => exact ⟨s.queryManager, rfl, rfl⟩
    handling := fun handler hmem hsocket => absurd (Option.some.inj hsocket).symm (hnew handler hmem)
    upToDate := fun hc' => absurd hc' hc }

theorem Inv.receiveConnected (h : s.Inv) : s.receiveConnected.Inv := by
  unfold QuerySession.receiveConnected
  split
  · exact h
  next attempt hsocket =>
  split
  · exact h
  next hack =>
  obtain ⟨hfresh, hc⟩ := h.unacknowledged attempt hsocket (by simpa using hack)
  exact { h with
    handler_lt := fun handler hmem => by
      rcases List.mem_append.mp hmem with hmem | hmem
      · exact h.handler_lt handler hmem
      · obtain rfl := List.mem_singleton.mp hmem
        exact h.socket_lt attempt hsocket
    nodup := by
      rw [List.map_append, List.map_singleton]
      exact h.nodup.append (List.nodup_singleton _) (by simpa using hfresh)
    unacknowledged := fun n hn hf => by cases hf
    handling := fun handler hmem hn => by
      rcases List.mem_append.mp hmem with hmem | hmem
      · exact h.handling handler hmem hn
      · obtain rfl := List.mem_singleton.mp hmem
        exact ⟨hc, s.queryManager, rfl, rfl⟩ }

theorem Inv.mem_server_answered (h : s.Inv) {handler : ConnectedHandler κ β} (hmem : handler ∈ s.handlers)
    (hsocket : s.socket = some handler.attempt) (hash : κ) :
    hash ∈ desireAll s.server handler.queriesPatch.values ↔ hash ∈ handler.read ∧ ¬ s.Deleted hash := by
  obtain ⟨hc, second, hread, hpatch⟩ := h.handling handler hmem hsocket
  have hbegun := h.begun (by simp [hsocket]) hc
  rw [hread, ← second.has_iff, hpatch, Deleted]
  cases hinit : s.initConnectionQueries with
  | none =>
    simp only [hinit] at hbegun
    simpa [hbegun, QueryManager.getQueriesPatch] using second.mem_desireAll_patchFrom s.stored hash
  | some patch =>
    simp only [hinit] at hbegun
    obtain ⟨first, rfl, hserver⟩ := hbegun
    rw [hserver]
    exact first.mem_desireAll_second second s.stored hash

theorem Inv.answer (h : s.Inv) {k : ℕ} (hok : s.Answerable (.answer k)) : (s.answer k).Inv := by
  unfold QuerySession.answer
  split
  · exact h
  next handler hhandler =>
  have hmem : handler ∈ s.handlers := List.mem_of_getElem? hhandler
  have hsub : (s.handlers.eraseIdx k).Sublist s.handlers := List.eraseIdx_sublist ..
  have hnodup : ((s.handlers.eraseIdx k).map (·.attempt)).Nodup := h.nodup.sublist (hsub.map _)
  cases hsocket : s.socket with
  | none =>
    have hsend : ∀ ops, s.send ops = s := fun ops => by simp [send, hsocket]
    simp only [hsend, ite_self]
    exact { h with
      handler_lt := fun handler hm => h.handler_lt handler (hsub.subset hm)
      nodup := hnodup
      unacknowledged := fun n hn => by cases hsocket.symm.trans hn
      begun := fun _ hc => by cases hc
      handling := fun handler _ hn => by cases hsocket.symm.trans hn
      upToDate := fun _ hs => by rw [hsocket] at hs; cases hs }
  | some attempt =>
    obtain ⟨rfl, hcovered⟩ := hok handler hhandler attempt hsocket
    have hlast : ∀ handler' ∈ s.handlers.eraseIdx k, handler'.attempt ≠ handler.attempt := fun handler' hm heq => by
      have hperm := (List.getElem_cons_eraseIdx_perm (List.getElem?_eq_some_iff.mp hhandler).1).map (·.attempt)
      have hnd := hperm.nodup_iff.mpr h.nodup
      rw [(List.getElem?_eq_some_iff.mp hhandler).2, List.map_cons, List.nodup_cons] at hnd
      exact hnd.1 (heq ▸ List.mem_map_of_mem hm)
    have hserver : (if (0 < handler.queriesPatch.entries.length ∧ s.initConnectionQueries.isSome = true) ∨
        s.initConnectionQueries.isNone = true then s.send handler.queriesPatch.values else s) =
        { s with server := desireAll s.server handler.queriesPatch.values } := by
      split
      · simp [send, hsocket]
      · next hno =>
        have hnil : handler.queriesPatch.entries = [] := by
          cases hi : s.initConnectionQueries <;> simp_all
        simp [OrderedMap.values, hnil, desireAll]
    simp only [hserver]
    exact {
      consistent := h.consistent
      socket_lt := h.socket_lt
      handler_lt := fun handler hm => h.handler_lt handler (hsub.subset hm)
      nodup := hnodup
      unacknowledged := fun n hn hack => by
        obtain ⟨hfresh, -⟩ := h.unacknowledged n hn hack
        obtain rfl : handler.attempt = n := Option.some.inj (hsocket.symm.trans hn)
        exact absurd (List.mem_map_of_mem hmem) hfresh
      begun := fun _ hc => by cases hc
      handling := fun handler' hm hn => absurd (Option.some.inj (hsocket.symm.trans hn)).symm (hlast handler' hm)
      upToDate := fun _ _ hash hnone => by
        rw [h.mem_server_answered hmem hsocket, hcovered hash ((lastSaid_eq_none_iff _ hash).mp hnone)] }

theorem Inv.step (h : s.Inv) (hok : s.Answerable e) : (s.step e).Inv := by
  cases e with
  | add queryId normalized name args ttl => exact h.change fun _ => QueryManager.add_follows
  | cleanup size k => exact h.change fun _ => QueryManager.cleanup_follows
  | allMutationsApplied => exact h.change fun _ => QueryManager.allMutationsApplied_follows
  | update queryID ttl => exact h.change fun _ => QueryManager.update_follows
  | flushBatch => exact h.flushBatch
  | openSocket stored fits => exact h.openSocket stored fits
  | connected => exact h.receiveConnected
  | answer k => exact h.answer hok
  | disconnect =>
    exact { h with
      socket_lt := fun n hn => by cases hn
      unacknowledged := fun n hn => by cases hn
      begun := fun hs => by cases hs
      handling := fun handler _ hn => by cases hn
      upToDate := fun hc => by cases hc }

theorem Inv.run (h : s.Inv) {es : List (Event κ β)} (hok : Runs.Always QuerySession.step Answerable s es) :
    (es.foldl QuerySession.step s).Inv := by
  induction es generalizing s with
  | nil => exact h
  | cons e es ih => exact ih (h.step hok.1) hok.2

/-- **The server learns the queries**: in every state of a run whose handlers
go on as they should, once connected with all batches flushed, the server
holds exactly the client's queries. -/
theorem run_registered (blank : QueryManager.Entry β) (recentQueriesMaxSize : ℕ) (es : List (Event κ β))
    (hok : Runs.Always step Answerable (init blank recentQueriesMaxSize) es) :
    (es.foldl step (init blank recentQueriesMaxSize)).Registered := by
  intro hc hs hflushed hash
  refine ((Inv.init blank recentQueriesMaxSize).run hok).upToDate hc hs hash ?_
  rw [hflushed]
  rfl

/-! ### A query registered while the client connects -/

def blankEntry : QueryManager.Entry Empty := { normalized := issuesAST, name := none, args := none, count := 0, ttl := 0 }

/-- A client that stored query `1` in an earlier session connects before it
registers that query again, and the batch with it is flushed too early. -/
def addedWhileConnecting : List (Event ℕ Empty) :=
  [.openSocket [1] true, .add 1 issuesAST none none .forever, .flushBatch, .connected, .answer 0]

theorem connecting_loses_query : ¬ (addedWhileConnecting.foldl step (init blankEntry 0)).Registered := by
  intro h
  have hserver := (h (by decide +kernel) (by decide +kernel) (by decide +kernel) 1).mpr (by decide +kernel)
  revert hserver
  decide +kernel

/-- The batch is flushed once the client is connected. -/
def addedAndFlushedLater : List (Event ℕ Empty) :=
  [.openSocket [1] true, .add 1 issuesAST none none .forever, .connected, .answer 0, .flushBatch]

theorem run_registered_later : (addedAndFlushedLater.foldl step (init blankEntry 0)).Registered := by
  refine run_registered blankEntry 0 addedAndFlushedLater ⟨trivial, trivial, trivial, ?_, trivial, trivial⟩
  intro handler hhandler attempt hattempt
  obtain rfl : (⟨0, [1], ∅⟩ : ConnectedHandler ℕ Empty) = handler := Option.some.inj hhandler
  refine ⟨Option.some.inj hattempt, fun hash hunsaid => ?_⟩
  have hne : hash ≠ 1 := by
    rintro rfl
    exact hunsaid (List.mem_singleton_self 1)
  have hhas : ∀ qm : QueryManager ℕ Empty, qm.queries = OrderedMap.set ∅ 1 0 → ¬ qm.has hash = true := fun qm hqm => by
    simp [QueryManager.has, OrderedMap.contains, hqm, OrderedMap.get?_set, Ne.symm hne]
  exact iff_of_false (hhas _ rfl) fun hread => hne (List.mem_singleton.mp hread.1)

end QuerySession

end ZeroSync
