/-
The desired queries of a CVR and of the CVR read back from its tables.

A row of `desires` that is neither deleted nor inactivated makes its client
desire the query when the CVR is loaded. `Stored` says that these rows are
exactly the desires in memory. `Updated` says what an operation on a client
leaves in memory and which rows it queues: `putDesiredQueries` an active row
for each query that is needed, `#deleteQueries` a deleted one for each query
it removes that has a record, and none for a query whose record is gone.
-/
import ZeroSync.CVRConfig
import ZeroSync.Fallible

namespace ZeroSync

open Fallible

/-- The row makes its client desire the query. -/
def DesiresRow.isActive (row : DesiresRow) : Bool := !row.deleted && row.inactivatedAt.isNone

/-- The client desires the query. -/
def ConfigCVR.Desires {α : Type} (cvr : ConfigCVR α) (clientID queryID : String) : Prop :=
  ∃ client, cvr.clients.get? clientID = some client ∧ queryID ∈ client.desiredQueryIDs

/-- The table has the desire. -/
def CVRDatabase.Active {α : Type} (db : CVRDatabase α) (clientID queryID : String) : Prop :=
  ∃ row, db.desires.get? (clientID, queryID) = some row ∧ row.isActive = true

/-- Records are filed under their ids. -/
structure ConfigCVR.Filed {α : Type} (cvr : ConfigCVR α) : Prop where
  clients : ∀ id client, cvr.clients.get? id = some client → client.id = id
  queries : ∀ id query, cvr.queries.get? id = some query → query.id = id

/-- The tables hold the clients and the desires of the CVR. -/
structure Stored {α : Type} (cvr : ConfigCVR α) (db : CVRDatabase α) : Prop where
  filed : cvr.Filed
  rows : ∀ k row, db.desires.get? k = some row → k = (row.clientID, row.queryHash)
  nodup : db.clients.Nodup
  clients : ∀ id, id ∈ db.clients ↔ (cvr.clients.get? id).isSome
  active : ∀ clientID queryID, db.Active clientID queryID ↔ cvr.Desires clientID queryID
  noInstance : db.instance? = none → ∀ id, cvr.clients.get? id = none

/-! ## Writing desires -/

namespace ConfigUpdater

variable {α : Type}

/-- Between the two updaters a row is queued for each of these queries of the client, and for no other. -/
structure Writes (clientID : String) (active : Bool) (S : String → Prop) (u u' : ConfigUpdater α) : Prop where
  orig : u'.orig = u.orig
  clients : u'.cvr.clients = u.cvr.clients
  db : u'.store.db = u.store.db
  clientWrites : u'.store.writes = u.store.writes
  written : ∀ q, S q → ∃ row, u'.store.pendingDesireUpdates.get? (CVRStore.desireKey clientID q) = some row ∧
    row.clientID = clientID ∧ row.queryHash = q ∧ row.isActive = active
  kept : ∀ k, (∀ q, S q → k ≠ CVRStore.desireKey clientID q) →
    u'.store.pendingDesireUpdates.get? k = u.store.pendingDesireUpdates.get? k
  none : (∀ q, ¬S q) → u' = u

theorem desireKey_inj {clientID q q' : String} (h : CVRStore.desireKey clientID q = CVRStore.desireKey clientID q') :
    q = q' := by
  have h := congrArg String.toList h
  simp only [CVRStore.desireKey, String.toList_append] at h
  exact String.ext (List.append_cancel_left h)

variable {clientID : String} {active : Bool} {S S' : String → Prop} {u u' u'' : ConfigUpdater α}

theorem Writes.refl : Writes clientID active (fun _ => False) u u where
  orig := rfl
  clients := rfl
  db := rfl
  clientWrites := rfl
  written _ h := h.elim
  kept _ _ := rfl
  none _ := rfl

theorem Writes.trans (h : Writes clientID active S u u') (h' : Writes clientID active S' u' u'') :
    Writes clientID active (fun q => S q ∨ S' q) u u'' where
  orig := h'.orig.trans h.orig
  clients := h'.clients.trans h.clients
  db := h'.db.trans h.db
  clientWrites := h'.clientWrites.trans h.clientWrites
  written q hq := by
    by_cases hq' : S' q
    · exact h'.written q hq'
    · have hkept := h'.kept (CVRStore.desireKey clientID q) fun q' hS heq => hq' (desireKey_inj heq ▸ hS)
      rw [hkept]
      exact h.written q (hq.resolve_right hq')
  kept k hk := (h'.kept k fun q hq => hk q (.inr hq)).trans (h.kept k fun q hq => hk q (.inl hq))
  none hS := (h'.none fun q hq => hS q (.inr hq)).trans (h.none fun q hq => hS q (.inl hq))

theorem Writes.congr (h : Writes clientID active S u u') (hS : ∀ q, S q ↔ S' q) :
    Writes clientID active S' u u' := by
  obtain rfl : S = S' := funext fun q => propext (hS q)
  exact h

theorem writes_foldlM {f : ConfigUpdater α → String → Except ConfigError (ConfigUpdater α)} {W : String → Prop}
    {I : ConfigUpdater α → Prop} (hf : ∀ u u' id, I u → f u id = .ok u' →
      I u' ∧ Writes clientID active (fun q => q = id ∧ W q) u u') {ids : List String} (hI : I u)
    (h : ids.foldlM f u = .ok u') : Writes clientID active (fun q => q ∈ ids ∧ W q) u u' := by
  induction ids generalizing u with
  | nil =>
    obtain rfl := Except.ok.inj h
    exact Writes.refl.congr fun q => by simp
  | cons id ids ih =>
    rw [List.foldlM_cons] at h
    obtain ⟨u₁, hu₁, h⟩ := bind_ok h
    obtain ⟨hI₁, hstep⟩ := hf _ _ _ hI hu₁
    refine (hstep.trans (ih hI₁ h)).congr fun q => ?_
    rw [List.mem_cons, or_and_right]

theorem writes_row {id : String} {row : DesiresRow} (horig : u'.orig = u.orig)
    (hclients : u'.cvr.clients = u.cvr.clients) (hdb : u'.store.db = u.store.db)
    (hwrites : u'.store.writes = u.store.writes) (hpending : u'.store.pendingDesireUpdates =
      u.store.pendingDesireUpdates.set (CVRStore.desireKey clientID id) row)
    (hclient : row.clientID = clientID) (hid : row.queryHash = id) (hactive : row.isActive = active) :
    Writes clientID active (fun q => q = id) u u' where
  orig := horig
  clients := hclients
  db := hdb
  clientWrites := hwrites
  written q hq := by
    subst hq
    exact ⟨row, by rw [hpending, OrderedMap.get?_set_self], hclient, hid, hactive⟩
  kept k hk := by rw [hpending, OrderedMap.get?_set_of_ne _ _ (Ne.symm (hk id rfl))]
  none h := absurd rfl (h id)

/-! ## The loops -/

theorem filed_set {cvr : ConfigCVR α} (h : cvr.Filed) {id : String} {query : ConfigQuery α} (hid : query.id = id) :
    ConfigCVR.Filed { cvr with queries := cvr.queries.set id query } where
  clients := h.clients
  queries id' query' hq := by
    rw [OrderedMap.get?_set] at hq
    split at hq
    · next heq =>
      obtain rfl := Option.some.inj hq
      exact hid.trans heq
    · exact h.queries id' query' hq

theorem newQueryRecord_id {id : String} {definition : Option α} {query : ConfigQuery α}
    (h : newQueryRecord id definition = .ok query) : query.id = id := by
  cases definition with
  | none => cases h
  | some definition =>
    obtain rfl := Except.ok.inj h
    rfl

theorem queryToPut_id {cvr : ConfigCVR α} (hfiled : cvr.Filed) {id : String} {definition : Option α}
    {query : ConfigQuery α} (h : queryToPut cvr id definition = .ok query) : query.id = id := by
  unfold queryToPut at h
  split at h
  · next query' hq =>
    obtain rfl := Except.ok.inj h
    exact hfiled.queries id _ hq
  · exact newQueryRecord_id h

theorem withoutDesire_id {query query' : ConfigQuery α} {inactivatedAt : Option ℚ} {version : CVRVersion} {ttl : ℚ}
    (h : withoutDesire query clientID inactivatedAt version = .ok (query', ttl)) : query'.id = query.id := by
  unfold withoutDesire at h
  split at h
  · obtain rfl := (Prod.mk.inj (Except.ok.inj h)).1
    rfl
  · obtain rfl := (Prod.mk.inj (Except.ok.inj h)).1
    rfl
  · split at h
    · cases h
    · obtain rfl := (Prod.mk.inj (Except.ok.inj h)).1
      rfl

theorem putNeeded_writes {queries : List (DesiredQuery α)} {version : CVRVersion} {id : String} (hfiled : u.cvr.Filed)
    (h : putNeeded queries clientID version u id = .ok u') :
    u'.cvr.Filed ∧ Writes clientID true (fun q => q = id ∧ True) u u' := by
  unfold putNeeded at h
  split at h
  · cases h
  · obtain ⟨query, hquery, h⟩ := bind_ok h
    have hid := queryToPut_id hfiled hquery
    split at h
    · cases h
    · obtain rfl := Except.ok.inj h
      refine ⟨filed_set hfiled hid, ?_⟩
      subst hid
      refine Writes.congr (S := fun q => q = query.id) ?_ fun q => by simp
      exact writes_row rfl rfl rfl rfl rfl rfl rfl rfl

theorem deleteQuery_writes {inactivatedAt : Option ℚ} {version : CVRVersion} {id : String} {W : String → Prop}
    (hI : u.cvr.Filed ∧ ∀ q, (u.cvr.queries.get? q).isSome ↔ W q)
    (h : deleteQuery clientID inactivatedAt version u id = .ok u') :
    (u'.cvr.Filed ∧ ∀ q, (u'.cvr.queries.get? q).isSome ↔ W q) ∧
      Writes clientID false (fun q => q = id ∧ W q) u u' := by
  obtain ⟨hfiled, hW⟩ := hI
  unfold deleteQuery at h
  split at h
  · next hnone =>
    obtain rfl := Except.ok.inj h
    refine ⟨⟨hfiled, hW⟩, Writes.refl.congr fun q => ?_⟩
    refine ⟨False.elim, ?_⟩
    rintro ⟨hq, hWq⟩
    rw [hq, ← hW, hnone] at hWq
    cases hWq
  · next query hsome =>
    split at h
    · cases h
    · obtain ⟨⟨query', ttl⟩, hquery, h⟩ := bind_ok h
      have hid : query'.id = id := (withoutDesire_id hquery).trans (hfiled.queries id query hsome)
      obtain rfl := Except.ok.inj h
      refine ⟨⟨filed_set hfiled hid, fun q => ?_⟩, ?_⟩
      · rw [← hW]
        show ((u.cvr.queries.set id query').get? q).isSome ↔ _
        rw [OrderedMap.get?_set]
        split
        · next heq =>
          subst heq
          rw [hsome]
          rfl
        · rfl
      · subst hid
        refine Writes.congr (S := fun q => q = query'.id) ?_ fun q => ⟨fun hq => ⟨hq, ?_⟩, fun hq => hq.1⟩
        · exact writes_row rfl rfl rfl rfl rfl rfl rfl rfl
        · rw [hq, ← hW, hsome]
          rfl

/-! ## The client of an operation -/

theorem ensureNewVersion_ok (h : u.ensureNewVersion = .ok u') :
    ∃ version, u' = { u with cvr := { u.cvr with version } } := by
  unfold ensureNewVersion at h
  split at h
  · unfold setVersion at h
    split at h
    · exact ⟨_, (Except.ok.inj h).symm⟩
    · cases h
  · exact ⟨u.cvr.version, (Except.ok.inj h).symm⟩

theorem putInternalQuery_keeps (hfiled : u.cvr.Filed) (id : String) :
    (u.putInternalQuery id).cvr.Filed ∧ (u.putInternalQuery id).orig = u.orig ∧
      (u.putInternalQuery id).cvr.clients = u.cvr.clients ∧ (u.putInternalQuery id).store.db = u.store.db ∧
      (u.putInternalQuery id).store.writes = u.store.writes ∧
      (u.putInternalQuery id).store.pendingDesireUpdates = u.store.pendingDesireUpdates := by
  unfold putInternalQuery
  split
  · exact ⟨hfiled, rfl, rfl, rfl, rfl, rfl⟩
  · exact ⟨filed_set hfiled rfl, rfl, rfl, rfl, rfl, rfl⟩

/-- An updater that has its client, new or not, and has queued no desires. -/
structure Ensured (cvr : ConfigCVR α) (db : CVRDatabase α) (clientID : String) (client : ClientRecord)
    (u : ConfigUpdater α) : Prop where
  orig : u.orig = cvr
  filed : u.cvr.Filed
  tables : u.store.db = db
  desires : u.store.pendingDesireUpdates = ∅
  get : u.cvr.clients.get? clientID = some client
  others : ∀ id, id ≠ clientID → u.cvr.clients.get? id = cvr.clients.get? id
  origin : (cvr.clients.get? clientID = some client ∧ u.cvr.queries = cvr.queries ∧ u.store = db.store) ∨
    (cvr.clients.get? clientID = none ∧ client.desiredQueryIDs = [] ∧ u.store.writes = [.insertClient clientID])

theorem ensured_new {cvr : ConfigCVR α} {db : CVRDatabase α} {replicaVersion : Option String} {client : ClientRecord}
    (hfiled : cvr.Filed) (h : (new db cvr replicaVersion).ensureClient clientID = .ok (client, u)) :
    Ensured cvr db clientID client u := by
  have hfiled' : (new db cvr replicaVersion).cvr.Filed := ⟨hfiled.clients, hfiled.queries⟩
  unfold ensureClient at h
  split at h
  · next client' hclient =>
    obtain ⟨rfl, rfl⟩ := Prod.mk.inj (Except.ok.inj h)
    exact ⟨rfl, hfiled', rfl, rfl, hclient, fun _ _ => rfl, .inl ⟨hclient, rfl, rfl⟩⟩
  · next hnone =>
    obtain ⟨u₁, hu₁, h⟩ := bind_ok h
    obtain ⟨version, rfl⟩ := ensureNewVersion_ok hu₁
    obtain ⟨rfl, rfl⟩ := Prod.mk.inj (Except.ok.inj h)
    generalize hu₂ : ({ orig := _, cvr := _, store := _, removedOrExecutedQueryIDs := _ } : ConfigUpdater α) = u₂
    have hfiled₂ : u₂.cvr.Filed := by
      subst hu₂
      refine ⟨fun id client hc => ?_, hfiled.queries⟩
      have hc : (cvr.clients.set clientID { id := clientID, desiredQueryIDs := [] }).get? id = some client := hc
      rw [OrderedMap.get?_set] at hc
      split at hc
      · next heq =>
        obtain rfl := Option.some.inj hc
        exact heq
      · exact hfiled.clients id client hc
    obtain ⟨hf₁, ho₁, hc₁, hd₁, hw₁, hp₁⟩ := putInternalQuery_keeps hfiled₂ "lmids"
    obtain ⟨hf, ho, hc, hd, hw, hp⟩ := putInternalQuery_keeps hf₁ "mutationResults"
    have hclients : u₂.cvr.clients = cvr.clients.set clientID { id := clientID, desiredQueryIDs := [] } := by
      subst hu₂
      rfl
    refine ⟨?_, hf, ?_, ?_, ?_, fun id hid => ?_, .inr ⟨hnone, rfl, ?_⟩⟩
    · rw [ho, ho₁, ← hu₂]
      rfl
    · rw [hd, hd₁, ← hu₂]
      rfl
    · rw [hp, hp₁, ← hu₂]
      rfl
    · rw [hc, hc₁, hclients, OrderedMap.get?_set_self]
    · rw [hc, hc₁, hclients, OrderedMap.get?_set_of_ne _ _ (Ne.symm hid)]
    · rw [hw, hw₁, ← hu₂]
      rfl

/-! ## What an operation queues for its client -/

/-- After an operation on a client: the client desires `D`, and rows are
queued for `S`, active ones or not. -/
structure Updated (cvr : ConfigCVR α) (db : CVRDatabase α) (clientID : String) (active : Bool) (D S : String → Prop)
    (u : ConfigUpdater α) : Prop where
  orig : u.orig = cvr
  filed : u.cvr.Filed
  tables : u.store.db = db
  desires : ∀ q, u.cvr.Desires clientID q ↔ D q
  get : (u.cvr.clients.get? clientID).isSome
  others : ∀ id, id ≠ clientID → u.cvr.clients.get? id = cvr.clients.get? id
  clientWrites : ((cvr.clients.get? clientID).isSome ∧ u.store.writes = []) ∨
    (cvr.clients.get? clientID = none ∧ u.store.writes = [.insertClient clientID])
  written : ∀ q, S q → ∃ row, u.store.pendingDesireUpdates.get? (CVRStore.desireKey clientID q) = some row ∧
    row.clientID = clientID ∧ row.queryHash = q ∧ row.isActive = active
  unwritten : ∀ k, (∀ q, S q → k ≠ CVRStore.desireKey clientID q) → u.store.pendingDesireUpdates.get? k = none
  idle : (∀ q, ¬S q) → (cvr.clients.get? clientID).isSome → u.store = db.store

section
variable {cvr : ConfigCVR α} {db : CVRDatabase α} {client : ClientRecord}

theorem Ensured.desires_iff (h : Ensured cvr db clientID client u) (q : String) :
    q ∈ client.desiredQueryIDs ↔ cvr.Desires clientID q := by
  rcases h.origin with ⟨hget, -, -⟩ | ⟨hnone, hnil, -⟩
  · constructor
    · intro hq
      exact ⟨client, hget, hq⟩
    · intro ⟨client', hget', hq⟩
      obtain rfl := Option.some.inj (hget.symm.trans hget')
      exact hq
  · constructor
    · intro hq
      rw [hnil] at hq
      cases hq
    · intro ⟨client', hget', _⟩
      rw [hnone] at hget'
      cases hget'

theorem Ensured.updated (h : Ensured cvr db clientID client u) (active : Bool) :
    Updated cvr db clientID active (cvr.Desires clientID) (fun _ => False) u where
  orig := h.orig
  filed := h.filed
  tables := h.tables
  desires q := by
    rw [← h.desires_iff]
    constructor
    · intro ⟨client', hget, hq⟩
      obtain rfl := Option.some.inj (h.get.symm.trans hget)
      exact hq
    · intro hq
      exact ⟨client, h.get, hq⟩
  get := by rw [h.get]; rfl
  others := h.others
  clientWrites := by
    rcases h.origin with ⟨hget, -, hstore⟩ | ⟨hnone, -, hwrites⟩
    · exact .inl ⟨by rw [hget]; rfl, by rw [hstore]; rfl⟩
    · exact .inr ⟨hnone, hwrites⟩
  written _ h := h.elim
  unwritten k _ := by rw [h.desires]; rfl
  idle _ hsome := by
    rcases h.origin with ⟨-, -, hstore⟩ | ⟨hnone, -, -⟩
    · exact hstore
    · rw [hnone] at hsome
      cases hsome

theorem Updated.congr {D D' : String → Prop} (h : Updated cvr db clientID active D S u) (hD : ∀ q, D q ↔ D' q)
    (hS : ∀ q, S q ↔ S' q) : Updated cvr db clientID active D' S' u := by
  obtain rfl : D = D' := funext fun q => propext (hD q)
  obtain rfl : S = S' := funext fun q => propext (hS q)
  exact h

theorem filed_setDesired (hfiled : u.cvr.Filed) (client : ClientRecord) (ids : List String) :
    (u.setDesiredQueryIDs client ids).cvr.Filed where
  clients id client' hc := by
    have hc : (u.cvr.clients.set client.id _).get? id = some client' := hc
    rw [OrderedMap.get?_set] at hc
    split at hc
    · next heq =>
      obtain rfl := Option.some.inj hc
      exact heq
    · exact hfiled.clients id client' hc
  queries := hfiled.queries

theorem Ensured.setDesired {ids : List String} {version : CVRVersion} (h : Ensured cvr db clientID client u)
    (hwrites : Writes clientID active S
      (ConfigUpdater.setDesiredQueryIDs { u with cvr := { u.cvr with version } } client ids) u')
    (hfiled : u'.cvr.Filed) : Updated cvr db clientID active (· ∈ ids) S u' := by
  have hid : client.id = clientID := h.filed.clients _ _ h.get
  have hclients : u'.cvr.clients =
      u.cvr.clients.set clientID { client with desiredQueryIDs := toSorted ids } := by
    rw [hwrites.clients, ← hid]
    rfl
  refine ⟨hwrites.orig.trans h.orig, hfiled, hwrites.db.trans h.tables, fun q => ?_, ?_, fun id hne => ?_, ?_,
    hwrites.written, fun k hk => ?_, fun hS hsome => ?_⟩
  · rw [ConfigCVR.Desires, hclients, OrderedMap.get?_set_self]
    simp [toSorted]
  · rw [hclients, OrderedMap.get?_set_self]
    rfl
  · rw [hclients, OrderedMap.get?_set_of_ne _ _ (Ne.symm hne)]
    exact h.others id hne
  · rw [hwrites.clientWrites]
    exact (h.updated active).clientWrites
  · rw [hwrites.kept k hk]
    show u.store.pendingDesireUpdates.get? k = none
    rw [h.desires]
    rfl
  · rw [hwrites.none hS]
    exact (h.updated active).idle (fun _ h => h) hsome

theorem mem_intersection {a b : List String} {q : String} : q ∈ intersection a b ↔ q ∈ a ∧ q ∈ b := by
  unfold intersection
  split <;> simp [and_comm]

/-- `putDesiredQueries` writes an active row for each query that is needed. -/
theorem putDesiredQueries_updated {queries : List (DesiredQuery α)} {replicaVersion : Option String}
    {patches : List DesirePatch} (hfiled : cvr.Filed)
    (h : (new db cvr replicaVersion).putDesiredQueries clientID queries = .ok (patches, u)) :
    ∃ S, Updated cvr db clientID true (fun q => S q ∨ cvr.Desires clientID q) S u := by
  obtain ⟨⟨client, u₁⟩, hensure, h⟩ := bind_ok h
  have hens := ensured_new hfiled hensure
  simp only at h
  split at h
  · obtain ⟨-, rfl⟩ := Prod.mk.inj (Except.ok.inj h)
    exact ⟨fun _ => False, by simpa using hens.updated true⟩
  · obtain ⟨u₂, hversion, h⟩ := bind_ok h
    obtain ⟨version, rfl⟩ := ensureNewVersion_ok hversion
    obtain ⟨u₃, hloop, h⟩ := bind_ok h
    obtain ⟨-, rfl⟩ := Prod.mk.inj (Except.ok.inj h)
    have hversion : ConfigCVR.Filed { u₁.cvr with version } := ⟨hens.filed.clients, hens.filed.queries⟩
    have hset := filed_setDesired (u := { u₁ with cvr := { u₁.cvr with version } }) hversion client
      (client.desiredQueryIDs.eraseDups ++
        ((queries.filter (isNeeded u₁.cvr clientID)).map (·.hash)).eraseDups).eraseDups
    have hwrites := writes_foldlM (I := fun u => u.cvr.Filed) (W := fun _ => True)
      (fun _ _ _ hI h => putNeeded_writes hI h) hset hloop
    have hfiled₃ := foldlM_ok (I := fun u => u.cvr.Filed) (fun _ _ _ _ hI h => (putNeeded_writes hI h).1) hset hloop
    refine ⟨_, (hens.setDesired hwrites hfiled₃).congr (fun q => ?_) fun q => Iff.rfl⟩
    rw [List.mem_eraseDups, List.mem_append, List.mem_eraseDups, hens.desires_iff, and_true, or_comm]

theorem Ensured.ensureClient (h : Ensured cvr db clientID client u) : u.ensureClient clientID = .ok (client, u) := by
  unfold ConfigUpdater.ensureClient
  rw [h.get]

/-- `#deleteQueries` writes a deleted row for each query removed that has a record. -/
theorem Ensured.deleteQueries {queryHashes : List String} {inactivatedAt : Option ℚ} {patches : List DesirePatch}
    {u₁ : ConfigUpdater α} (hens : Ensured cvr db clientID client u₁)
    (h : u₁.deleteQueries clientID queryHashes inactivatedAt = .ok (patches, u)) :
    Updated cvr db clientID false (fun q => cvr.Desires clientID q ∧ q ∉ queryHashes)
      (fun q => (q ∈ queryHashes ∧ cvr.Desires clientID q) ∧ (cvr.queries.get? q).isSome) u := by
  unfold ConfigUpdater.deleteQueries at h
  rw [hens.ensureClient] at h
  have hmem (q : String) : q ∈ intersection queryHashes.eraseDups client.desiredQueryIDs.eraseDups ↔
      q ∈ queryHashes ∧ cvr.Desires clientID q := by
    rw [mem_intersection, List.mem_eraseDups, List.mem_eraseDups, hens.desires_iff]
  change (if (intersection queryHashes.eraseDups client.desiredQueryIDs.eraseDups).length = 0 then _ else _) = _ at h
  split at h
  · next hempty =>
    obtain ⟨-, rfl⟩ := Prod.mk.inj (Except.ok.inj h)
    have hnone (q : String) : ¬(q ∈ queryHashes ∧ cvr.Desires clientID q) := by
      rw [← hmem, List.eq_nil_of_length_eq_zero hempty]
      exact List.not_mem_nil
    refine (hens.updated false).congr (fun q => ?_) fun q => ?_
    · exact ⟨fun hq => ⟨hq, fun hh => hnone q ⟨hh, hq⟩⟩, fun hq => hq.1⟩
    · exact ⟨False.elim, fun hq => hnone q hq.1⟩
  · next hempty =>
    obtain ⟨u₂, hversion, h⟩ := bind_ok h
    obtain ⟨version, rfl⟩ := ensureNewVersion_ok hversion
    obtain ⟨u₃, hloop, h⟩ := bind_ok h
    obtain ⟨-, rfl⟩ := Prod.mk.inj (Except.ok.inj h)
    -- A client with something to remove is not new, so the records are those of the CVR.
    have hqueries : u₁.cvr.queries = cvr.queries := by
      rcases hens.origin with ⟨-, hqueries, -⟩ | ⟨-, hnil, -⟩
      · exact hqueries
      · obtain ⟨q, hq⟩ := List.exists_mem_of_length_pos (Nat.pos_of_ne_zero hempty)
        have hdesired := (hens.desires_iff q).mpr ((hmem q).mp hq).2
        rw [hnil] at hdesired
        cases hdesired
    have hversion : ConfigCVR.Filed { u₁.cvr with version } := ⟨hens.filed.clients, hens.filed.queries⟩
    have hset := filed_setDesired (u := { u₁ with cvr := { u₁.cvr with version } }) hversion client
      (client.desiredQueryIDs.eraseDups.filter
        (· ∉ intersection queryHashes.eraseDups client.desiredQueryIDs.eraseDups))
    have hI : ∀ q, ((ConfigUpdater.setDesiredQueryIDs { u₁ with cvr := { u₁.cvr with version } } client
        (client.desiredQueryIDs.eraseDups.filter
          (· ∉ intersection queryHashes.eraseDups client.desiredQueryIDs.eraseDups))).cvr.queries.get? q).isSome ↔
        (cvr.queries.get? q).isSome := fun q => by
      rw [← hqueries]
      rfl
    have hwrites := writes_foldlM (W := fun q => (cvr.queries.get? q).isSome)
      (fun _ _ _ hI h => deleteQuery_writes hI h) ⟨hset, hI⟩ hloop
    have hfiled₃ := foldlM_ok (I := fun u => u.cvr.Filed ∧ ∀ q, (u.cvr.queries.get? q).isSome ↔
      (cvr.queries.get? q).isSome) (fun _ _ _ _ hI h => (deleteQuery_writes hI h).1)
      ⟨hset, hI⟩ hloop
    refine (hens.setDesired hwrites hfiled₃.1).congr (fun q => ?_) fun q => ?_
    · rw [List.mem_filter, List.mem_eraseDups, decide_eq_true_eq, hmem, hens.desires_iff]
      tauto
    · rw [hmem]

theorem deleteQueries_updated {queryHashes : List String} {inactivatedAt : Option ℚ} {replicaVersion : Option String}
    {patches : List DesirePatch} (hfiled : cvr.Filed)
    (h : (new db cvr replicaVersion).deleteQueries clientID queryHashes inactivatedAt = .ok (patches, u)) :
    Updated cvr db clientID false (fun q => cvr.Desires clientID q ∧ q ∉ queryHashes)
      (fun q => (q ∈ queryHashes ∧ cvr.Desires clientID q) ∧ (cvr.queries.get? q).isSome) u := by
  obtain ⟨⟨client, u₁⟩, hensure, hrest⟩ := bind_ok h
  have hens := ensured_new hfiled hensure
  -- The client is there, so that the updater it was made sure of deletes the same.
  suffices h₁ : u₁.deleteQueries clientID queryHashes inactivatedAt = .ok (patches, u) from hens.deleteQueries h₁
  unfold ConfigUpdater.deleteQueries
  rw [hens.ensureClient]
  exact hrest

theorem clearDesiredQueries_updated {replicaVersion : Option String} {patches : List DesirePatch} (hfiled : cvr.Filed)
    (h : (new db cvr replicaVersion).clearDesiredQueries clientID = .ok (patches, u)) :
    Updated cvr db clientID false (fun _ => False)
      (fun q => cvr.Desires clientID q ∧ (cvr.queries.get? q).isSome) u := by
  obtain ⟨⟨client, u₁⟩, hensure, h⟩ := bind_ok h
  have hens := ensured_new hfiled hensure
  refine (hens.deleteQueries h).congr (fun q => ?_) fun q => ?_
  · rw [hens.desires_iff]
    tauto
  · rw [hens.desires_iff, and_self]

end

end ConfigUpdater

/-! ## Flushing -/

namespace CVRStore

variable {α : Type}

/-- The rows written to `desires`, all of one client. -/
theorem get?_writeDesires {clientID : String} {queries : OrderedMap String (QueriesRow α)}
    {entries : List (String × DesiresRow)} {desires desires' : OrderedMap (String × String) DesiresRow}
    (hnodup : (entries.map (·.1)).Nodup)
    (hkeys : ∀ e ∈ entries, e.1 = desireKey clientID e.2.queryHash ∧ e.2.clientID = clientID)
    (h : (entries.map (·.2)).foldlM (writeDesire queries) desires = .ok desires') (k : String × String) :
    desires'.get? k = if k.1 = clientID then
      (OrderedMap.lookup (desireKey clientID k.2) entries).or (desires.get? k) else desires.get? k := by
  induction entries generalizing desires with
  | nil =>
    obtain rfl := Except.ok.inj h
    simp [OrderedMap.lookup]
  | cons e entries ih =>
    obtain ⟨key, row⟩ := e
    obtain ⟨hnot, hnodup⟩ := List.nodup_cons.mp hnodup
    obtain ⟨hkey, hclient⟩ := hkeys (key, row) (List.mem_cons_self ..)
    simp only at hkey hclient hnot
    rw [List.map_cons, List.foldlM_cons] at h
    obtain ⟨desires₁, hwrite, h⟩ := bind_ok h
    have hset : desires₁ = desires.set (clientID, row.queryHash) row := by
      unfold writeDesire at hwrite
      split at hwrite
      · rw [← hclient]
        exact (Except.ok.inj hwrite).symm
      · cases hwrite
    rw [ih hnodup (fun e he => hkeys e (List.mem_cons_of_mem _ he)) h, hset, OrderedMap.get?_set, OrderedMap.lookup]
    by_cases hk : k.1 = clientID
    · rw [if_pos hk, if_pos hk]
      by_cases hq : k.2 = row.queryHash
      · -- No later row is of the same query.
        have hlookup : OrderedMap.lookup (desireKey clientID k.2) entries = none := by
          rw [hq, ← hkey]
          exact OrderedMap.lookup_of_notMem hnot
        have hpair : (clientID, row.queryHash) = k := by rw [← hk, ← hq]
        rw [hlookup, if_pos hpair, if_pos (by rw [hkey, hq])]
        rfl
      · have hpair : (clientID, row.queryHash) ≠ k := fun heq => hq (by rw [← heq])
        have hne : key ≠ desireKey clientID k.2 := fun heq => hq (ConfigUpdater.desireKey_inj (hkey.symm.trans heq)).symm
        rw [if_neg hpair, if_neg hne]
    · have hpair : (clientID, row.queryHash) ≠ k := fun heq => hk (by rw [← heq])
      rw [if_neg hk, if_neg hk, if_neg hpair]

theorem flush_ok {s : CVRStore α} {version : CVRVersion} {cvr : ConfigCVR α} {db' : CVRDatabase α}
    (h : s.flush version cvr = .ok db') : db'.instance?.isSome ∧
      s.writes.foldlM writeClient s.db.clients = .ok db'.clients ∧
      s.pendingDesireUpdates.values.foldlM (writeDesire s.flushQueries) s.db.desires = .ok db'.desires := by
  unfold flush at h
  simp only at h
  split at h
  · cases h
  · obtain ⟨clients, hclients, h⟩ := bind_ok h
    obtain ⟨desires, hdesires, h⟩ := bind_ok h
    obtain rfl := Except.ok.inj h
    exact ⟨rfl, hclients, hdesires⟩

end CVRStore

namespace ConfigUpdater

variable {α : Type} {cvr : ConfigCVR α} {db db' : CVRDatabase α} {clientID : String} {active : Bool}
  {D S : String → Prop} {u : ConfigUpdater α}

theorem Updated.active_written (h : Updated cvr db clientID active D S u)
    (hrows : ∀ k row, db.desires.get? k = some row → k = (row.clientID, row.queryHash))
    {queries : OrderedMap String (QueriesRow α)} (hdesires :
      u.store.pendingDesireUpdates.values.foldlM (CVRStore.writeDesire queries) db.desires = .ok db'.desires) :
    (∀ k row, db'.desires.get? k = some row → k = (row.clientID, row.queryHash)) ∧
    (∀ q, db'.Active clientID q ↔ (S q ∧ active = true) ∨ (¬S q ∧ db.Active clientID q)) ∧
    ∀ id, id ≠ clientID → ∀ q, db'.Active id q ↔ db.Active id q := by
  have hS : ∀ k row, u.store.pendingDesireUpdates.get? k = some row → ∃ q, S q ∧ k = CVRStore.desireKey clientID q ∧
      row.clientID = clientID ∧ row.queryHash = q ∧ row.isActive = active := fun k row hget => by
    by_contra hno
    push Not at hno
    by_cases hex : ∃ q, S q ∧ k = CVRStore.desireKey clientID q
    · obtain ⟨q, hq, rfl⟩ := hex
      obtain ⟨row', hget', hc, hh, ha⟩ := h.written q hq
      obtain rfl := Option.some.inj (hget.symm.trans hget')
      exact hno q hq rfl hc hh ha
    · push Not at hex
      rw [h.unwritten k hex] at hget
      cases hget
  have hkeys : ∀ e ∈ u.store.pendingDesireUpdates.entries,
      e.1 = CVRStore.desireKey clientID e.2.queryHash ∧ e.2.clientID = clientID := fun e he => by
    obtain ⟨q, -, hk, hc, hh, -⟩ := hS e.1 e.2 ((OrderedMap.mem_entries_iff ..).mp he)
    exact ⟨by rw [hk, hh], hc⟩
  have hget := CVRStore.get?_writeDesires u.store.pendingDesireUpdates.nodup hkeys hdesires
  refine ⟨fun k row hk => ?_, fun q => ?_, fun id hid q => ?_⟩
  · rw [hget] at hk
    split at hk
    · next hc =>
      rcases Option.or_eq_some_iff.mp hk with hk | ⟨-, hk⟩
      · obtain ⟨q, -, hkey, hclient, hhash, -⟩ := hS _ _ hk
        rw [hclient, hhash, ← hc, ← desireKey_inj hkey]
      · exact hrows k row hk
    · exact hrows k row hk
  · have hgetq := hget (clientID, q)
    simp only [if_true] at hgetq
    unfold CVRDatabase.Active
    rw [hgetq]
    by_cases hq : S q
    · obtain ⟨row, hrow, -, -, ha⟩ := h.written q hq
      have hrow : OrderedMap.lookup (CVRStore.desireKey clientID q) u.store.pendingDesireUpdates.entries = some row := hrow
      rw [hrow, Option.some_or]
      simp [hq, ha]
    · have hnone : OrderedMap.lookup (CVRStore.desireKey clientID q) u.store.pendingDesireUpdates.entries = none :=
        h.unwritten _ fun q' hq' heq => hq (desireKey_inj heq ▸ hq')
      rw [hnone, Option.none_or]
      simp [hq]
  · unfold CVRDatabase.Active
    rw [hget, if_neg hid]

end ConfigUpdater

end ZeroSync
