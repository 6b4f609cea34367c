/-
Loading the CVR gives back the desired queries, over runs of operations.

Every operation followed by a flush keeps `Stored`, but for those that remove
queries from a client's desires: `#deleteQueries` passes over a query whose
record `#trackRemoved` has removed, and its row stays active. `keepsTrack`
is the condition under which it has none to pass over, or nothing but.
-/
import ZeroSync.CVRDesires

namespace ZeroSync

open Fallible

/-! ## Loading -/

namespace CVRDatabase

variable {α : Type}

/-- The rows of a client that make it desire a query. -/
def activeRows (clientID : String) (rows : List DesiresRow) : List DesiresRow :=
  rows.filter fun row => row.isActive && decide (row.clientID = clientID)

theorem get?_loadDesired (clients : OrderedMap String ClientRecord) (rows : List DesiresRow) (clientID : String) :
    (rows.foldl loadDesired clients).get? clientID = (clients.get? clientID).map fun client =>
      { client with desiredQueryIDs := client.desiredQueryIDs ++ (activeRows clientID rows).map (·.queryHash) } := by
  induction rows generalizing clients with
  | nil => simp [activeRows]
  | cons row rows ih =>
    rw [List.foldl_cons, ih]
    by_cases hactive : row.isActive = true
    · by_cases hclient : row.clientID = clientID
      · have hrows : activeRows clientID (row :: rows) = row :: activeRows clientID rows := by
          simp [activeRows, hactive, hclient]
        rw [hrows]
        unfold DesiresRow.isActive at hactive
        rw [loadDesired, if_pos hactive, hclient]
        cases hget : clients.get? clientID with
        | none => simp only [hget, Option.map_none]
        | some client => simp [OrderedMap.get?_set_self]
      · have hrows : activeRows clientID (row :: rows) = activeRows clientID rows := by
          simp [activeRows, hclient]
        rw [hrows]
        unfold DesiresRow.isActive at hactive
        rw [loadDesired, if_pos hactive]
        split
        · rfl
        · rw [OrderedMap.get?_set_of_ne _ _ hclient]
    · have hrows : activeRows clientID (row :: rows) = activeRows clientID rows := by
        simp [activeRows, hactive]
      rw [hrows]
      unfold DesiresRow.isActive at hactive
      rw [loadDesired, if_neg hactive]

theorem get?_load (db : CVRDatabase α) (clientID : String) : db.load.clients.get? clientID =
    if clientID ∈ db.clients then
      some { id := clientID, desiredQueryIDs := (activeRows clientID db.desires.values).map (·.queryHash) }
    else none := by
  have hget : (OrderedMap.ofList (db.clients.map fun id => (id, ({ id, desiredQueryIDs := [] } : ClientRecord)))).get?
      clientID = if clientID ∈ db.clients then some { id := clientID, desiredQueryIDs := [] } else none := by
    split
    · next hmem =>
      rw [← OrderedMap.mem_entries_iff, OrderedMap.mem_entries_ofList_map]
      exact ⟨hmem, rfl⟩
    · next hmem =>
      rw [Option.eq_none_iff_forall_not_mem]
      intro client hclient
      rw [Option.mem_def, ← OrderedMap.mem_entries_iff, OrderedMap.mem_entries_ofList_map] at hclient
      exact hmem hclient.1
  show (db.desires.values.foldl loadDesired _).get? clientID = _
  rw [get?_loadDesired, hget]
  split <;> simp

theorem desires_load {db : CVRDatabase α}
    (hrows : ∀ k row, db.desires.get? k = some row → k = (row.clientID, row.queryHash)) (clientID queryID : String) :
    db.load.Desires clientID queryID ↔ clientID ∈ db.clients ∧ db.Active clientID queryID := by
  have hactive : queryID ∈ (activeRows clientID db.desires.values).map (·.queryHash) ↔
      db.Active clientID queryID := by
    simp only [activeRows, List.mem_map, List.mem_filter, OrderedMap.mem_values_iff, Bool.and_eq_true,
      decide_eq_true_eq]
    constructor
    · rintro ⟨row, ⟨⟨k, hk⟩, hactive, hclient⟩, hquery⟩
      obtain rfl := hrows k row hk
      subst hclient hquery
      exact ⟨row, hk, hactive⟩
    · rintro ⟨row, hget, hactive⟩
      obtain ⟨hclient, hquery⟩ := Prod.mk.inj (hrows _ row hget)
      exact ⟨row, ⟨⟨_, hget⟩, hactive, hclient.symm⟩, hquery.symm⟩
  rw [ConfigCVR.Desires, get?_load]
  constructor
  · rintro ⟨client, hget, hq⟩
    split at hget
    · next hmem =>
      obtain rfl := Option.some.inj hget
      exact ⟨hmem, hactive.mp hq⟩
    · cases hget
  · rintro ⟨hmem, hq⟩
    exact ⟨_, if_pos hmem, hactive.mpr hq⟩

end CVRDatabase

/-- Both have the same clients, and each desires the same queries. -/
def ConfigCVR.SameDesires {α : Type} (cvr cvr' : ConfigCVR α) : Prop :=
  (∀ clientID, (cvr.clients.get? clientID).isSome = (cvr'.clients.get? clientID).isSome) ∧
  ∀ clientID queryID, cvr.Desires clientID queryID ↔ cvr'.Desires clientID queryID

theorem Stored.load {α : Type} {cvr : ConfigCVR α} {db : CVRDatabase α} (h : Stored cvr db) :
    db.load.SameDesires cvr := by
  refine ⟨fun clientID => ?_, fun clientID queryID => ?_⟩
  · rw [Bool.eq_iff_iff, ← h.clients, CVRDatabase.get?_load]
    split <;> simp_all
  · rw [CVRDatabase.desires_load h.rows, h.clients, h.active]
    refine ⟨fun hq => hq.2, fun hq => ⟨?_, hq⟩⟩
    obtain ⟨client, hget, -⟩ := hq
    rw [hget]
    rfl

/-! ## Flushing -/

namespace ConfigUpdater

variable {α : Type} {cvr cvr' : ConfigCVR α} {db db' : CVRDatabase α} {clientID : String} {active : Bool}
  {D S : String → Prop} {u : ConfigUpdater α}

theorem flush_cases (h : u.flush = .ok (cvr', db')) :
    (u.store.isIdle = true ∧ cvr' = u.orig ∧ db' = u.store.db) ∨
      (cvr' = u.cvr ∧ u.store.flush u.orig.version u.cvr = .ok db') := by
  unfold flush at h
  split at h
  · next hidle =>
    obtain ⟨rfl, rfl⟩ := Prod.mk.inj (Except.ok.inj h)
    exact .inl ⟨hidle, rfl, rfl⟩
  · obtain ⟨db₁, hdb, h⟩ := bind_ok h
    obtain ⟨rfl, rfl⟩ := Prod.mk.inj (Except.ok.inj h)
    exact .inr ⟨rfl, hdb⟩

theorem isIdle_store (hst : Stored cvr db) (hsome : (cvr.clients.get? clientID).isSome) : db.store.isIdle = true := by
  have hinstance : db.instance?.isNone = false := by
    cases h : db.instance? with
    | none =>
      rw [hst.noInstance h] at hsome
      cases hsome
    | some row => rfl
  unfold CVRStore.isIdle CVRDatabase.store
  rw [hinstance]
  rfl

theorem Updated.clients_flush (hst : Stored cvr db) (h : Updated cvr db clientID active D S u)
    (hwrites : u.store.writes.foldlM CVRStore.writeClient db.clients = .ok db'.clients) :
    db'.clients.Nodup ∧ ∀ id, id ∈ db'.clients ↔ (u.cvr.clients.get? id).isSome := by
  have hothers (id : String) (hid : id ≠ clientID) : id ∈ db.clients ↔ (u.cvr.clients.get? id).isSome := by
    rw [h.others id hid]
    exact hst.clients id
  rcases h.clientWrites with ⟨hsome, hw⟩ | ⟨hnone, hw⟩
  · rw [hw] at hwrites
    obtain heq := Except.ok.inj hwrites
    rw [← heq]
    refine ⟨hst.nodup, fun id => ?_⟩
    by_cases hid : id = clientID
    · subst hid
      simp [hst.clients, hsome, h.get]
    · exact hothers id hid
  · rw [hw, List.foldlM_cons] at hwrites
    obtain ⟨clients, hwrite, hwrites⟩ := bind_ok hwrites
    obtain rfl := Except.ok.inj hwrites
    unfold CVRStore.writeClient at hwrite
    simp only at hwrite
    split at hwrite
    · cases hwrite
    · next hnot =>
      obtain heq := Except.ok.inj hwrite
      rw [← heq]
      refine ⟨List.nodup_append.mpr ⟨hst.nodup, List.nodup_singleton _, ?_⟩, fun id => ?_⟩
      · intro a ha b hb hab
        rw [List.mem_singleton] at hb
        exact hnot (hb ▸ hab ▸ ha)
      · rw [List.mem_append, List.mem_singleton]
        by_cases hid : id = clientID
        · subst hid
          simp [h.get]
        · rw [hothers id hid]
          simp [hid]

theorem Updated.stored (hst : Stored cvr db) (h : Updated cvr db clientID active D S u)
    (hD : ((∀ q, ¬S q) ∧ (cvr.clients.get? clientID).isSome) ∨
      ∀ q, D q ↔ (S q ∧ active = true) ∨ (¬S q ∧ cvr.Desires clientID q))
    (hflush : u.flush = .ok (cvr', db')) : Stored cvr' db' := by
  rcases flush_cases hflush with ⟨-, rfl, rfl⟩ | ⟨rfl, hdb⟩
  · rw [h.orig, h.tables]
    exact hst
  · rcases hD with ⟨hS, hsome⟩ | hD
    · have hidle : u.store.isIdle = true := by
        rw [h.idle hS hsome]
        exact isIdle_store hst hsome
      unfold ConfigUpdater.flush at hflush
      rw [if_pos hidle] at hflush
      obtain ⟨hcvr, rfl⟩ := Prod.mk.inj (Except.ok.inj hflush)
      rw [← hcvr, h.orig, h.tables]
      exact hst
    · obtain ⟨hinstance, hclients, hdesires⟩ := CVRStore.flush_ok hdb
      rw [h.tables] at hclients hdesires
      obtain ⟨hnodup, hmem⟩ := h.clients_flush hst hclients
      obtain ⟨hrows, hactive, hothers⟩ := h.active_written hst.rows hdesires
      refine ⟨h.filed, hrows, hnodup, hmem, fun id q => ?_, fun hnone => ?_⟩
      · by_cases hid : id = clientID
        · subst hid
          rw [hactive, h.desires, hD, hst.active]
        · rw [hothers id hid, hst.active, ConfigCVR.Desires, ConfigCVR.Desires, h.others id hid]
      · rw [hnone] at hinstance
        cases hinstance

theorem Updated.forgets (hst : Stored cvr db) (h : Updated cvr db clientID active D S u) {q q' : String} (hS : S q')
    (hnot : ¬S q) (hq : cvr.Desires clientID q) (hD : ¬D q) (hflush : u.flush = .ok (cvr', db')) :
    ¬db'.load.SameDesires cvr' := by
  obtain ⟨row, hrow, -, -, -⟩ := h.written q' hS
  rcases flush_cases hflush with ⟨hidle, -, -⟩ | ⟨rfl, hdb⟩
  · have hempty : u.store.pendingDesireUpdates.entries = [] := by
      simp only [CVRStore.isIdle, Bool.and_eq_true, List.isEmpty_iff] at hidle
      exact hidle.2
    rw [OrderedMap.get?, hempty] at hrow
    cases hrow
  · obtain ⟨-, hclients, hdesires⟩ := CVRStore.flush_ok hdb
    rw [h.tables] at hclients hdesires
    obtain ⟨-, hmem⟩ := h.clients_flush hst hclients
    obtain ⟨hrows, hactive, -⟩ := h.active_written hst.rows hdesires
    intro hsame
    have hload : db'.load.Desires clientID q := by
      rw [CVRDatabase.desires_load hrows, hmem, hactive, hst.active]
      exact ⟨h.get, .inr ⟨hnot, hq⟩⟩
    exact hD ((h.desires q).mp ((hsame.2 clientID q).mp hload))

/-- A flush after `deleteClient`, when each of the client's desires gets its row. -/
theorem Updated.stored_deleteClient (hst : Stored cvr db) (h : Updated cvr db clientID false D S u)
    (hsome : (cvr.clients.get? clientID).isSome) (hS : ∀ q, cvr.Desires clientID q → S q)
    (hflush : flush { u with
      cvr := { u.cvr with clients := u.cvr.clients.erase clientID }
      store := u.store.deleteClient clientID } = .ok (cvr', db')) : Stored cvr' db' := by
  rcases flush_cases hflush with ⟨hidle, -, -⟩ | ⟨rfl, hdb⟩
  · simp [CVRStore.isIdle, CVRStore.deleteClient] at hidle
  · obtain ⟨hinstance, hclients, hdesires⟩ := CVRStore.flush_ok hdb
    have hwrites : u.store.writes = [] := by
      rcases h.clientWrites with ⟨-, hw⟩ | ⟨hnone, -⟩
      · exact hw
      · rw [hnone] at hsome
        cases hsome
    have hclients : db'.clients = db.clients.erase clientID := by
      simp only [CVRStore.deleteClient, hwrites, List.nil_append, h.tables] at hclients
      exact (Except.ok.inj hclients).symm
    simp only [CVRStore.deleteClient, h.tables] at hdesires
    obtain ⟨hrows, hactive, hothers⟩ := h.active_written hst.rows hdesires
    refine ⟨⟨fun id client hget => ?_, h.filed.queries⟩, hrows, hclients ▸ hst.nodup.erase _, fun id => ?_,
      fun id q => ?_, fun hnone => ?_⟩
    · have hget : (u.cvr.clients.erase clientID).get? id = some client := hget
      rw [OrderedMap.get?_erase] at hget
      split at hget
      · cases hget
      · exact h.filed.clients id client hget
    · rw [hclients, hst.nodup.mem_erase_iff]
      show _ ↔ ((u.cvr.clients.erase clientID).get? id).isSome
      rw [OrderedMap.get?_erase]
      by_cases hid : id = clientID
      · simp [hid]
      · rw [if_neg (Ne.symm hid), h.others id hid, hst.clients]
        simp [hid]
    · have hdesires : ConfigCVR.Desires { u.cvr with clients := u.cvr.clients.erase clientID } id q ↔
          id ≠ clientID ∧ cvr.Desires id q := by
        unfold ConfigCVR.Desires
        simp only [OrderedMap.get?_erase]
        by_cases hid : id = clientID
        · simp [hid]
        · simp [Ne.symm hid, hid, h.others id hid]
      rw [hdesires]
      by_cases hid : id = clientID
      · subst hid
        rw [hactive, hst.active]
        have hS := hS q
        simp only [Bool.false_eq_true, and_false, false_or, ne_eq, not_true_eq_false, false_and, iff_false]
        tauto
      · rw [hothers id hid, hst.active]
        simp [hid]
    · rw [hnone] at hinstance
      cases hinstance

/-! ## Tracking queries -/

/-- An updater that has changed neither clients nor desires. -/
structure Untouched (cvr : ConfigCVR α) (db : CVRDatabase α) (u : ConfigUpdater α) : Prop where
  orig : u.orig = cvr
  filed : u.cvr.Filed
  clients : u.cvr.clients = cvr.clients
  tables : u.store.db = db
  clientWrites : u.store.writes = []
  desires : u.store.pendingDesireUpdates = ∅

theorem untouched_new (hfiled : cvr.Filed) {replicaVersion : Option String} :
    Untouched cvr db (new db cvr replicaVersion) :=
  ⟨rfl, ⟨hfiled.clients, hfiled.queries⟩, rfl, rfl, rfl, rfl⟩

theorem Untouched.ensureNewVersion {u' : ConfigUpdater α} (h : Untouched cvr db u)
    (hok : u.ensureNewVersion = .ok u') : Untouched cvr db u' := by
  obtain ⟨version, rfl⟩ := ensureNewVersion_ok hok
  exact ⟨h.orig, ⟨h.filed.clients, h.filed.queries⟩, h.clients, h.tables, h.clientWrites, h.desires⟩

theorem trackExecuted_untouched {u' : ConfigUpdater α} {executed : String × String} (h : Untouched cvr db u)
    (hok : u.trackExecuted executed = .ok u') : Untouched cvr db u' := by
  obtain ⟨queryID, transformationHash⟩ := executed
  unfold trackExecuted at hok
  simp only at hok
  split at hok
  · cases hok
  · split at hok
    · cases hok
    · next query hquery =>
      split at hok
      · obtain rfl := Except.ok.inj hok
        exact ⟨h.orig, h.filed, h.clients, h.tables, h.clientWrites, h.desires⟩
      · obtain ⟨u₁, hu₁, hok⟩ := bind_ok hok
        have h₁ : Untouched cvr db u₁ := by
          refine Untouched.ensureNewVersion ?_ hu₁
          exact ⟨h.orig, h.filed, h.clients, h.tables, h.clientWrites, h.desires⟩
        have hid : query.id = queryID := h.filed.queries queryID query hquery
        obtain rfl := Except.ok.inj hok
        refine ⟨h₁.orig, filed_set h₁.filed ?_, h₁.clients, h₁.tables, h₁.clientWrites, h₁.desires⟩
        exact hid

theorem trackRemoved_untouched {u' : ConfigUpdater α} {queryID : String} (h : Untouched cvr db u)
    (hok : u.trackRemoved queryID = .ok u') : Untouched cvr db u' := by
  unfold trackRemoved at hok
  split at hok
  · cases hok
  · split at hok
    · cases hok
    · split at hok
      · cases hok
      · obtain ⟨u₁, hu₁, hok⟩ := bind_ok hok
        have hfiled : ConfigCVR.Filed { u.cvr with queries := u.cvr.queries.erase queryID } := by
          refine ⟨h.filed.clients, fun id query hget => ?_⟩
          have hget : (u.cvr.queries.erase queryID).get? id = some query := hget
          rw [OrderedMap.get?_erase] at hget
          split at hget
          · cases hget
          · exact h.filed.queries id query hget
        have h₁ : Untouched cvr db u₁ := by
          refine Untouched.ensureNewVersion ?_ hu₁
          exact ⟨h.orig, hfiled, h.clients, h.tables, h.clientWrites, h.desires⟩
        obtain rfl := Except.ok.inj hok
        exact ⟨h₁.orig, h₁.filed, h₁.clients, h₁.tables, h₁.clientWrites, h₁.desires⟩

theorem trackQueries_untouched {stateVersion replicaVersion : String} {executed : List (String × String)}
    {removed : List String} {u₀ : ConfigUpdater α} (hfiled : cvr.Filed)
    (hnew : newQueryDriven db cvr stateVersion replicaVersion = .ok u₀)
    (h : u₀.trackQueries executed removed = .ok u) : Untouched cvr db u := by
  have h₀ : Untouched cvr db u₀ := by
    unfold newQueryDriven setVersion at hnew
    simp only at hnew
    split at hnew
    · cases hnew
    · split at hnew
      · cases hnew
      · split at hnew
        · split at hnew
          · obtain rfl := Except.ok.inj hnew
            exact ⟨rfl, ⟨hfiled.clients, hfiled.queries⟩, rfl, rfl, rfl, rfl⟩
          · cases hnew
        · obtain rfl := Except.ok.inj hnew
          exact untouched_new hfiled
  obtain ⟨u₁, hu₁, h⟩ := bind_ok h
  have h₁ := foldlM_ok (fun _ _ _ _ hI hok => trackExecuted_untouched hI hok) h₀ hu₁
  exact foldlM_ok (fun _ _ _ _ hI hok => trackRemoved_untouched hI hok) h₁ h

theorem Untouched.stored (hst : Stored cvr db) (h : Untouched cvr db u) (hflush : u.flush = .ok (cvr', db')) :
    Stored cvr' db' := by
  rcases flush_cases hflush with ⟨-, rfl, rfl⟩ | ⟨rfl, hdb⟩
  · rw [h.orig, h.tables]
    exact hst
  · obtain ⟨hinstance, hclients, hdesires⟩ := CVRStore.flush_ok hdb
    rw [h.clientWrites, h.tables] at hclients
    rw [h.desires, h.tables] at hdesires
    have hclients : db'.clients = db.clients := (Except.ok.inj hclients).symm
    have hdesires : db'.desires = db.desires := (Except.ok.inj hdesires).symm
    refine ⟨h.filed, hdesires ▸ hst.rows, hclients ▸ hst.nodup, fun id => ?_, fun id q => ?_, fun hnone => ?_⟩
    · rw [hclients, h.clients, hst.clients]
    · rw [CVRDatabase.Active, ConfigCVR.Desires, hdesires, h.clients]
      exact hst.active id q
    · rw [hnone] at hinstance
      cases hinstance

end ConfigUpdater

/-! ## Runs -/

/-- The queries a client desires. -/
def ConfigCVR.desired {α : Type} (cvr : ConfigCVR α) (clientID : String) : List String :=
  ((cvr.clients.get? clientID).map (·.desiredQueryIDs)).getD []

/-- The queries the operation removes from its client's desires all have a
record or, where the client stays, none has. -/
def ConfigOperation.keepsTrack {α : Type} (cvr : ConfigCVR α) : ConfigOperation α → Bool
  | markDesiredQueriesAsInactive clientID queryHashes _ | deleteDesiredQueries clientID queryHashes =>
    let removed := (cvr.desired clientID).filter (· ∈ queryHashes)
    removed.all cvr.queries.contains || removed.all (!cvr.queries.contains ·)
  | clearDesiredQueries clientID =>
    (cvr.desired clientID).all cvr.queries.contains || (cvr.desired clientID).all (!cvr.queries.contains ·)
  | deleteClient clientID _ => (cvr.desired clientID).all cvr.queries.contains
  | _ => true

section
variable {α : Type} {cvr cvr' : ConfigCVR α} {db db' : CVRDatabase α}

theorem ConfigCVR.desires_iff {clientID queryID : String} :
    cvr.Desires clientID queryID ↔ queryID ∈ cvr.desired clientID := by
  unfold Desires desired
  cases cvr.clients.get? clientID with
  | none => simp
  | some client => simp

theorem removed_rows {clientID : String} {removed : List String} {R : String → Prop}
    (hR : ∀ q, q ∈ removed ↔ R q ∧ cvr.Desires clientID q)
    (h : (removed.all cvr.queries.contains || removed.all (!cvr.queries.contains ·)) = true) :
    ((∀ q, ¬((R q ∧ cvr.Desires clientID q) ∧ (cvr.queries.get? q).isSome)) ∧
        ((cvr.clients.get? clientID).isSome)) ∨
      ∀ q, cvr.Desires clientID q ∧ ¬R q ↔
        (((R q ∧ cvr.Desires clientID q) ∧ (cvr.queries.get? q).isSome) ∧ false = true) ∨
        (¬((R q ∧ cvr.Desires clientID q) ∧ (cvr.queries.get? q).isSome) ∧ cvr.Desires clientID q) := by
  rw [Bool.or_eq_true, List.all_eq_true, List.all_eq_true] at h
  rcases h with hall | hnone
  · refine .inr fun q => ?_
    have hq : R q ∧ cvr.Desires clientID q → (cvr.queries.get? q).isSome = true := fun hq => hall q ((hR q).mpr hq)
    simp only [Bool.false_eq_true, and_false, false_or]
    tauto
  · have hS (q : String) : ¬((R q ∧ cvr.Desires clientID q) ∧ (cvr.queries.get? q).isSome) := by
      rintro ⟨hq, hsome⟩
      have hcontains := hnone q ((hR q).mpr hq)
      rw [OrderedMap.contains, hsome] at hcontains
      cases hcontains
    by_cases hclient : (cvr.clients.get? clientID).isSome
    · exact .inl ⟨hS, hclient⟩
    · -- A client that is not there desires nothing.
      refine .inr fun q => ?_
      have hq : ¬cvr.Desires clientID q := by
        rintro ⟨client, hget, -⟩
        exact hclient (by rw [hget]; rfl)
      tauto

theorem Stored.run {op : ConfigOperation α} (hst : Stored cvr db) (hkeeps : op.keepsTrack cvr = true)
    (h : op.run cvr db = .ok (cvr', db')) : Stored cvr' db' := by
  obtain ⟨u, hu, hflush⟩ := bind_ok h
  have hfiled := hst.filed
  cases op with
  | ensureClient clientID =>
    obtain ⟨⟨client, u₁⟩, hok, rfl⟩ := map_ok hu
    refine ((ConfigUpdater.ensured_new hfiled hok).updated true).stored hst (.inr fun q => ?_) hflush
    tauto
  | putDesiredQueries clientID queries =>
    obtain ⟨⟨patches, u₁⟩, hok, rfl⟩ := map_ok hu
    obtain ⟨S, hupdated⟩ := ConfigUpdater.putDesiredQueries_updated hfiled hok
    refine hupdated.stored hst (.inr fun q => ?_) hflush
    tauto
  | markDesiredQueriesAsInactive clientID queryHashes ttlClock =>
    obtain ⟨⟨patches, u₁⟩, hok, rfl⟩ := map_ok hu
    refine (ConfigUpdater.deleteQueries_updated hfiled hok).stored hst (removed_rows (fun q => ?_) hkeeps) hflush
    simp [ConfigCVR.desires_iff, and_comm]
  | deleteDesiredQueries clientID queryHashes =>
    obtain ⟨⟨patches, u₁⟩, hok, rfl⟩ := map_ok hu
    refine (ConfigUpdater.deleteQueries_updated hfiled hok).stored hst (removed_rows (fun q => ?_) hkeeps) hflush
    simp [ConfigCVR.desires_iff, and_comm]
  | clearDesiredQueries clientID =>
    obtain ⟨⟨patches, u₁⟩, hok, rfl⟩ := map_ok hu
    have hmem (q : String) : q ∈ cvr.desired clientID ↔ True ∧ cvr.Desires clientID q := by
      rw [ConfigCVR.desires_iff, true_and]
    have hrows := removed_rows hmem hkeeps
    simp only [true_and, not_true_eq_false, and_false] at hrows
    exact (ConfigUpdater.clearDesiredQueries_updated hfiled hok).stored hst hrows hflush
  | deleteClient clientID ttlClock =>
    obtain ⟨⟨patches, u₁⟩, hok, rfl⟩ := map_ok hu
    unfold ConfigUpdater.deleteClient at hok
    split at hok
    · obtain ⟨-, rfl⟩ := Prod.mk.inj (Except.ok.inj hok)
      exact (ConfigUpdater.untouched_new hfiled).stored hst hflush
    · next client hclient =>
      obtain ⟨⟨patches', u₂⟩, hmark, hok⟩ := bind_ok hok
      obtain ⟨-, rfl⟩ := Prod.mk.inj (Except.ok.inj hok)
      have hclient : cvr.clients.get? clientID = some client := hclient
      refine (ConfigUpdater.deleteQueries_updated hfiled hmark).stored_deleteClient hst (by rw [hclient]; rfl)
        (fun q hq => ⟨⟨?_, hq⟩, ?_⟩) hflush
      · rwa [ConfigCVR.desires_iff, ConfigCVR.desired, hclient] at hq
      · exact List.all_eq_true.mp hkeeps q (ConfigCVR.desires_iff.mp hq)
  | trackQueries stateVersion replicaVersion executed removed =>
    obtain ⟨u₀, hnew, hu⟩ := bind_ok hu
    exact (ConfigUpdater.trackQueries_untouched hfiled hnew hu).stored hst hflush

theorem exists_forgotten {clientID : String} {removed : List String} {R : String → Prop}
    (hR : ∀ q, q ∈ removed ↔ R q ∧ cvr.Desires clientID q)
    (h : (removed.all cvr.queries.contains || removed.all (!cvr.queries.contains ·)) = false) :
    ∃ q q', (R q ∧ cvr.Desires clientID q ∧ ¬(cvr.queries.get? q).isSome) ∧
      R q' ∧ cvr.Desires clientID q' ∧ (cvr.queries.get? q').isSome := by
  rw [Bool.or_eq_false_iff, List.all_eq_false, List.all_eq_false] at h
  obtain ⟨⟨q, hq, hnone⟩, q', hq', hsome⟩ := h
  obtain ⟨hRq, hdq⟩ := (hR q).mp hq
  obtain ⟨hRq', hdq'⟩ := (hR q').mp hq'
  rw [Bool.not_eq_true, Bool.not_eq_false'] at hsome
  exact ⟨q, q', ⟨hRq, hdq, hnone⟩, hRq', hdq', hsome⟩

/-- An operation on the desires of a client that stays, and does not keep track, leaves the tables out of step. -/
theorem Stored.run_forgets {op : ConfigOperation α} (hst : Stored cvr db) (hkeeps : op.keepsTrack cvr = false)
    (hstays : ∀ clientID ttlClock, op ≠ .deleteClient clientID ttlClock) (h : op.run cvr db = .ok (cvr', db')) :
    ¬db'.load.SameDesires cvr' := by
  obtain ⟨u, hu, hflush⟩ := bind_ok h
  have hfiled := hst.filed
  cases op with
  | ensureClient | putDesiredQueries | trackQueries => cases hkeeps
  | deleteClient clientID ttlClock => exact absurd rfl (hstays clientID ttlClock)
  | markDesiredQueriesAsInactive clientID queryHashes _ | deleteDesiredQueries clientID queryHashes =>
    obtain ⟨⟨patches, u₁⟩, hok, rfl⟩ := map_ok hu
    have hmem (q : String) : q ∈ (cvr.desired clientID).filter (· ∈ queryHashes) ↔
        q ∈ queryHashes ∧ cvr.Desires clientID q := by
      simp [ConfigCVR.desires_iff, and_comm]
    obtain ⟨q, q', ⟨hq, hdesires, hnone⟩, hq', hdesires', hsome⟩ := exists_forgotten hmem hkeeps
    exact (ConfigUpdater.deleteQueries_updated hfiled hok).forgets hst ⟨⟨hq', hdesires'⟩, hsome⟩
      (fun hS => hnone hS.2) hdesires (fun hD => hD.2 hq) hflush
  | clearDesiredQueries clientID =>
    obtain ⟨⟨patches, u₁⟩, hok, rfl⟩ := map_ok hu
    have hmem (q : String) : q ∈ cvr.desired clientID ↔ True ∧ cvr.Desires clientID q := by
      rw [ConfigCVR.desires_iff, true_and]
    obtain ⟨q, q', ⟨-, hdesires, hnone⟩, -, hdesires', hsome⟩ := exists_forgotten hmem hkeeps
    exact (ConfigUpdater.clearDesiredQueries_updated hfiled hok).forgets hst ⟨hdesires', hsome⟩
      (fun hS => hnone hS.2) hdesires (fun hD => hD) hflush

theorem stored_empty : Stored (CVRDatabase.load {} : ConfigCVR α) {} := by
  have hnone (id : String) : (CVRDatabase.load {} : ConfigCVR α).clients.get? id = none := rfl
  refine ⟨⟨fun id client hget => ?_, fun id query hget => ?_⟩, fun k row hget => ?_, List.nodup_nil, fun id => ?_,
    fun id q => ⟨fun ⟨row, hget, _⟩ => ?_, fun ⟨client, hget, _⟩ => ?_⟩, fun _ => hnone⟩
  · cases hget
  · cases hget
  · cases hget
  · rw [hnone]
    simp
  · cases hget
  · cases hget

end

/-- The CVR and the tables after operations that keep track, each followed by a flush, on a new client group. -/
inductive ConfigReached {α : Type} : ConfigCVR α → CVRDatabase α → Prop
  | empty : ConfigReached (CVRDatabase.load {}) {}
  | run {cvr cvr' db db'} (op : ConfigOperation α) : ConfigReached cvr db → op.keepsTrack cvr = true →
      op.run cvr db = .ok (cvr', db') → ConfigReached cvr' db'

theorem ConfigReached.stored {α : Type} {cvr : ConfigCVR α} {db : CVRDatabase α} (h : ConfigReached cvr db) :
    Stored cvr db := by
  induction h with
  | empty => exact stored_empty
  | run op _ hkeeps hrun ih => exact ih.run hkeeps hrun

/-! ## Lists of operations -/

/-- Operations, each followed by a flush. -/
def ConfigOperation.runs {α : Type} (s : ConfigCVR α × CVRDatabase α) (ops : List (ConfigOperation α)) :
    Except ConfigError (ConfigCVR α × CVRDatabase α) :=
  ops.foldlM (fun s op => op.run s.1 s.2) s

/-- Each of the operations keeps track. -/
def ConfigOperation.keepTrack {α : Type} (s : ConfigCVR α × CVRDatabase α) : List (ConfigOperation α) → Bool
  | [] => true
  | op :: ops => op.keepsTrack s.1 && (op.run s.1 s.2).toOption.all (keepTrack · ops)

theorem ConfigReached.runs {α : Type} {s s' : ConfigCVR α × CVRDatabase α} {ops : List (ConfigOperation α)}
    (h : ConfigReached s.1 s.2) (hkeep : ConfigOperation.keepTrack s ops = true)
    (hruns : ConfigOperation.runs s ops = .ok s') : ConfigReached s'.1 s'.2 := by
  induction ops generalizing s with
  | nil =>
    obtain rfl := Except.ok.inj hruns
    exact h
  | cons op ops ih =>
    rw [ConfigOperation.runs, List.foldlM_cons] at hruns
    obtain ⟨s₁, hs₁, hruns⟩ := bind_ok hruns
    rw [ConfigOperation.keepTrack, hs₁, Bool.and_eq_true] at hkeep
    exact ih (h.run op hkeep.1 hs₁) hkeep.2 hruns

/-- **The CVR loaded from the tables desires what the CVR in memory does**,
after any operations that keep track. -/
theorem configReached_load {α : Type} {cvr : ConfigCVR α} {db : CVRDatabase α} (h : ConfigReached cvr db) :
    db.load.SameDesires cvr :=
  h.stored.load

/-- The queries `q1` and `q2` are desired, and the record of `q1` is removed. -/
def removedWhileDesired : List (ConfigOperation String) := [
  .putDesiredQueries "c" [{ hash := "q1", definition := some "A" }, { hash := "q2", definition := some "B" }],
  .trackQueries "01" "01" [] ["q1"]]

theorem configReached_load_kept : ∃ cvr db,
    ConfigOperation.runs (CVRDatabase.load {}, {}) (removedWhileDesired ++ [.deleteDesiredQueries "c" ["q2"]]) =
      .ok (cvr, db) ∧ db.load.SameDesires cvr := by
  have hkeep : ConfigOperation.keepTrack (CVRDatabase.load {}, {})
      (removedWhileDesired ++ [.deleteDesiredQueries "c" ["q2"]]) = true := by decide +kernel
  have hok : (ConfigOperation.runs (CVRDatabase.load {}, {})
      (removedWhileDesired ++ [.deleteDesiredQueries "c" ["q2"]])).toOption.isSome = true := by decide +kernel
  cases hruns : ConfigOperation.runs (CVRDatabase.load {}, {})
      (removedWhileDesired ++ [.deleteDesiredQueries "c" ["q2"]]) with
  | error e =>
    rw [hruns] at hok
    cases hok
  | ok s => exact ⟨s.1, s.2, rfl, configReached_load (ConfigReached.empty.runs hkeep hruns)⟩

/-- Deleting both desires forgets the row of `q1`. -/
theorem configReached_load_forgotten : ∃ cvr db,
    ConfigOperation.runs (CVRDatabase.load {}, {})
        (removedWhileDesired ++ [.deleteDesiredQueries "c" ["q1", "q2"]]) = .ok (cvr, db) ∧
      ¬db.load.SameDesires cvr := by
  have hdesired : (ConfigOperation.runs (CVRDatabase.load {}, {})
      (removedWhileDesired ++ [.deleteDesiredQueries "c" ["q1", "q2"]])).toOption.map
        (fun s => (s.1.desired "c", s.2.load.desired "c")) = some ([], ["q1"]) := by decide +kernel
  cases hruns : ConfigOperation.runs (CVRDatabase.load {}, {})
      (removedWhileDesired ++ [.deleteDesiredQueries "c" ["q1", "q2"]]) with
  | error e =>
    rw [hruns] at hdesired
    cases hdesired
  | ok s =>
    rw [hruns] at hdesired
    obtain ⟨hmemory, hloaded⟩ := Prod.mk.inj (Option.some.inj hdesired)
    refine ⟨s.1, s.2, rfl, fun hsame => ?_⟩
    have hq := hsame.2 "c" "q1"
    rw [ConfigCVR.desires_iff, ConfigCVR.desires_iff, hmemory, hloaded] at hq
    simp at hq

/-- **The first operation that does not keep track**, unless it deletes a client, puts the
tables out of step with the CVR, and no operation before it does. -/
theorem configReached_load_iff {α : Type} {cvr cvr' : ConfigCVR α} {db db' : CVRDatabase α} {op : ConfigOperation α}
    (h : ConfigReached cvr db) (hstays : ∀ clientID ttlClock, op ≠ .deleteClient clientID ttlClock)
    (hrun : op.run cvr db = .ok (cvr', db')) : db'.load.SameDesires cvr' ↔ op.keepsTrack cvr = true := by
  constructor
  · intro hsame
    by_contra hkeeps
    exact h.stored.run_forgets (Bool.eq_false_iff.mpr hkeeps) hstays hrun hsame
  · exact fun hkeeps => (h.stored.run hkeeps hrun).load

theorem configReached_load_iff_put : ∃ cvr' db', (ConfigOperation.putDesiredQueries "c" [{ hash := "q1", definition := some "A" }]).run
    (CVRDatabase.load {}) {} = .ok (cvr', db') ∧ db'.load.SameDesires cvr' := by
  cases hrun : (ConfigOperation.putDesiredQueries "c" [{ hash := "q1", definition := some "A" }]).run (CVRDatabase.load {}) {} with
  | error e =>
    have hok : ((ConfigOperation.putDesiredQueries "c" [{ hash := "q1", definition := some "A" }]).run
      (CVRDatabase.load {}) {}).toOption.isSome = true := by decide +kernel
    rw [hrun] at hok
    cases hok
  | ok s => exact ⟨s.1, s.2, rfl, (configReached_load_iff .empty (fun _ _ h => by cases h) hrun).mpr rfl⟩

end ZeroSync
