/-
What a run of batches leaves of one row.

`#processChanges` cuts a list of changes into batches, and `received` treats
the rows of a batch one by one, each by itself. So a run is read row by row:
the updates a row gets, batch after batch, decide its entry in the updater
(`receivedBatches_ok`). The cut shows in nothing that adds up over the
updates.
-/
import ZeroSync.RefCounts

namespace ZeroSync

section
variable {ρ κ : Type} [DecidableEq ρ]

/-! ## Batches -/

/-- The map of updates `#processChanges` makes of a batch. -/
def batchRows (batch : List (RowChange ρ κ)) : OrderedMap ρ (RowUpdate κ) := batch.foldl addChange ∅

/-- What the changes do to a query's count of a row. -/
def net (changes : List (RowChange ρ κ)) (id : ρ) (q : String) : ℤ :=
  (changes.map fun c => if c.id = id ∧ c.queryID = q then c.count else 0).sum

/-- The newest row received. -/
def newest (changes : List (RowChange ρ κ)) (id : ρ) : Option (VersionedRow κ) :=
  (changes.filterMap fun c => if c.id = id then c.row? else none).getLast?

theorem net_append (l l' : List (RowChange ρ κ)) (id : ρ) (q : String) :
    net (l ++ l') id q = net l id q + net l' id q := by
  simp [net]

theorem newest_append (l l' : List (RowChange ρ κ)) (id : ρ) :
    newest (l ++ l') id = (newest l' id).or (newest l id) := by
  simp [newest, List.filterMap_append, List.getLast?_append]

/-- An update says what a batch does to a row. -/
structure Sums (batch : List (RowChange ρ κ)) (id : ρ) (update : RowUpdate κ) : Prop where
  touched : ∃ c ∈ batch, c.id = id
  refCounts : ∀ q, refCount (some update.refCounts) q = net batch id q
  version : update.version = (newest batch id).map (·.version)
  contents : update.contents = (newest batch id).map (·.contents)
  positive : (∀ c ∈ batch, c.count = 1) → Positive update.refCounts

theorem batchRows_concat (batch : List (RowChange ρ κ)) (c : RowChange ρ κ) :
    batchRows (batch ++ [c]) = addChange (batchRows batch) c := by
  simp [batchRows]

theorem net_eq_zero {changes : List (RowChange ρ κ)} {id : ρ} (h : ∀ c ∈ changes, c.id ≠ id) (q : String) :
    net changes id q = 0 := by
  refine List.sum_eq_zero fun n hn => ?_
  obtain ⟨c, hc, rfl⟩ := List.mem_map.mp hn
  simp [h c hc]

theorem newest_eq_none {changes : List (RowChange ρ κ)} {id : ρ} (h : ∀ c ∈ changes, c.id ≠ id) :
    newest changes id = none := by
  rw [newest, List.filterMap_eq_nil_iff.mpr fun c hc => by simp [h c hc]]
  rfl

theorem getD_batchRows {batch : List (RowChange ρ κ)} {id : ρ}
    (h : ((batchRows batch).get? id = none ∧ ∀ c ∈ batch, c.id ≠ id) ∨
      ∃ update, (batchRows batch).get? id = some update ∧ Sums batch id update) :
    let parsedRow := ((batchRows batch).get? id).getD { refCounts := ∅ }
    (∀ q, refCount (some parsedRow.refCounts) q = net batch id q) ∧
      parsedRow.version = (newest batch id).map (·.version) ∧
      parsedRow.contents = (newest batch id).map (·.contents) ∧
      ((∀ c ∈ batch, c.count = 1) → Positive parsedRow.refCounts) := by
  rcases h with ⟨hnone, hne⟩ | ⟨update, hsome, hsums⟩
  · rw [hnone, newest_eq_none hne]
    exact ⟨fun q => by simp [net_eq_zero hne], rfl, rfl, fun _ q c hq => by simp at hq⟩
  · rw [hsome]
    exact ⟨hsums.refCounts, hsums.version, hsums.contents, hsums.positive⟩

theorem get?_batchRows (batch : List (RowChange ρ κ)) (id : ρ) :
    ((batchRows batch).get? id = none ∧ ∀ c ∈ batch, c.id ≠ id) ∨
      ∃ update, (batchRows batch).get? id = some update ∧ Sums batch id update := by
  induction batch using List.reverseRecOn with
  | nil => exact .inl ⟨rfl, by simp⟩
  | append_singleton batch c ih =>
    rw [batchRows_concat]
    by_cases hid : c.id = id
    · subst hid
      obtain ⟨hcounts, hversion, hcontents, hpos⟩ := getD_batchRows ih
      refine .inr ⟨_, OrderedMap.get?_set_self .., ⟨c, by simp, rfl⟩, fun q => ?_, ?_, ?_, fun hadd q n hq => ?_⟩
      · have hq := hcounts q
        simp only [refCount_some] at hq ⊢
        rw [net_append, ← hq, OrderedMap.get?_set]
        by_cases hcq : c.queryID = q
        · simp [net, hcq]
        · simp [net, hcq]
      · rw [newest_append, hversion]
        cases hrow : c.row? <;> simp [newest, hrow]
      · rw [newest_append, hcontents]
        cases hrow : c.row? <;> simp [newest, hrow]
      · rw [OrderedMap.get?_set] at hq
        have hpos := hpos fun c hc => hadd c (by simp [hc])
        split at hq
        · obtain rfl := Option.some.inj hq
          rw [hadd c (by simp)]
          cases hold : OrderedMap.get? _ c.queryID with
          | none => simp
          | some m => have := hpos _ _ hold; simp only [Option.getD_some]; omega
        · exact hpos _ _ hq
    · have hget : (addChange (batchRows batch) c).get? id = (batchRows batch).get? id :=
        OrderedMap.get?_set_of_ne _ _ hid
      rw [hget]
      rcases ih with ⟨hnone, hne⟩ | ⟨update, hsome, ⟨d, hd, hdid⟩, hcounts, hversion, hcontents, hpos⟩
      · exact .inl ⟨hnone, fun d hd => by
          rcases List.mem_append.mp hd with hd | hd
          · exact hne d hd
          · rw [List.mem_singleton.mp hd]; exact hid⟩
      · have hc : ∀ d ∈ [c], d.id ≠ id := by simpa using hid
        have hnewest : newest (batch ++ [c]) id = newest batch id := by
          rw [newest_append, newest_eq_none hc, Option.none_or]
        refine .inr ⟨update, hsome, ⟨d, by simp [hd], hdid⟩, fun q => ?_, ?_, ?_, fun hadd => ?_⟩
        · rw [net_append, net_eq_zero hc, add_zero, hcounts]
        · rw [hnewest, hversion]
        · rw [hnewest, hcontents]
        · exact hpos fun d hd => hadd d (by simp [hd])

/-! ## Clients -/

/-- A patch as one row of a client sees it; `none` is a row the client does not have. -/
def Patch.applyTo (id : ρ) : Patch ρ κ → Option κ → Option κ
  | .rowPut k contents, row => if k = id then some contents else row
  | .rowDel k, row => if k = id then none else row
  | .queryPut _, row | .queryDel _, row => row

/-- A row of a client at version `since` after the patches, those it has not
passed left out as `addPatch` leaves them out. -/
def clientRow (since : CVRVersion) (id : ρ) (row : Option κ) (patches : List (PatchToVersion ρ κ)) : Option κ :=
  patches.foldl (fun row p => if cmpVersions p.toVersion since ≤ 0 then row else p.patch.applyTo id row) row

theorem clientRow_append (since : CVRVersion) (id : ρ) (row : Option κ) (l l' : List (PatchToVersion ρ κ)) :
    clientRow since id row (l ++ l') = clientRow since id (clientRow since id row l) l' := by
  simp [clientRow]

/-! ## One row -/

namespace CVRQueryDrivenUpdater

/-- The CVR's version is above the original. -/
def Bumped (u : CVRQueryDrivenUpdater ρ) : Prop := cmpVersions u.orig.version u.cvr.version < 0

/-- What no `received` changes. -/
structure SameBase (u u' : CVRQueryDrivenUpdater ρ) : Prop where
  orig : u'.orig = u.orig
  cvr : u'.cvr = u.cvr
  rowRecords : u'.rowRecords = u.rowRecords
  removedOrExecutedQueryIDs : u'.removedOrExecutedQueryIDs = u.removedOrExecutedQueryIDs
  existingRows : u'.existingRows = u.existingRows

theorem SameBase.trans {u u' u'' : CVRQueryDrivenUpdater ρ} (h : SameBase u u') (h' : SameBase u' u'') :
    SameBase u u'' :=
  ⟨h'.orig.trans h.orig, h'.cvr.trans h.cvr, h'.rowRecords.trans h.rowRecords,
    h'.removedOrExecutedQueryIDs.trans h.removedOrExecutedQueryIDs, h'.existingRows.trans h.existingRows⟩

theorem SameBase.bumped {u u' : CVRQueryDrivenUpdater ρ} (h : SameBase u u') (hb : u.Bumped) : u'.Bumped := by
  rw [Bumped, h.orig, h.cvr]
  exact hb

/-- What an updater keeps of one row. -/
structure RowState (ρ : Type) where
  received : Option (Option RefCounts) := none
  pending : Option (Option (RowRecord ρ)) := none
  lastPatch : Option RowPatchInfo := none

def rowState (u : CVRQueryDrivenUpdater ρ) (id : ρ) : RowState ρ where
  received := u.receivedRows.get? id
  pending := u.pendingRowRecordUpdates.get? id
  lastPatch := u.lastPatches.get? id

/-- An update with contents has a version. -/
def Versioned (update : RowUpdate κ) : Prop :=
  update.contents.isSome → ∃ v, update.version = some v ∧ v ≠ ""

/-- The patch version a bumped updater gives a row. -/
def patchVersionOf (u : CVRQueryDrivenUpdater ρ) (existing : Option (RowRecord ρ)) (newRowVersion : Option String) :
    CVRVersion :=
  match existing with
  | some existing => if some existing.rowVersion = newRowVersion then existing.patchVersion else u.cvr.version
  | none => u.cvr.version

/-- A row goes through `received`: from its state and its update to its state
after and the patch sent. -/
inductive RowStep (u : CVRQueryDrivenUpdater ρ) (id : ρ) (s : RowState ρ) (update : RowUpdate κ) :
    RowState ρ → Option (PatchToVersion ρ κ) → Prop
  | mk {m : Option RefCounts} {v : CVRVersion} {sent} :
      m = merged u.removedOrExecutedQueryIDs (u.rowRecords.get? id) s.received update.refCounts →
      v = u.patchVersionOf (u.rowRecords.get? id) (if m.isNone then none else update.version) →
      rowPatch id (u.rowRecords.get? id) s.received s.lastPatch update.contents v m
        (rowRecord id (u.rowRecords.get? id) update.version v m) = .ok sent →
      RowStep u id s update ⟨some m, some (rowRecord id (u.rowRecords.get? id) update.version v m),
        (sent.map (·.2)).or s.lastPatch⟩ (sent.map (·.1))

theorem rowPatchVersion_ok {u : CVRQueryDrivenUpdater ρ} (hb : u.Bumped) (existing : Option (RowRecord ρ))
    (newRowVersion : Option String) :
    u.rowPatchVersion existing newRowVersion = .ok (u.patchVersionOf existing newRowVersion) := by
  have hassert : u.assertNewVersion = .ok u.cvr.version := if_pos hb
  cases existing with
  | none => exact hassert
  | some existing =>
    simp only [rowPatchVersion, patchVersionOf, hassert]
    split <;> rfl

omit [DecidableEq ρ] in
theorem rowPatch_ok {id : ρ} {existing : Option (RowRecord ρ)} {previouslyReceived : Option (Option RefCounts)}
    {lastPatch : Option RowPatchInfo} {contents : Option κ} {patchVersion : CVRVersion} {merged : Option RefCounts}
    {record : Option (RowRecord ρ)} (h : contents.isSome → record.isSome) :
    ∃ sent, rowPatch id existing previouslyReceived lastPatch contents patchVersion merged record = .ok sent := by
  cases merged with
  | none =>
    simp only [rowPatch]
    split <;> exact ⟨_, rfl⟩
  | some m =>
    cases contents with
    | none => exact ⟨_, rfl⟩
    | some contents =>
      obtain ⟨record, rfl⟩ := Option.isSome_iff_exists.mp (h rfl)
      simp only [rowPatch]
      split <;> exact ⟨_, rfl⟩

omit [DecidableEq ρ] in
theorem rowRecord_isSome {id : ρ} {existing : Option (RowRecord ρ)} {update : RowUpdate κ} (hv : Versioned update)
    {patchVersion : CVRVersion} {refCounts : Option RefCounts} (hc : update.contents.isSome) :
    (rowRecord id existing update.version patchVersion refCounts).isSome := by
  obtain ⟨v, hver, hne⟩ := hv hc
  simp [rowRecord, hver, hne]

/-- **One row.** Its update changes its own state and no other row's. -/
theorem receivedRow_ok {u : CVRQueryDrivenUpdater ρ} (hb : u.Bumped) (id : ρ) {update : RowUpdate κ}
    (hv : Versioned update) : ∃ patch s' u', u.receivedRow id update = .ok (patch.toList, u') ∧ SameBase u u' ∧
      RowStep u id (u.rowState id) update s' patch ∧ u'.rowState id = s' ∧
      ∀ k, k ≠ id → u'.rowState k = u.rowState k := by
  obtain ⟨m, hm⟩ : ∃ m, m = merged u.removedOrExecutedQueryIDs (u.rowRecords.get? id) (u.receivedRows.get? id)
    update.refCounts := ⟨_, rfl⟩
  obtain ⟨v, hpv⟩ : ∃ v, v = u.patchVersionOf (u.rowRecords.get? id) (if m.isNone then none else update.version) :=
    ⟨_, rfl⟩
  obtain ⟨sent, hsent⟩ : ∃ sent, rowPatch id (u.rowRecords.get? id) (u.receivedRows.get? id) (u.lastPatches.get? id)
      update.contents v m (rowRecord id (u.rowRecords.get? id) update.version v m) = .ok sent :=
    rowPatch_ok fun hc => rowRecord_isSome hv hc
  refine ⟨_, _, { u with
    receivedRows := u.receivedRows.set id m
    pendingRowRecordUpdates := u.pendingRowRecordUpdates.set id
      (rowRecord id (u.rowRecords.get? id) update.version v m)
    lastPatches := sent.elim u.lastPatches fun sent => u.lastPatches.set id sent.2 }, ?_, ⟨rfl, rfl, rfl, rfl, rfl⟩, .mk hm hpv hsent, ?_, ?_⟩
  · rw [receivedRow, ← hm, rowPatchVersion_ok hb, ← hpv]
    simp only [bind, Except.bind]
    rw [hsent]
    cases sent <;> rfl
  · cases sent <;> simp [rowState]
  · intro k hk
    cases sent <;> simp [rowState, OrderedMap.get?_set_of_ne _ _ hk.symm]

/-! ## A batch, and a run of batches -/

omit [DecidableEq ρ] in
theorem rowPatch_about {id : ρ} {existing : Option (RowRecord ρ)} {previouslyReceived : Option (Option RefCounts)}
    {lastPatch : Option RowPatchInfo} {contents : Option κ} {patchVersion : CVRVersion} {merged : Option RefCounts}
    {record : Option (RowRecord ρ)} {sent : PatchToVersion ρ κ × RowPatchInfo}
    (h : rowPatch id existing previouslyReceived lastPatch contents patchVersion merged record = .ok (some sent)) :
    sent.1.patch = .rowDel id ∨ ∃ c, sent.1.patch = .rowPut id c := by
  cases merged with
  | none =>
    simp only [rowPatch] at h
    split at h
    · obtain rfl := Option.some.inj (Except.ok.inj h)
      exact .inl rfl
    · cases h
  | some m =>
    cases contents with
    | none => cases h
    | some contents =>
      cases record with
      | none => cases h
      | some record =>
        simp only [rowPatch] at h
        split at h
        · obtain rfl := Option.some.inj (Except.ok.inj h)
          exact .inr ⟨contents, rfl⟩
        · cases h

theorem RowStep.clientRow_of_ne {id k : ρ} (hk : k ≠ id) {u : CVRQueryDrivenUpdater ρ} {s s' : RowState ρ}
    {update : RowUpdate κ} {patch : Option (PatchToVersion ρ κ)} (h : RowStep u id s update s' patch)
    (since : CVRVersion) (row : Option κ) : clientRow since k row patch.toList = row := by
  cases h with
  | @mk m v sent _ _ hsent =>
  cases sent with
  | none => rfl
  | some sent =>
    simp only [Option.map_some, Option.toList_some, clientRow, List.foldl_cons, List.foldl_nil]
    rcases rowPatch_about hsent with hp | ⟨c, hp⟩ <;> simp [hp, Patch.applyTo, hk.symm]

theorem SameBase.rowStep {u u' : CVRQueryDrivenUpdater ρ} (hu : SameBase u u') {id : ρ} {s s' : RowState ρ}
    {update : RowUpdate κ} {patch : Option (PatchToVersion ρ κ)} (h : RowStep u' id s update s' patch) :
    RowStep u id s update s' patch := by
  cases h with
  | mk hm hv hsent =>
  have hver : ∀ existing v, u'.patchVersionOf existing v = u.patchVersionOf existing v := fun existing v => by
    simp only [patchVersionOf, hu.cvr]
  rw [hu.removedOrExecutedQueryIDs, hu.rowRecords] at hm
  rw [hver, hu.rowRecords] at hv
  rw [hu.rowRecords] at hsent ⊢
  exact .mk hm hv hsent

/-- The updates of a row, one after the other. -/
inductive RowRun (u : CVRQueryDrivenUpdater ρ) (id : ρ) :
    RowState ρ → List (RowUpdate κ) → RowState ρ → List (PatchToVersion ρ κ) → Prop
  | nil {s} : RowRun u id s [] s []
  | cons {s update s' patch updates s'' patches} : RowStep u id s update s' patch →
      RowRun u id s' updates s'' patches → RowRun u id s (update :: updates) s'' (patch.toList ++ patches)

/-- `u'` and `patches` are what the updater and the patches come to when each
row gets its own updates. -/
def RowsRun (u u' : CVRQueryDrivenUpdater ρ) (updates : ρ → List (RowUpdate κ)) (patches : List (PatchToVersion ρ κ)) :
    Prop :=
  SameBase u u' ∧ ∀ id, ∃ own, RowRun u id (u.rowState id) (updates id) (u'.rowState id) own ∧
    ∀ since row, clientRow since id row patches = clientRow since id row own

theorem SameBase.rowRun {u u' : CVRQueryDrivenUpdater ρ} (hu : SameBase u u') {id : ρ} {s s' : RowState ρ}
    {updates : List (RowUpdate κ)} {patches : List (PatchToVersion ρ κ)} (h : RowRun u' id s updates s' patches) :
    RowRun u id s updates s' patches := by
  induction h with
  | nil => exact .nil
  | cons hstep _ ih => exact .cons (hu.rowStep hstep) ih

theorem RowRun.append {u : CVRQueryDrivenUpdater ρ} {id : ρ} {s s' s'' : RowState ρ} {updates updates' : List (RowUpdate κ)}
    {patches patches' : List (PatchToVersion ρ κ)} (h : RowRun u id s updates s' patches)
    (h' : RowRun u id s' updates' s'' patches') : RowRun u id s (updates ++ updates') s'' (patches ++ patches') := by
  induction h with
  | nil => exact h'
  | cons hstep _ ih => rw [List.append_assoc]; exact .cons hstep (ih h')

theorem RowsRun.trans {u u' u'' : CVRQueryDrivenUpdater ρ} {updates updates' : ρ → List (RowUpdate κ)}
    {patches patches' : List (PatchToVersion ρ κ)} (h : RowsRun u u' updates patches)
    (h' : RowsRun u' u'' updates' patches') :
    RowsRun u u'' (fun id => updates id ++ updates' id) (patches ++ patches') := by
  refine ⟨h.1.trans h'.1, fun id => ?_⟩
  obtain ⟨own, hrun, hclient⟩ := h.2 id
  obtain ⟨own', hrun', hclient'⟩ := h'.2 id
  refine ⟨own ++ own', hrun.append (h.1.rowRun hrun'), fun since row => ?_⟩
  rw [clientRow_append, clientRow_append, hclient, hclient']

/-- **A batch**: every row it has an update for takes a step. -/
theorem received_ok {u : CVRQueryDrivenUpdater ρ} (hb : u.Bumped) {rows : List (ρ × RowUpdate κ)}
    (hnodup : (rows.map (·.1)).Nodup) (hv : ∀ e ∈ rows, Versioned e.2) : ∃ patches u',
      u.received rows = .ok (patches, u') ∧ RowsRun u u' (fun id => (OrderedMap.lookup id rows).toList) patches := by
  induction rows generalizing u with
  | nil => exact ⟨[], u, rfl, ⟨rfl, rfl, rfl, rfl, rfl⟩, fun id => ⟨[], .nil, fun _ _ => rfl⟩⟩
  | cons e rows ih =>
    obtain ⟨id, update⟩ := e
    rw [List.map_cons, List.nodup_cons] at hnodup
    obtain ⟨patch, s', u₁, hrow, hsame, hstep, hs', hothers⟩ := receivedRow_ok hb id (hv (id, update) (by simp))
    obtain ⟨patches, u', hrest, hrun⟩ := ih (hsame.bumped hb) hnodup.2 fun e he => hv e (by simp [he])
    refine ⟨patch.toList ++ patches, u', by simp [received, hrow, hrest, bind, Except.bind, pure, Except.pure], ?_⟩
    have hfirst : RowsRun u u₁ (fun k => if k = id then [update] else []) patch.toList := by
      refine ⟨hsame, fun k => ?_⟩
      by_cases hk : k = id
      · subst hk
        refine ⟨patch.toList ++ [], ?_, fun _ _ => by rw [List.append_nil]⟩
        simp only [if_true, hs']
        exact .cons hstep .nil
      · simp only [hk, if_false, hothers k hk]
        exact ⟨[], .nil, fun since row => hstep.clientRow_of_ne hk since row⟩
    have hupdates : ∀ k, (OrderedMap.lookup k ((id, update) :: rows)).toList =
        (if k = id then [update] else []) ++ (OrderedMap.lookup k rows).toList := fun k => by
      by_cases hk : k = id
      · subst hk
        have hnone : OrderedMap.lookup k rows = none := by
          by_contra hne
          obtain ⟨v, hv⟩ := Option.ne_none_iff_exists'.mp hne
          have hmem := (OrderedMap.mem_entries_iff ⟨rows, hnodup.2⟩ k v).mpr hv
          exact hnodup.1 (List.mem_map.mpr ⟨_, hmem, rfl⟩)
        simp [OrderedMap.lookup, hnone]
      · simp [OrderedMap.lookup, hk, Ne.symm hk]
    simp only [hupdates]
    exact hfirst.trans hrun

/-- `received` for each batch in turn. -/
def receivedBatches (u : CVRQueryDrivenUpdater ρ) :
    List (List (RowChange ρ κ)) → Except UpdaterError (List (PatchToVersion ρ κ) × CVRQueryDrivenUpdater ρ)
  | [] => .ok ([], u)
  | batch :: batches => do
    let (patches, u) ← u.received (batchRows batch).entries
    let (rest, u) ← receivedBatches u batches
    return (patches ++ rest, u)

/-- The updates of a row in a run of batches. -/
def updatesOf (batches : List (List (RowChange ρ κ))) (id : ρ) : List (RowUpdate κ) :=
  batches.filterMap fun batch => (batchRows batch).get? id

theorem versioned {batch : List (RowChange ρ κ)} {id : ρ} {update : RowUpdate κ} (h : Sums batch id update) :
    Versioned update := by
  intro hc
  rw [h.contents, Option.isSome_map] at hc
  obtain ⟨row, hrow⟩ := Option.isSome_iff_exists.mp hc
  exact ⟨row.version, by rw [h.version, hrow]; rfl, row.version_ne⟩

theorem sums_of_get? {batch : List (RowChange ρ κ)} {id : ρ} {update : RowUpdate κ}
    (h : (batchRows batch).get? id = some update) : Sums batch id update := by
  rcases get?_batchRows batch id with ⟨hnone, -⟩ | ⟨update', hsome, hsums⟩
  · rw [h] at hnone; cases hnone
  · rw [h] at hsome
    cases hsome
    exact hsums

/-- **A run of batches** does not fail, and each row runs through its own updates. -/
theorem receivedBatches_ok {u : CVRQueryDrivenUpdater ρ} (hb : u.Bumped) (batches : List (List (RowChange ρ κ))) :
    ∃ patches u', u.receivedBatches batches = .ok (patches, u') ∧ RowsRun u u' (updatesOf batches) patches := by
  induction batches generalizing u with
  | nil => exact ⟨[], u, rfl, ⟨rfl, rfl, rfl, rfl, rfl⟩, fun id => ⟨[], .nil, fun _ _ => rfl⟩⟩
  | cons batch batches ih =>
    obtain ⟨patches, u₁, hbatch, hrun⟩ := received_ok hb (batchRows batch).nodup fun e he =>
      versioned (sums_of_get? ((OrderedMap.mem_entries_iff _ e.1 e.2).mp he))
    obtain ⟨rest, u', hrest, hruns⟩ := ih (hrun.1.bumped hb)
    refine ⟨patches ++ rest, u', by simp [receivedBatches, hbatch, hrest, bind, Except.bind, pure, Except.pure], ?_⟩
    have hupdates : ∀ id, updatesOf (batch :: batches) id =
        (OrderedMap.lookup id (batchRows batch).entries).toList ++ updatesOf batches id := fun id => by
      rw [updatesOf, List.filterMap_cons, OrderedMap.get?]
      cases OrderedMap.lookup id (batchRows batch).entries <;> rfl
    have := hrun.trans hruns
    simp only [← hupdates] at this
    exact this

theorem batch_eq_nil {batch : List (RowChange ρ κ)} (h : (batchRows batch).entries.length = 0) : batch = [] := by
  refine List.eq_nil_iff_forall_not_mem.mpr fun c hc => ?_
  rcases get?_batchRows batch c.id with ⟨-, hne⟩ | ⟨update, hsome, -⟩
  · exact hne c hc rfl
  · rw [OrderedMap.get?, List.eq_nil_of_length_eq_zero h] at hsome
    cases hsome

/-- **`#processChanges` is a run of batches**, wherever its page size cuts them. -/
theorem processChanges_eq (pageSize : ℕ) (changes batch : List (RowChange ρ κ)) :
    ∃ batches, batches.flatten = batch ++ changes ∧ ∀ u : CVRQueryDrivenUpdater ρ,
      processChanges pageSize u (batchRows batch) changes = u.receivedBatches batches := by
  induction changes generalizing batch with
  | nil =>
    by_cases hempty : (batchRows batch).entries.length = 0
    · exact ⟨[], by simp [batch_eq_nil hempty], fun u => by simp [processChanges, hempty, receivedBatches]⟩
    · refine ⟨[batch], by simp, fun u => ?_⟩
      simp only [processChanges, hempty, if_false, receivedBatches]
      cases u.received (batchRows batch).entries <;> simp [bind, Except.bind, pure, Except.pure]
  | cons change changes ih =>
    by_cases hpage : (batchRows (batch ++ [change])).entries.length % pageSize = 0
    · obtain ⟨batches, hflat, heq⟩ := ih []
      refine ⟨(batch ++ [change]) :: batches, by simp [hflat], fun u => ?_⟩
      simp only [processChanges, ← batchRows_concat, hpage, if_true, receivedBatches]
      congr 1
      funext r
      rw [← heq]
      rfl
    · obtain ⟨batches, hflat, heq⟩ := ih (batch ++ [change])
      refine ⟨batches, by simp [hflat], fun u => ?_⟩
      simp only [processChanges, ← batchRows_concat, hpage, if_false, heq]

/-! ## Counts along a run -/

theorem RowRun.of_append {u : CVRQueryDrivenUpdater ρ} {id : ρ} {s s'' : RowState ρ} {updates updates' : List (RowUpdate κ)}
    {patches : List (PatchToVersion ρ κ)} (h : RowRun u id s (updates ++ updates') s'' patches) :
    ∃ s' own own', RowRun u id s updates s' own ∧ RowRun u id s' updates' s'' own' ∧ patches = own ++ own' := by
  induction updates generalizing s patches with
  | nil => exact ⟨s, [], patches, .nil, h, rfl⟩
  | cons update updates ih =>
    rw [List.cons_append] at h
    cases h with
    | cons hstep hrest =>
      obtain ⟨s', own, own', hown, hown', rfl⟩ := ih hrest
      exact ⟨s', _, own', .cons hstep hown, hown', by rw [List.append_assoc]⟩

/-- The count an updater starts a query of a row from: that of the CVR, but
none for a query executed or removed. -/
def keptCount (u : CVRQueryDrivenUpdater ρ) (id : ρ) (q : String) : ℤ :=
  if q ∈ u.removedOrExecutedQueryIDs then 0 else refCount ((u.rowRecords.get? id).bind (·.refCounts)) q

/-- No change removes more than was there. -/
def NeverOverRemoved (u : CVRQueryDrivenUpdater ρ) (changes : List (RowChange ρ κ)) : Prop :=
  ∀ before, before <+: changes → ∀ id q, 0 ≤ u.keptCount id q + net before id q

theorem updatesOf_concat (batches : List (List (RowChange ρ κ))) (batch : List (RowChange ρ κ)) (id : ρ) :
    updatesOf (batches ++ [batch]) id = updatesOf batches id ++ ((batchRows batch).get? id).toList := by
  rw [updatesOf, updatesOf, List.filterMap_append]
  cases h : (batchRows batch).get? id <;> simp [h]

theorem merged_count {removed : List String} {existing : Option (RowRecord ρ)} {received : Option (Option RefCounts)}
    {batch : List (RowChange ρ κ)} {id : ρ} {update : RowUpdate κ} (hsums : Sums batch id update) {base : String → ℤ}
    (hbase : ∀ q, base q = match received with
      | some m => refCount m q
      | none => if q ∈ removed then 0 else refCount (existing.bind (·.refCounts)) q)
    (h : ∀ q, 0 ≤ base q + net batch id q) :
    (∀ q, refCount (merged removed existing received update.refCounts) q = base q + net batch id q) ∧
      ((merged removed existing received update.refCounts).isSome ↔ ∃ q, 0 < base q + net batch id q) := by
  cases received with
  | some m =>
    have hsum : ∀ q, mergedCount m (some update.refCounts) [] q = base q + net batch id q := fun q => by
      rw [mergedCount, hsums.refCounts, hbase]
      simp
    simp only [merged, ← hsum] at h ⊢
    exact mergeRefCounts_spec _ _ _ h
  | none =>
    have hsum : ∀ q, mergedCount (existing.bind (·.refCounts)) (some update.refCounts) removed q =
        base q + net batch id q := fun q => by
      rw [mergedCount, hsums.refCounts, hbase]
    simp only [merged, ← hsum] at h ⊢
    exact mergeRefCounts_spec _ _ _ h

theorem RowRun.received {u : CVRQueryDrivenUpdater ρ} {id : ρ} {s : RowState ρ} {batches : List (List (RowChange ρ κ))}
    {own : List (PatchToVersion ρ κ)} (hnn : u.NeverOverRemoved batches.flatten)
    (h : RowRun u id {} (updatesOf batches id) s own) :
    (∀ c ∈ batches.flatten, c.id ≠ id) ∧ s = {} ∨
      ∃ m, s.received = some m ∧ (∀ q, refCount m q = u.keptCount id q + net batches.flatten id q) ∧
        (m.isSome ↔ ∃ q, 0 < u.keptCount id q + net batches.flatten id q) := by
  induction batches using List.reverseRecOn generalizing s own with
  | nil =>
    cases h
    exact .inl ⟨by simp, rfl⟩
  | append_singleton batches batch ih =>
    rw [updatesOf_concat] at h
    obtain ⟨s', own₁, own₂, h₁, h₂, rfl⟩ := h.of_append
    have hflat : (batches ++ [batch]).flatten = batches.flatten ++ batch := by simp
    rw [hflat] at hnn ⊢
    have ih := ih (fun before hb => hnn before (hb.trans (List.prefix_append ..))) h₁
    rcases get?_batchRows batch id with ⟨hnone, hne⟩ | ⟨update, hsome, hsums⟩
    · rw [hnone] at h₂
      cases h₂
      rcases ih with ⟨huntouched, rfl⟩ | ⟨m, hm, hcounts, hiff⟩
      · refine .inl ⟨fun c hc => ?_, rfl⟩
        rcases List.mem_append.mp hc with hc | hc
        · exact huntouched c hc
        · exact hne c hc
      · refine .inr ⟨m, hm, ?_, ?_⟩ <;> simpa only [net_append, net_eq_zero hne, add_zero]
    · rw [hsome] at h₂
      cases h₂ with
      | cons hstep hnil =>
      cases hnil
      cases hstep with
      | mk hm _ _ =>
      refine .inr ⟨_, rfl, ?_⟩
      have hnn' : ∀ q, 0 ≤ (u.keptCount id q + net batches.flatten id q) + net batch id q := fun q => by
        have := hnn _ (List.prefix_refl _) id q
        rwa [net_append, ← add_assoc] at this
      simp only [net_append, ← add_assoc]
      rw [hm]
      refine merged_count hsums (fun q => ?_) hnn'
      rcases ih with ⟨huntouched, rfl⟩ | ⟨m, hm, hcounts, -⟩
      · simp [net_eq_zero huntouched, keptCount]
      · simp [hm, hcounts]

end CVRQueryDrivenUpdater

end

end ZeroSync
