/-
`deleteUnreferencedRows`, row by row.

It goes through the rows that a query executed or removed had a reference to
when the queries were tracked (`lookupRows_spec`). One received since is left
alone; of any other the counts of those queries are dropped, and the row is
deleted at the clients if no count is left (`deleteLoop_ok`).
-/
import ZeroSync.CVRAdvancement

namespace ZeroSync

namespace CVRQueryDrivenUpdater

variable {ρ κ : Type} [DecidableEq ρ]

/-! ## Rows not received -/

/-- A row goes through `deleteUnreferencedRows`. -/
inductive DeleteStep (u : CVRQueryDrivenUpdater ρ) (r : RowRecord ρ) (s : RowState ρ) :
    RowState ρ → Option (PatchToVersion ρ κ) → Prop
  | received {m} : s.received = some (some m) → DeleteStep u r s s none
  | referenced {m} : s.received.join = none → mergeRefCounts r.refCounts none u.removedOrExecutedQueryIDs = some m →
      DeleteStep u r s { s with pending := some (some { r with refCounts := some m }) } none
  | deletedBefore : s.received.join = none → mergeRefCounts r.refCounts none u.removedOrExecutedQueryIDs = none →
      s.lastPatch.any (·.rowVersion.isNone) = true →
      DeleteStep u r s { s with pending := some (some { r with patchVersion := u.cvr.version, refCounts := none }) } none
  | deleted {toVersion} : s.received.join = none →
      mergeRefCounts r.refCounts none u.removedOrExecutedQueryIDs = none →
      s.lastPatch.any (·.rowVersion.isNone) = false →
      toVersion = maxVersion u.cvr.version (s.lastPatch.map (·.toVersion)) →
      DeleteStep u r s { s with
        pending := some (some { r with patchVersion := u.cvr.version, refCounts := none })
        lastPatch := some { rowVersion := none, toVersion } } (some { patch := .rowDel r.id, toVersion })

theorem deleteLoop_cons {u : CVRQueryDrivenUpdater ρ} (hb : u.Bumped) (r : RowRecord ρ) (rows : List (RowRecord ρ)) :
    ∃ (patch : Option (PatchToVersion ρ κ)) (s' : RowState ρ) (u₁ : CVRQueryDrivenUpdater ρ),
      SameBase u u₁ ∧ DeleteStep u r (u.rowState r.id) s' patch ∧ u₁.rowState r.id = s' ∧
      (∀ k, k ≠ r.id → u₁.rowState k = u.rowState k) ∧
      ∀ rest u', u₁.deleteUnreferencedRowsLoop rows = .ok (rest, u') →
        u.deleteUnreferencedRowsLoop (r :: rows) = .ok (patch.toList ++ rest, u') := by
  have hassert : u.assertNewVersion = .ok u.cvr.version := if_pos hb
  cases hreceived : (u.receivedRows.get? r.id).join with
  | some m =>
    have hreceived : u.receivedRows.get? r.id = some (some m) := Option.join_eq_some_iff.mp hreceived
    refine ⟨none, _, u, ⟨rfl, rfl, rfl, rfl, rfl⟩, .received hreceived, rfl, fun _ _ => rfl, fun rest u' h => ?_⟩
    simp [deleteUnreferencedRowsLoop, deleteUnreferencedRow, hreceived, bind, Except.bind, h]
  | none =>
    have hrow : u.deleteUnreferencedRow r = (do
        let newRefCounts := mergeRefCounts r.refCounts none u.removedOrExecutedQueryIDs
        let patchVersion ← if newRefCounts.isSome then pure r.patchVersion else u.assertNewVersion
        return (if newRefCounts.isSome then none else some r.id, { u with
          pendingRowRecordUpdates := u.pendingRowRecordUpdates.set r.id
            (some { r with patchVersion, refCounts := newRefCounts }) })) := by
      unfold deleteUnreferencedRow
      split
      · next m hm => rw [hm] at hreceived; cases hreceived
      · rfl
    cases hmerged : mergeRefCounts r.refCounts none u.removedOrExecutedQueryIDs with
    | some m =>
      refine ⟨none, _, { u with pendingRowRecordUpdates :=
        u.pendingRowRecordUpdates.set r.id (some { r with refCounts := some m }) }, ⟨rfl, rfl, rfl, rfl, rfl⟩,
        .referenced hreceived hmerged, ?_, fun k hk => ?_, fun rest u' h => ?_⟩
      · simp [rowState]
      · simp [rowState, OrderedMap.get?_set_of_ne _ _ hk.symm]
      · simpa [deleteUnreferencedRowsLoop, hrow, hmerged, bind, Except.bind, pure, Except.pure] using h
    | none =>
      cases hlast : (u.lastPatches.get? r.id).any (·.rowVersion.isNone) with
      | true =>
        refine ⟨none, _, { u with pendingRowRecordUpdates :=
          u.pendingRowRecordUpdates.set r.id (some { r with patchVersion := u.cvr.version, refCounts := none }) },
          ⟨rfl, rfl, rfl, rfl, rfl⟩, .deletedBefore hreceived hmerged hlast, ?_, fun k hk => ?_, fun rest u' h => ?_⟩
        · simp [rowState]
        · simp [rowState, OrderedMap.get?_set_of_ne _ _ hk.symm]
        · simpa [deleteUnreferencedRowsLoop, hrow, hmerged, hassert, hlast, bind, Except.bind, pure, Except.pure]
            using h
      | false =>
        refine ⟨some _, _, { u with
          pendingRowRecordUpdates :=
            u.pendingRowRecordUpdates.set r.id (some { r with patchVersion := u.cvr.version, refCounts := none })
          lastPatches := u.lastPatches.set r.id
            { rowVersion := none, toVersion := maxVersion u.cvr.version ((u.lastPatches.get? r.id).map (·.toVersion)) } },
          ⟨rfl, rfl, rfl, rfl, rfl⟩, .deleted hreceived hmerged hlast rfl, ?_, fun k hk => ?_, fun rest u' h => ?_⟩
        · simp [rowState]
        · simp [rowState, OrderedMap.get?_set_of_ne _ _ hk.symm]
        · simp [deleteUnreferencedRowsLoop, hrow, hmerged, hassert, hlast, bind, Except.bind, pure, Except.pure, h,
            rowState]

theorem DeleteStep.clientRow_of_ne {u : CVRQueryDrivenUpdater ρ} {r : RowRecord ρ} {s s' : RowState ρ}
    {patch : Option (PatchToVersion ρ κ)} (h : DeleteStep u r s s' patch) {k : ρ} (hk : k ≠ r.id)
    (since : CVRVersion) (row : Option κ) : clientRow since k row patch.toList = row := by
  cases h with
  | received _ => rfl
  | referenced _ _ => rfl
  | deletedBefore _ _ _ => rfl
  | deleted _ _ _ _ => simp [clientRow, Patch.applyTo, hk.symm]

theorem SameBase.deleteStep {u u' : CVRQueryDrivenUpdater ρ} (hu : SameBase u u') {r : RowRecord ρ}
    {s s' : RowState ρ} {patch : Option (PatchToVersion ρ κ)} (h : DeleteStep u' r s s' patch) :
    DeleteStep u r s s' patch := by
  cases h with
  | received hs => exact .received hs
  | referenced hs hm => exact .referenced hs (hu.removedOrExecutedQueryIDs ▸ hm)
  | deletedBefore hs hm hlast =>
    rw [hu.cvr]
    exact .deletedBefore hs (hu.removedOrExecutedQueryIDs ▸ hm) hlast
  | deleted hs hm hlast hv =>
    rw [hu.cvr] at hv ⊢
    exact .deleted hs (hu.removedOrExecutedQueryIDs ▸ hm) hlast hv

/-- **The rows not received**: each takes a step of its own. -/
theorem deleteLoop_ok {u : CVRQueryDrivenUpdater ρ} (hb : u.Bumped) {rows : List (RowRecord ρ)}
    (hnodup : (rows.map (·.id)).Nodup) : ∃ (patches : List (PatchToVersion ρ κ)) (u' : CVRQueryDrivenUpdater ρ),
      u.deleteUnreferencedRowsLoop rows = .ok (patches, u') ∧ SameBase u u' ∧
      (∀ r ∈ rows, ∃ patch, DeleteStep u r (u.rowState r.id) (u'.rowState r.id) patch ∧
        ∀ since row, clientRow since r.id row patches = clientRow since r.id row patch.toList) ∧
      ∀ id, (∀ r ∈ rows, r.id ≠ id) → u'.rowState id = u.rowState id ∧
        ∀ since row, clientRow since id row patches = row := by
  induction rows generalizing u with
  | nil => exact ⟨[], u, rfl, ⟨rfl, rfl, rfl, rfl, rfl⟩, by simp, fun id _ => ⟨rfl, fun _ _ => rfl⟩⟩
  | cons r rows ih =>
    rw [List.map_cons, List.nodup_cons] at hnodup
    obtain ⟨patch, s', u₁, hsame, hstep, rfl, hothers, hloop⟩ := deleteLoop_cons (κ := κ) hb r rows
    obtain ⟨patches, u', hrest, hsame', hrows, hunchanged⟩ := ih (hsame.bumped hb) hnodup.2
    have hne : ∀ r' ∈ rows, r'.id ≠ r.id := fun r' hr' heq => hnodup.1 (heq ▸ List.mem_map_of_mem hr')
    refine ⟨patch.toList ++ patches, u', hloop _ _ hrest, hsame.trans hsame', fun r' hr' => ?_, fun id hid => ?_⟩
    · rcases List.mem_cons.mp hr' with rfl | hr'
      · obtain ⟨hstate, hclient⟩ := hunchanged r'.id hne
        exact ⟨patch, hstate ▸ hstep, fun since row => by rw [clientRow_append, hclient]⟩
      · obtain ⟨patch', hstep', hclient⟩ := hrows r' hr'
        refine ⟨patch', ?_, fun since row => ?_⟩
        · rw [← hothers _ (hne r' hr')]
          exact hsame.deleteStep hstep'
        · rw [clientRow_append, hstep.clientRow_of_ne (hne r' hr'), hclient]
    · obtain ⟨hstate, hclient⟩ := hunchanged id fun r' hr' => hid r' (by simp [hr'])
      have hk : id ≠ r.id := fun heq => hid r (by simp) heq.symm
      refine ⟨hstate.trans (hothers id hk), fun since row => ?_⟩
      rw [clientRow_append, hstep.clientRow_of_ne hk, hclient]

/-! ## The rows looked up -/

/-- A row some query of a list has a reference to. -/
def ReferencedBy (ids : List String) (r : RowRecord ρ) : Prop :=
  ∃ m, r.refCounts = some m ∧ ∃ q ∈ ids, (m.get? q).isSome

/-- The rows `trackQueries` looks up are those of the CVR referenced by a query executed or removed. -/
theorem lookupRows_spec {u : CVRQueryDrivenUpdater ρ} {version : CVRVersion} (hexact : ExactRows u.rowRecords version)
    (hids : u.removedOrExecutedQueryIDs ≠ []) : ∃ rows, u.lookupRowsForExecutedAndRemovedQueries = .ok rows ∧
      (rows.map (·.id)).Nodup ∧
      ∀ r, r ∈ rows ↔ u.rowRecords.get? r.id = some r ∧ ReferencedBy u.removedOrExecutedQueryIDs r := by
  have hnull : u.rowRecords.values.any (·.refCounts.isNone) = false := by
    simp only [List.any_eq_false, OrderedMap.mem_values_iff, Option.isNone_iff_eq_none, forall_exists_index]
    rintro r id hr hnone
    obtain ⟨m, hm, -⟩ := hexact.refCounts id r hr
    rw [hm] at hnone
    cases hnone
  obtain ⟨found, hfound⟩ : ∃ found, found = u.rowRecords.values.filter fun existing =>
    existing.refCounts.any fun refCounts => refCounts.keys.any (· ∈ u.removedOrExecutedQueryIDs) := ⟨_, rfl⟩
  have hmem : ∀ r, r ∈ found ↔ u.rowRecords.get? r.id = some r ∧ ReferencedBy u.removedOrExecutedQueryIDs r := by
    intro r
    rw [hfound, List.mem_filter, OrderedMap.mem_values_iff]
    refine and_congr ?_ ?_
    · refine ⟨?_, fun hr => ⟨_, hr⟩⟩
      rintro ⟨id, hr⟩
      rwa [hexact.id id r hr]
    · cases hcounts : r.refCounts with
      | none => simp [ReferencedBy, hcounts]
      | some m =>
        simp only [Option.any_some, List.any_eq_true, OrderedMap.mem_keys_iff, decide_eq_true_eq, ReferencedBy,
          hcounts, Option.some.injEq, exists_eq_left']
        exact exists_congr fun q => and_comm
  have hentries : ∀ e : ρ × RowRecord ρ,
      e ∈ (OrderedMap.ofList (found.map fun r => (r.id, r))).entries ↔ e.2 ∈ found ∧ e.2.id = e.1 := fun e =>
    OrderedMap.mem_entries_ofList_key
      (fun r hr r' hr' heq => by
        have hr := ((hmem r).mp hr).1
        rw [heq, ((hmem r').mp hr').1] at hr
        exact (Option.some.inj hr).symm) e.1 e.2
  refine ⟨(OrderedMap.ofList (found.map fun r => (r.id, r))).values, ?_, ?_, fun r => ?_⟩
  · rw [lookupRowsForExecutedAndRemovedQueries, if_neg (by simpa using hids), hnull, hfound]
    rfl
  · have hkeys : (OrderedMap.ofList (found.map fun r => (r.id, r))).values.map (·.id) =
        (OrderedMap.ofList (found.map fun r => (r.id, r))).keys := by
      rw [OrderedMap.values, OrderedMap.keys, List.map_map]
      exact List.map_congr_left fun e he => ((hentries e).mp he).2
    rw [hkeys]
    exact OrderedMap.nodup _
  · rw [← hmem, OrderedMap.values, List.mem_map]
    constructor
    · rintro ⟨e, he, rfl⟩
      exact ((hentries e).mp he).1
    · exact fun hr => ⟨(r.id, r), (hentries _).mpr ⟨hr, rfl⟩, rfl⟩

end CVRQueryDrivenUpdater

end ZeroSync
