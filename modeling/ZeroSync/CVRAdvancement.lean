/-
The row records an advancement queues.

A row still referenced after an advancement should be queued with the version
of the newest contents received for it, and a patch version other than its old
one only if its version changed: `#deleteUnreferencedRow` says so of a row
that loses references ("we update the refCounts but not the patchVersion").
`received` does this exactly when the last batch that touches the row has
contents for it (`received_record_iff`). A batch with nothing but removes has
no version: the record falls back to the one in the CVR, and the patch version
moves although nothing changed.
-/
import ZeroSync.CVRTracking

namespace ZeroSync

/-- The row records of a CVR at a version: each under its own id, of a version
and patch version the CVR has reached, and referenced. -/
structure ExactRows {ρ : Type} [DecidableEq ρ] (rowRecords : OrderedMap ρ (RowRecord ρ)) (version : CVRVersion) :
    Prop where
  id : ∀ id r, rowRecords.get? id = some r → r.id = id
  rowVersion : ∀ id r, rowRecords.get? id = some r → r.rowVersion ≠ ""
  patchVersion : ∀ id r, rowRecords.get? id = some r → cmpVersions r.patchVersion version ≤ 0
  refCounts : ∀ id r, rowRecords.get? id = some r → ∃ m, r.refCounts = some m ∧ Positive m ∧ ∃ q, (m.get? q).isSome

namespace CVRQueryDrivenUpdater

variable {ρ κ : Type} [DecidableEq ρ]

/-- The last batch that touches a row. -/
def lastBatch (batches : List (List (RowChange ρ κ))) (id : ρ) : Option (List (RowChange ρ κ)) :=
  (batches.filter fun batch => batch.any fun c => c.id = id).getLast?

theorem RowRun.last {u : CVRQueryDrivenUpdater ρ} {id : ρ} {s : RowState ρ} {batches : List (List (RowChange ρ κ))}
    {own : List (PatchToVersion ρ κ)} (h : RowRun u id {} (updatesOf batches id) s own)
    (htouched : ∃ c ∈ batches.flatten, c.id = id) :
    ∃ batch update s' patch, lastBatch batches id = some batch ∧ Sums batch id update ∧
      RowStep u id s' update s patch ∧
      ∀ row, newest batch id = some row → newest batches.flatten id = some row := by
  induction batches using List.reverseRecOn generalizing s own with
  | nil => simp at htouched
  | append_singleton batches batch ih =>
    rw [updatesOf_concat] at h
    obtain ⟨s', own₁, own₂, h₁, h₂, rfl⟩ := h.of_append
    have hflat : (batches ++ [batch]).flatten = batches.flatten ++ batch := by simp
    rw [hflat] at htouched ⊢
    rcases get?_batchRows batch id with ⟨hnone, hne⟩ | ⟨update, hsome, hsums⟩
    · rw [hnone] at h₂
      cases h₂
      obtain ⟨c, hc, hid⟩ := htouched
      have hc : c ∈ batches.flatten := (List.mem_append.mp hc).resolve_right fun hc => hne c hc hid
      obtain ⟨last, update, s', patch, hlast, hsums, hstep, hnewest⟩ := ih h₁ ⟨c, hc, hid⟩
      refine ⟨last, update, s', patch, ?_, hsums, hstep, fun row hrow => ?_⟩
      · have hany : (batch.any fun c => c.id = id) = false := by simpa using hne
        simpa [lastBatch, hany] using hlast
      · rw [newest_append, newest_eq_none hne, Option.none_or, hnewest row hrow]
    · rw [hsome] at h₂
      cases h₂ with
      | cons hstep hnil =>
      cases hnil
      obtain ⟨c, hc, hid⟩ := hsums.touched
      refine ⟨batch, update, s', _, ?_, hsums, hstep, fun row hrow => ?_⟩
      · have hany : (batch.any fun c => c.id = id) = true := by simpa using ⟨c, hc, hid⟩
        simp [lastBatch, hany]
      · rw [newest_append, hrow, Option.some_or]

theorem newest_isSome_iff {changes : List (RowChange ρ κ)} {id : ρ} :
    (newest changes id).isSome ↔ ∃ c ∈ changes, c.id = id ∧ c.row?.isSome := by
  rw [newest, List.getLast?_isSome, ne_eq, List.filterMap_eq_nil_iff]
  simp only [ite_eq_right_iff, not_forall, Option.isSome_iff_ne_none, exists_prop]

/-- The row is still referenced after the changes. -/
def StillReferenced (rowRecords : OrderedMap ρ (RowRecord ρ)) (changes : List (RowChange ρ κ)) (id : ρ) : Prop :=
  ∃ q, 0 < refCount ((rowRecords.get? id).bind (·.refCounts)) q + net changes id q

/-- The record queued for a row has the version of the newest contents
received, or of the existing record when there are none, and another patch
version than the existing record only with another row version. -/
def RecordRight (rowRecords : OrderedMap ρ (RowRecord ρ)) (changes : List (RowChange ρ κ)) (id : ρ)
    (u : CVRQueryDrivenUpdater ρ) : Prop :=
  ∃ record, u.pendingRowRecordUpdates.get? id = some (some record) ∧
    some record.rowVersion =
      ((newest changes id).map (·.version)).or ((rowRecords.get? id).map (·.rowVersion)) ∧
    ∀ existing, rowRecords.get? id = some existing →
      record.patchVersion ≠ existing.patchVersion → record.rowVersion ≠ existing.rowVersion

/-- **The record queued for a row still referenced is right exactly when the
last batch that touches the row has contents for it.** -/
theorem received_record_iff {rowRecords : OrderedMap ρ (RowRecord ρ)} {cvr : CVRSnapshot}
    {stateVersion replicaVersion : String} {u : CVRQueryDrivenUpdater ρ}
    (hnew : new rowRecords cvr stateVersion replicaVersion = .ok u) (hsv : cvr.version.stateVersion < stateVersion)
    (hexact : ExactRows rowRecords cvr.version) (batches : List (List (RowChange ρ κ)))
    (hnn : u.NeverOverRemoved batches.flatten) :
    ∃ patches u', u.receivedBatches batches = .ok (patches, u') ∧
      ∀ id, (∃ c ∈ batches.flatten, c.id = id) → StillReferenced rowRecords batches.flatten id →
        (RecordRight rowRecords batches.flatten id u' ↔
          ∃ batch, lastBatch batches id = some batch ∧ ∃ c ∈ batch, c.id = id ∧ c.row?.isSome) := by
  obtain ⟨⟨horig, hrecords, -, hremoved, hfresh, -, -⟩, hb⟩ := new_spec hnew
  have hb := hb hsv
  obtain ⟨patches, u', hok, hsame, hrows⟩ := receivedBatches_ok hb batches
  refine ⟨patches, u', hok, fun id htouched href => ?_⟩
  obtain ⟨own, hrun, -⟩ := hrows id
  rw [hfresh] at hrun
  obtain ⟨batch, update, s', patch, hlast, hsums, hstep, hnewest⟩ := hrun.last htouched
  have hreceived := hrun.received hnn
  generalize hs : u'.rowState id = s at hstep hreceived
  cases hstep with
  | @mk m v sent hm hv hsent =>
  -- The row has references left, so the update does not make a tombstone of it.
  have hsome : m.isNone = false := by
    rcases hreceived with ⟨hne, -⟩ | ⟨m', hm', -, hiff⟩
    · obtain ⟨c, hc, hid⟩ := htouched
      exact absurd hid (hne c hc)
    · obtain rfl := Option.some.inj hm'
      obtain ⟨q, hq⟩ := href
      rw [Option.isNone_eq_false_iff, hiff]
      exact ⟨q, by simpa [keptCount, hremoved, hrecords] using hq⟩
  have hpending : u'.pendingRowRecordUpdates.get? id =
      some (rowRecord id (rowRecords.get? id) update.version v m) := by
    have h := congrArg RowState.pending hs
    rw [hrecords] at h
    exact h
  rw [hsome, if_neg Bool.false_ne_true, hrecords] at hv
  have hcondition : (∃ batch, lastBatch batches id = some batch ∧ ∃ c ∈ batch, c.id = id ∧ c.row?.isSome) ↔
      (newest batch id).isSome := by
    rw [newest_isSome_iff]
    constructor
    · rintro ⟨b, hb, h⟩
      obtain rfl := Option.some.inj (hlast.symm.trans hb)
      exact h
    · exact fun h => ⟨batch, hlast, h⟩
  rw [hcondition]
  cases hrow : newest batch id with
  | some row =>
    have hver : update.version = some row.version := by rw [hsums.version, hrow]; rfl
    rw [hver] at hpending hv
    refine iff_of_true ⟨{ id, rowVersion := row.version, patchVersion := v, refCounts := m }, ?_, ?_, ?_⟩ rfl
    · rw [hpending, rowRecord, Option.some_or]
      simp [row.version_ne]
    · rw [hnewest row hrow]
      rfl
    · rintro existing hexisting hne heq
      refine hne ?_
      rw [hv, hexisting]
      have heq : row.version = existing.rowVersion := heq
      simp [patchVersionOf, heq]
  | none =>
    have hver : update.version = none := by rw [hsums.version, hrow]; rfl
    rw [hver] at hpending hv
    refine iff_of_false ?_ (by simp)
    rintro ⟨record, hrecord, -, hpatch⟩
    rw [hpending, rowRecord, Option.none_or] at hrecord
    cases hexisting : rowRecords.get? id with
    | none => simp [hexisting] at hrecord
    | some existing =>
      have hne := hexact.rowVersion id existing hexisting
      simp only [hexisting, Option.map_some, hne, if_false, Option.some.injEq] at hrecord
      subst hrecord
      -- The patch version is the new one, above every patch version of the CVR.
      have hv : v = u.cvr.version := by rw [hv, hexisting]; simp [patchVersionOf]
      refine hpatch existing hexisting ?_ rfl
      rintro heq
      have hle := hexact.patchVersion id existing hexisting
      have hlt : cmpVersions cvr.version u.cvr.version < 0 := by rw [← horig]; exact hb
      rw [← heq, hv, cmpVersions_swap] at hle
      linarith

/-! ## An edit, then a remove by another query -/

/-- A row two queries reference. -/
def sharedRow : RowRecord String where
  id := "row"
  rowVersion := "01"
  patchVersion := { stateVersion := "01" }
  refCounts := some (OrderedMap.ofList [("q1", 1), ("q2", 1)])

def sharedRows : OrderedMap String (RowRecord String) := OrderedMap.ofList [("row", sharedRow)]

def sharedCVR : CVRSnapshot where
  version := { stateVersion := "01" }
  replicaVersion := none
  queries := ∅

/-- The updater that advances the CVR. -/
def advancing : CVRQueryDrivenUpdater String where
  orig := sharedCVR
  cvr := { sharedCVR with replicaVersion := some "01", version := { stateVersion := "02" } }
  rowRecords := sharedRows

def editOfQ1 : RowChange String String := .edit "q1" "row" ⟨"02", "edited", by decide⟩

def removeOfQ2 : RowChange String String := .remove "q2" "row"

theorem new_advancing : new sharedRows sharedCVR "02" "01" = .ok advancing := by rfl

theorem get?_sharedRows (id : String) : sharedRows.get? id = if "row" = id then some sharedRow else none := by
  rw [sharedRows, OrderedMap.ofList, List.foldl_cons, List.foldl_nil, OrderedMap.get?_set]
  rfl

theorem sharedRow_count (q : String) :
    refCount sharedRow.refCounts q = if "q2" = q then 1 else if "q1" = q then 1 else 0 := by
  simp only [sharedRow, OrderedMap.ofList, List.foldl_cons, List.foldl_nil, refCount_some, OrderedMap.get?_set]
  split
  · rfl
  · split <;> rfl

theorem exactRows_shared : ExactRows sharedRows sharedCVR.version := by
  have h : ∀ id r, sharedRows.get? id = some r → "row" = id ∧ r = sharedRow := fun id r hr => by
    rw [get?_sharedRows] at hr
    split at hr
    · next hid => exact ⟨hid, (Option.some.inj hr).symm⟩
    · cases hr
  refine ⟨?_, ?_, ?_, ?_⟩
  · rintro id r hr; obtain ⟨rfl, rfl⟩ := h id r hr; rfl
  · rintro id r hr; obtain ⟨rfl, rfl⟩ := h id r hr; decide
  · rintro id r hr; obtain ⟨rfl, rfl⟩ := h id r hr; simp [cmpVersions, sharedRow, sharedCVR]
  · rintro id r hr
    obtain ⟨rfl, rfl⟩ := h id r hr
    refine ⟨_, rfl, fun q c hq => ?_, "q1", by decide⟩
    have hmem := (OrderedMap.mem_entries_iff ..).mpr hq
    have hentries : (OrderedMap.ofList [("q1", (1 : ℤ)), ("q2", 1)]).entries = [("q1", 1), ("q2", 1)] := by decide
    simp only [hentries, List.mem_cons, Prod.mk.injEq, List.not_mem_nil, or_false] at hmem
    omega

theorem neverOverRemoved_shared : advancing.NeverOverRemoved [editOfQ1, removeOfQ2] := by
  have hkept : ∀ id q, advancing.keptCount id q =
      if "row" = id then refCount sharedRow.refCounts q else 0 := fun id q => by
    simp only [keptCount, advancing, List.not_mem_nil, if_false, get?_sharedRows]
    split <;> rfl
  intro before hbefore id q
  rw [hkept, sharedRow_count]
  simp only [List.prefix_cons_iff, List.prefix_nil] at hbefore
  rcases hbefore with rfl | ⟨_, rfl, rfl | ⟨_, rfl, rfl⟩⟩
  · simp only [net, List.map_nil, List.sum_nil]
    split_ifs <;> omega
  · simp only [net, editOfQ1, RowChange.count, List.map_cons, List.map_nil, List.sum_cons, List.sum_nil]
    split_ifs <;> omega
  · simp only [net, editOfQ1, removeOfQ2, RowChange.id, RowChange.queryID, RowChange.count, List.map_cons,
      List.map_nil, List.sum_cons, List.sum_nil]
    split_ifs <;> simp_all

/-- **A stale record.** `q1` reports the row's edit to version `02`, then in a
later batch `q2` drops the row. The row is still referenced by `q1`, and the
record queued has version `01` with a new patch version. -/
theorem received_record_stale : ∃ patches u', advancing.receivedBatches [[editOfQ1], [removeOfQ2]] = .ok (patches, u') ∧
    StillReferenced sharedRows [editOfQ1, removeOfQ2] "row" ∧
    ((newest [editOfQ1, removeOfQ2] "row").map (·.version)) = some "02" ∧
    (∃ record, u'.pendingRowRecordUpdates.get? "row" = some (some record) ∧
      record.rowVersion = "01" ∧ record.patchVersion.stateVersion = "02") ∧
    ¬ RecordRight sharedRows [editOfQ1, removeOfQ2] "row" u' := by
  refine ⟨_, _, rfl, ⟨"q1", by decide⟩, by decide, ⟨_, rfl, rfl, rfl⟩, ?_⟩
  rintro ⟨record, hrecord, hversion, -⟩
  obtain rfl := Option.some.inj (Option.some.inj hrecord)
  exact absurd hversion (by decide)

/-- The edit alone: its batch has contents, so the record is right. -/
theorem received_record_iff_edit : ∃ patches u', advancing.receivedBatches [[editOfQ1]] = .ok (patches, u') ∧
    RecordRight sharedRows [editOfQ1] "row" u' := by
  have hnn : advancing.NeverOverRemoved [editOfQ1] := fun before hbefore =>
    neverOverRemoved_shared before (hbefore.trans (List.prefix_append [editOfQ1] [removeOfQ2]))
  obtain ⟨patches, u', hok, hiff⟩ :=
    received_record_iff new_advancing (by decide) exactRows_shared [[editOfQ1]] hnn
  refine ⟨patches, u', hok, (hiff "row" ⟨editOfQ1, by simp, rfl⟩ ⟨"q1", by decide⟩).mpr ?_⟩
  exact ⟨[editOfQ1], rfl, editOfQ1, by simp, rfl, rfl⟩

/-! ## Pages -/

end CVRQueryDrivenUpdater

end ZeroSync
