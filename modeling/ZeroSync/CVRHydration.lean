/-
The rows a hydration leaves in the CVR and at the clients.

`#addAndRemoveQueries` tracks the queries, receives the rows of the executed
ones in batches, and reconciles the rows not received. Whatever the batches,
each row then has its old count for the queries neither executed nor removed,
the hydrated count for the executed ones and none for the removed ones; and a
client that had the rows of the original version, given the patches, has
exactly the rows still referenced (`hydration_exact`).
-/
import ZeroSync.CVRUnreferenced

namespace ZeroSync

namespace CVRQueryDrivenUpdater

variable {ρ κ : Type} [DecidableEq ρ]

/-! ## Hydrated rows -/

/-- The changes of a hydration: rows the executed queries add. The rows of an
id are never older than those before, and each has the contents of its version. -/
structure Hydrates (contentsOf : ρ → String → κ) (executed : List String) (changes : List (RowChange ρ κ)) : Prop where
  add : ∀ c ∈ changes, ∃ q id row, c = .add q id row ∧ q ∈ executed ∧ row.contents = contentsOf id row.version
  newer : changes.Pairwise fun c d => c.id = d.id → ∀ row row', c.row? = some row → d.row? = some row' →
    row.version ≤ row'.version

/-- The rows a client has at the version of the row records. -/
def clientRows (rowRecords : OrderedMap ρ (RowRecord ρ)) (contentsOf : ρ → String → κ) (id : ρ) : Option κ :=
  (rowRecords.get? id).map fun r => contentsOf id r.rowVersion

/-- A row after batches with contents for it, `row` the newest. -/
structure Hydrated (u : CVRQueryDrivenUpdater ρ) (id : ρ) (s : RowState ρ) (client : Option κ) (row : VersionedRow κ) :
    Prop where
  pending : ∃ m, s.received = some (some m) ∧ s.pending = some (some
    { id, rowVersion := row.version, patchVersion := u.patchVersionOf (u.rowRecords.get? id) (some row.version),
      refCounts := some m })
  lastPatch : ∃ toVersion, s.lastPatch = some { rowVersion := some row.version, toVersion } ∧
    (u.orig.version.key < toVersion.key ∨ (u.rowRecords.get? id).map (·.rowVersion) = some row.version)
  client : client = some row.contents

theorem lt_patchVersionOf {u : CVRQueryDrivenUpdater ρ} (hb : u.Bumped) (existing : Option (RowRecord ρ))
    (rowVersion : String) : u.orig.version.key < (u.patchVersionOf existing (some rowVersion)).key ∨
      existing.map (·.rowVersion) = some rowVersion := by
  cases existing with
  | none => exact .inl (bumped_iff.mp hb)
  | some existing =>
    by_cases h : existing.rowVersion = rowVersion
    · exact .inr (by simp [h])
    · exact .inl (by simpa [patchVersionOf, h] using bumped_iff.mp hb)

/-- **One batch with contents for a row**: its patch is sent unless the client has that version. -/
theorem RowStep.hydrated {u : CVRQueryDrivenUpdater ρ} (hb : u.Bumped) {contentsOf : ρ → String → κ} {id : ρ}
    {s s' : RowState ρ} {update : RowUpdate κ} {patch : Option (PatchToVersion ρ κ)}
    (hstep : RowStep u id s update s' patch) {row : VersionedRow κ} (hversion : update.version = some row.version)
    (hcontents : update.contents = some row.contents) (hrow : row.contents = contentsOf id row.version)
    (hreceived : ∃ m, s'.received = some (some m)) {client : Option κ}
    (hs : (s.lastPatch = none ∧ client = clientRows u.rowRecords contentsOf id) ∨
      ∃ prev : VersionedRow κ, Hydrated u id s client prev ∧ prev.version ≤ row.version ∧
        prev.contents = contentsOf id prev.version) :
    Hydrated u id s' (clientRow u.orig.version id client patch.toList) row := by
  cases hstep with
  | @mk merged v sent hm hv hsent =>
  obtain ⟨m, hmerged⟩ := hreceived
  obtain rfl : merged = some m := Option.some.inj hmerged
  rw [Option.isNone_some, if_neg Bool.false_ne_true, hversion] at hv
  have hrecord : rowRecord id (u.rowRecords.get? id) update.version v (some m) =
      some { id, rowVersion := row.version, patchVersion := v, refCounts := some m } := by
    simp [rowRecord, hversion, row.version_ne]
  rw [hrecord, hcontents] at hsent
  rw [hrecord]
  obtain ⟨toVersion, ht⟩ : ∃ t, t = maxVersion v (s.lastPatch.map (·.toVersion)) := ⟨_, rfl⟩
  obtain ⟨hle, hlast⟩ := le_maxVersion v (s.lastPatch.map (·.toVersion))
  rw [← ht] at hle hlast
  have hnewer : u.orig.version.key < toVersion.key ∨ (u.rowRecords.get? id).map (·.rowVersion) = some row.version :=
    (lt_patchVersionOf hb (u.rowRecords.get? id) row.version).imp_left fun h => (hv ▸ h).trans_le hle
  simp only [rowPatch, ← ht] at hsent
  split at hsent
  · next hcond =>
    obtain rfl := Except.ok.inj hsent
    refine ⟨⟨m, rfl, by rw [hv]⟩, ⟨toVersion, rfl, hnewer⟩, ?_⟩
    simp only [Option.map_some, Option.toList_some, clientRow, List.foldl_cons, List.foldl_nil]
    split
    · -- The client has passed the patch: the row has the version it had there.
      next hskip =>
      have hskip := cmpVersions_nonpos_iff.mp hskip
      have hsame := hnewer.resolve_left hskip.not_gt
      rcases hs with ⟨-, rfl⟩ | ⟨prev, ⟨-, ⟨tv, hprev, hprevNewer⟩, rfl⟩, -, -⟩
      · obtain ⟨existing, hexisting, hver⟩ := Option.map_eq_some_iff.mp hsame
        rw [clientRows, hexisting, Option.map_some, hver, hrow]
      · have htv := (hlast tv (by rw [hprev]; rfl)).trans hskip
        have hversions := Option.some.inj ((hprevNewer.resolve_left htv.not_gt).symm.trans hsame)
        simp [hprev, hversions, row.version_ne] at hcond
    · simp [Patch.applyTo]
  · next hcond =>
    obtain rfl := Except.ok.inj hsent
    rcases hs with ⟨hnone, -⟩ | ⟨prev, ⟨-, ⟨tv, hprev, hprevNewer⟩, rfl⟩, hle, hprevContents⟩
    · simp [hnone] at hcond
    · simp only [hprev, Option.bind_some, Option.getD_some, prev.version_ne, false_or, not_lt] at hcond
      have hversions := le_antisymm hle hcond
      refine ⟨⟨m, rfl, by rw [hv]⟩, ⟨tv, by simp [hprev, hversions], hversions ▸ hprevNewer⟩, ?_⟩
      simp only [Option.map_none, Option.toList_none, clientRow, List.foldl_nil]
      rw [hprevContents, hrow, hversions]

theorem newest_mem {changes : List (RowChange ρ κ)} {id : ρ} {row : VersionedRow κ} (h : newest changes id = some row) :
    ∃ c ∈ changes, c.id = id ∧ c.row? = some row := by
  obtain ⟨c, hc, hrow⟩ := List.mem_filterMap.mp (List.mem_of_getLast? h)
  split at hrow
  · next hid => exact ⟨c, hc, hid, hrow⟩
  · cases hrow

omit [DecidableEq ρ] in
theorem Hydrates.of_append {contentsOf : ρ → String → κ} {executed : List String} {l l' : List (RowChange ρ κ)}
    (h : Hydrates contentsOf executed (l ++ l')) : Hydrates contentsOf executed l :=
  ⟨fun c hc => h.add c (by simp [hc]), (List.pairwise_append.mp h.newer).1⟩

theorem Hydrates.contents {contentsOf : ρ → String → κ} {executed : List String} {changes : List (RowChange ρ κ)}
    (h : Hydrates contentsOf executed changes) {id : ρ} {row : VersionedRow κ} (hrow : newest changes id = some row) :
    row.contents = contentsOf id row.version := by
  obtain ⟨c, hc, hid, hrow⟩ := newest_mem hrow
  obtain ⟨q, id, row', rfl, -, hcontents⟩ := h.add c hc
  obtain rfl := Option.some.inj hrow
  rwa [← hid]

theorem Hydrates.exists_newest {contentsOf : ρ → String → κ} {executed : List String} {changes : List (RowChange ρ κ)}
    (h : Hydrates contentsOf executed changes) {id : ρ} (htouched : ∃ c ∈ changes, c.id = id) :
    ∃ row, newest changes id = some row := by
  obtain ⟨c, hc, hid⟩ := htouched
  refine Option.isSome_iff_exists.mp (newest_isSome_iff.mpr ⟨c, hc, hid, ?_⟩)
  obtain ⟨q, id, row, rfl, -⟩ := h.add c hc
  rfl

/-! ## Counts -/

/-- The count a hydration should leave a query of a row. -/
def countAfter (rowRecords : OrderedMap ρ (RowRecord ρ)) (executed removed : List String)
    (changes : List (RowChange ρ κ)) (id : ρ) (q : String) : ℤ :=
  if q ∈ executed then changes.countP fun c => c.id = id ∧ c.queryID = q
  else if q ∈ removed then 0
  else refCount ((rowRecords.get? id).bind (·.refCounts)) q

theorem net_eq_countP {changes : List (RowChange ρ κ)} (h : ∀ c ∈ changes, c.count = 1) (id : ρ) (q : String) :
    net changes id q = changes.countP fun c => c.id = id ∧ c.queryID = q := by
  induction changes with
  | nil => rfl
  | cons c changes ih =>
    have ih := ih fun c hc => h c (by simp [hc])
    simp only [net, List.map_cons, List.sum_cons, List.countP_cons, h c (by simp)] at ih ⊢
    rw [ih]
    by_cases hc : c.id = id ∧ c.queryID = q
    · simp [hc, add_comm]
    · simp [hc]

omit [DecidableEq ρ] in
theorem Hydrates.count {contentsOf : ρ → String → κ} {executed : List String} {changes : List (RowChange ρ κ)}
    (h : Hydrates contentsOf executed changes) : ∀ c ∈ changes, c.count = 1 := fun c hc => by
  obtain ⟨q, id, row, rfl, -⟩ := h.add c hc
  rfl

theorem Tracking.keptCount_add_net {rowRecords : OrderedMap ρ (RowRecord ρ)} {cvr : CVRSnapshot}
    {executed removed : List String} {u : CVRQueryDrivenUpdater ρ} (ht : Tracking rowRecords cvr executed removed u)
    {contentsOf : ρ → String → κ} {changes : List (RowChange ρ κ)} (h : Hydrates contentsOf executed changes)
    (id : ρ) (q : String) :
    u.keptCount id q + net changes id q = countAfter rowRecords executed removed changes id q := by
  rw [keptCount, ht.removedOrExecutedQueryIDs, ht.rowRecords, net_eq_countP h.count, countAfter]
  by_cases hexecuted : q ∈ executed
  · simp [hexecuted]
  · have hzero : (changes.countP fun c => c.id = id ∧ c.queryID = q) = 0 := by
      refine List.countP_eq_zero.mpr fun c hc => ?_
      obtain ⟨q', id, row, rfl, hq', -⟩ := h.add c hc
      intro hcount
      obtain ⟨-, rfl⟩ := of_decide_eq_true hcount
      exact hexecuted hq'
    rw [hzero]
    simp [hexecuted]

theorem Positive.refCount_nonneg {refCounts : Option RefCounts} (h : ∀ m, refCounts = some m → Positive m) (q : String) :
    0 ≤ refCount refCounts q := by
  cases refCounts with
  | none => exact le_rfl
  | some m =>
    rw [refCount_some]
    cases hq : m.get? q with
    | none => exact le_rfl
    | some c => exact (h m rfl q c hq).le

theorem existing_positive {rowRecords : OrderedMap ρ (RowRecord ρ)} {version : CVRVersion}
    (h : ExactRows rowRecords version) {id : ρ} :
    ∀ m, (rowRecords.get? id).bind (·.refCounts) = some m → Positive m := by
  intro m hm
  obtain ⟨r, hr, hm⟩ := Option.bind_eq_some_iff.mp hm
  obtain ⟨m', hm', hpos, -⟩ := h.refCounts id r hr
  obtain rfl := Option.some.inj (hm.symm.trans hm')
  exact hpos

theorem countAfter_nonneg {rowRecords : OrderedMap ρ (RowRecord ρ)} {version : CVRVersion}
    (h : ExactRows rowRecords version) (executed removed : List String) (changes : List (RowChange ρ κ)) (id : ρ)
    (q : String) : 0 ≤ countAfter rowRecords executed removed changes id q := by
  rw [countAfter]
  split
  · positivity
  split
  · exact le_rfl
  · exact Positive.refCount_nonneg (existing_positive h) q

theorem Tracking.neverOverRemoved {rowRecords : OrderedMap ρ (RowRecord ρ)} {cvr : CVRSnapshot}
    {executed removed : List String} {u : CVRQueryDrivenUpdater ρ} (ht : Tracking rowRecords cvr executed removed u)
    (hexact : ExactRows rowRecords cvr.version) {contentsOf : ρ → String → κ} {changes : List (RowChange ρ κ)}
    (h : Hydrates contentsOf executed changes) : u.NeverOverRemoved changes := by
  rintro before ⟨rest, rfl⟩ id q
  rw [ht.keptCount_add_net h.of_append]
  exact countAfter_nonneg hexact ..

/-! ## A run over one row -/

theorem RowRun.positive {u : CVRQueryDrivenUpdater ρ} {version : CVRVersion} (hexact : ExactRows u.rowRecords version)
    {id : ρ} {s s' : RowState ρ} {updates : List (RowUpdate κ)} {own : List (PatchToVersion ρ κ)}
    (h : RowRun u id s updates s' own) (hpos : ∀ update ∈ updates, Positive update.refCounts)
    (hs : ∀ m, s.received = some (some m) → Positive m) : ∀ m, s'.received = some (some m) → Positive m := by
  induction h with
  | nil => exact hs
  | @cons s update s₁ patch updates s' own hstep _ ih =>
    refine ih (fun update hu => hpos update (by simp [hu])) fun m hm => ?_
    have hupdate : ∀ m, some update.refCounts = some m → Positive m := fun m hm =>
      Option.some.inj hm ▸ hpos update (by simp)
    cases hstep with
    | @mk merged _ _ hmerged _ _ =>
    obtain rfl : merged = some m := Option.some.inj hm
    unfold ZeroSync.CVRQueryDrivenUpdater.merged at hmerged
    have hnonneg : ∀ (existing : Option RefCounts) (removed : List String) (q : String),
        (∀ m, existing = some m → Positive m) → 0 ≤ mergedCount existing (some update.refCounts) removed q := by
      intro existing removed q hpos
      have h₁ := Positive.refCount_nonneg hpos q
      have h₂ := Positive.refCount_nonneg hupdate q
      unfold mergedCount
      split <;> omega
    cases hreceived : s.received with
    | some previous =>
      rw [hreceived] at hmerged hs
      exact mergeRefCounts_positive _ _ _ (fun q => hnonneg _ _ q fun m hm => hs m (by rw [hm])) (fun _ => hupdate)
        hmerged.symm
    | none =>
      rw [hreceived] at hmerged
      exact mergeRefCounts_positive _ _ _ (fun q => hnonneg _ _ q (existing_positive hexact)) (fun _ => hupdate) hmerged.symm

/-- **A run over one row**: untouched, or as its newest contents leave it. -/
theorem RowRun.hydrated {u : CVRQueryDrivenUpdater ρ} (hb : u.Bumped) {contentsOf : ρ → String → κ}
    {executed : List String} {id : ρ} {s : RowState ρ} {batches : List (List (RowChange ρ κ))}
    {own : List (PatchToVersion ρ κ)} (hh : Hydrates contentsOf executed batches.flatten)
    (hnn : u.NeverOverRemoved batches.flatten) (h : RowRun u id {} (updatesOf batches id) s own) :
    (∀ c ∈ batches.flatten, c.id ≠ id) ∧ s = {} ∧ own = [] ∨
      ∃ row, newest batches.flatten id = some row ∧
        Hydrated u id s (clientRow u.orig.version id (clientRows u.rowRecords contentsOf id) own) row := by
  have hreceived := h.received hnn
  induction batches using List.reverseRecOn generalizing s own with
  | nil =>
    cases h
    exact .inl ⟨by simp, rfl, rfl⟩
  | append_singleton batches batch ih =>
    rw [updatesOf_concat] at h
    obtain ⟨s', own₁, own₂, h₁, h₂, rfl⟩ := h.of_append
    have hflat : (batches ++ [batch]).flatten = batches.flatten ++ batch := by simp
    rw [hflat] at hh hnn hreceived ⊢
    have hnn' : u.NeverOverRemoved batches.flatten := fun before hb => hnn before (hb.trans (List.prefix_append ..))
    have ih := ih hh.of_append hnn' h₁ (h₁.received hnn')
    rcases get?_batchRows batch id with ⟨hnone, hne⟩ | ⟨update, hsome, hsums⟩
    · rw [hnone] at h₂
      cases h₂
      rw [newest_append, newest_eq_none hne, Option.none_or, List.append_nil]
      refine ih.imp_left fun ⟨huntouched, hs⟩ => ⟨fun c hc => ?_, hs⟩
      exact (List.mem_append.mp hc).elim (huntouched c) (hne c)
    · rw [hsome] at h₂
      cases h₂ with
      | cons hstep hnil =>
      cases hnil
      obtain ⟨c, hc, hid⟩ := hsums.touched
      have hlater := List.pairwise_append.mp hh.newer
      obtain ⟨row, hrow⟩ : ∃ row, newest batch id = some row :=
        Hydrates.exists_newest ⟨fun c hc => hh.add c (by simp [hc]), hlater.2.1⟩ ⟨c, hc, hid⟩
      have hwhole : newest (batches.flatten ++ batch) id = some row := by rw [newest_append, hrow, Option.some_or]
      -- The query that touched the row keeps a count of it.
      have hsome : ∃ m, s.received = some (some m) := by
        rcases hreceived with ⟨huntouched, -⟩ | ⟨m, hm, -, hiff⟩
        · exact absurd hid (huntouched c (by simp [hc]))
        · have hkept := hnn [] List.nil_prefix id c.queryID
          have hpos : 0 < (batches.flatten ++ batch).countP fun d => d.id = id ∧ d.queryID = c.queryID :=
            List.countP_pos_iff.mpr ⟨c, by simp [hc], by simp [hid]⟩
          obtain ⟨m, rfl⟩ := Option.isSome_iff_exists.mp (hiff.mpr ⟨c.queryID, by
            rw [net_eq_countP hh.count]
            simp only [net, List.map_nil, List.sum_nil, add_zero] at hkept
            omega⟩)
          exact ⟨m, hm⟩
      refine .inr ⟨row, hwhole, ?_⟩
      rw [List.append_nil, clientRow_append]
      refine hstep.hydrated hb (by rw [hsums.version, hrow]; rfl) (by rw [hsums.contents, hrow]; rfl)
        (hh.contents hwhole) hsome ?_
      rcases ih with ⟨-, rfl, rfl⟩ | ⟨prev, hprev, hhydrated⟩
      · exact .inl ⟨rfl, rfl⟩
      · obtain ⟨d, hd, hdid, hdrow⟩ := newest_mem hprev
        obtain ⟨e, he, heid, herow⟩ := newest_mem hrow
        exact .inr ⟨prev, hhydrated, hlater.2.2 d hd e he (hdid.trans heid.symm) prev row hdrow herow,
          hh.of_append.contents hprev⟩

/-! ## The whole hydration -/

/-- A row the hydration is about: received, or referenced by a query executed or removed. -/
def Affected (rowRecords : OrderedMap ρ (RowRecord ρ)) (ids : List String) (changes : List (RowChange ρ κ)) (id : ρ) :
    Prop :=
  (∃ c ∈ changes, c.id = id) ∨ ∃ r, rowRecords.get? id = some r ∧ ReferencedBy ids r

/-- What a record says: the order of its counts says nothing. -/
def view (r : RowRecord ρ) : ρ × String × CVRVersion × Option (String → Option ℤ) :=
  (r.id, r.rowVersion, r.patchVersion, r.refCounts.map fun m => m.get?)

/-- The record a hydration should queue for a row. -/
structure RecordOf (u : CVRQueryDrivenUpdater ρ) (executed removed : List String) (changes : List (RowChange ρ κ))
    (id : ρ) (record : RowRecord ρ) : Prop where
  sameID : record.id = id
  rowVersion : some record.rowVersion =
    ((newest changes id).map (·.version)).or ((u.rowRecords.get? id).map (·.rowVersion))
  counts : ∀ q, record.refCounts.bind (·.get? q) =
    let count := countAfter u.rowRecords executed removed changes id q
    if 0 < count then some count else none
  tombstone : record.refCounts = none ↔ ∀ q, countAfter u.rowRecords executed removed changes id q = 0
  patchVersion : record.patchVersion =
    if record.refCounts.isSome then u.patchVersionOf (u.rowRecords.get? id) (some record.rowVersion)
    else u.cvr.version

theorem bind_get?_eq {refCounts : Option RefCounts} (hpos : ∀ m, refCounts = some m → Positive m) (q : String) :
    refCounts.bind (·.get? q) = if 0 < refCount refCounts q then some (refCount refCounts q) else none := by
  cases refCounts with
  | none => rfl
  | some m =>
    rw [refCount_some, Option.bind_some]
    cases hq : m.get? q with
    | none => rfl
    | some c => simp [hpos m rfl q c hq]

theorem eq_none_iff {refCounts : Option RefCounts} {count : String → ℤ} (hnonneg : ∀ q, 0 ≤ count q)
    (h : refCounts.isSome ↔ ∃ q, 0 < count q) : refCounts = none ↔ ∀ q, count q = 0 := by
  rw [← Option.not_isSome_iff_eq_none, h, not_exists]
  exact forall_congr' fun q => ⟨fun hq => le_antisymm (not_lt.mp hq) (hnonneg q), fun hq => by omega⟩

/-- The record of a row once the pending ones are flushed. -/
def recordAfter (u : CVRQueryDrivenUpdater ρ) (id : ρ) : Option (RowRecord ρ) :=
  (u.pendingRowRecordUpdates.get? id).getD (u.rowRecords.get? id)

/-- What a hydration leaves of a row, in the CVR and at a client. -/
structure Reconciled (u : CVRQueryDrivenUpdater ρ) (contentsOf : ρ → String → κ) (executed removed : List String)
    (changes : List (RowChange ρ κ)) (u' : CVRQueryDrivenUpdater ρ) (patches : List (PatchToVersion ρ κ)) (id : ρ) :
    Prop where
  affected : Affected u.rowRecords (executed ++ removed) changes id →
    ∃ record, u'.pendingRowRecordUpdates.get? id = some (some record) ∧ RecordOf u executed removed changes id record
  unaffected : ¬ Affected u.rowRecords (executed ++ removed) changes id → u'.pendingRowRecordUpdates.get? id = none ∧
    ∀ q, refCount ((u.rowRecords.get? id).bind (·.refCounts)) q =
      countAfter u.rowRecords executed removed changes id q
  client : clientRow u.orig.version id (clientRows u.rowRecords contentsOf id) patches =
    if ((u'.recordAfter id).bind (·.refCounts)).isSome then
      ((newest changes id).map (·.contents)).or (clientRows u.rowRecords contentsOf id)
    else none

section
variable {rowRecords : OrderedMap ρ (RowRecord ρ)} {cvr : CVRSnapshot} {executed removed : List String}
  {u : CVRQueryDrivenUpdater ρ} {contentsOf : ρ → String → κ} {changes : List (RowChange ρ κ)}

theorem recordOf_of_counts (ht : Tracking rowRecords cvr executed removed u) (hexact : ExactRows rowRecords cvr.version)
    {record : RowRecord ρ} {id : ρ} (hid : record.id = id)
    (hversion : some record.rowVersion =
      ((newest changes id).map (·.version)).or ((u.rowRecords.get? id).map (·.rowVersion)))
    (hpos : ∀ m, record.refCounts = some m → Positive m)
    (hcounts : ∀ q, refCount record.refCounts q = countAfter rowRecords executed removed changes id q)
    (hiff : record.refCounts.isSome ↔ ∃ q, 0 < countAfter rowRecords executed removed changes id q)
    (hpatch : record.patchVersion =
      if record.refCounts.isSome then u.patchVersionOf (u.rowRecords.get? id) (some record.rowVersion)
      else u.cvr.version) : RecordOf u executed removed changes id record := by
  refine ⟨hid, hversion, fun q => ?_, ?_, hpatch⟩
  · rw [bind_get?_eq hpos, hcounts, ht.rowRecords]
  · rw [ht.rowRecords]
    exact eq_none_iff (fun q => countAfter_nonneg hexact ..) hiff

theorem Hydrated.reconciled (ht : Tracking rowRecords cvr executed removed u) (hexact : ExactRows rowRecords cvr.version)
    {u' : CVRQueryDrivenUpdater ρ} {patches : List (PatchToVersion ρ κ)} {id : ρ} {row : VersionedRow κ}
    (hrow : newest changes id = some row)
    (h : Hydrated u id (u'.rowState id)
      (clientRow u.orig.version id (clientRows u.rowRecords contentsOf id) patches) row)
    (hpos : ∀ m, (u'.rowState id).received = some (some m) → Positive m)
    (hcounts : ∃ m, (u'.rowState id).received = some m ∧
      (∀ q, refCount m q = countAfter rowRecords executed removed changes id q) ∧
      (m.isSome ↔ ∃ q, 0 < countAfter rowRecords executed removed changes id q)) :
    Reconciled u contentsOf executed removed changes u' patches id := by
  obtain ⟨⟨m, hm, hpending⟩, -, hclient⟩ := h
  obtain ⟨m', hm', hcounts, hiff⟩ := hcounts
  obtain rfl := Option.some.inj (hm.symm.trans hm')
  refine ⟨fun _ => ⟨_, hpending, recordOf_of_counts ht hexact rfl ?_ ?_ hcounts hiff rfl⟩, fun hnot => ?_, ?_⟩
  · rw [hrow]
    rfl
  · exact fun m' hm' => hpos m' (hm.trans (congrArg some hm'))
  · obtain ⟨c, hc, hid, -⟩ := newest_mem hrow
    exact absurd (.inl ⟨c, hc, hid⟩) hnot
  · have hafter : u'.recordAfter id = _ := congrArg (Option.getD · _) hpending
    rw [hclient, hafter, hrow]
    rfl

theorem DeleteStep.unreceived (hb : u.Bumped) {r : RowRecord ρ} {s' : RowState ρ} {patch : Option (PatchToVersion ρ κ)}
    (h : DeleteStep u r {} s' patch) :
    let refCounts := mergeRefCounts r.refCounts none u.removedOrExecutedQueryIDs
    s'.pending = some (some { r with
      patchVersion := if refCounts.isSome then r.patchVersion else u.cvr.version
      refCounts }) ∧
    ∀ row : Option κ, clientRow u.orig.version r.id row patch.toList = if refCounts.isSome then row else none := by
  cases h with
  | received hreceived => cases hreceived
  | referenced _ hmerged =>
    rw [hmerged]
    exact ⟨rfl, fun _ => rfl⟩
  | deletedBefore _ _ hlast => cases hlast
  | deleted _ hmerged _ hv =>
    rw [hmerged]
    refine ⟨rfl, fun row => ?_⟩
    have hnewer : ¬ cmpVersions u.cvr.version u.orig.version ≤ 0 := by
      rw [not_le, cmpVersions_pos_iff]
      exact bumped_iff.mp hb
    simp [clientRow, hv, maxVersion, hnewer, Patch.applyTo]

theorem DeleteStep.reconciled (ht : Tracking rowRecords cvr executed removed u) (hexact : ExactRows rowRecords cvr.version)
    (hh : Hydrates contentsOf executed changes) {u' : CVRQueryDrivenUpdater ρ} {r : RowRecord ρ}
    (hr : u.rowRecords.get? r.id = some r) (href : ReferencedBy (executed ++ removed) r)
    (huntouched : ∀ c ∈ changes, c.id ≠ r.id) {patch : Option (PatchToVersion ρ κ)}
    (h : DeleteStep u r {} (u'.rowState r.id) patch) {patches : List (PatchToVersion ρ κ)}
    (hpatches : ∀ since row, clientRow since r.id row patches = clientRow since r.id row patch.toList) :
    Reconciled u contentsOf executed removed changes u' patches r.id := by
  obtain ⟨hpending, hclient⟩ := h.unreceived ht.bumped
  have hcount : ∀ q, mergedCount r.refCounts none u.removedOrExecutedQueryIDs q =
      countAfter rowRecords executed removed changes r.id q := fun q => by
    rw [← ht.keptCount_add_net hh, net_eq_zero huntouched, mergedCount, keptCount, hr]
    rfl
  have hnonneg : ∀ q, 0 ≤ mergedCount r.refCounts none u.removedOrExecutedQueryIDs q := fun q => by
    rw [hcount]
    exact countAfter_nonneg hexact ..
  obtain ⟨hcounts, hiff⟩ := mergeRefCounts_spec r.refCounts none u.removedOrExecutedQueryIDs hnonneg
  simp only [hcount] at hcounts hiff
  have hpos : ∀ m, mergeRefCounts r.refCounts none u.removedOrExecutedQueryIDs = some m → Positive m := fun m =>
    mergeRefCounts_positive _ _ _ hnonneg (fun _ _ hm => by cases hm)
  have hnewest : newest changes r.id = none := newest_eq_none huntouched
  refine ⟨fun _ => ⟨_, hpending, recordOf_of_counts ht hexact rfl ?_ hpos hcounts hiff ?_⟩, fun hnot => ?_, ?_⟩
  · rw [hnewest, hr]
    rfl
  · rw [hr]
    simp [patchVersionOf]
  · exact absurd (.inr ⟨r, hr, href⟩) hnot
  · have hafter : u'.recordAfter r.id = _ := congrArg (Option.getD · _) hpending
    rw [hpatches, hclient, hafter, hnewest]
    rfl

theorem reconciled_of_unaffected (hexact : ExactRows rowRecords cvr.version)
    (ht : Tracking rowRecords cvr executed removed u) (hh : Hydrates contentsOf executed changes)
    {u' : CVRQueryDrivenUpdater ρ} (hrecords : u'.rowRecords = u.rowRecords) {id : ρ} (hstate : u'.rowState id = {})
    (hnot : ¬ Affected u.rowRecords (executed ++ removed) changes id) {patches : List (PatchToVersion ρ κ)}
    (hpatches : ∀ since row, clientRow since id row patches = row) :
    Reconciled u contentsOf executed removed changes u' patches id := by
  have huntouched : ∀ c ∈ changes, c.id ≠ id := fun c hc hid => hnot (.inl ⟨c, hc, hid⟩)
  have hpending : u'.pendingRowRecordUpdates.get? id = none := congrArg RowState.pending hstate
  refine ⟨fun haff => absurd haff hnot, fun _ => ⟨hpending, fun q => ?_⟩, ?_⟩
  · rw [ht.rowRecords, ← ht.keptCount_add_net hh, net_eq_zero huntouched, add_zero, keptCount,
      ht.removedOrExecutedQueryIDs, ht.rowRecords]
    split
    · next hq =>
      cases hr : rowRecords.get? id with
      | none => rfl
      | some r =>
        obtain ⟨m, hm, -⟩ := hexact.refCounts id r hr
        cases hc : m.get? q with
        | none => simp [hm, hc]
        | some c =>
          refine absurd (.inr ⟨r, by rw [ht.rowRecords]; exact hr, m, hm, q, hq, ?_⟩) hnot
          rw [hc]
          rfl
    · rfl
  · have hafter : u'.recordAfter id = u.rowRecords.get? id := by rw [recordAfter, hpending, hrecords]; rfl
    rw [hpatches, hafter, newest_eq_none huntouched, clientRows, ht.rowRecords]
    cases hr : rowRecords.get? id with
    | none => rfl
    | some r =>
      obtain ⟨m, hm, -⟩ := hexact.refCounts id r hr
      simp [hm]

/-- **Every row is reconciled.** -/
theorem Tracking.reconciles (ht : Tracking rowRecords cvr executed removed u) (hexact : ExactRows rowRecords cvr.version)
    (batches : List (List (RowChange ρ κ))) (hh : Hydrates contentsOf executed batches.flatten) :
    ∃ (puts : List (PatchToVersion ρ κ)) (u₁ : CVRQueryDrivenUpdater ρ) (dels : List (PatchToVersion ρ κ))
      (u₂ : CVRQueryDrivenUpdater ρ), u.receivedBatches batches = .ok (puts, u₁) ∧
      u₁.deleteUnreferencedRows = .ok (dels, u₂) ∧ u₂.rowRecords = rowRecords ∧
      ∀ id, Reconciled u contentsOf executed removed batches.flatten u₂ (puts ++ dels) id := by
  have hids : u.removedOrExecutedQueryIDs ≠ [] := by
    rw [ht.removedOrExecutedQueryIDs]
    exact ht.nonempty
  have hexact' : ExactRows u.rowRecords cvr.version := by rw [ht.rowRecords]; exact hexact
  obtain ⟨puts, u₁, hok, hsame, hrows⟩ := receivedBatches_ok ht.bumped batches
  obtain ⟨rows, hlookup, hnodup, hmem⟩ := lookupRows_spec hexact' hids
  obtain ⟨dels, u₂, hloop, hsame', hdeleted, hunchanged⟩ := deleteLoop_ok (κ := κ) (hsame.bumped ht.bumped) hnodup
  have hrecords := (hsame.trans hsame').rowRecords
  refine ⟨puts, u₁, dels, u₂, hok, ?_, hrecords.trans ht.rowRecords, fun id => ?_⟩
  · rw [deleteUnreferencedRows, hsame.removedOrExecutedQueryIDs, if_neg (by simpa using hids), hsame.existingRows,
      ht.existingRows, hlookup]
    exact hloop
  obtain ⟨own, hrun, hputs⟩ := hrows id
  rw [ht.rowState] at hrun
  have hnn := ht.neverOverRemoved hexact hh
  rcases hrun.hydrated ht.bumped hh hnn with ⟨huntouched, hfresh, rfl⟩ | ⟨row, hrow, hhydrated⟩
  · by_cases hin : ∃ r ∈ rows, r.id = id
    · obtain ⟨r, hr, rfl⟩ := hin
      obtain ⟨patch, hstep, hdels⟩ := hdeleted r hr
      rw [hfresh] at hstep
      obtain ⟨hget, href⟩ := (hmem r).mp hr
      rw [ht.removedOrExecutedQueryIDs] at href
      refine (hsame.deleteStep hstep).reconciled ht hexact hh hget href huntouched fun since row => ?_
      rw [clientRow_append, hputs, hdels]
      rfl
    · obtain ⟨hstate, hdels⟩ := hunchanged id fun r hr hid => hin ⟨r, hr, hid⟩
      refine reconciled_of_unaffected hexact ht hh hrecords (hstate.trans hfresh) ?_ fun since row => ?_
      · rintro (⟨c, hc, hid⟩ | ⟨r, hr, href⟩)
        · exact huntouched c hc hid
        · have hid := hexact'.id id r hr
          exact hin ⟨r, (hmem r).mpr ⟨by rw [hid]; exact hr, by rwa [ht.removedOrExecutedQueryIDs]⟩, hid⟩
      · rw [clientRow_append, hputs, hdels]
        rfl
  · -- A row received is left alone by the loop.
    have hleft : u₂.rowState id = u₁.rowState id ∧ ∀ since row, clientRow since id row dels = row := by
      obtain ⟨m, hm, -⟩ := hhydrated.pending
      by_cases hin : ∃ r ∈ rows, r.id = id
      · obtain ⟨r, hr, rfl⟩ := hin
        obtain ⟨patch, hstep, hdels⟩ := hdeleted r hr
        obtain ⟨s', hs'⟩ : ∃ s', s' = u₂.rowState r.id := ⟨_, rfl⟩
        rw [← hs'] at hstep ⊢
        cases hstep with
        | received _ => exact ⟨rfl, hdels⟩
        | referenced hnot _ | deletedBefore hnot _ _ | deleted hnot _ _ _ =>
          rw [hm] at hnot
          cases hnot
      · exact hunchanged id fun r hr hid => hin ⟨r, hr, hid⟩
    have hpos := hrun.positive hexact' (fun update hupdate => by
      obtain ⟨batch, hbatch, hget⟩ := List.mem_filterMap.mp hupdate
      exact (sums_of_get? hget).positive fun c hc => hh.count c (List.mem_flatten.mpr ⟨batch, hbatch, hc⟩))
      (fun m hm => by cases hm)
    have hreceived := hrun.received hnn
    simp only [ht.keptCount_add_net hh] at hreceived
    refine Hydrated.reconciled ht hexact hrow ?_ ?_ ?_
    · rw [hleft.1, clientRow_append, hputs, hleft.2]
      exact hhydrated
    · rw [hleft.1]
      exact hpos
    · rw [hleft.1]
      refine hreceived.resolve_left fun h => ?_
      obtain ⟨c, hc, hid, -⟩ := newest_mem hrow
      exact h.1 c hc hid

/-! ## Independence of the batches -/

theorem Hydrates.le_newest (hh : Hydrates contentsOf executed changes) {id : ρ} {row row' : VersionedRow κ}
    (hrow : newest changes id = some row) {c : RowChange ρ κ} (hc : c ∈ changes) (hid : c.id = id)
    (hrow' : c.row? = some row') : row'.version ≤ row.version := by
  induction changes using List.reverseRecOn with
  | nil => cases hc
  | append_singleton changes d ih =>
    rw [newest_append] at hrow
    obtain ⟨-, -, hlater⟩ := List.pairwise_append.mp hh.newer
    by_cases hd : d.id = id
    · obtain ⟨q, k, drow, rfl, -⟩ := hh.add d (by simp)
      have hlast : newest [RowChange.add q k drow] id = some drow := by
        have hd : k = id := hd
        simp [newest, hd, RowChange.id, RowChange.row?]
      rw [hlast, Option.some_or] at hrow
      obtain rfl := Option.some.inj hrow
      rcases List.mem_append.mp hc with hc | hc
      · exact hlater c hc _ (by simp) (hid.trans hd.symm) row' drow hrow' rfl
      · obtain rfl := List.mem_singleton.mp hc
        obtain rfl := Option.some.inj hrow'
        exact le_rfl
    · rw [newest_eq_none (by simpa using hd), Option.none_or] at hrow
      rcases List.mem_append.mp hc with hc | hc
      · exact ih hh.of_append hrow hc
      · rw [List.mem_singleton.mp hc] at hid
        exact absurd hid hd

theorem Hydrates.newest_perm {changes' : List (RowChange ρ κ)} (hh : Hydrates contentsOf executed changes)
    (hh' : Hydrates contentsOf executed changes') (hperm : changes'.Perm changes) (id : ρ) :
    (newest changes' id).map (fun row => (row.version, row.contents)) =
      (newest changes id).map fun row => (row.version, row.contents) := by
  by_cases htouched : ∃ c ∈ changes, c.id = id
  · obtain ⟨row, hrow⟩ := hh.exists_newest htouched
    obtain ⟨row', hrow'⟩ := hh'.exists_newest (htouched.imp fun c hc => ⟨hperm.mem_iff.mpr hc.1, hc.2⟩)
    obtain ⟨c, hc, hid, hcrow⟩ := newest_mem hrow
    obtain ⟨c', hc', hid', hcrow'⟩ := newest_mem hrow'
    have hversion : row'.version = row.version :=
      le_antisymm (hh.le_newest hrow (hperm.mem_iff.mp hc') hid' hcrow')
        (hh'.le_newest hrow' (hperm.mem_iff.mpr hc) hid hcrow)
    rw [hrow, hrow', Option.map_some, Option.map_some, hh.contents hrow, hh'.contents hrow', hversion]
  · have huntouched : ∀ c ∈ changes, c.id ≠ id := fun c hc hid => htouched ⟨c, hc, hid⟩
    rw [newest_eq_none huntouched, newest_eq_none fun c hc => huntouched c (hperm.mem_iff.mp hc)]

theorem countAfter_perm {changes' : List (RowChange ρ κ)} (hperm : changes'.Perm changes) (id : ρ) (q : String) :
    countAfter rowRecords executed removed changes' id q = countAfter rowRecords executed removed changes id q := by
  rw [countAfter, countAfter, hperm.countP_eq]

theorem RecordOf.view_eq {changes' : List (RowChange ρ κ)} (hh : Hydrates contentsOf executed changes)
    (hh' : Hydrates contentsOf executed changes') (hperm : changes'.Perm changes) {id : ρ} {r r' : RowRecord ρ}
    (h : RecordOf u executed removed changes id r) (h' : RecordOf u executed removed changes' id r') :
    view r' = view r := by
  have hnewest := congrArg (Option.map (·.1)) (hh.newest_perm hh' hperm id)
  simp only [Option.map_map, Function.comp_def] at hnewest
  have hversion : r'.rowVersion = r.rowVersion := Option.some.inj (by rw [h.rowVersion, h'.rowVersion, hnewest])
  have hcounts : ∀ q, r'.refCounts.bind (·.get? q) = r.refCounts.bind (·.get? q) := fun q => by
    rw [h.counts, h'.counts]
    simp only [countAfter_perm hperm]
  have htombstone : r'.refCounts = none ↔ r.refCounts = none := by
    rw [h.tombstone, h'.tombstone]
    simp only [countAfter_perm hperm]
  have hpatch := h.patchVersion
  have hpatch' := h'.patchVersion
  rw [view, view, h.sameID, h'.sameID, hversion]
  rw [hversion] at hpatch'
  cases hr : r.refCounts with
  | none =>
    rw [hr] at hpatch
    rw [htombstone.mpr hr] at hpatch' ⊢
    rw [hpatch, hpatch']
  | some m =>
    obtain ⟨m', hr'⟩ := Option.ne_none_iff_exists'.mp fun hnone => by
      rw [htombstone.mp hnone] at hr
      cases hr
    rw [hr] at hpatch hcounts
    rw [hr'] at hpatch' hcounts ⊢
    have hget : m'.get? = m.get? := funext hcounts
    rw [hpatch, hpatch', Option.map_some, Option.map_some, hget]
    rfl

/-- **Two hydrations of the same rows leave the same**, in the CVR and at a client. -/
theorem Reconciled.unique {changes' : List (RowChange ρ κ)} (hh : Hydrates contentsOf executed changes)
    (hh' : Hydrates contentsOf executed changes') (hperm : changes'.Perm changes)
    {u₂ u₂' : CVRQueryDrivenUpdater ρ} {patches patches' : List (PatchToVersion ρ κ)} {id : ρ}
    (hrecords : u₂'.rowRecords = u₂.rowRecords)
    (h : Reconciled u contentsOf executed removed changes u₂ patches id)
    (h' : Reconciled u contentsOf executed removed changes' u₂' patches' id) :
    (u₂'.pendingRowRecordUpdates.get? id).map (·.map view) = (u₂.pendingRowRecordUpdates.get? id).map (·.map view) ∧
      clientRow u.orig.version id (clientRows u.rowRecords contentsOf id) patches' =
        clientRow u.orig.version id (clientRows u.rowRecords contentsOf id) patches := by
  have haffected : Affected u.rowRecords (executed ++ removed) changes' id ↔
      Affected u.rowRecords (executed ++ removed) changes id :=
    or_congr (exists_congr fun c => and_congr_left fun _ => hperm.mem_iff) Iff.rfl
  have hcontents := congrArg (Option.map (·.2)) (hh.newest_perm hh' hperm id)
  simp only [Option.map_map, Function.comp_def] at hcontents
  rw [h.client, h'.client, hcontents]
  by_cases haff : Affected u.rowRecords (executed ++ removed) changes id
  · obtain ⟨r, hr, hof⟩ := h.affected haff
    obtain ⟨r', hr', hof'⟩ := h'.affected (haffected.mpr haff)
    have hview := hof.view_eq hh hh' hperm hof'
    have hsome : r'.refCounts.isSome = r.refCounts.isSome := by
      have := congrArg (fun v => v.2.2.2.isSome) hview
      simpa [view] using this
    rw [recordAfter, recordAfter, hr, hr']
    simp only [Option.map_some, Option.getD_some, Option.bind_some, hview, hsome, and_self]
  · rw [recordAfter, recordAfter, (h.unaffected haff).1, (h'.unaffected (haffected.not.mpr haff)).1, hrecords]
    exact ⟨rfl, rfl⟩

end

/-- **A hydration is exact.** However its rows are split into batches, every
record, and every row of a client of the original version, comes to what the
hydration says, and neither the split nor the order of the rows shows. -/
theorem hydration_exact {rowRecords : OrderedMap ρ (RowRecord ρ)} {cvr : CVRSnapshot}
    {stateVersion replicaVersion : String} {addQueries : List (String × String)} {removeQueries : List String}
    {queryPatches : List (PatchToVersion ρ κ)} {u : CVRQueryDrivenUpdater ρ}
    (h : addAndRemoveQueries rowRecords cvr stateVersion replicaVersion addQueries removeQueries =
      .ok (queryPatches, u))
    (hexact : ExactRows rowRecords cvr.version) {contentsOf : ρ → String → κ} (batches : List (List (RowChange ρ κ)))
    (hh : Hydrates contentsOf (addQueries.map (·.1)) batches.flatten) :
    ∃ puts u₁ dels u₂, u.receivedBatches batches = .ok (puts, u₁) ∧ u₁.deleteUnreferencedRows = .ok (dels, u₂) ∧
      (∀ id, Reconciled u contentsOf (addQueries.map (·.1)) removeQueries batches.flatten u₂ (puts ++ dels) id) ∧
      ∀ (batches' : List (List (RowChange ρ κ))), batches'.flatten.Perm batches.flatten →
        Hydrates contentsOf (addQueries.map (·.1)) batches'.flatten →
        ∃ puts' u₁' dels' u₂', u.receivedBatches batches' = .ok (puts', u₁') ∧
          u₁'.deleteUnreferencedRows = .ok (dels', u₂') ∧ ∀ id,
          (u₂'.pendingRowRecordUpdates.get? id).map (·.map view) =
            (u₂.pendingRowRecordUpdates.get? id).map (·.map view) ∧
          clientRow cvr.version id (clientRows rowRecords contentsOf id) (puts' ++ dels') =
            clientRow cvr.version id (clientRows rowRecords contentsOf id) (puts ++ dels) := by
  have ht := addAndRemoveQueries_spec h
  obtain ⟨puts, u₁, dels, u₂, hputs, hdels, hrecords, hrows⟩ := ht.reconciles hexact batches hh
  refine ⟨puts, u₁, dels, u₂, hputs, hdels, hrows, fun batches' hperm hh' => ?_⟩
  obtain ⟨puts', u₁', dels', u₂', hputs', hdels', hrecords', hrows'⟩ := ht.reconciles hexact batches' hh'
  refine ⟨puts', u₁', dels', u₂', hputs', hdels', fun id => ?_⟩
  rw [← ht.orig, ← ht.rowRecords]
  exact (hrows id).unique hh hh' hperm (hrecords'.trans hrecords.symm) (hrows' id)

/-- The CVR of the shared row, with its queries. -/
def hydratingCVR : CVRSnapshot :=
  { sharedCVR with
    queries := OrderedMap.ofList
      [("q1", { id := "q1", internal := false, transformationHash := some "h1" }), ("q2", { id := "q2", internal := false })] }

/-- `q1` is hydrated again and `q2` removed: `q1` keeps the row, with newer contents. -/
theorem hydration_exact_shared :
    let contentsOf : String → String → String := fun _ version => if version = "02" then "edited" else "original"
    let batches : List (List (RowChange String String)) := [[.add "q1" "row" ⟨"02", "edited", by decide⟩]]
    ∃ (queryPatches : List (PatchToVersion String String)) (u : CVRQueryDrivenUpdater String),
      addAndRemoveQueries sharedRows hydratingCVR "02" "01" [("q1", "h2")] ["q2"] = .ok (queryPatches, u) ∧
      ∃ puts u₁ dels u₂, u.receivedBatches batches = .ok (puts, u₁) ∧ u₁.deleteUnreferencedRows = .ok (dels, u₂) ∧
        ∀ id, Reconciled u contentsOf ["q1"] ["q2"] batches.flatten u₂ (puts ++ dels) id := by
  intro contentsOf batches
  obtain ⟨queryPatches, u, h⟩ :
      ∃ (queryPatches : List (PatchToVersion String String)) (u : CVRQueryDrivenUpdater String),
        addAndRemoveQueries sharedRows hydratingCVR "02" "01" [("q1", "h2")] ["q2"] = .ok (queryPatches, u) :=
    ⟨_, _, rfl⟩
  have hh : Hydrates contentsOf ["q1"] batches.flatten :=
    ⟨fun c hc => ⟨_, _, _, List.mem_singleton.mp hc, by simp, by simp [contentsOf]⟩, List.pairwise_singleton _ _⟩
  obtain ⟨puts, u₁, dels, u₂, hputs, hdels, hrows, -⟩ := hydration_exact h exactRows_shared batches hh
  exact ⟨queryPatches, u, h, puts, u₁, dels, u₂, hputs, hdels, hrows⟩

end CVRQueryDrivenUpdater

end ZeroSync
