/-
What `#addAndRemoveQueries` hands to `received`: an updater that tracks the
queries, is bumped above the original version, and has received nothing.
-/
import Mathlib.Data.Prod.Lex
import Mathlib.Data.String.Basic
import ZeroSync.CVRReceived

namespace ZeroSync

/-! ## The order of versions -/

/-- A version as a pair whose order is that of `cmpVersions`. -/
def CVRVersion.key (v : CVRVersion) : String ×ₗ ℚ := toLex (v.stateVersion, v.configVersion.getD 0)

theorem cmpVersions_neg_iff {a b : CVRVersion} : cmpVersions a b < 0 ↔ a.key < b.key := by
  simp only [cmpVersions, CVRVersion.key, Prod.Lex.toLex_lt_toLex]
  rcases lt_trichotomy a.stateVersion b.stateVersion with h | h | h
  · simp [h]
  · simp [h]
  · simp [h.not_gt, h, h.ne']

theorem cmpVersions_pos_iff {a b : CVRVersion} : 0 < cmpVersions a b ↔ b.key < a.key := by
  rw [← cmpVersions_neg_iff, cmpVersions_swap a b, neg_lt_zero]

theorem cmpVersions_nonpos_iff {a b : CVRVersion} : cmpVersions a b ≤ 0 ↔ a.key ≤ b.key := by
  rw [← not_lt, cmpVersions_pos_iff, not_lt]

theorem le_maxVersion (a : CVRVersion) (b : Option CVRVersion) :
    a.key ≤ (maxVersion a b).key ∧ ∀ c, b = some c → c.key ≤ (maxVersion a b).key := by
  cases b with
  | none => exact ⟨le_rfl, fun _ h => nomatch h⟩
  | some b =>
    by_cases h : cmpVersions b a > 0
    · simp only [maxVersion, h, if_true]
      exact ⟨(cmpVersions_pos_iff.mp h).le, fun c hc => Option.some.inj hc ▸ le_rfl⟩
    · simp only [maxVersion, h, if_false]
      exact ⟨le_rfl, fun c hc => Option.some.inj hc ▸ (cmpVersions_nonpos_iff.mp (not_lt.mp h))⟩

namespace CVRQueryDrivenUpdater

variable {ρ κ : Type} [DecidableEq ρ]

theorem bumped_iff {u : CVRQueryDrivenUpdater ρ} : u.Bumped ↔ u.orig.version.key < u.cvr.version.key :=
  cmpVersions_neg_iff

/-! ## Tracking queries -/

/-- What tracking leaves alone, and that it never takes the version back. -/
structure Tracks (u u' : CVRQueryDrivenUpdater ρ) : Prop where
  orig : u'.orig = u.orig
  rowRecords : u'.rowRecords = u.rowRecords
  rowState : ∀ id, u'.rowState id = u.rowState id
  existingRows : u'.existingRows = u.existingRows
  version : u.cvr.version.key ≤ u'.cvr.version.key

theorem Tracks.refl (u : CVRQueryDrivenUpdater ρ) : Tracks u u := ⟨rfl, rfl, fun _ => rfl, rfl, le_rfl⟩

theorem Tracks.trans {u u' u'' : CVRQueryDrivenUpdater ρ} (h : Tracks u u') (h' : Tracks u' u'') : Tracks u u'' :=
  ⟨h'.orig.trans h.orig, h'.rowRecords.trans h.rowRecords, fun id => (h'.rowState id).trans (h.rowState id),
    h'.existingRows.trans h.existingRows, h.version.trans h'.version⟩

theorem Tracks.bumped {u u' : CVRQueryDrivenUpdater ρ} (h : Tracks u u') (hb : u.Bumped) : u'.Bumped := by
  rw [bumped_iff] at hb ⊢
  rw [h.orig]
  exact hb.trans_le h.version

/-- `_ensureNewVersion` bumps a version that has not gone back. -/
theorem ensureNewVersion_spec {u u' : CVRQueryDrivenUpdater ρ} (hle : u.orig.version.key ≤ u.cvr.version.key)
    (h : u.ensureNewVersion = .ok u') : Tracks u u' ∧ u'.Bumped ∧ u'.cvr.queries = u.cvr.queries ∧
      u'.removedOrExecutedQueryIDs = u.removedOrExecutedQueryIDs := by
  unfold ensureNewVersion at h
  split at h
  · unfold setVersion at h
    split at h
    · next hzero hlt =>
      cases h
      have hlt := cmpVersions_neg_iff.mp hlt
      exact ⟨⟨rfl, rfl, fun _ => rfl, rfl, hlt.le⟩, bumped_iff.mpr (hle.trans_lt hlt), rfl, rfl⟩
    · cases h
  · next hne =>
    cases h
    refine ⟨.refl _, ?_, rfl, rfl⟩
    exact lt_of_le_of_ne (cmpVersions_nonpos_iff.mpr hle) hne

/-- `#trackExecuted` bumps the version for a query with another transformation hash. -/
theorem trackExecuted_spec {u u' : CVRQueryDrivenUpdater ρ} {id hash : String} {patches : List (Patch ρ κ)}
    (hle : u.orig.version.key ≤ u.cvr.version.key) (h : u.trackExecuted id hash = .ok (patches, u')) :
    Tracks u u' ∧ id ∉ u.removedOrExecutedQueryIDs ∧
      u'.removedOrExecutedQueryIDs = u.removedOrExecutedQueryIDs ++ [id] ∧
      (∀ k, k ≠ id → u'.cvr.queries.get? k = u.cvr.queries.get? k) ∧
      ((u.cvr.queries.get? id).bind (·.transformationHash) ≠ some hash → u'.Bumped) := by
  unfold trackExecuted at h
  by_cases hmem : id ∈ u.removedOrExecutedQueryIDs
  · rw [if_pos hmem] at h; cases h
  rw [if_neg hmem] at h
  cases hquery : u.cvr.queries.get? id with
  | none => simp [hquery] at h
  | some query =>
    simp only [hquery] at h
    by_cases hhash : query.transformationHash = some hash
    · rw [if_pos hhash] at h
      cases h
      exact ⟨⟨rfl, rfl, fun _ => rfl, rfl, le_rfl⟩, hmem, rfl, fun _ _ => rfl, fun hne => absurd hhash hne⟩
    · rw [if_neg hhash] at h
      generalize hu₁ : ({ u with removedOrExecutedQueryIDs := u.removedOrExecutedQueryIDs ++ [id] } :
        CVRQueryDrivenUpdater ρ) = u₁ at h
      cases hu₂ : u₁.ensureNewVersion with
      | error e => simp [hu₂, bind, Except.bind] at h
      | ok u₂ =>
        simp only [hu₂, bind, Except.bind, pure, Except.pure, Except.ok.injEq, Prod.mk.injEq] at h
        obtain ⟨-, rfl⟩ := h
        obtain ⟨htracks, hbumped, hqueries, hids⟩ := ensureNewVersion_spec (by rw [← hu₁]; exact hle) hu₂
        subst hu₁
        refine ⟨⟨htracks.orig, htracks.rowRecords, htracks.rowState, htracks.existingRows, htracks.version⟩, hmem,
          hids, fun k hk => ?_, fun _ => hbumped⟩
        rw [OrderedMap.get?_set_of_ne _ _ hk.symm, hqueries]

/-- `#trackRemoved` bumps the version. -/
theorem trackRemoved_spec {u u' : CVRQueryDrivenUpdater ρ} {id : String} {patches : List (Patch ρ κ)}
    (hle : u.orig.version.key ≤ u.cvr.version.key) (h : u.trackRemoved id = .ok (patches, u')) :
    Tracks u u' ∧ id ∉ u.removedOrExecutedQueryIDs ∧
      u'.removedOrExecutedQueryIDs = u.removedOrExecutedQueryIDs ++ [id] ∧ u'.Bumped := by
  unfold trackRemoved at h
  cases hquery : u.cvr.queries.get? id with
  | none => simp [hquery] at h
  | some query =>
    simp only [hquery] at h
    by_cases hinternal : query.internal
    · rw [if_pos hinternal] at h; cases h
    rw [if_neg hinternal] at h
    by_cases hmem : id ∈ u.removedOrExecutedQueryIDs
    · rw [if_pos hmem] at h; cases h
    rw [if_neg hmem] at h
    generalize hu₁ : ({ u with
      removedOrExecutedQueryIDs := u.removedOrExecutedQueryIDs ++ [id]
      cvr := { u.cvr with queries := u.cvr.queries.erase id } } : CVRQueryDrivenUpdater ρ) = u₁ at h
    cases hu₂ : u₁.ensureNewVersion with
    | error e => simp [hu₂, bind, Except.bind] at h
    | ok u₂ =>
      simp only [hu₂, bind, Except.bind, pure, Except.pure, Except.ok.injEq, Prod.mk.injEq] at h
      obtain ⟨-, rfl⟩ := h
      obtain ⟨htracks, hbumped, -, hids⟩ := ensureNewVersion_spec (by rw [← hu₁]; exact hle) hu₂
      subst hu₁
      exact ⟨⟨htracks.orig, htracks.rowRecords, htracks.rowState, htracks.existingRows, htracks.version⟩, hmem,
        hids, hbumped⟩

theorem Tracks.le {u u' : CVRQueryDrivenUpdater ρ} (h : Tracks u u') (hle : u.orig.version.key ≤ u.cvr.version.key) :
    u'.orig.version.key ≤ u'.cvr.version.key := by
  rw [h.orig]
  exact hle.trans h.version

theorem trackAllExecuted_spec {executed : List (String × String)} {u u' : CVRQueryDrivenUpdater ρ}
    {patches : List (Patch ρ κ)} (hle : u.orig.version.key ≤ u.cvr.version.key)
    (h : trackAll (fun u q => u.trackExecuted q.1 q.2) u executed = .ok (patches, u')) :
    Tracks u u' ∧ (∀ q ∈ executed, q.1 ∉ u.removedOrExecutedQueryIDs) ∧
      u'.removedOrExecutedQueryIDs = u.removedOrExecutedQueryIDs ++ executed.map (·.1) ∧
      ((∃ q ∈ executed, (u.cvr.queries.get? q.1).bind (·.transformationHash) ≠ some q.2) → u'.Bumped) := by
  induction executed generalizing u patches with
  | nil =>
    cases h
    exact ⟨.refl _, by simp, by simp, by simp⟩
  | cons q executed ih =>
    cases hu₁ : u.trackExecuted (κ := κ) (ρ := ρ) q.1 q.2 with
    | error e => simp [trackAll, hu₁, bind, Except.bind] at h
    | ok r =>
      obtain ⟨first, u₁⟩ := r
      obtain ⟨htracks, hnot, hids, hqueries, hbumped⟩ := trackExecuted_spec hle hu₁
      cases hu₂ : trackAll (fun u q => u.trackExecuted (κ := κ) (ρ := ρ) q.1 q.2) u₁ executed with
      | error e => simp [trackAll, hu₁, hu₂, bind, Except.bind] at h
      | ok r =>
        obtain ⟨rest, u₂⟩ := r
        simp only [trackAll, hu₁, hu₂, bind, Except.bind, pure, Except.pure, Except.ok.injEq, Prod.mk.injEq] at h
        obtain ⟨-, rfl⟩ := h
        obtain ⟨htracks', hnot', hids', hbumped'⟩ := ih (htracks.le hle) hu₂
        refine ⟨htracks.trans htracks', ?_, by simp [hids', hids], ?_⟩
        · intro p hp
          rcases List.mem_cons.mp hp with rfl | hp
          · exact hnot
          · exact fun hmem => hnot' p hp (by simp [hids, hmem])
        · rintro ⟨p, hp, hne⟩
          rcases List.mem_cons.mp hp with rfl | hp
          · exact htracks'.bumped (hbumped hne)
          · -- Its record is still that of the CVR: only queries tracked before have been written.
            have hpq : p.1 ≠ q.1 := fun heq => hnot' p hp (by simp [hids, heq])
            exact hbumped' ⟨p, hp, by rw [hqueries _ hpq]; exact hne⟩

theorem trackAllRemoved_spec {removed : List String} {u u' : CVRQueryDrivenUpdater ρ} {patches : List (Patch ρ κ)}
    (hle : u.orig.version.key ≤ u.cvr.version.key)
    (h : trackAll (fun u id => u.trackRemoved id) u removed = .ok (patches, u')) :
    Tracks u u' ∧ (∀ id ∈ removed, id ∉ u.removedOrExecutedQueryIDs) ∧
      u'.removedOrExecutedQueryIDs = u.removedOrExecutedQueryIDs ++ removed ∧ (removed ≠ [] → u'.Bumped) := by
  induction removed generalizing u patches with
  | nil =>
    cases h
    exact ⟨.refl _, by simp, by simp, by simp⟩
  | cons id removed ih =>
    cases hu₁ : u.trackRemoved (κ := κ) (ρ := ρ) id with
    | error e => simp [trackAll, hu₁, bind, Except.bind] at h
    | ok r =>
      obtain ⟨first, u₁⟩ := r
      obtain ⟨htracks, hnot, hids, hbumped⟩ := trackRemoved_spec hle hu₁
      cases hu₂ : trackAll (fun u id => u.trackRemoved (κ := κ) (ρ := ρ) id) u₁ removed with
      | error e => simp [trackAll, hu₁, hu₂, bind, Except.bind] at h
      | ok r =>
        obtain ⟨rest, u₂⟩ := r
        simp only [trackAll, hu₁, hu₂, bind, Except.bind, pure, Except.pure, Except.ok.injEq, Prod.mk.injEq] at h
        obtain ⟨-, rfl⟩ := h
        obtain ⟨htracks', hnot', hids', -⟩ := ih (htracks.le hle) hu₂
        refine ⟨htracks.trans htracks', ?_, by simp [hids', hids], fun _ => htracks'.bumped hbumped⟩
        intro k hk
        rcases List.mem_cons.mp hk with rfl | hk
        · exact hnot
        · exact fun hmem => hnot' k hk (by simp [hids, hmem])

/-! ## The start of an update -/

/-- A new updater: it has received and tracked nothing, and is bumped by a newer state version. -/
structure Fresh (rowRecords : OrderedMap ρ (RowRecord ρ)) (cvr : CVRSnapshot) (u : CVRQueryDrivenUpdater ρ) : Prop where
  orig : u.orig = cvr
  rowRecords : u.rowRecords = rowRecords
  queries : u.cvr.queries = cvr.queries
  removedOrExecutedQueryIDs : u.removedOrExecutedQueryIDs = []
  rowState : ∀ id, u.rowState id = {}
  existingRows : u.existingRows = none
  version : u.orig.version.key ≤ u.cvr.version.key

theorem new_spec {rowRecords : OrderedMap ρ (RowRecord ρ)} {cvr : CVRSnapshot} {stateVersion replicaVersion : String}
    {u : CVRQueryDrivenUpdater ρ} (h : new rowRecords cvr stateVersion replicaVersion = .ok u) :
    Fresh rowRecords cvr u ∧ (cvr.version.stateVersion < stateVersion → u.Bumped) := by
  unfold new at h
  simp only at h
  split at h
  · cases h
  split at h
  · cases h
  split at h
  · unfold setVersion at h
    split at h
    · next hlt =>
      cases h
      exact ⟨⟨rfl, rfl, rfl, rfl, fun _ => rfl, rfl, (cmpVersions_neg_iff.mp hlt).le⟩, fun _ => hlt⟩
    · cases h
  · next hnot =>
    cases h
    exact ⟨⟨rfl, rfl, rfl, rfl, fun _ => rfl, rfl, le_rfl⟩, fun hlt => absurd hlt hnot⟩

/-- The updater `#addAndRemoveQueries` feeds. -/
structure Tracking (rowRecords : OrderedMap ρ (RowRecord ρ)) (cvr : CVRSnapshot) (executed removed : List String)
    (u : CVRQueryDrivenUpdater ρ) : Prop where
  bumped : u.Bumped
  orig : u.orig = cvr
  rowRecords : u.rowRecords = rowRecords
  removedOrExecutedQueryIDs : u.removedOrExecutedQueryIDs = executed ++ removed
  rowState : ∀ id, u.rowState id = {}
  existingRows : u.existingRows = some u.lookupRowsForExecutedAndRemovedQueries
  nonempty : executed ++ removed ≠ []
  disjoint : ∀ id ∈ removed, id ∉ executed

/-- `trackQueries` bumps the version for a removed query or a new transformation hash. -/
theorem trackQueries_spec {executed : List (String × String)} {removed : List String} {u u' : CVRQueryDrivenUpdater ρ}
    {patches : List (PatchToVersion ρ κ)} (hle : u.orig.version.key ≤ u.cvr.version.key)
    (hids : u.removedOrExecutedQueryIDs = []) (h : u.trackQueries executed removed = .ok (patches, u')) :
    u'.orig = u.orig ∧ u'.rowRecords = u.rowRecords ∧ (∀ id, u'.rowState id = u.rowState id) ∧
      u'.removedOrExecutedQueryIDs = executed.map (·.1) ++ removed ∧ (∀ id ∈ removed, id ∉ executed.map (·.1)) ∧
      u'.existingRows = some u'.lookupRowsForExecutedAndRemovedQueries ∧
      (u.Bumped ∨ removed ≠ [] ∨
        (∃ q ∈ executed, (u.cvr.queries.get? q.1).bind (·.transformationHash) ≠ some q.2) → u'.Bumped) := by
  unfold trackQueries at h
  split at h
  · cases h
  cases h₁ : trackAll (fun u q => u.trackExecuted (κ := κ) (ρ := ρ) q.1 q.2) u executed with
  | error e => simp [h₁, bind, Except.bind] at h
  | ok r =>
  obtain ⟨patches₁, u₁⟩ := r
  cases h₂ : trackAll (fun u id => u.trackRemoved (κ := κ) (ρ := ρ) id) u₁ removed with
  | error e => simp [h₁, h₂, bind, Except.bind] at h
  | ok r =>
  obtain ⟨patches₂, u₂⟩ := r
  simp only [h₁, h₂, bind, Except.bind, pure, Except.pure, Except.ok.injEq, Prod.mk.injEq] at h
  obtain ⟨-, rfl⟩ := h
  obtain ⟨htracks₁, -, hids₁, hbumped₁⟩ := trackAllExecuted_spec hle h₁
  obtain ⟨htracks₂, hnot₂, hids₂, hbumped₂⟩ := trackAllRemoved_spec (htracks₁.le hle) h₂
  have htracks := htracks₁.trans htracks₂
  rw [hids, List.nil_append] at hids₁
  rw [hids₁] at hids₂ hnot₂
  refine ⟨htracks.orig, htracks.rowRecords, htracks.rowState, hids₂, hnot₂, rfl, ?_⟩
  rintro (hb | hne | hhash)
  · exact htracks.bumped hb
  · exact hbumped₂ hne
  · exact htracks₂.bumped (hbumped₁ hhash)

/-- **`#addAndRemoveQueries` always works on a bumped updater**: tracking bumps
it, or the state version does, or it is bumped for a rehydration. -/
theorem addAndRemoveQueries_spec {rowRecords : OrderedMap ρ (RowRecord ρ)} {cvr : CVRSnapshot}
    {stateVersion replicaVersion : String} {addQueries : List (String × String)} {removeQueries : List String}
    {patches : List (PatchToVersion ρ κ)} {u : CVRQueryDrivenUpdater ρ}
    (h : addAndRemoveQueries rowRecords cvr stateVersion replicaVersion addQueries removeQueries = .ok (patches, u)) :
    Tracking rowRecords cvr (addQueries.map (·.1)) removeQueries u := by
  unfold addAndRemoveQueries at h
  split at h
  · cases h
  next hsome =>
  cases hnew : new rowRecords cvr stateVersion replicaVersion with
  | error e => simp [hnew, bind, Except.bind] at h
  | ok u₀ =>
  obtain ⟨hfresh, hsv⟩ := new_spec hnew
  simp only [hnew, bind, Except.bind] at h
  -- The updater handed to `trackQueries`, bumped already where tracking will not do it.
  generalize hcond : (addQueries.any (fun q => (cvr.queries.get? q.1).bind (·.transformationHash) = some q.2) &&
    !(decide (cvr.version.stateVersion < stateVersion) || decide (0 < removeQueries.length) ||
      addQueries.any fun q => !decide ((cvr.queries.get? q.1).bind (·.transformationHash) = some q.2))) = cond at h
  obtain ⟨u₁, htracks, hids, hqueries, hbumped, h⟩ : ∃ u₁, Tracks u₀ u₁ ∧ u₁.removedOrExecutedQueryIDs = [] ∧
      u₁.cvr.queries = cvr.queries ∧ (cond = true → u₁.Bumped) ∧
      u₁.trackQueries addQueries removeQueries = .ok (patches, u) := by
    cases cond with
    | true =>
      cases hu₁ : u₀.ensureNewVersion with
      | error e => simp [hu₁] at h
      | ok u₁ =>
        obtain ⟨htracks, hb, hq, hi⟩ := ensureNewVersion_spec hfresh.version hu₁
        exact ⟨u₁, htracks, hi.trans hfresh.removedOrExecutedQueryIDs, hq.trans hfresh.queries, fun _ => hb,
          by simpa [hu₁] using h⟩
    | false =>
      exact ⟨u₀, .refl _, hfresh.removedOrExecutedQueryIDs, hfresh.queries, by simp,
        by simpa [pure, Except.pure] using h⟩
  obtain ⟨horig, hrecords, hstate, hids', hdisjoint, hexisting, hb⟩ :=
    trackQueries_spec (htracks.le hfresh.version) hids h
  refine ⟨hb ?_, ?_, ?_, hids', fun id => ?_, hexisting, ?_, hdisjoint⟩
  · by_cases hstate : cvr.version.stateVersion < stateVersion
    · exact .inl (htracks.bumped (hsv hstate))
    by_cases hremove : removeQueries = []
    · by_cases hdiffers : ∃ q ∈ addQueries, (u₁.cvr.queries.get? q.1).bind (·.transformationHash) ≠ some q.2
      · exact .inr (.inr hdiffers)
      · -- Every query is rehydrated with the hash it has: the caller bumps.
        refine .inl (hbumped ?_)
        rw [hqueries] at hdiffers
        simp only [not_exists, not_and, not_not] at hdiffers
        obtain ⟨q, hq⟩ : ∃ q, q ∈ addQueries := by
          refine List.exists_mem_of_ne_nil _ fun hnil => hsome ?_
          simp [hnil, hremove]
        have hall : (addQueries.any fun q =>
            !decide ((cvr.queries.get? q.1).bind (·.transformationHash) = some q.2)) = false := by
          simpa using fun a b hab => hdiffers (a, b) hab
        have hany : (addQueries.any fun q =>
            decide ((cvr.queries.get? q.1).bind (·.transformationHash) = some q.2)) = true := by
          rw [List.any_eq_true]
          exact ⟨q, hq, by simpa using hdiffers q hq⟩
        rw [← hcond, hall, hany]
        simp [hstate, hremove]
    · exact .inr (.inl hremove)
  · rw [horig, htracks.orig, hfresh.orig]
  · rw [hrecords, htracks.rowRecords, hfresh.rowRecords]
  · rw [hstate, htracks.rowState, hfresh.rowState]
  · intro hnil
    simp only [List.append_eq_nil_iff, List.map_eq_nil_iff] at hnil
    exact hsome (by simp [hnil])

end CVRQueryDrivenUpdater

end ZeroSync
