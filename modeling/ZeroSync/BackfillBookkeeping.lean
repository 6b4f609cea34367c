/-
The backfills that a running manager requires and those that the cookies of
the change log ask for are the same in every run of schema changes that are
valid for the tables upstream, if each change meets `KeptAlike` in the state
before it: no two tables share the key `schema.name`, table metadata is told
to both or to neither, a new table has a column to fill, and columns are not
called like a property of every object.

The two states are compared table by table (`AlikeAt`): what the manager
requires of a table is what the cookies remember of it.
-/
import ZeroSync.ChangeLogCookiesFacts

namespace ZeroSync.Backfills

variable {J : Type}

/-- The same table, metadata and columns. -/
structure SameRequest (r r' : BackfillRequest J) : Prop where
  table : r.table = r'.table
  metadata : r.metadata = r'.metadata
  columns : ∀ col, r.columns.get? col = r'.columns.get? col

/-- The same requests, one for a table. -/
structure Agree (required persisted : List (BackfillRequest J)) : Prop where
  nodup_required : (required.map (·.table)).Nodup
  nodup_persisted : (persisted.map (·.table)).Nodup
  persisted_of_required : ∀ r ∈ required, ∃ r' ∈ persisted, SameRequest r r'
  required_of_persisted : ∀ r' ∈ persisted, ∃ r ∈ required, SameRequest r r'

/-! ## Changes -/

/-- A schema change that the upstream can make with these tables. A backfill
that is completed is one that was asked for. -/
def ValidFor (tables : List Identifier) (s : Cookies J) : DataChange J → Prop
  | .source (.createTable table _ _) => table ∉ tables
  | .source (.renameTable old new) => old ∈ tables ∧ new ∉ tables
  | .source (.updateTableMetadata table _) | .source (.addColumn table _ _ _) | .source (.updateColumn table _ _)
  | .source (.dropColumn table _) | .source (.dropTable table) => table ∈ tables
  | .source .other => True
  | .source (.update ..) | .backfill (.backfill ..) => False
  | .backfill (.completed relation _ _) => ∃ col v, s.backfilling.get? (relation.id, col) = some v

/-- The tables upstream after a change. -/
def tablesAfter (tables : List Identifier) : DataChange J → List Identifier
  | .source (.createTable table _ _) => table :: tables
  | .source (.renameTable old new) => new :: tables.filter (· ≠ old)
  | .source (.dropTable table) => tables.filter (· ≠ table)
  | _ => tables

namespace Manager

/-- What is required under the key of a table is required of that table. -/
def owns (m : Manager J) (table : Identifier) : Prop := ∀ r, m.required table = some r → r.table = table

/-- What is required of a table. -/
def requestOf (m : Manager J) (table : Identifier) : Option (BackfillRequest J) :=
  (m.required table).filter fun r => r.table = table

end Manager

/-- The manager and the cookies take a change alike. -/
def KeptAlike (m : Manager J) (s : Cookies J) : DataChange J → Prop
  | .source (.updateTableMetadata table _) | .source (.dropTable table) | .source (.dropColumn table _) => m.owns table
  | .source (.createTable table _ backfill) =>
    ∀ columns, backfill = some columns → m.owns table ∧ columns.entries ≠ [] ∧ columns.get? "__proto__" = none
  | .source (.renameTable old new) => m.owns old ∧ ((m.required old).isSome → m.owns new)
  | .source (.addColumn table column tableMetadata backfill) =>
    if backfill.isSome then
      m.owns table ∧ column ≠ "__proto__" ∧ (tableMetadata = none → s.metadata.get? table = none)
    else ∀ metadata, tableMetadata = some metadata → ∀ r, m.requestOf table = some r → r.metadata = some metadata
  | .source (.updateColumn table old new) =>
    old ≠ new → m.owns table ∧ ∀ r, m.required table = some r →
      (r.columns.get? old = none → old ∉ objectPrototype) ∧ (r.columns.get? old ≠ none → new ≠ "__proto__")
  | .backfill (.completed relation _ _) => m.owns relation.id
  | _ => True

/-! ## What the manager requires of a table -/

section
variable {m : Manager J}

theorem Manager.requestOf_eq_some {t : Identifier} {r : BackfillRequest J} :
    m.requestOf t = some r ↔ m.required t = some r ∧ r.table = t := by
  simp [Manager.requestOf, Option.filter_eq_some_iff]

theorem Manager.owns.requestOf {t : Identifier} (h : m.owns t) : m.requestOf t = m.required t := by
  refine Option.ext fun r => ?_
  rw [Manager.requestOf_eq_some]
  exact ⟨And.left, fun hr => ⟨hr, h r hr⟩⟩

theorem required_setRequiredBackfill (req : BackfillRequest J) (t : Identifier) :
    (m.setRequiredBackfill req).required t = if tableKey req.table = tableKey t then some req else m.required t :=
  OrderedMap.get?_set ..

theorem required_deleteRequiredBackfill (id t : Identifier) :
    (m.deleteRequiredBackfill id).required t = if tableKey id = tableKey t then none else m.required t :=
  OrderedMap.get?_erase ..

theorem requestOf_setRequiredBackfill {req : BackfillRequest J} (h : m.owns req.table) (t : Identifier) :
    (m.setRequiredBackfill req).requestOf t = if t = req.table then some req else m.requestOf t := by
  refine Option.ext fun r => ?_
  rw [Manager.requestOf_eq_some, required_setRequiredBackfill]
  by_cases ht : t = req.table
  · subst ht
    simp only [if_true, Option.some.injEq, and_iff_left_iff_imp]
    rintro rfl
    rfl
  · rw [if_neg ht, Manager.requestOf_eq_some]
    split
    · next hkey =>
      -- another table's request under the key is neither here nor there
      have hreq : ∀ r, m.required t = some r → r.table = req.table := by
        intro r hr
        refine h r ?_
        rwa [Manager.required, hkey]
      constructor
      · rintro ⟨heq, rfl⟩
        obtain rfl := Option.some.inj heq
        exact absurd rfl ht
      · rintro ⟨hr, rfl⟩
        exact absurd (hreq r hr) ht
    · rfl

theorem requestOf_deleteRequiredBackfill {id : Identifier} (h : m.owns id) (t : Identifier) :
    (m.deleteRequiredBackfill id).requestOf t = if t = id then none else m.requestOf t := by
  refine Option.ext fun r => ?_
  rw [Manager.requestOf_eq_some, required_deleteRequiredBackfill]
  by_cases ht : t = id
  · subst ht
    simp
  · rw [if_neg ht, Manager.requestOf_eq_some]
    split
    · next hkey =>
      simp only [reduceCtorEq, false_and, false_iff, not_and]
      rintro hr rfl
      exact ht (h r (by rwa [Manager.required, hkey]))
    · rfl

theorem owns_deleteRequiredBackfill {id t : Identifier} (h : m.owns t) : (m.deleteRequiredBackfill id).owns t := by
  intro r hr
  rw [required_deleteRequiredBackfill] at hr
  split at hr
  · cases hr
  · exact h r hr

@[simp] theorem requiredBackfills_stopRunningBackfill (reason : Option String) (inst : Option ℕ) :
    (m.stopRunningBackfill reason inst).requiredBackfills = m.requiredBackfills := by
  unfold Manager.stopRunningBackfill
  split
  · rfl
  · split <;> rfl

@[simp] theorem requiredBackfills_stopFor (table : Identifier) (reason : String) :
    (m.stopFor table reason).requiredBackfills = m.requiredBackfills := by
  unfold Manager.stopFor
  split <;> simp

@[simp] theorem requiredBackfills_stopForColumn (table : Identifier) (column reason : String) :
    (m.stopForColumn table column reason).requiredBackfills = m.requiredBackfills := by
  unfold Manager.stopForColumn
  split
  · split <;> simp
  · rfl

theorem requestOf_congr {m' : Manager J} (h : m'.requiredBackfills = m.requiredBackfills) (t : Identifier) :
    m'.requestOf t = m.requestOf t := by
  rw [Manager.requestOf, Manager.requestOf, Manager.required, Manager.required, h]

end

/-! ## Table by table -/

/-- What is required of a table is what the cookies remember of it. -/
structure AlikeAt (required : Option (BackfillRequest J)) (s : Cookies J) (t : Identifier) : Prop where
  none : required = none → ∀ col, s.backfilling.get? (t, col) = none
  metadata : ∀ r, required = some r → r.metadata = s.metadata.get? t
  columns : ∀ r, required = some r → ∀ col, r.columns.get? col = (s.backfilling.get? (t, col)).map .id
  nonempty : ∀ r, required = some r → ∃ col v, s.backfilling.get? (t, col) = some v

theorem AlikeAt.of_none {s : Cookies J} {t : Identifier} (h : ∀ col, s.backfilling.get? (t, col) = Option.none) :
    AlikeAt Option.none s t where
  none _ := h
  metadata _ hr := by cases hr
  columns _ hr := by cases hr
  nonempty _ hr := by cases hr

theorem AlikeAt.congr {required : Option (BackfillRequest J)} {s s' : Cookies J} {t : Identifier} (h : AlikeAt required s t)
    (hmetadata : ∀ r, required = some r → s'.metadata.get? t = s.metadata.get? t)
    (hcolumns : ∀ col, s'.backfilling.get? (t, col) = s.backfilling.get? (t, col)) : AlikeAt required s' t where
  none hr col := by rw [hcolumns, h.none hr]
  metadata r hr := by rw [h.metadata r hr, hmetadata r hr]
  columns r hr col := by rw [h.columns r hr, hcolumns]
  nonempty r hr := by
    obtain ⟨col, v, hv⟩ := h.nonempty r hr
    exact ⟨col, v, by rw [hcolumns, hv]⟩

/-- The manager and the cookies, with the tables upstream. -/
structure Alike (tables : List Identifier) (m : Manager J) (s : Cookies J) : Prop where
  keyed : ∀ k r, m.requiredBackfills.get? k = some r → k = tableKey r.table
  alike : ∀ t, AlikeAt (m.requestOf t) s t
  known : ∀ t col v, s.backfilling.get? (t, col) = some v → t ∈ tables
  known_metadata : ∀ t v, s.metadata.get? t = some v → t ∈ tables
  proto : ∀ t, s.backfilling.get? (t, "__proto__") = none

section
variable {tables : List Identifier} {m : Manager J} {s : Cookies J}

theorem Alike.ids_eq_none (h : Alike tables m s) {t : Identifier} (ht : t ∉ tables) (col : String) :
    s.backfilling.get? (t, col) = none :=
  Option.eq_none_iff_forall_not_mem.mpr fun v hv => ht (h.known t col v hv)

theorem Alike.metadata_eq_none (h : Alike tables m s) {t : Identifier} (ht : t ∉ tables) : s.metadata.get? t = none :=
  Option.eq_none_iff_forall_not_mem.mpr fun v hv => ht (h.known_metadata t v hv)

theorem mem_values_iff_requestOf (h : Alike tables m s) {r : BackfillRequest J} :
    r ∈ m.requiredBackfills.values ↔ m.requestOf r.table = some r := by
  rw [OrderedMap.mem_values_iff, Manager.requestOf_eq_some]
  constructor
  · rintro ⟨k, hk⟩
    refine ⟨?_, rfl⟩
    rw [Manager.required, ← h.keyed k r hk, hk]
  · exact fun hr => ⟨_, hr.1⟩

theorem Alike.agree (h : Alike tables m s) : Agree m.requiredBackfills.values (backfillRequestsFrom s.sorted) := by
  obtain ⟨hnodup, htables, hspec⟩ := backfillRequestsFrom_spec s
  have hsame {r r' : BackfillRequest J} (hr : m.requestOf r.table = some r) (hr' : r' ∈ backfillRequestsFrom s.sorted)
      (ht : r'.table = r.table) : SameRequest r r' := by
    obtain ⟨hmetadata, hcolumns⟩ := hspec r' hr'
    refine ⟨ht.symm, by rw [(h.alike r.table).metadata r hr, hmetadata, ht], fun col => ?_⟩
    rw [(h.alike r.table).columns r hr, hcolumns, ht]
    split
    · next hcol => rw [hcol, h.proto, Option.map_none]
    · rfl
  refine ⟨?_, hnodup, fun r hr => ?_, fun r' hr' => ?_⟩
  · refine (List.nodup_map_iff_inj_on ?_).mpr fun r hr r' hr' heq => ?_
    · refine List.Nodup.of_map (fun r => tableKey r.table) ?_
      have hkeys : m.requiredBackfills.values.map (fun r => tableKey r.table) = m.requiredBackfills.keys := by
        rw [OrderedMap.values, OrderedMap.keys, List.map_map]
        exact List.map_congr_left fun e he => (h.keyed e.1 e.2 ((OrderedMap.mem_entries_iff ..).mp he)).symm
      rw [hkeys]
      exact m.requiredBackfills.nodup
    · rw [mem_values_iff_requestOf h] at hr hr'
      rw [heq, hr'] at hr
      exact (Option.some.inj hr).symm
  · rw [mem_values_iff_requestOf h] at hr
    obtain ⟨r', hr', ht⟩ := List.mem_map.mp ((htables r.table).mpr ((h.alike r.table).nonempty r hr))
    exact ⟨r', hr', hsame hr hr' ht⟩
  · obtain ⟨col, v, hv⟩ := (htables r'.table).mp (List.mem_map_of_mem hr')
    cases hr : m.requestOf r'.table with
    | none =>
      rw [(h.alike r'.table).none hr] at hv
      cases hv
    | some r =>
      have ht := (Manager.requestOf_eq_some.mp hr).2
      rw [← ht] at hr
      exact ⟨r, (mem_values_iff_requestOf h).mpr hr, hsame hr hr' ht.symm⟩

end

/-! ## One change -/

section
variable {tables : List Identifier} {m m' : Manager J} {s s' : Cookies J}

theorem Alike.set (h : Alike tables m s) (req : BackfillRequest J) (howns : m.owns req.table)
    (hrequired : m'.requiredBackfills = (m.setRequiredBackfill req).requiredBackfills)
    (hreq : AlikeAt (some req) s' req.table)
    (hother : ∀ t, t ≠ req.table → AlikeAt (m.requestOf t) s' t)
    (hknown : ∀ t col v, s'.backfilling.get? (t, col) = some v → t ∈ tables)
    (hmetadata : ∀ t v, s'.metadata.get? t = some v → t ∈ tables)
    (hproto : ∀ t, s'.backfilling.get? (t, "__proto__") = none) : Alike tables m' s' where
  keyed k r hk := by
    rw [hrequired, Manager.setRequiredBackfill, OrderedMap.get?_set] at hk
    split at hk
    · next heq => rw [← heq, Option.some.inj hk]
    · exact h.keyed k r hk
  alike t := by
    rw [requestOf_congr hrequired, requestOf_setRequiredBackfill howns]
    split
    · next ht => rw [ht]; exact hreq
    · next ht => exact hother t ht
  known := hknown
  known_metadata := hmetadata
  proto := hproto

theorem Alike.delete (h : Alike tables m s) {id : Identifier} (howns : m.owns id)
    (hrequired : m'.requiredBackfills = (m.deleteRequiredBackfill id).requiredBackfills)
    (hid : ∀ col, s'.backfilling.get? (id, col) = none)
    (hother : ∀ t, t ≠ id → AlikeAt (m.requestOf t) s' t) {tables' : List Identifier}
    (hknown : ∀ t col v, s'.backfilling.get? (t, col) = some v → t ∈ tables')
    (hmetadata : ∀ t v, s'.metadata.get? t = some v → t ∈ tables')
    (hproto : ∀ t, s'.backfilling.get? (t, "__proto__") = none) : Alike tables' m' s' where
  keyed k r hk := by
    rw [hrequired, Manager.deleteRequiredBackfill, OrderedMap.get?_erase] at hk
    split at hk
    · cases hk
    · exact h.keyed k r hk
  alike t := by
    rw [requestOf_congr hrequired, requestOf_deleteRequiredBackfill howns]
    split
    · next ht => rw [ht]; exact .of_none hid
    · next ht => exact hother t ht
  known := hknown
  known_metadata := hmetadata
  proto := hproto

theorem Alike.keep (h : Alike tables m s) (hrequired : m'.requiredBackfills = m.requiredBackfills)
    (halike : ∀ t, AlikeAt (m.requestOf t) s' t) {tables' : List Identifier}
    (hknown : ∀ t col v, s'.backfilling.get? (t, col) = some v → t ∈ tables')
    (hmetadata : ∀ t v, s'.metadata.get? t = some v → t ∈ tables')
    (hproto : ∀ t, s'.backfilling.get? (t, "__proto__") = none) : Alike tables' m' s' where
  keyed k r hk := h.keyed k r (by rwa [hrequired] at hk)
  alike t := by
    rw [requestOf_congr hrequired]
    exact halike t
  known := hknown
  known_metadata := hmetadata
  proto := hproto

variable [DecidableEq J]

theorem Alike.updateTableMetadata (h : Alike tables m s) {table : Identifier} {metadata : TableMetadata J} (ht : table ∈ tables)
    (howns : m.owns table) :
    ∃ m', m.onSourceChange (.updateTableMetadata table metadata) = .ok m' ∧
      Alike tables m' (s.change (.source (.updateTableMetadata table metadata))) := by
  have hmetadata (t : Identifier) :
      (s.change (.source (.updateTableMetadata table metadata))).metadata.get? t =
        if table = t then some metadata else s.metadata.get? t := OrderedMap.get?_set ..
  have hknown : ∀ t v, (s.change (.source (.updateTableMetadata table metadata))).metadata.get? t = some v → t ∈ tables := by
    intro t v hv
    rw [hmetadata] at hv
    split at hv
    · next heq => exact heq ▸ ht
    · exact h.known_metadata t v hv
  have hother (t : Identifier) (hne : t ≠ table) :
      AlikeAt (m.requestOf t) (s.change (.source (.updateTableMetadata table metadata))) t :=
    (h.alike t).congr (fun _ _ => by rw [hmetadata, if_neg (Ne.symm hne)]) fun _ => rfl
  have halike := h.alike table
  rw [howns.requestOf] at halike
  rw [Manager.onSourceChange]
  cases hrequired : m.required table with
  | none =>
    refine ⟨m, rfl, h.keep rfl (fun t => ?_) h.known hknown h.proto⟩
    by_cases hne : t = table
    · rw [hne, howns.requestOf, hrequired]
      exact .of_none (halike.none hrequired)
    · exact hother t hne
  | some r =>
    have htable := howns r hrequired
    refine ⟨_, rfl, h.set { r with metadata := some metadata } (by rwa [htable]) (by simp) ?_ ?_ h.known hknown h.proto⟩
    · rw [htable]
      refine ⟨fun h => (by cases h), fun r' hr' => ?_, fun r' hr' => ?_, fun r' _ => halike.nonempty r hrequired⟩
      · rw [← Option.some.inj hr', hmetadata, if_pos rfl]
      · rw [← Option.some.inj hr']
        exact halike.columns r hrequired
    · intro t hne
      exact hother t (by rwa [htable] at hne)

theorem Alike.dropTable (h : Alike tables m s) {id : Identifier} (howns : m.owns id) :
    ∃ m', m.onSourceChange (.dropTable id) = .ok m' ∧
      Alike (tables.filter (· ≠ id)) m' (s.change (.source (.dropTable id))) := by
  have hids (t : Identifier) (col : String) :
      (s.change (.source (.dropTable id))).backfilling.get? (t, col) = if t = id then none else s.backfilling.get? (t, col) :=
    Cookies.get?_dropTable s id t col
  have hmetadata (t : Identifier) :
      (s.change (.source (.dropTable id))).metadata.get? t = if id = t then none else s.metadata.get? t := OrderedMap.get?_erase ..
  have hknown (t : Identifier) (col : String) (v : J)
      (hv : (s.change (.source (.dropTable id))).backfilling.get? (t, col) = some v) : t ∈ tables.filter (· ≠ id) := by
    rw [hids] at hv
    split at hv
    · cases hv
    · next hne => exact List.mem_filter.mpr ⟨h.known t col v hv, by simpa using hne⟩
  have hknown' (t : Identifier) (v : TableMetadata J)
      (hv : (s.change (.source (.dropTable id))).metadata.get? t = some v) : t ∈ tables.filter (· ≠ id) := by
    rw [hmetadata] at hv
    split at hv
    · cases hv
    · next hne => exact List.mem_filter.mpr ⟨h.known_metadata t v hv, by simpa using Ne.symm hne⟩
  have hproto (t : Identifier) : (s.change (.source (.dropTable id))).backfilling.get? (t, "__proto__") = none := by
    rw [hids, h.proto]
    split <;> rfl
  have hother (t : Identifier) (hne : t ≠ id) : AlikeAt (m.requestOf t) (s.change (.source (.dropTable id))) t :=
    (h.alike t).congr (fun _ _ => by rw [hmetadata, if_neg (Ne.symm hne)]) fun col => by rw [hids, if_neg hne]
  have hid (col : String) : (s.change (.source (.dropTable id))).backfilling.get? (id, col) = none := by
    rw [hids, if_pos rfl]
  rw [Manager.onSourceChange]
  cases hrequired : m.required id with
  | none =>
    refine ⟨m, rfl, h.keep rfl (fun t => ?_) hknown hknown' hproto⟩
    by_cases hne : t = id
    · rw [hne, howns.requestOf, hrequired]
      exact .of_none hid
    · exact hother t hne
  | some r => exact ⟨_, rfl, h.delete howns (by simp) hid hother hknown hknown' hproto⟩

theorem Alike.renameTable (h : Alike tables m s) {old new : Identifier} (hold : old ∈ tables) (hnew : new ∉ tables)
    (howns : m.owns old) (hownsNew : (m.required old).isSome → m.owns new) :
    ∃ m', m.onSourceChange (.renameTable old new) = .ok m' ∧
      Alike (new :: tables.filter (· ≠ old)) m' (s.change (.source (.renameTable old new))) := by
  have hne : old ≠ new := fun heq => hnew (heq ▸ hold)
  have hids (t : Identifier) (col : String) : (s.change (.source (.renameTable old new))).backfilling.get? (t, col) =
      if t = new then s.backfilling.get? (old, col) else if t = old then none else s.backfilling.get? (t, col) :=
    Cookies.get?_renameTable (h.ids_eq_none hnew) t col
  have hmetadata (t : Identifier) : (s.change (.source (.renameTable old new))).metadata.get? t =
      if t = new then s.metadata.get? old else if t = old then none else s.metadata.get? t :=
    Cookies.metadata_renameTable (h.metadata_eq_none hnew) t
  have hmem {t : Identifier} (ht : t ∈ tables) (hne : t ≠ old) : t ∈ new :: tables.filter (· ≠ old) :=
    List.mem_cons_of_mem _ (List.mem_filter.mpr ⟨ht, by simpa using hne⟩)
  have hknown (t : Identifier) (col : String) (v : J)
      (hv : (s.change (.source (.renameTable old new))).backfilling.get? (t, col) = some v) :
      t ∈ new :: tables.filter (· ≠ old) := by
    rw [hids] at hv
    split at hv
    · next ht => exact ht ▸ List.mem_cons_self ..
    · split at hv
      · cases hv
      · next hne => exact hmem (h.known t col v hv) hne
  have hknown' (t : Identifier) (v : TableMetadata J)
      (hv : (s.change (.source (.renameTable old new))).metadata.get? t = some v) : t ∈ new :: tables.filter (· ≠ old) := by
    rw [hmetadata] at hv
    split at hv
    · next ht => exact ht ▸ List.mem_cons_self ..
    · split at hv
      · cases hv
      · next hne => exact hmem (h.known_metadata t v hv) hne
  have hproto (t : Identifier) : (s.change (.source (.renameTable old new))).backfilling.get? (t, "__proto__") = none := by
    rw [hids, h.proto, h.proto]
    split
    · rfl
    · split <;> rfl
  have hother (t : Identifier) (hnew : t ≠ new) (hold : t ≠ old) :
      AlikeAt (m.requestOf t) (s.change (.source (.renameTable old new))) t :=
    (h.alike t).congr (fun _ _ => by rw [hmetadata, if_neg hnew, if_neg hold])
      fun col => by rw [hids, if_neg hnew, if_neg hold]
  have hgone (col : String) : (s.change (.source (.renameTable old new))).backfilling.get? (old, col) = none := by
    rw [hids, if_neg hne, if_pos rfl]
  have halike := h.alike old
  rw [howns.requestOf] at halike
  have hrequestNew : m.requestOf new = none := by
    cases hr : m.requestOf new with
    | none => rfl
    | some r =>
      obtain ⟨col, v, hv⟩ := (h.alike new).nonempty r hr
      rw [h.ids_eq_none hnew] at hv
      cases hv
  rw [Manager.onSourceChange]
  cases hrequired : m.required old with
  | none =>
    refine ⟨m, rfl, h.keep rfl (fun t => ?_) hknown hknown' hproto⟩
    by_cases ht : t = new
    · rw [ht, hrequestNew]
      refine .of_none fun col => ?_
      rw [hids, if_pos rfl, halike.none hrequired]
    · by_cases ht' : t = old
      · rw [ht', howns.requestOf, hrequired]
        exact .of_none hgone
      · exact hother t ht ht'
  | some r =>
    have hownsNew : (m.deleteRequiredBackfill old).owns new := owns_deleteRequiredBackfill (hownsNew (by rw [hrequired]; rfl))
    have hset (t : Identifier) : ((m.deleteRequiredBackfill old).setRequiredBackfill { r with table := new }).requestOf t = _ :=
      requestOf_setRequiredBackfill hownsNew t
    refine ⟨_, rfl, fun k r' hk => ?_, fun t => ?_, hknown, hknown', hproto⟩
    · rw [requiredBackfills_stopFor, Manager.setRequiredBackfill, OrderedMap.get?_set] at hk
      split at hk
      · next heq => rw [← heq, ← Option.some.inj hk]
      · rw [Manager.deleteRequiredBackfill, OrderedMap.get?_erase] at hk
        split at hk
        · cases hk
        · exact h.keyed k r' hk
    · rw [requestOf_congr (requiredBackfills_stopFor ..), hset, requestOf_deleteRequiredBackfill howns]
      dsimp only
      split
      · next ht =>
        rw [ht]
        refine ⟨fun h => (by cases h), fun r' hr' => ?_, fun r' hr' col => ?_, fun r' _ => ?_⟩
        · rw [← Option.some.inj hr', hmetadata, if_pos rfl]
          exact halike.metadata r hrequired
        · rw [← Option.some.inj hr', hids, if_pos rfl]
          exact halike.columns r hrequired col
        · obtain ⟨col, v, hv⟩ := halike.nonempty r hrequired
          exact ⟨col, v, by rw [hids, if_pos rfl, hv]⟩
      · next ht =>
        split
        · next ht' => rw [ht']; exact .of_none hgone
        · next ht' => exact hother t ht ht'

theorem Alike.createTable (h : Alike tables m s) {table : Identifier} {metadata : Option (TableMetadata J)}
    {backfill : Option (JSONRecord J)} (ht : table ∉ tables)
    (hbackfill : ∀ columns, backfill = some columns →
      m.owns table ∧ columns.entries ≠ [] ∧ columns.get? "__proto__" = none) :
    ∃ m', m.onSourceChange (.createTable table metadata backfill) = .ok m' ∧
      Alike (table :: tables) m' (s.change (.source (.createTable table metadata backfill))) := by
  let s₁ : Cookies J := (metadata.map (CookieOp.upsertMetadata table)).toList.foldl Cookies.apply s
  have hids₁ : s₁.backfilling = s.backfilling := by cases metadata <;> rfl
  have hmetadata₁ (t : Identifier) : s₁.metadata.get? t = if table = t then metadata else s.metadata.get? t := by
    cases metadata with
    | none =>
      show s.metadata.get? t = _
      split
      · next heq => rw [← heq, h.metadata_eq_none ht]
      · rfl
    | some metadata => exact OrderedMap.get?_set ..
  have hchange : s.change (.source (.createTable table metadata backfill)) =
      (((backfill.map (·.entries)).getD []).map fun e => CookieOp.upsertBackfill table e.1 e.2).foldl Cookies.apply s₁ := by
    rw [Cookies.change, cookieOps, List.foldl_append]
  have hmetadata (t : Identifier) : (s.change (.source (.createTable table metadata backfill))).metadata.get? t =
      if table = t then metadata else s.metadata.get? t := by
    rw [hchange, Cookies.metadata_upsertBackfills, hmetadata₁]
  have hids (t : Identifier) (col : String) : (s.change (.source (.createTable table metadata backfill))).backfilling.get? (t, col) =
      if t = table then (backfill.bind fun columns => columns.get? col) else s.backfilling.get? (t, col) := by
    have hnodup : (((backfill.map (·.entries)).getD []).map (·.1)).Nodup := by
      cases backfill with
      | none => exact List.nodup_nil
      | some columns => exact columns.nodup
    rw [hchange, Cookies.get?_upsertBackfills table t col _ _ hnodup, hids₁]
    split
    · next heq =>
      rw [heq, h.ids_eq_none ht, Option.or_none]
      cases backfill <;> rfl
    · rfl
  have hknown (t : Identifier) (col : String) (v : J)
      (hv : (s.change (.source (.createTable table metadata backfill))).backfilling.get? (t, col) = some v) :
      t ∈ table :: tables := by
    rw [hids] at hv
    split at hv
    · next heq => exact heq ▸ List.mem_cons_self ..
    · exact List.mem_cons_of_mem _ (h.known t col v hv)
  have hknown' (t : Identifier) (v : TableMetadata J)
      (hv : (s.change (.source (.createTable table metadata backfill))).metadata.get? t = some v) : t ∈ table :: tables := by
    rw [hmetadata] at hv
    split at hv
    · next heq => exact heq ▸ List.mem_cons_self ..
    · exact List.mem_cons_of_mem _ (h.known_metadata t v hv)
  have hproto (t : Identifier) :
      (s.change (.source (.createTable table metadata backfill))).backfilling.get? (t, "__proto__") = none := by
    rw [hids, h.proto]
    cases backfill with
    | none => split <;> rfl
    | some columns =>
      rw [Option.bind_some, (hbackfill columns rfl).2.2]
      split <;> rfl
  have hother (t : Identifier) (hne : t ≠ table) :
      AlikeAt (m.requestOf t) (s.change (.source (.createTable table metadata backfill))) t :=
    (h.alike t).congr (fun _ _ => by rw [hmetadata, if_neg (Ne.symm hne)]) fun col => by rw [hids, if_neg hne]
  cases backfill with
  | none =>
    refine ⟨m, rfl, h.keep rfl (fun t => ?_) hknown hknown' hproto⟩
    by_cases hne : t = table
    · subst hne
      refine (h.alike t).congr (fun r hr => ?_) fun col => by rw [hids, if_pos rfl, h.ids_eq_none ht]; rfl
      obtain ⟨col, v, hv⟩ := (h.alike t).nonempty r hr
      rw [h.ids_eq_none ht] at hv
      cases hv
    · exact hother t hne
  | some columns =>
    obtain ⟨howns, hnonempty, -⟩ := hbackfill columns rfl
    refine ⟨_, rfl, fun k r hk => ?_, fun t => ?_, hknown, hknown', hproto⟩
    · rw [Manager.setRequiredBackfill, OrderedMap.get?_set] at hk
      split at hk
      · next heq => rw [← heq, ← Option.some.inj hk]
      · exact h.keyed k r hk
    · rw [requestOf_setRequiredBackfill howns]
      dsimp only
      split
      · next heq =>
        subst heq
        refine ⟨fun h => (by cases h), fun r hr => ?_, fun r hr col => ?_, fun r _ => ?_⟩
        · rw [← Option.some.inj hr, hmetadata, if_pos rfl]
        · rw [← Option.some.inj hr, hids, if_pos rfl]
          exact OrderedMap.get?_mapValues ..
        · obtain ⟨⟨col, v⟩, he⟩ := List.exists_mem_of_ne_nil _ hnonempty
          refine ⟨col, v, ?_⟩
          rw [hids, if_pos rfl]
          exact (OrderedMap.mem_entries_iff ..).mp he
      · next hne => exact hother t hne

theorem Alike.addColumn (h : Alike tables m s) {table : Identifier} {column : String} {tableMetadata : Option (TableMetadata J)}
    {backfill : Option J} (ht : table ∈ tables) (hkept : KeptAlike m s (.source (.addColumn table column tableMetadata backfill))) :
    ∃ m', m.onSourceChange (.addColumn table column tableMetadata backfill) = .ok m' ∧
      Alike tables m' (s.change (.source (.addColumn table column tableMetadata backfill))) := by
  have hmetadata (t : Identifier) : (s.change (.source (.addColumn table column tableMetadata backfill))).metadata.get? t =
      if table = t then tableMetadata.or (s.metadata.get? t) else s.metadata.get? t := by
    cases tableMetadata with
    | none => cases backfill <;> simp [Cookies.change, cookieOps, Cookies.apply]
    | some metadata => cases backfill <;> simp [Cookies.change, cookieOps, Cookies.apply, OrderedMap.get?_set]
  have hids (t : Identifier) (col : String) :
      (s.change (.source (.addColumn table column tableMetadata backfill))).backfilling.get? (t, col) =
        if t = table ∧ col = column then backfill.or (s.backfilling.get? (t, col)) else s.backfilling.get? (t, col) := by
    cases backfill with
    | none => cases tableMetadata <;> simp [Cookies.change, cookieOps, Cookies.apply]
    | some id =>
      cases tableMetadata <;>
        simp [Cookies.change, cookieOps, Cookies.apply, OrderedMap.get?_set, eq_comm]
  have hknown (t : Identifier) (col : String) (v : J)
      (hv : (s.change (.source (.addColumn table column tableMetadata backfill))).backfilling.get? (t, col) = some v) :
      t ∈ tables := by
    rw [hids] at hv
    split at hv
    · next heq => exact heq.1 ▸ ht
    · exact h.known t col v hv
  have hknown' (t : Identifier) (v : TableMetadata J)
      (hv : (s.change (.source (.addColumn table column tableMetadata backfill))).metadata.get? t = some v) : t ∈ tables := by
    rw [hmetadata] at hv
    split at hv
    · next heq => exact heq ▸ ht
    · exact h.known_metadata t v hv
  have hother (t : Identifier) (hne : t ≠ table) :
      AlikeAt (m.requestOf t) (s.change (.source (.addColumn table column tableMetadata backfill))) t :=
    (h.alike t).congr (fun _ _ => by rw [hmetadata, if_neg (Ne.symm hne)])
      fun col => by rw [hids, if_neg fun heq => hne heq.1]
  have halike := h.alike table
  cases backfill with
  | none =>
    refine ⟨m, rfl, h.keep rfl (fun t => ?_) hknown hknown' fun t => ?_⟩
    · by_cases hne : t = table
      · subst hne
        refine halike.congr (fun r hr => ?_) fun col => by rw [hids]; split <;> simp
        rw [hmetadata, if_pos rfl]
        cases tableMetadata with
        | none => rfl
        | some metadata => rw [← halike.metadata r hr, hkept metadata rfl r hr, Option.some_or]
      · exact hother t hne
    · rw [hids, h.proto]
      split <;> rfl
  | some id =>
    obtain ⟨howns, hproto, hnone⟩ : m.owns table ∧ column ≠ "__proto__" ∧ (tableMetadata = none → s.metadata.get? table = none) :=
      hkept
    rw [howns.requestOf] at halike
    have hproto' (t : Identifier) :
        (s.change (.source (.addColumn table column tableMetadata (some id)))).backfilling.get? (t, "__proto__") = none := by
      rw [hids, if_neg fun heq => hproto heq.2.symm, h.proto]
    have hmeta : tableMetadata = tableMetadata.or (s.metadata.get? table) := by
      cases tableMetadata with
      | none => rw [Option.none_or, hnone rfl]
      | some metadata => rfl
    have hid : (s.change (.source (.addColumn table column tableMetadata (some id)))).backfilling.get? (table, column) = some id := by
      rw [hids, if_pos ⟨rfl, rfl⟩, Option.some_or]
    rw [Manager.onSourceChange]
    cases hrequired : m.required table with
    | none =>
      refine ⟨_, rfl, h.set { table, metadata := tableMetadata, columns := OrderedMap.ofList [(column, .id id)] } howns rfl
        ⟨fun h => (by cases h), fun r hr => ?_, fun r hr col => ?_, fun r _ => ⟨column, id, hid⟩⟩ hother hknown hknown' hproto'⟩
      · rw [← Option.some.inj hr, hmetadata, if_pos rfl]
        exact hmeta
      · rw [← Option.some.inj hr, hids, halike.none hrequired]
        show (OrderedMap.ofList [(column, ColumnID.id id)]).get? col = _
        rw [OrderedMap.get?_ofList]
        by_cases hcol : col = column
        · simp [hcol]
        · simp [hcol, Ne.symm hcol]
    | some r =>
      have htable := howns r hrequired
      refine ⟨_, rfl, h.set { r with metadata := tableMetadata, columns := r.columns.set column (.id id) } (by rwa [htable]) rfl
        ?_ (fun t hne => hother t (by rwa [htable] at hne)) hknown hknown' hproto'⟩
      rw [htable]
      refine ⟨fun h => (by cases h), fun r' hr' => ?_, fun r' hr' col => ?_, fun r' _ => ⟨column, id, hid⟩⟩
      · rw [← Option.some.inj hr', hmetadata, if_pos rfl]
        exact hmeta
      · rw [← Option.some.inj hr', hids, OrderedMap.get?_set, halike.columns r hrequired]
        by_cases hcol : col = column
        · simp [hcol]
        · simp [hcol, Ne.symm hcol]

omit [DecidableEq J] in
theorem Columns.property_of_get? {columns : Columns J} {name : String} {v : ColumnID J} (h : columns.get? name = some v) :
    columns.property name = some v := by
  rw [Columns.property, h]

omit [DecidableEq J] in
theorem Columns.property_eq_none {columns : Columns J} {name : String} (h : columns.get? name = none)
    (hproto : name ∉ objectPrototype) : columns.property name = none := by
  rw [Columns.property, h]
  exact if_neg hproto

theorem Alike.updateColumn (h : Alike tables m s) {table : Identifier} {old new : String} (ht : table ∈ tables)
    (hkept : KeptAlike m s (.source (.updateColumn table old new))) :
    ∃ m', m.onSourceChange (.updateColumn table old new) = .ok m' ∧
      Alike tables m' (s.change (.source (.updateColumn table old new))) := by
  by_cases hname : old = new
  · refine ⟨m, by rw [Manager.onSourceChange, if_pos hname], ?_⟩
    have hchange : s.change (.source (.updateColumn table old new)) = s := by simp [Cookies.change, cookieOps, hname]
    rwa [hchange]
  obtain ⟨howns, hcolumns⟩ := hkept hname
  have hchange : s.change (.source (.updateColumn table old new)) = s.apply (.renameColumn table old new) := by
    simp [Cookies.change, cookieOps, hname]
  have halike := h.alike table
  rw [howns.requestOf] at halike
  rw [Manager.onSourceChange, if_neg hname, hchange]
  cases hid : s.backfilling.get? (table, old) with
  | none =>
    -- nothing is remembered of the column, and nothing required
    have hsame : s.apply (.renameColumn table old new) = s := by rw [Cookies.apply, hid]
    rw [hsame]
    cases hrequired : m.required table with
    | none => exact ⟨m, rfl, h⟩
    | some r =>
      have hget : r.columns.get? old = none := by rw [halike.columns r hrequired, hid, Option.map_none]
      refine ⟨m, ?_, h⟩
      dsimp only
      rw [Columns.property_eq_none hget ((hcolumns r hrequired).1 hget)]
  | some moved =>
    cases hrequired : m.required table with
    | none =>
      rw [halike.none hrequired] at hid
      cases hid
    | some r =>
      have htable := howns r hrequired
      have hget : r.columns.get? old = some (.id moved) := by rw [halike.columns r hrequired, hid, Option.map_some]
      have hproto := (hcolumns r hrequired).2 (by rw [hget]; exact Option.some_ne_none _)
      have hids (t : Identifier) (col : String) : (s.apply (.renameColumn table old new)).backfilling.get? (t, col) =
          if t = table ∧ col = new then some moved
          else if t = table ∧ col = old then none else s.backfilling.get? (t, col) := by
        rw [Cookies.get?_renameColumn, hid]
      have hmetadata : (s.apply (.renameColumn table old new)).metadata = s.metadata := by rw [Cookies.apply, hid]
      dsimp only
      rw [Columns.property_of_get? hget]
      refine ⟨_, rfl, h.set { r with columns := (r.columns.erase old).set new (.id moved) } (by rwa [htable]) (by simp)
        ?_ (fun t hne => ?_) (fun t col v hv => ?_) (fun t v hv => ?_) fun t => ?_⟩
      · rw [htable]
        refine ⟨fun h => (by cases h), fun r' hr' => ?_, fun r' hr' col => ?_, fun r' _ => ⟨new, moved, by rw [hids, if_pos ⟨rfl, rfl⟩]⟩⟩
        · rw [← Option.some.inj hr', hmetadata]
          exact halike.metadata r hrequired
        · rw [← Option.some.inj hr', hids, OrderedMap.get?_set, OrderedMap.get?_erase, halike.columns r hrequired]
          by_cases hnew : col = new
          · simp [hnew]
          · by_cases hold : col = old
            · subst hold
              simp [hnew, Ne.symm hnew]
            · simp [hnew, hold, Ne.symm hnew, Ne.symm hold]
      · rw [htable] at hne
        exact (h.alike t).congr (fun _ _ => by rw [hmetadata])
          fun col => by rw [hids, if_neg fun heq => hne heq.1, if_neg fun heq => hne heq.1]
      · rw [hids] at hv
        split at hv
        · next heq => exact heq.1 ▸ ht
        · split at hv
          · cases hv
          · exact h.known t col v hv
      · rw [hmetadata] at hv
        exact h.known_metadata t v hv
      · rw [hids, if_neg fun heq => hproto heq.2.symm, h.proto]
        split <;> rfl

omit [DecidableEq J] in
theorem Alike.shrink (h : Alike tables m s) {table : Identifier} {r : BackfillRequest J} (howns : m.owns table)
    (hrequired : m.required table = some r) (remaining : Columns J)
    (hset : m'.requiredBackfills =
      (if remaining.entries = [] then m.deleteRequiredBackfill table
        else m.setRequiredBackfill { r with columns := remaining }).requiredBackfills)
    (hremaining : ∀ col, remaining.get? col = (s'.backfilling.get? (table, col)).map .id)
    (hmetadata : s'.metadata = s.metadata)
    (hother : ∀ t, t ≠ table → ∀ col, s'.backfilling.get? (t, col) = s.backfilling.get? (t, col))
    (hless : ∀ t col, s'.backfilling.get? (t, col) = none ∨ s'.backfilling.get? (t, col) = s.backfilling.get? (t, col)) :
    Alike tables m' s' := by
  have htable := howns r hrequired
  have hknown (t : Identifier) (col : String) (v : J) (hv : s'.backfilling.get? (t, col) = some v) : t ∈ tables := by
    rcases hless t col with hnone | hsame
    · rw [hnone] at hv
      cases hv
    · exact h.known t col v (hsame ▸ hv)
  have hknown' (t : Identifier) (v : TableMetadata J) (hv : s'.metadata.get? t = some v) : t ∈ tables :=
    h.known_metadata t v (hmetadata ▸ hv)
  have hproto (t : Identifier) : s'.backfilling.get? (t, "__proto__") = none := by
    rcases hless t "__proto__" with hnone | hsame
    · exact hnone
    · rw [hsame, h.proto]
  have halike (t : Identifier) (hne : t ≠ table) : AlikeAt (m.requestOf t) s' t :=
    (h.alike t).congr (fun _ _ => by rw [hmetadata]) (hother t hne)
  split at hset
  · next hempty =>
    refine h.delete howns hset (fun col => ?_) halike hknown hknown' hproto
    have hcol := hremaining col
    rw [OrderedMap.get?, hempty] at hcol
    exact Option.map_eq_none_iff.mp hcol.symm
  · next hempty =>
    refine h.set { r with columns := remaining } (by rwa [htable]) hset ?_ (by rwa [htable]) hknown hknown' hproto
    rw [htable]
    refine ⟨fun h => (by cases h), fun r' hr' => ?_, fun r' hr' col => ?_, fun r' _ => ?_⟩
    · rw [← Option.some.inj hr', hmetadata, ← (h.alike table).metadata r (howns.requestOf.trans hrequired)]
    · rw [← Option.some.inj hr']
      exact hremaining col
    · obtain ⟨⟨col, v⟩, he⟩ := List.exists_mem_of_ne_nil _ hempty
      have hv := (OrderedMap.mem_entries_iff ..).mp he
      rw [hremaining, Option.map_eq_some_iff] at hv
      obtain ⟨id, hid, -⟩ := hv
      exact ⟨col, id, hid⟩

theorem Alike.dropColumn (h : Alike tables m s) {table : Identifier} {column : String} (howns : m.owns table) :
    ∃ m', m.onSourceChange (.dropColumn table column) = .ok m' ∧
      Alike tables m' (s.change (.source (.dropColumn table column))) := by
  have hids (t : Identifier) (col : String) : (s.change (.source (.dropColumn table column))).backfilling.get? (t, col) =
      if t = table ∧ col = column then none else s.backfilling.get? (t, col) := Cookies.get?_dropColumn s table t column col
  have hmetadata : (s.change (.source (.dropColumn table column))).metadata = s.metadata := rfl
  have hother (t : Identifier) (hne : t ≠ table) (col : String) :
      (s.change (.source (.dropColumn table column))).backfilling.get? (t, col) = s.backfilling.get? (t, col) := by
    rw [hids, if_neg fun heq => hne heq.1]
  have hless (t : Identifier) (col : String) : (s.change (.source (.dropColumn table column))).backfilling.get? (t, col) = none ∨
      (s.change (.source (.dropColumn table column))).backfilling.get? (t, col) = s.backfilling.get? (t, col) := by
    rw [hids]
    split
    · exact .inl rfl
    · exact .inr rfl
  have halike := h.alike table
  rw [howns.requestOf] at halike
  -- without the column there is nothing to change
  have hsame (hnone : s.backfilling.get? (table, column) = none) :
      ∀ t col, (s.change (.source (.dropColumn table column))).backfilling.get? (t, col) = s.backfilling.get? (t, col) := by
    intro t col
    rw [hids]
    split
    · next heq => rw [heq.1, heq.2, hnone]
    · rfl
  have hunchanged (hnone : s.backfilling.get? (table, column) = none) :
      Alike tables m (s.change (.source (.dropColumn table column))) :=
    h.keep rfl (fun t => (h.alike t).congr (fun _ _ => by rw [hmetadata]) (hsame hnone t))
      (fun t col v hv => h.known t col v (hsame hnone t col ▸ hv)) h.known_metadata
      fun t => (hsame hnone t "__proto__").trans (h.proto t)
  rw [Manager.onSourceChange]
  cases hrequired : m.required table with
  | none => exact ⟨m, rfl, hunchanged (halike.none hrequired column)⟩
  | some r =>
    dsimp only
    cases hproperty : r.columns.property column with
    | none =>
      refine ⟨m, rfl, hunchanged ?_⟩
      have hget := halike.columns r hrequired column
      cases hid : s.backfilling.get? (table, column) with
      | none => rfl
      | some id =>
        rw [hid, Option.map_some] at hget
        rw [Columns.property_of_get? hget] at hproperty
        cases hproperty
    | some v =>
      refine ⟨_, rfl, h.shrink howns hrequired (r.columns.erase column) (by simp) (fun col => ?_) hmetadata hother hless⟩
      rw [OrderedMap.get?_erase, hids, halike.columns r hrequired]
      by_cases hcol : col = column
      · simp [hcol]
      · simp [hcol, Ne.symm hcol]

omit [DecidableEq J] in
theorem Alike.completed (h : Alike tables m s) {relation : Relation} {columns : List String} {watermark : Watermark}
    (hrequested : ∃ col v, s.backfilling.get? (relation.id, col) = some v) (howns : m.owns relation.id) :
    ∃ m', m.onBackfillMessage (.completed relation columns watermark) = .ok m' ∧
      Alike tables m' (s.change (.backfill (.completed relation columns watermark))) := by
  have hids (t : Identifier) (col : String) :
      (s.change (.backfill (.completed relation columns watermark))).backfilling.get? (t, col) =
        if t = relation.id ∧ (col ∈ relation.rowKeyColumns ∨ col ∈ columns) then none else s.backfilling.get? (t, col) := by
    rw [Cookies.change, cookieOps]
    by_cases hempty : relation.rowKeyColumns ++ columns = []
    · obtain ⟨hkey, hcolumns⟩ := List.append_eq_nil_iff.mp hempty
      simp [hkey, hcolumns]
    · rw [if_neg hempty, List.foldl_cons, List.foldl_nil, Cookies.get?_completeBackfill]
      simp only [List.mem_append]
  have hmetadata : (s.change (.backfill (.completed relation columns watermark))).metadata = s.metadata := by
    rw [Cookies.change, cookieOps]
    by_cases hempty : relation.rowKeyColumns ++ columns = []
    · rw [if_pos hempty, List.foldl_nil]
    · rw [if_neg hempty, List.foldl_cons, List.foldl_nil, Cookies.metadata_completeBackfill]
  have halike := h.alike relation.id
  rw [howns.requestOf] at halike
  rw [Manager.onBackfillMessage]
  cases hrequired : m.required relation.id with
  | none =>
    obtain ⟨col, v, hv⟩ := hrequested
    rw [halike.none hrequired] at hv
    cases hv
  | some r =>
    have hnodup : ((r.columns.entries.filter fun e =>
        !(columns.contains e.1 || relation.rowKeyColumns.contains e.1)).map (·.1)).Nodup :=
      (List.filter_sublist.map _).nodup r.columns.nodup
    refine ⟨_, rfl, h.shrink howns hrequired (OrderedMap.ofList (r.columns.entries.filter fun e =>
      !(columns.contains e.1 || relation.rowKeyColumns.contains e.1))) ?_ (fun col => Option.ext fun v => ?_) hmetadata
      (fun t hne col => by rw [hids, if_neg fun heq => hne heq.1]) fun t col => ?_⟩
    · rw [requiredBackfills_stopRunningBackfill, OrderedMap.entries_ofList hnodup]
    · rw [← OrderedMap.mem_entries_iff, OrderedMap.entries_ofList hnodup, List.mem_filter, OrderedMap.mem_entries_iff,
        halike.columns r hrequired, hids]
      by_cases hcleared : col ∈ relation.rowKeyColumns ∨ col ∈ columns
      · rw [if_pos ⟨rfl, hcleared⟩]
        rcases hcleared with hcol | hcol <;> simp [hcol]
      · rw [if_neg fun heq => hcleared heq.2]
        obtain ⟨hkey, hcolumn⟩ := not_or.mp hcleared
        simp [hkey, hcolumn]
    · rw [hids]
      split
      · exact .inl rfl
      · exact .inr rfl

/-- **A change that is kept alike** leaves the manager and the cookies alike. -/
theorem Alike.step (h : Alike tables m s) {c : DataChange J} (hvalid : ValidFor tables s c) (hkept : KeptAlike m s c) (pick : ℕ) :
    ∃ m', m.onChange pick (.data c) = .ok m' ∧ Alike (tablesAfter tables c) m' (s.change c) := by
  match c with
  | .source (.createTable ..) => exact h.createTable hvalid hkept
  | .source (.renameTable ..) => exact h.renameTable hvalid.1 hvalid.2 hkept.1 hkept.2
  | .source (.updateTableMetadata ..) => exact h.updateTableMetadata hvalid hkept
  | .source (.addColumn ..) => exact h.addColumn hvalid hkept
  | .source (.updateColumn ..) => exact h.updateColumn hvalid hkept
  | .source (.dropColumn ..) => exact h.dropColumn hkept
  | .source (.dropTable ..) => exact h.dropTable hkept
  | .source .other => exact ⟨m, rfl, h⟩
  | .backfill (.completed ..) => exact h.completed hvalid hkept

/-- Each change is valid for the tables upstream, and kept alike in the state before it. -/
def EachKeptAlike (pick : ℕ) : List Identifier → Manager J → Cookies J → List (DataChange J) → Prop
  | _, _, _, [] => True
  | tables, m, s, c :: changes =>
    ValidFor tables s c ∧ KeptAlike m s c ∧
      ∀ m', m.onChange pick (.data c) = .ok m' → EachKeptAlike pick (tablesAfter tables c) m' (s.change c) changes

theorem Alike.run {pick : ℕ} : ∀ {changes : List (DataChange J)} {tables : List Identifier} {m : Manager J} {s : Cookies J},
    Alike tables m s → EachKeptAlike pick tables m s changes →
      ∃ m', changes.foldlM (fun m c => m.onChange pick (.data c)) m = .ok m' ∧
        ∃ tables', Alike tables' m' (changes.foldl Cookies.change s)
  | [], tables, m, _, h, _ => ⟨m, rfl, tables, h⟩
  | c :: changes, tables, m, s, h, ⟨hvalid, hkept, hrest⟩ => by
    obtain ⟨m₁, hm₁, h₁⟩ := h.step hvalid hkept pick
    obtain ⟨m', hm', h'⟩ := h₁.run (hrest m₁ hm₁)
    refine ⟨m', ?_, h'⟩
    rw [List.foldlM_cons, hm₁]
    exact hm'

/-! ## Whole runs -/

/-- A request is stored under the key of its table. -/
def Manager.Keyed (m : Manager J) : Prop := ∀ k r, m.requiredBackfills.get? k = some r → k = tableKey r.table

omit [DecidableEq J] in
theorem Alike.start {cookies : CookieSet J} (hkeyed : m.Keyed)
    (hagree : Agree m.requiredBackfills.values (backfillRequestsFrom (foldCookies cookies [])))
    (hmetadata : ∀ c ∈ cookies.tableMetadata, c.table ∈ tables)
    (hbackfilling : ∀ c ∈ cookies.backfilling, c.table ∈ tables ∧ c.column ≠ "__proto__") :
    Alike tables m (.of cookies) := by
  have hmem (t : Identifier) (col : String) (v : J) (hv : (Cookies.of cookies).backfilling.get? (t, col) = some v) :
      t ∈ tables ∧ col ≠ "__proto__" := by
    rw [Cookies.of, OrderedMap.get?_ofList, Option.map_eq_some_iff] at hv
    obtain ⟨e, he, -⟩ := hv
    have hkey := List.find?_some he
    obtain ⟨c, hc, rfl⟩ := List.mem_map.mp (List.mem_reverse.mp (List.mem_of_find?_eq_some he))
    obtain ⟨rfl, rfl⟩ := Prod.mk.inj (of_decide_eq_true hkey)
    exact hbackfilling c hc
  have hvalues (r : BackfillRequest J) (hr : m.requestOf r.table = some r) : r ∈ m.requiredBackfills.values :=
    (OrderedMap.mem_values_iff ..).mpr ⟨_, (Manager.requestOf_eq_some.mp hr).1⟩
  have hrequest (r : BackfillRequest J) (hr : r ∈ m.requiredBackfills.values) : m.requestOf r.table = some r := by
    obtain ⟨k, hk⟩ := (OrderedMap.mem_values_iff ..).mp hr
    rw [Manager.requestOf_eq_some, Manager.required, ← hkeyed k r hk]
    exact ⟨hk, rfl⟩
  have hcols (t : Identifier) (col : String) :
      (if col = "__proto__" then none else ((Cookies.of cookies).backfilling.get? (t, col)).map ColumnID.id) =
        ((Cookies.of cookies).backfilling.get? (t, col)).map ColumnID.id := by
    split
    · next hcol =>
      cases hv : (Cookies.of cookies).backfilling.get? (t, col) with
      | none => rfl
      | some v => exact absurd hcol (hmem t col v hv).2
    · rfl
  obtain ⟨-, htables, hspec⟩ := backfillRequestsFrom_spec (Cookies.of cookies)
  refine ⟨hkeyed, fun t => ?_, fun t col v hv => (hmem t col v hv).1, fun t v hv => ?_, fun t => ?_⟩
  · have hsame (r : BackfillRequest J) (hr : m.requestOf t = some r) :
        r.metadata = (Cookies.of cookies).metadata.get? t ∧
          (∀ col, r.columns.get? col = ((Cookies.of cookies).backfilling.get? (t, col)).map .id) ∧
          ∃ col v, (Cookies.of cookies).backfilling.get? (t, col) = some v := by
      have ht := (Manager.requestOf_eq_some.mp hr).2
      subst ht
      obtain ⟨r', hr', htable, hmeta, hcolumns⟩ := hagree.persisted_of_required r (hvalues r hr)
      obtain ⟨hmeta', hcolumns'⟩ := hspec r' hr'
      refine ⟨by rw [hmeta, hmeta', htable], fun col => ?_, ?_⟩
      · rw [hcolumns, hcolumns', hcols, htable]
      · rw [htable]
        exact (htables _).mp (List.mem_map_of_mem hr')
    refine ⟨fun hnone col => ?_, fun r hr => (hsame r hr).1, fun r hr => (hsame r hr).2.1, fun r hr => (hsame r hr).2.2⟩
    cases hv : (Cookies.of cookies).backfilling.get? (t, col) with
    | none => rfl
    | some v =>
      obtain ⟨r', hr', rfl⟩ := List.mem_map.mp ((htables t).mpr ⟨col, v, hv⟩)
      obtain ⟨r, hr, htable, -⟩ := hagree.required_of_persisted r' hr'
      have hr := hrequest r hr
      rw [htable, hnone] at hr
      cases hr
  · rw [Cookies.of, OrderedMap.get?_ofList, Option.map_eq_some_iff] at hv
    obtain ⟨e, he, -⟩ := hv
    have hkey := List.find?_some he
    obtain ⟨c, hc, rfl⟩ := List.mem_map.mp (List.mem_reverse.mp (List.mem_of_find?_eq_some he))
    exact of_decide_eq_true hkey ▸ hmetadata c hc
  · exact Option.eq_none_iff_forall_not_mem.mpr fun v hv => (hmem t _ v hv).2 rfl

/-- From equal states, a running manager requires the backfills that its
restart would be started with, after every run of valid schema changes that
are each kept alike. -/
theorem requiredBackfills_agree {pick : ℕ} {cookies : CookieSet J} {changes : List (DataChange J)} (hkeyed : m.Keyed)
    (hagree : Agree m.requiredBackfills.values (backfillRequestsFrom (foldCookies cookies [])))
    (hmetadata : ∀ c ∈ cookies.tableMetadata, c.table ∈ tables)
    (hbackfilling : ∀ c ∈ cookies.backfilling, c.table ∈ tables ∧ c.column ≠ "__proto__")
    (h : EachKeptAlike pick tables m (.of cookies) changes) :
    ∃ m', changes.foldlM (fun m c => m.onChange pick (.data c)) m = .ok m' ∧
      Agree m'.requiredBackfills.values (backfillRequestsFrom (foldCookies cookies changes)) := by
  obtain ⟨m', hm', tables', h'⟩ := (Alike.start hkeyed hagree hmetadata hbackfilling).run h
  exact ⟨m', hm', h'.agree⟩

end

/-! ## Changes of an `issue` table -/

def issueID : Identifier := ⟨"public", "issue"⟩

/-- Metadata with a row key of one column. -/
def keyMetadata : TableMetadata ℕ := ⟨OrderedMap.ofList [("id", 0)], ∅⟩

/-- The table is created, to be filled, and renamed. -/
def renamed : List (DataChange ℕ) :=
  [.source (.createTable issueID (some keyMetadata) (some (OrderedMap.ofList [("title", 1)]))),
    .source (.renameTable issueID ⟨"public", "issues"⟩)]

/-- A column is added that is to be filled too; the metadata is not told again. -/
def columnAdded : List (DataChange ℕ) :=
  [.source (.createTable issueID (some keyMetadata) (some (OrderedMap.ofList [("title", 1)]))),
    .source (.addColumn issueID "body" none (some 2))]

/-- The changes are valid for the tables upstream, one after the other. -/
def EachValid : List Identifier → Cookies J → List (DataChange J) → Prop
  | _, _, [] => True
  | tables, s, c :: changes => ValidFor tables s c ∧ EachValid (tablesAfter tables c) (s.change c) changes

theorem agree_nothing : Agree (J := ℕ) [] (backfillRequestsFrom (foldCookies ⟨[], []⟩ [])) := by
  have hnone : (foldCookies ⟨[], []⟩ [] : CookieSet ℕ).backfilling = [] := List.map_eq_nil_iff.mpr (List.mergeSort_nil ..)
  rw [backfillRequestsFrom, hnone]
  exact ⟨List.nodup_nil, List.nodup_nil, fun _ h => (by cases h), fun _ h => (by cases h)⟩

theorem requiredBackfills_agree_renamed :
    ∃ m', renamed.foldlM (fun m c => m.onChange 0 (.data c)) ({} : Manager ℕ) = .ok m' ∧
      Agree m'.requiredBackfills.values (backfillRequestsFrom (foldCookies ⟨[], []⟩ renamed)) := by
  refine requiredBackfills_agree nofun agree_nothing (fun _ h => nomatch h) (fun _ h => nomatch h)
    (show EachKeptAlike 0 [] _ _ _ from ⟨nofun, ?_, fun m' hm' => ?_⟩)
  · rintro columns heq
    obtain rfl := Option.some.inj heq
    exact ⟨nofun, by decide, by decide⟩
  · obtain rfl := Except.ok.inj hm'
    refine ⟨?_, ⟨fun r hr => ?_, fun _ r hr => ?_⟩, fun _ _ => trivial⟩
    · show issueID ∈ [issueID] ∧ _ ∉ [issueID]
      decide
    · obtain rfl := Option.some.inj hr
      rfl
    · cases hr

/-- The manager takes the metadata of the added column, which is none, for that
of the table; the cookies keep what they were told. -/
theorem addColumn_forgets_metadata :
    EachValid [] (.of ⟨[], []⟩) columnAdded ∧
      ∃ m', columnAdded.foldlM (fun m c => m.onChange 0 (.data c)) ({} : Manager ℕ) = .ok m' ∧
        ¬ Agree m'.requiredBackfills.values (backfillRequestsFrom (foldCookies ⟨[], []⟩ columnAdded)) := by
  refine ⟨⟨nofun, List.mem_singleton.mpr rfl, trivial⟩, _, rfl, fun h => ?_⟩
  obtain ⟨r', hr', htable, hmetadata, -⟩ := h.persisted_of_required
    { table := issueID, metadata := none, columns := OrderedMap.ofList [("title", .id 1), ("body", .id 2)] } (by decide)
  have hspec := ((backfillRequestsFrom_spec (columnAdded.foldl Cookies.change (.of ⟨[], []⟩))).2.2 r' hr').1
  rw [← htable, ← hmetadata] at hspec
  revert hspec
  decide

end ZeroSync.Backfills
