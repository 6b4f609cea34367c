/-
Runs of `#advance`: the table of a source over the earlier snapshot ends with
the rows of the later one.

Between entries, the rows of a table are those of the earlier snapshot whose
row key has not come yet, less those that an arrived row has taken the place
of, and the rows of the later snapshot whose row key has come (`Advanced`).
-/
import ZeroSync.AdvanceFacts

namespace ZeroSync

variable {spec : TableSpec} {rowKey : List String} {rows rows' P C S S' : List Row} {c s stored : Row}
  {done : List (String × Value) → Prop} {k : List (String × Value)}

/-- The rows agree on the synced columns. -/
def SameColumns (spec : TableSpec) (a b : Row) : Prop := ∀ c ∈ spec.columns, a c = b c

theorem SameColumns.symm {a b : Row} (h : SameColumns spec a b) : SameColumns spec b a := fun c hc => (h c hc).symm

/-! ## One table -/

/-- The row key is a unique index over synced columns. -/
structure KeyedBy (spec : TableSpec) (rowKey : List String) : Prop where
  unique : ∃ key ∈ spec.uniqueKeys, ∀ c, c ∈ key ↔ c ∈ rowKey
  synced : spec.Synced

theorem KeyedBy.rowKeyOf_eq (h : KeyedBy spec rowKey) {a b : Row} (hab : SameColumns spec a b) :
    rowKeyOf rowKey a = rowKeyOf rowKey b := by
  obtain ⟨key, hkey, hcols⟩ := h.unique
  exact rowKeyOf_congr fun c hc => hab c (h.synced key hkey c ((hcols c).mpr hc))

/-- The rows `S` of a table on the way from `P` to `C`, after the entries of the row keys `done`. -/
structure Advanced (spec : TableSpec) (rowKey : List String) (P C : List Row) (done : List (String × Value) → Prop)
    (S : List Row) : Prop where
  keeps : Keeps spec S
  origin : ∀ s ∈ S, s ∈ P ∧ ¬done (rowKeyOf rowKey s) ∨ ∃ c ∈ C, done (rowKeyOf rowKey c) ∧ SameColumns spec s c
  arrived : ∀ c ∈ C, done (rowKeyOf rowKey c) → ∃ s ∈ S, SameColumns spec s c
  kept : ∀ p ∈ P, ¬done (rowKeyOf rowKey p) → (∃ c ∈ C, SameColumns spec p c) → p ∈ S

theorem Advanced.start (h : Keeps spec P) : Advanced spec rowKey P C (fun _ => False) P :=
  ⟨h, fun _ hs => .inl ⟨hs, not_false⟩, fun _ _ hdone => hdone.elim, fun _ hp _ _ => hp⟩

namespace Advanced

variable (h : Advanced spec rowKey P C done S)
include h

theorem of_conflicts (hkeyed : KeyedBy spec rowKey) (hC : Keeps spec C) (hc : c ∈ C) (hnot : ¬done (rowKeyOf rowKey c))
    (hs : s ∈ S) (hsc : conflicts spec c s = true) : s ∈ P := by
  rcases h.origin s hs with ⟨hp, -⟩ | ⟨c', hc', hdone, hsame⟩
  · exact hp
  · rw [conflicts_comm, hkeyed.synced.conflicts_congr hsame] at hsc
    rw [hC.eq_of_conflicts hc' hc hsc] at hdone
    exact absurd hdone hnot

theorem of_rowKey (hkeyed : KeyedBy spec rowKey) (hnot : ¬done k) (hs : s ∈ S) (hsk : rowKeyOf rowKey s = k) : s ∈ P := by
  rcases h.origin s hs with ⟨hp, -⟩ | ⟨c, -, hdone, hsame⟩
  · exact hp
  · rw [← hkeyed.rowKeyOf_eq hsame, hsk] at hdone
    exact absurd hdone hnot

/-- **A row comes** and takes the place of those it conflicts with. -/
theorem set (hkeyed : KeyedBy spec rowKey) (hC : Satisfies spec rowKey C) (hc : c ∈ C) (hstored : SameColumns spec stored c)
    (hperm : S'.Perm (stored :: S.filter fun r => !conflicts spec c r)) :
    Advanced spec rowKey P C (fun k => k = rowKeyOf rowKey c ∨ done k) S' := by
  have hconflicts : ∀ r, conflicts spec stored r = conflicts spec c r := hkeyed.synced.conflicts_congr hstored
  have hmem : ∀ r, r ∈ S' ↔ r = stored ∨ r ∈ S ∧ conflicts spec c r = false := by
    intro r
    rw [hperm.mem_iff, List.mem_cons, List.mem_filter, Bool.not_eq_true']
  have hself : ∀ c' ∈ C, conflicts spec c c' = true → c' = c :=
    fun c' hc' hcc => (hC.keeps.eq_of_conflicts hc hc' hcc).symm
  refine ⟨?_, ?_, ?_, ?_⟩
  · refine Keeps.perm (Keeps.cons (h.keeps.sublist List.filter_sublist) ?_ ?_) hperm.symm
    · intro k hk
      rw [hstored k (spec.primaryKey_synced k hk)]
      exact hC.keeps.primaryKey c hc k hk
    · intro r hr
      rw [hconflicts]
      simpa using (List.mem_filter.mp hr).2
  · intro s hs
    rcases (hmem s).mp hs with rfl | ⟨hs, hsc⟩
    · exact .inr ⟨c, hc, .inl rfl, hstored⟩
    · rcases h.origin s hs with ⟨hp, hnot⟩ | ⟨c', hc', hdone, hsame⟩
      · refine .inl ⟨hp, ?_⟩
        rintro (heq | hdone)
        · rw [conflicts_comm, conflicts_of_rowKey hkeyed.unique (hC.rowKey c hc) heq] at hsc
          cases hsc
        · exact hnot hdone
      · exact .inr ⟨c', hc', .inr hdone, hsame⟩
  · rintro c' hc' hdone
    by_cases heq : c' = c
    · exact ⟨stored, (hmem stored).mpr (.inl rfl), heq ▸ hstored⟩
    · have hne : conflicts spec c c' = false := by
        rw [← Bool.not_eq_true]
        exact fun hcc => heq (hself c' hc' hcc)
      rcases hdone with hkey | hdone
      · rw [conflicts_comm, conflicts_of_rowKey hkeyed.unique (hC.rowKey c hc) hkey] at hne
        cases hne
      · obtain ⟨s, hs, hsame⟩ := h.arrived c' hc' hdone
        refine ⟨s, (hmem s).mpr (.inr ⟨hs, ?_⟩), hsame⟩
        rwa [conflicts_comm, hkeyed.synced.conflicts_congr hsame, conflicts_comm]
  · rintro p hp hnot ⟨c', hc', hsame⟩
    refine (hmem p).mpr (.inr ⟨h.kept p hp (fun hdone => hnot (.inr hdone)) ⟨c', hc', hsame⟩, ?_⟩)
    rw [← Bool.not_eq_true]
    intro hcp
    rw [conflicts_comm, hkeyed.synced.conflicts_congr hsame, conflicts_comm] at hcp
    obtain rfl := hself c' hc' hcp
    exact hnot (.inl (hkeyed.rowKeyOf_eq hsame))

/-- **A row goes** whose row key the later snapshot does not have. -/
theorem del (hkeyed : KeyedBy spec rowKey) (hk : ∀ c ∈ C, rowKeyOf rowKey c ≠ k) (hsub : S'.Sublist S)
    (hmem : ∀ s, s ∈ S' ↔ s ∈ S ∧ rowKeyOf rowKey s ≠ k) : Advanced spec rowKey P C (fun k' => k' = k ∨ done k') S' := by
  refine ⟨h.keeps.sublist hsub, ?_, ?_, ?_⟩
  · intro s hs
    obtain ⟨hs, hne⟩ := (hmem s).mp hs
    rcases h.origin s hs with ⟨hp, hnot⟩ | ⟨c, hc, hdone, hsame⟩
    · exact .inl ⟨hp, fun hor => hor.elim hne hnot⟩
    · exact .inr ⟨c, hc, .inr hdone, hsame⟩
  · rintro c hc (heq | hdone)
    · exact absurd heq (hk c hc)
    · obtain ⟨s, hs, hsame⟩ := h.arrived c hc hdone
      refine ⟨s, (hmem s).mpr ⟨hs, ?_⟩, hsame⟩
      rw [hkeyed.rowKeyOf_eq hsame]
      exact hk c hc
  · intro p hp hnot hc
    exact (hmem p).mpr ⟨h.kept p hp (fun hdone => hnot (.inr hdone)) hc, fun heq => hnot (.inl heq)⟩

/-- **At the end** the rows are those of the later snapshot, when the row keys
that have not come are of rows that both snapshots have. -/
theorem exact (hC : Keeps spec C)
    (hprev : ∀ p ∈ P, ¬done (rowKeyOf rowKey p) → ∃ c ∈ C, SameColumns spec p c)
    (hcurr : ∀ c ∈ C, ¬done (rowKeyOf rowKey c) → ∃ p ∈ P, SameColumns spec p c) (hkeyed : KeyedBy spec rowKey) :
    (S.map (selectColumns spec.columns)).Perm (C.map (selectColumns spec.columns)) := by
  have hnodup {l : List Row} (hl : Keeps spec l) : (l.map (selectColumns spec.columns)).Nodup := by
    refine List.Nodup.map_on (fun a ha b hb hab => ?_) hl.nodup
    refine hl.eq_of_primaryKey ha hb ?_
    rw [matches_of_eq (b := a) fun k hk =>
      (selectColumns_eq_iff.mp hab k (spec.primaryKey_synced k hk)).symm]
    exact hl.matches_self ha
  refine (List.perm_ext_iff_of_nodup (hnodup h.keeps) (hnodup hC)).mpr fun r => ?_
  rw [List.mem_map, List.mem_map]
  constructor
  · rintro ⟨s, hs, rfl⟩
    obtain ⟨c, hc, hsame⟩ : ∃ c ∈ C, SameColumns spec s c := by
      rcases h.origin s hs with ⟨hp, hnot⟩ | ⟨c, hc, -, hsame⟩
      · exact hprev s hp hnot
      · exact ⟨c, hc, hsame⟩
    exact ⟨c, hc, selectColumns_eq_iff.mpr hsame.symm⟩
  · rintro ⟨c, hc, rfl⟩
    obtain ⟨s, hs, hsame⟩ : ∃ s ∈ S, SameColumns spec s c := by
      by_cases hdone : done (rowKeyOf rowKey c)
      · exact h.arrived c hc hdone
      · obtain ⟨p, hp, hsame⟩ := hcurr c hc hdone
        refine ⟨p, h.kept p hp ?_ ⟨c, hc, hsame⟩, hsame⟩
        rwa [hkeyed.rowKeyOf_eq hsame]
    exact ⟨s, hs, selectColumns_eq_iff.mpr hsame⟩

end Advanced

/-! ## All tables -/

variable {diff : Diff} {rowKeys : String → List String} {sources : String → Option TableSource}
  {prev tables : Tables} {e : ChangeLogEntry} {log : List ChangeLogEntry}
  {handled : String → List (String × Value) → Prop}

/-- Two snapshots: both satisfy the unique keys of the tables, and no row of
the earlier one has a version after it. -/
structure Snapshots (diff : Diff) (rowKeys : String → List String) (prev : Tables) : Prop where
  unique : ∀ t spec, diff.syncableTables t = some spec → ∃ key ∈ spec.uniqueKeys, ∀ c, c ∈ key ↔ c ∈ rowKeys t
  earlier : ∀ t spec, diff.syncableTables t = some spec → Satisfies spec (rowKeys t) (prev t)
  later : ∀ t spec, diff.syncableTables t = some spec → Satisfies spec (rowKeys t) (diff.curr t)
  version : ∀ t spec, diff.syncableTables t = some spec → ∀ row ∈ prev t,
    stringLt diff.prevVersion (rowVersion row) = false

/-- What an entry of the change log says of the later snapshot: a `SET` that it
has the row, of the version of the entry; a `DELETE` that it has no such row. -/
structure EntryOf (diff : Diff) (rowKeys : String → List String) (e : ChangeLogEntry) : Prop where
  op : e.op = .set ∨ e.op = .del
  known : diff.syncableTables e.table = none → e.table ∈ diff.allTableNames
  minRowVersion : ∀ spec, diff.syncableTables e.table = some spec →
    stringLt (spec.minRowVersion.getD "") e.stateVersion = true
  version : stringLt diff.currVersion e.stateVersion = false
  set : ∀ spec, diff.syncableTables e.table = some spec → e.op = .set →
    ∃ row ∈ diff.curr e.table, e.rowKey = rowKeyOf (rowKeys e.table) row ∧ row "_0_version" = .str e.stateVersion
  del : ∀ spec, diff.syncableTables e.table = some spec → e.op = .del →
    (∃ row, e.rowKey = rowKeyOf (rowKeys e.table) row) ∧
      ∀ row ∈ diff.curr e.table, rowKeyOf (rowKeys e.table) row ≠ e.rowKey

/-- The entries handle the row key. -/
def HandledBy (log : List ChangeLogEntry) (t : String) (k : List (String × Value)) : Prop :=
  ∃ e ∈ log, e.table = t ∧ e.rowKey = k

/-- **A change log between two snapshots**: one entry for each row key whose
row differs, in any order. -/
structure LogBetween (diff : Diff) (rowKeys : String → List String) (prev : Tables) (log : List ChangeLogEntry) : Prop where
  entries : ∀ e ∈ log, EntryOf diff rowKeys e
  once : log.Pairwise fun e e' => ¬(e'.table = e.table ∧ e'.rowKey = e.rowKey)
  removed : ∀ t spec, diff.syncableTables t = some spec → ∀ p ∈ prev t,
    ¬HandledBy log t (rowKeyOf (rowKeys t) p) → ∃ c ∈ diff.curr t, SameColumns spec p c
  added : ∀ t spec, diff.syncableTables t = some spec → ∀ c ∈ diff.curr t,
    ¬HandledBy log t (rowKeyOf (rowKeys t) c) → ∃ p ∈ prev t, SameColumns spec p c

/-- The rows of the permissions table keep their permissions, and none goes. -/
structure PermissionsKept (diff : Diff) (rowKeys : String → List String) (prev : Tables) : Prop where
  kept : ∀ p ∈ prev diff.permissionsTable, ∃ c ∈ diff.curr diff.permissionsTable,
    rowKeyOf (rowKeys diff.permissionsTable) c = rowKeyOf (rowKeys diff.permissionsTable) p
  same : ∀ spec, diff.syncableTables diff.permissionsTable = some spec → ∀ p ∈ prev diff.permissionsTable,
    ∀ c ∈ diff.curr diff.permissionsTable, conflicts spec c p = true → p "permissions" = c "permissions"

/-- The tables between entries; those without a source are not written. -/
def AdvancedTables (diff : Diff) (rowKeys : String → List String) (sources : String → Option TableSource) (prev : Tables)
    (handled : String → List (String × Value) → Prop) (tables : Tables) : Prop :=
  ∀ t, match sources t with
    | some source => Advanced source.spec (rowKeys t) (prev t) (diff.curr t) (handled t) (tables t)
    | none => tables t = prev t

/-- The sources are over the syncable tables, with all unique indexes over synced columns. -/
def SourcesOf (diff : Diff) (sources : String → Option TableSource) : Prop :=
  ∀ t source, sources t = some source → diff.syncableTables t = some source.spec ∧ source.spec.Synced

theorem AdvancedTables.start (hsnap : Snapshots diff rowKeys prev) (hsources : SourcesOf diff sources) :
    AdvancedTables diff rowKeys sources prev (fun _ _ => False) prev := by
  intro t
  split
  · next source hsource => exact Advanced.start (hsnap.earlier t _ (hsources t source hsource).1).keeps
  · rfl

theorem advanceEntry_of_none {change : TableChange} (hnext : diff.next tables e = .ok (some change))
    (hsource : sources change.table = none) : advanceEntry diff sources tables e = .ok tables := by
  rw [advanceEntry, hnext]
  simp only [bind, Except.bind, hsource]
  rfl

theorem advanceEntry_of_some {change : TableChange} {source : TableSource} {rows : List Row}
    (hnext : diff.next tables e = .ok (some change)) (hsource : sources change.table = some source)
    (hpush : pushChange source (tables change.table) change = .ok rows) :
    advanceEntry diff sources tables e = .ok fun table => if table = change.table then rows else tables table := by
  rw [advanceEntry, hnext]
  simp only [bind, Except.bind, hsource, hpush]
  rfl

namespace AdvancedTables

variable (h : AdvancedTables diff rowKeys sources prev handled tables)
include h

theorem keeps (hsnap : Snapshots diff rowKeys prev) (hsources : SourcesOf diff sources) {t : String}
    (hspec : diff.syncableTables t = some spec) : Keeps spec (tables t) := by
  have ht := h t
  split at ht
  · next source hsource =>
    obtain rfl := Option.some.inj ((hsources t source hsource).1.symm.trans hspec)
    exact ht.keeps
  · rw [ht]
    exact (hsnap.earlier t spec hspec).keeps

theorem of_conflicts (hsnap : Snapshots diff rowKeys prev) (hsources : SourcesOf diff sources) {t : String}
    (hspec : diff.syncableTables t = some spec) (hc : c ∈ diff.curr t) (hnot : ¬handled t (rowKeyOf (rowKeys t) c))
    (hs : s ∈ tables t) (hsc : conflicts spec c s = true) : s ∈ prev t := by
  have ht := h t
  split at ht
  · next source hsource =>
    obtain ⟨hsource, hsynced⟩ := hsources t source hsource
    obtain rfl := Option.some.inj (hsource.symm.trans hspec)
    exact ht.of_conflicts ⟨hsnap.unique t _ hspec, hsynced⟩ (hsnap.later t _ hspec).keeps hc hnot hs hsc
  · rwa [← ht]

theorem of_rowKey (hsnap : Snapshots diff rowKeys prev) (hsources : SourcesOf diff sources) {t : String}
    (hspec : diff.syncableTables t = some spec) (hnot : ¬handled t k) (hs : s ∈ tables t)
    (hsk : rowKeyOf (rowKeys t) s = k) : s ∈ prev t := by
  have ht := h t
  split at ht
  · next source hsource =>
    obtain ⟨hsource, hsynced⟩ := hsources t source hsource
    obtain rfl := Option.some.inj (hsource.symm.trans hspec)
    exact ht.of_rowKey ⟨hsnap.unique t _ hspec, hsynced⟩ hnot hs hsk
  · rwa [← ht]

theorem update {source : TableSource} {t : String} (hsource : sources t = some source)
    (hrows : Advanced source.spec (rowKeys t) (prev t) (diff.curr t) (fun k' => k' = k ∨ handled t k') rows) :
    AdvancedTables diff rowKeys sources prev (fun t' k' => t' = t ∧ k' = k ∨ handled t' k')
      (fun t' => if t' = t then rows else tables t') := by
  intro t'
  by_cases heq : t' = t
  · subst heq
    rw [hsource]
    simpa using hrows
  · have ht := h t'
    simpa [heq] using ht

theorem skip {t : String} (hrows : ∀ source, sources t = some source →
      Advanced source.spec (rowKeys t) (prev t) (diff.curr t) (fun k' => k' = k ∨ handled t k') (tables t)) :
    AdvancedTables diff rowKeys sources prev (fun t' k' => t' = t ∧ k' = k ∨ handled t' k') tables := by
  intro t'
  by_cases heq : t' = t
  · subst heq
    cases hsource : sources t' with
    | none => simpa [hsource] using h t'
    | some source => simpa using hrows source hsource
  · have ht := h t'
    simpa [heq] using ht

/-- **One entry** is pushed into the source of its table. -/
theorem entry (hsnap : Snapshots diff rowKeys prev) (hsources : SourcesOf diff sources)
    (hpermissions : PermissionsKept diff rowKeys prev) (he : EntryOf diff rowKeys e) (hnot : ¬handled e.table e.rowKey) :
    ∃ tables', advanceEntry diff sources tables e = .ok tables' ∧ AdvancedTables diff rowKeys sources prev
      (fun t k => t = e.table ∧ k = e.rowKey ∨ handled t k) tables' := by
  cases hspec : diff.syncableTables e.table with
  | none =>
    -- The table is not syncable, so it has no source.
    refine ⟨tables, ?_, h.skip fun source hsource => ?_⟩
    · have hnext : diff.next tables e = .ok none := by
        rcases he.op with hop | hop <;> simp [Diff.next, hop, hspec, he.known hspec]
      rw [advanceEntry, hnext]
      rfl
    · rw [(hsources e.table source hsource).1] at hspec
      cases hspec
  | some spec =>
    have hmin := he.minRowVersion spec hspec
    have hunique := hsnap.unique e.table spec hspec
    have hearlier := hsnap.earlier e.table spec hspec
    have hlater := hsnap.later e.table spec hspec
    have hkeyed (source : TableSource) (hsource : sources e.table = some source) :
        source.spec = spec ∧ KeyedBy spec (rowKeys e.table) ∧
          Advanced spec (rowKeys e.table) (prev e.table) (diff.curr e.table) (handled e.table) (tables e.table) := by
      obtain ⟨hsource', hsynced⟩ := hsources e.table source hsource
      obtain rfl := Option.some.inj (hsource'.symm.trans hspec)
      have ht := h e.table
      rw [hsource] at ht
      exact ⟨rfl, ⟨hunique, hsynced⟩, ht⟩
    rcases he.op with hop | hop
    · obtain ⟨c, hc, hrowKey, hversion⟩ := he.set spec hspec hop
      have hget : getRow spec (diff.curr e.table) e.rowKey = some (selectColumns spec.columns c) := by
        rw [hrowKey]
        exact getRow_of_mem hunique hlater.keeps hc (hlater.rowKey c hc)
      have hprev {s : Row} (hs : s ∈ tables e.table) (hsc : conflicts spec c s = true) : s ∈ prev e.table :=
        h.of_conflicts hsnap hsources hspec hc (hrowKey ▸ hnot) hs hsc
      have hnext := next_set hspec hop hmin he.version hget hversion
        (fun s hs hsc => hsnap.version e.table spec hspec s (hprev hs hsc))
        (fun htable s hs hsc => hpermissions.same spec (htable ▸ hspec) s (htable ▸ hprev hs hsc) c (htable ▸ hc) hsc)
      cases hsource : sources e.table with
      | none =>
        refine ⟨tables, advanceEntry_of_none hnext hsource, h.skip fun source hsource' => ?_⟩
        rw [hsource] at hsource'
        cases hsource'
      | some source =>
        obtain ⟨rfl, hkeyed, hrows⟩ := hkeyed source hsource
        obtain ⟨rows', stored, hpush, hperm, hstored⟩ := pushChange_set e.table hrows.keeps hkeyed.synced
          (hlater.stored c hc)
        refine ⟨_, advanceEntry_of_some hnext hsource hpush, h.update hsource ?_⟩
        rw [hrowKey]
        exact hrows.set hkeyed hlater hc hstored hperm
    · obtain ⟨⟨x, hrowKey⟩, hgone⟩ := he.del spec hspec hop
      by_cases hfound : ∃ s ∈ tables e.table, rowKeyOf (rowKeys e.table) s = e.rowKey
      · obtain ⟨s, hs, hsk⟩ := hfound
        have hp := h.of_rowKey hsnap hsources hspec hnot hs hsk
        have hget : getRow spec (tables e.table) e.rowKey = some (selectColumns spec.columns s) := by
          rw [← hsk]
          exact getRow_of_mem hunique (h.keeps hsnap hsources hspec) hs (hearlier.rowKey s hp)
        have htable : e.table ≠ diff.permissionsTable := by
          intro htable
          obtain ⟨c, hc, hck⟩ := hpermissions.kept s (htable ▸ hp)
          rw [← htable] at hc hck
          exact hgone c hc (hck.trans hsk)
        have hnext := next_del hspec hop hmin he.version hget (hsnap.version e.table spec hspec s hp) htable
        cases hsource : sources e.table with
        | none =>
          refine ⟨tables, advanceEntry_of_none hnext hsource, h.skip fun source hsource' => ?_⟩
          rw [hsource] at hsource'
          cases hsource'
        | some source =>
          obtain ⟨rfl, hkeyed, hrows⟩ := hkeyed source hsource
          have hselect : ∀ k ∈ source.spec.primaryKey, selectColumns source.spec.columns s k = s k :=
            fun k hk => selectColumns_of_mem (source.spec.primaryKey_synced k hk) s
          refine ⟨_, advanceEntry_of_some hnext hsource (pushChange_del hrows.keeps hs), h.update hsource ?_⟩
          refine hrows.del hkeyed hgone List.filter_sublist fun r => ?_
          rw [TableSource.mem_delete_iff hrows.keeps hs hselect]
          refine and_congr_right fun hr => not_congr ⟨fun heq => heq ▸ hsk, fun hrk => ?_⟩
          exact hrows.keeps.eq_of_conflicts hr hs
            (conflicts_of_rowKey hunique (hearlier.rowKey s hp) (hrk.trans hsk.symm))
      · have hno : ∀ s ∈ tables e.table, rowKeyOf (rowKeys e.table) s ≠ e.rowKey :=
          fun s hs hsk => hfound ⟨s, hs, hsk⟩
        have hget : getRow spec (tables e.table) e.rowKey = none := by
          rw [hrowKey]
          exact getRow_of_not_mem fun s hs => hrowKey ▸ hno s hs
        refine ⟨tables, ?_, h.skip fun source hsource => ?_⟩
        · rw [advanceEntry, next_noop hspec hop hmin he.version hget]
          rfl
        · obtain ⟨rfl, hkeyed, hrows⟩ := hkeyed source hsource
          exact hrows.del hkeyed hgone (List.Sublist.refl _) fun s => ⟨fun hs => ⟨hs, hno s hs⟩, fun hs => hs.1⟩

/-- **The entries of a log**, one after the other. -/
theorem run (hsnap : Snapshots diff rowKeys prev) (hsources : SourcesOf diff sources)
    (hpermissions : PermissionsKept diff rowKeys prev) (hentries : ∀ e ∈ log, EntryOf diff rowKeys e)
    (honce : log.Pairwise fun e e' => ¬(e'.table = e.table ∧ e'.rowKey = e.rowKey))
    (hnot : ∀ e ∈ log, ¬handled e.table e.rowKey) :
    ∃ tables', advance diff sources tables log = .ok tables' ∧ AdvancedTables diff rowKeys sources prev
      (fun t k => HandledBy log t k ∨ handled t k) tables' := by
  induction log generalizing tables handled with
  | nil =>
    refine ⟨tables, rfl, ?_⟩
    simpa [HandledBy] using h
  | cons e log ih =>
    obtain ⟨he, hentries⟩ := List.forall_mem_cons.mp hentries
    obtain ⟨hfirst, honce⟩ := List.pairwise_cons.mp honce
    obtain ⟨hnotfirst, hnot⟩ := List.forall_mem_cons.mp hnot
    obtain ⟨tables₁, hentry, h₁⟩ := h.entry hsnap hsources hpermissions he hnotfirst
    obtain ⟨tables', hrest, h'⟩ := ih h₁ hentries honce fun e' he' hor => hor.elim (hfirst e' he') (hnot e' he')
    refine ⟨tables', ?_, ?_⟩
    · rw [advance, List.foldlM_cons, hentry]
      exact hrest
    · have hsame : ∀ t k, (HandledBy log t k ∨ t = e.table ∧ k = e.rowKey ∨ handled t k) ↔
          (HandledBy (e :: log) t k ∨ handled t k) := by
        intro t k
        simp only [HandledBy, List.exists_mem_cons_iff, eq_comm (a := t), eq_comm (a := k)]
        rw [or_assoc, or_left_comm]
      simpa only [hsame] using h'

end AdvancedTables

/-- A diff of one table, from version `01` to `02`. -/
def oneTable (table : String) (spec : TableSpec) (curr : List Row) : Diff where
  permissionsTable := "zero.permissions"
  syncableTables t := if t = table then some spec else none
  allTableNames := [table]
  prevVersion := "01"
  currVersion := "02"
  curr t := if t = table then curr else []

/-- Its change log when all rows of the later snapshot are set. -/
def setAll (table : String) (rowKey : List String) (curr : List Row) : List ChangeLogEntry :=
  curr.map fun c => ⟨"02", table, rowKeyOf rowKey c, .set⟩

theorem snapshots_oneTable {table : String} (hunique : ∃ key ∈ spec.uniqueKeys, ∀ c, c ∈ key ↔ c ∈ rowKey)
    (hP : Satisfies spec rowKey P) (hC : Satisfies spec rowKey C) (hversion : ∀ p ∈ P, rowVersion p = "01") :
    Snapshots (oneTable table spec C) (fun _ => rowKey) (fun t => if t = table then P else []) := by
  have hof {t : String} {spec' : TableSpec} (h : (oneTable table spec C).syncableTables t = some spec') :
      t = table ∧ spec = spec' := by
    simpa [oneTable] using h
  refine ⟨?_, ?_, ?_, ?_⟩
  all_goals
    intro t spec' hspec
    obtain ⟨rfl, rfl⟩ := hof hspec
  · exact hunique
  · simpa using hP
  · simpa [oneTable] using hC
  · intro p hp
    rw [hversion p (by simpa using hp)]
    exact stringLt_self "01"

theorem logBetween_setAll {table : String} (hunique : ∃ key ∈ spec.uniqueKeys, ∀ c, c ∈ key ↔ c ∈ rowKey)
    (hC : Satisfies spec rowKey C) (hmin : spec.minRowVersion = none) (hversion : ∀ c ∈ C, c "_0_version" = .str "02")
    (hkeys : ∀ p ∈ P, ∃ c ∈ C, rowKeyOf rowKey c = rowKeyOf rowKey p) :
    LogBetween (oneTable table spec C) (fun _ => rowKey) (fun t => if t = table then P else [])
      (setAll table rowKey C) := by
  have hof {t : String} {spec' : TableSpec} (h : (oneTable table spec C).syncableTables t = some spec') :
      t = table ∧ spec = spec' := by
    simpa [oneTable] using h
  have hhandled {c : Row} (hc : c ∈ C) : HandledBy (setAll table rowKey C) table (rowKeyOf rowKey c) :=
    ⟨_, List.mem_map_of_mem hc, rfl, rfl⟩
  refine ⟨?_, ?_, ?_, ?_⟩
  · intro e he
    obtain ⟨c, hc, rfl⟩ := List.mem_map.mp he
    refine ⟨.inl rfl, fun h => by simp [oneTable] at h, fun spec' hspec => ?_, stringLt_self "02", fun spec' hspec _ => ?_, nofun⟩
    · obtain ⟨-, rfl⟩ := hof hspec
      rw [hmin]
      show stringLt "" "02" = true
      decide
    · exact ⟨c, by simpa [oneTable] using hc, rfl, hversion c hc⟩
  · rw [setAll, List.pairwise_map]
    refine hC.keeps.unique.imp_of_mem fun {a b} ha hb hab heq => ?_
    rw [conflicts_comm, conflicts_of_rowKey hunique (hC.rowKey a ha) heq.2] at hab
    cases hab
  · intro t spec' hspec p hp hnot
    obtain ⟨rfl, rfl⟩ := hof hspec
    obtain ⟨c, hc, heq⟩ := hkeys p (by simpa using hp)
    exact absurd (heq ▸ hhandled hc) hnot
  · intro t spec' hspec c hc hnot
    obtain ⟨rfl, rfl⟩ := hof hspec
    exact absurd (hhandled (by simpa [oneTable] using hc)) hnot

/-- Seats, with a unique index; the wagon is not synced. -/
def seatSpec (key : List String) : TableSpec where
  columns := ["id", "seat", "_0_version"]
  primaryKey := ["id"]
  type c := if c = "_0_version" then .string else .number
  uniqueKeys := [["id"], key]
  minRowVersion := none
  primaryKey_unique := ⟨["id"], by simp, by simp⟩
  primaryKey_nodup := List.nodup_singleton _
  primaryKey_synced := by simp
  version_synced := by simp

/-- A seat in wagon 5. -/
def seat (version : String) (id seat : ℚ) : Row := fun c =>
  if c = "id" then .num id else if c = "seat" then .num seat else if c = "wagon" then .num 5
  else if c = "_0_version" then .str version else .undefined

/-- The rows 1 and 2 with seats. -/
def seats (version : String) (a b : ℚ) : List Row := [seat version 1 a, seat version 2 b]

theorem satisfies_seats {key : List String} (hkey : "seat" ∈ key) (version : String) {a b : ℚ} (h : a ≠ b) :
    Satisfies (seatSpec key) ["id"] (seats version a b) := by
  have hvalue (id seat' : ℚ) : ∀ c ∈ (seatSpec key).columns, seat version id seat' c ≠ .undefined ∧
      seat version id seat' c ≠ .null := by
    intro c hc
    simp only [seatSpec, List.mem_cons, List.not_mem_nil, or_false] at hc
    rcases hc with rfl | rfl | rfl <;> simp [seat]
  have hall : ∀ row ∈ seats version a b, ∀ c ∈ (seatSpec key).columns, row c ≠ .undefined ∧ row c ≠ .null := by
    simp only [seats, List.forall_mem_cons, List.not_mem_nil, false_imp_iff, implies_true, and_true]
    exact ⟨hvalue 1 a, hvalue 2 b⟩
  have hid : ∀ row ∈ seats version a b, ∀ c ∈ ["id"], row c ≠ .null ∧ row c ≠ .undefined := by
    intro row hrow c hc
    exact (hall row hrow c (by simp [seatSpec, List.mem_singleton.mp hc])).symm
  refine ⟨fun row hrow c hc => (hall row hrow c hc).1, ⟨?_, hid⟩, hid⟩
  rw [seats, List.pairwise_pair, ← Bool.not_eq_true, conflicts, List.any_eq_true]
  rintro ⟨key', hkey', hm⟩
  rw [sqlMatches_iff] at hm
  simp only [seatSpec, List.mem_cons, List.not_mem_nil, or_false] at hkey'
  rcases hkey' with rfl | rfl
  · have heq := (hm "id" (by simp)).1
    simp [seat] at heq
  · have heq := (hm "seat" hkey).1
    simp [seat] at heq
    exact h heq

theorem exchange_seats (key : List String) (hkey : "seat" ∈ key) :
    Snapshots (oneTable "seats" (seatSpec key) (seats "02" 20 10)) (fun _ => ["id"])
        (fun t => if t = "seats" then seats "01" 10 20 else []) ∧
      LogBetween (oneTable "seats" (seatSpec key) (seats "02" 20 10)) (fun _ => ["id"])
        (fun t => if t = "seats" then seats "01" 10 20 else []) (setAll "seats" ["id"] (seats "02" 20 10)) := by
  have hunique : ∃ k ∈ (seatSpec key).uniqueKeys, ∀ c, c ∈ k ↔ c ∈ ["id"] := ⟨["id"], by simp [seatSpec], by simp⟩
  have hP := satisfies_seats hkey "01" (a := 10) (b := 20) (by norm_num)
  have hC := satisfies_seats hkey "02" (a := 20) (b := 10) (by norm_num)
  refine ⟨snapshots_oneTable hunique hP hC ?_, logBetween_setAll hunique hC rfl ?_ ?_⟩
  · simp [seats, rowVersion, seat]
  · simp [seats, seat]
  · simp [seats, rowKeyOf, seat]

/-- The source of the seats. -/
def seatSources (key : List String) : String → Option TableSource := fun t =>
  if t = "seats" then some ⟨seatSpec key, []⟩ else none

/-- The permissions table: one row, of the key `lock`. -/
def permissionsSpec : TableSpec where
  columns := ["lock", "permissions", "_0_version"]
  primaryKey := ["lock"]
  type _ := .string
  uniqueKeys := [["lock"]]
  minRowVersion := none
  primaryKey_unique := ⟨["lock"], by simp, by simp⟩
  primaryKey_nodup := by simp
  primaryKey_synced := by simp
  version_synced := by simp

/-- The row of the permissions table. -/
def permissionsRow (version permissions : String) : Row := fun c =>
  if c = "lock" then .bool true else if c = "permissions" then .str permissions
  else if c = "_0_version" then .str version else .undefined

theorem satisfies_permissions (version permissions : String) :
    Satisfies permissionsSpec ["lock"] [permissionsRow version permissions] := by
  refine ⟨?_, ⟨List.pairwise_singleton .., ?_⟩, ?_⟩
  all_goals simp [permissionsSpec, permissionsRow]

end ZeroSync
