/-
The changes between two published schemas lead from the catalog of the one to
that of the other exactly when they are `Applicable`: no kept table takes a
name that a kept table altered later still has, nor a kept column within its
table, and an index that is kept is the same index of the same table, on the
same columns in the same order.

A table is followed from its old entry to its new one, and with it the
indexes; what was dropped is gone before, and what is created comes after.
-/
import ZeroSync.Catalog

namespace ZeroSync.SchemaChanges

open Backfills (Identifier)
open PartialMap

/-! ## Matching by key -/

section Keys

variable {κ α : Type} [DecidableEq κ] {a b : OrderedMap κ α}

theorem values_eq_filterMap (m : OrderedMap κ α) : m.values = m.keys.filterMap m.get? := by
  rw [OrderedMap.keys, List.filterMap_map, OrderedMap.values, ← List.filterMap_eq_map]
  refine List.filterMap_congr fun e he => ?_
  exact ((OrderedMap.mem_entries_iff m e.1 e.2).mp he).symm

theorem mem_intersection {k : κ} : k ∈ intersection a b ↔ (a.get? k).isSome ∧ (b.get? k).isSome := by
  unfold intersection
  split
  · rw [List.mem_filter, OrderedMap.mem_keys_iff, and_comm]; rfl
  · rw [List.mem_filter, OrderedMap.mem_keys_iff]; rfl

theorem nodup_intersection : (intersection a b).Nodup := by
  unfold intersection
  split
  · exact b.nodup.filter _
  · exact a.nodup.filter _

theorem both_eq_some {k : κ} {p : α × α} : both a b k = some p ↔ a.get? k = some p.1 ∧ b.get? k = some p.2 := by
  unfold both
  cases a.get? k <;> cases b.get? k <;> simp [Prod.ext_iff]

theorem mem_kept {p : α × α} : p ∈ kept a b ↔ ∃ k, a.get? k = some p.1 ∧ b.get? k = some p.2 := by
  simp only [kept, List.mem_filterMap, both_eq_some]
  constructor
  · rintro ⟨k, -, h⟩
    exact ⟨k, h⟩
  · rintro ⟨k, h⟩
    exact ⟨k, mem_intersection.mpr ⟨by rw [h.1]; rfl, by rw [h.2]; rfl⟩, h⟩

theorem mem_onlyFirst {v : α} : v ∈ onlyFirst a b ↔ ∃ k, a.get? k = some v ∧ b.get? k = none := by
  simp only [onlyFirst, symmetricDifferences, List.mem_filterMap, List.mem_filter, OrderedMap.mem_keys_iff,
    OrderedMap.contains, Bool.not_eq_true', Option.isSome_eq_false_iff, Option.isNone_iff_eq_none]
  constructor
  · rintro ⟨k, ⟨-, hb⟩, ha⟩
    exact ⟨k, ha, hb⟩
  · rintro ⟨k, ha, hb⟩
    exact ⟨k, ⟨by rw [ha]; rfl, hb⟩, ha⟩

theorem mem_onlySecond {v : α} : v ∈ onlySecond a b ↔ ∃ k, b.get? k = some v ∧ a.get? k = none :=
  mem_onlyFirst (a := b) (b := a)

theorem kept_map {f : α × α → α} {g : κ → Option α} (hg : ∀ k p, both a b k = some p → g k = some (f p)) :
    (kept a b).map f = (intersection a b).filterMap g := by
  rw [kept, List.map_filterMap]
  refine List.filterMap_congr fun k hk => ?_
  obtain ⟨ha, hb⟩ := mem_intersection.mp hk
  obtain ⟨x, hx⟩ := Option.isSome_iff_exists.mp ha
  obtain ⟨y, hy⟩ := Option.isSome_iff_exists.mp hb
  have hboth := both_eq_some.mpr (show a.get? k = some (x, y).1 ∧ b.get? k = some (x, y).2 from ⟨hx, hy⟩)
  rw [hboth, hg k _ hboth]
  rfl

theorem values_perm_filter (m : OrderedMap κ α) (p : κ → Bool) :
    m.values.Perm ((m.keys.filter fun k => !p k).filterMap m.get? ++ (m.keys.filter p).filterMap m.get?) := by
  rw [values_eq_filterMap, ← List.filterMap_append]
  exact ((List.filter_append_perm p m.keys).symm.trans List.perm_append_comm).filterMap _

theorem values_perm_first (a b : OrderedMap κ α) : a.values.Perm (onlyFirst a b ++ (kept a b).map (·.1)) := by
  have hinter : (intersection a b).Perm (a.keys.filter b.contains) := by
    refine (List.perm_ext_iff_of_nodup nodup_intersection (a.nodup.filter _)).mpr fun k => ?_
    rw [mem_intersection, List.mem_filter, ← OrderedMap.mem_keys_iff]
    rfl
  rw [kept_map fun k p h => (both_eq_some.mp h).1]
  exact (values_perm_filter a b.contains).trans ((hinter.symm.filterMap _).append_left _)

theorem values_perm_second (a b : OrderedMap κ α) : b.values.Perm (onlySecond a b ++ (kept a b).map (·.2)) := by
  have hinter : (intersection a b).Perm (b.keys.filter a.contains) := by
    refine (List.perm_ext_iff_of_nodup nodup_intersection (b.nodup.filter _)).mpr fun k => ?_
    rw [mem_intersection, List.mem_filter, and_comm, ← OrderedMap.mem_keys_iff (m := b)]
    rfl
  rw [kept_map fun k p h => (both_eq_some.mp h).2]
  exact (values_perm_filter b a.contains).trans ((hinter.symm.filterMap _).append_left _)

end Keys

/-! ## One table -/

/-- A published schema: oids, names and attnums are distinct, and the columns of an index are there. -/
structure PublishedSchema.Valid (s : PublishedSchema) : Prop where
  oids : (s.tables.map (·.oid)).Nodup
  tableNames : (s.tables.map (·.id)).Nodup
  attnums : ∀ t ∈ s.tables, (t.columns.entries.map (·.2.pos)).Nodup
  indexNames : (s.indexes.map fun i => idString i.id).Nodup
  indexed : ∀ i ∈ s.indexes, ∃ t ∈ s.tables, t.id = i.table ∧ ∀ c ∈ i.columns.keys, (t.columns.get? c).isSome

theorem values_columnsByID {columns : OrderedMap String ColumnSpec} (h : (columns.entries.map (·.2.pos)).Nodup) :
    (columnsByID columns).values = columns.entries.map fun e => ⟨e.1, e.2⟩ := by
  have hkeys : ((columns.entries.map fun e => (e.2.pos, (⟨e.1, e.2⟩ : Column))).map (·.1)).Nodup := by
    rw [List.map_map]; exact h
  have hentries := OrderedMap.entries_ofList hkeys
  show (columnsByID columns).entries.map (·.2) = _
  rw [show (columnsByID columns).entries = _ from hentries, List.map_map]
  rfl

theorem PublishedTable.represents (t : PublishedTable) (h : (t.columns.entries.map (·.2.pos)).Nodup) :
    Represents t.toCatalog ((columnsByID t.columns).values.map Column.entry) := by
  rw [values_columnsByID h, List.map_map]
  refine ⟨by rw [List.map_map]; exact t.columns.nodup, fun k v => ?_⟩
  simp only [PublishedTable.toCatalog, Option.map_eq_some_iff, List.mem_map, Function.comp_apply, Column.entry,
    Prod.mk.injEq, ← OrderedMap.mem_entries_iff]
  constructor
  · rintro ⟨spec, hm, hv⟩
    exact ⟨(k, spec), hm, rfl, hv⟩
  · rintro ⟨⟨k', spec⟩, hm, hk, hv⟩
    exact ⟨spec, hk ▸ hm, hv⟩

/-- The columns that a table loses. -/
def droppedColumns (p : PublishedTable × PublishedTable) : List Column :=
  onlyFirst (columnsByID p.1.columns) (columnsByID p.2.columns)

/-- The columns that a table gains. -/
def addedColumns (p : PublishedTable × PublishedTable) : List Column :=
  onlySecond (columnsByID p.1.columns) (columnsByID p.2.columns)

/-- No index of the table is on a column that is dropped. -/
def NoneIndexed (p : PublishedTable × PublishedTable) (indexes : List CatalogIndex) : Prop :=
  ∀ i ∈ indexes, i.table = p.1.id → ∀ c ∈ droppedColumns p, c.name ∉ i.names

/-- An index of the old table as an index of the new one. -/
def moved (p : PublishedTable × PublishedTable) (i : CatalogIndex) : CatalogIndex :=
  ⟨i.id, p.2.id, i.columns.map fun c => (Catalog.newName (keptColumns p) c.1, c.2), i.unique⟩

/-- Lets an index follow a kept table. -/
def carry : CatalogIndex → PublishedTable × PublishedTable → CatalogIndex := follow (·.table) (·.1.id) moved

section Table

variable {p : PublishedTable × PublishedTable} {tag : String} {cat : Catalog}
  {rest : List (Identifier × CatalogColumns)}

theorem accepts_rename {columns : List (String × CatalogColumn)} (hcolumns : Represents p.1.toCatalog columns)
    (hrep : Represents cat.tables (p.1.entry :: rest)) :
    (cat.applyAll (if p.1.id ≠ p.2.id then [.renameTable p.1.id p.2.id] else [])).Accepts (p.2.id ∉ rest.map (·.1))
      (Catalog.Holds p.2.id rest columns (cat.indexes.map (·.moveTable p.1.id p.2.id))) := by
  by_cases hid : p.1.id = p.2.id
  · rw [if_neg (not_not.mpr hid)]
    have hfree : p.2.id ∉ rest.map (·.1) := hid ▸ (List.nodup_cons.mp hrep.nodup).1
    refine .some_intro hfree ⟨p.1.toCatalog, by rw [← hid]; exact hrep, hcolumns, ?_⟩
    have hsame : CatalogIndex.moveTable p.1.id p.2.id = fun i => i := by
      funext i
      unfold CatalogIndex.moveTable
      split
      · next h => rw [← hid, ← h]
      · rfl
    rw [hsame, List.map_id']
  · have hhead : cat.tables p.1.id = some p.1.toCatalog := hrep.head
    rw [if_pos hid, Catalog.applyAll_cons, Catalog.apply, hhead]
    simp only [Option.bind_eq_bind, Option.bind_some, Catalog.applyAll_nil, Option.pure_def, Option.bind_fun_some]
    refine Option.Accepts.imp (hrep.accepts_replace.bind fun m _ hm => .some_intro trivial ?_)
      (and_iff_left trivial) (fun _ _ hQ => hQ)
    exact ⟨p.1.toCatalog, hm.2, hcolumns, rfl⟩

theorem accepts_metadata {columns : List (String × CatalogColumn)} {indexes : List CatalogIndex} {table : Identifier}
    (old new : TableMetadata) (h : Catalog.Holds table rest columns indexes cat) :
    (cat.applyAll (if old.deepEqual new then [] else [.updateTableMetadata table old new])).Accepts True
      (Catalog.Holds table rest columns indexes) := by
  split
  · exact .some_intro trivial h
  · obtain ⟨cols, hrep, -⟩ := id h
    rw [Catalog.applyAll_cons, Catalog.apply, hrep.head]
    exact .some_intro trivial h

theorem accepts_getTableChanges {l : List SchemaChange} (hl : getTableChanges p.1 p.2 tag = .ok l)
    (hold : (p.1.columns.entries.map (·.2.pos)).Nodup) (hnew : (p.2.columns.entries.map (·.2.pos)).Nodup)
    (hrep : Represents cat.tables (p.1.entry :: rest))
    (hindexes : ∀ i ∈ cat.indexes, i.table ∈ (p.1.entry :: rest).map (·.1)) :
    (cat.applyAll l).Accepts
      (p.2.id ∉ rest.map (·.1) ∧ NoneIndexed p cat.indexes ∧ (keptColumns p).Pairwise fun a b => a.2.name ≠ b.1.name)
      fun cat' => Represents cat'.tables (p.2.entry :: rest) ∧ cat'.indexes = cat.indexes.map fun i => carry i p := by
  obtain ⟨oldMetadata, -, hl⟩ := Fallible.bind_ok hl
  obtain ⟨newMetadata, -, hl⟩ := Fallible.bind_ok hl
  obtain rfl := Except.ok.inj hl
  have hcolumns : Represents p.1.toCatalog ((droppedColumns p).map Column.entry ++ (keptColumns p).map (·.1.entry)) := by
    refine (p.1.represents hold).perm (((values_perm_first _ (columnsByID p.2.columns)).map _).trans (List.Perm.of_eq ?_))
    rw [List.map_append, List.map_map]
    rfl
  have hcolumns' : Represents p.2.toCatalog ((keptColumns p).map (·.2.entry) ++ (addedColumns p).map Column.entry) := by
    refine (p.2.represents hnew).perm (((values_perm_second (columnsByID p.1.columns) _).map _).trans ?_)
    rw [List.map_append, List.map_map]
    exact List.perm_append_comm
  have hmoved : ∀ i ∈ cat.indexes, p.2.id ∉ rest.map (·.1) →
      ((i.moveTable p.1.id p.2.id).table = p.2.id ↔ i.table = p.1.id) := by
    intro i hi hfree
    unfold CatalogIndex.moveTable
    split
    · next h => simp [h]
    · next h =>
      refine iff_of_false (fun heq => ?_) h
      rcases List.mem_cons.mp (hindexes i hi) with hold | hrest
      · exact h hold
      · exact hfree (heq ▸ hrest)
  have hrenamed : ∀ i ∈ cat.indexes, p.2.id ∉ rest.map (·.1) →
      Catalog.renameColumns p.2.id (keptColumns p) (i.moveTable p.1.id p.2.id) = carry i p := by
    intro i hi hfree
    have hiff := hmoved i hi hfree
    unfold Catalog.renameColumns carry follow
    by_cases h : i.table = p.1.id
    · rw [if_pos (hiff.mpr h), if_pos h, CatalogIndex.moveTable, if_pos h]
      rfl
    · rw [if_neg (fun h' => h (hiff.mp h')), if_neg h, CatalogIndex.moveTable, if_neg h]
  have hkept : (([] : List (String × CatalogColumn)).map (·.1) ++ (keptColumns p).map (·.2.name)).Nodup := by
    have hnodup := hcolumns'.nodup
    rw [List.map_append, List.nodup_append] at hnodup
    simpa [Column.entry, Function.comp_def] using hnodup.1
  have hadded : ((addedColumns p).map (·.name) ++ ((keptColumns p).map (·.2.entry)).map (·.1)).Nodup := by
    have hnodup := (List.perm_append_comm.nodup_iff).mp (List.map_append ▸ hcolumns'.nodup)
    simpa [Column.entry, Function.comp_def] using hnodup
  simp only [Catalog.applyAll_append]
  have hall := ((((accepts_rename hcolumns hrep).bind fun _ _ h =>
    accepts_metadata oldMetadata newMetadata h).bind fun _ _ h =>
    h.applyAll fun _ => Catalog.accepts_dropColumns).bind fun _ _ h =>
    h.applyAll fun _ hcols => Catalog.accepts_updateColumns hcols hkept).bind fun _ _ h =>
    h.applyAll fun _ hcols => Catalog.accepts_addColumns newMetadata tag hcols hadded
  refine hall.imp ?_ ?_
  · simp only [and_true, and_assoc]
    refine and_congr_right fun hfree => and_congr_left fun _ => ?_
    simp only [List.mem_map, forall_exists_index, and_imp, forall_apply_eq_imp_iff₂, NoneIndexed,
      CatalogIndex.names_moveTable]
    exact forall₂_congr fun i hi => by rw [hmoved i hi hfree]
  · rintro cat' hP ⟨cols, hrep', hcols, hidx⟩
    have hfree := hP.1.1.1.1
    refine ⟨?_, ?_⟩
    · rw [hcols.ext hcolumns' (List.Perm.refl _)] at hrep'
      exact hrep'
    · rw [hidx, List.map_map]
      exact List.map_congr_left fun i hi => hrenamed i hi hfree

end Table

/-! ## All tables -/

@[simp] theorem id_carry (i : CatalogIndex) (p : PublishedTable × PublishedTable) : (carry i p).id = i.id := by
  unfold carry follow
  split <;> rfl

@[simp] theorem id_foldl_carry (ps : List (PublishedTable × PublishedTable)) (i : CatalogIndex) :
    (ps.foldl carry i).id = i.id := by
  induction ps generalizing i with
  | nil => rfl
  | cons p ps ih => rw [List.foldl_cons, ih, id_carry]

theorem noneIndexed_carry {p q : PublishedTable × PublishedTable} (hold : p.1.id ≠ q.1.id) (hnew : p.2.id ≠ q.1.id)
    (indexes : List CatalogIndex) : NoneIndexed q (indexes.map fun i => carry i p) ↔ NoneIndexed q indexes := by
  simp only [NoneIndexed, List.mem_map, forall_exists_index, and_imp, forall_apply_eq_imp_iff₂]
  refine forall₂_congr fun i _ => ?_
  unfold carry follow
  by_cases h : i.table = p.1.id
  · rw [if_pos h, h]
    exact iff_of_true (fun h' => absurd h' hnew) (fun h' => absurd h' hold)
  · rw [if_neg h]

theorem accepts_alterTables {tag : String} {ps : List (PublishedTable × PublishedTable)}
    {alters : List (List SchemaChange)} (halters : ps.mapM (fun (old, new) => getTableChanges old new tag) = .ok alters)
    (hpos : ∀ p ∈ ps, (p.1.columns.entries.map (·.2.pos)).Nodup ∧ (p.2.columns.entries.map (·.2.pos)).Nodup)
    {cat : Catalog} {done : List (Identifier × CatalogColumns)}
    (hrep : Represents cat.tables (done ++ ps.map (·.1.entry))) (hnew : (done.map (·.1) ++ ps.map (·.2.id)).Nodup)
    (hindexes : ∀ i ∈ cat.indexes, i.table ∈ (done ++ ps.map (·.1.entry)).map (·.1)) :
    (cat.applyAll alters.flatten).Accepts
      (ps.Pairwise (fun a b => a.2.id ≠ b.1.id) ∧
        ∀ p ∈ ps, NoneIndexed p cat.indexes ∧ (keptColumns p).Pairwise fun a b => a.2.name ≠ b.1.name)
      fun cat' => Represents cat'.tables (done ++ ps.map (·.2.entry)) ∧
        cat'.indexes = cat.indexes.map fun i => ps.foldl carry i := by
  induction ps generalizing alters cat done with
  | nil =>
    obtain rfl := Except.ok.inj halters
    exact .some_intro ⟨List.Pairwise.nil, by simp⟩ ⟨hrep, by simp⟩
  | cons p ps ih =>
    rw [List.mapM_cons] at halters
    obtain ⟨l, hl, halters⟩ := Fallible.bind_ok halters
    obtain ⟨ls, hls, halters⟩ := Fallible.bind_ok halters
    obtain rfl := Except.ok.inj halters
    have hperm : (done ++ (p :: ps).map (·.1.entry)).Perm (p.1.entry :: (done ++ ps.map (·.1.entry))) := List.perm_middle
    have hrep' := hrep.perm hperm
    have hindexes' : ∀ i ∈ cat.indexes, i.table ∈ (p.1.entry :: (done ++ ps.map (·.1.entry))).map (·.1) :=
      fun i hi => (hperm.map _).mem_iff.mp (hindexes i hi)
    have hp := hpos p (List.mem_cons_self ..)
    have hstep := accepts_getTableChanges hl hp.1 hp.2 hrep' hindexes'
    have hnew' : ((done ++ [p.2.entry]).map (·.1) ++ ps.map (·.2.id)).Nodup := by
      simpa [PublishedTable.entry] using hnew
    have hrest : ∀ cat' : Catalog, Represents cat'.tables (p.2.entry :: (done ++ ps.map (·.1.entry))) ∧
        cat'.indexes = cat.indexes.map (fun i => carry i p) →
        (cat'.applyAll ls.flatten).Accepts
          (ps.Pairwise (fun a b => a.2.id ≠ b.1.id) ∧ ∀ q ∈ ps, NoneIndexed q (cat.indexes.map fun i => carry i p) ∧
            (keptColumns q).Pairwise fun a b => a.2.name ≠ b.1.name)
          fun cat'' => Represents cat''.tables (done ++ (p :: ps).map (·.2.entry)) ∧
            cat''.indexes = cat.indexes.map fun i => (p :: ps).foldl carry i := by
      rintro cat' ⟨hrep'', hidx⟩
      have hperm' : (p.2.entry :: (done ++ ps.map (·.1.entry))).Perm (done ++ [p.2.entry] ++ ps.map (·.1.entry)) := by
        rw [List.append_assoc]
        exact List.perm_middle.symm
      have hcarried : ∀ i ∈ cat'.indexes, i.table ∈ (done ++ [p.2.entry] ++ ps.map (·.1.entry)).map (·.1) := by
        rw [hidx]
        rintro _ hx
        obtain ⟨i, hi, rfl⟩ := List.mem_map.mp hx
        refine (hperm'.map _).mem_iff.mp ?_
        unfold carry follow
        by_cases h : i.table = p.1.id
        · rw [if_pos h]
          exact List.mem_cons_self ..
        · rw [if_neg h]
          exact List.mem_cons_of_mem _ ((List.mem_cons.mp (hindexes' i hi)).resolve_left h)
      have hall := ih hls (fun q hq => hpos q (List.mem_cons_of_mem _ hq)) (hrep''.perm hperm') hnew' hcarried
      rw [hidx] at hall
      refine hall.imp Iff.rfl ?_
      rintro cat'' - ⟨hrep₃, hidx'⟩
      exact ⟨by simpa using hrep₃, by rw [hidx', List.map_map]; rfl⟩
    rw [List.flatten_cons, Catalog.applyAll_append]
    refine (hstep.bind fun cat' _ => hrest cat').imp ?_ (fun _ _ hQ => hQ)
    have hdone : p.2.id ∉ done.map (·.1) := fun hm =>
      (List.nodup_append.mp hnew).2.2 _ hm _ (List.mem_cons_self ..) rfl
    have hfree : p.2.id ∉ (done ++ ps.map (·.1.entry)).map (·.1) ↔ ∀ q ∈ ps, p.2.id ≠ q.1.id := by
      rw [List.map_append, List.mem_append, not_or, and_iff_right hdone]
      simp [PublishedTable.entry, eq_comm]
    have hother : ∀ q ∈ ps, p.1.id ≠ q.1.id := by
      intro q hq heq
      refine (List.nodup_cons.mp hrep'.nodup).1 ?_
      simp only [List.map_append, List.mem_append, List.map_map, List.mem_map]
      exact .inr ⟨q, hq, heq.symm⟩
    rw [hfree, List.pairwise_cons, List.forall_mem_cons]
    constructor
    · rintro ⟨⟨hfirst, hp'⟩, hpairs, hqs⟩
      exact ⟨⟨hfirst, hpairs⟩, hp', fun q hq =>
        ⟨(noneIndexed_carry (hother q hq) (hfirst q hq) _).mp (hqs q hq).1, (hqs q hq).2⟩⟩
    · rintro ⟨⟨hfirst, hpairs⟩, hp', hqs⟩
      exact ⟨⟨hfirst, hp'⟩, hpairs, fun q hq =>
        ⟨(noneIndexed_carry (hother q hq) (hfirst q hq) _).mpr (hqs q hq).1, (hqs q hq).2⟩⟩

/-! ## Indexes -/

/-- The attnum of a column. -/
def PublishedTable.attnum (t : PublishedTable) (c : String) : Option ℕ := (t.columns.get? c).map (·.pos)

/-- An index of the one schema is taken for an index of the other. -/
def Unchanged (prev next : PublishedSchema) (i j : PublishedIndex) : Prop :=
  idString i.id = idString j.id ∧ isIndexStructurallyChanged i j (tablesByID prev) (tablesByID next) = false

/-- The same index of the same table, on the same columns in the same order. -/
def SameIndex (prev next : PublishedSchema) (i j : PublishedIndex) : Prop :=
  i.id = j.id ∧ ∃ p ∈ keptTables prev next, p.1.id = i.table ∧ p.2.id = j.table ∧
    i.columns.keys.map p.1.attnum = j.columns.keys.map p.2.attnum

theorem get?_indexesByID {s : PublishedSchema} (hs : s.Valid) {k : String} {i : PublishedIndex} :
    (indexesByID s).get? k = some i ↔ i ∈ s.indexes ∧ idString i.id = k := by
  rw [← OrderedMap.mem_entries_iff]
  exact OrderedMap.mem_entries_ofList_key (List.inj_on_of_nodup_map hs.indexNames) k i

theorem get?_tablesByID {s : PublishedSchema} (hs : s.Valid) {k : ℕ} {t : PublishedTable} :
    (tablesByID s).get? k = some t ↔ t ∈ s.tables ∧ t.oid = k := by
  rw [← OrderedMap.mem_entries_iff]
  exact OrderedMap.mem_entries_ofList_key (List.inj_on_of_nodup_map hs.oids) k t

theorem values_tablesByID {s : PublishedSchema} (hs : s.Valid) : (tablesByID s).values = s.tables := by
  have hkeys : ((s.tables.map fun t => (t.oid, t)).map (·.1)).Nodup := by
    rw [List.map_map]; exact hs.oids
  show (tablesByID s).entries.map (·.2) = _
  rw [show (tablesByID s).entries = _ from OrderedMap.entries_ofList hkeys, List.map_map]
  exact List.map_id _

section Indexes

variable {prev next : PublishedSchema} (hprev : prev.Valid) (hnext : next.Valid)

include hprev hnext

theorem mem_keptTables {p : PublishedTable × PublishedTable} :
    p ∈ keptTables prev next ↔ p.1 ∈ prev.tables ∧ p.2 ∈ next.tables ∧ p.1.oid = p.2.oid := by
  simp only [keptTables, mem_kept, get?_tablesByID hprev, get?_tablesByID hnext]
  constructor
  · rintro ⟨k, ⟨h₁, hk₁⟩, h₂, hk₂⟩
    exact ⟨h₁, h₂, hk₁.trans hk₂.symm⟩
  · rintro ⟨h₁, h₂, hk⟩
    exact ⟨_, ⟨h₁, rfl⟩, h₂, hk.symm⟩

theorem mem_changedIndexes {k : String} : k ∈ changedIndexes prev next ↔
    ∃ i ∈ prev.indexes, ∃ j ∈ next.indexes, idString i.id = k ∧ idString j.id = k ∧ ¬ Unchanged prev next i j := by
  simp only [changedIndexes, List.mem_filter, Option.any_eq_true, Prod.exists, both_eq_some, get?_indexesByID hprev,
    get?_indexesByID hnext, Unchanged, not_and, Bool.not_eq_false]
  constructor
  · rintro ⟨-, i, j, ⟨⟨hi, hik⟩, hj, hjk⟩, hchanged⟩
    exact ⟨i, hi, j, hj, hik, hjk, fun _ => hchanged⟩
  · rintro ⟨i, hi, j, hj, hik, hjk, hchanged⟩
    refine ⟨mem_intersection.mpr ⟨?_, ?_⟩, i, j, ⟨⟨hi, hik⟩, hj, hjk⟩, hchanged (hik.trans hjk.symm)⟩
    · rw [(get?_indexesByID hprev).mpr ⟨hi, hik⟩]; rfl
    · rw [(get?_indexesByID hnext).mpr ⟨hj, hjk⟩]; rfl

theorem mem_droppedIndexes {i : PublishedIndex} :
    i ∈ droppedIndexes prev next ↔ i ∈ prev.indexes ∧ ∀ j ∈ next.indexes, ¬ Unchanged prev next i j := by
  simp only [droppedIndexes, List.filterMap_append, List.mem_append]
  rw [show List.filterMap (indexesByID prev).get? (symmetricDifferences (indexesByID prev) (indexesByID next)).1 =
    onlyFirst (indexesByID prev) (indexesByID next) from rfl, mem_onlyFirst]
  simp only [List.mem_filterMap, mem_changedIndexes hprev hnext, get?_indexesByID hprev]
  constructor
  · rintro (⟨k, ⟨hi, hk⟩, hnone⟩ | ⟨k, ⟨i', hi', j, hj, hik, hjk, hun⟩, hi, hk⟩)
    · refine ⟨hi, fun j hj hun => ?_⟩
      have hsome := (get?_indexesByID hnext).mpr ⟨hj, hun.1.symm.trans hk⟩
      rw [hnone] at hsome
      cases hsome
    · obtain rfl := List.inj_on_of_nodup_map hprev.indexNames hi' hi (hik.trans hk.symm)
      refine ⟨hi, fun j' hj' hun' => hun ?_⟩
      obtain rfl := List.inj_on_of_nodup_map hnext.indexNames hj hj' (hjk.trans (hik.symm.trans hun'.1))
      exact hun'
  · rintro ⟨hi, hall⟩
    cases hget : (indexesByID next).get? (idString i.id) with
    | none => exact .inl ⟨_, ⟨hi, rfl⟩, hget⟩
    | some j =>
      obtain ⟨hj, hjk⟩ := (get?_indexesByID hnext).mp hget
      exact .inr ⟨_, ⟨i, hi, j, hj, rfl, hjk, hall j hj⟩, hi, rfl⟩

theorem mem_createdIndexes {j : PublishedIndex} :
    j ∈ createdIndexes prev next ↔ j ∈ next.indexes ∧ ∀ i ∈ prev.indexes, ¬ Unchanged prev next i j := by
  simp only [createdIndexes, List.filterMap_append, List.mem_append]
  rw [show List.filterMap (indexesByID next).get? (symmetricDifferences (indexesByID prev) (indexesByID next)).2 =
    onlySecond (indexesByID prev) (indexesByID next) from rfl, mem_onlySecond]
  simp only [List.mem_filterMap, mem_changedIndexes hprev hnext, get?_indexesByID hnext]
  constructor
  · rintro (⟨k, ⟨hj, hk⟩, hnone⟩ | ⟨k, ⟨i, hi, j', hj', hik, hjk, hun⟩, hj, hk⟩)
    · refine ⟨hj, fun i hi hun => ?_⟩
      have hsome := (get?_indexesByID hprev).mpr ⟨hi, hun.1.trans hk⟩
      rw [hnone] at hsome
      cases hsome
    · obtain rfl := List.inj_on_of_nodup_map hnext.indexNames hj' hj (hjk.trans hk.symm)
      refine ⟨hj, fun i' hi' hun' => hun ?_⟩
      obtain rfl := List.inj_on_of_nodup_map hprev.indexNames hi hi' (hik.trans (hjk.symm.trans hun'.1.symm))
      exact hun'
  · rintro ⟨hj, hall⟩
    cases hget : (indexesByID prev).get? (idString j.id) with
    | none => exact .inl ⟨_, ⟨hj, rfl⟩, hget⟩
    | some i =>
      obtain ⟨hi, hik⟩ := (get?_indexesByID hprev).mp hget
      exact .inr ⟨_, ⟨i, hi, j, hj, hik, rfl, hall i hi⟩, hj, rfl⟩

end Indexes

theorem nodup_filterMap_indexes {s : PublishedSchema} (hs : s.Valid) {ks : List String} (hks : ks.Nodup) :
    ((ks.filterMap (indexesByID s).get?).map (·.id)).Nodup := by
  have hkey : ∀ {k i}, (indexesByID s).get? k = some i → idString i.id = k := fun h => ((get?_indexesByID hs).mp h).2
  refine List.Nodup.map_on ?_ (hks.filterMap fun k k' i hk hk' => (hkey hk).symm.trans (hkey hk'))
  intro i hi j hj heq
  obtain ⟨k, -, hk⟩ := List.mem_filterMap.mp hi
  obtain ⟨k', -, hk'⟩ := List.mem_filterMap.mp hj
  exact List.inj_on_of_nodup_map hs.indexNames ((get?_indexesByID hs).mp hk).1 ((get?_indexesByID hs).mp hk').1
    (congrArg idString heq)

theorem nodup_changedIndexes (prev next : PublishedSchema) : (changedIndexes prev next).Nodup :=
  nodup_intersection.filter _

theorem nodup_droppedIndexes {prev next : PublishedSchema} (hprev : prev.Valid) :
    ((droppedIndexes prev next).map (·.id)).Nodup := by
  refine nodup_filterMap_indexes hprev (((indexesByID prev).nodup.filter _).append (nodup_changedIndexes prev next) ?_)
  intro k hk hk'
  have hsome := (mem_intersection.mp (List.mem_filter.mp hk').1).2
  have hnone := (List.mem_filter.mp hk).2
  rw [OrderedMap.contains, hsome] at hnone
  cases hnone

theorem nodup_createdIndexes {prev next : PublishedSchema} (hnext : next.Valid) :
    ((createdIndexes prev next).map (·.id)).Nodup := by
  refine nodup_filterMap_indexes hnext (((indexesByID next).nodup.filter _).append (nodup_changedIndexes prev next) ?_)
  intro k hk hk'
  have hsome := (mem_intersection.mp (List.mem_filter.mp hk').1).1
  have hnone := (List.mem_filter.mp hk).2
  rw [OrderedMap.contains, hsome] at hnone
  cases hnone

theorem attnum_injOn {t : PublishedTable} (ht : (t.columns.entries.map (·.2.pos)).Nodup) {c c' : String} {n : ℕ}
    (hc : t.attnum c = some n) (hc' : t.attnum c' = some n) : c = c' := by
  obtain ⟨spec, hspec, hn⟩ := Option.map_eq_some_iff.mp hc
  obtain ⟨spec', hspec', hn'⟩ := Option.map_eq_some_iff.mp hc'
  have hentry := (OrderedMap.mem_entries_iff ..).mpr hspec
  have hentry' := (OrderedMap.mem_entries_iff ..).mpr hspec'
  exact congrArg Prod.fst (List.inj_on_of_nodup_map ht hentry hentry' (hn.trans hn'.symm))

theorem get?_columnsByID {t : PublishedTable} (ht : (t.columns.entries.map (·.2.pos)).Nodup) {n : ℕ} {c : Column} :
    (columnsByID t.columns).get? n = some c ↔ t.columns.get? c.name = some c.spec ∧ c.spec.pos = n := by
  rw [← OrderedMap.mem_entries_iff, ← OrderedMap.mem_entries_iff]
  have hkeys : ((t.columns.entries.map fun e => (e.2.pos, (⟨e.1, e.2⟩ : Column))).map (·.1)).Nodup := by
    rw [List.map_map]; exact ht
  rw [columnsByID, OrderedMap.entries_ofList hkeys, List.mem_map]
  constructor
  · rintro ⟨e, he, heq⟩
    obtain ⟨rfl, rfl⟩ := Prod.mk.inj heq
    exact ⟨he, rfl⟩
  · rintro ⟨he, rfl⟩
    exact ⟨_, he, rfl⟩

theorem attnum_newName {p : PublishedTable × PublishedTable} (hold : (p.1.columns.entries.map (·.2.pos)).Nodup)
    (hnew : (p.2.columns.entries.map (·.2.pos)).Nodup)
    (hnames : (keptColumns p).Pairwise fun a b => a.2.name ≠ b.1.name) {c : String} {n : ℕ} (hc : p.1.attnum c = some n)
    (hkept : ∀ d ∈ droppedColumns p, d.name ≠ c) : p.2.attnum (Catalog.newName (keptColumns p) c) = some n := by
  obtain ⟨spec, hspec, rfl⟩ := Option.map_eq_some_iff.mp hc
  have hfirst : (columnsByID p.1.columns).get? spec.pos = some ⟨c, spec⟩ := (get?_columnsByID hold).mpr ⟨hspec, rfl⟩
  cases hsecond : (columnsByID p.2.columns).get? spec.pos with
  | none => exact absurd rfl (hkept _ (mem_onlyFirst.mpr ⟨_, hfirst, hsecond⟩))
  | some d =>
    have hmem : ((⟨c, spec⟩, d) : Column × Column) ∈ keptColumns p := mem_kept.mpr ⟨_, hfirst, hsecond⟩
    have hnodup : ((keptColumns p).map (·.1.name)).Nodup := by
      have hrep := (p.1.represents hold).nodup
      have hperm := (values_perm_first (columnsByID p.1.columns) (columnsByID p.2.columns)).map Column.name
      rw [List.map_append, List.map_map] at hperm
      rw [List.map_map] at hrep
      exact (List.nodup_append.mp (hperm.nodup_iff.mp hrep)).2.1
    have hnewName : (keptColumns p).foldl (follow id (·.1.name) fun k _ => k.2.name) c = d.name :=
      foldl_follow hnodup hnames hmem rfl rfl
    obtain ⟨hd, hpos⟩ := (get?_columnsByID hnew).mp hsecond
    rw [Catalog.newName, hnewName, PublishedTable.attnum, hd, ← hpos]
    rfl

theorem entries_eq_of_keys {κ α : Type} {l l' : List (κ × α)} (hnodup : (l'.map (·.1)).Nodup)
    (hkeys : l.map (·.1) = l'.map (·.1)) (hsub : ∀ e ∈ l, e ∈ l') : l = l' := by
  induction l generalizing l' with
  | nil => exact (List.map_eq_nil_iff.mp hkeys.symm).symm
  | cons e l ih =>
    cases l' with
    | nil => cases hkeys
    | cons e' l' =>
      obtain ⟨hkey, htail⟩ := List.cons.inj hkeys
      obtain ⟨hfirst, hnodup'⟩ := List.nodup_cons.mp hnodup
      have hhead : e = e' := (List.mem_cons.mp (hsub e (List.mem_cons_self ..))).resolve_right fun hm =>
        hfirst (hkey ▸ List.mem_map_of_mem hm)
      refine congrArg₂ _ hhead (ih hnodup' htail fun x hx => ?_)
      refine (List.mem_cons.mp (hsub x (List.mem_cons_of_mem _ hx))).resolve_left fun heq => hfirst ?_
      rw [← htail, ← heq]
      exact List.mem_map_of_mem hx

section Kept

variable {prev next : PublishedSchema} (hprev : prev.Valid) (hnext : next.Valid)

theorem find?_tablesByID {s : PublishedSchema} (hs : s.Valid) {schema name : String} {t : PublishedTable} :
    findTableBySchemaAndName (tablesByID s) schema name = some t ↔ t ∈ s.tables ∧ t.id = ⟨schema, name⟩ := by
  rw [findTableBySchemaAndName, values_tablesByID hs]
  constructor
  · intro h
    have hmem := List.mem_of_find?_eq_some h
    have hname := List.find?_some h
    simp only [Bool.and_eq_true, decide_eq_true_eq] at hname
    exact ⟨hmem, by simp [PublishedTable.id, hname]⟩
  · rintro ⟨hmem, hid⟩
    cases h : s.tables.find? fun table => table.schema = schema && table.name = name with
    | none =>
      have hno := List.find?_eq_none.mp h t hmem
      simp only [PublishedTable.id, Identifier.mk.injEq] at hid
      simp [hid] at hno
    | some u =>
      have hname := List.find?_some h
      simp only [Bool.and_eq_true, decide_eq_true_eq] at hname
      have hu : u.id = t.id := by rw [hid]; simp [PublishedTable.id, hname]
      rw [List.inj_on_of_nodup_map hs.tableNames (List.mem_of_find?_eq_some h) hmem hu]

theorem Unchanged.columns {i j : PublishedIndex} (h : Unchanged prev next i j) {t u : PublishedTable}
    (ht : findTableBySchemaAndName (tablesByID prev) i.schema i.tableName = some t)
    (hu : findTableBySchemaAndName (tablesByID next) j.schema j.tableName = some u)
    (hnodup : (i.columns.keys.map t.attnum).Nodup) :
    i.unique = j.unique ∧
      ∀ c dir, (c, dir) ∈ i.columns.entries → ∃ c', (c', dir) ∈ j.columns.entries ∧ u.attnum c' = t.attnum c := by
  obtain ⟨-, hchanged⟩ := h
  unfold isIndexStructurallyChanged at hchanged
  rw [ht, hu] at hchanged
  split at hchanged
  · cases hchanged
  · next hflags =>
    simp only [ne_eq, not_or, not_not] at hflags
    refine ⟨hflags.1, fun c dir hc => ?_⟩
    simp only [ne_eq] at hchanged
    split_ifs at hchanged with hlen hnone hsize
    have hkeys : ((i.columns.entries.map fun e => (t.attnum e.1, e.2)).map (·.1)).Nodup := by
      rw [List.map_map]
      simpa [OrderedMap.keys, Function.comp_def] using hnodup
    have hentries : (byAttnum t i.columns).entries = i.columns.entries.map fun e => (t.attnum e.1, e.2) :=
      OrderedMap.entries_ofList hkeys
    have hget := List.any_eq_false.mp hchanged (t.attnum c, dir) (by rw [hentries]; exact List.mem_map_of_mem hc)
    have hget' : (byAttnum u j.columns).get? (t.attnum c) = some dir := by simpa using hget
    rw [byAttnum, OrderedMap.get?_ofList, Option.map_eq_some_iff] at hget'
    obtain ⟨⟨a, d⟩, hfind, rfl⟩ := hget'
    have hmem := List.mem_reverse.mp (List.mem_of_find?_eq_some hfind)
    obtain ⟨⟨c', d'⟩, hmem', heq⟩ := List.mem_map.mp hmem
    obtain ⟨rfl, rfl⟩ := Prod.mk.inj heq
    have hattnum := List.find?_some hfind
    exact ⟨c', hmem', of_decide_eq_true hattnum⟩

theorem attnum_isSome {s : PublishedSchema} (hs : s.Valid) {i : PublishedIndex} (hi : i ∈ s.indexes) {t : PublishedTable}
    (ht : t ∈ s.tables) (hid : t.id = i.table) : ∀ c ∈ i.columns.keys, ∃ n, t.attnum c = some n := by
  obtain ⟨t', ht', hid', hall⟩ := hs.indexed i hi
  obtain rfl := List.inj_on_of_nodup_map hs.tableNames ht' ht (hid'.trans hid.symm)
  intro c hc
  obtain ⟨spec, hspec⟩ := Option.isSome_iff_exists.mp (hall c hc)
  exact ⟨spec.pos, by rw [PublishedTable.attnum, hspec]; rfl⟩

include hprev hnext

theorem moved_eq_iff {i j : PublishedIndex} (hi : i ∈ prev.indexes)
    (hun : Unchanged prev next i j) {p : PublishedTable × PublishedTable} (hp : p ∈ keptTables prev next)
    (hold : p.1.id = i.table) (hnew : p.2.id = j.table)
    (hnames : (keptColumns p).Pairwise fun a b => a.2.name ≠ b.1.name)
    (hkept : ∀ d ∈ droppedColumns p, d.name ∉ i.columns.keys) :
    moved p i.toCatalog = j.toCatalog ↔
      i.id = j.id ∧ i.columns.keys.map p.1.attnum = j.columns.keys.map p.2.attnum := by
  obtain ⟨hp₁, hp₂, -⟩ := (mem_keptTables hprev hnext).mp hp
  have hpos₁ := hprev.attnums _ hp₁
  have hpos₂ := hnext.attnums _ hp₂
  have hsome := attnum_isSome hprev hi hp₁ hold
  have hrename : ∀ c ∈ i.columns.keys, p.2.attnum (Catalog.newName (keptColumns p) c) = p.1.attnum c := by
    intro c hc
    obtain ⟨n, hn⟩ := hsome c hc
    rw [hn]
    exact attnum_newName hpos₁ hpos₂ hnames hn fun d hd heq => hkept d hd (heq ▸ hc)
  constructor
  · intro heq
    have hcolumns : i.columns.entries.map (fun c => (Catalog.newName (keptColumns p) c.1, c.2)) = j.columns.entries :=
      congrArg CatalogIndex.columns heq
    have hkeys : j.columns.keys = i.columns.keys.map (Catalog.newName (keptColumns p)) := by
      rw [OrderedMap.keys, ← hcolumns, List.map_map, OrderedMap.keys, List.map_map]
      rfl
    refine ⟨congrArg CatalogIndex.id heq, ?_⟩
    rw [hkeys, List.map_map]
    exact List.map_congr_left fun c hc => (hrename c hc).symm
  · rintro ⟨hid, hattnums⟩
    have hnodup : (i.columns.keys.map p.1.attnum).Nodup := by
      refine List.Nodup.map_on (fun c hc c' hc' heq => ?_) i.columns.nodup
      obtain ⟨n, hn⟩ := hsome c hc
      exact attnum_injOn hpos₁ hn (heq ▸ hn)
    obtain ⟨hunique, hdirs⟩ := hun.columns ((find?_tablesByID hprev).mpr ⟨hp₁, hold⟩)
      ((find?_tablesByID hnext).mpr ⟨hp₂, hnew⟩) hnodup
    -- the name that a column gets is the one with its attnum
    have hname : ∀ c ∈ i.columns.keys, ∀ c', p.2.attnum c' = p.1.attnum c →
        Catalog.newName (keptColumns p) c = c' := by
      intro c hc c' hc'
      obtain ⟨n, hn⟩ := hsome c hc
      exact attnum_injOn hpos₂ ((hrename c hc).trans hn) (hc'.trans hn)
    have hkeys : i.columns.keys.map (Catalog.newName (keptColumns p)) = j.columns.keys := by
      have hlen : i.columns.keys.length = j.columns.keys.length := by simpa using congrArg List.length hattnums
      refine List.ext_get (by simpa using hlen) fun n h h' => ?_
      rw [List.length_map] at h
      have hget : p.1.attnum (i.columns.keys.get ⟨n, h⟩) = p.2.attnum (j.columns.keys.get ⟨n, h'⟩) := by
        have hn := congrArg (fun l => l[n]?) hattnums
        simpa [h, h'] using hn
      rw [List.get_eq_getElem, List.getElem_map]
      exact hname _ (List.getElem_mem h) _ hget.symm
    have hcolumns : i.columns.entries.map (fun c => (Catalog.newName (keptColumns p) c.1, c.2)) = j.columns.entries := by
      refine entries_eq_of_keys j.columns.nodup ?_ ?_
      · rw [List.map_map]
        rw [OrderedMap.keys, List.map_map] at hkeys
        exact hkeys
      · intro e he
        obtain ⟨⟨c, dir⟩, hc, rfl⟩ := List.mem_map.mp he
        obtain ⟨c', hc', hattnum⟩ := hdirs c dir hc
        rw [hname c (List.mem_map_of_mem (f := (·.1)) hc) c' hattnum]
        exact hc'
    simp only [moved, PublishedIndex.toCatalog, CatalogIndex.mk.injEq]
    exact ⟨hid, hnew, hcolumns, hunique⟩

end Kept

/-! ## The whole catalog -/

/-- The condition under which the changes lead from the one schema to the other. -/
structure Applicable (prev next : PublishedSchema) : Prop where
  /-- No table takes a name that a table altered later still has. -/
  tables : (keptTables prev next).Pairwise fun a b => a.2.id ≠ b.1.id
  /-- No column takes a name that a column of its table updated later still has. -/
  columns : ∀ p ∈ keptTables prev next, (keptColumns p).Pairwise fun a b => a.2.name ≠ b.1.name
  /-- What is taken for one index is one index. -/
  indexes : ∀ i ∈ prev.indexes, ∀ j ∈ next.indexes, Unchanged prev next i j → SameIndex prev next i j

theorem represents_ofSchema {s : PublishedSchema} (hs : s.Valid) :
    Represents (Catalog.ofSchema s).tables (s.tables.map PublishedTable.entry) := by
  refine ⟨by rw [List.map_map]; exact hs.tableNames, fun id v => ?_⟩
  simp only [Catalog.ofSchema, Option.map_eq_some_iff, List.mem_map, PublishedTable.entry, Prod.mk.injEq]
  constructor
  · rintro ⟨t, ht, rfl⟩
    exact ⟨t, List.mem_of_find?_eq_some ht, by simpa using List.find?_some ht, rfl⟩
  · rintro ⟨t, ht, rfl, rfl⟩
    cases h : s.tables.find? fun u => u.id = t.id with
    | none => simpa using List.find?_eq_none.mp h t ht
    | some u =>
      have hu : u.id = t.id := by simpa using List.find?_some h
      exact ⟨u, rfl, by rw [List.inj_on_of_nodup_map hs.tableNames (List.mem_of_find?_eq_some h) ht hu]⟩

section Whole

variable {prev next : PublishedSchema} (hprev : prev.Valid) (hnext : next.Valid)

/-- The indexes that are left when indexes and tables have been dropped. -/
def survivingIndexes (prev next : PublishedSchema) : List CatalogIndex :=
  ((prev.indexes.map PublishedIndex.toCatalog).filter fun i => i.id ∉ (droppedIndexes prev next).map (·.id)).filter
    fun i => i.table ∉ (onlyFirst (tablesByID prev) (tablesByID next)).map (·.id)

/-- The indexes in the end. -/
def resultingIndexes (prev next : PublishedSchema) : List CatalogIndex :=
  (survivingIndexes prev next).map (fun i => (keptTables prev next).foldl carry i) ++
    (createdIndexes prev next).map PublishedIndex.toCatalog

include hprev hnext

theorem mem_survivingIndexes {x : CatalogIndex} : x ∈ survivingIndexes prev next ↔
    ∃ i ∈ prev.indexes, i.toCatalog = x ∧ (∃ j ∈ next.indexes, Unchanged prev next i j) ∧
      ∃ p ∈ keptTables prev next, p.1.id = i.table := by
  have hdropped : ∀ i ∈ prev.indexes, i.id ∉ (droppedIndexes prev next).map (·.id) ↔
      ∃ j ∈ next.indexes, Unchanged prev next i j := by
    intro i hi
    have hid : i.id ∈ (droppedIndexes prev next).map (·.id) ↔ i ∈ droppedIndexes prev next := by
      refine ⟨fun hm => ?_, List.mem_map_of_mem⟩
      obtain ⟨i', hi', heq⟩ := List.mem_map.mp hm
      have hmem := ((mem_droppedIndexes hprev hnext).mp hi').1
      rwa [← List.inj_on_of_nodup_map hprev.indexNames hmem hi (congrArg idString heq)]
    rw [hid, mem_droppedIndexes hprev hnext]
    simp [hi]
  have htable : ∀ i ∈ prev.indexes, i.table ∉ (onlyFirst (tablesByID prev) (tablesByID next)).map (·.id) ↔
      ∃ p ∈ keptTables prev next, p.1.id = i.table := by
    intro i hi
    obtain ⟨t, ht, hid, -⟩ := hprev.indexed i hi
    have hperm := (values_perm_first (tablesByID prev) (tablesByID next)).map PublishedTable.id
    rw [values_tablesByID hprev, List.map_append, List.map_map] at hperm
    have hdisj := List.nodup_append.mp (hperm.nodup_iff.mp hprev.tableNames)
    have hmem := (hperm.mem_iff (a := i.table)).mp (hid ▸ List.mem_map_of_mem ht)
    constructor
    · intro hnot
      obtain ⟨p, hp, heq⟩ := List.mem_map.mp ((List.mem_append.mp hmem).resolve_left hnot)
      exact ⟨p, hp, heq⟩
    · rintro ⟨p, hp, heq⟩ hm
      exact hdisj.2.2 _ hm _ (List.mem_map.mpr ⟨p, hp, heq⟩) rfl
  simp only [survivingIndexes, List.mem_filter, decide_eq_true_eq]
  constructor
  · rintro ⟨⟨hx, hid⟩, ht⟩
    obtain ⟨i, hi, rfl⟩ := List.mem_map.mp hx
    exact ⟨i, hi, rfl, (hdropped i hi).mp hid, (htable i hi).mp ht⟩
  · rintro ⟨i, hi, rfl, hj, hp⟩
    exact ⟨⟨List.mem_map_of_mem hi, (hdropped i hi).mpr hj⟩, (htable i hi).mpr hp⟩

theorem nodup_resultingIndexes :
    ((survivingIndexes prev next).map (·.id) ++ (createdIndexes prev next).map (·.id)).Nodup := by
  have hids : ∀ {s : PublishedSchema}, s.Valid → ((s.indexes.map PublishedIndex.toCatalog).map (·.id)).Nodup := by
    intro s hs
    rw [List.map_map]
    exact List.Nodup.of_map idString (by rw [List.map_map]; exact hs.indexNames)
  have hsurviving : ((survivingIndexes prev next).map (·.id)).Nodup :=
    (hids hprev).sublist ((List.filter_sublist.trans List.filter_sublist).map _)
  refine hsurviving.append (nodup_createdIndexes hnext) fun id hid hid' => ?_
  obtain ⟨x, hx, rfl⟩ := List.mem_map.mp hid
  obtain ⟨i, hi, rfl, ⟨j, hj, hun⟩, -⟩ := (mem_survivingIndexes hprev hnext).mp hx
  obtain ⟨k, hk, heq⟩ := List.mem_map.mp hid'
  obtain ⟨hk', hnone⟩ := (mem_createdIndexes hprev hnext).mp hk
  have hkj : idString k.id = idString j.id := (congrArg idString heq).trans hun.1
  obtain rfl := List.inj_on_of_nodup_map hnext.indexNames hk' hj hkj
  exact hnone i hi hun

theorem accepts_drops :
    ((Catalog.ofSchema prev).applyAll ((droppedIndexes prev next).map (fun i => .dropIndex i.id) ++
      (onlyFirst (tablesByID prev) (tablesByID next)).map fun t => .dropTable t.id)).Accepts True
      fun cat => Represents cat.tables ((keptTables prev next).map (·.1.entry)) ∧
        cat.indexes = survivingIndexes prev next := by
  have hperm := (values_perm_first (tablesByID prev) (tablesByID next)).map PublishedTable.entry
  rw [values_tablesByID hprev, List.map_append, List.map_map] at hperm
  have hids : ∀ id ∈ (droppedIndexes prev next).map (·.id), ∃ i ∈ (Catalog.ofSchema prev).indexes, i.id = id := by
    intro id hid
    obtain ⟨i, hi, rfl⟩ := List.mem_map.mp hid
    exact ⟨_, List.mem_map_of_mem ((mem_droppedIndexes hprev hnext).mp hi).1, rfl⟩
  have hindexes := Catalog.accepts_dropIndexes (nodup_droppedIndexes hprev) hids
  rw [List.map_map] at hindexes
  rw [Catalog.applyAll_append]
  refine (hindexes.bind fun cat _ hcat => ?_).imp (and_self_iff) (fun _ _ hQ => hQ)
  have htables := (represents_ofSchema hprev).perm hperm
  rw [← show cat.tables = (Catalog.ofSchema prev).tables by rw [hcat]] at htables
  have hdrop := Catalog.accepts_dropTables htables
  rw [List.map_map] at hdrop
  refine hdrop.imp Iff.rfl ?_
  rintro cat' - ⟨hrep, hidx⟩
  refine ⟨hrep, ?_⟩
  rw [hidx, hcat, List.map_map]
  rfl

theorem accepts_creates {tag : String} {creates : List SchemaChange}
    (hcreates : (onlySecond (tablesByID prev) (tablesByID next)).mapM (createdTable tag) = .ok creates) {cat : Catalog}
    (hrep : Represents cat.tables ((keptTables prev next).map (·.2.entry)))
    (hidx : cat.indexes = (survivingIndexes prev next).map fun i => (keptTables prev next).foldl carry i) :
    (cat.applyAll (creates ++ (createdIndexes prev next).map .createIndex)).Accepts True fun cat' =>
      cat'.tables = (Catalog.ofSchema next).tables ∧ cat'.indexes = resultingIndexes prev next := by
  have hperm := (values_perm_second (tablesByID prev) (tablesByID next)).map PublishedTable.entry
  rw [values_tablesByID hnext, List.map_append, List.map_map] at hperm
  have hnodup : ((onlySecond (tablesByID prev) (tablesByID next)).map (·.id) ++
      ((keptTables prev next).map (·.2.entry)).map (·.1)).Nodup := by
    have hnames := ((hperm.map (·.1)).nodup_iff).mp (represents_ofSchema hnext).nodup
    rw [List.map_append, List.map_map] at hnames
    exact hnames
  rw [Catalog.applyAll_append]
  refine ((Catalog.accepts_createTables hcreates hrep hnodup).bind fun cat' _ hcat' => ?_).imp and_self_iff
    (fun _ _ hQ => hQ)
  have htables : cat'.tables = (Catalog.ofSchema next).tables :=
    hcat'.1.ext (represents_ofSchema hnext) (List.perm_append_comm.trans hperm.symm)
  have hids : (cat'.indexes.map (·.id) ++ (createdIndexes prev next).map (·.id)).Nodup := by
    rw [hcat'.2, hidx, List.map_map]
    simpa only [Function.comp_def, id_foldl_carry] using nodup_resultingIndexes hprev hnext
  refine (Catalog.accepts_createIndexes hids fun j hj => ?_).imp Iff.rfl ?_
  · obtain ⟨t, ht, hid, hall⟩ := hnext.indexed j ((mem_createdIndexes hprev hnext).mp hj).1
    refine ⟨t.toCatalog, ?_, fun c hc => by rw [PublishedTable.toCatalog, Option.isSome_map]; exact hall c hc⟩
    rw [htables, ← hid]
    exact ((represents_ofSchema hnext).eq_some_iff _ _).mpr (List.mem_map_of_mem ht)
  · rintro cat'' - rfl
    exact ⟨htables, by rw [hcat'.2, hidx]; rfl⟩

theorem accepts_makeSchemaChanges {tag : String} {changes : List SchemaChange}
    (h : makeSchemaChanges prev next tag = .ok changes) :
    ((Catalog.ofSchema prev).applyAll changes).Accepts
      ((keptTables prev next).Pairwise (fun a b => a.2.id ≠ b.1.id) ∧
        ∀ p ∈ keptTables prev next, NoneIndexed p (survivingIndexes prev next) ∧
          (keptColumns p).Pairwise fun a b => a.2.name ≠ b.1.name)
      fun cat => cat.tables = (Catalog.ofSchema next).tables ∧ cat.indexes = resultingIndexes prev next := by
  obtain ⟨_, -, h⟩ := Fallible.bind_ok h
  obtain ⟨alters, halters, h⟩ := Fallible.bind_ok h
  obtain ⟨creates, hcreates, h⟩ := Fallible.bind_ok h
  obtain rfl := Except.ok.inj h
  have hpos : ∀ p ∈ keptTables prev next,
      (p.1.columns.entries.map (·.2.pos)).Nodup ∧ (p.2.columns.entries.map (·.2.pos)).Nodup := by
    intro p hp
    obtain ⟨hp₁, hp₂, -⟩ := (mem_keptTables hprev hnext).mp hp
    exact ⟨hprev.attnums _ hp₁, hnext.attnums _ hp₂⟩
  have hnames : (([] : List (Identifier × CatalogColumns)).map (·.1) ++ (keptTables prev next).map (·.2.id)).Nodup := by
    have hperm := (values_perm_second (tablesByID prev) (tablesByID next)).map PublishedTable.id
    rw [values_tablesByID hnext, List.map_append, List.map_map] at hperm
    exact (List.nodup_append.mp (hperm.nodup_iff.mp hnext.tableNames)).2.1
  rw [List.append_assoc, List.append_assoc, Catalog.applyAll_append]
  refine ((accepts_drops hprev hnext).bind fun cat _ hcat => ?_).imp (and_iff_right trivial) (fun _ _ hQ => hQ)
  have hindexes : ∀ i ∈ cat.indexes, i.table ∈ ((keptTables prev next).map (·.1.entry)).map (·.1) := by
    rw [hcat.2]
    intro x hx
    obtain ⟨i, -, rfl, -, p, hp, hid⟩ := (mem_survivingIndexes hprev hnext).mp hx
    rw [List.map_map]
    exact List.mem_map.mpr ⟨p, hp, hid⟩
  have halter := accepts_alterTables halters hpos hcat.1 hnames hindexes
  rw [hcat.2] at halter
  rw [Catalog.applyAll_append]
  refine (halter.bind fun cat' _ hcat' => ?_).imp (and_iff_left trivial) (fun _ _ hQ => hQ)
  exact accepts_creates hprev hnext hcreates hcat'.1 hcat'.2

omit hnext in
theorem foldl_carry (hnames : (keptTables prev next).Pairwise fun a b => a.2.id ≠ b.1.id)
    {p : PublishedTable × PublishedTable} (hp : p ∈ keptTables prev next) {i : CatalogIndex} (hi : i.table = p.1.id) :
    (keptTables prev next).foldl carry i = moved p i := by
  have hperm := (values_perm_first (tablesByID prev) (tablesByID next)).map PublishedTable.id
  rw [values_tablesByID hprev, List.map_append, List.map_map] at hperm
  have hnodup := (List.nodup_append.mp (hperm.nodup_iff.mp hprev.tableNames)).2.1
  exact foldl_follow hnodup hnames hp hi rfl

theorem indexes_iff (hnames : (keptTables prev next).Pairwise fun a b => a.2.id ≠ b.1.id)
    (hcolumns : ∀ p ∈ keptTables prev next, (keptColumns p).Pairwise fun a b => a.2.name ≠ b.1.name) :
    (∀ p ∈ keptTables prev next, NoneIndexed p (survivingIndexes prev next)) ∧
        (resultingIndexes prev next).Perm (Catalog.ofSchema next).indexes ↔
      ∀ i ∈ prev.indexes, ∀ j ∈ next.indexes, Unchanged prev next i j → SameIndex prev next i j := by
  have hsurvives : ∀ i ∈ prev.indexes, ∀ j ∈ next.indexes, Unchanged prev next i j → ∀ p ∈ keptTables prev next,
      p.1.id = i.table → i.toCatalog ∈ survivingIndexes prev next := fun i hi j hj hun p hp hid =>
    (mem_survivingIndexes hprev hnext).mpr ⟨i, hi, rfl, ⟨j, hj, hun⟩, p, hp, hid⟩
  constructor
  · rintro ⟨hnone, hperm⟩ i hi j hj hun
    have hmem := hperm.mem_iff.mpr (List.mem_map_of_mem (f := PublishedIndex.toCatalog) hj)
    rcases List.mem_append.mp hmem with hs | hc
    · obtain ⟨x, hx, heq⟩ := List.mem_map.mp hs
      obtain ⟨i', hi', rfl, -, p, hp, hid⟩ := (mem_survivingIndexes hprev hnext).mp hx
      rw [foldl_carry hprev hnames hp hid.symm] at heq
      have hname : idString i'.id = idString i.id :=
        (congrArg (fun x => idString x.id) heq).trans hun.1.symm
      obtain rfl := List.inj_on_of_nodup_map hprev.indexNames hi' hi hname
      have hnew : p.2.id = j.table := congrArg CatalogIndex.table heq
      have hkept : ∀ d ∈ droppedColumns p, d.name ∉ i'.columns.keys := hnone p hp _ hx hid.symm
      have hsame := (moved_eq_iff hprev hnext hi hun hp hid hnew (hcolumns p hp) hkept).mp heq
      exact ⟨hsame.1, p, hp, hid, hnew, hsame.2⟩
    · obtain ⟨k, hk, heq⟩ := List.mem_map.mp hc
      obtain ⟨hk', hfresh⟩ := (mem_createdIndexes hprev hnext).mp hk
      have hkj : idString k.id = idString j.id := congrArg (fun x => idString x.id) heq
      obtain rfl := List.inj_on_of_nodup_map hnext.indexNames hk' hj hkj
      exact absurd hun (hfresh i hi)
  · intro hsame
    have hnone : ∀ p ∈ keptTables prev next, NoneIndexed p (survivingIndexes prev next) := by
      intro p hp x hx hid c hc hcx
      obtain ⟨i, hi, rfl, ⟨j, hj, hun⟩, -⟩ := (mem_survivingIndexes hprev hnext).mp hx
      obtain ⟨-, q, hq, hqold, hqnew, hattnums⟩ := hsame i hi j hj hun
      obtain ⟨hp₁, hp₂, hoid⟩ := (mem_keptTables hprev hnext).mp hp
      obtain ⟨hq₁, hq₂, hqoid⟩ := (mem_keptTables hprev hnext).mp hq
      have hfirst := List.inj_on_of_nodup_map hprev.tableNames hp₁ hq₁ (hid.symm.trans hqold.symm)
      have hsecond := List.inj_on_of_nodup_map hnext.oids hp₂ hq₂ (hoid.symm.trans (hfirst ▸ hqoid))
      rw [← hfirst, ← hsecond] at hattnums
      -- the attnum of an indexed column is that of a column of the new table
      obtain ⟨n, hn, hgone⟩ := mem_onlyFirst.mp hc
      have hattnum : p.1.attnum c.name = some n := by
        obtain ⟨hspec, hpos⟩ := (get?_columnsByID (hprev.attnums _ hp₁)).mp hn
        rw [PublishedTable.attnum, hspec, ← hpos]
        rfl
      have hmem : p.1.attnum c.name ∈ j.columns.keys.map p.2.attnum := hattnums ▸ List.mem_map_of_mem hcx
      obtain ⟨c', -, hc'⟩ := List.mem_map.mp hmem
      obtain ⟨spec, hspec, hpos⟩ := Option.map_eq_some_iff.mp (hc'.trans hattnum)
      have hthere := (get?_columnsByID (c := ⟨c', spec⟩) (hnext.attnums _ hp₂)).mpr ⟨hspec, hpos⟩
      rw [hgone] at hthere
      cases hthere
    -- an index that survives becomes the one it is taken for
    have hmoved : ∀ i ∈ prev.indexes, ∀ j ∈ next.indexes, Unchanged prev next i j →
        i.toCatalog ∈ survivingIndexes prev next ∧ (keptTables prev next).foldl carry i.toCatalog = j.toCatalog := by
      intro i hi j hj hun
      obtain ⟨hid, p, hp, hold, hnew, hattnums⟩ := hsame i hi j hj hun
      have hx := hsurvives i hi j hj hun p hp hold
      refine ⟨hx, ?_⟩
      rw [foldl_carry hprev hnames hp hold.symm]
      exact (moved_eq_iff hprev hnext hi hun hp hold hnew (hcolumns p hp) (hnone p hp _ hx hold.symm)).mpr ⟨hid, hattnums⟩
    refine ⟨hnone, (List.perm_ext_iff_of_nodup ?_ ?_).mpr fun x => ?_⟩
    · refine List.Nodup.of_map (·.id) ?_
      rw [resultingIndexes, List.map_append, List.map_map, List.map_map]
      simp only [Function.comp_def, id_foldl_carry]
      exact nodup_resultingIndexes hprev hnext
    · refine List.Nodup.of_map (fun x => idString x.id) ?_
      rw [Catalog.ofSchema, List.map_map]
      exact hnext.indexNames
    · simp only [resultingIndexes, Catalog.ofSchema, List.mem_append, List.mem_map]
      constructor
      · rintro (⟨y, hy, rfl⟩ | ⟨k, hk, rfl⟩)
        · obtain ⟨i, hi, rfl, ⟨j, hj, hun⟩, -⟩ := (mem_survivingIndexes hprev hnext).mp hy
          exact ⟨j, hj, (hmoved i hi j hj hun).2.symm⟩
        · exact ⟨k, ((mem_createdIndexes hprev hnext).mp hk).1, rfl⟩
      · rintro ⟨j, hj, rfl⟩
        by_cases hun : ∃ i ∈ prev.indexes, Unchanged prev next i j
        · obtain ⟨i, hi, hun⟩ := hun
          exact .inl ⟨_, hmoved i hi j hj hun⟩
        · exact .inr ⟨j, (mem_createdIndexes hprev hnext).mpr ⟨hj, fun i hi h => hun ⟨i, hi, h⟩⟩, rfl⟩

end Whole

/-! ## A key whose columns are put in another order -/

/-- A table of two columns, the first of which is its row key, and a unique index on it. -/
def keyedSchema (table first second : String) (key : List String) : PublishedSchema where
  tables := [⟨1, some 2, "public", table,
    .ofList [(first, ⟨1, "int4", some true, none⟩), (second, ⟨2, "int4", some true, none⟩)], some .default, [first]⟩]
  indexes := [⟨"public", table, "key", true, some false, some false, some true, .ofList (key.map fun c => (c, .asc))⟩]

theorem valid_keyedSchema : (keyedSchema "t" "a" "b" ["a", "b"]).Valid :=
  ⟨by decide, by decide, by decide, by decide, by decide⟩

end ZeroSync.SchemaChanges
