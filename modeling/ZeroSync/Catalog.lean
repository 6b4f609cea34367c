/-
A catalog of tables and indexes, and what the schema changes do to it.

Dropping a table drops its indexes; renaming a table or a column carries the
indexes along, which keep their own names. A change is refused when its target
is missing, when the name it gives is taken, or when it drops a column that is
still indexed.

The lemmas follow the changes of one kind in a row: which of them go through,
and what the catalog is after them.
-/
import ZeroSync.Fallible
import ZeroSync.PartialMaps
import ZeroSync.SchemaChanges

namespace ZeroSync.SchemaChanges

open Backfills (Identifier)
open PartialMap

/-- What the replica takes over of a column. -/
structure CatalogColumn where
  dataType : String
  notNull : Option Bool
  deriving DecidableEq

abbrev CatalogColumns := String → Option CatalogColumn

structure CatalogIndex where
  id : Identifier
  table : Identifier
  columns : List (String × Direction)
  unique : Bool
  deriving DecidableEq

structure Catalog where
  tables : Identifier → Option CatalogColumns
  indexes : List CatalogIndex

def ColumnSpec.toCatalog (spec : ColumnSpec) : CatalogColumn := ⟨spec.dataType, spec.notNull⟩

def Column.entry (c : Column) : String × CatalogColumn := (c.name, c.spec.toCatalog)

def PublishedTable.toCatalog (t : PublishedTable) : CatalogColumns := fun c => (t.columns.get? c).map ColumnSpec.toCatalog

def PublishedTable.entry (t : PublishedTable) : Identifier × CatalogColumns := (t.id, t.toCatalog)

def PublishedIndex.toCatalog (i : PublishedIndex) : CatalogIndex := ⟨i.id, i.table, i.columns.entries, i.unique⟩

/-- The catalog of the tables and indexes of a schema. -/
def Catalog.ofSchema (s : PublishedSchema) : Catalog where
  tables id := (s.tables.find? fun t => t.id = id).map PublishedTable.toCatalog
  indexes := s.indexes.map PublishedIndex.toCatalog

/-- The same tables and, in any order, the same indexes. -/
structure Catalog.Same (a b : Catalog) : Prop where
  tables : a.tables = b.tables
  indexes : a.indexes.Perm b.indexes

/-! ## Changes -/

namespace CatalogIndex

def names (i : CatalogIndex) : List String := i.columns.map (·.1)

def moveTable (old new : Identifier) (i : CatalogIndex) : CatalogIndex :=
  if i.table = old then { i with table := new } else i

def renameColumn (table : Identifier) (old new : String) (i : CatalogIndex) : CatalogIndex :=
  if i.table = table then { i with columns := i.columns.map fun c => (if c.1 = old then new else c.1, c.2) } else i

@[simp] theorem names_moveTable (old new : Identifier) (i : CatalogIndex) : (i.moveTable old new).names = i.names := by
  unfold moveTable
  split <;> rfl

theorem renameColumn_self (table : Identifier) (c : String) (i : CatalogIndex) : i.renameColumn table c c = i := by
  have hid : ∀ col : String × Direction, (if col.1 = c then c else col.1, col.2) = col := by
    rintro ⟨col, dir⟩
    by_cases h : col = c <;> simp [h]
  unfold renameColumn
  split
  · simp [hid]
  · rfl

end CatalogIndex

namespace Catalog

/-- Changes the columns of a table. -/
def alter (cat : Catalog) (table : Identifier) (f : CatalogColumns → Option CatalogColumns) : Option Catalog := do
  let columns ← cat.tables table
  let columns ← f columns
  return { cat with tables := put cat.tables table columns }

def indexed (cat : Catalog) (table : Identifier) (column : String) : Bool :=
  cat.indexes.any fun i => i.table = table && column ∈ i.names

def apply (cat : Catalog) : SchemaChange → Option Catalog
  | .dropIndex id =>
    if cat.indexes.any (·.id = id) then some { cat with indexes := cat.indexes.filter (·.id ≠ id) } else none
  | .dropTable id =>
    if (cat.tables id).isSome then some ⟨erase cat.tables id, cat.indexes.filter (·.table ≠ id)⟩ else none
  | .renameTable old new => do
    let columns ← cat.tables old
    let tables ← replace cat.tables old new columns
    return ⟨tables, cat.indexes.map (·.moveTable old new)⟩
  | .updateTableMetadata table _ _ => if (cat.tables table).isSome then some cat else none
  | .dropColumn table column =>
    if cat.indexed table column then none
    else cat.alter table fun columns => if (columns column).isSome then some (erase columns column) else none
  | .updateColumn table old new => do
    let cat ← cat.alter table fun columns => replace columns old.name new.name new.spec.toCatalog
    return { cat with indexes := cat.indexes.map (·.renameColumn table old.name new.name) }
  | .addColumn table column _ _ =>
    cat.alter table fun columns =>
      if (columns column.name).isSome then none else some (put columns column.name column.spec.toCatalog)
  | .createTable spec _ _ =>
    if (cat.tables spec.id).isSome then none else some { cat with tables := put cat.tables spec.id spec.toCatalog }
  | .createIndex spec =>
    if cat.indexes.any (·.id = spec.id) then none
    else do
      let columns ← cat.tables spec.table
      if spec.columns.keys.all fun c => (columns c).isSome then
        some { cat with indexes := cat.indexes ++ [spec.toCatalog] }
      else none

def applyAll (cat : Catalog) (changes : List SchemaChange) : Option Catalog := changes.foldlM apply cat

@[simp] theorem applyAll_nil (cat : Catalog) : cat.applyAll [] = some cat := rfl

@[simp] theorem applyAll_cons (cat : Catalog) (c : SchemaChange) (l : List SchemaChange) :
    cat.applyAll (c :: l) = cat.apply c >>= fun cat => cat.applyAll l := List.foldlM_cons ..

theorem applyAll_append (cat : Catalog) (l l' : List SchemaChange) :
    cat.applyAll (l ++ l') = cat.applyAll l >>= fun cat => cat.applyAll l' := List.foldlM_append ..

/-! ## Indexes and tables -/

theorem filter_notMem_cons {ι κ : Type} [DecidableEq κ] (f : ι → κ) (k : κ) (ks : List κ) (l : List ι) :
    (l.filter fun x => f x ≠ k).filter (fun x => f x ∉ ks) = l.filter fun x => f x ∉ k :: ks := by
  rw [List.filter_filter]
  congr 1
  funext x
  simp [Bool.and_comm]

theorem accepts_dropIndexes {ids : List Identifier} (hids : ids.Nodup) {cat : Catalog}
    (hmem : ∀ id ∈ ids, ∃ i ∈ cat.indexes, i.id = id) :
    (cat.applyAll (ids.map .dropIndex)).Accepts True fun cat' =>
      cat' = { cat with indexes := cat.indexes.filter (·.id ∉ ids) } := by
  induction ids generalizing cat with
  | nil => exact .some_intro trivial (by simp)
  | cons id ids ih =>
    rw [List.nodup_cons] at hids
    obtain ⟨i, hi, rfl⟩ := hmem id (List.mem_cons_self ..)
    have hthere : cat.indexes.any (·.id = i.id) := List.any_eq_true.mpr ⟨i, hi, decide_eq_true rfl⟩
    rw [List.map_cons, applyAll_cons, apply, if_pos hthere]
    refine Option.Accepts.imp (ih hids.2 ?_) Iff.rfl ?_
    · intro id' hid'
      obtain ⟨j, hj, rfl⟩ := hmem id' (List.mem_cons_of_mem _ hid')
      exact ⟨j, List.mem_filter.mpr ⟨hj, decide_eq_true fun heq => hids.1 (heq ▸ hid')⟩, rfl⟩
    · rintro _ - rfl
      rw [filter_notMem_cons CatalogIndex.id]

theorem accepts_dropTables {dropped rest : List (Identifier × CatalogColumns)} {cat : Catalog}
    (hrep : Represents cat.tables (dropped ++ rest)) :
    (cat.applyAll (dropped.map fun e => .dropTable e.1)).Accepts True fun cat' =>
      Represents cat'.tables rest ∧ cat'.indexes = cat.indexes.filter (·.table ∉ dropped.map (·.1)) := by
  induction dropped generalizing cat with
  | nil => exact .some_intro trivial ⟨hrep, by simp⟩
  | cons e dropped ih =>
    have hthere : (cat.tables e.1).isSome := by rw [hrep.isSome_iff]; simp
    rw [List.map_cons, applyAll_cons, apply, if_pos hthere]
    have herase : Represents (Catalog.tables ⟨erase cat.tables e.1, cat.indexes.filter (·.table ≠ e.1)⟩) _ := hrep.erase
    refine Option.Accepts.imp (ih herase) Iff.rfl ?_
    rintro cat' - ⟨hrep', hidx⟩
    exact ⟨hrep', by rw [hidx, filter_notMem_cons CatalogIndex.table, List.map_cons]⟩

theorem accepts_createTables {tag : String} {created : List PublishedTable} {creates : List SchemaChange}
    (hcreates : created.mapM (createdTable tag) = .ok creates) {cat : Catalog} {l : List (Identifier × CatalogColumns)}
    (hrep : Represents cat.tables l) (hnodup : (created.map (·.id) ++ l.map (·.1)).Nodup) :
    (cat.applyAll creates).Accepts True fun cat' =>
      Represents cat'.tables (l ++ created.map PublishedTable.entry) ∧ cat'.indexes = cat.indexes := by
  induction created generalizing creates cat l with
  | nil =>
    obtain rfl := Except.ok.inj hcreates
    exact .some_intro trivial ⟨by simpa using hrep, rfl⟩
  | cons t created ih =>
    rw [List.mapM_cons] at hcreates
    obtain ⟨c, hc, hcreates⟩ := Fallible.bind_ok hcreates
    obtain ⟨cs, hcs, hcreates⟩ := Fallible.bind_ok hcreates
    obtain rfl := Except.ok.inj hcreates
    obtain ⟨metadata, -, hc⟩ := Fallible.bind_ok hc
    obtain rfl := Except.ok.inj hc
    rw [List.map_cons, List.cons_append, List.nodup_cons, List.mem_append, not_or] at hnodup
    obtain ⟨⟨hfirst, hfree⟩, hrest⟩ := hnodup
    have hnone : (cat.tables t.id).isSome = false := by rw [Option.isSome_eq_false_iff, hrep.eq_none_iff.mpr hfree]; rfl
    rw [applyAll_cons, apply, hnone]
    have hput : Represents (Catalog.tables ⟨put cat.tables t.id t.toCatalog, cat.indexes⟩) (t.entry :: l) :=
      hrep.put hfree t.toCatalog
    refine Option.Accepts.imp (ih hcs hput ?_) Iff.rfl ?_
    · rw [List.map_cons]
      refine (List.perm_middle.nodup_iff).mpr (List.nodup_cons.mpr ⟨fun hm => ?_, hrest⟩)
      exact (List.mem_append.mp hm).elim hfirst hfree
    · rintro cat' - ⟨hrep', hidx⟩
      refine ⟨hrep'.perm ?_, hidx⟩
      rw [List.map_cons]
      exact List.perm_middle.symm

theorem accepts_createIndexes {created : List PublishedIndex} {cat : Catalog}
    (hnodup : (cat.indexes.map (·.id) ++ created.map (·.id)).Nodup)
    (hcolumns : ∀ i ∈ created, ∃ columns, cat.tables i.table = some columns ∧ ∀ c ∈ i.columns.keys, (columns c).isSome) :
    (cat.applyAll (created.map .createIndex)).Accepts True fun cat' =>
      cat' = { cat with indexes := cat.indexes ++ created.map PublishedIndex.toCatalog } := by
  induction created generalizing cat with
  | nil => exact .some_intro trivial (by simp)
  | cons i created ih =>
    obtain ⟨columns, htable, hall⟩ := hcolumns i (List.mem_cons_self ..)
    have hfree : cat.indexes.any (·.id = i.id) = false := by
      rw [List.any_eq_false]
      intro j hj heq
      have hdisj := (List.nodup_append.mp hnodup).2.2 j.id (List.mem_map_of_mem hj) i.id (by simp)
      exact hdisj (by simpa using heq)
    have hall' : (i.columns.keys.all fun c => (columns c).isSome) = true := List.all_eq_true.mpr hall
    rw [List.map_cons, applyAll_cons, apply, hfree, htable]
    simp only [Bool.false_eq_true, if_false, Option.bind_eq_bind, Option.bind_some, hall', if_true]
    have hnodup' : ((Catalog.indexes ⟨cat.tables, cat.indexes ++ [i.toCatalog]⟩).map (·.id) ++
        created.map (·.id)).Nodup := by
      rw [List.map_append, List.append_assoc]
      exact hnodup
    refine Option.Accepts.imp (ih hnodup' fun j hj => hcolumns j (List.mem_cons_of_mem _ hj)) Iff.rfl ?_
    · rintro _ - rfl
      simp

/-! ## Columns -/

/-- The catalog with other columns of a table, and other indexes. -/
def focus (cat : Catalog) (table : Identifier) (columns : CatalogColumns) (indexes : List CatalogIndex) : Catalog :=
  ⟨put cat.tables table columns, indexes⟩

theorem alter_focus (cat : Catalog) (table : Identifier) (columns : CatalogColumns) (indexes : List CatalogIndex)
    (f : CatalogColumns → Option CatalogColumns) :
    (cat.focus table columns indexes).alter table f = (f columns).map fun columns => cat.focus table columns indexes := by
  simp only [alter, focus, put_self, Option.bind_eq_bind, Option.bind_some, put_put]
  cases f columns <;> rfl

/-- The table is there with these columns, beside the other tables, and these are the indexes. -/
def Holds (table : Identifier) (rest : List (Identifier × CatalogColumns)) (columns : List (String × CatalogColumn))
    (indexes : List CatalogIndex) (cat : Catalog) : Prop :=
  ∃ cols, Represents cat.tables ((table, cols) :: rest) ∧ Represents cols columns ∧ cat.indexes = indexes

theorem Holds.applyAll {table : Identifier} {rest : List (Identifier × CatalogColumns)}
    {columns columns' : List (String × CatalogColumn)} {indexes indexes' : List CatalogIndex} {cat : Catalog}
    (h : Holds table rest columns indexes cat) {changes : List SchemaChange} {P : Prop}
    (hchanges : ∀ cols, Represents cols columns → ((cat.focus table cols indexes).applyAll changes).Accepts P
      fun cat' => ∃ cols', cat' = cat.focus table cols' indexes' ∧ Represents cols' columns') :
    (cat.applyAll changes).Accepts P (Holds table rest columns' indexes') := by
  obtain ⟨cols, hrep, hcols, rfl⟩ := h
  have hsame : cat.focus table cols cat.indexes = cat := by rw [focus, put_eq_self hrep.head]
  have hacc := hchanges cols hcols
  rw [hsame] at hacc
  refine hacc.imp Iff.rfl ?_
  rintro _ - ⟨cols', rfl, hcols'⟩
  exact ⟨cols', hrep.put_head cols', hcols', rfl⟩

variable {table : Identifier} {columns : CatalogColumns} {indexes : List CatalogIndex}

theorem accepts_dropColumns {cat : Catalog} {dropped : List Column} {rest : List (String × CatalogColumn)}
    (hrep : Represents columns (dropped.map Column.entry ++ rest)) :
    ((cat.focus table columns indexes).applyAll (dropped.map fun c => .dropColumn table c.name)).Accepts
      (∀ i ∈ indexes, i.table = table → ∀ c ∈ dropped, c.name ∉ i.names) fun cat' =>
        ∃ columns', cat' = cat.focus table columns' indexes ∧ Represents columns' rest := by
  induction dropped generalizing columns with
  | nil => exact .some_intro (by simp) ⟨columns, rfl, hrep⟩
  | cons c dropped ih =>
    rw [List.map_cons, List.cons_append] at hrep
    have hthere : (columns c.name).isSome := by rw [hrep.isSome_iff]; simp [Column.entry]
    rw [List.map_cons, applyAll_cons, apply]
    have hindexed : (cat.focus table columns indexes).indexed table c.name ↔
        ∃ i ∈ indexes, i.table = table ∧ c.name ∈ i.names := by
      simp [indexed, focus]
    split
    · next h =>
      obtain ⟨i, hi, ht, hc⟩ := hindexed.mp h
      exact .none_intro fun hno => hno i hi ht c (List.mem_cons_self ..) hc
    · next h =>
      rw [alter_focus, if_pos hthere]
      refine Option.Accepts.imp (ih hrep.erase) ?_ (fun _ _ hQ => hQ)
      have hno : ∀ i ∈ indexes, i.table = table → c.name ∉ i.names := fun i hi ht hc => h (hindexed.mpr ⟨i, hi, ht, hc⟩)
      simp only [List.mem_cons, forall_eq_or_imp]
      exact ⟨fun h' i hi ht => ⟨hno i hi ht, h' i hi ht⟩, fun h' i hi ht => (h' i hi ht).2⟩

theorem accepts_addColumns (md : TableMetadata) (tag : String) {cat : Catalog} {added : List Column}
    {l : List (String × CatalogColumn)} (hrep : Represents columns l)
    (hnodup : (added.map (·.name) ++ l.map (·.1)).Nodup) :
    ((cat.focus table columns indexes).applyAll (added.map (addedColumn table md tag))).Accepts True fun cat' =>
      ∃ columns', cat' = cat.focus table columns' indexes ∧ Represents columns' (l ++ added.map Column.entry) := by
  induction added generalizing columns l with
  | nil => exact .some_intro trivial ⟨columns, rfl, by simpa using hrep⟩
  | cons c added ih =>
    rw [List.map_cons, List.cons_append, List.nodup_cons, List.mem_append, not_or] at hnodup
    obtain ⟨⟨hfirst, hfree⟩, hrest⟩ := hnodup
    have hnone : (columns c.name).isSome = false := by rw [Option.isSome_eq_false_iff, hrep.eq_none_iff.mpr hfree]; rfl
    have happly : (cat.focus table columns indexes).apply (addedColumn table md tag c) =
        some (cat.focus table (put columns c.name c.spec.toCatalog) indexes) := by
      by_cases hfill : tag ≠ "ALTER TABLE" ∨ hasUnsupportedDefault c.spec
      · simp [addedColumn, hfill, apply, alter_focus, hnone, ColumnSpec.toCatalog]
      · simp [addedColumn, hfill, apply, alter_focus, hnone, ColumnSpec.toCatalog]
    rw [List.map_cons, applyAll_cons, happly]
    have hput : Represents (put columns c.name c.spec.toCatalog) (c.entry :: l) := hrep.put hfree _
    refine Option.Accepts.imp (ih hput ?_) Iff.rfl ?_
    · rw [List.map_cons]
      refine (List.perm_middle.nodup_iff).mpr (List.nodup_cons.mpr ⟨fun hm => ?_, hrest⟩)
      exact (List.mem_append.mp hm).elim hfirst hfree
    · rintro cat' - ⟨columns', rfl, hrep'⟩
      refine ⟨columns', rfl, hrep'.perm ?_⟩
      rw [List.map_cons]
      exact List.perm_middle.symm

/-- The name that a column gets when the kept columns are updated in turn. -/
def newName (updated : List (Column × Column)) (c : String) : String :=
  updated.foldl (follow id (·.1.name) fun k _ => k.2.name) c

/-- Lets an index follow the updates of the columns of a table. -/
def renameColumns (table : Identifier) (updated : List (Column × Column)) (i : CatalogIndex) : CatalogIndex :=
  if i.table = table then { i with columns := i.columns.map fun c => (newName updated c.1, c.2) } else i

theorem renameColumns_cons (table : Identifier) (k : Column × Column) (updated : List (Column × Column))
    (i : CatalogIndex) :
    renameColumns table updated (i.renameColumn table k.1.name k.2.name) = renameColumns table (k :: updated) i := by
  unfold renameColumns CatalogIndex.renameColumn
  by_cases h : i.table = table
  · simp [h, newName, follow]
  · simp [h]

theorem apply_updateColumn (cat : Catalog) (old new : Column) :
    (cat.focus table columns indexes).apply (.updateColumn table old new) =
      (replace columns old.name new.name new.spec.toCatalog).map fun columns =>
        cat.focus table columns (indexes.map (·.renameColumn table old.name new.name)) := by
  rw [apply, alter_focus]
  cases replace columns old.name new.name new.spec.toCatalog <;> rfl

theorem accepts_updateColumns {cat : Catalog} {updated : List (Column × Column)} {done : List (String × CatalogColumn)}
    (hrep : Represents columns (done ++ updated.map (·.1.entry)))
    (hnew : (done.map (·.1) ++ updated.map (·.2.name)).Nodup) :
    ((cat.focus table columns indexes).applyAll (updated.filterMap (updatedColumn table))).Accepts
      (updated.Pairwise fun a b => a.2.name ≠ b.1.name) fun cat' =>
        ∃ columns', cat' = cat.focus table columns' (indexes.map (renameColumns table updated)) ∧
          Represents columns' (done ++ updated.map (·.2.entry)) := by
  induction updated generalizing columns indexes done with
  | nil =>
    refine .some_intro List.Pairwise.nil ⟨columns, ?_, hrep⟩
    have hsame : renameColumns table [] = id := by
      funext i
      unfold renameColumns newName
      split <;> simp
    rw [hsame, List.map_id]
  | cons k updated ih =>
    have hrep' : Represents columns (k.1.entry :: (done ++ updated.map (·.1.entry))) := hrep.perm List.perm_middle
    have hstep : (replace columns k.1.name k.2.name k.2.spec.toCatalog).Accepts (∀ b ∈ updated, k.2.name ≠ b.1.name)
        fun columns' => Represents columns' (done ++ [k.2.entry] ++ updated.map (·.1.entry)) := by
      refine Option.Accepts.imp hrep'.accepts_replace ?_ ?_
      · have hfree : k.2.name ∉ done.map (·.1) := fun hm =>
          (List.nodup_append.mp hnew).2.2 _ hm _ (List.mem_cons_self ..) rfl
        rw [List.map_append, List.mem_append, not_or, and_iff_right hfree]
        simp [Column.entry, eq_comm]
      · rintro _ - ⟨-, hrep''⟩
        rw [List.append_assoc]
        exact hrep''.perm List.perm_middle.symm
    have hnew' : ((done ++ [k.2.entry]).map (·.1) ++ updated.map (·.2.name)).Nodup := by simpa [Column.entry] using hnew
    rw [List.pairwise_cons]
    by_cases hk : k.1.name ≠ k.2.name ∨ k.1.spec.dataType ≠ k.2.spec.dataType ∨ k.1.spec.notNull ≠ k.2.spec.notNull
    · have hupdated : updatedColumn table k = some (.updateColumn table k.1 k.2) := if_pos hk
      rw [List.filterMap_cons_some hupdated, applyAll_cons, apply_updateColumn, Option.bind_eq_bind, Option.bind_map]
      refine hstep.bind fun columns' _ hcolumns' => Option.Accepts.imp (ih hcolumns' hnew') Iff.rfl ?_
      rintro cat' - ⟨columns'', rfl, hrep''⟩
      refine ⟨columns'', ?_, by simpa using hrep''⟩
      rw [List.map_map]
      congr 2
      funext i
      exact renameColumns_cons table k updated i
    · have hupdated : updatedColumn table k = none := if_neg hk
      rw [List.filterMap_cons_none hupdated]
      simp only [not_or, not_not] at hk
      have hentry : k.1.entry = k.2.entry := by simp [Column.entry, ColumnSpec.toCatalog, hk]
      -- an unchanged column has its own name, which no other has
      have hfree : ∀ b ∈ updated, k.2.name ≠ b.1.name := by
        intro b hb heq
        refine (List.nodup_cons.mp hrep'.nodup).1 ?_
        simp only [List.map_append, List.mem_append, List.map_map, List.mem_map]
        exact .inr ⟨b, hb, (heq.symm.trans hk.1.symm)⟩
      have hrep'' : Represents columns (done ++ [k.2.entry] ++ updated.map (·.1.entry)) := by simpa [hentry] using hrep
      refine Option.Accepts.imp (ih hrep'' hnew') (and_iff_right hfree).symm ?_
      · rintro cat' - ⟨columns', rfl, hrep''⟩
        refine ⟨columns', ?_, by simpa using hrep''⟩
        congr 2
        funext i
        rw [← renameColumns_cons, ← hk.1, CatalogIndex.renameColumn_self]

end Catalog

end ZeroSync.SchemaChanges
