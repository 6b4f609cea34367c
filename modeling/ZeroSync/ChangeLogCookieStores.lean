/-
`foldCookies` keeps cookies in maps, `ChangeLogCookieWriter` in tables: for changes
that are valid upstream the statements never fail and both hold the same cookies.
What they give has the same members, but `foldCookies` sorts as JS compares
strings, by UTF-16 code units, and SQLite by bytes of UTF-8, which is the order of
code points; the two differ where a character outside the basic plane meets one of
its last characters.
-/
import ZeroSync.ChangeLogDBFacts

namespace ZeroSync.ChangeLogDB

open Backfills (CookieSet TableMetadataCookie BackfillCookie CookieOp cookieOps Identifier TableMetadata Cookies DataChange
  foldCookies cmpTable cmpColumn)

variable {J : Type}

/-! ## The catalog upstream -/

/-- The tables and their columns. -/
abbrev Catalog := Identifier → Option (List String)

namespace Catalog

/-- What a valid change makes of the catalog. A new table or column has a name that is
not in use. -/
inductive Step (cat : Catalog) : DataChange J → Catalog → Prop
  | createTable (table metadata backfill columns) (hnew : cat table = none)
      (hcolumns : ∀ entries ∈ backfill, ∀ column ∈ entries.keys, column ∈ columns) :
    Step cat (.source (.createTable table metadata backfill)) (Function.update cat table (some columns))
  | renameTable (old new columns) (hold : cat old = some columns) (hnew : cat new = none ∨ new = old) :
    Step cat (.source (.renameTable old new)) (Function.update (Function.update cat old none) new (some columns))
  | updateTableMetadata (table new) (h : (cat table).isSome) : Step cat (.source (.updateTableMetadata table new)) cat
  | addColumn (table column tableMetadata backfill columns) (h : cat table = some columns) (hnew : column ∉ columns) :
    Step cat (.source (.addColumn table column tableMetadata backfill))
      (Function.update cat table (some (column :: columns)))
  | updateColumn (table old new columns) (h : cat table = some columns) (hnew : new ∉ columns ∨ new = old) :
    Step cat (.source (.updateColumn table old new))
      (Function.update cat table (some (columns.map fun c => if c = old then new else c)))
  | dropColumn (table column columns) (h : cat table = some columns) :
    Step cat (.source (.dropColumn table column)) (Function.update cat table (some (columns.filter (· ≠ column))))
  | dropTable (id) : Step cat (.source (.dropTable id)) (Function.update cat id none)
  | update (relation key new) : Step cat (.source (.update relation key new)) cat
  | other : Step cat (.source .other) cat
  | backfill (msg) : Step cat (.backfill msg) cat

/-- A sequence of valid changes. -/
inductive Run : Catalog → List (DataChange J) → Prop
  | nil (cat) : Run cat []
  | cons {cat cat' change changes} (h : Step cat change cat') (hrun : Run cat' changes) : Run cat (change :: changes)

/-- Cookies are of tables and columns that exist. -/
structure Covers (cat : Catalog) (c : Cookies J) : Prop where
  metadata : ∀ table m, c.metadata.get? table = some m → (cat table).isSome
  backfilling : ∀ table column v, c.backfilling.get? (table, column) = some v → ∃ columns ∈ cat table, column ∈ columns

end Catalog

variable {cat cat' : Catalog} {t t' : CookieTables J} {c c' : Cookies J} {change : DataChange J}

/-! ## One change -/

theorem exists_renameTable (h : t.Holds c) (hcat : cat.Covers c) {old new : Identifier}
    (hnew : cat new = none ∨ new = old) : ∃ t', t.run (.renameTable old new) = some t' := by
  have hfree : ∀ table m, c.metadata.get? table = some m → table = new → new = old := by
    rintro table m hm rfl
    have hsome := hcat.metadata table m hm
    rcases hnew with hnone | heq
    · rw [hnone] at hsome
      cases hsome
    · exact heq
  have hfree' : ∀ table column v, c.backfilling.get? (table, column) = some v → table = new → new = old := by
    rintro table column v hv rfl
    obtain ⟨columns, hcolumns, -⟩ := hcat.backfilling table column v hv
    rcases hnew with hnone | heq
    · rw [hnone] at hcolumns
      cases hcolumns
    · exact heq
  have hmt : ∃ mt, t.tableMetadata.update? (fun c => c.table = old) (fun c => { c with table := new }) = some mt := by
    refine KeyedTable.exists_update? fun x hx y hy hkey => t.tableMetadata.eq_of_key hx hy ?_
    rw [metadataKey_inj] at hkey ⊢
    have hx' := hfree x.table x.metadata ((h.metadata _ _).mp hx)
    have hy' := hfree y.table y.metadata ((h.metadata _ _).mp hy)
    by_cases hxo : x.table = old <;> by_cases hyo : y.table = old <;> simp [hxo, hyo] at hkey <;> grind
  have hbt : ∃ bt, t.backfilling.update? (fun c => c.table = old) (fun c => { c with table := new }) = some bt := by
    refine KeyedTable.exists_update? fun x hx y hy hkey => t.backfilling.eq_of_key hx hy ?_
    rw [backfillKey_inj] at hkey ⊢
    have hx' := hfree' x.table x.column x.backfill ((h.backfilling _ _ _).mp hx)
    have hy' := hfree' y.table y.column y.backfill ((h.backfilling _ _ _).mp hy)
    by_cases hxo : x.table = old <;> by_cases hyo : y.table = old <;> simp [hxo, hyo] at hkey <;> grind
  obtain ⟨mt, hmt⟩ := hmt
  obtain ⟨bt, hbt⟩ := hbt
  refine ⟨⟨mt, bt⟩, ?_⟩
  simp only [CookieTables.run, hmt, hbt, Option.bind_eq_bind, Option.bind_some]

theorem exists_renameColumn (h : t.Holds c) (hcat : cat.Covers c) {table : Identifier} {old new : String}
    {columns : List String} (hcolumns : cat table = some columns) (hnew : new ∉ columns ∨ new = old) :
    ∃ t', t.run (.renameColumn table old new) = some t' := by
  have hfree : ∀ column v, c.backfilling.get? (table, column) = some v → column = new → new = old := by
    rintro column v hv rfl
    obtain ⟨columns', hcolumns', hmem⟩ := hcat.backfilling table column v hv
    obtain rfl := Option.some.inj (hcolumns.symm.trans hcolumns')
    exact hnew.resolve_left (not_not_intro hmem)
  have hbt : ∃ bt, t.backfilling.update? (fun c => c.table = table ∧ c.column = old)
      (fun c => { c with column := new }) = some bt := by
    refine KeyedTable.exists_update? fun x hx y hy hkey => t.backfilling.eq_of_key hx hy ?_
    rw [backfillKey_inj] at hkey ⊢
    have hx' : x.table = table → x.column = new → new = old := fun ht =>
      hfree x.column x.backfill (ht ▸ (h.backfilling _ _ _).mp hx)
    have hy' : y.table = table → y.column = new → new = old := fun ht =>
      hfree y.column y.backfill (ht ▸ (h.backfilling _ _ _).mp hy)
    by_cases hxo : x.table = table ∧ x.column = old <;> by_cases hyo : y.table = table ∧ y.column = old <;>
      simp [hxo, hyo] at hkey <;> grind
  obtain ⟨bt, hbt⟩ := hbt
  refine ⟨{ t with backfilling := bt }, ?_⟩
  simp only [CookieTables.run, hbt, Option.bind_eq_bind, Option.bind_some]

theorem exists_foldlM {ops : List (CookieOp J)} (h : ∀ op ∈ ops, ∀ t : CookieTables J, ∃ t', t.run op = some t')
    (t : CookieTables J) : ∃ t', ops.foldlM CookieTables.run t = some t' := by
  induction ops generalizing t with
  | nil => exact ⟨t, rfl⟩
  | cons op ops ih =>
    obtain ⟨t₁, h₁⟩ := h op (List.mem_cons_self ..) t
    obtain ⟨t', h'⟩ := ih (fun op hop => h op (List.mem_cons_of_mem _ hop)) t₁
    refine ⟨t', ?_⟩
    rw [List.foldlM_cons, h₁]
    exact h'

namespace Catalog.Covers

theorem mono (h : cat.Covers c) (hle : ∀ table columns, cat table = some columns →
    ∃ columns' ∈ cat' table, columns ⊆ columns') : cat'.Covers c := by
  constructor
  · intro table m hm
    obtain ⟨columns, hcolumns⟩ := Option.isSome_iff_exists.mp (h.metadata table m hm)
    obtain ⟨columns', hcolumns', -⟩ := hle table columns hcolumns
    exact Option.isSome_of_eq_some hcolumns'
  · intro table column v hv
    obtain ⟨columns, hcolumns, hmem⟩ := h.backfilling table column v hv
    obtain ⟨columns', hcolumns', hsub⟩ := hle table columns hcolumns
    exact ⟨columns', hcolumns', hsub hmem⟩

theorem upsertMetadata (h : cat.Covers c) {table : Identifier} (m : TableMetadata J) (ht : (cat table).isSome) :
    cat.Covers (c.apply (.upsertMetadata table m)) := by
  refine ⟨fun table' m' hm => ?_, h.backfilling⟩
  rw [Cookies.apply, OrderedMap.get?_set] at hm
  split at hm
  · rename_i heq
    exact heq ▸ ht
  · exact h.metadata table' m' hm

theorem upsertBackfill (h : cat.Covers c) {table : Identifier} {column : String} (v : J)
    (ht : ∃ columns ∈ cat table, column ∈ columns) : cat.Covers (c.apply (.upsertBackfill table column v)) := by
  refine ⟨h.metadata, fun table' column' v' hv => ?_⟩
  rw [Cookies.apply, OrderedMap.get?_set] at hv
  split at hv
  · rename_i heq
    obtain ⟨rfl, rfl⟩ := Prod.mk.inj heq
    exact ht
  · exact h.backfilling table' column' v' hv

theorem upsertBackfills {table : Identifier} : ∀ {entries : List (String × J)} {c : Cookies J}, cat.Covers c →
    (∀ e ∈ entries, ∃ columns ∈ cat table, e.1 ∈ columns) →
      cat.Covers ((entries.map fun e => CookieOp.upsertBackfill table e.1 e.2).foldl Cookies.apply c)
  | [], _, h, _ => h
  | e :: entries, _, h, hcols => by
    rw [List.map_cons, List.foldl_cons]
    exact upsertBackfills (h.upsertBackfill e.2 (hcols e (List.mem_cons_self ..)))
      fun e' he' => hcols e' (List.mem_cons_of_mem _ he')

theorem renameTable (h : cat.Covers c) {old new : Identifier} {columns : List String} (hold : cat old = some columns)
    (hfree : cat new = none ∨ new = old) :
    Catalog.Covers (Function.update (Function.update cat old none) new (some columns))
      (c.apply (.renameTable old new)) := by
  constructor
  · intro table m hm
    rw [metadata_rename] at hm
    rcases moved_some hm with ⟨rfl, -⟩ | ⟨hne, hm⟩
    · rw [Function.update_self]
      rfl
    · by_cases hnew : table = new
      · rw [hnew, Function.update_self]
        rfl
      · rw [Function.update_of_ne hnew, Function.update_of_ne hne]
        exact h.metadata table m hm
  · intro table column v hv
    rw [backfilling_rename] at hv
    rcases moved_some hv with ⟨rfl, hmoved⟩ | ⟨hne, hv⟩
    · obtain ⟨columns', hcolumns', hmem⟩ := h.backfilling old column v hmoved
      obtain rfl := Option.some.inj (hold.symm.trans hcolumns')
      exact ⟨columns, Function.update_self .., hmem⟩
    · obtain ⟨columns', hcolumns', hmem⟩ := h.backfilling table column v hv
      by_cases hnew : table = new
      · rcases hfree with hnone | heq
        · rw [hnew, hnone] at hcolumns'
          cases hcolumns'
        · exact absurd (hnew.trans heq) hne
      · refine ⟨columns', ?_, hmem⟩
        rw [Function.update_of_ne hnew, Function.update_of_ne hne]
        exact hcolumns'

theorem shrink (h : cat.Covers c) (hm : ∀ table m, c'.metadata.get? table = some m → c.metadata.get? table = some m)
    (hb : ∀ key v, c'.backfilling.get? key = some v → c.backfilling.get? key = some v) : cat.Covers c' :=
  ⟨fun table m hget => h.metadata table m (hm table m hget),
    fun table column v hget => h.backfilling table column v (hb (table, column) v hget)⟩

theorem dropTable (h : cat.Covers c) (table : Identifier) :
    Catalog.Covers (Function.update cat table none) (c.apply (.dropTable table)) := by
  constructor
  · intro table' m hm
    rw [Cookies.apply, OrderedMap.get?_erase] at hm
    split at hm
    · cases hm
    · rename_i hne
      rw [Function.update_of_ne (Ne.symm hne)]
      exact h.metadata table' m hm
  · intro table' column v hv
    rw [Cookies.get?_dropTable] at hv
    split at hv
    · cases hv
    · rename_i hne
      rw [Function.update_of_ne hne]
      exact h.backfilling table' column v hv

theorem renameColumn (h : cat.Covers c) {table : Identifier} {old new : String} {columns : List String}
    (hcolumns : cat table = some columns) :
    Catalog.Covers (Function.update cat table (some (columns.map fun c => if c = old then new else c)))
      (c.apply (.renameColumn table old new)) := by
  constructor
  · intro table' m hm
    rw [metadata_renameColumn] at hm
    by_cases ht : table' = table
    · rw [ht, Function.update_self]
      rfl
    · rw [Function.update_of_ne ht]
      exact h.metadata table' m hm
  · intro table' column v hv
    rw [backfilling_renameColumn] at hv
    -- the column as it was called before
    obtain ⟨column₀, hv₀, hcolumn⟩ : ∃ column₀, c.backfilling.get? (table', column₀) = some v ∧
        (table' = table → (if column₀ = old then new else column₀) = column) ∧ (table' ≠ table → column₀ = column) := by
      rcases moved_some hv with ⟨hkey, hmoved⟩ | ⟨hne, hv⟩
      · obtain ⟨rfl, rfl⟩ := Prod.mk.inj hkey
        exact ⟨old, hmoved, fun _ => if_pos rfl, fun hne => absurd rfl hne⟩
      · exact ⟨column, hv, fun ht => if_neg fun hc => hne (by rw [ht, hc]), fun _ => rfl⟩
    obtain ⟨columns', hcolumns', hmem⟩ := h.backfilling table' column₀ v hv₀
    by_cases ht : table' = table
    · subst ht
      obtain rfl := Option.some.inj (hcolumns.symm.trans hcolumns')
      exact ⟨_, Function.update_self .., List.mem_map.mpr ⟨column₀, hmem, hcolumn.1 rfl⟩⟩
    · refine ⟨columns', ?_, hcolumn.2 ht ▸ hmem⟩
      rw [Function.update_of_ne ht]
      exact hcolumns'

theorem dropColumn (h : cat.Covers c) {table : Identifier} {column : String} {columns : List String}
    (hcolumns : cat table = some columns) :
    Catalog.Covers (Function.update cat table (some (columns.filter (· ≠ column)))) (c.dropColumn table column) := by
  constructor
  · intro table' m hm
    by_cases ht : table' = table
    · rw [ht, Function.update_self]
      rfl
    · rw [Function.update_of_ne ht]
      exact h.metadata table' m hm
  · intro table' column' v hv
    rw [Cookies.get?_dropColumn] at hv
    split at hv
    · cases hv
    · rename_i hne
      obtain ⟨columns', hcolumns', hmem⟩ := h.backfilling table' column' v hv
      by_cases ht : table' = table
      · subst ht
        obtain rfl := Option.some.inj (hcolumns.symm.trans hcolumns')
        refine ⟨_, Function.update_self .., List.mem_filter.mpr ⟨hmem, ?_⟩⟩
        exact decide_eq_true fun heq => hne ⟨rfl, heq⟩
      · refine ⟨columns', ?_, hmem⟩
        rw [Function.update_of_ne ht]
        exact hcolumns'

theorem completeBackfill (h : cat.Covers c) (table : Identifier) (columns : List String) :
    cat.Covers (c.apply (.completeBackfill table columns)) := by
  refine h.shrink (fun table' m hm => ?_) fun key v hv => ?_
  · rwa [Cookies.metadata_completeBackfill] at hm
  · obtain ⟨table', column⟩ := key
    rw [Cookies.get?_completeBackfill] at hv
    split at hv
    · cases hv
    · exact hv

theorem update_of_subset (h : cat.Covers c) (table : Identifier) (columns : List String)
    (hsub : ∀ columns' ∈ cat table, columns' ⊆ columns) :
    Catalog.Covers (Function.update cat table (some columns)) c := by
  refine h.mono fun table' columns' hcolumns' => ?_
  by_cases ht : table' = table
  · subst ht
    exact ⟨columns, Function.update_self .., hsub columns' hcolumns'⟩
  · refine ⟨columns', ?_, fun _ hmem => hmem⟩
    rw [Function.update_of_ne ht]
    exact hcolumns'

end Catalog.Covers

/-! ## A run -/

namespace Catalog.Step

theorem covers (h : Step cat change cat') (hcov : cat.Covers c) : cat'.Covers (c.change change) := by
  unfold Cookies.change
  cases h with
  | createTable table metadata backfill columns hnew hcolumns =>
    have hcov := hcov.update_of_subset table columns (by rw [hnew]; intro _ h; cases h)
    have hsome : (Function.update cat table (some columns) table).isSome := by rw [Function.update_self]; rfl
    simp only [cookieOps, List.foldl_append]
    have hupsert : Catalog.Covers (Function.update cat table (some columns))
        ((metadata.map (CookieOp.upsertMetadata table)).toList.foldl Cookies.apply c) := by
      cases metadata with
      | none => exact hcov
      | some m => exact hcov.upsertMetadata m hsome
    refine hupsert.upsertBackfills fun e he => ⟨columns, Function.update_self .., ?_⟩
    cases backfill with
    | none => cases he
    | some entries => exact hcolumns entries rfl e.1 (List.mem_map_of_mem he)
  | renameTable old new columns hold hnew => exact hcov.renameTable hold hnew
  | updateTableMetadata table new hsome => exact hcov.upsertMetadata new hsome
  | addColumn table column tableMetadata backfill columns hcolumns hnew =>
    have hcov := hcov.update_of_subset table (column :: columns) fun columns' h => by
      obtain rfl := Option.some.inj (hcolumns.symm.trans h)
      exact List.subset_cons_self ..
    have hsome : (Function.update cat table (some (column :: columns)) table).isSome := by
      rw [Function.update_self]
      rfl
    simp only [cookieOps, List.foldl_append]
    have hupsert : Catalog.Covers (Function.update cat table (some (column :: columns)))
        ((tableMetadata.map (CookieOp.upsertMetadata table)).toList.foldl Cookies.apply c) := by
      cases tableMetadata with
      | none => exact hcov
      | some m => exact hcov.upsertMetadata m hsome
    cases backfill with
    | none => exact hupsert
    | some v => exact hupsert.upsertBackfill v ⟨_, Function.update_self .., List.mem_cons_self ..⟩
  | updateColumn table old new columns hcolumns hnew =>
    simp only [cookieOps]
    split
    · next heq =>
      subst heq
      refine hcov.update_of_subset table _ fun columns' h => ?_
      obtain rfl := Option.some.inj (hcolumns.symm.trans h)
      have hid : (columns.map fun c => if c = old then old else c) = columns := by
        rw [List.map_congr_left (g := id) fun c _ => by split <;> simp_all, List.map_id]
      rw [hid]
      exact List.Subset.refl _
    · exact hcov.renameColumn hcolumns
  | dropColumn table column columns hcolumns => exact hcov.dropColumn hcolumns
  | dropTable id => exact hcov.dropTable id
  | update relation key new => exact hcov
  | other => exact hcov
  | backfill msg =>
    cases msg with
    | backfill => exact hcov
    | completed relation columns status =>
      simp only [cookieOps]
      split
      · exact hcov
      · exact hcov.completeBackfill relation.id _

theorem exists_apply (h : Step cat change cat') (hcov : cat.Covers c) (ht : t.Holds c) :
    ∃ t', t.apply change = some t' := by
  unfold CookieTables.apply
  cases h with
  | createTable table metadata backfill columns hnew hcolumns =>
    refine exists_foldlM (fun op hop t => ?_) t
    simp only [cookieOps, List.mem_append, Option.mem_toList, Option.map_eq_some_iff, List.mem_map] at hop
    rcases hop with ⟨m, -, rfl⟩ | ⟨e, -, rfl⟩ <;> exact ⟨_, rfl⟩
  | renameTable old new columns hold hnew =>
    obtain ⟨t', ht'⟩ := exists_renameTable ht hcov hnew
    exact ⟨t', by simp only [cookieOps, List.foldlM_cons, ht', List.foldlM_nil]; rfl⟩
  | updateTableMetadata table new hsome => exact ⟨_, rfl⟩
  | addColumn table column tableMetadata backfill columns hcolumns hnew =>
    refine exists_foldlM (fun op hop t => ?_) t
    simp only [cookieOps, List.mem_append, Option.mem_toList, Option.map_eq_some_iff] at hop
    rcases hop with ⟨m, -, rfl⟩ | ⟨v, -, rfl⟩ <;> exact ⟨_, rfl⟩
  | updateColumn table old new columns hcolumns hnew =>
    simp only [cookieOps]
    split
    · exact ⟨t, rfl⟩
    · obtain ⟨t', ht'⟩ := exists_renameColumn ht hcov hcolumns hnew
      exact ⟨t', by simp only [List.foldlM_cons, ht', List.foldlM_nil]; rfl⟩
  | dropColumn table column columns hcolumns => exact ⟨_, rfl⟩
  | dropTable id => exact ⟨_, rfl⟩
  | update relation key new => exact ⟨t, rfl⟩
  | other => exact ⟨t, rfl⟩
  | backfill msg =>
    cases msg with
    | backfill => exact ⟨t, rfl⟩
    | completed relation columns status =>
      simp only [cookieOps]
      split
      · exact ⟨t, rfl⟩
      · exact ⟨_, rfl⟩

end Catalog.Step

theorem Catalog.Run.exists_holds {changes : List (DataChange J)} (hrun : cat.Run changes) (hcov : cat.Covers c)
    (ht : t.Holds c) :
    ∃ t', changes.foldlM CookieTables.apply t = some t' ∧ t'.Holds (changes.foldl Cookies.change c) := by
  induction hrun generalizing t c with
  | nil cat => exact ⟨t, rfl, ht⟩
  | cons hstep hrun ih =>
    obtain ⟨t₁, ht₁⟩ := hstep.exists_apply hcov ht
    obtain ⟨t', ht', hholds⟩ := ih (hstep.covers hcov) (ht.apply ht₁)
    refine ⟨t', ?_, hholds⟩
    rw [List.foldlM_cons, ht₁]
    exact ht'

/-! ## The two orders -/

theorem eq_of_pairwise_isLE {α : Type} (order : α → α → Ordering) [Std.TransCmp order] {l l' : List α}
    (hmem : ∀ x, x ∈ l ↔ x ∈ l') (hnodup : l.Nodup) (hnodup' : l'.Nodup) (hl : l.Pairwise fun a b => (order a b).isLE)
    (hl' : l'.Pairwise fun a b => (order a b).isLE) (heq : ∀ a ∈ l, ∀ b ∈ l, order a b = .eq → a = b) : l = l' := by
  refine List.Perm.eq_of_pairwise (fun a b ha hb hab hba => ?_) hl hl'
    ((List.perm_ext_iff_of_nodup hnodup hnodup').mpr hmem)
  have hswap : order b a = (order a b).swap := Std.OrientedCmp.eq_swap
  refine heq a ha b ((hmem b).mpr hb) ?_
  rw [hswap] at hba
  cases hcmp : order a b <;> simp_all

theorem eq_rows_iff {α κ : Type} [LinearOrder κ] (key : α → κ) (order : α → α → Ordering) [Std.TransCmp order]
    {l rows : List α} (hmem : ∀ x, x ∈ l ↔ x ∈ rows) (hnodup : l.Nodup) (hl : l.Pairwise fun a b => (order a b).isLE)
    (hrows : rows.Pairwise fun a b => key a < key b) (heq : ∀ a ∈ l, ∀ b ∈ l, order a b = .eq → a = b) :
    l = rows ↔ ∀ a ∈ rows, ∀ b ∈ rows, key a < key b → order a b = .lt := by
  constructor
  · rintro rfl a ha b hb hlt
    -- of two rows the one with the lower key comes first
    have hboth : l.Pairwise fun a b => (key a < key b → (order a b).isLE) ∧ (key b < key a → (order b a).isLE) :=
      (hl.and hrows).imp fun hab => ⟨fun _ => hab.1, fun h => absurd h (lt_asymm hab.2)⟩
    have : Std.Symm fun a b => (key a < key b → (order a b).isLE) ∧ (key b < key a → (order b a).isLE) :=
      ⟨fun _ _ h => ⟨h.2, h.1⟩⟩
    have hne : a ≠ b := fun h => absurd (h ▸ hlt) (lt_irrefl _)
    have hle := (hboth.forall ha hb hne).1 hlt
    cases hcmp : order a b with
    | lt => rfl
    | eq => exact absurd (heq a ha b hb hcmp) hne
    | gt =>
      rw [hcmp] at hle
      cases hle
  · intro h
    have hrowsNodup : rows.Nodup := hrows.imp fun hlt heq => absurd (heq ▸ hlt) (lt_irrefl _)
    exact eq_of_pairwise_isLE order hmem hnodup hrowsNodup hl
      (hrows.imp_of_mem fun ha hb hlt => by rw [h _ ha _ hb hlt]; rfl) heq

variable {cookies : CookieSet J} {changes : List (DataChange J)}

theorem cookieSet_ext {a b : CookieSet J} (hm : a.tableMetadata = b.tableMetadata)
    (hb : a.backfilling = b.backfilling) : a = b := by
  cases a
  cases b
  congr

namespace CookieTables.Holds

/-- The cookies are read in the order of `foldCookies` where both are in the order of the keys. -/
theorem sorted_eq_cookies_iff (h : t.Holds c) : c.sorted = t.cookies ↔
    (∀ a ∈ t.tableMetadata.rows, ∀ b ∈ t.tableMetadata.rows, metadataKey a < metadataKey b →
      cmpTable a.table b.table = .lt) ∧
    ∀ a ∈ t.backfilling.rows, ∀ b ∈ t.backfilling.rows, backfillKey a < backfillKey b →
      cmpColumn (a.table, a.column) (b.table, b.column) = .lt := by
  have := Backfills.transCmp_on cmpTable (TableMetadataCookie.table (J := J))
  have := Backfills.transCmp_on cmpColumn fun c : BackfillCookie J => (c.table, c.column)
  have hmetadata : c.sorted.tableMetadata = t.tableMetadata.rows ↔ _ :=
    eq_rows_iff metadataKey (fun a b => cmpTable a.table b.table)
      (fun x => Backfills.mem_sorted_tableMetadata.trans (h.metadata x.table x.metadata).symm)
      (List.Nodup.of_map _ (Backfills.nodup_sorted_tableMetadata c)) (Backfills.pairwise_sorted_tableMetadata c)
      t.tableMetadata.sorted fun a ha b hb heq =>
        List.inj_on_of_nodup_map (Backfills.nodup_sorted_tableMetadata c) ha hb (Backfills.eq_of_cmpTable heq)
  have hbackfilling : c.sorted.backfilling = t.backfilling.rows ↔ _ :=
    eq_rows_iff backfillKey (fun a b => cmpColumn (a.table, a.column) (b.table, b.column))
      (fun x => Backfills.mem_sorted_backfilling.trans (h.backfilling x.table x.column x.backfill).symm)
      (List.Nodup.of_map _ (Backfills.nodup_sorted_backfilling c)) (Backfills.pairwise_sorted_backfilling c)
      t.backfilling.sorted fun a ha b hb heq =>
        List.inj_on_of_nodup_map (Backfills.nodup_sorted_backfilling c) ha hb (Backfills.eq_of_cmpColumn heq)
  rw [← hmetadata, ← hbackfilling]
  constructor
  · intro heq
    exact ⟨congrArg CookieSet.tableMetadata heq, congrArg CookieSet.backfilling heq⟩
  · rintro ⟨hm, hb⟩
    exact cookieSet_ext hm hb

theorem sorted_congr (h : t.Holds c) (h' : t.Holds c') : c.sorted = c'.sorted := by
  have := Backfills.transCmp_on cmpTable (TableMetadataCookie.table (J := J))
  have := Backfills.transCmp_on cmpColumn fun c : BackfillCookie J => (c.table, c.column)
  have hnodup (c : Cookies J) : c.sorted.tableMetadata.Nodup :=
    List.Nodup.of_map _ (Backfills.nodup_sorted_tableMetadata c)
  have hnodup' (c : Cookies J) : c.sorted.backfilling.Nodup :=
    List.Nodup.of_map _ (Backfills.nodup_sorted_backfilling c)
  have hmetadata : c.sorted.tableMetadata = c'.sorted.tableMetadata := by
    have hmem (x) : x ∈ c.sorted.tableMetadata ↔ x ∈ c'.sorted.tableMetadata := by
      rw [Backfills.mem_sorted_tableMetadata, ← h.metadata, h'.metadata, ← Backfills.mem_sorted_tableMetadata]
    refine eq_of_pairwise_isLE (fun a b => cmpTable a.table b.table) hmem (hnodup c) (hnodup c') ?_ ?_ ?_
    · exact Backfills.pairwise_sorted_tableMetadata c
    · exact Backfills.pairwise_sorted_tableMetadata c'
    · exact fun a ha b hb heq =>
        List.inj_on_of_nodup_map (Backfills.nodup_sorted_tableMetadata c) ha hb (Backfills.eq_of_cmpTable heq)
  have hbackfilling : c.sorted.backfilling = c'.sorted.backfilling := by
    have hmem (x) : x ∈ c.sorted.backfilling ↔ x ∈ c'.sorted.backfilling := by
      rw [Backfills.mem_sorted_backfilling, ← h.backfilling, h'.backfilling, ← Backfills.mem_sorted_backfilling]
    refine eq_of_pairwise_isLE (fun a b => cmpColumn (a.table, a.column) (b.table, b.column)) hmem (hnodup' c)
      (hnodup' c') ?_ ?_ ?_
    · exact Backfills.pairwise_sorted_backfilling c
    · exact Backfills.pairwise_sorted_backfilling c'
    · exact fun a ha b hb heq =>
        List.inj_on_of_nodup_map (Backfills.nodup_sorted_backfilling c) ha hb (Backfills.eq_of_cmpColumn heq)
  exact cookieSet_ext hmetadata hbackfilling

end CookieTables.Holds

/-! ## The cookies that are left -/

/-- A key there was at the start or one that was set, as later operations move it. -/
def Left {κ O : Type} (start : κ → Prop) (sets : O → κ → Prop) (next : κ → O → Option κ) (ops : List O) (key : κ) : Prop :=
  (∃ k, start k ∧ ops.foldlM next k = some key) ∨
    ∃ first op rest k, ops = first ++ op :: rest ∧ sets op k ∧ rest.foldlM next k = some key

theorem left_nil {κ O : Type} {start : κ → Prop} {sets : O → κ → Prop} {next : κ → O → Option κ} {key : κ} :
    Left start sets next [] key ↔ start key := by
  constructor
  · rintro (⟨k, hk, heq⟩ | ⟨first, op, rest, k, heq, -⟩)
    · exact Option.some.inj heq ▸ hk
    · cases first <;> cases heq
  · exact fun h => .inl ⟨key, h, rfl⟩

theorem left_append {κ O : Type} {start : κ → Prop} {sets : O → κ → Prop} {next : κ → O → Option κ} {ops : List O}
    {op : O} {key : κ} : Left start sets next (ops ++ [op]) key ↔
      (∃ k, Left start sets next ops k ∧ next k op = some key) ∨ sets op key := by
  have hlast (k : κ) (rest : List O) : (rest ++ [op]).foldlM next k = some key ↔
      ∃ k', rest.foldlM next k = some k' ∧ next k' op = some key := by
    rw [List.foldlM_append]
    simp only [List.foldlM_cons, List.foldlM_nil, bind_pure]
    exact Option.bind_eq_some_iff
  constructor
  · rintro (⟨k, hk, heq⟩ | ⟨first, op', rest, k, heq, hsets, hrest⟩)
    · obtain ⟨k', hk', hnext⟩ := (hlast k ops).mp heq
      exact .inl ⟨k', .inl ⟨k, hk, hk'⟩, hnext⟩
    · rcases List.eq_nil_or_concat rest with rfl | ⟨rest, op'', rfl⟩
      · obtain ⟨-, heq⟩ := List.append_inj' heq rfl
        obtain rfl := List.singleton_injective heq
        exact .inr (Option.some.inj hrest ▸ hsets)
      · rw [List.concat_eq_append] at heq hrest
        have heq : ops ++ [op] = (first ++ op' :: rest) ++ [op''] := by simpa using heq
        obtain ⟨rfl, hop⟩ := List.append_inj' heq rfl
        obtain rfl := List.singleton_injective hop
        obtain ⟨k', hk', hnext⟩ := (hlast k rest).mp hrest
        exact .inl ⟨k', .inr ⟨first, op', rest, k, rfl, hsets, hk'⟩, hnext⟩
  · rintro (⟨k', ⟨k, hk, hk'⟩ | ⟨first, op', rest, k, rfl, hsets, hk'⟩, hnext⟩ | hsets)
    · exact .inl ⟨k, hk, (hlast k ops).mpr ⟨k', hk', hnext⟩⟩
    · exact .inr ⟨first, op', rest ++ [op], k, by simp, hsets, (hlast k rest).mpr ⟨k', hk', hnext⟩⟩
    · exact .inr ⟨ops, op, [], key, rfl, hsets, rfl⟩

/-- The table a cookie of a table is of after a statement. -/
def tableAfter (table : Identifier) : CookieOp J → Option Identifier
  | .renameTable old new => some (if table = old then new else table)
  | .dropTable dropped => if table = dropped then none else some table
  | _ => some table

/-- The column a cookie of a column is of after a statement. -/
def columnAfter (key : Identifier × String) : CookieOp J → Option (Identifier × String)
  | .renameTable old new => some (if key.1 = old then new else key.1, key.2)
  | .dropTable dropped => if key.1 = dropped then none else some key
  | .renameColumn table old new => some (if key = (table, old) then (table, new) else key)
  | .dropColumn table column => if key = (table, column) then none else some key
  | .completeBackfill table columns => if key.1 = table ∧ key.2 ∈ columns then none else some key
  | _ => some key

/-- Tables with metadata after the changes: metadata at first or from a change, and
no later change drops the table. -/
def LeavesTable (cookies : CookieSet J) (changes : List (DataChange J)) : Identifier → Prop :=
  Left (fun table => ∃ m, (Cookies.of cookies).metadata.get? table = some m)
    (fun op table => ∃ m, op = CookieOp.upsertMetadata table m) tableAfter (changes.flatMap cookieOps)

/-- Columns whose backfill is not done after the changes: it was not at first or a change
started it, and no later change completes it or drops the column or its table. -/
def LeavesColumn (cookies : CookieSet J) (changes : List (DataChange J)) : Identifier × String → Prop :=
  Left (fun key => ∃ v, (Cookies.of cookies).backfilling.get? key = some v)
    (fun op key => ∃ v, op = CookieOp.upsertBackfill key.1 key.2 v) columnAfter (changes.flatMap cookieOps)

theorem exists_moved {K V : Type} [DecidableEq K] {get : K → Option V} {old new k : K} :
    (∃ v, moved get old new k = some v) ↔ ∃ k₀, (∃ v, get k₀ = some v) ∧ (if k₀ = old then new else k₀) = k := by
  unfold moved
  cases hold : get old with
  | none =>
    constructor
    · rintro ⟨v, hv⟩
      exact ⟨k, ⟨v, hv⟩, if_neg fun heq => by rw [heq, Option.elim_none, hold] at hv; cases hv⟩
    · rintro ⟨k₀, ⟨v, hv⟩, rfl⟩
      rw [if_neg fun heq => by rw [heq, hold] at hv; cases hv]
      exact ⟨v, hv⟩
  | some v₀ =>
    rw [Option.elim_some]
    by_cases hk : k = new
    · rw [if_pos hk]
      exact iff_of_true ⟨v₀, rfl⟩ ⟨old, ⟨v₀, hold⟩, by rw [if_pos rfl, hk]⟩
    · rw [if_neg hk]
      by_cases hk' : k = old
      · rw [if_pos hk']
        refine iff_of_false (fun ⟨v, h⟩ => by cases h) ?_
        rintro ⟨k₀, -, heq⟩
        by_cases h : k₀ = old
        · exact hk (by rw [← heq, if_pos h])
        · exact h (by rwa [if_neg h, hk'] at heq)
      · rw [if_neg hk']
        constructor
        · rintro ⟨v, hv⟩
          exact ⟨k, ⟨v, hv⟩, if_neg hk'⟩
        · rintro ⟨k₀, ⟨v, hv⟩, heq⟩
          by_cases h : k₀ = old
          · exact absurd (by rw [← heq, if_pos h]) hk
          · rw [if_neg h] at heq
            exact ⟨v, heq ▸ hv⟩

theorem exists_metadata_apply (c : Cookies J) (op : CookieOp J) (table : Identifier) :
    (∃ m, (c.apply op).metadata.get? table = some m) ↔
      (∃ k, (∃ m, c.metadata.get? k = some m) ∧ tableAfter k op = some table) ∨
        ∃ m, op = CookieOp.upsertMetadata table m := by
  cases op with
  | upsertMetadata table' m' =>
    simp only [Cookies.apply, OrderedMap.get?_set, tableAfter, Option.some.injEq, exists_eq_right,
      CookieOp.upsertMetadata.injEq]
    by_cases ht : table' = table <;> simp [ht]
  | renameTable old new =>
    simp only [metadata_rename, exists_moved, tableAfter, Option.some.injEq, reduceCtorEq, exists_false, or_false]
  | dropTable dropped =>
    simp only [Cookies.apply, OrderedMap.get?_erase, tableAfter, reduceCtorEq, exists_false, or_false]
    by_cases ht : dropped = table
    · subst ht
      simp
    · rw [if_neg ht]
      constructor
      · exact fun h => ⟨table, h, if_neg (Ne.symm ht)⟩
      · rintro ⟨k, hk, heq⟩
        split at heq
        · cases heq
        · exact Option.some.inj heq ▸ hk
  | renameColumn table' old new => simp [metadata_renameColumn, tableAfter]
  | completeBackfill table' columns => simp [Cookies.metadata_completeBackfill, tableAfter]
  | upsertBackfill | dropColumn => simp [Cookies.apply, Cookies.dropColumn, tableAfter]

theorem exists_backfilling_apply (c : Cookies J) (op : CookieOp J) (key : Identifier × String) :
    (∃ v, (c.apply op).backfilling.get? key = some v) ↔
      (∃ k, (∃ v, c.backfilling.get? k = some v) ∧ columnAfter k op = some key) ∨
        ∃ v, op = CookieOp.upsertBackfill key.1 key.2 v := by
  obtain ⟨table, column⟩ := key
  -- a statement that deletes cookies
  have hdelete (p : Identifier × String → Prop) [DecidablePred p] (get : Identifier × String → Option J) :
      (∃ v, (if p (table, column) then none else get (table, column)) = some v) ↔
        ∃ k, (∃ v, get k = some v) ∧ (if p k then none else some k) = some (table, column) := by
    by_cases hp : p (table, column)
    · rw [if_pos hp]
      refine iff_of_false (fun ⟨v, h⟩ => by cases h) ?_
      rintro ⟨k, -, heq⟩
      split at heq
      · cases heq
      · rename_i hk
        exact hk (Option.some.inj heq ▸ hp)
    · rw [if_neg hp]
      constructor
      · exact fun h => ⟨_, h, if_neg hp⟩
      · rintro ⟨k, hk, heq⟩
        split at heq
        · cases heq
        · exact Option.some.inj heq ▸ hk
  cases op with
  | upsertMetadata => simp [Cookies.apply, columnAfter]
  | upsertBackfill table' column' v' =>
    simp only [Cookies.apply, OrderedMap.get?_set, columnAfter, Option.some.injEq, exists_eq_right,
      CookieOp.upsertBackfill.injEq]
    by_cases ht : (table', column') = (table, column)
    · obtain ⟨rfl, rfl⟩ := Prod.mk.inj ht
      simp
    · rw [if_neg ht]
      rw [Prod.mk.injEq] at ht
      simp only [← and_assoc, ht, false_and, exists_false, or_false]
  | renameTable old new =>
    simp only [backfilling_rename, exists_moved, columnAfter, Option.some.injEq, Prod.mk.injEq, reduceCtorEq,
      exists_false, or_false]
    constructor
    · rintro ⟨k, hk, heq⟩
      exact ⟨(k, column), hk, heq, rfl⟩
    · rintro ⟨⟨k, column'⟩, hk, heq, rfl⟩
      exact ⟨k, hk, heq⟩
  | renameColumn table' old new =>
    simp only [backfilling_renameColumn, exists_moved, columnAfter, Option.some.injEq, reduceCtorEq, exists_false,
      or_false]
  | dropTable dropped =>
    simp only [Cookies.get?_dropTable, columnAfter, reduceCtorEq, exists_false, or_false]
    exact hdelete (fun k => k.1 = dropped) c.backfilling.get?
  | dropColumn table' column' =>
    simp only [Cookies.apply, Cookies.get?_dropColumn, columnAfter, reduceCtorEq, exists_false, or_false, ← Prod.mk.injEq]
    exact hdelete (fun k => k = (table', column')) c.backfilling.get?
  | completeBackfill table' columns =>
    simp only [Cookies.get?_completeBackfill, columnAfter, reduceCtorEq, exists_false, or_false]
    exact hdelete (fun k => k.1 = table' ∧ k.2 ∈ columns) c.backfilling.get?

theorem leavesTable_iff {table : Identifier} : LeavesTable cookies changes table ↔
    ∃ m, (changes.foldl Cookies.change (.of cookies)).metadata.get? table = some m := by
  have hfold : changes.foldl Cookies.change (.of cookies) =
      (changes.flatMap cookieOps).foldl Cookies.apply (.of cookies) := List.foldl_flatMap.symm
  unfold LeavesTable
  rw [hfold]
  generalize changes.flatMap cookieOps = ops
  induction ops using List.reverseRecOn generalizing table with
  | nil => exact left_nil
  | append_singleton ops op ih =>
    rw [left_append, List.foldl_append, List.foldl_cons, List.foldl_nil, exists_metadata_apply]
    simp only [ih]

theorem leavesColumn_iff {key : Identifier × String} : LeavesColumn cookies changes key ↔
    ∃ v, (changes.foldl Cookies.change (.of cookies)).backfilling.get? key = some v := by
  have hfold : changes.foldl Cookies.change (.of cookies) =
      (changes.flatMap cookieOps).foldl Cookies.apply (.of cookies) := List.foldl_flatMap.symm
  unfold LeavesColumn
  rw [hfold]
  generalize changes.flatMap cookieOps = ops
  induction ops using List.reverseRecOn generalizing key with
  | nil => exact left_nil
  | append_singleton ops op ih =>
    rw [left_append, List.foldl_append, List.foldl_cons, List.foldl_nil, exists_backfilling_apply]
    simp only [ih]

/-- Names that are left compare alike by UTF-16 code units and by code points. -/
structure OrderedAlike (cookies : CookieSet J) (changes : List (DataChange J)) : Prop where
  tables : ∀ a b, LeavesTable cookies changes a → LeavesTable cookies changes b →
    toLex (a.schema, a.name) < toLex (b.schema, b.name) → cmpTable a b = .lt
  columns : ∀ a b, LeavesColumn cookies changes a → LeavesColumn cookies changes b →
    toLex (a.1.schema, toLex (a.1.name, a.2)) < toLex (b.1.schema, toLex (b.1.name, b.2)) → cmpColumn a b = .lt

theorem CookieTables.Holds.sorted_eq_cookies_iff_orderedAlike
    (h : t.Holds (changes.foldl Cookies.change (.of cookies))) :
    foldCookies cookies changes = t.cookies ↔ OrderedAlike cookies changes := by
  refine h.sorted_eq_cookies_iff.trans ⟨fun ⟨htables, hcolumns⟩ => ⟨?_, ?_⟩, fun ⟨htables, hcolumns⟩ => ⟨?_, ?_⟩⟩
  · intro a b ha hb hlt
    obtain ⟨m, hm⟩ := leavesTable_iff.mp ha
    obtain ⟨m', hm'⟩ := leavesTable_iff.mp hb
    exact htables ⟨a, m⟩ ((h.metadata ..).mpr hm) ⟨b, m'⟩ ((h.metadata ..).mpr hm') hlt
  · intro a b ha hb hlt
    obtain ⟨v, hv⟩ := leavesColumn_iff.mp ha
    obtain ⟨v', hv'⟩ := leavesColumn_iff.mp hb
    exact hcolumns ⟨a.1, a.2, v⟩ ((h.backfilling ..).mpr hv) ⟨b.1, b.2, v'⟩ ((h.backfilling ..).mpr hv') hlt
  · intro a ha b hb hlt
    exact htables a.table b.table (leavesTable_iff.mpr ⟨_, (h.metadata ..).mp ha⟩)
      (leavesTable_iff.mpr ⟨_, (h.metadata ..).mp hb⟩) hlt
  · intro a ha b hb hlt
    exact hcolumns (a.table, a.column) (b.table, b.column) (leavesColumn_iff.mpr ⟨_, (h.backfilling ..).mp ha⟩)
      (leavesColumn_iff.mpr ⟨_, (h.backfilling ..).mp hb⟩) hlt

theorem CookieTables.Holds.of_sorted (h : t.Holds c) : t.Holds (.of c.sorted) :=
  h.congr (fun table => Backfills.get?_sorted_metadata c table) fun key => Backfills.get?_sorted_backfilling c key

theorem Catalog.Run.split {first rest : List (DataChange J)} (hrun : cat.Run (first ++ rest)) (hcov : cat.Covers c) :
    cat.Run first ∧ ∃ cat₁ : Catalog, cat₁.Covers (first.foldl Cookies.change c) ∧ cat₁.Run rest := by
  induction first generalizing cat c with
  | nil => exact ⟨.nil cat, cat, hcov, hrun⟩
  | cons change first ih =>
    cases hrun with
    | cons hstep hrun =>
      obtain ⟨hfirst, cat₁, hcov₁, hrest⟩ := ih hrun (hstep.covers hcov)
      exact ⟨.cons hstep hfirst, cat₁, hcov₁, hrest⟩

theorem Catalog.Run.foldCookies_append {first rest : List (DataChange J)} (hrun : cat.Run (first ++ rest))
    (hcov : cat.Covers (.of cookies)) (ht : t.Holds (.of cookies)) :
    foldCookies (foldCookies cookies first) rest = foldCookies cookies (first ++ rest) := by
  obtain ⟨hfirst, cat₁, hcov₁, hrest⟩ := hrun.split hcov
  obtain ⟨t₁, -, ht₁⟩ := hfirst.exists_holds hcov ht
  have hcov₂ : cat₁.Covers (.of (foldCookies cookies first)) :=
    hcov₁.shrink (fun table m hm => by rwa [← Backfills.get?_sorted_metadata])
      fun key v hv => by rwa [← Backfills.get?_sorted_backfilling]
  obtain ⟨t₂, hrun₂, ht₂⟩ := hrest.exists_holds hcov₂ ht₁.of_sorted
  obtain ⟨t₃, hrun₃, ht₃⟩ := hrest.exists_holds hcov₁ ht₁
  obtain rfl := Option.some.inj (hrun₂.symm.trans hrun₃)
  unfold foldCookies
  rw [List.foldl_append]
  exact ht₂.sorted_congr ht₃

/-- **Folding and storing**: a valid sequence of changes can be stored, may be folded in
pieces, and what is stored is read in the order of the fold where names compare alike. -/
theorem foldCookies_eq_cookies_iff {t₀ : CookieTables J} (h : CookieTables.replace cookies = some t₀)
    (hcov : cat.Covers (.of cookies)) (hrun : cat.Run changes) :
    ((∃ t, changes.foldlM CookieTables.apply t₀ = some t ∧ foldCookies cookies changes = t.cookies) ∧
      ∀ first rest, changes = first ++ rest →
        foldCookies (foldCookies cookies first) rest = foldCookies cookies changes) ↔ OrderedAlike cookies changes := by
  have ht₀ := CookieTables.Holds.replace h
  obtain ⟨t, ht, hholds⟩ := hrun.exists_holds hcov ht₀
  constructor
  · rintro ⟨⟨t', ht', heq⟩, -⟩
    obtain rfl := Option.some.inj (ht.symm.trans ht')
    exact hholds.sorted_eq_cookies_iff_orderedAlike.mp heq
  · refine fun halike => ⟨⟨t, ht, hholds.sorted_eq_cookies_iff_orderedAlike.mpr halike⟩, ?_⟩
    rintro first rest rfl
    exact hrun.foldCookies_append hcov ht₀

/-- A table with metadata is created. -/
def creates (name : String) : DataChange ℕ := .source (.createTable ⟨"public", name⟩ (some ⟨∅, ∅⟩) none)

theorem covers_empty : Catalog.Covers (fun _ => none) (.of (⟨[], []⟩ : CookieSet ℕ)) :=
  ⟨fun _ _ h => (Option.some_ne_none _ h.symm).elim, fun _ _ _ h => (Option.some_ne_none _ h.symm).elim⟩

theorem run_creates {a b : String} (hne : b ≠ a) : Catalog.Run (fun _ => none) [creates a, creates b] := by
  refine .cons (.createTable _ _ _ [] rfl (by simp)) (.cons (.createTable _ _ _ [] ?_ (by simp)) (.nil _))
  exact Function.update_of_ne (by simp [hne]) _ _

theorem foldCookies_eq_cookies_iff_two :
    ((∃ t, [creates "issue", creates "user"].foldlM CookieTables.apply ⟨⟨[], .nil⟩, ⟨[], .nil⟩⟩ = some t ∧
        foldCookies ⟨[], []⟩ [creates "issue", creates "user"] = t.cookies) ∧
      ∀ first rest, [creates "issue", creates "user"] = first ++ rest →
        foldCookies (foldCookies ⟨[], []⟩ first) rest = foldCookies ⟨[], []⟩ [creates "issue", creates "user"]) ↔
      OrderedAlike ⟨[], []⟩ [creates "issue", creates "user"] :=
  foldCookies_eq_cookies_iff rfl covers_empty (run_creates (by decide))

/-- A name outside the basic plane, which is stored behind one that ends it. -/
theorem foldCookies_ne_cookies : ¬ ∀ (cat : Catalog) (cookies : CookieSet ℕ) (t₀ : CookieTables ℕ)
    (changes : List (DataChange ℕ)), CookieTables.replace cookies = some t₀ → cat.Covers (.of cookies) → cat.Run changes →
    ∃ t, changes.foldlM CookieTables.apply t₀ = some t ∧ foldCookies cookies changes = t.cookies := by
  intro h
  have hrun : Catalog.Run (fun _ => none) [creates "～", creates "😀"] := run_creates (by decide)
  obtain ⟨t, ht, heq⟩ := h _ ⟨[], []⟩ ⟨⟨[], .nil⟩, ⟨[], .nil⟩⟩ _ rfl covers_empty hrun
  have hempty : CookieTables.replace (⟨[], []⟩ : CookieSet ℕ) = some ⟨⟨[], .nil⟩, ⟨[], .nil⟩⟩ := rfl
  obtain ⟨t', ht', hholds⟩ := hrun.exists_holds covers_empty (.replace hempty)
  obtain rfl := Option.some.inj (ht.symm.trans ht')
  have hmem (name : String) (hname : name = "～" ∨ name = "😀") : ⟨⟨"public", name⟩, ⟨∅, ∅⟩⟩ ∈ t.tableMetadata.rows := by
    rw [hholds.metadata]
    rcases hname with rfl | rfl <;> decide +kernel
  have hlt := (hholds.sorted_eq_cookies_iff.mp heq).1 _ (hmem "～" (.inl rfl)) _ (hmem "😀" (.inr rfl))
    ((Prod.Lex.toLex_lt_toLex).mpr (.inr ⟨rfl, by decide +kernel⟩))
  exact absurd hlt (by decide +kernel)

end ZeroSync.ChangeLogDB
