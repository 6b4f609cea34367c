/-
The tables of the cookies hold what the fold over the schema changes gives, as long
as the statements of `ChangeLogCookieWriter` do not fail.
-/
import ZeroSync.ChangeLogDB
import ZeroSync.ChangeLogCookiesFacts

namespace ZeroSync.ChangeLogDB

open Backfills (CookieSet TableMetadataCookie BackfillCookie CookieOp cookieOps Identifier TableMetadata Cookies)

variable {J : Type}

/-! ## Cookies -/

theorem metadataKey_inj {a b : TableMetadataCookie J} : metadataKey a = metadataKey b ↔ a.table = b.table := by
  constructor
  · intro h
    have h := toLex.injective h
    obtain ⟨hs, hn⟩ := Prod.mk.inj h
    exact Backfills.Identifier.mk.injEq .. |>.mpr ⟨hs, hn⟩
  · intro h
    unfold metadataKey
    rw [h]

theorem backfillKey_inj {a b : BackfillCookie J} :
    backfillKey a = backfillKey b ↔ a.table = b.table ∧ a.column = b.column := by
  constructor
  · intro h
    obtain ⟨hs, h⟩ := Prod.mk.inj (toLex.injective h)
    obtain ⟨hn, hc⟩ := Prod.mk.inj (toLex.injective h)
    exact ⟨Backfills.Identifier.mk.injEq .. |>.mpr ⟨hs, hn⟩, hc⟩
  · rintro ⟨ht, hc⟩
    unfold backfillKey
    rw [ht, hc]

/-! ## A key that is moved -/

/-- What is at a key when one key has been moved to another. -/
def moved {K V : Type} [DecidableEq K] (get : K → Option V) (old new k : K) : Option V :=
  (get old).elim (get k) fun v => if k = new then some v else if k = old then none else get k

theorem moved_iff {K V : Type} [DecidableEq K] (get : K → Option V) (old new : K)
    (hfree : (get old).isSome → (get new).isSome → new = old) (k : K) (v : V) :
    (∃ k₀, get k₀ = some v ∧ (if k₀ = old then new else k₀) = k) ↔
      moved get old new k = some v := by
  unfold moved
  cases hold : get old with
  | none =>
    constructor
    · rintro ⟨k₀, hk₀, rfl⟩
      have hne : k₀ ≠ old := fun heq => Option.some_ne_none v ((heq ▸ hk₀).symm.trans hold)
      rwa [if_neg hne]
    · intro hk
      exact ⟨k, hk, if_neg fun heq => Option.some_ne_none v ((heq ▸ hk).symm.trans hold)⟩
  | some v₀ =>
    rw [Option.elim_some]
    by_cases hnew : k = new
    · subst hnew
      rw [if_pos rfl]
      constructor
      · rintro ⟨k₀, hk₀, heq⟩
        by_cases hk : k₀ = old
        · exact (hk ▸ hold).symm.trans hk₀
        · rw [if_neg hk] at heq
          subst heq
          exact absurd (hfree (by rw [hold]; rfl) (by rw [hk₀]; rfl)) hk
      · exact fun heq => ⟨old, hold.trans heq, if_pos rfl⟩
    · rw [if_neg hnew]
      by_cases hk : k = old
      · rw [if_pos hk]
        refine iff_of_false ?_ (fun h => by cases h)
        rintro ⟨k₀, hk₀, heq⟩
        by_cases hk₀' : k₀ = old
        · exact hnew (by rw [← heq, if_pos hk₀'])
        · exact hk₀' (by rwa [if_neg hk₀', hk] at heq)
      · rw [if_neg hk]
        constructor
        · rintro ⟨k₀, hk₀, heq⟩
          by_cases hk₀' : k₀ = old
          · exact absurd (by rw [← heq, if_pos hk₀']) hnew
          · rwa [if_neg hk₀', ← heq] at *
        · exact fun hv => ⟨k, hv, if_neg hk⟩

theorem moved_some {K V : Type} [DecidableEq K] {get : K → Option V} {old new k : K} {v : V}
    (h : moved get old new k = some v) : (k = new ∧ get old = some v) ∨ (k ≠ old ∧ get k = some v) := by
  unfold moved at h
  cases hold : get old with
  | none =>
    rw [hold, Option.elim_none] at h
    exact .inr ⟨fun heq => Option.some_ne_none v ((heq ▸ h).symm.trans hold), h⟩
  | some v' =>
    rw [hold, Option.elim_some] at h
    by_cases hk : k = new
    · rw [if_pos hk] at h
      exact .inl ⟨hk, h⟩
    · rw [if_neg hk] at h
      by_cases hk' : k = old
      · rw [if_pos hk'] at h
        cases h
      · rw [if_neg hk'] at h
        exact .inr ⟨hk', h⟩

theorem metadata_rename (c : Cookies J) (old new table : Identifier) :
    (c.apply (.renameTable old new)).metadata.get? table = moved c.metadata.get? old new table := by
  simp only [Cookies.apply, moved]
  cases c.metadata.get? old with
  | some v =>
    rw [OrderedMap.get?_set, OrderedMap.get?_erase, Option.elim_some]
    simp only [eq_comm]
  | none => rfl

theorem backfilling_rename (c : Cookies J) (old new table : Identifier) (column : String) :
    (c.apply (.renameTable old new)).backfilling.get? (table, column) =
      moved (fun table => c.backfilling.get? (table, column)) old new table := by
  refine (Backfills.get?_moveColumns old new column table _ _ c.backfilling.nodup).trans ?_
  simp only [moved, OrderedMap.get?]
  cases OrderedMap.lookup (old, column) c.backfilling.entries <;> rfl

theorem backfilling_renameColumn (c : Cookies J) (table : Identifier) (old new : String) (key : Identifier × String) :
    (c.apply (.renameColumn table old new)).backfilling.get? key =
      moved c.backfilling.get? (table, old) (table, new) key := by
  obtain ⟨table', column⟩ := key
  rw [Cookies.get?_renameColumn]
  simp only [moved, Prod.mk.injEq]
  cases c.backfilling.get? (table, old) <;> rfl

theorem metadata_renameColumn (c : Cookies J) (table : Identifier) (old new : String) :
    (c.apply (.renameColumn table old new)).metadata = c.metadata := by
  simp only [Cookies.apply]
  cases c.backfilling.get? (table, old) <;> rfl

/-! ## What the tables hold -/

/-- The tables hold the cookies of a fold. -/
structure CookieTables.Holds (t : CookieTables J) (c : Cookies J) : Prop where
  metadata : ∀ table m, ⟨table, m⟩ ∈ t.tableMetadata.rows ↔ c.metadata.get? table = some m
  backfilling : ∀ table column v, ⟨table, column, v⟩ ∈ t.backfilling.rows ↔ c.backfilling.get? (table, column) = some v

namespace CookieTables.Holds

variable {t t' : CookieTables J} {c c' : Cookies J}

theorem congr (h : t.Holds c) (hm : ∀ table, c'.metadata.get? table = c.metadata.get? table)
    (hb : ∀ key, c'.backfilling.get? key = c.backfilling.get? key) : t.Holds c' :=
  ⟨fun table m => (h.metadata table m).trans (by rw [hm]),
    fun table column v => (h.backfilling table column v).trans (by rw [hb])⟩

/-- `replaceCookies` -/
theorem replace {cookies : CookieSet J} (h : CookieTables.replace cookies = some t) : t.Holds (.of cookies) := by
  unfold CookieTables.replace at h
  obtain ⟨mt, hmt, h⟩ := Option.bind_eq_some_iff.mp h
  obtain ⟨bt, hbt, h⟩ := Option.bind_eq_some_iff.mp h
  obtain rfl := Option.some.inj h
  constructor
  · intro table m
    have hnodup : ((cookies.tableMetadata.map fun c => (c.table, c.metadata)).map (·.1)).Nodup := by
      have h := (KeyedTable.rows_ofRows? hmt).1
      rw [List.map_map]
      exact List.pairwise_map.mpr ((List.pairwise_map.mp h).imp fun hne heq => hne (metadataKey_inj.mpr heq))
    rw [KeyedTable.mem_ofRows? hmt, ← OrderedMap.mem_entries_iff]
    change _ ↔ _ ∈ (OrderedMap.ofList _).entries
    rw [OrderedMap.entries_ofList hnodup, List.mem_map]
    constructor
    · exact fun hmem => ⟨_, hmem, rfl⟩
    · rintro ⟨⟨table', m'⟩, hmem, heq⟩
      obtain ⟨rfl, rfl⟩ := Prod.mk.inj heq
      exact hmem
  · intro table column v
    have hnodup : ((cookies.backfilling.map fun c => ((c.table, c.column), c.backfill)).map (·.1)).Nodup := by
      have h := (KeyedTable.rows_ofRows? hbt).1
      rw [List.map_map]
      exact List.pairwise_map.mpr
        ((List.pairwise_map.mp h).imp fun hne heq => hne (backfillKey_inj.mpr (Prod.mk.inj heq)))
    rw [KeyedTable.mem_ofRows? hbt, ← OrderedMap.mem_entries_iff]
    change _ ↔ _ ∈ (OrderedMap.ofList _).entries
    rw [OrderedMap.entries_ofList hnodup, List.mem_map]
    constructor
    · exact fun hmem => ⟨_, hmem, rfl⟩
    · rintro ⟨⟨table', column', v'⟩, hmem, heq⟩
      obtain ⟨hkey, rfl⟩ := Prod.mk.inj heq
      obtain ⟨rfl, rfl⟩ := Prod.mk.inj hkey
      exact hmem

theorem renamed_metadata {old new : Identifier} {mt : MetadataTable J} (h : t.Holds c)
    (hmt : t.tableMetadata.update? (fun c => c.table = old) (fun c => { c with table := new }) = some mt)
    (table : Identifier) (m : TableMetadata J) :
    ⟨table, m⟩ ∈ mt.rows ↔ (c.apply (.renameTable old new)).metadata.get? table = some m := by
  rw [metadata_rename, KeyedTable.mem_update? hmt]
  refine Iff.trans ?_ (moved_iff c.metadata.get? old new ?_ table m)
  · constructor
    · rintro ⟨⟨table', m'⟩, hr, heq⟩
      by_cases ht : table' = old
      · simp only [ht, decide_true, if_true, TableMetadataCookie.mk.injEq] at heq
        exact ⟨table', (h.metadata _ _).mp (heq.2 ▸ hr), by rw [if_pos ht]; exact heq.1⟩
      · simp only [ht, decide_false, Bool.false_eq_true, if_false, TableMetadataCookie.mk.injEq] at heq
        exact ⟨table', (h.metadata _ _).mp (heq.2 ▸ hr), by rw [if_neg ht]; exact heq.1⟩
    · rintro ⟨table', hk, rfl⟩
      refine ⟨_, (h.metadata _ _).mpr hk, ?_⟩
      by_cases ht : table' = old <;> simp [ht]
  · intro hold hnew
    obtain ⟨v, hv⟩ := Option.isSome_iff_exists.mp hold
    obtain ⟨v', hv'⟩ := Option.isSome_iff_exists.mp hnew
    have heq := KeyedTable.update?_inj hmt ((h.metadata _ _).mpr hv') ((h.metadata _ _).mpr hv) (metadataKey_inj.mpr (by
      by_cases ht : new = old <;> simp [ht]))
    exact congrArg TableMetadataCookie.table heq

theorem renamed_backfilling {old new : Identifier} {bt : BackfillingTable J} (h : t.Holds c)
    (hbt : t.backfilling.update? (fun c => c.table = old) (fun c => { c with table := new }) = some bt)
    (table : Identifier) (column : String) (v : J) :
    ⟨table, column, v⟩ ∈ bt.rows ↔ (c.apply (.renameTable old new)).backfilling.get? (table, column) = some v := by
  rw [backfilling_rename, KeyedTable.mem_update? hbt]
  refine Iff.trans ?_ (moved_iff (fun table => c.backfilling.get? (table, column)) old new ?_ table v)
  · constructor
    · rintro ⟨⟨table', column', v'⟩, hr, heq⟩
      by_cases ht : table' = old
      · simp only [ht, decide_true, if_true, BackfillCookie.mk.injEq] at heq
        obtain ⟨hnew, rfl, rfl⟩ := heq
        exact ⟨table', (h.backfilling _ _ _).mp hr, by rw [if_pos ht]; exact hnew⟩
      · simp only [ht, decide_false, Bool.false_eq_true, if_false, BackfillCookie.mk.injEq] at heq
        obtain ⟨hnew, rfl, rfl⟩ := heq
        exact ⟨table', (h.backfilling _ _ _).mp hr, by rw [if_neg ht]; exact hnew⟩
    · rintro ⟨table', hk, rfl⟩
      refine ⟨_, (h.backfilling _ _ _).mpr hk, ?_⟩
      by_cases ht : table' = old <;> simp [ht]
  · intro hold hnew
    obtain ⟨v, hv⟩ := Option.isSome_iff_exists.mp hold
    obtain ⟨v', hv'⟩ := Option.isSome_iff_exists.mp hnew
    have heq := KeyedTable.update?_inj hbt ((h.backfilling _ _ _).mpr hv') ((h.backfilling _ _ _).mpr hv)
      (backfillKey_inj.mpr (by by_cases ht : new = old <;> simp [ht]))
    exact congrArg BackfillCookie.table heq

theorem renamed_column {table : Identifier} {old new : String} {bt : BackfillingTable J} (h : t.Holds c)
    (hbt : t.backfilling.update? (fun c => c.table = table ∧ c.column = old) (fun c => { c with column := new }) = some bt)
    (table' : Identifier) (column : String) (v : J) :
    ⟨table', column, v⟩ ∈ bt.rows ↔
      (c.apply (.renameColumn table old new)).backfilling.get? (table', column) = some v := by
  rw [backfilling_renameColumn, KeyedTable.mem_update? hbt]
  refine Iff.trans ?_ (moved_iff c.backfilling.get? (table, old) (table, new) ?_ (table', column) v)
  · constructor
    · rintro ⟨⟨table₀, column₀, v₀⟩, hr, heq⟩
      by_cases ht : table₀ = table ∧ column₀ = old
      · simp only [ht, and_self, decide_true, if_true, BackfillCookie.mk.injEq] at heq
        obtain ⟨rfl, rfl, rfl⟩ := heq
        obtain ⟨rfl, rfl⟩ := ht
        exact ⟨(table₀, column₀), (h.backfilling _ _ _).mp hr, by simp⟩
      · simp only [ht, decide_false, Bool.false_eq_true, if_false, BackfillCookie.mk.injEq] at heq
        obtain ⟨rfl, rfl, rfl⟩ := heq
        exact ⟨(table₀, column₀), (h.backfilling _ _ _).mp hr, if_neg fun heq => ht (Prod.mk.inj heq)⟩
    · rintro ⟨⟨table₀, column₀⟩, hk, heq⟩
      refine ⟨_, (h.backfilling _ _ _).mpr hk, ?_⟩
      by_cases ht : table₀ = table ∧ column₀ = old
      · obtain ⟨rfl, rfl⟩ := ht
        rw [if_pos rfl] at heq
        obtain ⟨rfl, rfl⟩ := Prod.mk.inj heq
        simp
      · rw [if_neg fun heq => ht (Prod.mk.inj heq)] at heq
        obtain ⟨rfl, rfl⟩ := Prod.mk.inj heq
        simp [ht]
  · intro hold hnew
    obtain ⟨v, hv⟩ := Option.isSome_iff_exists.mp hold
    obtain ⟨v', hv'⟩ := Option.isSome_iff_exists.mp hnew
    have heq := KeyedTable.update?_inj hbt ((h.backfilling _ _ _).mpr hv') ((h.backfilling _ _ _).mpr hv)
      (backfillKey_inj.mpr (by by_cases ht : new = old <;> simp [ht]))
    exact congrArg (Prod.mk table) (congrArg BackfillCookie.column heq)

theorem run {op : CookieOp J} (h : t.Holds c) (hrun : t.run op = some t') : t'.Holds (c.apply op) := by
  cases op with
  | upsertMetadata table metadata =>
    obtain rfl := Option.some.inj hrun
    refine ⟨fun table' m => ?_, h.backfilling⟩
    change _ ∈ (t.tableMetadata.upsert ⟨table, metadata⟩).rows ↔ (c.metadata.set table metadata).get? table' = some m
    rw [KeyedTable.mem_upsert, OrderedMap.get?_set, h.metadata, Ne, metadataKey_inj]
    by_cases ht : table = table'
    · subst ht
      simp [eq_comm]
    · simp [ht, Ne.symm ht]
  | upsertBackfill table column backfill =>
    obtain rfl := Option.some.inj hrun
    refine ⟨h.metadata, fun table' column' v => ?_⟩
    change _ ∈ (t.backfilling.upsert ⟨table, column, backfill⟩).rows ↔
      (c.backfilling.set (table, column) backfill).get? (table', column') = some v
    rw [KeyedTable.mem_upsert, OrderedMap.get?_set, h.backfilling, Ne, backfillKey_inj]
    by_cases ht : table = table' ∧ column = column'
    · obtain ⟨rfl, rfl⟩ := ht
      simp [eq_comm]
    · have ht' : ¬ (table, column) = (table', column') := fun heq => ht (Prod.mk.inj heq)
      have hne : ¬ (table' = table ∧ column' = column) := fun heq => ht ⟨heq.1.symm, heq.2.symm⟩
      simp only [ht', if_false, hne, not_false_iff, and_true, BackfillCookie.mk.injEq]
      exact ⟨fun hor => hor.resolve_left fun heq => hne ⟨heq.1, heq.2.1⟩, .inr⟩
  | renameTable old new =>
    obtain ⟨mt, hmt, hrun⟩ := Option.bind_eq_some_iff.mp hrun
    obtain ⟨bt, hbt, hrun⟩ := Option.bind_eq_some_iff.mp hrun
    obtain rfl := Option.some.inj hrun
    exact ⟨fun table m => (renamed_metadata h hmt table m), fun table column v => renamed_backfilling h hbt table column v⟩
  | dropTable table =>
    obtain rfl := Option.some.inj hrun
    constructor
    · intro table' m
      change _ ∈ (t.tableMetadata.deleteWhere _).rows ↔ (c.metadata.erase table).get? table' = some m
      rw [KeyedTable.mem_deleteWhere, OrderedMap.get?_erase, h.metadata]
      by_cases ht : table' = table
      · simp [ht]
      · simp [ht, Ne.symm ht]
    · intro table' column v
      change _ ∈ (t.backfilling.deleteWhere _).rows ↔ _
      rw [KeyedTable.mem_deleteWhere, Cookies.get?_dropTable, h.backfilling]
      by_cases ht : table' = table <;> simp [ht]
  | renameColumn table old new =>
    obtain ⟨bt, hbt, hrun⟩ := Option.bind_eq_some_iff.mp hrun
    obtain rfl := Option.some.inj hrun
    refine ⟨fun table' m => ?_, fun table' column v => renamed_column h hbt table' column v⟩
    rw [metadata_renameColumn]
    exact h.metadata table' m
  | dropColumn table column =>
    obtain rfl := Option.some.inj hrun
    refine ⟨h.metadata, fun table' column' v => ?_⟩
    change _ ∈ (t.backfilling.deleteWhere _).rows ↔ (c.dropColumn table column).backfilling.get? _ = _
    rw [KeyedTable.mem_deleteWhere, Cookies.get?_dropColumn, h.backfilling]
    by_cases ht : table' = table ∧ column' = column <;> simp [ht]
  | completeBackfill table columns =>
    obtain rfl := Option.some.inj hrun
    refine ⟨fun table' m => ?_, fun table' column v => ?_⟩
    · rw [Cookies.metadata_completeBackfill]
      exact h.metadata table' m
    · have hfold : ∀ (columns : List String) (b : BackfillingTable J) (r : BackfillCookie J),
          r ∈ (columns.foldl (fun b column => b.deleteWhere fun c => c.table = table ∧ c.column = column) b).rows ↔
            r ∈ b.rows ∧ ¬ (r.table = table ∧ r.column ∈ columns) := by
        intro columns
        induction columns with
        | nil => simp
        | cons col columns ih =>
          intro b r
          rw [List.foldl_cons, ih, KeyedTable.mem_deleteWhere]
          simp only [decide_eq_false_iff_not, List.mem_cons]
          tauto
      change _ ∈ (columns.foldl _ t.backfilling).rows ↔ _
      rw [hfold, Cookies.get?_completeBackfill, h.backfilling]
      by_cases ht : table' = table ∧ column ∈ columns <;> simp [ht]

/-- `ChangeLogCookieWriter.apply` -/
theorem apply {change : Backfills.DataChange J} (h : t.Holds c) (hrun : t.apply change = some t') :
    t'.Holds (c.change change) := by
  unfold CookieTables.apply at hrun
  unfold Cookies.change
  generalize cookieOps change = ops at hrun ⊢
  induction ops generalizing t c with
  | nil =>
    obtain rfl := Option.some.inj hrun
    exact h
  | cons op ops ih =>
    rw [List.foldlM_cons] at hrun
    obtain ⟨t₁, h₁, hrun⟩ := Option.bind_eq_some_iff.mp hrun
    exact ih (h.run h₁) hrun

end CookieTables.Holds

end ZeroSync.ChangeLogDB
