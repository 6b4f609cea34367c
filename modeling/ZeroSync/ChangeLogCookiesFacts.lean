/-
What the fold of the cookies and the requests made of them hold, by name: a
cookie after each operation, and the request of a table.

`backfillRequestsFrom` starts a request where the table changes from one cookie
to the next: as the cookies are sorted by table first, it makes one for each
table (`mem_backfillRequestsFrom`).
-/
import ZeroSync.ChangeLogCookies

namespace ZeroSync.Backfills

/-! ## The order of cookies -/

theorem cmp_isLE {a b : String} : (cmp a b).isLE = true ↔ ¬ codeUnits b < codeUnits a := by
  unfold cmp stringLt
  by_cases h : codeUnits a < codeUnits b
  · simp [h, List.lt_asymm h]
  · by_cases h' : codeUnits b < codeUnits a <;> simp [h, h']

instance : Std.TransCmp cmp where
  eq_swap {a b} := by
    unfold cmp stringLt
    by_cases h : codeUnits a < codeUnits b
    · simp [h, List.lt_asymm h]
    · by_cases h' : codeUnits b < codeUnits a <;> simp [h, h']
  isLE_trans {a b c} hab hbc := by
    rw [cmp_isLE] at *
    exact List.le_trans hab hbc

theorem eq_of_cmp {a b : String} (h : cmp a b = .eq) : a = b := by
  refine codeUnits_injective (List.le_antisymm ?_ ?_)
  · exact cmp_isLE.mp (by rw [h]; rfl)
  · have hswap : cmp b a = (cmp a b).swap := Std.OrientedCmp.eq_swap
    exact cmp_isLE.mp (by rw [hswap, h]; rfl)

theorem transCmp_on {α β : Type} (order : β → β → Ordering) [Std.TransCmp order] (f : α → β) :
    Std.TransCmp fun a b => order (f a) (f b) where
  eq_swap := by
    intro a b
    exact Std.OrientedCmp.eq_swap
  isLE_trans := by
    intro a b c hab hbc
    exact Std.TransCmp.isLE_trans hab hbc

theorem cmpTable_eq : cmpTable = compareLex (fun a b => cmp a.schema b.schema) fun a b => cmp a.name b.name := rfl

instance : Std.TransCmp cmpTable := by
  have := transCmp_on cmp Identifier.schema
  have := transCmp_on cmp Identifier.name
  rw [cmpTable_eq]
  infer_instance

theorem eq_of_cmpTable {a b : Identifier} (h : cmpTable a b = .eq) : a = b := by
  obtain ⟨hschema, hname⟩ := Ordering.then_eq_eq.mp h
  cases a
  cases b
  rw [Identifier.mk.injEq]
  exact ⟨eq_of_cmp hschema, eq_of_cmp hname⟩

theorem cmpTable_of_cmpColumn {a b : Identifier × String} (h : (cmpColumn a b).isLE = true) :
    (cmpTable a.1 b.1).isLE = true := by
  unfold cmpColumn at h
  cases hcmp : cmpTable a.1 b.1 <;> simp_all [Ordering.then]

theorem table_between {a b c : Identifier × String} (hab : (cmpColumn a b).isLE = true) (hbc : (cmpColumn b c).isLE = true)
    (h : a.1 = c.1) : b.1 = c.1 := by
  have hle := cmpTable_of_cmpColumn hbc
  have hge := cmpTable_of_cmpColumn hab
  have hswap : cmpTable a.1 b.1 = (cmpTable b.1 a.1).swap := Std.OrientedCmp.eq_swap
  rw [hswap, h] at hge
  refine eq_of_cmpTable ?_
  cases hcmp : cmpTable b.1 c.1 <;> simp_all

theorem eq_of_cmpColumn {a b : Identifier × String} (h : cmpColumn a b = .eq) : a = b := by
  obtain ⟨htable, hcolumn⟩ := Ordering.then_eq_eq.mp h
  exact Prod.ext (eq_of_cmpTable htable) (eq_of_cmp hcolumn)

theorem cmpColumn_eq : cmpColumn = compareLex (fun a b => cmpTable a.1 b.1) fun a b => cmp a.2 b.2 := rfl

instance : Std.TransCmp cmpColumn := by
  have := transCmp_on cmpTable (Prod.fst : Identifier × String → Identifier)
  have := transCmp_on cmp (Prod.snd : Identifier × String → String)
  rw [cmpColumn_eq]
  infer_instance

/-! ## The operations -/

variable {J : Type}

theorem get?_moveColumns (old new : Identifier) (column : String) (t : Identifier) :
    ∀ (entries : List ((Identifier × String) × J)) (m : OrderedMap (Identifier × String) J), (entries.map (·.1)).Nodup →
      (Cookies.moveColumns old new entries m).get? (t, column) =
        match OrderedMap.lookup (old, column) entries with
        | some v => if t = new then some v else if t = old then none else m.get? (t, column)
        | none => m.get? (t, column)
  | [], _, _ => rfl
  | ((t', c'), v) :: entries, m, hnodup => by
    obtain ⟨hnot, hnodup⟩ := List.nodup_cons.mp hnodup
    have ih (m) := get?_moveColumns old new column t entries m hnodup
    rw [Cookies.moveColumns, List.foldl_cons, ← Cookies.moveColumns, ih, OrderedMap.lookup]
    by_cases ht : t' = old
    · subst ht
      rw [if_pos rfl]
      by_cases hc : c' = column
      · subst hc
        rw [if_pos rfl, OrderedMap.lookup_of_notMem hnot]
        simp only [OrderedMap.get?_set, OrderedMap.get?_erase, Prod.mk.injEq, and_true]
        by_cases hnew : t = new
        · simp [hnew]
        · by_cases hold : t = t' <;> simp [hold, hnew, Ne.symm hnew, eq_comm]
      · have hcol : ¬ (t', c') = (t', column) := fun h => hc (Prod.mk.inj h).2
        rw [if_neg hcol]
        simp only [OrderedMap.get?_set, OrderedMap.get?_erase, Prod.mk.injEq, hc, and_false, if_false]
    · have hcol : ¬ (t', c') = (old, column) := fun h => ht (Prod.mk.inj h).1
      rw [if_neg ht, if_neg hcol]

theorem get?_dropColumns (table t : Identifier) (column : String) :
    ∀ (entries : List ((Identifier × String) × J)) (m : OrderedMap (Identifier × String) J),
      (Cookies.dropColumns table entries m).get? (t, column) =
        if t = table ∧ (OrderedMap.lookup (t, column) entries).isSome then none else m.get? (t, column)
  | [], _ => by simp [Cookies.dropColumns, OrderedMap.lookup]
  | ((t', c'), v) :: entries, m => by
    have ih (m) := get?_dropColumns table t column entries m
    rw [Cookies.dropColumns, List.foldl_cons, ← Cookies.dropColumns, ih, OrderedMap.lookup]
    by_cases ht : t' = table
    · subst ht
      rw [if_pos rfl, OrderedMap.get?_erase]
      by_cases hkey : (t', c') = (t, column)
      · obtain ⟨rfl, rfl⟩ := Prod.mk.inj hkey
        simp
      · simp [hkey]
    · rw [if_neg ht]
      by_cases hkey : (t', c') = (t, column)
      · obtain ⟨rfl, rfl⟩ := Prod.mk.inj hkey
        simp [ht]
      · simp [hkey]

namespace Cookies

theorem get?_renameTable {s : Cookies J} {old new : Identifier} (hnew : ∀ c, s.backfilling.get? (new, c) = none)
    (t : Identifier) (column : String) :
    (s.apply (.renameTable old new)).backfilling.get? (t, column) =
      if t = new then s.backfilling.get? (old, column)
      else if t = old then none else s.backfilling.get? (t, column) := by
  show (moveColumns old new s.backfilling.entries s.backfilling).get? (t, column) = _
  rw [get?_moveColumns old new column t _ _ s.backfilling.nodup]
  show (match s.backfilling.get? (old, column) with | some v => _ | none => _) = _
  cases hold : s.backfilling.get? (old, column) with
  | some v => rfl
  | none =>
    by_cases ht : t = new
    · rw [if_pos ht, ht, hnew]
    · by_cases ht' : t = old
      · rw [if_neg ht, if_pos ht', ht', hold]
      · rw [if_neg ht, if_neg ht']

theorem metadata_renameTable {s : Cookies J} {old new : Identifier} (hnew : s.metadata.get? new = none)
    (t : Identifier) :
    (s.apply (.renameTable old new)).metadata.get? t =
      if t = new then s.metadata.get? old else if t = old then none else s.metadata.get? t := by
  simp only [apply]
  cases hold : s.metadata.get? old with
  | some v =>
    rw [OrderedMap.get?_set, OrderedMap.get?_erase]
    simp only [eq_comm]
  | none =>
    by_cases ht : t = new
    · rw [if_pos ht, ht, hnew]
    · by_cases ht' : t = old
      · rw [if_neg ht, if_pos ht', ht', hold]
      · rw [if_neg ht, if_neg ht']

theorem get?_dropTable (s : Cookies J) (table t : Identifier) (column : String) :
    (s.apply (.dropTable table)).backfilling.get? (t, column) = if t = table then none else s.backfilling.get? (t, column) := by
  show (Cookies.dropColumns table s.backfilling.entries s.backfilling).get? (t, column) = _
  rw [get?_dropColumns]
  show (if t = table ∧ (s.backfilling.get? (t, column)).isSome then _ else _) = _
  by_cases ht : t = table
  · cases h : s.backfilling.get? (t, column) <;> simp [ht]
  · simp [ht]

theorem get?_dropColumn (s : Cookies J) (table t : Identifier) (c column : String) :
    (s.dropColumn table c).backfilling.get? (t, column) =
      if t = table ∧ column = c then none else s.backfilling.get? (t, column) := by
  rw [dropColumn, OrderedMap.get?_erase]
  simp only [Prod.mk.injEq, eq_comm]

theorem get?_completeBackfill (table t : Identifier) (column : String) : ∀ (columns : List String) (s : Cookies J),
    (s.apply (.completeBackfill table columns)).backfilling.get? (t, column) =
      if t = table ∧ column ∈ columns then none else s.backfilling.get? (t, column)
  | [], s => by simp [apply]
  | c :: columns, s => by
    have ih := get?_completeBackfill table t column columns (s.dropColumn table c)
    rw [apply] at ih ⊢
    rw [List.foldl_cons, ih, get?_dropColumn]
    by_cases ht : t = table <;> by_cases hc : column = c <;> by_cases hcs : column ∈ columns <;> simp [ht, hc, hcs]

theorem metadata_completeBackfill (table : Identifier) : ∀ (columns : List String) (s : Cookies J),
    (s.apply (.completeBackfill table columns)).metadata = s.metadata
  | [], _ => rfl
  | c :: columns, s => by
    have ih := metadata_completeBackfill table columns (s.dropColumn table c)
    rw [apply] at ih ⊢
    exact ih

theorem get?_renameColumn (s : Cookies J) (table : Identifier) (old new : String) (t : Identifier) (column : String) :
    (s.apply (.renameColumn table old new)).backfilling.get? (t, column) =
      match s.backfilling.get? (table, old) with
      | some moved =>
        if t = table ∧ column = new then some moved
        else if t = table ∧ column = old then none else s.backfilling.get? (t, column)
      | none => s.backfilling.get? (t, column) := by
  rw [apply]
  cases h : s.backfilling.get? (table, old) with
  | none => rfl
  | some moved =>
    rw [OrderedMap.get?_set, OrderedMap.get?_erase]
    simp only [Prod.mk.injEq, eq_comm]

theorem get?_upsertBackfills (table t : Identifier) (column : String) : ∀ (l : List (String × J)) (s : Cookies J),
    (l.map (·.1)).Nodup →
      ((l.map fun e => CookieOp.upsertBackfill table e.1 e.2).foldl apply s).backfilling.get? (t, column) =
        if t = table then (OrderedMap.lookup column l).or (s.backfilling.get? (t, column)) else s.backfilling.get? (t, column)
  | [], s, _ => by simp [OrderedMap.lookup]
  | (c, v) :: l, s, hnodup => by
    obtain ⟨hnot, hnodup⟩ := List.nodup_cons.mp hnodup
    rw [List.map_cons, List.foldl_cons, get?_upsertBackfills table t column l _ hnodup, apply, OrderedMap.get?_set,
      OrderedMap.lookup]
    by_cases ht : t = table
    · subst ht
      by_cases hc : c = column
      · subst hc
        simp [OrderedMap.lookup_of_notMem hnot]
      · simp [hc]
    · simp [ht, Ne.symm ht]

theorem metadata_upsertBackfills (table : Identifier) : ∀ (l : List (String × J)) (s : Cookies J),
    ((l.map fun e => CookieOp.upsertBackfill table e.1 e.2).foldl apply s).metadata = s.metadata
  | [], _ => rfl
  | e :: l, s => metadata_upsertBackfills table l (s.apply (.upsertBackfill table e.1 e.2))

end Cookies

/-! ## The requests -/

theorem Columns.get?_assign (columns : Columns J) (column : String) (backfill : J) (col : String) :
    (columns.assign column backfill).get? col =
      if col = column ∧ col ≠ "__proto__" then some (.id backfill) else columns.get? col := by
  unfold Columns.assign
  by_cases hproto : column = "__proto__"
  · rw [if_pos hproto, if_neg]
    rintro ⟨rfl, h⟩
    exact h hproto
  · rw [if_neg hproto, OrderedMap.get?_set]
    by_cases hcol : col = column
    · subst hcol
      simp [hproto]
    · simp [hcol, Ne.symm hcol]

/-- The requests made of the cookies so far, the last one first. -/
structure Grouped (metadata : OrderedMap Identifier (TableMetadata J)) (cookies : List (BackfillCookie J))
    (requests : List (BackfillRequest J)) : Prop where
  nodup : (requests.map (·.table)).Nodup
  last : requests.head?.map (·.table) = cookies.getLast?.map (·.table)
  tables : ∀ t, t ∈ requests.map (·.table) ↔ t ∈ cookies.map (·.table)
  metadata : ∀ r ∈ requests, r.metadata = metadata.get? r.table
  columns : ∀ r ∈ requests, ∀ col v, r.columns.get? col = some v ↔
    col ≠ "__proto__" ∧ ∃ c ∈ cookies, c.table = r.table ∧ c.column = col ∧ v = .id c.backfill

theorem Grouped.add {metadata : OrderedMap Identifier (TableMetadata J)} {cookies : List (BackfillCookie J)}
    {requests : List (BackfillRequest J)} (h : Grouped metadata cookies requests) {c : BackfillCookie J}
    (hnew : ∀ d ∈ cookies, (d.table, d.column) ≠ (c.table, c.column))
    (hlast : c.table ∈ cookies.map (·.table) → cookies.getLast?.map (·.table) = some c.table) :
    Grouped metadata (cookies ++ [c]) (addCookie metadata requests c) := by
  have hcolumns (columns : Columns J) (t : Identifier) (ht : t = c.table)
      (hold : ∀ col v, columns.get? col = some v ↔
        col ≠ "__proto__" ∧ ∃ d ∈ cookies, d.table = t ∧ d.column = col ∧ v = .id d.backfill) (col : String) (v : ColumnID J) :
      (columns.assign c.column c.backfill).get? col = some v ↔
        col ≠ "__proto__" ∧ ∃ d ∈ cookies ++ [c], d.table = t ∧ d.column = col ∧ v = .id d.backfill := by
    rw [Columns.get?_assign]
    by_cases hcol : col = c.column ∧ col ≠ "__proto__"
    · rw [if_pos hcol]
      obtain ⟨hcol, hproto⟩ := hcol
      constructor
      · intro hv
        exact ⟨hproto, c, by simp, ht.symm, hcol.symm, (Option.some.inj hv).symm⟩
      · rintro ⟨-, d, hd, hdt, hdc, rfl⟩
        rcases List.mem_append.mp hd with hd | hd
        · exact absurd (by rw [hdt, hdc, ht, hcol]) (hnew d hd)
        · rw [List.mem_singleton.mp hd]
    · rw [if_neg hcol, hold]
      refine and_congr_right fun hproto => ?_
      constructor
      · rintro ⟨d, hd, hrest⟩
        exact ⟨d, List.mem_append_left _ hd, hrest⟩
      · rintro ⟨d, hd, hdt, hdc, hv⟩
        rcases List.mem_append.mp hd with hd | hd
        · exact ⟨d, hd, hdt, hdc, hv⟩
        · obtain rfl := List.mem_singleton.mp hd
          exact absurd ⟨hdc.symm, hproto⟩ hcol
  have hother (r : BackfillRequest J) (hr : r ∈ requests) (hne : r.table ≠ c.table) (col : String) (v : ColumnID J) :
      r.columns.get? col = some v ↔
        col ≠ "__proto__" ∧ ∃ d ∈ cookies ++ [c], d.table = r.table ∧ d.column = col ∧ v = .id d.backfill := by
    rw [h.columns r hr]
    refine and_congr_right fun _ => ?_
    constructor
    · rintro ⟨d, hd, hrest⟩
      exact ⟨d, List.mem_append_left _ hd, hrest⟩
    · rintro ⟨d, hd, hdt, hrest⟩
      rcases List.mem_append.mp hd with hd | hd
      · exact ⟨d, hd, hdt, hrest⟩
      · obtain rfl := List.mem_singleton.mp hd
        exact absurd hdt.symm hne
  -- a request that is started
  have hpush (hfresh : c.table ∉ requests.map (·.table)) : Grouped metadata (cookies ++ [c])
      ({ table := c.table, metadata := metadata.get? c.table, columns := Columns.assign ∅ c.column c.backfill } :: requests) := by
    have hfirst := hcolumns ∅ c.table rfl fun col v => by
      simp only [OrderedMap.get?_empty, reduceCtorEq, false_iff, not_and, not_exists]
      intro _ d hd hdt
      exact absurd ((h.tables _).mpr (List.mem_map.mpr ⟨d, hd, hdt⟩)) hfresh
    refine ⟨List.nodup_cons.mpr ⟨hfresh, h.nodup⟩, by simp, fun t => ?_, fun r hr => ?_, fun r hr => ?_⟩
    · simp only [List.map_cons, List.mem_cons, h.tables, List.map_append, List.map_nil, List.mem_append, List.not_mem_nil, or_false]
      exact or_comm
    · rcases List.mem_cons.mp hr with rfl | hr
      · rfl
      · exact h.metadata r hr
    · rcases List.mem_cons.mp hr with rfl | hr
      · exact hfirst
      · exact hother r hr fun ht => hfresh (List.mem_map.mpr ⟨r, hr, ht⟩)
  unfold addCookie
  cases requests with
  | nil => exact hpush (by simp)
  | cons curr rest =>
    dsimp only
    split
    · next heq =>
      obtain ⟨hcurr, -⟩ := List.nodup_cons.mp h.nodup
      refine ⟨h.nodup, by simp [heq], fun t => ?_, fun r hr => ?_, fun r hr => ?_⟩
      · have htables := h.tables t
        simp only [List.map_cons, List.mem_cons, List.map_append, List.map_nil, List.mem_append, List.not_mem_nil,
          or_false] at htables ⊢
        rw [← htables, heq]
        tauto
      · rcases List.mem_cons.mp hr with rfl | hr
        · exact h.metadata curr (List.mem_cons_self ..)
        · exact h.metadata r (List.mem_cons_of_mem _ hr)
      · rcases List.mem_cons.mp hr with rfl | hr
        · exact hcolumns curr.columns curr.table heq (h.columns curr (List.mem_cons_self ..))
        · refine hother r (List.mem_cons_of_mem _ hr) fun ht => hcurr (List.mem_map.mpr ⟨r, hr, ?_⟩)
          exact ht.trans heq.symm
    · next hne =>
      refine hpush fun hmem => hne ?_
      have hlast := h.last.trans (hlast ((h.tables _).mp hmem))
      simpa using hlast

theorem grouped_foldl {metadata : OrderedMap Identifier (TableMetadata J)} {cookies : List (BackfillCookie J)}
    (hsorted : cookies.Pairwise fun a b => (cmpColumn (a.table, a.column) (b.table, b.column)).isLE = true)
    (hdistinct : (cookies.map fun c => (c.table, c.column)).Nodup) :
    Grouped metadata cookies (cookies.foldl (addCookie metadata) []) := by
  induction cookies using List.reverseRecOn with
  | nil => exact ⟨List.nodup_nil, rfl, by simp, by simp, by simp⟩
  | append_singleton cookies c ih =>
    obtain ⟨hsorted, -, hle⟩ := List.pairwise_append.mp hsorted
    rw [List.map_append, List.nodup_append] at hdistinct
    rw [List.foldl_append, List.foldl_cons, List.foldl_nil]
    refine (ih hsorted hdistinct.1).add (fun d hd heq => ?_) fun hmem => ?_
    · exact hdistinct.2.2 _ (List.mem_map_of_mem hd) _ (List.mem_map_of_mem (List.mem_singleton.mpr rfl)) heq
    · obtain ⟨d, hd, hdt⟩ := List.mem_map.mp hmem
      obtain ⟨init, l, rfl⟩ := (List.eq_nil_or_concat cookies).resolve_left (List.ne_nil_of_mem hd)
      rw [List.concat_eq_append] at hd hle hsorted ⊢
      rw [List.getLast?_concat, Option.map_some]
      have hlc := hle l (by simp) c (List.mem_singleton.mpr rfl)
      rcases List.mem_append.mp hd with hd | hd
      · have hdl := (List.pairwise_append.mp hsorted).2.2 d hd l (List.mem_singleton.mpr rfl)
        exact congrArg some (table_between hdl hlc hdt)
      · rw [← hdt, List.mem_singleton.mp hd]

theorem mem_sorted_backfilling {s : Cookies J} {c : BackfillCookie J} :
    c ∈ s.sorted.backfilling ↔ s.backfilling.get? (c.table, c.column) = some c.backfill := by
  rw [Cookies.sorted, List.mem_map]
  simp only [List.mem_mergeSort]
  constructor
  · rintro ⟨⟨⟨t, col⟩, v⟩, he, rfl⟩
    exact (OrderedMap.mem_entries_iff ..).mp he
  · intro h
    exact ⟨((c.table, c.column), c.backfill), (OrderedMap.mem_entries_iff ..).mpr h, rfl⟩

theorem mem_sorted_tableMetadata {s : Cookies J} {c : TableMetadataCookie J} :
    c ∈ s.sorted.tableMetadata ↔ s.metadata.get? c.table = some c.metadata := by
  rw [Cookies.sorted, List.mem_map]
  simp only [List.mem_mergeSort]
  constructor
  · rintro ⟨⟨t, m⟩, he, rfl⟩
    exact (OrderedMap.mem_entries_iff ..).mp he
  · intro h
    exact ⟨(c.table, c.metadata), (OrderedMap.mem_entries_iff ..).mpr h, rfl⟩

theorem pairwise_mergeSort {α κ : Type} (order : κ → κ → Ordering) [Std.TransCmp order] (key : α → κ) (l : List α) :
    (l.mergeSort fun a b => (order (key a) (key b)).isLE).Pairwise fun a b => (order (key a) (key b)).isLE = true := by
  have htrans (a b c : κ) (hab : (order a b).isLE = true) (hbc : (order b c).isLE = true) : (order a c).isLE = true :=
    Std.TransCmp.isLE_trans hab hbc
  refine List.pairwise_mergeSort (fun a b c => htrans (key a) (key b) (key c)) (fun a b => ?_) l
  have hswap : order (key b) (key a) = (order (key a) (key b)).swap := Std.OrientedCmp.eq_swap
  rw [hswap]
  cases order (key a) (key b) <;> rfl

theorem pairwise_sorted_tableMetadata (s : Cookies J) :
    s.sorted.tableMetadata.Pairwise fun a b => (cmpTable a.table b.table).isLE = true := by
  rw [Cookies.sorted, List.pairwise_map]
  exact pairwise_mergeSort cmpTable Prod.fst _

theorem pairwise_sorted_backfilling (s : Cookies J) :
    s.sorted.backfilling.Pairwise fun a b => (cmpColumn (a.table, a.column) (b.table, b.column)).isLE = true := by
  rw [Cookies.sorted, List.pairwise_map]
  exact pairwise_mergeSort cmpColumn Prod.fst _

theorem nodup_sorted_tableMetadata (s : Cookies J) : (s.sorted.tableMetadata.map (·.table)).Nodup := by
  rw [Cookies.sorted, List.map_map]
  exact ((List.mergeSort_perm ..).map _).nodup_iff.mpr s.metadata.nodup

theorem nodup_sorted_backfilling (s : Cookies J) : (s.sorted.backfilling.map fun c => (c.table, c.column)).Nodup := by
  rw [Cookies.sorted, List.map_map]
  exact ((List.mergeSort_perm ..).map _).nodup_iff.mpr s.backfilling.nodup

theorem get?_sorted_metadata (s : Cookies J) (t : Identifier) :
    (OrderedMap.ofList (s.sorted.tableMetadata.map fun c => (c.table, c.metadata))).get? t = s.metadata.get? t := by
  have hlist : (s.sorted.tableMetadata.map fun c => (c.table, c.metadata)) =
      s.metadata.entries.mergeSort fun a b => (cmpTable a.1 b.1).isLE := by
    rw [Cookies.sorted, List.map_map]
    exact List.map_id _
  have hnodup : ((s.metadata.entries.mergeSort fun a b => (cmpTable a.1 b.1).isLE).map (·.1)).Nodup :=
    ((List.mergeSort_perm ..).map _).nodup_iff.mpr s.metadata.nodup
  refine Option.ext fun v => ?_
  rw [← OrderedMap.mem_entries_iff, ← OrderedMap.mem_entries_iff, hlist, OrderedMap.entries_ofList hnodup, List.mem_mergeSort]

theorem get?_sorted_backfilling (s : Cookies J) (key : Identifier × String) :
    (OrderedMap.ofList (s.sorted.backfilling.map fun c => ((c.table, c.column), c.backfill))).get? key =
      s.backfilling.get? key := by
  have hlist : (s.sorted.backfilling.map fun c => ((c.table, c.column), c.backfill)) =
      s.backfilling.entries.mergeSort fun a b => (cmpColumn a.1 b.1).isLE := by
    rw [Cookies.sorted, List.map_map]
    exact List.map_id _
  have hnodup : ((s.backfilling.entries.mergeSort fun a b => (cmpColumn a.1 b.1).isLE).map (·.1)).Nodup :=
    ((List.mergeSort_perm ..).map _).nodup_iff.mpr s.backfilling.nodup
  refine Option.ext fun v => ?_
  rw [← OrderedMap.mem_entries_iff, ← OrderedMap.mem_entries_iff, hlist, OrderedMap.entries_ofList hnodup, List.mem_mergeSort]

/-- **The requests made of cookies**: one for each table with a cookie, with the
metadata and the columns that are remembered of it. -/
theorem backfillRequestsFrom_spec (s : Cookies J) :
    ((backfillRequestsFrom s.sorted).map (·.table)).Nodup ∧
      (∀ t, t ∈ (backfillRequestsFrom s.sorted).map (·.table) ↔ ∃ col v, s.backfilling.get? (t, col) = some v) ∧
      ∀ r ∈ backfillRequestsFrom s.sorted, r.metadata = s.metadata.get? r.table ∧
        ∀ col, r.columns.get? col = if col = "__proto__" then none else (s.backfilling.get? (r.table, col)).map .id := by
  obtain ⟨hnodup, -, htables, hmetadata, hcolumns⟩ : Grouped _ _ _ := grouped_foldl (pairwise_sorted_backfilling s) (nodup_sorted_backfilling s)
  refine ⟨?_, fun t => ?_, fun r hr => ?_⟩
  · rw [backfillRequestsFrom, List.map_reverse, List.nodup_reverse]
    exact hnodup
  · rw [backfillRequestsFrom, List.map_reverse, List.mem_reverse, htables, List.mem_map]
    constructor
    · rintro ⟨c, hc, rfl⟩
      exact ⟨_, _, mem_sorted_backfilling.mp hc⟩
    · rintro ⟨col, v, hv⟩
      exact ⟨⟨t, col, v⟩, mem_sorted_backfilling.mpr hv, rfl⟩
  · have hr := List.mem_reverse.mp hr
    refine ⟨by rw [hmetadata r hr, get?_sorted_metadata], fun col => Option.ext fun v => ?_⟩
    rw [hcolumns r hr]
    by_cases hproto : col = "__proto__"
    · simp [hproto]
    · rw [if_neg hproto, Option.map_eq_some_iff]
      constructor
      · rintro ⟨-, c, hc, ht, rfl, rfl⟩
        exact ⟨c.backfill, by rw [← ht]; exact mem_sorted_backfilling.mp hc, rfl⟩
      · rintro ⟨id, hid, rfl⟩
        exact ⟨hproto, ⟨r.table, col, id⟩, mem_sorted_backfilling.mpr hid, rfl, rfl, rfl⟩

end ZeroSync.Backfills
