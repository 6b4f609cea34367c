/-
One entry of the change log, read from the snapshots and pushed into a source.

The rows of the earlier snapshot that conflict with the next value are those
that go (`getRows_eq`); all but the one of its primary key are removed, and
that one is edited (`pushChange_set`).
-/
import ZeroSync.Snapshotter
import ZeroSync.TableSourceFacts

namespace ZeroSync

variable {spec : TableSpec} {rows : List Row} {source : TableSource} {c s x : Row} {table : String}

theorem Keeps.nodup (h : Keeps spec rows) : rows.Nodup := by
  refine List.Pairwise.imp_of_mem ?_ h.unique
  intro a b ha hb hab heq
  subst heq
  rw [conflicts_of_primaryKey (h.matches_self ha)] at hab
  cases hab

theorem Keeps.perm_of_sublist {l l' : List Row} (h : Keeps spec rows) (hl : l.Sublist rows) (hl' : l'.Sublist rows)
    (hm : ∀ r, r ∈ l ↔ r ∈ l') : l.Perm l' :=
  (List.perm_ext_iff_of_nodup (h.nodup.sublist hl) (h.nodup.sublist hl')).mpr hm

/-! ## Reading the snapshots -/

/-- **The previous rows** of a next value are those that conflict with it. -/
theorem getRows_eq (spec : TableSpec) (rows : List Row) (row : Row) :
    getRows spec rows row = (rows.filter fun r => conflicts spec r row).map (selectColumns spec.columns) := by
  have hvalid : ∀ r : Row, ((spec.uniqueKeys.filter fun key => key.all fun c => row c ≠ .null && row c ≠ .undefined).any
      fun key => sqlMatches key r row) = conflicts spec r row := by
    intro r
    rw [Bool.eq_iff_iff, List.any_eq_true, conflicts, List.any_eq_true]
    refine exists_congr fun key => ?_
    rw [List.mem_filter, and_assoc]
    refine and_congr_right fun _ => ⟨fun h => h.2, fun h => ⟨?_, h⟩⟩
    -- A key that the rows agree on has no `NULL`.
    rw [List.all_eq_true]
    intro c hc
    obtain ⟨heq, hundefined, hnull⟩ := sqlMatches_iff.mp h c hc
    rw [← heq]
    simp [hundefined, hnull]
  rw [getRows]
  simp only [hvalid]

/-- The row key of a row. -/
def rowKeyOf (columns : List String) (row : Row) : List (String × Value) := columns.map fun c => (c, row c)

theorem rowKeyOf_congr {columns : List String} {a b : Row} (h : ∀ c ∈ columns, a c = b c) :
    rowKeyOf columns a = rowKeyOf columns b :=
  List.map_congr_left fun c hc => by rw [h c hc]

theorem rowKeyOf_eq_iff {columns : List String} {a b : Row} :
    rowKeyOf columns a = rowKeyOf columns b ↔ ∀ c ∈ columns, a c = b c := by
  refine ⟨fun h c hc => ?_, rowKeyOf_congr⟩
  have hpair := List.map_inj_left.mp h c hc
  exact (Prod.mk.inj hpair).2

theorem all_rowKeyOf (columns : List String) (row values : Row) :
    ((rowKeyOf columns values).all fun k => valuesEqual (row k.1) k.2) = sqlMatches columns row values := by
  rw [rowKeyOf, List.all_map]
  rfl

/-- What holds of the rows of a table in a snapshot: every synced column has a
value, and unique indexes, primary key and row key are kept. -/
structure Satisfies (spec : TableSpec) (rowKey : List String) (rows : List Row) : Prop where
  stored : ∀ row ∈ rows, ∀ c ∈ spec.columns, row c ≠ .undefined
  keeps : Keeps spec rows
  rowKey : ∀ row ∈ rows, ∀ c ∈ rowKey, row c ≠ .null ∧ row c ≠ .undefined

theorem conflicts_of_rowKey {rowKey : List String} (hkey : ∃ key ∈ spec.uniqueKeys, ∀ c, c ∈ key ↔ c ∈ rowKey)
    {a b : Row} (hb : ∀ c ∈ rowKey, b c ≠ .null ∧ b c ≠ .undefined) (h : rowKeyOf rowKey a = rowKeyOf rowKey b) :
    conflicts spec a b = true := by
  obtain ⟨key, hmem, hcols⟩ := hkey
  rw [rowKeyOf_eq_iff] at h
  rw [conflicts, List.any_eq_true]
  refine ⟨key, hmem, sqlMatches_iff.mpr fun c hc => ?_⟩
  have hc := (hcols c).mp hc
  rw [h c hc]
  exact ⟨rfl, (hb c hc).2, (hb c hc).1⟩

theorem getRow_of_mem {rowKey : List String} (hkey : ∃ key ∈ spec.uniqueKeys, ∀ c, c ∈ key ↔ c ∈ rowKey)
    (hk : Keeps spec rows) (hx : x ∈ rows) (hnn : ∀ c ∈ rowKey, x c ≠ .null ∧ x c ≠ .undefined) :
    getRow spec rows (rowKeyOf rowKey x) = some (selectColumns spec.columns x) := by
  have hself : ((rowKeyOf rowKey x).all fun k => valuesEqual (x k.1) k.2) = true := by
    rw [all_rowKeyOf]
    exact sqlMatches_iff.mpr fun c hc => ⟨rfl, (hnn c hc).2, (hnn c hc).1⟩
  obtain ⟨y, hy⟩ := Option.isSome_iff_exists.mp
    (List.find?_isSome (p := fun row : Row => (rowKeyOf rowKey x).all fun k => valuesEqual (row k.1) k.2) |>.mpr ⟨x, hx, hself⟩)
  have hmatch := List.find?_some hy
  rw [all_rowKeyOf] at hmatch
  have hsame : rowKeyOf rowKey y = rowKeyOf rowKey x := rowKeyOf_congr fun c hc => (sqlMatches_iff.mp hmatch c hc).1
  obtain rfl := hk.eq_of_conflicts (List.mem_of_find?_eq_some hy) hx (conflicts_of_rowKey hkey hnn hsame)
  rw [getRow, hy]
  rfl

theorem getRow_of_not_mem {rowKey : List String} (hno : ∀ s ∈ rows, rowKeyOf rowKey s ≠ rowKeyOf rowKey x) :
    getRow spec rows (rowKeyOf rowKey x) = none := by
  rw [getRow, Option.map_eq_none_iff, List.find?_eq_none]
  intro s hs hall
  rw [all_rowKeyOf] at hall
  exact hno s hs (rowKeyOf_congr fun c hc => (sqlMatches_iff.mp hall c hc).1)

/-! ## Pushing a change -/

theorem sameKey_select (source : TableSource) (x next : Row) :
    sameKey source (selectColumns source.spec.columns x) next = true ↔ ∀ c ∈ source.spec.primaryKey, x c = next c := by
  rw [sameKey, List.all_eq_true]
  refine forall₂_congr fun c hc => ?_
  rw [selectColumns_of_mem (source.spec.primaryKey_synced c hc), decide_eq_true_eq]

theorem pushPrev_loop (h : Keeps source.spec rows) {prevs : List Row} (hprevs : ∀ x ∈ prevs, x ∈ rows)
    (hnodup : prevs.Nodup) (next : Option Row) (e : Option Row) :
    ∃ rows' e', (prevs.map (selectColumns source.spec.columns)).foldlM (pushPrev source next) (rows, e) =
        .ok (rows', e') ∧ rows'.Sublist rows ∧
      (∀ r, r ∈ rows' ↔ r ∈ rows ∧
        (r ∈ prevs → next.any (sameKey source (selectColumns source.spec.columns r)) = true)) ∧
      ((e' = e ∧ ∀ x ∈ prevs, next.any (sameKey source (selectColumns source.spec.columns x)) = false) ∨
        ∃ x ∈ prevs, next.any (sameKey source (selectColumns source.spec.columns x)) = true ∧
          e' = some (selectColumns source.spec.columns x)) := by
  induction prevs generalizing rows e with
  | nil => exact ⟨rows, e, rfl, List.Sublist.refl _, fun r => by simp, .inl ⟨rfl, by simp⟩⟩
  | cons x prevs ih =>
    obtain ⟨hx, hrest⟩ := List.forall_mem_cons.mp hprevs
    obtain ⟨hnot, hnodup⟩ := List.nodup_cons.mp hnodup
    rw [List.map_cons, List.foldlM_cons, pushPrev]
    by_cases hsame : next.any (sameKey source (selectColumns source.spec.columns x)) = true
    · rw [if_pos hsame]
      obtain ⟨rows', e', hloop, hsub, hmem, hedit⟩ := ih h hrest hnodup (some (selectColumns source.spec.columns x))
      refine ⟨rows', e', hloop, hsub, fun r => ?_, .inr ?_⟩
      · rw [hmem r, List.mem_cons]
        refine and_congr_right fun _ => ⟨fun hr => ?_, fun hr hp => hr (.inr hp)⟩
        rintro (rfl | hp)
        · exact hsame
        · exact hr hp
      · rcases hedit with ⟨rfl, -⟩ | ⟨y, hy, hysame, rfl⟩
        · exact ⟨x, List.mem_cons_self .., hsame, rfl⟩
        · exact ⟨y, List.mem_cons_of_mem _ hy, hysame, rfl⟩
    · rw [if_neg hsame]
      have hkey : ∀ c ∈ source.spec.primaryKey, selectColumns source.spec.columns x c = x c :=
        fun c hc => selectColumns_of_mem (source.spec.primaryKey_synced c hc) x
      have hdel := TableSource.push_remove h hx hkey
      have hmemdel {r : Row} : r ∈ source.delete rows (selectColumns source.spec.columns x) ↔ r ∈ rows ∧ r ≠ x :=
        TableSource.mem_delete_iff h hx hkey
      have hsubdel : (source.delete rows (selectColumns source.spec.columns x)).Sublist rows := List.filter_sublist
      obtain ⟨rows', e', hloop, hsub, hmem, hedit⟩ := ih (h.sublist hsubdel)
        (fun y hy => hmemdel.mpr ⟨hrest y hy, fun heq => hnot (heq ▸ hy)⟩) hnodup e
      refine ⟨rows', e', ?_, hsub.trans hsubdel, fun r => ?_, ?_⟩
      · rw [pushInto, hdel]
        exact hloop
      · rw [hmem r, hmemdel, and_assoc, List.mem_cons]
        refine and_congr_right fun _ => ⟨?_, fun hr => ⟨?_, fun hp => hr (.inr hp)⟩⟩
        · rintro ⟨hne, hr⟩ (rfl | hp)
          · exact absurd rfl hne
          · exact hr hp
        · rintro rfl
          exact hsame (hr (.inl rfl))
      · rcases hedit with ⟨rfl, hall⟩ | ⟨y, hy, hysame, rfl⟩
        · exact .inl ⟨rfl, List.forall_mem_cons.mpr ⟨by rwa [Bool.not_eq_true] at hsame, hall⟩⟩
        · exact .inr ⟨y, List.mem_cons_of_mem _ hy, hysame, rfl⟩

/-- **A next value** takes the place of the rows that it conflicts with. -/
theorem pushChange_set (table : String) (h : Keeps source.spec rows) (hs : source.spec.Synced)
    (hstored : ∀ k ∈ source.spec.columns, c k ≠ .undefined) :
    ∃ rows' stored, pushChange source rows
        ⟨table, getRows source.spec rows (selectColumns source.spec.columns c), some (selectColumns source.spec.columns c)⟩ =
          .ok rows' ∧
      rows'.Perm (stored :: rows.filter fun r => !conflicts source.spec c r) ∧
      ∀ k ∈ source.spec.columns, stored k = c k := by
  have hselect : ∀ k ∈ source.spec.columns, selectColumns source.spec.columns c k = c k :=
    fun k hk => selectColumns_of_mem hk c
  have hconflicts : ∀ r, conflicts source.spec (selectColumns source.spec.columns c) r = conflicts source.spec c r :=
    hs.conflicts_congr hselect
  have hdefined : ∀ k ∈ source.spec.columns, selectColumns source.spec.columns c k ≠ .undefined := by
    intro k hk
    rw [hselect k hk]
    exact hstored k hk
  have hmemprevs : ∀ r, (r ∈ rows.filter fun r => conflicts source.spec r (selectColumns source.spec.columns c)) ↔
      r ∈ rows ∧ conflicts source.spec c r = true := by
    intro r
    rw [List.mem_filter, conflicts_comm, hconflicts]
  have hmemrest : ∀ r, (r ∈ rows.filter fun r => !conflicts source.spec c r) ↔
      r ∈ rows ∧ conflicts source.spec c r = false := by
    intro r
    rw [List.mem_filter, Bool.not_eq_true']
  obtain ⟨rows₁, e, hloop, hsub, hmem, hedit⟩ := pushPrev_loop h (fun r hr => ((hmemprevs r).mp hr).1)
    (h.nodup.filter _) (some (selectColumns source.spec.columns c)) none
  simp only [hmemprevs, Option.any_some] at hmem hedit
  rw [pushChange, getRows_eq, hloop]
  rcases hedit with ⟨rfl, hall⟩ | ⟨x, ⟨hx, hxc⟩, hsame, rfl⟩
  · -- None of them has its primary key: it is added.
    have hmem₁ : ∀ r, r ∈ rows₁ ↔ r ∈ rows ∧ conflicts source.spec c r = false := by
      intro r
      rw [hmem r, ← Bool.not_eq_true]
      refine and_congr_right fun hr => ⟨fun himp hcr => ?_, fun hcr hp => absurd hp.2 hcr⟩
      have hsame := himp ⟨hr, hcr⟩
      rw [hall r ⟨hr, hcr⟩] at hsame
      cases hsame
    obtain ⟨stored, hpush, hcols⟩ := TableSource.push_add hs hdefined fun r (hr : r ∈ rows₁) => by
      rw [hconflicts]
      exact ((hmem₁ r).mp hr).2
    refine ⟨rows₁ ++ [stored], stored, ?_, ?_, fun k hk => (hcols k hk).trans (hselect k hk)⟩
    · show pushInto source rows₁ _ = _
      rw [pushInto, hpush]
      rfl
    · refine (List.perm_append_singleton _ _).trans (List.Perm.cons _ ?_)
      exact h.perm_of_sublist hsub List.filter_sublist fun r => (hmem₁ r).trans (hmemrest r).symm
  · -- The one of its primary key is edited.
    have hkey := (sameKey_select source x _).mp hsame
    have hx₁ : x ∈ rows₁ := (hmem x).mpr ⟨hx, fun _ => hsame⟩
    have hold : ∀ k ∈ source.spec.primaryKey, selectColumns source.spec.columns x k = x k :=
      fun k hk => selectColumns_of_mem (source.spec.primaryKey_synced k hk) x
    have hno : ∀ r ∈ rows₁, r ≠ x → conflicts source.spec c r = false := by
      intro r hr hne
      obtain ⟨hr, himp⟩ := (hmem r).mp hr
      rw [← Bool.not_eq_true]
      intro hcr
      have hrkey := (sameKey_select source r _).mp (himp ⟨hr, hcr⟩)
      refine hne (h.eq_of_primaryKey hr hx ?_)
      rw [matches_of_eq (fun k hk => (hkey k hk).trans (hrkey k hk).symm)]
      exact h.matches_self hr
    obtain ⟨rows', stored, hpush, hperm, hcols⟩ := TableSource.push_edit (h.sublist hsub) hs hx₁ hold hdefined
      (fun k hk => (hkey k hk).symm) fun r hr hne => by
        rw [hconflicts]
        exact hno r hr hne
    refine ⟨rows', stored, ?_, hperm.trans (List.Perm.cons _ ?_), fun k hk => (hcols k hk).trans (hselect k hk)⟩
    · show pushInto source rows₁ _ = _
      rw [pushInto, hpush]
      rfl
    · refine h.perm_of_sublist (List.filter_sublist.trans hsub) List.filter_sublist fun r => ?_
      rw [TableSource.mem_delete_iff (h.sublist hsub) hx₁ hold, hmemrest]
      constructor
      · rintro ⟨hr, hne⟩
        exact ⟨((hmem r).mp hr).1, hno r hr hne⟩
      · rintro ⟨hr, hcr⟩
        refine ⟨(hmem r).mpr ⟨hr, fun hp => ?_⟩, ?_⟩
        · rw [hcr] at hp
          cases hp.2
        · rintro rfl
          rw [hxc] at hcr
          cases hcr

/-- **A row that is gone** is removed. -/
theorem pushChange_del (h : Keeps source.spec rows) (hx : x ∈ rows) :
    pushChange source rows ⟨table, [selectColumns source.spec.columns x], none⟩ =
      .ok (source.delete rows (selectColumns source.spec.columns x)) := by
  rw [pushChange, List.foldlM_cons, pushPrev, if_neg (by simp), pushInto,
    TableSource.push_remove h hx fun k hk => selectColumns_of_mem (source.spec.primaryKey_synced k hk) x]
  rfl

/-! ## Reading an entry -/

variable {diff : Diff} {prev : Tables} {e : ChangeLogEntry}

theorem conflicts_of_select (h : conflicts spec s (selectColumns spec.columns c) = true) : conflicts spec c s = true := by
  rw [conflicts_comm]
  rw [conflicts, List.any_eq_true] at h ⊢
  obtain ⟨key, hkey, hm⟩ := h
  refine ⟨key, hkey, sqlMatches_iff.mpr fun k hk => ?_⟩
  obtain ⟨heq, hundefined, hnull⟩ := sqlMatches_iff.mp hm k hk
  by_cases hcol : k ∈ spec.columns
  · rw [selectColumns_of_mem hcol] at heq
    exact ⟨heq, hundefined, hnull⟩
  · rw [selectColumns, if_neg hcol] at heq
    exact absurd heq hundefined

theorem rowVersion_select (spec : TableSpec) (row : Row) :
    rowVersion (selectColumns spec.columns row) = rowVersion row := by
  rw [rowVersion, selectColumns_of_mem spec.version_synced]
  rfl

theorem select_eq_of_eq {k : String} (h : s k = c k) (columns : List String) :
    selectColumns columns s k = selectColumns columns c k := by
  rw [selectColumns, selectColumns, h]

theorem next_set (hspec : diff.syncableTables e.table = some spec) (hop : e.op = .set)
    (hmin : stringLt (spec.minRowVersion.getD "") e.stateVersion = true)
    (hcurr : stringLt diff.currVersion e.stateVersion = false)
    (hget : getRow spec (diff.curr e.table) e.rowKey = some (selectColumns spec.columns c))
    (hversion : c "_0_version" = .str e.stateVersion)
    (hprev : ∀ s ∈ prev e.table, conflicts spec c s = true → stringLt diff.prevVersion (rowVersion s) = false)
    (hpermissions : e.table = diff.permissionsTable →
      ∀ s ∈ prev e.table, conflicts spec c s = true → s "permissions" = c "permissions") :
    diff.next prev e = .ok (some ⟨e.table, getRows spec (prev e.table) (selectColumns spec.columns c),
      some (selectColumns spec.columns c)⟩) := by
  have hmem : ∀ r ∈ getRows spec (prev e.table) (selectColumns spec.columns c),
      ∃ s ∈ prev e.table, conflicts spec c s = true ∧ selectColumns spec.columns s = r := by
    intro r hr
    rw [getRows_eq] at hr
    obtain ⟨s, hs, rfl⟩ := List.mem_map.mp hr
    obtain ⟨hs, hc⟩ := List.mem_filter.mp hs
    exact ⟨s, hs, conflicts_of_select hc, rfl⟩
  have hvalid : diff.isValid e.stateVersion (getRows spec (prev e.table) (selectColumns spec.columns c))
      (some (selectColumns spec.columns c)) = true := by
    simp only [Diff.isValid, hcurr, Bool.not_false, Bool.true_and, Bool.and_eq_true, Bool.not_eq_true', Option.all_some,
      decide_eq_true_eq, selectColumns_of_mem spec.version_synced, hversion, and_true, List.any_eq_false]
    intro r hr
    obtain ⟨s, hs, hc, rfl⟩ := hmem r hr
    rw [rowVersion_select, hprev s hs hc]
    exact Bool.false_ne_true
  have hsame : e.table = diff.permissionsTable → (getRows spec (prev e.table) (selectColumns spec.columns c)).any
      (fun prevValue => prevValue "permissions" ≠ selectColumns spec.columns c "permissions") = false := by
    intro htable
    rw [List.any_eq_false]
    intro r hr
    obtain ⟨s, hs, hc, rfl⟩ := hmem r hr
    simp [select_eq_of_eq (hpermissions htable s hs hc)]
  rw [Diff.next, hop]
  simp only [hspec, hmin, Bool.not_true, Bool.false_eq_true, if_false, if_true, hget, reduceCtorEq, and_false, hvalid]
  split
  · next htable => rw [hsame htable, if_neg Bool.false_ne_true]
  · rfl

theorem next_del (hspec : diff.syncableTables e.table = some spec) (hop : e.op = .del)
    (hmin : stringLt (spec.minRowVersion.getD "") e.stateVersion = true)
    (hcurr : stringLt diff.currVersion e.stateVersion = false)
    (hget : getRow spec (prev e.table) e.rowKey = some (selectColumns spec.columns x))
    (hprev : stringLt diff.prevVersion (rowVersion x) = false) (htable : e.table ≠ diff.permissionsTable) :
    diff.next prev e = .ok (some ⟨e.table, [selectColumns spec.columns x], none⟩) := by
  have hvalid : diff.isValid e.stateVersion [selectColumns spec.columns x] none = true := by
    simp [Diff.isValid, hcurr, rowVersion_select, hprev]
  rw [Diff.next, hop]
  simp [hspec, hmin, hget, hvalid, htable]

theorem next_noop (hspec : diff.syncableTables e.table = some spec) (hop : e.op = .del)
    (hmin : stringLt (spec.minRowVersion.getD "") e.stateVersion = true)
    (hcurr : stringLt diff.currVersion e.stateVersion = false)
    (hget : getRow spec (prev e.table) e.rowKey = none) : diff.next prev e = .ok none := by
  have hvalid : diff.isValid e.stateVersion [] none = true := by simp [Diff.isValid, hcurr]
  rw [Diff.next, hop]
  simp [hspec, hmin, hget, hvalid]

end ZeroSync
