/-
Pushes into a `TableSource` whose table keeps its unique indexes.

A removed row is the one that goes (`push_remove`), an added row comes when it
conflicts with none (`push_add`), and an edited row is replaced when the new
one conflicts with none of the others (`push_edit`).
-/
import ZeroSync.TableSource
import Mathlib.Data.List.Perm.Basic

namespace ZeroSync

/-- All unique indexes are over synced columns. -/
def TableSpec.Synced (spec : TableSpec) : Prop := ∀ key ∈ spec.uniqueKeys, ∀ c ∈ key, c ∈ spec.columns

/-- The rows keep the unique indexes, and have a primary key. -/
structure Keeps (spec : TableSpec) (rows : List Row) : Prop where
  unique : rows.Pairwise fun a b => conflicts spec a b = false
  primaryKey : ∀ row ∈ rows, ∀ c ∈ spec.primaryKey, row c ≠ .null ∧ row c ≠ .undefined

variable {spec : TableSpec} {rows rows' : List Row} {columns : List String} {a b row x : Row}

theorem toSQLiteType_of_ne {v : Value} (h : v ≠ .undefined) (type : ValueType) : toSQLiteType v type = v := by
  rw [toSQLiteType, if_neg (fun hn => h hn.1)]
  cases v <;> first | rfl | exact absurd rfl h

/-! ## Agreeing on columns -/

theorem sqlMatches_iff : sqlMatches columns a b = true ↔ ∀ c ∈ columns, a c = b c ∧ a c ≠ .undefined ∧ a c ≠ .null := by
  simp only [sqlMatches, List.all_eq_true, valuesEqual_iff]

theorem sqlMatches_comm (columns : List String) (a b : Row) : sqlMatches columns a b = sqlMatches columns b a := by
  simp only [sqlMatches, valuesEqual_comm]

theorem conflicts_comm (spec : TableSpec) (a b : Row) : conflicts spec a b = conflicts spec b a := by
  simp only [conflicts, sqlMatches_comm]

theorem sqlMatches_congr (h : ∀ c ∈ columns, a c = b c) (row : Row) : sqlMatches columns a row = sqlMatches columns b row := by
  rw [Bool.eq_iff_iff, sqlMatches_iff, sqlMatches_iff]
  constructor
  · intro hm c hc
    rw [← h c hc]
    exact hm c hc
  · intro hm c hc
    rw [h c hc]
    exact hm c hc

theorem selectColumns_of_mem {c : String} (hc : c ∈ columns) (row : Row) : selectColumns columns row c = row c := if_pos hc

theorem selectColumns_eq_iff : selectColumns columns a = selectColumns columns b ↔ ∀ c ∈ columns, a c = b c := by
  constructor
  · intro h c hc
    have hcol := congrFun h c
    rwa [selectColumns_of_mem hc, selectColumns_of_mem hc] at hcol
  · intro h
    funext c
    by_cases hc : c ∈ columns
    · rw [selectColumns_of_mem hc, selectColumns_of_mem hc, h c hc]
    · rw [selectColumns, selectColumns, if_neg hc, if_neg hc]

theorem TableSpec.Synced.conflicts_congr (hs : spec.Synced) (h : ∀ c ∈ spec.columns, a c = b c) (row : Row) :
    conflicts spec a row = conflicts spec b row := by
  rw [Bool.eq_iff_iff, conflicts, conflicts, List.any_eq_true, List.any_eq_true]
  refine exists_congr fun key => and_congr_right fun hkey => ?_
  rw [sqlMatches_congr (fun c hc => h c (hs key hkey c hc))]

theorem conflicts_of_primaryKey (h : sqlMatches spec.primaryKey a b = true) : conflicts spec a b = true := by
  obtain ⟨key, hkey, hcols⟩ := spec.primaryKey_unique
  rw [conflicts, List.any_eq_true]
  refine ⟨key, hkey, ?_⟩
  rw [sqlMatches_iff] at h ⊢
  exact fun c hc => h c ((hcols c).mp hc)

theorem Keeps.matches_self (h : Keeps spec rows) (hx : x ∈ rows) : sqlMatches spec.primaryKey x x = true :=
  sqlMatches_iff.mpr fun c hc => ⟨rfl, (h.primaryKey x hx c hc).2, (h.primaryKey x hx c hc).1⟩

theorem Keeps.eq_of_conflicts (h : Keeps spec rows) (ha : a ∈ rows) (hb : b ∈ rows) (hc : conflicts spec a b = true) :
    a = b := by
  by_contra hne
  have hall := List.Pairwise.forall_of_forall_of_flip (R := fun a b => a = b ∨ conflicts spec a b = false)
    (fun _ _ => .inl rfl) (h.unique.imp .inr) (h.unique.imp fun {a b} hab => .inr (by rwa [conflicts_comm])) ha hb
  rcases hall with heq | hfalse
  · exact hne heq
  · rw [hc] at hfalse
    cases hfalse

theorem Keeps.eq_of_primaryKey (h : Keeps spec rows) (ha : a ∈ rows) (hb : b ∈ rows)
    (hm : sqlMatches spec.primaryKey a b = true) : a = b :=
  h.eq_of_conflicts ha hb (conflicts_of_primaryKey hm)

theorem Keeps.sublist (h : Keeps spec rows) (hs : rows'.Sublist rows) : Keeps spec rows' :=
  ⟨h.unique.sublist hs, fun row hrow => h.primaryKey row (hs.subset hrow)⟩

theorem Keeps.cons (h : Keeps spec rows) (hrow : ∀ c ∈ spec.primaryKey, row c ≠ .null ∧ row c ≠ .undefined)
    (hno : ∀ r ∈ rows, conflicts spec row r = false) : Keeps spec (row :: rows) :=
  ⟨List.pairwise_cons.mpr ⟨hno, h.unique⟩, List.forall_mem_cons.mpr ⟨hrow, h.primaryKey⟩⟩

theorem Keeps.perm (h : Keeps spec rows) (hp : rows.Perm rows') : Keeps spec rows' :=
  ⟨(hp.pairwise_iff fun {a b} hab => by rwa [conflicts_comm]).mp h.unique,
    fun row hrow => h.primaryKey row (hp.mem_iff.mpr hrow)⟩

theorem matches_of_eq (h : ∀ c ∈ spec.primaryKey, a c = b c) (row : Row) :
    sqlMatches spec.primaryKey row a = sqlMatches spec.primaryKey row b := by
  rw [sqlMatches_comm, sqlMatches_congr h, sqlMatches_comm]

theorem Keeps.matches_iff (h : Keeps spec rows) (hx : x ∈ rows) (hkey : ∀ c ∈ spec.primaryKey, row c = x c) {r : Row}
    (hr : r ∈ rows) : sqlMatches spec.primaryKey r row = true ↔ r = x := by
  rw [matches_of_eq hkey]
  refine ⟨h.eq_of_primaryKey hr hx, ?_⟩
  rintro rfl
  exact h.matches_self hx

theorem Keeps.replace_perm (h : Keeps spec rows) (hx : x ∈ rows) (hkey : ∀ c ∈ spec.primaryKey, row c = x c)
    (new : Row → Row) : (rows.map fun r => if sqlMatches spec.primaryKey r row then new r else r).Perm
      (new x :: rows.filter fun r => !sqlMatches spec.primaryKey r row) := by
  have hself : sqlMatches spec.primaryKey x row = true := (h.matches_iff hx hkey hx).mpr rfl
  obtain ⟨A, B, rfl⟩ := List.append_of_mem hx
  have hsplit := List.pairwise_append.mp h.unique
  have hnot : ∀ r ∈ A ++ B, sqlMatches spec.primaryKey r row = false := by
    intro r hr
    rw [← Bool.not_eq_true]
    intro hm
    have hc : conflicts spec x r = true := by
      rw [sqlMatches_comm, sqlMatches_congr hkey] at hm
      exact conflicts_of_primaryKey hm
    rcases List.mem_append.mp hr with hr | hr
    · rw [conflicts_comm, hsplit.2.2 r hr x (by simp)] at hc
      cases hc
    · rw [(List.pairwise_cons.mp hsplit.2.1).1 r hr] at hc
      cases hc
  have hid {l : List Row} (hl : ∀ r ∈ l, sqlMatches spec.primaryKey r row = false) :
      (l.map fun r => if sqlMatches spec.primaryKey r row then new r else r) = l := by
    conv_rhs => rw [← List.map_id l]
    refine List.map_congr_left fun r hr => ?_
    rw [hl r hr]
    rfl
  have hdel {l : List Row} (hl : ∀ r ∈ l, sqlMatches spec.primaryKey r row = false) :
      (l.filter fun r => !sqlMatches spec.primaryKey r row) = l :=
    List.filter_eq_self.mpr fun r hr => by rw [hl r hr]; rfl
  rw [List.filter_append, List.filter_cons, List.map_append, List.map_cons, hself]
  simp only [if_true, Bool.not_true, Bool.false_eq_true, if_false]
  rw [hid fun r hr => hnot r (by simp [hr]), hid fun r hr => hnot r (by simp [hr]), hdel fun r hr => hnot r (by simp [hr]),
    hdel fun r hr => hnot r (by simp [hr])]
  exact List.perm_middle

/-! ## Pushes -/

namespace TableSource

variable {source : TableSource}

theorem insert_spec (hs : source.spec.Synced) (hrow : ∀ c ∈ source.spec.columns, row c ≠ .undefined)
    (hno : ∀ r ∈ rows, conflicts source.spec row r = false) :
    ∃ stored, source.insert rows row = .ok (rows ++ [stored]) ∧
      ∀ c ∈ source.spec.columns, stored c = row c := by
  have hstored : ∀ c ∈ source.spec.columns,
      (if c ∈ source.spec.columns then toSQLiteType (row c) (source.spec.type c) else .null) = row c := by
    intro c hc
    rw [if_pos hc, toSQLiteType_of_ne (hrow c hc)]
  refine ⟨_, if_neg ?_, hstored⟩
  rw [List.any_eq_true]
  rintro ⟨r, hr, hc⟩
  rw [hs.conflicts_congr hstored, hno r hr] at hc
  cases hc

theorem mem_delete {r : Row} : r ∈ source.delete rows row ↔ r ∈ rows ∧ sqlMatches source.spec.primaryKey r row = false := by
  simp [delete]

theorem mem_delete_iff (h : Keeps source.spec rows) (hx : x ∈ rows) (hrow : ∀ c ∈ source.spec.primaryKey, row c = x c)
    {r : Row} : r ∈ source.delete rows row ↔ r ∈ rows ∧ r ≠ x := by
  rw [mem_delete, matches_of_eq hrow]
  refine and_congr_right fun hr => ⟨?_, fun hne => ?_⟩
  · rintro hm rfl
    rw [h.matches_self hx] at hm
    cases hm
  · rw [← Bool.not_eq_true]
    exact fun hm => hne (h.eq_of_primaryKey hr hx hm)

theorem checkExists_of_mem (h : Keeps source.spec rows) (hx : x ∈ rows)
    (hrow : ∀ c ∈ source.spec.primaryKey, row c = x c) : source.checkExists rows row = true := by
  rw [checkExists, List.any_eq_true]
  exact ⟨x, hx, by rw [matches_of_eq hrow]; exact h.matches_self hx⟩

/-- **A row is removed.** -/
theorem push_remove (h : Keeps source.spec rows) (hx : x ∈ rows) (hrow : ∀ c ∈ source.spec.primaryKey, row c = x c) :
    source.push rows (.remove row) = .ok (source.delete rows row) := by
  rw [push, genPushAndWrite, if_pos (checkExists_of_mem h hx hrow)]
  · rfl
  · intro r r' heq
    cases heq

theorem push_insert (hs : source.spec.Synced) (hrow : ∀ c ∈ source.spec.columns, row c ≠ .undefined)
    (hno : ∀ r ∈ rows, conflicts source.spec row r = false) :
    ∃ stored, source.genPushAndWrite rows (.add row) = .ok (rows ++ [stored]) ∧
      ∀ c ∈ source.spec.columns, stored c = row c := by
  obtain ⟨stored, hinsert, hstored⟩ := insert_spec hs hrow hno
  refine ⟨stored, ?_, hstored⟩
  have hnot : source.checkExists rows row = false := by
    rw [← Bool.not_eq_true, checkExists, List.any_eq_true]
    rintro ⟨r, hr, hm⟩
    rw [sqlMatches_comm] at hm
    have hc := conflicts_of_primaryKey hm
    rw [hno r hr] at hc
    cases hc
  rw [genPushAndWrite, hnot]
  exact hinsert

/-- **A row is added** when it conflicts with none. -/
theorem push_add (hs : source.spec.Synced) (hrow : ∀ c ∈ source.spec.columns, row c ≠ .undefined)
    (hno : ∀ r ∈ rows, conflicts source.spec row r = false) :
    ∃ stored, source.push rows (.add row) = .ok (rows ++ [stored]) ∧ ∀ c ∈ source.spec.columns, stored c = row c := by
  obtain ⟨stored, hpush, hstored⟩ := push_insert hs hrow hno
  refine ⟨stored, ?_, hstored⟩
  rw [push, hpush]
  intro r r' heq
  cases heq

theorem update_spec (h : Keeps source.spec rows) (hs : source.spec.Synced) (hx : x ∈ rows)
    (hrow : ∀ c ∈ source.spec.columns, row c ≠ .undefined) (hkey : ∀ c ∈ source.spec.primaryKey, row c = x c)
    (hno : ∀ r ∈ source.delete rows row, conflicts source.spec row r = false) :
    ∃ rows' stored, source.update rows row = .ok rows' ∧ rows'.Perm (stored :: source.delete rows row) ∧
      ∀ c ∈ source.spec.columns, stored c = row c := by
  have hstored : ∀ c ∈ source.spec.columns, source.updated row x c = row c := by
    intro c hc
    by_cases hpk : c ∈ source.spec.primaryKey
    · rw [updated, if_neg (fun hn => hn.2 hpk), hkey c hpk]
    · rw [updated, if_pos ⟨hc, hpk⟩, toSQLiteType_of_ne (hrow c hc)]
  have hok : ¬(rows.any fun r => sqlMatches source.spec.primaryKey r row &&
      (source.delete rows row).any (conflicts source.spec (source.updated row r))) = true := by
    simp only [List.any_eq_true, Bool.and_eq_true, not_exists, not_and]
    rintro r hr hm r' hr' hc
    obtain rfl := (h.matches_iff hx hkey hr).mp hm
    rw [hs.conflicts_congr hstored, hno r' hr'] at hc
    cases hc
  exact ⟨_, source.updated row x, if_neg hok, h.replace_perm hx hkey (source.updated row), hstored⟩

/-- **A row is edited** when the new one, of the same primary key, conflicts with none of the others. -/
theorem push_edit {oldRow : Row} (h : Keeps source.spec rows) (hs : source.spec.Synced) (hx : x ∈ rows)
    (hold : ∀ c ∈ source.spec.primaryKey, oldRow c = x c) (hrow : ∀ c ∈ source.spec.columns, row c ≠ .undefined)
    (hkey : ∀ c ∈ source.spec.primaryKey, row c = x c)
    (hno : ∀ r ∈ rows, r ≠ x → conflicts source.spec row r = false) :
    ∃ rows' stored, source.push rows (.edit row oldRow) = .ok rows' ∧ rows'.Perm (stored :: source.delete rows oldRow) ∧
      ∀ c ∈ source.spec.columns, stored c = row c := by
  have hdelete : source.delete rows row = source.delete rows oldRow := by
    refine List.filter_congr fun r _ => ?_
    rw [matches_of_eq hkey, matches_of_eq hold]
  have hno' : ∀ r ∈ source.delete rows oldRow, conflicts source.spec row r = false := by
    intro r hr
    obtain ⟨hr, hne⟩ := (mem_delete_iff h hx hold).mp hr
    exact hno r hr hne
  have hexists := checkExists_of_mem h hx hold
  rw [push]
  split
  · obtain ⟨stored, hinsert, hstored⟩ := push_insert hs hrow hno'
    have hremove : source.genPushAndWrite rows (.remove oldRow) = .ok (source.delete rows oldRow) := by
      rw [genPushAndWrite, if_pos hexists]
      rfl
    rw [hremove]
    exact ⟨_, stored, hinsert, List.perm_append_singleton _ _, hstored⟩
  · rw [genPushAndWrite, if_pos hexists, writeChange]
    split
    · have hmerged : ∀ c ∈ source.spec.columns, mergedRow oldRow row c = row c := fun c hc => if_neg (hrow c hc)
      have hkey' : ∀ c ∈ source.spec.primaryKey, mergedRow oldRow row c = x c := fun c hc => by
        rw [hmerged c (source.spec.primaryKey_synced c hc), hkey c hc]
      have hdelete' : source.delete rows (mergedRow oldRow row) = source.delete rows oldRow := by
        refine List.filter_congr fun r _ => ?_
        rw [matches_of_eq hkey', matches_of_eq hold]
      obtain ⟨rows', stored, hupdate, hperm, hstored⟩ := update_spec h hs hx
        (fun c hc => by rw [hmerged c hc]; exact hrow c hc) hkey'
        (fun r hr => by rw [hs.conflicts_congr hmerged]; exact hno' r (by rwa [hdelete'] at hr))
      exact ⟨rows', stored, hupdate, by rwa [hdelete'] at hperm, fun c hc => by rw [hstored c hc, hmerged c hc]⟩
    · obtain ⟨stored, hinsert, hstored⟩ := insert_spec hs hrow hno'
      exact ⟨_, stored, hinsert, List.perm_append_singleton _ _, hstored⟩

end TableSource

end ZeroSync
