/-
What one op pushes into the source of its table, compared with the op.

A push is the op when the row it is for is there, or is not, as the op was
normalized. In the columns that an insert leaves out a source binds `NULL`, and
`0` in a boolean column (`missing`). In a table whose columns are all of its
key an edit is a delete and an insert, by which the columns that are not synced
are lost (`Follows`).
-/
import Mathlib.Data.List.Forall2
import ZeroSync.WriteAuthorizer

namespace ZeroSync

variable {spec : TableSpec} {rows rows' s r d : List Row} {a b a' b' x v : Row} {defaults : String → Value}

/-- What a source binds for a column that a row does not have. -/
def missing (spec : TableSpec) (c : String) : Value := toSQLiteType .undefined (spec.type c)

/-! ## A table -/

theorem insertedRow_missing (v : Row) :
    (fun c => if c ∈ spec.columns then toSQLiteType (v c) (spec.type c) else .null) = insertedRow spec (missing spec) v := by
  funext c
  rw [insertedRow]
  split
  · split
    · next hv =>
      rw [hv, missing]
      cases h : spec.type c <;> rfl
    · next hv => rw [toSQLiteType_of_ne hv]
  · rfl

theorem insertedRow_key (hv : ∀ c ∈ spec.primaryKey, v c ≠ .null ∧ v c ≠ .undefined) {c : String} (hc : c ∈ spec.primaryKey) :
    insertedRow spec defaults v c = v c := by
  rw [insertedRow, if_pos (spec.primaryKey_synced c hc), if_neg (hv c hc).2]

theorem assignedRow_key (hkey : ∀ c ∈ spec.primaryKey, v c = x c) {c : String} (hc : c ∈ spec.primaryKey) :
    assignedRow v x c = x c := by
  rw [assignedRow]
  split
  · rfl
  · exact hkey c hc

theorem exists_of_rowExists (h : rowExists spec rows v = true) :
    ∃ x ∈ rows, sqlMatches spec.primaryKey x v = true ∧ ∀ c ∈ spec.primaryKey, v c = x c := by
  obtain ⟨x, hx, hm⟩ := List.any_eq_true.mp h
  exact ⟨x, hx, hm, fun c hc => (sqlMatches_iff.mp hm c hc).1.symm⟩

theorem keeps_append_iff (h : Keeps spec rows) (hn : ∀ c ∈ spec.primaryKey, b c ≠ .null ∧ b c ≠ .undefined) :
    Keeps spec (rows ++ [b]) ↔ ∀ a ∈ rows, conflicts spec b a = false := by
  constructor
  · intro hk a ha
    have hpair := List.pairwise_append.mp hk.unique
    rw [conflicts_comm]
    exact hpair.2.2 a ha b (List.mem_singleton_self b)
  · exact fun hno => (h.cons hn hno).perm (List.perm_append_singleton b rows).symm

theorem keeps_update_iff (h : Keeps spec rows) (hx : x ∈ rows) (hkey : ∀ c ∈ spec.primaryKey, v c = x c) :
    Keeps spec (updateRows spec rows v) ↔
      ∀ a ∈ rows.filter fun a => !sqlMatches spec.primaryKey a v, conflicts spec (assignedRow v x) a = false := by
  have hperm := h.replace_perm hx hkey (assignedRow v)
  have hrest : Keeps spec (rows.filter fun a => !sqlMatches spec.primaryKey a v) := h.sublist List.filter_sublist
  constructor
  · intro hk a ha
    exact (List.pairwise_cons.mp (hk.perm hperm).unique).1 a ha
  · intro hno
    refine (hrest.cons (fun c hc => ?_) hno).perm hperm.symm
    rw [assignedRow_key hkey hc]
    exact h.primaryKey x hx c hc

/-! ## A push -/

/-- The source of a table, without pipelines. -/
def sourceOf (spec : TableSpec) : TableSource := { spec, splitEditKeys := [] }

theorem push_add_eq (spec : TableSpec) (rows : List Row) (v : Row) :
    (sourceOf spec).push rows (.add v) = if rowExists spec rows v then .error .alreadyExists
      else if rows.any (conflicts spec (insertedRow spec (missing spec) v)) then .error .uniqueConstraint
        else .ok (rows ++ [insertedRow spec (missing spec) v]) := by
  rw [← insertedRow_missing]
  rfl

/-- **A row is added** when it is not there and conflicts with none. -/
theorem push_add_ok_iff (h : Keeps spec rows) (hv : ∀ c ∈ spec.primaryKey, v c ≠ .null ∧ v c ≠ .undefined) :
    (sourceOf spec).push rows (.add v) = .ok rows' ↔ rowExists spec rows v = false ∧
      rows' = rows ++ [insertedRow spec (missing spec) v] ∧ Keeps spec rows' := by
  have hkeeps := keeps_append_iff h (b := insertedRow spec (missing spec) v) (fun c hc => by
    rw [insertedRow_key hv hc]
    exact hv c hc)
  rw [push_add_eq]
  by_cases hexists : rowExists spec rows v = true
  · rw [if_pos hexists]
    refine ⟨(fun h => by cases h), fun h => ?_⟩
    rw [h.1] at hexists
    cases hexists
  rw [if_neg hexists]
  by_cases hc : rows.any (conflicts spec (insertedRow spec (missing spec) v)) = true
  · rw [if_pos hc]
    refine ⟨(fun h => by cases h), fun ⟨_, heq, hk⟩ => ?_⟩
    obtain ⟨a, ha, hca⟩ := List.any_eq_true.mp hc
    rw [hkeeps.mp (heq ▸ hk) a ha] at hca
    cases hca
  · rw [if_neg hc]
    refine ⟨fun h => ?_, fun ⟨_, heq, _⟩ => by rw [heq]⟩
    obtain rfl := Except.ok.inj h
    refine ⟨Bool.not_eq_true _ ▸ hexists, rfl, hkeeps.mpr fun a ha => ?_⟩
    rw [← Bool.not_eq_true]
    exact fun hca => hc (List.any_eq_true.mpr ⟨a, ha, hca⟩)

/-- A table in which a row can be updated: not all columns are of its key. -/
def UsesUpdate (spec : TableSpec) : Prop := spec.primaryKey.length < spec.columns.length

instance (spec : TableSpec) : Decidable (UsesUpdate spec) := inferInstanceAs (Decidable (_ < _))

theorem mem_primaryKey_of_not_usesUpdate (h : ¬UsesUpdate spec) {c : String} (hc : c ∈ spec.columns) :
    c ∈ spec.primaryKey := by
  have hsub : spec.primaryKey.Subperm spec.columns := List.subperm_of_subset spec.primaryKey_nodup spec.primaryKey_synced
  exact (hsub.perm_of_length_le (Nat.le_of_not_lt h)).mem_iff.mpr hc

theorem canUseUpdate_iff (hkey : ∀ c ∈ spec.primaryKey, v c = x c) :
    (sourceOf spec).canUseUpdate (selectColumns spec.columns x) v = true ↔ UsesUpdate spec := by
  have hall : (spec.primaryKey.all fun c => decide (selectColumns spec.columns x c = v c)) = true := by
    rw [List.all_eq_true]
    intro c hc
    rw [selectColumns_of_mem (spec.primaryKey_synced c hc), hkey c hc]
    exact decide_eq_true rfl
  simp only [TableSource.canUseUpdate, sourceOf, hall, UsesUpdate, Bool.true_and, gt_iff_lt, decide_eq_true_eq]

theorem updated_mergedRow (hkey : ∀ c ∈ spec.primaryKey, v c = x c) (hcols : ∀ c, v c ≠ .undefined → c ∈ spec.columns)
    (hx : ∀ c ∈ spec.columns, x c ≠ .undefined) :
    (sourceOf spec).updated (TableSource.mergedRow (selectColumns spec.columns x) v) x = assignedRow v x := by
  funext c
  rw [TableSource.updated, assignedRow]
  split
  · next hc =>
    have hc : c ∈ spec.columns ∧ c ∉ spec.primaryKey := hc
    rw [TableSource.mergedRow, selectColumns_of_mem hc.1]
    split
    · rw [toSQLiteType_of_ne (hx c hc.1)]
    · next hv => rw [toSQLiteType_of_ne hv]
  · next hc =>
    have hc : ¬(c ∈ spec.columns ∧ c ∉ spec.primaryKey) := hc
    split
    · rfl
    · next hv =>
      have hk : c ∈ spec.primaryKey := by
        by_contra hk
        exact hc ⟨hcols c hv, hk⟩
      rw [hkey c hk]

theorem mergedRow_key (hkey : ∀ c ∈ spec.primaryKey, v c = x c) {c : String} (hc : c ∈ spec.primaryKey) :
    TableSource.mergedRow (selectColumns spec.columns x) v c = x c := by
  rw [TableSource.mergedRow, selectColumns_of_mem (spec.primaryKey_synced c hc)]
  split
  · rfl
  · exact hkey c hc

theorem push_edit_eq (h : Keeps spec rows) (hx : x ∈ rows) (hkey : ∀ c ∈ spec.primaryKey, v c = x c) :
    (sourceOf spec).push rows (.edit v (selectColumns spec.columns x)) =
      if UsesUpdate spec then (sourceOf spec).update rows (TableSource.mergedRow (selectColumns spec.columns x) v)
      else (sourceOf spec).insert ((sourceOf spec).delete rows (selectColumns spec.columns x)) v := by
  have hold : ∀ c ∈ spec.primaryKey, selectColumns spec.columns x c = x c := fun c hc =>
    selectColumns_of_mem (spec.primaryKey_synced c hc) x
  have hexists : (sourceOf spec).checkExists rows (selectColumns spec.columns x) = true :=
    TableSource.checkExists_of_mem h hx hold
  have hsplit : (sourceOf spec).shouldSplitEdit v (selectColumns spec.columns x) = false := rfl
  rw [TableSource.push, hsplit, if_neg Bool.false_ne_true, TableSource.genPushAndWrite, if_pos hexists,
    TableSource.writeChange]
  simp only [canUseUpdate_iff hkey]

/-- **A row is edited** when the new one conflicts with none of the others. -/
theorem push_edit_ok_iff (h : Keeps spec rows) (hu : UsesUpdate spec) (hx : x ∈ rows) (hkey : ∀ c ∈ spec.primaryKey, v c = x c)
    (hcols : ∀ c, v c ≠ .undefined → c ∈ spec.columns) (hstored : ∀ c ∈ spec.columns, x c ≠ .undefined) :
    (sourceOf spec).push rows (.edit v (selectColumns spec.columns x)) = .ok rows' ↔
      rows' = updateRows spec rows v ∧ Keeps spec rows' := by
  have hmatches (row : Row) : sqlMatches spec.primaryKey row (TableSource.mergedRow (selectColumns spec.columns x) v) =
      sqlMatches spec.primaryKey row v :=
    matches_of_eq (fun c hc => by rw [mergedRow_key hkey hc, hkey c hc]) row
  have hrows : (rows.map fun row => if sqlMatches spec.primaryKey row v then
      (sourceOf spec).updated (TableSource.mergedRow (selectColumns spec.columns x) v) row else row) = updateRows spec rows v := by
    refine List.map_congr_left fun row hrow => ?_
    by_cases hm : sqlMatches spec.primaryKey row v = true
    · obtain rfl := (h.matches_iff hx hkey hrow).mp hm
      rw [if_pos hm, if_pos hm, updated_mergedRow hkey hcols hstored]
    · rw [if_neg hm, if_neg hm]
  have hself : sqlMatches spec.primaryKey x v = true := (h.matches_iff hx hkey hx).mpr rfl
  have hany : ((rows.any fun row => sqlMatches spec.primaryKey row v &&
      (rows.filter fun a => !sqlMatches spec.primaryKey a v).any
        (conflicts spec ((sourceOf spec).updated (TableSource.mergedRow (selectColumns spec.columns x) v) row))) = true) ↔
      ¬Keeps spec (updateRows spec rows v) := by
    rw [keeps_update_iff h hx hkey, List.any_eq_true]
    push Not
    simp only [Bool.and_eq_true, List.any_eq_true]
    constructor
    · rintro ⟨row, hrow, hm, a, ha, hc⟩
      obtain rfl := (h.matches_iff hx hkey hrow).mp hm
      rw [updated_mergedRow hkey hcols hstored] at hc
      exact ⟨a, ha, by rw [hc]; exact Bool.noConfusion⟩
    · rintro ⟨a, ha, hc⟩
      refine ⟨x, hx, hself, a, ha, ?_⟩
      rw [updated_mergedRow hkey hcols hstored]
      exact Bool.of_not_eq_false hc
  rw [push_edit_eq h hx hkey, if_pos hu]
  have hspec : (sourceOf spec).spec = spec := rfl
  simp only [TableSource.update, TableSource.delete, hspec, hmatches, hrows]
  by_cases hk : Keeps spec (updateRows spec rows v)
  · rw [if_neg (fun hc => hany.mp hc hk)]
    constructor
    · intro heq
      obtain rfl := Except.ok.inj heq
      exact ⟨rfl, hk⟩
    · rintro ⟨rfl, _⟩
      rfl
  · rw [if_pos (hany.mpr hk)]
    refine ⟨(fun heq => by cases heq), ?_⟩
    rintro ⟨rfl, hk'⟩
    exact absurd hk' hk

/-! ## The table of the sources and that of the ops -/

/-- The row of a source and that of the ops: a column that is not synced may be lost. -/
def HiddenLost (spec : TableSpec) (a b : Row) : Prop := ∀ c, a c = b c ∨ c ∉ spec.columns ∧ a c = .null

/-- The rows of a source follow those of the ops: they are the same where rows
can be updated, else the same but for order and lost columns. -/
structure Follows (spec : TableSpec) (s r : List Row) : Prop where
  same : UsesUpdate spec → s = r
  alike : ∃ l, s.Perm l ∧ List.Forall₂ (HiddenLost spec) l r

theorem HiddenLost.refl (spec : TableSpec) (a : Row) : HiddenLost spec a a := fun _ => .inl rfl

theorem HiddenLost.synced (h : HiddenLost spec a b) {c : String} (hc : c ∈ spec.columns) : a c = b c := by
  rcases h c with heq | ⟨hno, _⟩
  · exact heq
  · exact absurd hc hno

theorem HiddenLost.matches_eq (h : HiddenLost spec a b) (v : Row) :
    sqlMatches spec.primaryKey a v = sqlMatches spec.primaryKey b v :=
  sqlMatches_congr (fun c hc => h.synced (spec.primaryKey_synced c hc)) v

theorem HiddenLost.conflicts (h : HiddenLost spec a b) (h' : HiddenLost spec a' b')
    (hc : ZeroSync.conflicts spec a a' = true) : ZeroSync.conflicts spec b b' = true := by
  rw [ZeroSync.conflicts, List.any_eq_true] at hc ⊢
  obtain ⟨key, hkey, hm⟩ := hc
  refine ⟨key, hkey, sqlMatches_iff.mpr fun c hc => ?_⟩
  obtain ⟨heq, hundefined, hnull⟩ := sqlMatches_iff.mp hm c hc
  have hb : a c = b c := by
    rcases h c with hb | ⟨_, hb⟩
    · exact hb
    · exact absurd hb hnull
  have hb' : a' c = b' c := by
    rcases h' c with hb' | ⟨_, hb'⟩
    · exact hb'
    · exact absurd (heq.trans hb') hnull
  exact ⟨by rw [← hb, ← hb', heq], hb ▸ hundefined, hb ▸ hnull⟩

theorem Follows.refl (spec : TableSpec) (rows : List Row) : Follows spec rows rows :=
  ⟨fun _ => rfl, rows, List.Perm.refl rows, List.forall₂_same.mpr fun row _ => HiddenLost.refl spec row⟩

theorem exists_of_forall₂ {R : Row → Row → Prop} {l m : List Row} (h : List.Forall₂ R l m) (ha : a ∈ l) :
    ∃ b ∈ m, R a b := by
  induction h with
  | nil => cases ha
  | cons hab _ ih =>
    rcases List.mem_cons.mp ha with rfl | ha
    · exact ⟨_, List.mem_cons_self .., hab⟩
    · obtain ⟨b, hb, hab⟩ := ih ha
      exact ⟨b, List.mem_cons_of_mem _ hb, hab⟩

theorem any_eq_of_forall₂ {R : Row → Row → Prop} {p : Row → Bool} (hp : ∀ a b, R a b → p a = p b) {l m : List Row}
    (h : List.Forall₂ R l m) : l.any p = m.any p := by
  induction h with
  | nil => rfl
  | cons hab _ ih => rw [List.any_cons, List.any_cons, ih, hp _ _ hab]

theorem Follows.rowExists_eq (h : Follows spec s r) (v : Row) : rowExists spec s v = rowExists spec r v := by
  obtain ⟨l, hperm, hrel⟩ := h.alike
  rw [rowExists, rowExists, ← any_eq_of_forall₂ (fun a b hab => hab.matches_eq v) hrel, Bool.eq_iff_iff, List.any_eq_true,
    List.any_eq_true]
  simp only [hperm.mem_iff]

theorem Follows.keeps (h : Follows spec s r) (hr : Keeps spec r) : Keeps spec s := by
  obtain ⟨l, hperm, hrel⟩ := h.alike
  refine Keeps.perm ?_ hperm.symm
  clear hperm h
  induction hrel with
  | nil => exact ⟨List.Pairwise.nil, fun _ h => by cases h⟩
  | @cons a b l m hab hrel ih =>
    have hcons := List.pairwise_cons.mp hr.unique
    have hm : Keeps spec m := hr.sublist (List.sublist_cons_self b m)
    refine (ih hm).cons (fun c hc => ?_) fun a' ha' => ?_
    · rw [hab.synced (spec.primaryKey_synced c hc)]
      exact hr.primaryKey b (List.mem_cons_self ..) c hc
    · obtain ⟨b', hb', hab'⟩ := exists_of_forall₂ hrel ha'
      rw [← Bool.not_eq_true]
      intro hc
      have hc' := hab.conflicts hab' hc
      rw [hcons.1 b' hb'] at hc'
      cases hc'

/-! ## A push follows an op -/

/-- The op of a normalized one. -/
def NormalizedKind.toCRUD : NormalizedKind → CRUDKind
  | .insert => .insert
  | .update => .update
  | .delete => .delete

/-- What an op pushes into the source of its table. -/
def pushRows (spec : TableSpec) (rows : List Row) (op : NormalizedKind) (v : Row) : Except AuthorizerError (List Row) := do
  let change ← match op, rows.find? fun row => sqlMatches spec.primaryKey row v with
    | .insert, _ => .ok (.add v)
    | _, none => .error .rowNotFound
    | .update, some x => .ok (.edit v (selectColumns spec.columns x))
    | .delete, some x => .ok (.remove (selectColumns spec.columns x))
  sourceResult ((sourceOf spec).push rows change)

theorem sourceResult_ok_iff {α : Type} {result : Except SourceError α} {y : α} :
    sourceResult result = .ok y ↔ result = .ok y := by
  cases result with
  | error e => exact ⟨(fun h => by cases h), (fun h => by cases h)⟩
  | ok y' => exact ⟨(fun h => by rw [Except.ok.inj h]), (fun h => by rw [Except.ok.inj h]; rfl)⟩

theorem pushRows_insert_ok_iff :
    pushRows spec rows .insert v = .ok rows' ↔ (sourceOf spec).push rows (.add v) = .ok rows' :=
  sourceResult_ok_iff

theorem find?_key (h : Keeps spec rows) (hx : x ∈ rows) (hkey : ∀ c ∈ spec.primaryKey, v c = x c) :
    (rows.find? fun row => sqlMatches spec.primaryKey row v) = some x := by
  have hself : sqlMatches spec.primaryKey x v = true := (h.matches_iff hx hkey hx).mpr rfl
  obtain ⟨y, hy⟩ := Option.isSome_iff_exists.mp
    (List.find?_isSome (p := fun row => sqlMatches spec.primaryKey row v) |>.mpr ⟨x, hx, hself⟩)
  have hm := List.find?_some (p := fun row => sqlMatches spec.primaryKey row v) hy
  rw [hy, (h.matches_iff hx hkey (List.mem_of_find?_eq_some hy)).mp hm]

theorem pushRows_update (h : Keeps spec rows) (hx : x ∈ rows) (hkey : ∀ c ∈ spec.primaryKey, v c = x c) :
    pushRows spec rows .update v = .ok rows' ↔
      (sourceOf spec).push rows (.edit v (selectColumns spec.columns x)) = .ok rows' := by
  unfold pushRows
  rw [find?_key h hx hkey]
  exact sourceResult_ok_iff

theorem pushRows_delete (h : Keeps spec rows) (hx : x ∈ rows) (hkey : ∀ c ∈ spec.primaryKey, v c = x c) :
    pushRows spec rows .delete v = .ok (rows.filter fun row => !sqlMatches spec.primaryKey row v) := by
  have hsel : ∀ c ∈ spec.primaryKey, selectColumns spec.columns x c = x c := fun c hc =>
    selectColumns_of_mem (spec.primaryKey_synced c hc) x
  have hdelete : (sourceOf spec).delete rows (selectColumns spec.columns x) =
      rows.filter fun row => !sqlMatches spec.primaryKey row v := by
    have hboth : ∀ c ∈ spec.primaryKey, selectColumns spec.columns x c = v c := fun c hc => by rw [hsel c hc, hkey c hc]
    refine List.filter_congr fun row _ => ?_
    rw [← matches_of_eq hboth row]
    rfl
  unfold pushRows
  rw [find?_key h hx hkey]
  refine sourceResult_ok_iff.mpr ?_
  rw [TableSource.push_remove h hx hsel, hdelete]

theorem pushRows_of_not_exists {op : NormalizedKind} (hop : op ≠ .insert) (h : rowExists spec rows v = false) :
    pushRows spec rows op v = .error .rowNotFound := by
  have hfind : (rows.find? fun row => sqlMatches spec.primaryKey row v) = none := by
    rw [List.find?_eq_none]
    intro row hrow hm
    rw [rowExists, List.any_eq_false] at h
    exact h row hrow hm
  unfold pushRows
  rw [hfind]
  cases op with
  | insert => exact absurd rfl hop
  | update => rfl
  | delete => rfl

theorem Follows.append (h : Follows spec s r) (x : Row) : Follows spec (s ++ [x]) (r ++ [x]) := by
  obtain ⟨l, hperm, hrel⟩ := h.alike
  exact ⟨fun hu => by rw [h.same hu], l ++ [x], hperm.append_right [x],
    List.rel_append hrel (.cons (HiddenLost.refl spec x) .nil)⟩

theorem Follows.filter (h : Follows spec s r) (v : Row) :
    Follows spec (s.filter fun row => !sqlMatches spec.primaryKey row v)
      (r.filter fun row => !sqlMatches spec.primaryKey row v) := by
  obtain ⟨l, hperm, hrel⟩ := h.alike
  exact ⟨fun hu => by rw [h.same hu], _, hperm.filter _, List.rel_filter (fun a b hab => by
    dsimp only
    rw [hab.matches_eq v]) hrel⟩

theorem Follows.replace (h : Follows spec s r) (hu : ¬UsesUpdate spec) (hr : Keeps spec r) (hx : x ∈ s)
    (hkey : ∀ c ∈ spec.primaryKey, v c = x c) (hv : ∀ c ∈ spec.primaryKey, v c ≠ .null ∧ v c ≠ .undefined) :
    Follows spec ((s.filter fun row => !sqlMatches spec.primaryKey row v) ++ [insertedRow spec (missing spec) v])
      (updateRows spec r v) := by
  have hlost (row : Row) : HiddenLost spec (insertedRow spec (missing spec) v) (assignedRow v row) := by
    intro c
    by_cases hc : c ∈ spec.columns
    · have hk := mem_primaryKey_of_not_usesUpdate hu hc
      rw [insertedRow_key hv hk, assignedRow, if_neg (hv c hk).2]
      exact .inl rfl
    · exact .inr ⟨hc, by rw [insertedRow, if_neg hc]⟩
  obtain ⟨l, hperm, hrel⟩ := h.alike
  refine ⟨fun hu' => absurd hu' hu, l.map fun row => if sqlMatches spec.primaryKey row v then
    insertedRow spec (missing spec) v else row, ?_, ?_⟩
  · have hl : Keeps spec l := (h.keeps hr).perm hperm
    have hreplace := hl.replace_perm (hperm.mem_iff.mp hx) hkey fun _ => insertedRow spec (missing spec) v
    exact ((List.perm_append_singleton _ _).trans ((hperm.filter _).cons _)).trans hreplace.symm
  · refine List.rel_map (fun a b hab => ?_) hrel
    rw [hab.matches_eq v]
    split
    · exact hlost b
    · exact hab

/-- **A push follows an op** that is normalized as its row is there or not. -/
theorem Follows.pushRows {op : NormalizedKind} (h : Follows spec s r) (hr : Keeps spec r)
    (hstored : ∀ row ∈ r, ∀ c ∈ spec.columns, row c ≠ .undefined)
    (hv : ∀ c ∈ spec.primaryKey, v c ≠ .null ∧ v c ≠ .undefined) (hcols : ∀ c, v c ≠ .undefined → c ∈ spec.columns)
    (hexists : rowExists spec r v = decide (op ≠ .insert))
    (hkeeps : Keeps spec (runOpRows spec (missing spec) r op.toCRUD v)) :
    ∃ s', ZeroSync.pushRows spec s op v = .ok s' ∧ Follows spec s' (runOpRows spec (missing spec) r op.toCRUD v) := by
  have hs := h.keeps hr
  cases op with
  | insert =>
    have hfollows := h.append (insertedRow spec (missing spec) v)
    refine ⟨_, pushRows_insert_ok_iff.mpr ((push_add_ok_iff hs hv).mpr ⟨?_, rfl, hfollows.keeps hkeeps⟩), hfollows⟩
    rw [h.rowExists_eq]
    exact hexists
  | update =>
    obtain ⟨x, hx, -, hkey⟩ := exists_of_rowExists (hexists.trans rfl)
    obtain ⟨x', hx', -, hkey'⟩ := exists_of_rowExists ((h.rowExists_eq v).trans hexists)
    by_cases hu : UsesUpdate spec
    · obtain rfl := h.same hu
      exact ⟨_, (pushRows_update hr hx hkey).mpr ((push_edit_ok_iff hr hu hx hkey hcols (hstored x hx)).mpr ⟨rfl, hkeeps⟩),
        Follows.refl spec _⟩
    · have hfollows := h.replace hu hr hx' hkey' hv
      have hsel : ∀ c ∈ spec.primaryKey, selectColumns spec.columns x' c = v c := fun c hc => by
        rw [selectColumns_of_mem (spec.primaryKey_synced c hc), hkey' c hc]
      have hdelete : (sourceOf spec).delete s (selectColumns spec.columns x') =
          s.filter fun row => !sqlMatches spec.primaryKey row v :=
        List.filter_congr fun row _ => by
          rw [← matches_of_eq hsel row]
          rfl
      have hno := (keeps_append_iff (hs.sublist List.filter_sublist) (fun c hc => by
        rw [insertedRow_key hv hc]
        exact hv c hc)).mp (hfollows.keeps hkeeps)
      refine ⟨_, (pushRows_update hs hx' hkey').mpr ?_, hfollows⟩
      rw [push_edit_eq hs hx' hkey', if_neg hu, hdelete, TableSource.insert]
      have hspec : (sourceOf spec).spec = spec := rfl
      simp only [hspec, insertedRow_missing]
      rw [if_neg]
      rw [List.any_eq_true]
      rintro ⟨a, ha, hc⟩
      rw [hno a ha] at hc
      cases hc
  | delete =>
    obtain ⟨x, hx, -, hkey⟩ := exists_of_rowExists ((h.rowExists_eq v).trans hexists)
    exact ⟨_, pushRows_delete hs hx hkey, h.filter v⟩

/-- **A push that is not refused** is of an op normalized as its row is there or
not, after which the indexes are kept where rows can be updated. -/
theorem Follows.of_pushRows {op : NormalizedKind} (h : Follows spec s r) (hr : Keeps spec r)
    (hstored : ∀ row ∈ r, ∀ c ∈ spec.columns, row c ≠ .undefined)
    (hv : ∀ c ∈ spec.primaryKey, v c ≠ .null ∧ v c ≠ .undefined) (hcols : ∀ c, v c ≠ .undefined → c ∈ spec.columns)
    {s' : List Row} (hok : ZeroSync.pushRows spec s op v = .ok s') :
    rowExists spec r v = decide (op ≠ .insert) ∧
      (UsesUpdate spec → Keeps spec (runOpRows spec (missing spec) r op.toCRUD v)) := by
  have hs := h.keeps hr
  rw [← h.rowExists_eq]
  cases op with
  | insert =>
    obtain ⟨hexists, rfl, hkeeps⟩ := (push_add_ok_iff hs hv).mp (pushRows_insert_ok_iff.mp hok)
    exact ⟨hexists, fun hu => by rw [← h.same hu]; exact hkeeps⟩
  | update =>
    cases hexists : rowExists spec s v with
    | false =>
      rw [pushRows_of_not_exists (by decide) hexists] at hok
      cases hok
    | true =>
      refine ⟨rfl, fun hu => ?_⟩
      obtain rfl := h.same hu
      obtain ⟨x, hx, -, hkey⟩ := exists_of_rowExists hexists
      obtain ⟨rfl, hkeeps⟩ := (push_edit_ok_iff hr hu hx hkey hcols (hstored x hx)).mp ((pushRows_update hr hx hkey).mp hok)
      exact hkeeps
  | delete =>
    cases hexists : rowExists spec s v with
    | false =>
      rw [pushRows_of_not_exists (by decide) hexists] at hok
      cases hok
    | true => exact ⟨rfl, fun _ => hr.sublist List.filter_sublist⟩

end ZeroSync
