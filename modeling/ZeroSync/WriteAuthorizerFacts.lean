/-
What `canPostMutation` pushes into the table sources, compared with the ops run
one after another.

The sources follow the run in which a column that an insert leaves out is
`NULL`, or `false` if it is a boolean (`pushDefaults`), and this run is aligned
with that of the ops, with the defaults of the columns (`Tracks`).
-/
import ZeroSync.Fallible
import ZeroSync.SourcePushes

namespace ZeroSync

variable {spec : TableSpec} {r d : List Row} {a b v : Row} {defaults : String → Value}

/-! ## Two runs with different defaults -/

/-- The rows differ at most in synced columns outside of the key. -/
def Aligned (spec : TableSpec) (a b : Row) : Prop := ∀ c, a c = b c ∨ c ∈ spec.columns ∧ c ∉ spec.primaryKey

theorem Aligned.key (h : Aligned spec a b) {c : String} (hc : c ∈ spec.primaryKey) : a c = b c := by
  rcases h c with heq | ⟨_, hno⟩
  · exact heq
  · exact absurd hc hno

theorem Aligned.matches_eq (h : Aligned spec a b) (v : Row) :
    sqlMatches spec.primaryKey a v = sqlMatches spec.primaryKey b v :=
  sqlMatches_congr (fun _ hc => h.key hc) v

theorem rowExists_aligned (h : List.Forall₂ (Aligned spec) r d) (v : Row) : rowExists spec r v = rowExists spec d v :=
  any_eq_of_forall₂ (fun _ _ hab => hab.matches_eq v) h

theorem runOpRows_aligned (h : List.Forall₂ (Aligned spec) r d) {defaults defaults' : String → Value} (op : CRUDKind)
    (hv : ∀ c ∈ spec.primaryKey, v c ≠ .null ∧ v c ≠ .undefined) :
    List.Forall₂ (Aligned spec) (runOpRows spec defaults r op v) (runOpRows spec defaults' d op v) := by
  have hinserted : Aligned spec (insertedRow spec defaults v) (insertedRow spec defaults' v) := by
    intro c
    by_cases hk : c ∈ spec.primaryKey
    · exact .inl ((insertedRow_key hv hk).trans (insertedRow_key hv hk).symm)
    · by_cases hc : c ∈ spec.columns
      · exact .inr ⟨hc, hk⟩
      · exact .inl (by rw [insertedRow, insertedRow, if_neg hc, if_neg hc])
  have hinsert := List.rel_append h (.cons hinserted .nil)
  have hupdate : List.Forall₂ (Aligned spec) (updateRows spec r v) (updateRows spec d v) := by
    refine List.rel_map (fun a b hab => ?_) h
    rw [hab.matches_eq v]
    split
    · intro c
      rw [assignedRow, assignedRow]
      split
      · exact hab c
      · exact .inl rfl
    · exact hab
  cases op with
  | insert => exact hinsert
  | upsert =>
    rw [runOpRows, runOpRows, rowExists_aligned h]
    split
    · exact hupdate
    · exact hinsert
  | update => exact hupdate
  | delete =>
    refine List.rel_filter (fun a b hab => ?_) h
    dsimp only
    rw [hab.matches_eq v]

theorem eq_of_aligned (h : List.Forall₂ (Aligned spec) r d) (hu : ¬UsesUpdate spec) : r = d := by
  rw [← List.forall₂_eq_eq_eq]
  refine h.imp fun a b hab => ?_
  funext c
  rcases hab c with heq | ⟨hc, hk⟩
  · exact heq
  · exact absurd (mem_primaryKey_of_not_usesUpdate hu hc) hk

theorem insertedRow_ne_undefined {c : String} (hc : c ∈ spec.columns) : insertedRow spec defaults v c ≠ .undefined := by
  rw [insertedRow, if_pos hc]
  split
  · cases defaults c <;> exact Value.noConfusion
  · next hv => exact hv

theorem runOpRows_stored (h : ∀ row ∈ r, ∀ c ∈ spec.columns, row c ≠ .undefined) (op : CRUDKind) :
    ∀ row ∈ runOpRows spec defaults r op v, ∀ c ∈ spec.columns, row c ≠ .undefined := by
  have hinsert : ∀ row ∈ r ++ [insertedRow spec defaults v], ∀ c ∈ spec.columns, row c ≠ .undefined := by
    intro row hrow c hc
    rcases List.mem_append.mp hrow with hrow | hrow
    · exact h row hrow c hc
    · obtain rfl := List.mem_singleton.mp hrow
      exact insertedRow_ne_undefined hc
  have hupdate : ∀ row ∈ updateRows spec r v, ∀ c ∈ spec.columns, row c ≠ .undefined := by
    intro row hrow c hc
    obtain ⟨row₀, hrow₀, rfl⟩ := List.mem_map.mp hrow
    split
    · rw [assignedRow]
      split
      · exact h row₀ hrow₀ c hc
      · next hv => exact hv
    · exact h row₀ hrow₀ c hc
  cases op with
  | insert => exact hinsert
  | upsert =>
    rw [runOpRows]
    split
    · exact hupdate
    · exact hinsert
  | update => exact hupdate
  | delete => exact fun row hrow => h row (List.mem_of_mem_filter hrow)

/-! ## The authorizer -/

variable {auth : WriteAuthorizer} {db : Database} {op : CRUDOp} {tableName : String}

/-- The driver takes the values of the key of a row. -/
def WriteAuthorizer.BindsKey (auth : WriteAuthorizer) (op : CRUDOp) : Prop :=
  ∀ spec, auth.tableSpecs op.tableName = some spec → ∀ c ∈ spec.primaryKey, auth.bindable (op.value c) = true

/-- How an op is normalized when its row was there before the ops, or was not. -/
def Op.normalized (op : CRUDOp) (before : Bool) : NormalizedOp :=
  match op.op with
  | .insert => { op with op := .insert }
  | .upsert => { op with op := if before then .update else .insert }
  | .update => { op with op := .update }
  | .delete => { op with op := .delete }

/-- The row of an op is there. -/
def opRowExists (specs : SourceSpecs) (db : Database) (op : CRUDOp) : Bool :=
  match specs op.tableName with
  | none => false
  | some spec => rowExists spec (db op.tableName) op.value

theorem opRowExists_eq {specs : SourceSpecs} (hspec : specs op.tableName = some spec) :
    opRowExists specs db op = rowExists spec (db op.tableName) op.value := by
  rw [opRowExists, hspec]

theorem bindKey_eq (hv : ∀ c ∈ spec.primaryKey, v c ≠ .null ∧ v c ≠ .undefined) :
    auth.bindKey spec (selectColumns spec.primaryKey v) =
      if ∀ c ∈ spec.primaryKey, auth.bindable (v c) = true then .ok () else .error .unbindable := by
  have hnull : ¬(spec.primaryKey.any fun c => decide (selectColumns spec.primaryKey v c = .null)) = true := by
    rw [List.any_eq_true]
    rintro ⟨c, hc, hn⟩
    rw [selectColumns_of_mem hc] at hn
    exact (hv c hc).1 (of_decide_eq_true hn)
  have hany : (spec.primaryKey.any fun c => !auth.bindable (selectColumns spec.primaryKey v c)) = true ↔
      ¬∀ c ∈ spec.primaryKey, auth.bindable (v c) = true := by
    rw [List.any_eq_true]
    push Not
    refine exists_congr fun c => and_congr_right fun hc => ?_
    rw [selectColumns_of_mem hc, Bool.not_eq_true', ← Bool.not_eq_true, ne_eq]
  rw [WriteAuthorizer.bindKey, if_neg hnull]
  by_cases hb : ∀ c ∈ spec.primaryKey, auth.bindable (v c) = true
  · rw [if_pos hb, if_neg (fun h => hany.mp h hb)]
  · rw [if_neg hb, if_pos (hany.mpr hb)]

theorem getPreMutationRow_eq (hspec : auth.tableSpecs tableName = some spec)
    (hv : ∀ c ∈ spec.primaryKey, v c ≠ .null ∧ v c ≠ .undefined) :
    auth.getPreMutationRow db tableName v = if ∀ c ∈ spec.primaryKey, auth.bindable (v c) = true then
      .ok (((db tableName).find? fun row => sqlMatches spec.primaryKey row v).map (selectColumns spec.columns))
      else .error .unbindable := by
  have hkey : WriteAuthorizer.getPrimaryKey spec v = .ok (selectColumns spec.primaryKey v) := by
    have hfind : (spec.primaryKey.find? fun c => decide (v c = .undefined)) = none := by
      rw [List.find?_eq_none]
      exact fun c hc hn => (hv c hc).2 (of_decide_eq_true hn)
    rw [WriteAuthorizer.getPrimaryKey, hfind]
  have hmatches : (fun row => sqlMatches spec.primaryKey row (selectColumns spec.primaryKey v)) =
      fun row => sqlMatches spec.primaryKey row v := by
    funext row
    exact matches_of_eq (fun c hc => selectColumns_of_mem hc v) row
  have htable : auth.tableSpec tableName = .ok spec := by rw [WriteAuthorizer.tableSpec, hspec]
  rw [WriteAuthorizer.getPreMutationRow, htable]
  change (WriteAuthorizer.getPrimaryKey spec v >>= fun key => auth.bindKey spec key >>= fun _ =>
    pure (((db tableName).find? fun row => sqlMatches spec.primaryKey row key).map (selectColumns spec.columns))) = _
  rw [hkey]
  change (auth.bindKey spec (selectColumns spec.primaryKey v) >>= fun _ => pure (((db tableName).find? fun row =>
    sqlMatches spec.primaryKey row (selectColumns spec.primaryKey v)).map (selectColumns spec.columns))) = _
  rw [bindKey_eq hv, hmatches]
  split <;> rfl

theorem isSome_find?_key (spec : TableSpec) (rows : List Row) (v : Row) :
    (rows.find? fun row => sqlMatches spec.primaryKey row v).isSome = rowExists spec rows v :=
  List.isSome_find?

theorem bindsKey_iff (hspec : auth.tableSpecs op.tableName = some spec) :
    auth.BindsKey op ↔ ∀ c ∈ spec.primaryKey, auth.bindable (op.value c) = true := by
  constructor
  · exact fun h => h spec hspec
  · intro h spec' hspec'
    obtain rfl := Option.some.inj (hspec.symm.trans hspec')
    exact h

open Classical in
theorem normalizeOp_eq (hspec : auth.tableSpecs op.tableName = some spec)
    (hv : ∀ c ∈ spec.primaryKey, op.value c ≠ .null ∧ op.value c ≠ .undefined) :
    auth.normalizeOp db op = if op.op = .upsert → auth.BindsKey op then
      .ok (op.normalized (opRowExists auth.tableSpecs db op)) else .error .unbindable := by
  rw [WriteAuthorizer.normalizeOp, Op.normalized]
  cases hop : op.op with
  | insert => rw [if_pos (fun h => by cases h)]
  | update => rw [if_pos (fun h => by cases h)]
  | delete => rw [if_pos (fun h => by cases h)]
  | upsert =>
    simp only [forall_const, getPreMutationRow_eq hspec hv, bindsKey_iff hspec]
    split
    · rw [opRowExists_eq hspec, ← isSome_find?_key]
      cases (db op.tableName).find? fun row => sqlMatches spec.primaryKey row op.value <;> rfl
    · rfl

/-- The row of the op is known by the op's key. -/
def KeyGiven (specs : SourceSpecs) (op : CRUDOp) : Prop :=
  ∃ spec, specs op.tableName = some spec ∧ ∀ c ∈ spec.primaryKey, op.value c ≠ .null ∧ op.value c ≠ .undefined

open Classical in
/-- **Ops are normalized** when the keys of upserts can be looked up. -/
theorem normalizeOps_eq {ops : List CRUDOp} (hkeys : ∀ op ∈ ops, KeyGiven auth.tableSpecs op) :
    auth.normalizeOps db ops = if ∀ op ∈ ops, op.op = .upsert → auth.BindsKey op then
      .ok (ops.map fun op => op.normalized (opRowExists auth.tableSpecs db op)) else .error .unbindable := by
  refine Fallible.mapM_ite fun op hop => ?_
  obtain ⟨spec, hspec, hv⟩ := hkeys op hop
  exact normalizeOp_eq hspec hv

theorem pushOp_ok_iff {op : NormalizedOp} {db' : Database} (hspec : auth.tableSpecs op.tableName = some spec)
    (hv : ∀ c ∈ spec.primaryKey, op.value c ≠ .null ∧ op.value c ≠ .undefined) :
    auth.pushOp db op = .ok db' ↔ (op.op ≠ .insert → ∀ c ∈ spec.primaryKey, auth.bindable (op.value c) = true) ∧
      ∃ rows, pushRows spec (db op.tableName) op.op op.value = .ok rows ∧
        db' = Function.update db op.tableName rows := by
  have htable : auth.tableSpec op.tableName = .ok spec := by rw [WriteAuthorizer.tableSpec, hspec]
  have hpush : auth.pushOp db op = auth.changeOf db op >>= fun change =>
      sourceResult ((sourceOf spec).push (db op.tableName) change) >>= fun rows =>
        pure (Function.update db op.tableName rows) := by
    rw [WriteAuthorizer.pushOp, htable]
    rfl
  have hbound : (auth.changeOf db op >>= fun change => sourceResult ((sourceOf spec).push (db op.tableName) change)) =
      if op.op ≠ .insert → ∀ c ∈ spec.primaryKey, auth.bindable (op.value c) = true then
        pushRows spec (db op.tableName) op.op op.value else .error .unbindable := by
    rw [WriteAuthorizer.changeOf]
    cases hop : op.op with
    | insert =>
      rw [if_pos (fun h => absurd rfl h)]
      rfl
    | update =>
      simp only [WriteAuthorizer.requirePreMutationRow, getPreMutationRow_eq hspec hv, ne_eq, reduceCtorEq,
        not_false_eq_true, forall_const]
      split
      · unfold pushRows
        cases (db op.tableName).find? fun row => sqlMatches spec.primaryKey row op.value <;> rfl
      · rfl
    | delete =>
      simp only [WriteAuthorizer.requirePreMutationRow, getPreMutationRow_eq hspec hv, ne_eq, reduceCtorEq,
        not_false_eq_true, forall_const]
      split
      · unfold pushRows
        cases (db op.tableName).find? fun row => sqlMatches spec.primaryKey row op.value <;> rfl
      · rfl
  rw [hpush, ← bind_assoc, hbound]
  split
  · next hb =>
    constructor
    · intro h
      obtain ⟨rows, hrows, hdb⟩ := Fallible.bind_ok h
      exact ⟨hb, rows, hrows, (Except.ok.inj hdb).symm⟩
    · rintro ⟨_, rows, hrows, rfl⟩
      rw [hrows]
      rfl
  · next hb =>
    exact ⟨(fun h => by cases h), fun h => absurd h.1 hb⟩

/-! ## Runs -/

/-- The defaults of a database as the sources bind them. -/
def pushDefaults (specs : SourceSpecs) : Defaults := fun tableName c =>
  match specs tableName with
  | none => .null
  | some spec => missing spec c

theorem pushDefaults_eq {specs : SourceSpecs} (hspec : specs tableName = some spec) :
    pushDefaults specs tableName = missing spec := by
  funext c
  rw [pushDefaults, hspec]

theorem runOp_eq {specs : SourceSpecs} {defaults : Defaults} (hspec : specs op.tableName = some spec) :
    runOp specs defaults db op = Function.update db op.tableName
      (runOpRows spec (defaults op.tableName) (db op.tableName) op.op op.value) := by
  rw [runOp, hspec]

/-- The sources follow a run with the defaults they bind, which is aligned with
the run of the ops. -/
structure Tracks (specs : SourceSpecs) (s r d : Database) : Prop where
  follows : ∀ table spec, specs table = some spec → Follows spec (s table) (r table)
  valid : ValidDatabase specs r
  aligned : ∀ table spec, specs table = some spec → List.Forall₂ (Aligned spec) (r table) (d table)

section
variable {defaults : Defaults} {s r d s' : Database} {before : Bool}

theorem runOpRows_normalized {rows : List Row} {defaults : String → Value}
    (hturn : op.op = .upsert → rowExists spec rows op.value = before) :
    runOpRows spec defaults rows op.op op.value =
      runOpRows spec defaults rows (op.normalized before).op.toCRUD op.value := by
  rw [Op.normalized]
  cases hop : op.op with
  | upsert =>
    rw [runOpRows, hturn hop]
    cases before <;> rfl
  | _ => rfl

theorem normalized_tableName (op : CRUDOp) (before : Bool) : (op.normalized before).tableName = op.tableName := by
  rw [Op.normalized]
  cases op.op <;> rfl

theorem normalized_value (op : CRUDOp) (before : Bool) : (op.normalized before).value = op.value := by
  rw [Op.normalized]
  cases op.op <;> rfl

theorem op_ne_insert (h : (op.normalized before).op ≠ .insert) : op.op ≠ .insert := by
  intro hop
  rw [Op.normalized, hop] at h
  exact h rfl

theorem Executable.rowExists (h : Executable auth.tableSpecs defaults d op) (hspec : auth.tableSpecs op.tableName = some spec)
    (hturn : op.op = .upsert → ZeroSync.rowExists spec (d op.tableName) op.value = before) :
    ZeroSync.rowExists spec (d op.tableName) op.value = decide ((op.normalized before).op ≠ .insert) := by
  obtain ⟨spec', hspec', -, -, hinsert, hother, -⟩ := h
  obtain rfl := Option.some.inj (hspec.symm.trans hspec')
  rw [Op.normalized]
  cases hop : op.op with
  | insert => exact hinsert hop
  | upsert =>
    rw [hturn hop]
    cases before <;> rfl
  | update => exact hother (.inl hop)
  | delete => exact hother (.inr hop)

theorem Tracks.update {rows : List Row} (h : Tracks auth.tableSpecs s r d) (hspec : auth.tableSpecs op.tableName = some spec)
    (hv : ∀ c ∈ spec.primaryKey, op.value c ≠ .null ∧ op.value c ≠ .undefined)
    (hkeeps : Keeps spec (runOpRows spec (missing spec) (r op.tableName) op.op op.value))
    (hfollows : Follows spec rows (runOpRows spec (missing spec) (r op.tableName) op.op op.value)) :
    Tracks auth.tableSpecs (Function.update s op.tableName rows)
      (runOp auth.tableSpecs (pushDefaults auth.tableSpecs) r op) (runOp auth.tableSpecs defaults d op) := by
  rw [runOp_eq hspec, runOp_eq hspec, pushDefaults_eq hspec]
  refine ⟨fun table spec' hspec' => ?_, fun table spec' hspec' => ?_, fun table spec' hspec' => ?_⟩ <;>
    by_cases ht : table = op.tableName
  · subst ht
    obtain rfl := Option.some.inj (hspec.symm.trans hspec')
    rw [Function.update_self, Function.update_self]
    exact hfollows
  · rw [Function.update_of_ne ht, Function.update_of_ne ht]
    exact h.follows table spec' hspec'
  · subst ht
    obtain rfl := Option.some.inj (hspec.symm.trans hspec')
    rw [Function.update_self]
    exact ⟨hkeeps, runOpRows_stored (h.valid _ _ hspec).2 op.op⟩
  · rw [Function.update_of_ne ht]
    exact h.valid table spec' hspec'
  · subst ht
    obtain rfl := Option.some.inj (hspec.symm.trans hspec')
    rw [Function.update_self, Function.update_self]
    exact runOpRows_aligned (h.aligned _ _ hspec) op.op hv
  · rw [Function.update_of_ne ht, Function.update_of_ne ht]
    exact h.aligned table spec' hspec'

/-- **An op is pushed** when its key can be looked up where that is needed, an
upsert's row is there as it was before the ops, and the op can be run with the
defaults that the sources bind. -/
theorem Tracks.pushOp (h : Tracks auth.tableSpecs s r d) (hd : Executable auth.tableSpecs defaults d op)
    (hbinds : op.op ≠ .insert → auth.BindsKey op)
    (hturn : op.op = .upsert → opRowExists auth.tableSpecs d op = before)
    (hr : Executable auth.tableSpecs (pushDefaults auth.tableSpecs) r op) :
    ∃ s', auth.pushOp s (op.normalized before) = .ok s' ∧ Tracks auth.tableSpecs s'
      (runOp auth.tableSpecs (pushDefaults auth.tableSpecs) r op) (runOp auth.tableSpecs defaults d op) := by
  obtain ⟨spec, hspec, hcols, hv, -, -, hkeeps⟩ := hr
  obtain ⟨hkeepsr, hstored⟩ := h.valid _ _ hspec
  have halign := rowExists_aligned (h.aligned _ _ hspec) op.value
  simp only [opRowExists_eq hspec] at hturn
  have hexists := hd.rowExists hspec hturn
  rw [← halign] at hexists hturn
  rw [runOp_eq hspec, Function.update_self, pushDefaults_eq hspec] at hkeeps
  have hsame : runOpRows spec (missing spec) (r op.tableName) op.op op.value =
      runOpRows spec (missing spec) (r op.tableName) (op.normalized before).op.toCRUD op.value := runOpRows_normalized hturn
  obtain ⟨rows, hrows, hfollows⟩ := (h.follows _ _ hspec).pushRows hkeepsr hstored hv hcols hexists (hsame ▸ hkeeps)
  rw [← hsame] at hfollows
  have hspec' : auth.tableSpecs (op.normalized before).tableName = some spec := by rw [normalized_tableName, hspec]
  refine ⟨_, (pushOp_ok_iff hspec' ?_).mpr ⟨fun hop => ?_, rows, ?_, rfl⟩, ?_⟩
  · rw [normalized_value]
    exact hv
  · rw [normalized_value]
    exact (bindsKey_iff hspec).mp (hbinds (op_ne_insert hop))
  · rw [normalized_tableName, normalized_value]
    exact hrows
  · rw [normalized_tableName]
    exact h.update hspec hv hkeeps hfollows

/-- **An op that is pushed** is one of those. -/
theorem Tracks.of_pushOp (h : Tracks auth.tableSpecs s r d) (hd : Executable auth.tableSpecs defaults d op)
    (hupsert : op.op = .upsert → auth.BindsKey op) (hok : auth.pushOp s (op.normalized before) = .ok s') :
    (op.op ≠ .insert → auth.BindsKey op) ∧ (op.op = .upsert → opRowExists auth.tableSpecs d op = before) ∧
      Executable auth.tableSpecs (pushDefaults auth.tableSpecs) r op := by
  obtain ⟨spec, hspec, hcols, hv, hinsert, hother, hkeeps⟩ := hd
  obtain ⟨hkeepsr, hstored⟩ := h.valid _ _ hspec
  have halign := rowExists_aligned (h.aligned _ _ hspec) op.value
  have hspec' : auth.tableSpecs (op.normalized before).tableName = some spec := by rw [normalized_tableName, hspec]
  obtain ⟨hbound, rows, hrows, rfl⟩ := (pushOp_ok_iff hspec' (by rw [normalized_value]; exact hv)).mp hok
  rw [normalized_tableName, normalized_value] at hrows
  rw [normalized_value] at hbound
  obtain ⟨hexists, hkept⟩ := (h.follows _ _ hspec).of_pushRows hkeepsr hstored hv hcols hrows
  have hturn : op.op = .upsert → rowExists spec (r op.tableName) op.value = before := by
    intro hop
    rw [hexists, Op.normalized, hop]
    cases before <;> rfl
  refine ⟨fun hop => ?_, fun hop => ?_, spec, hspec, hcols, hv, ?_, ?_, ?_⟩
  · by_cases hup : op.op = .upsert
    · exact hupsert hup
    · refine (bindsKey_iff hspec).mpr (hbound ?_)
      rw [Op.normalized]
      cases hk : op.op with
      | insert => exact absurd hk hop
      | upsert => exact absurd hk hup
      | update => exact NormalizedKind.noConfusion
      | delete => exact NormalizedKind.noConfusion
  · rw [opRowExists_eq hspec, ← halign]
    exact hturn hop
  · rw [halign]
    exact hinsert
  · rw [halign]
    exact hother
  · rw [runOp_eq hspec, Function.update_self, pushDefaults_eq hspec]
    by_cases hu : UsesUpdate spec
    · rw [runOpRows_normalized hturn]
      exact hkept hu
    · rw [runOp_eq hspec, Function.update_self] at hkeeps
      have heq : runOpRows spec (missing spec) (r op.tableName) op.op op.value =
          runOpRows spec (defaults op.tableName) (d op.tableName) op.op op.value :=
        eq_of_aligned (runOpRows_aligned (h.aligned _ _ hspec) op.op hv) hu
      rw [heq]
      exact hkeeps

theorem Executable.keyGiven {specs : SourceSpecs} (h : Executable specs defaults d op) : KeyGiven specs op := by
  obtain ⟨spec, hspec, -, hv, -⟩ := h
  exact ⟨spec, hspec, hv⟩

theorem keyGiven_of_always {specs : SourceSpecs} {ops : List CRUDOp}
    (h : Runs.Always (runOp specs defaults) (Executable specs defaults) d ops) : ∀ op ∈ ops, KeyGiven specs op := by
  induction ops generalizing d with
  | nil => exact fun _ hop => by cases hop
  | cons op ops ih => exact List.forall_mem_cons.mpr ⟨h.1.keyGiven, ih h.2⟩

/-- When a batch of ops is simulated: the keys that are looked up can be, an
upsert's row is there at its turn as it was before the batch, and the ops can
be run with the defaults that the sources bind. -/
structure Simulable (auth : WriteAuthorizer) (defaults : Defaults) (before : CRUDOp → Bool) (r d : Database)
    (ops : List CRUDOp) : Prop where
  binds : ∀ op ∈ ops, op.op ≠ .insert → auth.BindsKey op
  turn : Runs.Always (runOp auth.tableSpecs defaults)
    (fun db op => op.op = .upsert → opRowExists auth.tableSpecs db op = before op) d ops
  bound : Runs.Always (runOp auth.tableSpecs (pushDefaults auth.tableSpecs))
    (Executable auth.tableSpecs (pushDefaults auth.tableSpecs)) r ops

variable {before : CRUDOp → Bool} {ops : List CRUDOp}

/-- **All ops are pushed**, and the sources follow them. -/
theorem Tracks.pushOps (h : Tracks auth.tableSpecs s r d)
    (hd : Runs.Always (runOp auth.tableSpecs defaults) (Executable auth.tableSpecs defaults) d ops)
    (hs : Simulable auth defaults before r d ops) :
    ∃ s', auth.pushOps s (ops.map fun op => op.normalized (before op)) = .ok s' ∧ Tracks auth.tableSpecs s'
      (runOps auth.tableSpecs (pushDefaults auth.tableSpecs) r ops) (runOps auth.tableSpecs defaults d ops) := by
  induction ops generalizing s r d with
  | nil => exact ⟨s, rfl, h⟩
  | cons op ops ih =>
    obtain ⟨hbinds, hbindsAll⟩ := List.forall_mem_cons.mp hs.binds
    obtain ⟨s₁, hs₁, h₁⟩ := h.pushOp hd.1 hbinds hs.turn.1 hs.bound.1
    obtain ⟨s', hs', h'⟩ := ih h₁ hd.2 ⟨hbindsAll, hs.turn.2, hs.bound.2⟩
    refine ⟨s', ?_, h'⟩
    rw [WriteAuthorizer.pushOps, List.map_cons, List.foldlM_cons, hs₁]
    exact hs'

/-- **Ops that are pushed** can be simulated. -/
theorem Tracks.of_pushOps (h : Tracks auth.tableSpecs s r d)
    (hd : Runs.Always (runOp auth.tableSpecs defaults) (Executable auth.tableSpecs defaults) d ops)
    (hupsert : ∀ op ∈ ops, op.op = .upsert → auth.BindsKey op)
    (hok : auth.pushOps s (ops.map fun op => op.normalized (before op)) = .ok s') :
    Simulable auth defaults before r d ops := by
  induction ops generalizing s r d with
  | nil => exact ⟨(fun _ hop => by cases hop), trivial, trivial⟩
  | cons op ops ih =>
    obtain ⟨hup, hupAll⟩ := List.forall_mem_cons.mp hupsert
    rw [WriteAuthorizer.pushOps, List.map_cons, List.foldlM_cons] at hok
    obtain ⟨s₁, hs₁, hok⟩ := Fallible.bind_ok hok
    obtain ⟨hbinds, hturn, hr⟩ := h.of_pushOp hd.1 hup hs₁
    obtain ⟨s₂, hs₂, h₂⟩ := h.pushOp hd.1 hbinds hturn hr
    obtain rfl := Except.ok.inj (hs₁.symm.trans hs₂)
    have hrest := ih h₂ hd.2 hupAll hok
    exact ⟨List.forall_mem_cons.mpr ⟨hbinds, hrest.binds⟩, ⟨hturn, hrest.turn⟩, hr, hrest.bound⟩

theorem Tracks.start {specs : SourceSpecs} (h : ValidDatabase specs db) : Tracks specs db db db where
  follows _ _ _ := Follows.refl _ _
  valid := h
  aligned _ _ _ := List.forall₂_same.mpr fun _ _ _ => .inl rfl

theorem SameRows.trans {specs : SourceSpecs} (h : SameRows specs s r) (h' : SameRows specs r d) : SameRows specs s d :=
  fun table spec hspec => (h table spec hspec).trans (h' table spec hspec)

theorem SameRows.symm {specs : SourceSpecs} (h : SameRows specs s r) : SameRows specs r s :=
  fun table spec hspec => (h table spec hspec).symm

theorem Tracks.sameRows {specs : SourceSpecs} (h : Tracks specs s r d) : SameRows specs s r := by
  intro table spec hspec
  obtain ⟨l, hperm, hrel⟩ := (h.follows table spec hspec).alike
  have heq : l.map (selectColumns spec.columns) = (r table).map (selectColumns spec.columns) := by
    rw [← List.forall₂_eq_eq_eq]
    exact List.rel_map (fun a b hab => selectColumns_eq_iff.mpr fun c hc => hab.synced hc) hrel
  rw [← heq]
  exact hperm.map _

end

/-! ## An issue that is written twice -/

/-- Issues, open or not. -/
def issueSpec : TableSpec where
  columns := ["id", "open", "_0_version"]
  primaryKey := ["id"]
  type c := if c = "open" then .boolean else .string
  uniqueKeys := [["id"]]
  minRowVersion := none
  primaryKey_unique := ⟨["id"], by simp, by simp⟩
  primaryKey_nodup := List.nodup_singleton _
  primaryKey_synced := by simp
  version_synced := by simp

/-- The authorizer of the issues; the driver refuses booleans. -/
def issueAuthorizer : WriteAuthorizer where
  tableSpecs table := if table = "issue" then some issueSpec else none
  bindable
    | .bool _ => false
    | _ => true

/-- An op on the issue `a`. -/
def issueOp (op : CRUDKind) (isOpen : Bool) : CRUDOp where
  op := op
  tableName := "issue"
  primaryKey := ["id"]
  value c := if c = "id" then .str "a" else if c = "open" then .bool isOpen else .undefined

/-- No issues. -/
def noIssues : Database := fun _ => []

theorem keeps_singleton {row : Row} (h : ∀ c ∈ spec.primaryKey, row c ≠ .null ∧ row c ≠ .undefined) : Keeps spec [row] :=
  ⟨List.pairwise_singleton _ _, fun _ hx => by rwa [List.mem_singleton.mp hx]⟩

theorem validDatabase_noIssues : ValidDatabase issueAuthorizer.tableSpecs noIssues :=
  fun _ _ _ => ⟨⟨List.Pairwise.nil, fun _ h => by cases h⟩, fun _ h => by cases h⟩

theorem issueOp_columns {op : CRUDKind} {isOpen : Bool} (c : String) (h : (issueOp op isOpen).value c ≠ .undefined) :
    c ∈ issueSpec.columns := by
  by_contra hc
  simp only [issueSpec, List.mem_cons, List.not_mem_nil, or_false, not_or] at hc
  exact h (by rw [issueOp]; simp only [hc, if_false])

theorem issueOp_key {op : CRUDKind} {isOpen : Bool} :
    ∀ c ∈ issueSpec.primaryKey, (issueOp op isOpen).value c ≠ .null ∧ (issueOp op isOpen).value c ≠ .undefined := by
  intro c hc
  obtain rfl := List.mem_singleton.mp hc
  exact ⟨Value.noConfusion, Value.noConfusion⟩

theorem issueOps_executable (defaults : Defaults) {op₁ op₂ : CRUDKind} (h₁ : op₁ = .insert ∨ op₁ = .upsert)
    (h₂ : op₂ = .upsert ∨ op₂ = .update) (isOpen₁ isOpen₂ : Bool) :
    Runs.Always (runOp issueAuthorizer.tableSpecs defaults) (Executable issueAuthorizer.tableSpecs defaults) noIssues
      [issueOp op₁ isOpen₁, issueOp op₂ isOpen₂] := by
  have hspec {op : CRUDKind} {isOpen : Bool} :
      issueAuthorizer.tableSpecs (issueOp op isOpen).tableName = some issueSpec := rfl
  have hfirst : runOp issueAuthorizer.tableSpecs defaults noIssues (issueOp op₁ isOpen₁) "issue" =
      [insertedRow issueSpec (defaults "issue") (issueOp op₁ isOpen₁).value] := by
    rcases h₁ with rfl | rfl <;> rfl
  have hkey {c : String} (hc : c ∈ issueSpec.primaryKey) : insertedRow issueSpec (defaults "issue") (issueOp op₁ isOpen₁).value c =
      (issueOp op₂ isOpen₂).value c := by
    rw [insertedRow_key issueOp_key hc]
    obtain rfl := List.mem_singleton.mp hc
    rfl
  have hmatch : sqlMatches issueSpec.primaryKey (insertedRow issueSpec (defaults "issue") (issueOp op₁ isOpen₁).value)
      (issueOp op₂ isOpen₂).value = true :=
    sqlMatches_iff.mpr fun c hc => by
      rw [hkey hc]
      exact ⟨rfl, (issueOp_key c hc).2, (issueOp_key c hc).1⟩
  have hexists : rowExists issueSpec (runOp issueAuthorizer.tableSpecs defaults noIssues (issueOp op₁ isOpen₁) "issue")
      (issueOp op₂ isOpen₂).value = true := by
    rw [hfirst, rowExists, List.any_cons, hmatch, Bool.true_or]
  have hkeeps : Keeps issueSpec [insertedRow issueSpec (defaults "issue") (issueOp op₁ isOpen₁).value] :=
    keeps_singleton fun c hc => by
      rw [insertedRow_key issueOp_key hc]
      exact issueOp_key c hc
  refine ⟨⟨issueSpec, hspec, issueOp_columns, issueOp_key, fun _ => rfl, fun h => ?_, hfirst ▸ hkeeps⟩,
    ⟨issueSpec, hspec, issueOp_columns, issueOp_key, fun h => ?_, fun _ => hexists, ?_⟩, trivial⟩
  · rcases h₁ with rfl | rfl <;> rcases h with h | h <;> cases h
  · rcases h₂ with rfl | rfl <;> cases h
  · have hrows : runOp issueAuthorizer.tableSpecs defaults
        (runOp issueAuthorizer.tableSpecs defaults noIssues (issueOp op₁ isOpen₁)) (issueOp op₂ isOpen₂) "issue" =
          updateRows issueSpec [insertedRow issueSpec (defaults "issue") (issueOp op₁ isOpen₁).value]
            (issueOp op₂ isOpen₂).value := by
      rw [← hfirst]
      rcases h₂ with rfl | rfl
      · rw [runOp_eq hspec]
        change Function.update _ "issue" _ "issue" = _
        rw [Function.update_self]
        exact if_pos hexists
      · rfl
    change Keeps issueSpec (runOp issueAuthorizer.tableSpecs defaults
      (runOp issueAuthorizer.tableSpecs defaults noIssues (issueOp op₁ isOpen₁)) (issueOp op₂ isOpen₂) "issue")
    rw [hrows, updateRows, List.map_singleton, if_pos hmatch]
    refine keeps_singleton fun c hc => ?_
    rw [assignedRow_key (fun c hc => (hkey hc).symm) hc, hkey hc]
    exact issueOp_key c hc

end ZeroSync
