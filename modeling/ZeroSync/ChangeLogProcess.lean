/-
`SQLiteChangeLogWriter` of `change-streamer/sqlite-change-log-writer.ts`: what writes,
interruptions, purges and reconciliations in any order make of the log, and what is
then read of it (`Reached.read_planned`).

A writer that fails deletes its file: what follows is a run from an empty one. A crash
leaves what an interruption does, and a file that is found corrupt is one that is empty.
-/
import ZeroSync.ChangeLogReads
import ZeroSync.Fallible

namespace ZeroSync.ChangeLogDB

open Fallible

variable {J : Type}

/-- `SQLiteChangeLogWriter`, with the file it writes. -/
structure SQLiteChangeLogWriter (J : Type) where
  writer : ChangeLogStreamWriter := {}
  connection : Connection J := ⟨.empty, none⟩

namespace SQLiteChangeLogWriter

variable (l : SQLiteChangeLogWriter J)

/-- `write`, which fails soft on an error. -/
def write (change : ChangeStreamData J) (nowMs : ℤ) : Except WriteError (SQLiteChangeLogWriter J) := do
  let json := serializeChangeStreamData change
  let (writer, connection) ← match change with
    | .begin _ commitWatermark => l.writer.begin l.connection commitWatermark json
    | .commit _ watermark => l.writer.commit l.connection watermark json nowMs
    | .rollback _ => .ok (ChangeLogStreamWriter.rollback l.connection)
    | .data change => l.writer.append l.connection json change
  return ⟨writer, connection⟩

/-- `abort` -/
def abort : SQLiteChangeLogWriter J :=
  let (writer, connection) := ChangeLogStreamWriter.rollback l.connection
  ⟨writer, connection⟩

/-- `#reconcile`, with a resume point; a file that would be too much work is replaced. -/
def reconcile (anchor : ChangeLogAnchor J) (rebuildInsteadOfUnboundedWork : Bool) :
    Except ReconcileError (SQLiteChangeLogWriter J × ReconcileResult) :=
  if l.connection.inTransaction then .error (.sql .nestedTransaction)
  else
    let reconciled := match reconcileChangeLog l.connection.committed anchor { rebuildInsteadOfUnboundedWork } with
      | .error (.rebuildRequired required) => reconcileChangeLog .empty anchor { reseedReason := some required.reason }
      | reconciled => reconciled
    reconciled.map fun (db, result) => ({ connection := ⟨db, none⟩ }, result)

end SQLiteChangeLogWriter

/-! ## What the log is for -/

/-- A message as it is forwarded. -/
def forwarded (watermark : Watermark) (m : ChangeStreamData J) : WatermarkedChange :=
  ⟨watermark, m.tag, serializeChangeStreamData m⟩

/-- The messages of the transactions of a log, as they were forwarded, and those of the open one. -/
structure LoggedStream (J : Type) where
  committed : List WatermarkedChange := []
  pending : List (ChangeStreamData J) := []

namespace LoggedStream

variable (s : LoggedStream J)

def write (m : ChangeStreamData J) : LoggedStream J :=
  match m with
  | .begin .. => { s with pending := [m] }
  | .data _ => { s with pending := s.pending ++ [m] }
  | .commit _ watermark => { committed := s.committed ++ (s.pending ++ [m]).map (forwarded watermark) }
  | .rollback _ => { committed := s.committed }

/-- The stream goes on after the resume point; a log that is seeded has one transaction, at that point. -/
def resume (anchor : ChangeLogAnchor J) : ReconcileResult → LoggedStream J
  | .reseeded .. =>
    { committed :=
        [ChangeStreamData.begin "\x7b\"tag\":\"begin\"\x7d" anchor.resumeWatermark,
          .commit "\x7b\"tag\":\"commit\"\x7d" anchor.resumeWatermark].map (forwarded (J := J) anchor.resumeWatermark) }
  | _ => { committed := s.committed.filter (·.watermark ≤ anchor.resumeWatermark) }

end LoggedStream

/-- What is done with a log, and the stream that it is to hold. The watermarks of the
stream's transactions increase. -/
inductive Reached : LoggedStream J → SQLiteChangeLogWriter J → Prop
  | empty : Reached {} {}
  | write {s l l' m nowMs} (h : Reached s l) (hwrite : l.write m nowMs = .ok l')
      (hafter : ∀ json watermark, m = .begin json watermark → ∀ x ∈ s.committed, x.watermark < watermark) :
      Reached (s.write m) l'
  | abort {s l} (h : Reached s l) : Reached { committed := s.committed } l.abort
  | purge {s l c opts budgetRows budgetRows' elapsedMs result} (h : Reached s l)
      (hpurge : purgeBatch l.connection budgetRows opts elapsedMs = .ok (c, budgetRows', result)) :
      Reached s { l with connection := c }
  | reconcile {s l l' anchor bounded result} (h : Reached s l) (hreconcile : l.reconcile anchor bounded = .ok (l', result)) :
      Reached (s.resume anchor result) l'

variable {s : LoggedStream J} {l l' : SQLiteChangeLogWriter J} {t : StreamTable} {w : Watermark}

/-! ## The invariant -/

/-- A table has the last of some messages. -/
structure Keeps (t : StreamTable) (committed : List WatermarkedChange) : Prop where
  suffix : t.rows.map StreamRow.entry <:+ committed
  ends : t.Committed
  pos : ∀ r ∈ t.rows, r.pos < maxTableRows

/-- The transaction at `w` has been written up to now, as `rows`. -/
structure Opened (s : LoggedStream J) (l : SQLiteChangeLogWriter J) (w : Watermark) (db : Database J)
    (t t' : StreamTable) (rows : List StreamRow) : Prop where
  stored : l.connection.committed.stream = some t
  working : l.connection.working = some db
  stream : db.stream = some t'
  rows_eq : t'.rows = t.rows ++ rows
  room : t'.rows.length ≤ maxTableRows
  places : rows.map (·.pos) = List.range (l.writer.pos + 1)
  entries : rows.map StreamRow.entry = s.pending.map (forwarded w)
  uncommitted : ∀ r ∈ rows, r.watermark = w ∧ r.tag ≠ .commit
  after : ∀ x ∈ s.committed, x.watermark < w

structure Inv (s : LoggedStream J) (l : SQLiteChangeLogWriter J) : Prop where
  ordered : s.committed.Pairwise (·.watermark ≤ ·.watermark)
  keeps : ∀ t ∈ l.connection.committed.stream, Keeps t s.committed
  idle : l.writer.watermark = none → l.connection.working = none
  opened : ∀ w ∈ l.writer.watermark, ∃ db t t' rows, Opened s l w db t t' rows

@[simp] theorem watermark_entry (r : StreamRow) : r.entry.watermark = r.watermark := by
  unfold StreamRow.entry reconstructWatermarkedChange
  split <;> rfl

@[simp] theorem tag_entry (r : StreamRow) : r.entry.tag = r.tag := by
  unfold StreamRow.entry reconstructWatermarkedChange
  split <;> simp_all

theorem mapError_ok {ε ε' α : Type} {x : Except ε α} {f : ε → ε'} {a : α} (h : x.mapError f = .ok a) : x = .ok a := by
  cases x with
  | error e => cases h
  | ok b => exact congrArg _ (Except.ok.inj h)

theorem withCookies_stream {db db' : Database J} {f : CookieTables J → Option (CookieTables J)}
    (h : db.withCookies f = .ok db') : db'.stream = db.stream := by
  unfold Database.withCookies at h
  split at h
  · split at h
    · exact Except.ok.inj h ▸ rfl
    · cases h
  · cases h

/-- A statement in an open transaction. -/
theorem exec_ok {c c' : Connection J} {db : Database J} {f : Database J → Except SqlError (Database J)}
    (hc : c.working = some db) (h : (c.exec f).mapError WriteError.sql = .ok c') :
    ∃ db', f db = .ok db' ∧ c' = { c with working := some db' } := by
  have h := mapError_ok h
  unfold Connection.exec at h
  rw [hc] at h
  obtain ⟨db', hf, rfl⟩ := map_ok h
  exact ⟨db', hf, rfl⟩

theorem Keeps.lt {committed : List WatermarkedChange} (h : Keeps t committed) (hafter : ∀ x ∈ committed, x.watermark < w) :
    ∀ r ∈ t.rows, r.watermark < w :=
  fun r hr => watermark_entry r ▸ hafter _ (h.suffix.mem (List.mem_map_of_mem hr))

/-- The next row of a transaction. -/
theorem insertRow_next {db db' : Database J} {t' : StreamTable} {rows : List StreamRow} {r : StreamRow}
    (ht : db.stream = some t') (hrows : t'.rows = t.rows ++ rows) (hbelow : ∀ x ∈ t.rows, x.watermark < r.watermark)
    (hplaces : rows.map (·.pos) = List.range r.pos) (hw : ∀ x ∈ rows, x.watermark = r.watermark)
    (h : db.insertRow r = .ok db') :
    ∃ t₁, db'.stream = some t₁ ∧ t₁.rows = t.rows ++ (rows ++ [r]) ∧ t₁.rows.length ≤ maxTableRows := by
  have hlast : ∀ x ∈ t'.rows, x.key < r.key := fun x hx => by
    rcases List.mem_append.mp (hrows ▸ hx) with hx | hx
    · exact Prod.Lex.toLex_lt_toLex.mpr (.inl (hbelow x hx))
    · have hpos : x.pos ∈ List.range r.pos := hplaces ▸ List.mem_map_of_mem hx
      exact Prod.Lex.toLex_lt_toLex.mpr (.inr ⟨hw x hx, List.mem_range.mp hpos⟩)
  obtain ⟨t₁, hinsert, hrows₁⟩ := KeyedTable.insert?_last hlast
  rw [hrows, List.append_assoc] at hrows₁
  unfold Database.insertRow at h
  rw [ht] at h
  dsimp only at h
  split at h
  · cases h
  · next hroom =>
    rw [hinsert] at h
    refine ⟨t₁, Except.ok.inj h ▸ rfl, hrows₁, ?_⟩
    rw [hrows₁, ← List.append_assoc, ← hrows, List.length_append, List.length_singleton]
    omega

/-! ## Writes -/

theorem Inv.begin {json : String} {nowMs : ℤ} (h : Inv s l) (hafter : ∀ x ∈ s.committed, x.watermark < w)
    (hwrite : l.write (.begin json w) nowMs = .ok l') : Inv (s.write (.begin json w)) l' := by
  obtain ⟨⟨writer, c⟩, hbegin, hl'⟩ := bind_ok hwrite
  obtain rfl := Except.ok.inj hl'
  unfold ChangeLogStreamWriter.begin at hbegin
  cases hopen : l.writer.watermark with
  | some opened =>
    rw [hopen] at hbegin
    cases hbegin
  | none =>
    rw [hopen] at hbegin
    obtain ⟨c₁, hbegun, hbegin⟩ := bind_ok hbegin
    obtain ⟨c₂, hexec, hbegin⟩ := bind_ok hbegin
    obtain ⟨rfl, rfl⟩ := Prod.mk.inj (Except.ok.inj hbegin)
    have hbegun := mapError_ok hbegun
    unfold Connection.beginImmediate Connection.inTransaction at hbegun
    rw [h.idle hopen] at hbegun
    obtain rfl := Except.ok.inj hbegun
    obtain ⟨db, hinsert, rfl⟩ := exec_ok rfl hexec
    cases hstored : l.connection.committed.stream with
    | none => simp [Database.insertRow, hstored] at hinsert
    | some t =>
      obtain ⟨t', hstream, hrows, hroom⟩ := insertRow_next hstored (List.append_nil _).symm
        ((h.keeps t hstored).lt hafter) rfl nofun hinsert
      refine ⟨h.ordered, h.keeps, nofun, fun w' hw' => ?_⟩
      obtain rfl := Option.some.inj hw'
      exact ⟨db, t, t', _, hstored, rfl, hstream, hrows, hroom, rfl,
        congrArg (· :: []) (reconstruct_extract (m := .begin json w) rfl),
        List.forall_mem_singleton.mpr ⟨rfl, nofun⟩, hafter⟩

theorem Inv.data {change : DataOrSchemaChange J} {nowMs : ℤ} (h : Inv s l)
    (hwrite : l.write (.data change) nowMs = .ok l') : Inv (s.write (.data change)) l' := by
  obtain ⟨⟨writer, c⟩, happend, hl'⟩ := bind_ok hwrite
  obtain rfl := Except.ok.inj hl'
  unfold ChangeLogStreamWriter.append ChangeLogStreamWriter.requireWatermark at happend
  cases hopen : l.writer.watermark with
  | none =>
    rw [hopen] at happend
    cases happend
  | some w =>
    rw [hopen] at happend
    obtain ⟨db, t, t', rows, ho⟩ := h.opened w hopen
    obtain ⟨_, ⟨⟩, happend⟩ := bind_ok happend
    obtain ⟨c₁, hexec, happend⟩ := bind_ok happend
    obtain ⟨c₂, hexec', happend⟩ := bind_ok happend
    obtain ⟨rfl, rfl⟩ := Prod.mk.inj (Except.ok.inj happend)
    obtain ⟨db₁, hinsert, rfl⟩ := exec_ok ho.working hexec
    obtain ⟨db₂, hcookies, rfl⟩ := exec_ok rfl hexec'
    obtain ⟨t₁, hstream, hrows, hroom⟩ := insertRow_next ho.stream ho.rows_eq ((h.keeps t ho.stored).lt ho.after) ho.places
      (fun r hr => (ho.uncommitted r hr).1) hinsert
    refine ⟨h.ordered, h.keeps, nofun, fun w' hw' => ?_⟩
    obtain rfl := Option.some.inj hw'
    refine ⟨db₂, t, t₁, _, ho.stored, rfl, (withCookies_stream hcookies).trans hstream, hrows, hroom, ?_, ?_, ?_, ho.after⟩
    · rw [List.map_append, ho.places]
      exact List.range_succ.symm
    · rw [List.map_append, ho.entries, LoggedStream.write, List.map_append]
      exact congrArg (_ ++ [·]) (reconstruct_extract (m := .data change) trivial)
    · exact List.forall_mem_append.mpr ⟨ho.uncommitted, List.forall_mem_singleton.mpr ⟨rfl, nofun⟩⟩

theorem pos_lt_length {rows : List StreamRow} {n : ℕ} (h : rows.map (·.pos) = List.range n) {r : StreamRow}
    (hr : r ∈ rows) : r.pos < rows.length := by
  have hlen := congrArg List.length h
  rw [List.length_map, List.length_range] at hlen
  exact hlen ▸ List.mem_range.mp (h ▸ List.mem_map_of_mem hr)

/-- The commit row ends its transaction. -/
theorem committed_concat {t₁ : StreamTable} {rows : List StreamRow} {c : StreamRow} (ht : t.Committed)
    (hrows : t₁.rows = t.rows ++ (rows ++ [c])) (hbelow : ∀ x ∈ t.rows, x.watermark < c.watermark)
    (hplaces : (rows ++ [c]).map (·.pos) = List.range (c.pos + 1)) (huncommitted : ∀ r ∈ rows, r.watermark = c.watermark ∧ r.tag ≠ .commit)
    (hc : c.tag = .commit) : t₁.Committed := by
  have hpos : ∀ r ∈ rows, r.pos < c.pos := fun r hr => by
    rw [List.map_append, List.range_succ] at hplaces
    exact List.mem_range.mp ((List.append_inj' hplaces rfl).1 ▸ List.mem_map_of_mem hr)
  intro r hr
  rw [hrows] at hr ⊢
  simp only [List.mem_append, List.mem_singleton, or_imp, forall_and, forall_eq] at hr ⊢
  rcases hr with hr | hr | rfl
  · rw [ht r hr]
    refine ⟨fun h => ⟨h, fun x hx heq => ?_, fun heq => absurd heq (hbelow r hr).ne'⟩, And.left⟩
    exact absurd ((huncommitted x hx).1.symm.trans heq) (hbelow r hr).ne'
  · obtain ⟨hw, htag⟩ := huncommitted r hr
    exact iff_of_false htag fun h => absurd (h.2.2 hw.symm) (not_le.mpr (hpos r hr))
  · exact iff_of_true hc ⟨fun x hx heq => absurd heq (hbelow x hx).ne, fun x hx _ => (hpos x hx).le, fun _ => le_rfl⟩

theorem Inv.commit {json : String} {nowMs : ℤ} (h : Inv s l) (hwrite : l.write (.commit json w) nowMs = .ok l') :
    Inv (s.write (.commit json w)) l' := by
  obtain ⟨⟨writer, c⟩, hcommit, hl'⟩ := bind_ok hwrite
  obtain rfl := Except.ok.inj hl'
  unfold ChangeLogStreamWriter.commit ChangeLogStreamWriter.requireWatermark at hcommit
  cases hopen : l.writer.watermark with
  | none =>
    rw [hopen] at hcommit
    cases hcommit
  | some precommit =>
    rw [hopen] at hcommit
    obtain ⟨_, ⟨⟩, hcommit⟩ := bind_ok hcommit
    by_cases hw : w = precommit
    swap
    · rw [if_pos hw] at hcommit
      cases hcommit
    subst hw
    rw [if_neg (not_not_intro rfl)] at hcommit
    obtain ⟨c₁, hexec, hcommit⟩ := bind_ok hcommit
    obtain ⟨rfl, rfl⟩ := Prod.mk.inj (Except.ok.inj hcommit)
    obtain ⟨db, t, t', rows, ho⟩ := h.opened w hopen
    obtain ⟨db₁, hinsert, rfl⟩ := exec_ok ho.working hexec
    have hkeeps := h.keeps t ho.stored
    obtain ⟨t₁, hstream, hrows, hroom⟩ := insertRow_next ho.stream ho.rows_eq (hkeeps.lt ho.after) ho.places
      (fun r hr => (ho.uncommitted r hr).1) hinsert
    have hplaces (c : StreamRow) (hc : c.pos = l.writer.pos + 1) :
        (rows ++ [c]).map (·.pos) = List.range (c.pos + 1) := by
      rw [List.map_append, ho.places, hc, List.range_succ (n := l.writer.pos + 1)]
      simp [hc]
    refine ⟨?_, fun t₂ ht₂ => ?_, fun _ => rfl, nofun⟩
    · refine List.pairwise_append.mpr ⟨h.ordered, List.pairwise_map.mpr (List.pairwise_of_forall fun _ _ => le_rfl),
        fun x hx y hy => ?_⟩
      obtain ⟨m, -, rfl⟩ := List.mem_map.mp hy
      exact (ho.after x hx).le
    · obtain rfl := Option.some.inj (hstream.symm.trans ht₂)
      refine ⟨?_, committed_concat hkeeps.ends hrows (hkeeps.lt ho.after) (hplaces _ rfl) ho.uncommitted rfl, ?_⟩
      · obtain ⟨lost, hlost⟩ := hkeeps.suffix
        refine ⟨lost, ?_⟩
        rw [hrows, List.map_append, List.map_append, ho.entries, ← List.append_assoc, hlost, LoggedStream.write,
          List.map_append]
        exact congrArg (fun x => s.committed ++ (_ ++ [x])) (reconstruct_extract (m := .commit json w) rfl)
      · rw [hrows, List.length_append] at hroom
        rw [hrows]
        exact List.forall_mem_append.mpr ⟨hkeeps.pos, fun r hr =>
          (pos_lt_length (hplaces _ rfl) hr).trans_le ((Nat.le_add_left ..).trans hroom)⟩

theorem abort_eq (l : SQLiteChangeLogWriter J) : l.abort = ⟨{}, l.connection.committed, none⟩ := by
  obtain ⟨_, committed, working⟩ := l
  cases working <;> rfl

theorem Inv.abort (h : Inv s l) : Inv { committed := s.committed } l.abort := by
  rw [abort_eq]
  exact ⟨h.ordered, h.keeps, fun _ => rfl, nofun⟩

/-! ## Purges and reconciliations -/

theorem purgeBatch_holds {c : Connection J} {opts : PurgeBatchOptions} {budgetRows : Option ℕ} {elapsedMs : ℚ}
    {r : Connection J × Option ℕ × PurgeBatchResult} (h : purgeBatch c budgetRows opts elapsedMs = .ok r) :
    ∃ t, Holds c t ∧ 1 ≤ opts.maxRows ∧ 0 < opts.maxDurationMs := by
  unfold purgeBatch at h
  by_cases hmax : opts.maxRows = 0
  · rw [if_pos hmax] at h
    cases h
  by_cases hduration : opts.maxDurationMs ≤ 0
  · rw [if_neg hmax, if_pos hduration] at h
    cases h
  rw [if_neg hmax, if_neg hduration] at h
  obtain ⟨c₁, hbegin, h⟩ := bind_ok h
  have hbegin := mapError_ok hbegin
  unfold Connection.beginImmediate at hbegin
  split at hbegin
  · cases hbegin
  · next hidle =>
    obtain rfl := Except.ok.inj hbegin
    cases hstream : c.committed.stream with
    | none =>
      rw [hstream] at h
      cases h
    | some t =>
      exact ⟨t, ⟨by simpa [Connection.inTransaction] using hidle, hstream⟩, Nat.pos_of_ne_zero hmax, not_le.mp hduration⟩

theorem Inv.purge {c : Connection J} {opts : PurgeBatchOptions} {budgetRows budgetRows' : Option ℕ} {elapsedMs : ℚ}
    {result : PurgeBatchResult} (h : Inv s l)
    (hpurge : purgeBatch l.connection budgetRows opts elapsedMs = .ok (c, budgetRows', result)) :
    Inv s { l with connection := c } := by
  obtain ⟨t, hholds, hmax, hduration⟩ := purgeBatch_holds hpurge
  have hkeeps := h.keeps t hholds.2
  obtain ⟨_, _, _, hok, ⟨hworking, hstream⟩, hbatch, -⟩ := purgeBatch_ok hholds hkeeps.ends hmax hduration budgetRows elapsedMs
  obtain ⟨rfl, rfl, rfl⟩ : c = _ ∧ budgetRows' = _ ∧ result = _ := by simpa using hpurge.symm.trans hok
  have hsuffix := hbatch.purges.suffix
  refine ⟨h.ordered, fun t' ht' => ?_, fun _ => hworking, fun w hw => ?_⟩
  · obtain rfl := Option.some.inj (hstream.symm.trans ht')
    exact ⟨(hsuffix.map _).trans hkeeps.suffix, hkeeps.ends.suffix hsuffix, fun r hr => hkeeps.pos r (hsuffix.mem hr)⟩
  · obtain ⟨db, _, _, _, ho⟩ := h.opened w hw
    cases hholds.1.symm.trans ho.working

theorem keeps_seed (anchor : ChangeLogAnchor J) (s : LoggedStream J) (head : Watermark) (reason : ReseedReason) :
    Keeps (seedChangeLogStream .empty anchor) (s.resume anchor (.reseeded head reason)).committed := by
  obtain ⟨t, hbegin, ht⟩ := KeyedTable.insert?_last (t := (.empty : StreamTable))
    (r := streamRow anchor.resumeWatermark 0 .begin "\x7b\"tag\":\"begin\"\x7d") nofun
  obtain ⟨t', hcommit, ht'⟩ := KeyedTable.insert?_last (t := t)
    (r := commitRow anchor.resumeWatermark 1 "\x7b\"tag\":\"commit\"\x7d" anchor.nowMs) (fun x hx => by
      obtain rfl := List.mem_singleton.mp (ht ▸ hx)
      exact Prod.Lex.toLex_lt_toLex.mpr (.inr ⟨rfl, Nat.one_pos⟩))
  have hseed : seedChangeLogStream .empty anchor = t' := by
    unfold seedChangeLogStream
    dsimp only
    rw [hbegin, Option.getD_some, hcommit, Option.getD_some]
  rw [ht] at ht'
  rw [hseed]
  refine ⟨by rw [ht']; exact List.suffix_rfl, ?_, ?_⟩
  · exact @committed_concat .empty t' [_] _ nofun ht' nofun rfl (List.forall_mem_singleton.mpr ⟨rfl, nofun⟩) rfl
  · have hroom : 1 < maxTableRows := by decide
    rw [ht']
    exact List.forall_mem_cons.mpr ⟨Nat.zero_lt_of_lt hroom, List.forall_mem_singleton.mpr hroom⟩

theorem Keeps.truncate {committed : List WatermarkedChange} {t' : StreamTable} (h : Keeps t committed)
    (ht' : t'.rows = t.rows.filter (·.watermark ≤ w)) : Keeps t' (committed.filter (·.watermark ≤ w)) := by
  have hmem (r : StreamRow) : r ∈ t'.rows ↔ r ∈ t.rows ∧ r.watermark ≤ w := by simp [ht']
  refine ⟨?_, fun r hr => ?_, fun r hr => h.pos r ((hmem r).mp hr).1⟩
  · have hfilter : t'.rows.map StreamRow.entry = (t.rows.map StreamRow.entry).filter (·.watermark ≤ w) := by
      simp [ht', List.filter_map, Function.comp_def]
    exact hfilter ▸ h.suffix.filter _
  · obtain ⟨hr, hle⟩ := (hmem r).mp hr
    rw [h.ends r hr]
    exact ⟨fun hlast x hx => hlast x ((hmem x).mp hx).1, fun hlast x hx heq => hlast x ((hmem x).mpr ⟨hx, heq ▸ hle⟩) heq⟩

theorem Inv.reseed {anchor : ChangeLogAnchor J} {reason : ReseedReason} {db : Database J} {result : ReconcileResult}
    (s : LoggedStream J) (h : ChangeLogDB.reseed anchor reason = .ok (db, result)) :
    Inv (s.resume anchor result) { connection := ⟨db, none⟩ } := by
  obtain ⟨db, hcookies, heq⟩ := map_ok h
  obtain ⟨rfl, rfl⟩ := Prod.mk.inj heq
  refine ⟨?_, fun t ht => ?_, fun _ => rfl, nofun⟩
  · exact List.pairwise_pair.mpr le_rfl
  · obtain rfl := Option.some.inj ((withCookies_stream hcookies).symm.trans ht)
    exact keeps_seed ..

/-- A log that ends at a watermark once it is truncated. -/
theorem rows_truncated {t' : StreamTable}
    (ht' : (if (readChangeLogHead t).any (w < ·) then t.deleteWhere (w < ·.watermark) else t) = t')
    (hhead : readChangeLogHead t' = some w) : t'.rows = t.rows.filter (·.watermark ≤ w) := by
  split at ht'
  · rw [← ht']
    exact List.filter_congr fun r _ => by rw [← decide_not, decide_eq_decide, not_lt]
  · subst ht'
    exact (List.filter_eq_self.mpr fun r hr => decide_eq_true ((StreamTable.readChangeLogHead_eq_some.mp hhead).2 r hr)).symm

theorem Inv.reconcileInPlace {anchor : ChangeLogAnchor J} {db : Database J} {result : ReconcileResult} (h : Inv s l)
    (hreconcile : ChangeLogDB.reconcile l.connection.committed anchor = .ok (db, result)) :
    Inv (s.resume anchor result) { connection := ⟨db, none⟩ } := by
  unfold ChangeLogDB.reconcile at hreconcile
  split at hreconcile
  · exact .reseed s hreconcile
  split at hreconcile
  · cases hreconcile
  next t ht =>
  dsimp only at hreconcile
  generalize ht' : (if (readChangeLogHead t).any (anchor.resumeWatermark < ·) then
    t.deleteWhere (anchor.resumeWatermark < ·.watermark) else t) = t' at hreconcile
  by_cases hhead : readChangeLogHead t' = some anchor.resumeWatermark
  swap
  · rw [if_pos hhead] at hreconcile
    exact .reseed s hreconcile
  rw [if_neg (not_not_intro hhead)] at hreconcile
  have hkeeps := (h.keeps t ht).truncate (rows_truncated ht' hhead)
  have hordered := h.ordered.filter (·.watermark ≤ anchor.resumeWatermark)
  split at hreconcile
  · obtain ⟨db, hcookies, heq⟩ := map_ok hreconcile
    obtain ⟨rfl, rfl⟩ := Prod.mk.inj heq
    refine ⟨hordered, fun t₁ ht₁ => ?_, fun _ => rfl, nofun⟩
    obtain rfl := Option.some.inj ((withCookies_stream hcookies).symm.trans ht₁)
    exact hkeeps
  · obtain ⟨rfl, rfl⟩ := Prod.mk.inj (Except.ok.inj hreconcile)
    refine ⟨hordered, fun t₁ ht₁ => ?_, fun _ => rfl, nofun⟩
    obtain rfl := Option.some.inj ht₁
    exact hkeeps

theorem reconcileChangeLog_ok {db : Database J} {anchor : ChangeLogAnchor J} {bounded : Bool}
    {r : Database J × ReconcileResult}
    (h : reconcileChangeLog db anchor { rebuildInsteadOfUnboundedWork := bounded } = .ok r) : reconcile db anchor = .ok r := by
  cases bounded with
  | false => exact mapError_ok h
  | true =>
    unfold reconcileChangeLog at h
    cases hrequired : rebuildRequired db anchor with
    | error e =>
      rw [hrequired] at h
      cases h
    | ok required =>
      rw [hrequired] at h
      cases required with
      | none => exact mapError_ok h
      | some required => cases h

theorem Inv.reconcile {anchor : ChangeLogAnchor J} {bounded : Bool} {result : ReconcileResult} (h : Inv s l)
    (hreconcile : l.reconcile anchor bounded = .ok (l', result)) : Inv (s.resume anchor result) l' := by
  unfold SQLiteChangeLogWriter.reconcile at hreconcile
  split at hreconcile
  · cases hreconcile
  obtain ⟨⟨db, result⟩, hdb, heq⟩ := map_ok hreconcile
  obtain ⟨rfl, rfl⟩ := Prod.mk.inj heq
  split at hdb
  · exact .reseed s (mapError_ok hdb)
  · exact h.reconcileInPlace (reconcileChangeLog_ok hdb)

theorem Reached.inv (h : Reached s l) : Inv s l := by
  induction h with
  | empty => exact ⟨.nil, nofun, fun _ => rfl, nofun⟩
  | @write s l l' m nowMs h hwrite hafter ih =>
    cases m with
    | begin json watermark => exact ih.begin (hafter json watermark rfl) hwrite
    | data change => exact ih.data hwrite
    | commit json watermark => exact ih.commit hwrite
    | rollback json =>
      obtain rfl := Except.ok.inj hwrite
      exact ih.abort
  | abort h ih => exact ih.abort
  | purge h hpurge ih => exact ih.purge hpurge
  | reconcile h hreconcile ih => exact ih.reconcile hreconcile

/-! ## Reads -/

theorem plan_range {minWatermark head : Watermark} (h : plan (some t) w = .range minWatermark head) :
    readChangeLogHead t = some head ∧ ∃ r ∈ t.rows, r.watermark = w ∧ r.tag = .commit := by
  unfold plan at h
  dsimp only at h
  split at h
  · next head' min' hhead hmin =>
    split at h
    · cases h
    split at h
    · cases h
    next hboundary =>
    obtain ⟨rfl, rfl⟩ := CatchupPlan.range.inj h
    have hboundary : boundaryExists t w = true := by
      rw [Bool.or_eq_true_iff, not_or, Bool.not_eq_true', Bool.not_eq_false] at hboundary
      exact hboundary.2
    unfold boundaryExists at hboundary
    split at hboundary
    · next r hr =>
      obtain ⟨hmem, hrw⟩ := List.mem_filter.mp (List.mem_of_getLast? hr)
      exact ⟨hhead, r, hmem, of_decide_eq_true hrw, by simpa using (Bool.and_eq_true_iff.mp hboundary).2⟩
    · cases hboundary
  · cases h

/-- The rows after a watermark are all that is committed after it, if the table has rows at it. -/
theorem Keeps.filter_entry {committed : List WatermarkedChange} (h : Keeps t committed)
    (hordered : committed.Pairwise (·.watermark ≤ ·.watermark)) (hr : ∃ r ∈ t.rows, r.watermark = w) :
    (t.rows.filter (w < ·.watermark)).map StreamRow.entry = committed.filter (w < ·.watermark) := by
  obtain ⟨lost, rfl⟩ := h.suffix
  obtain ⟨r, hr, rfl⟩ := hr
  have hlost : lost.filter (r.watermark < ·.watermark) = [] := List.filter_eq_nil_iff.mpr fun x hx => by
    simpa using (List.pairwise_append.mp hordered).2.2 x hx r.entry (List.mem_map_of_mem hr)
  rw [List.filter_append, hlost, List.nil_append, List.filter_map]
  simp [Function.comp_def]

/-- The last row is the commit row of the head. -/
theorem Keeps.last {committed : List WatermarkedChange} {head : Watermark} (h : Keeps t committed)
    (hhead : readChangeLogHead t = some head) : ∃ init last, t.rows = init ++ [last] ∧ last.watermark = head ∧ last.tag = .commit := by
  obtain ⟨⟨r, hr, rfl⟩, hle⟩ := StreamTable.readChangeLogHead_eq_some.mp hhead
  obtain ⟨init, last, hrows⟩ := (List.eq_nil_or_concat' t.rows).resolve_left (List.ne_nil_of_mem hr)
  have hlast : last ∈ t.rows := hrows ▸ by simp
  have hbefore (x : StreamRow) (hx : x ∈ t.rows) : x.watermark < last.watermark ∨ x.watermark = last.watermark ∧ x.pos ≤ last.pos := by
    have hsorted := t.sorted
    rw [hrows] at hx hsorted
    rcases List.mem_append.mp hx with hx | hx
    · have hlt := (List.pairwise_append.mp hsorted).2.2 x hx last List.mem_cons_self
      exact (Prod.Lex.toLex_lt_toLex.mp hlt).imp_right fun h => ⟨h.1, h.2.le⟩
    · exact .inr (List.mem_singleton.mp hx ▸ ⟨rfl, le_rfl⟩)
  refine ⟨init, last, hrows, le_antisymm (hle last hlast) ?_, (h.ends last hlast).mpr fun x hx heq => ?_⟩
  · exact (hbefore r hr).elim le_of_lt fun h => h.1.le
  · exact (hbefore x hx).elim (absurd heq ·.ne) And.right

/-- **The log serves no gap**: after writes, interruptions, purges and reconciliations in
any order, a range that is planned from `w` is read, in batches of any size, as the
messages that were forwarded after `w`, each once and in order, whatever is purged up to
`w` or written above the planned head in the meantime. -/
theorem Reached.read_planned {minWatermark head : Watermark} {batchSize : ℕ} {tables : List StreamTable} (h : Reached s l)
    (ht : l.connection.committed.stream = some t) (hplan : plan (some t) w = .range minWatermark head)
    (hbatch : 0 < batchSize) (hlong : t.rows.length < tables.length)
    (htables : ∀ t' ∈ tables, t'.between (toLex (w, maxSafeInteger)) head = t.between (toLex (w, maxSafeInteger)) head) :
    (∃ x ∈ s.committed, x.watermark = w ∧ x.tag = .commit) ∧ (∀ x ∈ s.committed, x.watermark ≤ head) ∧
      ∃ batches, read w head batchSize none tables = some (batches, .ok ()) ∧
        batches.flatten = s.committed.filter (w < ·.watermark) ∧
        ∀ batch ∈ batches, batch ≠ [] ∧ batch.length ≤ batchSize := by
  obtain ⟨hhead, r, hr, hrw, htag⟩ := plan_range hplan
  have hkeeps := h.inv.keeps t ht
  have hordered := h.inv.ordered
  have hle := (StreamTable.readChangeLogHead_eq_some.mp hhead).2
  have hbetween : t.between (toLex (w, maxSafeInteger)) head = t.rows.filter (w < ·.watermark) := by
    refine List.filter_congr fun x hx => ?_
    have hpos : x.pos < maxSafeInteger := (hkeeps.pos x hx).trans (by decide)
    rw [decide_eq_true (hle x hx), Bool.and_true, decide_eq_decide]
    exact ⟨fun hlt => (Prod.Lex.toLex_lt_toLex.mp hlt).resolve_right fun h => absurd h.2 (not_lt.mpr hpos.le),
      fun hlt => Prod.Lex.toLex_lt_toLex.mpr (.inl hlt)⟩
  refine ⟨⟨r.entry, hkeeps.suffix.mem (List.mem_map_of_mem hr), by simpa using ⟨hrw, htag⟩⟩, fun x hx => ?_, ?_⟩
  · obtain ⟨lost, hlost⟩ := hkeeps.suffix
    rw [← hlost] at hx hordered
    rcases List.mem_append.mp hx with hx | hx
    · exact ((List.pairwise_append.mp hordered).2.2 x hx _ (List.mem_map_of_mem hr)).trans (by simpa using hle r hr)
    · obtain ⟨y, hy, rfl⟩ := List.mem_map.mp hx
      simpa using hle y hy
  · obtain ⟨s', hloop, ⟨batches, hbatches, hflatten, hsizes⟩, hwatermark, htag⟩ :=
      @readLoop_reads head batchSize hbatch tables ⟨w, maxSafeInteger, none, 0, []⟩ (t.rows.filter (w < ·.watermark))
        (fun t' ht' => (htables t' ht').trans hbetween) ((List.length_filter_le ..).trans_lt hlong)
    refine ⟨batches, ?_, hflatten.trans (hkeeps.filter_entry hordered ⟨r, hr, hrw⟩), hsizes⟩
    have hcomplete (hne : w ≠ head) : s'.lastWatermark = head ∧ s'.lastTag = some .commit := by
      obtain ⟨init, last, hrows, hlast, hcommit⟩ := hkeeps.last hhead
      have hlt : w < last.watermark := hlast ▸ lt_of_le_of_ne (hrw ▸ hle r hr) hne
      rw [hwatermark, htag, hrows, List.filter_append, List.filter_singleton, decide_eq_true hlt]
      simp [hlast, hcommit]
    unfold read
    rw [if_neg hbatch.ne', if_neg nofun, hloop, Option.map_some, hbatches, List.nil_append]
    exact congrArg some (if_neg fun ⟨hne, _, hshort⟩ => hshort (hcomplete hne))

/-- A log is seeded at "00" and holds one transaction more. -/
theorem read_planned_seeded : ∃ s : LoggedStream ℕ, ∃ l t batches,
    Reached s l ∧ l.connection.committed.stream = some t ∧
      read ⟨"00", by decide⟩ ⟨"01", by decide⟩ 1 none (List.replicate 5 t) = some (batches, .ok ()) ∧
      batches.flatten = [ChangeStreamData.begin "\x7b\x7d" ⟨"01", by decide⟩, .commit "\x7b\x7d" ⟨"01", by decide⟩].map
        (forwarded (J := ℕ) ⟨"01", by decide⟩) := by
  have hseeded := @Reached.reconcile ℕ _ _ _
    { resumeWatermark := ⟨"00", by decide⟩, cookies := ⟨[], []⟩, identity := ⟨none, "00", none⟩, nowMs := 0 } true _ .empty rfl
  have hbegun := @Reached.write ℕ _ _ _ (.begin "\x7b\x7d" ⟨"01", by decide⟩) 0 hseeded rfl (by
    rintro _ _ ⟨⟩
    decide +kernel)
  have hcommitted := @Reached.write ℕ _ _ _ (.commit "\x7b\x7d" ⟨"01", by decide⟩) 0 hbegun rfl nofun
  obtain ⟨-, -, batches, hread, hflatten, -⟩ := @Reached.read_planned ℕ _ _ _ ⟨"00", by decide⟩ ⟨"00", by decide⟩ ⟨"01", by decide⟩ 1
    (List.replicate 5 _) hcommitted rfl (by decide +kernel) Nat.one_pos (by decide +kernel)
    fun t ht => congrArg (StreamTable.between · _ _) (List.eq_of_mem_replicate ht)
  exact ⟨_, _, _, batches, hcommitted, rfl, hread, hflatten.trans (by decide +kernel)⟩

end ZeroSync.ChangeLogDB
