/-
What `SQLiteChangeLogReader.read` yields: the rows after one watermark and up to
another, each once and in order, whatever is purged up to the first or appended above
the second while it waits for its consumer between two batches.
-/
import ZeroSync.ChangeLogPurge

namespace ZeroSync.ChangeLogDB

/-- A row as it is read. -/
def StreamRow.entry (r : StreamRow) : WatermarkedChange := reconstructWatermarkedChange r.watermark r.tag r.change

/-- The rows after a position and up to a watermark. -/
def StreamTable.between (t : StreamTable) (after : Watermark ×ₗ ℕ) (through : Watermark) : List StreamRow :=
  t.rows.filter fun r => after < r.key && r.watermark ≤ through

variable {t : StreamTable} {through : Watermark} {batchSize : ℕ}

/-- What comes after the last of the first rows are the others. -/
theorem StreamTable.between_last {after : Watermark ×ₗ ℕ} {rows rest : List StreamRow} {last : StreamRow}
    (h : t.between after through = rows ++ rest) (hlast : rows.getLast? = some last) :
    t.between last.key through = rest := by
  obtain ⟨init, rfl⟩ := List.getLast?_eq_some_iff.mp hlast
  have hsorted : (init ++ [last] ++ rest).Pairwise fun a b => a.key < b.key := h ▸ t.sorted.filter _
  have hmem : last ∈ t.between after through := h ▸ by simp
  have hafter : after < last.key := of_decide_eq_true (Bool.and_eq_true_iff.mp (List.mem_filter.mp hmem).2).1
  have hbetween : t.between last.key through = (t.between after through).filter (last.key < ·.key) := by
    rw [between, between, List.filter_filter]
    refine List.filter_congr fun r _ => ?_
    by_cases hr : last.key < r.key <;> simp [hr, hafter.trans]
  obtain ⟨hrows, -, hrest⟩ := List.pairwise_append.mp hsorted
  have hbefore : (init ++ [last]).filter (last.key < ·.key) = [] := by
    refine List.filter_eq_nil_iff.mpr fun r hr => ?_
    rcases List.mem_append.mp hr with hr | hr
    · simpa using ((List.pairwise_append.mp hrows).2.2 r hr last List.mem_cons_self).le
    · simp [List.mem_singleton.mp hr]
  rw [hbetween, h, List.filter_append, hbefore, List.nil_append, List.filter_eq_self]
  exact fun r hr => decide_eq_true (hrest last (by simp) r hr)

/-- The state after a batch that ends with `last`. -/
def ReadState.after (s : ReadState) (rows : List StreamRow) (last : StreamRow) : ReadState :=
  ⟨last.watermark, last.pos, some last.tag, s.rowsRead + rows.length, s.batches ++ [rows.map StreamRow.entry]⟩

/-- A turn reads the first of the rows that are left. -/
theorem readTurn_eq (hbatch : 0 < batchSize) {s : ReadState} {rest : List StreamRow}
    (h : t.between (toLex (s.lastWatermark, s.lastPos)) through = rest) :
    readTurn t through batchSize none s = (rest.take batchSize).getLast?.map (s.after (rest.take batchSize)) := by
  have hrows : readBatch t s.lastWatermark s.lastPos through batchSize = rest.take batchSize := h ▸ rfl
  unfold readTurn
  dsimp only
  rw [if_neg hbatch.ne', Nat.min_self, hrows]
  cases (rest.take batchSize).getLast? <;> rfl

/-- From `s` to `s'`, some rows have been read. -/
structure ReadState.Reads (batchSize : ℕ) (s s' : ReadState) (rows : List StreamRow) : Prop where
  batches : ∃ batches, s'.batches = s.batches ++ batches ∧ batches.flatten = rows.map StreamRow.entry ∧
    ∀ batch ∈ batches, batch ≠ [] ∧ batch.length ≤ batchSize
  last : s'.lastWatermark = (rows.getLast?.map (·.watermark)).getD s.lastWatermark
  lastTag : s'.lastTag = (rows.getLast?.map (·.tag)).or s.lastTag

theorem ReadState.Reads.cons {s s' : ReadState} {rows rest : List StreamRow} {last : StreamRow}
    (hlast : rows.getLast? = some last) (hsize : rows.length ≤ batchSize)
    (h : Reads batchSize (s.after rows last) s' rest) : Reads batchSize s s' (rows ++ rest) := by
  obtain ⟨⟨batches, hbatches, hflatten, hsizes⟩, hwatermark, htag⟩ := h
  refine ⟨⟨rows.map StreamRow.entry :: batches, ?_, ?_, ?_⟩, ?_, ?_⟩
  · rw [hbatches, after, List.append_assoc, List.singleton_append]
  · rw [List.flatten_cons, hflatten, List.map_append]
  · refine List.forall_mem_cons.mpr ⟨⟨fun hnil => ?_, by rwa [List.length_map]⟩, hsizes⟩
    rw [List.map_eq_nil_iff.mp hnil] at hlast
    cases hlast
  · rw [hwatermark, List.getLast?_append, hlast]
    cases rest.getLast? <;> rfl
  · rw [htag, List.getLast?_append, hlast]
    cases rest.getLast? <;> rfl

/-- The loop reads all rows that are left, if every table it meets has the same. -/
theorem readLoop_reads (hbatch : 0 < batchSize) {tables : List StreamTable} {s : ReadState} {rest : List StreamRow}
    (hrest : ∀ t ∈ tables, t.between (toLex (s.lastWatermark, s.lastPos)) through = rest)
    (hlong : rest.length < tables.length) :
    ∃ s', readLoop through batchSize none tables s = some s' ∧ ReadState.Reads batchSize s s' rest := by
  induction tables generalizing s rest with
  | nil => cases hlong
  | cons t tables ih =>
    rw [readLoop, readTurn_eq hbatch (hrest t List.mem_cons_self)]
    cases hlast : (rest.take batchSize).getLast? with
    | none =>
      obtain rfl : rest = [] := (List.take_eq_nil_iff.mp (List.getLast?_eq_none_iff.mp hlast)).resolve_left hbatch.ne'
      exact ⟨s, rfl, ⟨[], by simp⟩, rfl, rfl⟩
    | some last =>
      have hpos := List.length_pos_of_mem (List.mem_of_getLast? hlast)
      have hsplit := List.take_append_drop batchSize rest
      obtain ⟨s', hs', hreads⟩ := @ih (s.after (rest.take batchSize) last) (rest.drop batchSize)
        (fun t ht => StreamTable.between_last ((hrest t (List.mem_cons_of_mem _ ht)).trans hsplit.symm) hlast)
        (by simp only [List.length_take, List.length_drop, List.length_cons] at hpos hlong ⊢; omega)
      exact ⟨s', hs', hsplit ▸ hreads.cons hlast (List.length_take_le ..)⟩

end ZeroSync.ChangeLogDB
