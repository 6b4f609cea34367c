/-
The catchup of a subscriber makes no gap in its history, unless the subscriber is at the
replica version and transactions have been purged: such a subscriber is never rejected.

The log keeps whole transactions, all from one on, of those committed since the replica
version (`Kept`).
-/
import ZeroSync.StorerCatchup
import ZeroSync.RetainedLog
import Mathlib.Data.List.Induction

namespace ZeroSync

namespace CommittedTx

theorem watermark_of_mem_rows {tx : CommittedTx} {row : ChangeLogRow} (h : row ∈ tx.rows) :
    row.watermark = tx.watermark := by
  obtain ⟨⟨change, pos⟩, -, rfl⟩ := List.mem_map.mp h
  rfl

/-- How the log keeps transactions. -/
def format : RowFormat String CommittedTx ChangeLogRow where
  label := (·.watermark)
  items := rows
  labelOf := (·.watermark)
  posOf := (·.pos)
  labelled := fun _ _ h => watermark_of_mem_rows h
  placed := by
    intro tx i row h
    rw [rows, List.getElem?_map, List.getElem?_zipIdx] at h
    cases hchange : tx.changes[i]? with
    | none => simp [hchange] at h
    | some change =>
      rw [hchange] at h
      obtain rfl := Option.some.inj h
      exact Nat.zero_add i
  nonempty := fun tx h => tx.nonempty (List.zipIdx_eq_nil_iff.mp (List.map_eq_nil_iff.mp h))

end CommittedTx

open CommittedTx (format)

/-! ## What the log keeps -/

/-- The transactions from the replica version on, in the order of the stream. -/
def History (replicaVersion : String) (events : List ChangeDBEvent) : Prop :=
  format.Increasing (CommittedTx.initial replicaVersion :: committedBy events)

/-- A log that keeps the transactions of a history from one on. -/
structure Kept (db : ChangeDB) (history lost kept : List CommittedTx) : Prop where
  history : history = lost ++ kept
  rows : db.changeLog = format.rows kept
  last : kept.getLast?.map (·.watermark) = some db.lastWatermark

variable {replicaVersion : String} {events : List ChangeDBEvent} {db : ChangeDB} {history lost kept : List CommittedTx}

theorem Kept.ne_nil (h : Kept db history lost kept) : kept ≠ [] := by
  rintro rfl
  cases h.last

theorem Kept.increasing (h : Kept db history lost kept) (hinc : format.Increasing history) : format.Increasing kept := by
  rw [h.history] at hinc
  exact hinc.sublist (List.sublist_append_right _ _)

theorem Kept.le_last (h : Kept db history lost kept) (hinc : format.Increasing history) {tx : CommittedTx}
    (htx : tx ∈ kept) : tx.watermark ≤ db.lastWatermark := by
  obtain ⟨last, hlast, hwatermark⟩ := Option.map_eq_some_iff.mp h.last
  have hsplit := List.dropLast_append_getLast? last hlast
  have hkept := h.increasing hinc
  rw [← hsplit] at hkept htx
  rw [← hwatermark]
  rcases List.mem_append.mp htx with hin | hin
  · exact ((List.pairwise_append.mp hkept).2.2 tx hin last (List.mem_singleton_self _)).le
  · rw [List.mem_singleton.mp hin]

theorem Kept.exists_last (h : Kept db history lost kept) : ∃ tx ∈ kept, tx.watermark = db.lastWatermark := by
  obtain ⟨last, hlast, hwatermark⟩ := Option.map_eq_some_iff.mp h.last
  exact ⟨last, List.mem_of_getLast? hlast, hwatermark⟩

theorem exists_mem_rows (tx : CommittedTx) : ∃ row ∈ tx.rows, row.watermark = tx.watermark := by
  obtain ⟨row, hrow⟩ := List.exists_mem_of_ne_nil _ (format.nonempty tx)
  exact ⟨row, hrow, CommittedTx.watermark_of_mem_rows hrow⟩

theorem Kept.keep_eq (h : Kept db history lost kept) (hinc : format.Increasing history) :
    db.keep = some db.lastWatermark := by
  refine List.max?_eq_some_iff.mpr ⟨?_, fun watermark hin => ?_⟩
  · obtain ⟨tx, htx, hwatermark⟩ := h.exists_last
    obtain ⟨row, hrow, heq⟩ := exists_mem_rows tx
    refine List.mem_map.mpr ⟨row, ?_, heq.trans hwatermark⟩
    rw [h.rows]
    exact RowFormat.mem_rows.mpr ⟨tx, htx, hrow⟩
  · obtain ⟨row, hrow, rfl⟩ := List.mem_map.mp hin
    rw [h.rows] at hrow
    obtain ⟨tx, htx, hrow⟩ := RowFormat.mem_rows.mp hrow
    rw [CommittedTx.watermark_of_mem_rows hrow]
    exact h.le_last hinc htx

theorem kept_start (replicaVersion : String) :
    Kept (ChangeDB.ensureReplicationConfig replicaVersion) [CommittedTx.initial replicaVersion] []
      [CommittedTx.initial replicaVersion] := ⟨rfl, rfl, rfl⟩

theorem Kept.commit (h : Kept db history lost kept) (tx : CommittedTx) :
    Kept (db.commit tx) (history ++ [tx]) lost (kept ++ [tx]) := by
  refine ⟨by rw [h.history, List.append_assoc], ?_, ?_⟩
  · rw [RowFormat.rows_append]
    simp [ChangeDB.commit, h.rows, RowFormat.rows, format]
  · rw [List.getLast?_concat]
    rfl

theorem Kept.purge (h : Kept db history lost kept) (hinc : format.Increasing history) (watermark : String) :
    ∃ lost kept, Kept (db.purgeRecordsBefore watermark) history lost kept := by
  let keeps (w : String) : Bool := !(w < watermark ∧ w < db.lastWatermark)
  have hkeeps (a b : String) (hab : a < b) (ha : keeps a) : keeps b := by
    simp only [keeps, Bool.not_eq_true', decide_eq_false_iff_not, not_and_or, not_lt] at ha ⊢
    exact ha.imp (fun hle => hle.trans hab.le) fun hle => hle.trans hab.le
  have hcut := (h.increasing hinc).cut_upward keeps hkeeps
  obtain ⟨last, hlast, hwatermark⟩ := h.exists_last
  have hmem : last ∈ kept.filter fun tx => keeps (format.label tx) := by
    refine List.mem_filter.mpr ⟨hlast, ?_⟩
    change keeps last.watermark
    have hnot : ¬ (db.lastWatermark < watermark ∧ db.lastWatermark < db.lastWatermark) := fun h => lt_irrefl _ h.2
    rw [hwatermark]
    simp only [keeps, decide_eq_false hnot, Bool.not_false]
  refine ⟨lost ++ kept.filter (fun tx => !keeps (format.label tx)), kept.filter fun tx => keeps (format.label tx),
    ?_, ?_, ?_⟩
  · rw [List.append_assoc, hcut]
    exact h.history
  · rw [← RowFormat.filter_rows keeps, ← h.rows]
    simp only [ChangeDB.purgeRecordsBefore, h.keep_eq hinc, Option.any_some, decide_eq_true_eq]
    rfl
  · rw [← List.getLast?_append_of_ne_nil _ (List.ne_nil_of_mem hmem), hcut]
    exact h.last

theorem committedBy_append (events events' : List ChangeDBEvent) :
    committedBy (events ++ events') = committedBy events ++ committedBy events' := List.filterMap_append

/-- **What the log keeps:** the transactions of the stream from one on. -/
theorem run_kept (h : History replicaVersion events) :
    ∃ lost kept, Kept (ChangeDB.run replicaVersion events)
      (CommittedTx.initial replicaVersion :: committedBy events) lost kept := by
  induction events using List.reverseRecOn with
  | nil => exact ⟨[], _, kept_start replicaVersion⟩
  | append_singleton events event ih =>
    unfold History at h
    rw [committedBy_append, ← List.cons_append] at h
    have hbefore : History replicaVersion events := h.sublist (List.sublist_append_left _ _)
    obtain ⟨lost, kept, hkept⟩ := ih hbefore
    have hrun : ChangeDB.run replicaVersion (events ++ [event]) = (ChangeDB.run replicaVersion events).step event := by
      unfold ChangeDB.run
      rw [List.foldl_append]
      rfl
    rw [hrun, committedBy_append, ← List.cons_append]
    cases event with
    | commit tx => exact ⟨lost, kept ++ [tx], hkept.commit tx⟩
    | purge watermark =>
      obtain ⟨lost, kept, hpurged⟩ := hkept.purge hbefore watermark
      refine ⟨lost, kept, ?_⟩
      rw [show committedBy [ChangeDBEvent.purge watermark] = [] from rfl, List.append_nil]
      exact hpurged

/-! ## What the storer writes -/

/-- The rows of a transaction, buffered or flushed. -/
def PendingTransaction.written (tx : PendingTransaction) : List ChangeLogRow := tx.flushed ++ tx.batch

theorem written_flushChangeLog (tx : PendingTransaction) : tx.flushChangeLog.flushed = tx.written := rfl

theorem written_add (changeLogBatchSize : ℕ) (tx : PendingTransaction) (watermark json : String)
    (change : Option StoredChange) :
    (tx.add changeLogBatchSize watermark json change).written = tx.written ++
      [{ watermark := if change = some .commit then watermark else tx.preCommitWatermark
         precommit := if change = some .commit then some tx.preCommitWatermark else none
         pos := tx.pos
         change := extractChangeSubstring json change }] := by
  unfold PendingTransaction.add PendingTransaction.written PendingTransaction.flushChangeLog
  dsimp only
  generalize ({ watermark := if change = some .commit then watermark else tx.preCommitWatermark
                precommit := if change = some .commit then some tx.preCommitWatermark else none
                pos := tx.pos
                change := extractChangeSubstring json change } : ChangeLogRow) = entry
  split
  · rw [List.append_nil]
  · split
    · rw [List.append_nil, List.append_assoc]
    · rw [List.append_assoc]

theorem add_fields (changeLogBatchSize : ℕ) (tx : PendingTransaction) (watermark json : String)
    (change : Option StoredChange) :
    (tx.add changeLogBatchSize watermark json change).preCommitWatermark = tx.preCommitWatermark ∧
      (tx.add changeLogBatchSize watermark json change).pos = tx.pos := by
  unfold PendingTransaction.add PendingTransaction.flushChangeLog
  dsimp only
  generalize ({ watermark := if change = some .commit then watermark else tx.preCommitWatermark
                precommit := if change = some .commit then some tx.preCommitWatermark else none
                pos := tx.pos
                change := extractChangeSubstring json change } : ChangeLogRow) = entry
  split
  · exact ⟨rfl, rfl⟩
  · split <;> exact ⟨rfl, rfl⟩

/-- The rows before the commit. -/
def openRows (watermark : String) (changes : List String) : List ChangeLogRow :=
  changes.zipIdx.map fun (change, pos) => { watermark, precommit := none, pos, change }

theorem openRows_concat (watermark : String) (changes : List String) (change : String) :
    openRows watermark (changes ++ [change]) =
      openRows watermark changes ++ [{ watermark, precommit := none, pos := changes.length, change }] := by
  unfold openRows
  rw [List.zipIdx_append, List.map_append]
  simp

theorem rows_concat (watermark : String) (precommit : Option String) (changes : List String) (change : String) :
    CommittedTx.rows ⟨watermark, changes ++ [change], precommit,
        List.append_ne_nil_of_right_ne_nil _ (List.cons_ne_nil _ _)⟩ =
      openRows watermark changes ++ [{ watermark, precommit, pos := changes.length, change }] := by
  unfold openRows CommittedTx.rows
  rw [List.zipIdx_append, List.map_append]
  refine congrArg₂ _ (List.map_congr_left fun p hp => ?_) (by simp)
  have hlt := (List.mem_zipIdx' hp).1
  simp only [List.length_append, List.length_singleton]
  rw [if_neg (by omega)]

/-- The storer's turns for a run of changes that the database takes. -/
def Storer.processChanges (changeLogBatchSize : ℕ) (s : Storer) (watermark : String)
    (changes : List (String × Option StoredChange)) : Except Storer Storer :=
  changes.foldlM (fun s change => s.processChange changeLogBatchSize watermark change.1 change.2 .succeeds) s

/-- A transaction that is open, with its rows so far. -/
def IsOpen (s : Storer) (watermark : String) (done : List String) : Prop :=
  ∃ tx, s.tx = some tx ∧ tx.preCommitWatermark = watermark ∧ tx.pos + 1 = done.length ∧
    tx.written = openRows watermark done

variable {s : Storer} {watermark : String}

theorem processChange_begin (changeLogBatchSize : ℕ) (hidle : s.tx = none) (watermark json : String) (skipAck : Bool) :
    ∃ s', s.processChange changeLogBatchSize watermark json (some (.begin skipAck)) .succeeds = .ok s' ∧
      s'.changeLog = s.changeLog ∧ IsOpen s' watermark [extractChangeSubstring json (some (.begin skipAck))] := by
  let tx : PendingTransaction := ⟨watermark, 0, !skipAck, [], []⟩
  have hfields := add_fields changeLogBatchSize tx watermark json (some (.begin skipAck))
  have hstep : s.processChange changeLogBatchSize watermark json (some (.begin skipAck)) .succeeds =
      .ok { s with tx := some (tx.add changeLogBatchSize watermark json (some (.begin skipAck))) } := by
    simp [Storer.processChange, PendingTransaction.next, hidle, tx]
  refine ⟨_, hstep, rfl, _, rfl, hfields.1, by rw [hfields.2]; rfl, ?_⟩
  rw [written_add]
  simp [PendingTransaction.written, openRows, tx]

theorem processChange_data (changeLogBatchSize : ℕ) {done : List String} (hopen : IsOpen s watermark done) (json : String)
    {change : Option StoredChange} (hchange : change = none ∨ change = some .schemaChange) :
    ∃ s', s.processChange changeLogBatchSize watermark json change .succeeds = .ok s' ∧
      s'.changeLog = s.changeLog ∧ IsOpen s' watermark (done ++ [extractChangeSubstring json change]) := by
  obtain ⟨tx, htx, hwatermark, hpos, hwritten⟩ := hopen
  let tx' : PendingTransaction := { tx with pos := tx.pos + 1 }
  have hfields := add_fields changeLogBatchSize tx' watermark json change
  have hstep : s.processChange changeLogBatchSize watermark json change .succeeds =
      .ok { s with tx := some (tx'.add changeLogBatchSize watermark json change) } := by
    rcases hchange with rfl | rfl <;> simp [Storer.processChange, PendingTransaction.next, htx, tx']
  have hne : change ≠ some .commit := by rcases hchange with rfl | rfl <;> exact fun h => by cases h
  refine ⟨_, hstep, rfl, _, rfl, hfields.1.trans hwatermark, ?_, ?_⟩
  · rw [hfields.2, List.length_append, ← hpos]
    rfl
  · rw [written_add, openRows_concat, ← hpos, if_neg hne, if_neg hne]
    change tx.written ++ _ = _
    rw [hwritten, ← hwatermark]

theorem endTransaction_succeeds (s : Storer) :
    ∃ s', s.endTransaction .succeeds = .ok s' ∧ s'.tx = none ∧ s'.lastWatermark = s.lastWatermark ∧
      s'.changeLog = s.changeLog := by
  unfold Storer.endTransaction Storer.startCatchup
  split
  · exact ⟨_, rfl, rfl, rfl, rfl⟩
  · exact ⟨_, rfl, rfl, rfl, rfl⟩

theorem processChange_commit (changeLogBatchSize : ℕ) {done : List String} (hopen : IsOpen s watermark done)
    (json : String) :
    ∃ s', s.processChange changeLogBatchSize watermark json (some .commit) .succeeds = .ok s' ∧ s'.tx = none ∧
      s'.lastWatermark = watermark ∧ s'.changeLog = s.changeLog ++ (openRows watermark done ++
        [{ watermark, precommit := some watermark, pos := done.length
           change := extractChangeSubstring json (some .commit) }]) := by
  obtain ⟨tx, htx, hwatermark, hpos, hwritten⟩ := hopen
  let tx' : PendingTransaction := { tx with pos := tx.pos + 1 }
  have hrows : (tx'.add changeLogBatchSize watermark json (some .commit)).flushChangeLog.flushed =
      openRows watermark done ++ [{ watermark, precommit := some watermark, pos := done.length
                                    change := extractChangeSubstring json (some .commit) }] := by
    rw [written_flushChangeLog, written_add, if_pos rfl, if_pos rfl, ← hpos]
    change tx.written ++ _ = _
    rw [hwritten]
    simp [tx', hwatermark]
  have hstep : s.processChange changeLogBatchSize watermark json (some .commit) .succeeds =
      Storer.endTransaction
        { s with
          changeLog := s.changeLog ++ (tx'.add changeLogBatchSize watermark json (some .commit)).flushChangeLog.flushed
          lastWatermark := watermark
          committed := if (tx'.add changeLogBatchSize watermark json (some .commit)).ack then s.committed ++ [watermark]
            else s.committed }
        .succeeds := by
    simp [Storer.processChange, PendingTransaction.next, htx, tx']
  rw [hrows] at hstep
  obtain ⟨s', hend, htx', hlast, hlog⟩ := endTransaction_succeeds (Storer.mk _ _ _ _ _ _ _ _ _)
  exact ⟨s', hstep.trans hend, htx', hlast, hlog⟩

variable {sub : SubscriberAndMode}

theorem catchupLoop_found (sub : SubscriberAndMode) (entries : List ChangeLogRow) :
    catchupLoop sub true entries = (entries.filter (·.watermark ≠ sub.watermark), .caughtUp) := by
  induction entries with
  | nil => rfl
  | cons entry entries ih =>
    unfold catchupLoop
    split
    · next heq => rw [ih, List.filter_cons_of_neg (by simpa using heq)]
    · next hne => rw [if_pos rfl, ih, List.filter_cons_of_pos (by simpa using hne)]

/-- How a subscriber is rejected. -/
def Rejected (sub : SubscriberAndMode) (result : List ChangeLogRow × CatchupEnd) : Prop :=
  result.1 = [] ∧
    match sub.mode with
    | .backup => ∃ message, result.2 = .autoReset message
    | .serving => ∃ message, result.2 = .closed .watermarkTooOld message

theorem catchupLoop_rejected {entry : ChangeLogRow} (hne : entry.watermark ≠ sub.watermark) (entries : List ChangeLogRow) :
    Rejected sub (catchupLoop sub false (entry :: entries)) := by
  unfold catchupLoop Rejected
  rw [if_neg hne, if_neg Bool.false_ne_true]
  cases sub.mode with
  | backup => exact ⟨rfl, _, rfl⟩
  | serving => exact ⟨rfl, _, rfl⟩

theorem Rejected.not_caughtUp {result : List ChangeLogRow × CatchupEnd} (h : Rejected sub result) :
    result.2 ≠ .caughtUp := by
  obtain ⟨-, hend⟩ := h
  cases hmode : sub.mode with
  | backup =>
    rw [hmode] at hend
    obtain ⟨message, heq⟩ := hend
    rw [heq]
    exact fun h => by cases h
  | serving =>
    rw [hmode] at hend
    obtain ⟨message, heq⟩ := hend
    rw [heq]
    exact fun h => by cases h

/-! ## Gaps -/

/-- Every transaction committed after a watermark is in the log. -/
def Complete (db : ChangeDB) (events : List ChangeDBEvent) (watermark : String) : Prop :=
  ∀ tx ∈ committedBy events, watermark < tx.watermark → ∀ row ∈ tx.rows, row ∈ db.changeLog

/-- A catchup makes no gap: changes are sent, and the subscriber is caught up, only when all that it needs is in the
log; otherwise it is rejected before anything is sent. -/
def NoGap (replicaVersion : String) (events : List ChangeDBEvent) (sub : SubscriberAndMode) : Prop :=
  let db := ChangeDB.run replicaVersion events
  let result := db.catchup replicaVersion sub
  (result.1 ≠ [] ∨ result.2 = .caughtUp → Complete db events sub.watermark) ∧
    (¬ Complete db events sub.watermark → Rejected sub result)

theorem Kept.mem_of_row (h : Kept db history lost kept) (hinc : format.Increasing history) {tx : CommittedTx}
    (htx : tx ∈ history) {row : ChangeLogRow} (hrow : row ∈ db.changeLog) (heq : row.watermark = tx.watermark) :
    tx ∈ kept := by
  rw [h.rows] at hrow
  obtain ⟨tx', htx', hrow⟩ := RowFormat.mem_rows.mp hrow
  have hlabel : tx'.watermark = tx.watermark := (CommittedTx.watermark_of_mem_rows hrow).symm.trans heq
  rw [h.history] at htx hinc
  rcases List.mem_append.mp htx with hlost | hkept
  · exact absurd hlabel ((List.pairwise_append.mp hinc).2.2 tx hlost tx' htx').ne'
  · exact hkept

theorem Kept.complete_of_le (h : Kept db (CommittedTx.initial replicaVersion :: committedBy events) lost kept)
    (hinc : History replicaVersion events) {first : CommittedTx} (hfirst : first ∈ kept) {watermark : String}
    (hle : first.watermark ≤ watermark) : Complete db events watermark := by
  intro tx htx hafter row hrow
  have hin : tx ∈ lost ++ kept := h.history ▸ List.mem_cons_of_mem _ htx
  rw [h.rows]
  refine RowFormat.mem_rows.mpr ⟨tx, ?_, hrow⟩
  rcases List.mem_append.mp hin with hlost | hkept
  · have hinc' : format.Increasing (lost ++ kept) := h.history ▸ hinc
    exact absurd ((List.pairwise_append.mp hinc').2.2 tx hlost first hfirst) (not_lt.mpr (hle.trans hafter.le))
  · exact hkept

theorem Kept.catchupEntries_eq (h : Kept db history lost kept) (hinc : format.Increasing history) (watermark : String) :
    db.catchupEntries watermark = format.rows (kept.filter fun tx => watermark ≤ tx.watermark) := by
  have hfilter : (db.changeLog.filter fun row => watermark ≤ row.watermark ∧ row.watermark ≤ db.lastWatermark) =
      format.rows (kept.filter fun tx => watermark ≤ tx.watermark) := by
    rw [h.rows]
    refine (RowFormat.filter_rows (F := format) (fun w => decide (watermark ≤ w ∧ w ≤ db.lastWatermark)) kept).trans ?_
    refine congrArg _ (List.filter_congr fun tx htx => decide_eq_decide.mpr ?_)
    exact and_iff_left (h.le_last hinc htx)
  unfold ChangeDB.catchupEntries
  rw [hfilter]
  refine List.mergeSort_of_pairwise ?_
  have hsorted := format.sorted_rows ((h.increasing hinc).filter fun tx => watermark ≤ tx.watermark)
  refine hsorted.imp fun {a b} hab => decide_eq_true ?_
  rcases Prod.Lex.toLex_lt_toLex.mp hab with hlt | ⟨heq, hlt⟩
  · exact .inl hlt
  · exact .inr ⟨heq, Nat.le_of_lt hlt⟩

theorem catchup_at_replicaVersion (db : ChangeDB) (hsub : sub.watermark = replicaVersion) :
    (db.catchup replicaVersion sub).2 = .caughtUp := by
  unfold ChangeDB.catchup
  rw [decide_eq_true hsub, catchupLoop_found]

theorem Kept.catchup_rejected (h : Kept db history lost kept) (hinc : format.Increasing history)
    (hsub : sub.watermark ≠ replicaVersion) (hhead : sub.watermark ≤ db.lastWatermark)
    (hmissing : ∀ tx ∈ kept, tx.watermark ≤ sub.watermark → False) : Rejected sub (db.catchup replicaVersion sub) := by
  obtain ⟨last, hlast, hwatermark⟩ := h.exists_last
  unfold ChangeDB.catchup
  rw [decide_eq_false hsub, h.catchupEntries_eq hinc]
  have hall : ∀ row ∈ format.rows (kept.filter fun tx => sub.watermark ≤ tx.watermark), row.watermark ≠ sub.watermark := by
    intro row hrow heq
    obtain ⟨tx, htx, hrow⟩ := RowFormat.mem_rows.mp hrow
    refine hmissing tx (List.mem_filter.mp htx).1 ?_
    rw [← heq, CommittedTx.watermark_of_mem_rows hrow]
  obtain ⟨row, hrow, -⟩ := exists_mem_rows last
  have hmem : row ∈ format.rows (kept.filter fun tx => sub.watermark ≤ tx.watermark) := by
    refine RowFormat.mem_rows.mpr ⟨last, List.mem_filter.mpr ⟨hlast, decide_eq_true ?_⟩, hrow⟩
    rw [hwatermark]
    exact hhead
  cases hrows : format.rows (kept.filter fun tx => sub.watermark ≤ tx.watermark) with
  | nil =>
    rw [hrows] at hmem
    cases hmem
  | cons entry entries =>
    rw [hrows] at hall
    exact catchupLoop_rejected (hall entry List.mem_cons_self) entries

/-- The first transaction that was committed after the replica version is still in the log, if there is one. -/
def FirstRetained (db : ChangeDB) (events : List ChangeDBEvent) : Prop :=
  ∀ tx, (committedBy events).head? = some tx → ∃ row ∈ db.changeLog, row.watermark = tx.watermark

theorem Kept.complete_iff (h : Kept db (CommittedTx.initial replicaVersion :: committedBy events) lost kept)
    (hinc : History replicaVersion events) : Complete db events replicaVersion ↔ FirstRetained db events := by
  constructor
  · intro hcomplete tx hfirst
    have hmem : tx ∈ committedBy events := List.mem_of_mem_head? hfirst
    obtain ⟨row, hrow, heq⟩ := exists_mem_rows tx
    exact ⟨row, hcomplete tx hmem ((List.pairwise_cons.mp hinc).1 tx hmem) row hrow, heq⟩
  · intro hfirst tx htx hafter
    cases hcommitted : committedBy events with
    | nil =>
      rw [hcommitted] at htx
      cases htx
    | cons first later =>
      obtain ⟨row, hrow, heq⟩ := hfirst first (by rw [hcommitted]; rfl)
      have hin : first ∈ CommittedTx.initial replicaVersion :: committedBy events := by
        rw [hcommitted]
        exact List.mem_cons_of_mem _ List.mem_cons_self
      have hkept := h.mem_of_row hinc hin hrow heq
      -- All that is committed is at or after the first.
      have hle : first.watermark ≤ tx.watermark := by
        rw [hcommitted] at htx
        rcases List.mem_cons.mp htx with rfl | hlater
        · exact le_rfl
        · have hinc' := hinc
          unfold History at hinc'
          rw [hcommitted] at hinc'
          exact ((List.pairwise_cons.mp (List.pairwise_cons.mp hinc').2).1 tx hlater).le
      intro row' hrow'
      rw [h.rows]
      refine RowFormat.mem_rows.mpr ⟨tx, ?_, hrow'⟩
      have hmem : tx ∈ lost ++ kept := h.history ▸ List.mem_cons_of_mem _ htx
      rcases List.mem_append.mp hmem with hlost | hin
      · have hsplit : format.Increasing (lost ++ kept) := h.history ▸ hinc
        exact absurd ((List.pairwise_append.mp hsplit).2.2 tx hlost first hkept) (not_lt.mpr hle)
      · exact hin

/-- **A catchup makes no gap** exactly when the subscriber is not at the replica version, or no transaction committed
since has been purged. -/
theorem noGap_iff (h : History replicaVersion events)
    (hhead : sub.watermark ≤ (ChangeDB.run replicaVersion events).lastWatermark) :
    NoGap replicaVersion events sub ↔
      sub.watermark ≠ replicaVersion ∨ FirstRetained (ChangeDB.run replicaVersion events) events := by
  obtain ⟨lost, kept, hkept⟩ := run_kept h
  by_cases hsub : sub.watermark = replicaVersion
  · have hend := catchup_at_replicaVersion (ChangeDB.run replicaVersion events) hsub
    rw [← hkept.complete_iff h, or_iff_right (not_not.mpr hsub)]
    have hsame : Complete (ChangeDB.run replicaVersion events) events sub.watermark ↔
        Complete (ChangeDB.run replicaVersion events) events replicaVersion := by rw [hsub]
    rw [← hsame]
    constructor
    · intro hnogap
      exact hnogap.1 (.inr hend)
    · intro hcomplete
      exact ⟨fun _ => hcomplete, fun hnot => absurd hcomplete hnot⟩
  · refine iff_of_true ?_ (.inl hsub)
    by_cases hfound : ∃ tx ∈ kept, tx.watermark ≤ sub.watermark
    · obtain ⟨first, hfirst, hle⟩ := hfound
      have hcomplete := hkept.complete_of_le h hfirst hle
      exact ⟨fun _ => hcomplete, fun hnot => absurd hcomplete hnot⟩
    · have hrejected := hkept.catchup_rejected h hsub hhead fun tx htx hle => hfound ⟨tx, htx, hle⟩
      refine ⟨fun hsent => ?_, fun _ => hrejected⟩
      rcases hsent with hsome | hcaught
      · exact absurd hrejected.1 hsome
      · exact absurd hcaught hrejected.not_caughtUp

/-- Two transactions, of which the first is purged. -/
def emptyTx (watermark : String) : CommittedTx :=
  ⟨watermark, (CommittedTx.initial watermark).changes, some watermark, (CommittedTx.initial watermark).nonempty⟩

def purgedEvents : List ChangeDBEvent := [.commit (emptyTx "01"), .commit (emptyTx "02"), .purge "02"]

theorem noGap_iff_purged : History "00" purgedEvents ∧
    (NoGap "00" purgedEvents ⟨"sub", "01", .serving⟩ ↔
      "01" ≠ "00" ∨ FirstRetained (ChangeDB.run "00" purgedEvents) purgedEvents) := by
  have hhistory : History "00" purgedEvents := by unfold History RowFormat.Increasing; decide
  exact ⟨hhistory, noGap_iff hhistory (by decide)⟩

/-- A subscriber at the replica version is sent the second transaction without the first. -/
theorem gap_at_replicaVersion : ¬ NoGap "00" purgedEvents ⟨"sub", "00", .serving⟩ := by
  intro h
  have hcomplete := h.1 (.inr (catchup_at_replicaVersion _ rfl))
  have hmem := hcomplete (emptyTx "01") (by simp [purgedEvents, committedBy]) (by decide) _ List.mem_cons_self
  revert hmem
  decide

end ZeroSync
