/-
What the storer writes, over calls and turns of its loop in any order, with transactions
and reads that fail: transactions of the stream, each whole (`calls_write_whole`).
-/
import ZeroSync.StorerCatchupFacts
import ZeroSync.StorerFacts

namespace ZeroSync

/-- What `store` is called with. -/
structure StoredMessage where
  watermark : String
  json : String
  orig : Option StoredChange

/-- The rows of messages from a `begin` on. -/
def rowsOf (precommit : String) (messages : List StoredMessage) : List ChangeLogRow :=
  messages.zipIdx.map fun (m, pos) =>
    { watermark := if m.orig = some .commit then m.watermark else precommit
      precommit := if m.orig = some .commit then some precommit else none
      pos
      change := extractChangeSubstring m.json m.orig }

/-- The open transaction with the next message. -/
def PendingTransaction.takes (changeLogBatchSize : ℕ) (tx : PendingTransaction) (m : StoredMessage) : PendingTransaction :=
  PendingTransaction.add changeLogBatchSize { tx with pos := tx.pos + 1 } m.watermark m.json m.orig

/-- A transaction of the stream, from its `begin` to its `commit`. -/
structure StoredTx where
  first : StoredMessage
  middle : List StoredMessage
  last : StoredMessage
  skipAck : Bool
  begins : first.orig = some (.begin skipAck)
  continues : ∀ m ∈ middle, m.orig = none ∨ m.orig = some .schemaChange
  commits : last.orig = some .commit

namespace StoredTx

def messages (tx : StoredTx) : List StoredMessage := tx.first :: tx.middle ++ [tx.last]

def rows (tx : StoredTx) : List ChangeLogRow := rowsOf tx.first.watermark tx.messages

end StoredTx

namespace Storer

/-- The messages of the calls. -/
def stored (calls : List StorerCall) : List StoredMessage :=
  calls.filterMap fun
    | .store watermark json orig => some ⟨watermark, json, orig⟩
    | _ => none

/-- The messages that wait in the queue. -/
def queued (queue : List QueueEntry) : List StoredMessage :=
  queue.filterMap fun
    | .change watermark json orig => some ⟨watermark, json, orig⟩
    | _ => none

/-- Calls one after another, as long as each can be made. -/
def makeCalls (changeLogBatchSize : ℕ) (calls : List StorerCall) (s : Storer) : Option Storer :=
  calls.foldlM (Storer.call changeLogBatchSize) s

/-- What is written: some of the transactions among the messages, in their order. -/
structure Wrote (log : List ChangeLogRow) (watermark : String) (messages : List StoredMessage) (s : Storer)
    (txs : List StoredTx) : Prop where
  log : s.changeLog = log ++ txs.flatMap StoredTx.rows
  last : s.lastWatermark = (txs.getLast?.map (·.last.watermark)).getD watermark
  acks : s.committed = (txs.filter (!·.skipAck)).map (·.last.watermark)
  started : ∀ p ∈ s.started, p.2 = watermark ∨ ∃ tx ∈ txs, p.2 = tx.last.watermark
  order : (txs.flatMap StoredTx.messages).Sublist messages
  whole : ∀ tx ∈ txs, tx.messages <:+: messages

/-- The messages of the open transaction, and its rows. -/
structure Pending (tx : PendingTransaction) (first : StoredMessage) (skipAck : Bool) (middle : List StoredMessage) : Prop where
  begins : first.orig = some (.begin skipAck)
  continues : ∀ m ∈ middle, m.orig = none ∨ m.orig = some .schemaChange
  watermark : tx.preCommitWatermark = first.watermark
  pos : tx.pos = middle.length
  ack : tx.ack = !skipAck
  written : tx.written = rowsOf first.watermark (first :: middle)

/-- The messages are those that are done with, those of the open transaction and those that wait. -/
structure Inv (log : List ChangeLogRow) (watermark : String) (messages : List StoredMessage) (s : Storer)
    (before done : List StoredMessage) (txs : List StoredTx) : Prop where
  wrote : Wrote log watermark before s txs
  messages : messages = before ++ done ++ queued s.queue
  idle : s.tx = none → done = []
  pending : ∀ tx ∈ s.tx, ∃ first skipAck middle, done = first :: middle ∧ Pending tx first skipAck middle

variable {changeLogBatchSize : ℕ} {log : List ChangeLogRow} {watermark : String} {messages before done : List StoredMessage}
  {s s' : Storer} {txs : List StoredTx} {outcome : StorerOutcome}

theorem Wrote.mono {more : List StoredMessage} (h : Wrote log watermark messages s txs) (hbegins : messages <+: more) :
    Wrote log watermark more s txs :=
  { h with
    order := h.order.trans hbegins.sublist
    whole := fun tx htx => (h.whole tx htx).trans hbegins.isInfix }

theorem Wrote.of_eq (h : Wrote log watermark messages s txs) (hlog : s'.changeLog = s.changeLog)
    (hlast : s'.lastWatermark = s.lastWatermark) (hacks : s'.committed = s.committed) (hstarted : s'.started = s.started) :
    Wrote log watermark messages s' txs :=
  ⟨hlog.trans h.log, hlast.trans h.last, hacks.trans h.acks, hstarted ▸ h.started, h.order, h.whole⟩

theorem rowsOf_concat (precommit : String) (done : List StoredMessage) (m : StoredMessage) :
    rowsOf precommit (done ++ [m]) = rowsOf precommit done ++
      [{ watermark := if m.orig = some .commit then m.watermark else precommit
         precommit := if m.orig = some .commit then some precommit else none
         pos := done.length
         change := extractChangeSubstring m.json m.orig }] := by
  simp [rowsOf, List.zipIdx_append]

theorem add_ack (tx : PendingTransaction) (watermark json : String) (change : Option StoredChange) :
    (tx.add changeLogBatchSize watermark json change).ack = tx.ack := by
  unfold PendingTransaction.add PendingTransaction.flushChangeLog
  simp only [apply_ite PendingTransaction.ack, ite_self]

variable {tx : PendingTransaction} {first m : StoredMessage} {skipAck : Bool} {middle : List StoredMessage}

theorem Pending.written_add (h : Pending tx first skipAck middle) :
    (tx.takes changeLogBatchSize m).written = rowsOf first.watermark (first :: middle ++ [m]) := by
  rw [PendingTransaction.takes, ZeroSync.written_add, rowsOf_concat, List.length_cons, ← h.pos, ← h.watermark]
  change tx.written ++ _ = _
  rw [h.written, h.watermark]

theorem Pending.add (h : Pending tx first skipAck middle) (hm : m.orig = none ∨ m.orig = some .schemaChange) :
    Pending (tx.takes changeLogBatchSize m) first skipAck (middle ++ [m]) := by
  obtain ⟨hwatermark, hpos⟩ := add_fields changeLogBatchSize { tx with pos := tx.pos + 1 } m.watermark m.json m.orig
  exact ⟨h.begins, List.forall_mem_append.mpr ⟨h.continues, List.forall_mem_singleton.mpr hm⟩, hwatermark.trans h.watermark,
    by rw [List.length_append, ← h.pos]; exact hpos, (add_ack ..).trans h.ack, h.written_add⟩

/-- Where a turn ends: the loop goes on, or it throws. -/
def Goes (log : List ChangeLogRow) (watermark : String) (messages : List StoredMessage) : Except Storer Storer → Prop
  | .ok s => ∃ before done txs, Inv log watermark messages s before done txs
  | .error s => ∃ before txs, Wrote log watermark before s txs ∧ before <+: messages

theorem Wrote.goes_startCatchup (h : Wrote log watermark before s txs) (hmessages : messages = before ++ queued s.queue)
    (hidle : s.tx = none) (subs : List SubscriberAndMode) : Goes log watermark messages (s.startCatchup subs outcome) := by
  have hpending : ∀ tx ∈ s.tx, ∃ first skipAck middle, [] = first :: middle ∧ Pending tx first skipAck middle := hidle ▸ nofun
  rw [← List.append_nil before] at hmessages
  unfold Storer.startCatchup
  split
  · exact ⟨before, [], txs, h, hmessages, fun _ => rfl, hpending⟩
  split
  · exact ⟨before, txs, h.of_eq rfl rfl rfl rfl, ⟨_, List.append_nil before ▸ hmessages.symm⟩⟩
  · refine ⟨before, [], txs, ⟨h.log, h.last, h.acks, fun p hp => ?_, h.order, h.whole⟩, hmessages, fun _ => rfl, hpending⟩
    rcases List.mem_append.mp hp with hp | hp
    · exact h.started p hp
    · obtain ⟨sub, -, rfl⟩ := List.mem_map.mp hp
      rw [h.last]
      cases hlast : txs.getLast? with
      | none => exact .inl rfl
      | some tx => exact .inr ⟨tx, List.mem_of_getLast? hlast, rfl⟩

theorem Wrote.goes_endTransaction (h : Wrote log watermark before s txs) (hmessages : messages = before ++ queued s.queue) :
    Goes log watermark messages (s.endTransaction outcome) :=
  @Wrote.goes_startCatchup _ _ _ _ { s with tx := none, catchupQueue := [] } _ _ (h.of_eq rfl rfl rfl rfl) hmessages rfl _

/-- A `commit` writes the open transaction. -/
theorem Wrote.commit (h : Wrote log watermark before s txs) (hpending : Pending tx first skipAck middle)
    (hm : m.orig = some .commit) :
    ∃ written, Wrote log watermark (before ++ (first :: middle ++ [m]))
      { s with
        changeLog := s.changeLog ++ (tx.takes changeLogBatchSize m).flushChangeLog.flushed
        lastWatermark := m.watermark
        committed := if (tx.takes changeLogBatchSize m).ack then s.committed ++ [m.watermark] else s.committed }
      (txs ++ [written]) := by
  let written : StoredTx := ⟨first, middle, m, skipAck, hpending.begins, hpending.continues, hm⟩
  refine ⟨written, ?_, ?_, ?_, fun p hp => ?_, ?_, fun tx htx => ?_⟩
  · rw [written_flushChangeLog, hpending.written_add, h.log, List.append_assoc, List.flatMap_append, List.flatMap_singleton]
    rfl
  · rw [List.getLast?_concat]
    rfl
  · have hack : (tx.takes changeLogBatchSize m).ack = !skipAck := (add_ack ..).trans hpending.ack
    simp only [hack, h.acks, List.filter_append, List.map_append]
    cases hskip : skipAck <;> simp [written, hskip]
  · exact (h.started p hp).imp_right fun ⟨tx, htx, heq⟩ => ⟨tx, List.mem_append_left _ htx, heq⟩
  · rw [List.flatMap_append, List.flatMap_singleton]
    exact h.order.append (List.Sublist.refl _)
  · rcases List.mem_append.mp htx with htx | htx
    · exact (h.whole tx htx).trans (List.prefix_append ..).isInfix
    · rw [List.mem_singleton.mp htx]
      exact (List.suffix_append ..).isInfix

theorem Inv.change {entries : List QueueEntry} (h : Inv log watermark messages s before done txs)
    (hqueue : s.queue = .change m.watermark m.json m.orig :: entries) :
    Goes log watermark messages
      (({ s with queue := entries }).processChange changeLogBatchSize m.watermark m.json m.orig outcome) := by
  have hmessages : messages = before ++ (done ++ [m]) ++ queued entries := by
    rw [h.messages, hqueue]
    simp [queued]
  have hwrote : Wrote log watermark before { s with queue := entries } txs := h.wrote.of_eq rfl rfl rfl rfl
  have hthrows : Goes log watermark messages (.error { s with queue := entries }) :=
    ⟨before, txs, hwrote, ⟨_, by rw [hmessages, List.append_assoc]⟩⟩
  unfold processChange
  dsimp only
  by_cases houtcome : outcome = .txFails
  · split
    · exact hthrows
    · rw [if_pos houtcome]
      exact hthrows
  cases htx : s.tx with
  | none =>
    rw [htx] at hthrows
    obtain rfl := h.idle htx
    obtain ⟨w, json, orig⟩ := m
    cases orig with
    | none => exact hthrows
    | some change =>
      cases change with
      | begin skipAck =>
        have hfields := add_fields changeLogBatchSize ⟨w, 0, !skipAck, [], []⟩ w json (some (.begin skipAck))
        simp only [PendingTransaction.next, if_neg houtcome]
        refine ⟨before, [⟨w, json, some (.begin skipAck)⟩], txs, hwrote.of_eq rfl rfl rfl rfl, hmessages, by simp, fun tx' htx' => ?_⟩
        obtain rfl := Option.some.inj htx'
        refine ⟨_, skipAck, [], rfl, rfl, by simp, hfields.1, hfields.2, add_ack .., ?_⟩
        rw [ZeroSync.written_add]
        rfl
      | commit => exact hthrows
      | rollback => exact hthrows
      | schemaChange => exact hthrows
  | some tx =>
    rw [htx] at hthrows
    obtain ⟨first, skipAck, middle, rfl, hpending⟩ := h.pending tx htx
    have hcontinues (hm : m.orig = none ∨ m.orig = some .schemaChange) :
        Goes log watermark messages (.ok { s with queue := entries, tx := some (tx.takes changeLogBatchSize m) }) := by
      refine ⟨before, first :: middle ++ [m], txs, hwrote.of_eq rfl rfl rfl rfl, hmessages, by simp, fun tx' htx' => ?_⟩
      obtain rfl := Option.some.inj htx'
      exact ⟨first, skipAck, middle ++ [m], rfl, hpending.add hm⟩
    have hends : messages = (before ++ (first :: middle ++ [m])) ++ queued entries := hmessages
    obtain ⟨w, json, orig⟩ := m
    cases orig with
    | none =>
      simp only [PendingTransaction.next, if_neg houtcome]
      exact hcontinues (.inl rfl)
    | some change =>
      cases change with
      | begin skipAck => exact hthrows
      | commit =>
        obtain ⟨written, hcommit⟩ := @Wrote.commit changeLogBatchSize _ _ _ _ _ _ _ ⟨w, json, _⟩ _ _ hwrote hpending rfl
        simp only [PendingTransaction.next, if_neg houtcome]
        exact (hcommit.of_eq rfl rfl rfl rfl).goes_endTransaction hends
      | rollback =>
        simp only [PendingTransaction.next, if_neg houtcome]
        exact ((hwrote.mono (List.prefix_append ..)).of_eq rfl rfl rfl rfl).goes_endTransaction hends
      | schemaChange =>
        simp only [PendingTransaction.next, if_neg houtcome]
        exact hcontinues (.inr rfl)

/-- A loop that ends is done with all messages. -/
theorem Wrote.finish (h : Wrote log watermark before s txs) (hbegins : before <+: messages) :
    Inv log watermark messages s.finish messages [] txs :=
  ⟨(h.mono hbegins).of_eq rfl rfl rfl rfl, by simp [Storer.finish, queued], fun _ => rfl, by simp [Storer.finish]⟩

/-- **A turn of the loop.** -/
theorem Inv.process (h : Inv log watermark messages s before done txs) :
    ∃ before done txs, Inv log watermark messages (s.process changeLogBatchSize outcome) before done txs := by
  have hgoes {entry : QueueEntry} {entries : List QueueEntry} (hqueue : s.queue = entry :: entries) :
      Goes log watermark messages (processEntry changeLogBatchSize { s with queue := entries } entry outcome) := by
    have hwrote : Wrote log watermark before { s with queue := entries } txs := h.wrote.of_eq rfl rfl rfl rfl
    have hmessages := h.messages
    rw [hqueue] at hmessages
    have hstays (hentry : queued (entry :: entries) = queued entries) :
        Goes log watermark messages (.ok { s with queue := entries }) :=
      ⟨before, done, txs, hwrote, hentry ▸ hmessages, h.idle, h.pending⟩
    cases entry with
    | change w json orig => exact @Inv.change _ _ _ _ _ _ _ _ _ ⟨w, json, orig⟩ _ h hqueue
    | ready => exact hstays rfl
    | stop => exact hstays rfl
    | subscriber subscriber =>
      unfold processEntry
      dsimp only
      split
      · exact ⟨before, done, txs, hwrote.of_eq rfl rfl rfl rfl, hmessages, h.idle, h.pending⟩
      · next htx =>
        obtain rfl := h.idle htx
        rw [List.append_nil] at hmessages
        exact hwrote.goes_startCatchup hmessages htx _
    | abort =>
      unfold processEntry
      dsimp only
      split
      · split
        · exact ⟨before, txs, hwrote, ⟨_, by rw [hmessages, List.append_assoc]⟩⟩
        · exact ⟨before ++ done, [], txs, (hwrote.mono (List.prefix_append ..)).of_eq rfl rfl rfl rfl,
            by rw [List.append_nil]; exact hmessages, fun _ => rfl, by simp⟩
      · exact hstays rfl
  unfold Storer.process
  split
  · exact ⟨before, done, txs, h⟩
  · next entries _ =>
    have hbegins : before <+: messages := ⟨_, by rw [h.messages, List.append_assoc]⟩
    exact ⟨_, _, _, Wrote.finish (s := { s with queue := entries }) (h.wrote.of_eq rfl rfl rfl rfl) hbegins⟩
  · next entry entries hne hqueue =>
    have hgoes := hgoes hqueue
    split
    · next s' hok =>
      rw [hok] at hgoes
      exact hgoes
    · next s' herror =>
      rw [herror] at hgoes
      obtain ⟨before', txs', hwrote, hbegins⟩ := hgoes
      exact ⟨_, _, _, Wrote.finish (s := s'.failCatchupQueue) (hwrote.of_eq rfl rfl rfl rfl) hbegins⟩

theorem Inv.call {call : StorerCall} (h : Inv log watermark messages s before done txs)
    (hcall : s.call changeLogBatchSize call = some s') :
    ∃ before done txs, Inv log watermark (messages ++ stored [call]) s' before done txs := by
  have hqueue {entries : List QueueEntry} (hentries : queued entries = stored [call]) :
      Inv log watermark (messages ++ stored [call]) { s with queue := s.queue ++ entries } before done txs := by
    refine ⟨h.wrote.of_eq rfl rfl rfl rfl, ?_, h.idle, h.pending⟩
    rw [h.messages, ← hentries, List.append_assoc]
    simp [queued]
  have hsame (hstored : stored [call] = []) : Inv log watermark (messages ++ stored [call]) s before done txs := by
    rwa [hstored, List.append_nil]
  cases call with
  | store w json orig =>
    obtain rfl := Option.some.inj hcall
    exact ⟨_, _, _, @hqueue [.change w json orig] rfl⟩
  | abort =>
    obtain rfl := Option.some.inj hcall
    exact ⟨_, _, _, @hqueue [.abort] rfl⟩
  | catchup subscriber =>
    obtain rfl := Option.some.inj hcall
    exact ⟨_, _, _, @hqueue [.subscriber subscriber] rfl⟩
  | allProcessed =>
    obtain rfl := Option.some.inj hcall
    split
    · exact ⟨_, _, _, @hqueue [.ready] rfl⟩
    · exact ⟨_, _, _, hsame rfl⟩
  | stop =>
    obtain rfl := Option.some.inj hcall
    split
    · exact ⟨_, _, _, @hqueue [.abort, .stop] rfl⟩
    · exact ⟨_, _, _, hsame rfl⟩
  | run =>
    rw [Storer.call] at hcall
    split at hcall
    · cases hcall
    · obtain rfl := Option.some.inj hcall
      have h := hsame rfl
      refine ⟨before ++ done, [], txs, ?_, ?_, fun _ => rfl, by simp⟩
      · exact (h.wrote.mono (List.prefix_append ..)).of_eq rfl rfl rfl rfl
      · rw [List.append_nil]
        exact h.messages
  | process outcome =>
    rw [Storer.call] at hcall
    split at hcall
    · obtain rfl := Option.some.inj hcall
      exact (hsame rfl).process
    · cases hcall

/-- **The storer writes transactions whole**, whatever calls and turns of its loop come in
what order and whichever of them fail: its log holds some of the transactions that were
stored, each from its `begin` to its `commit`, in their order; it acknowledges what it has
written, and a catchup starts between two transactions. -/
theorem calls_write_whole {calls : List StorerCall} (h : makeCalls changeLogBatchSize calls (new log watermark) = some s) :
    ∃ txs, Wrote log watermark (stored calls) s txs := by
  have hinv : ∃ before done txs, Inv log watermark (stored calls) s before done txs := by
    induction calls using List.reverseRecOn generalizing s with
    | nil =>
      obtain rfl := Option.some.inj h
      exact ⟨[], [], [], ⟨(List.append_nil _).symm, rfl, rfl, by simp [new], .slnil, by simp⟩, rfl, fun _ => rfl, by simp [new]⟩
    | append_singleton calls call ih =>
      unfold makeCalls at h
      rw [List.foldlM_append] at h
      obtain ⟨s₁, hcalls, hcall⟩ := Option.bind_eq_some_iff.mp h
      obtain ⟨before, done, txs, hinv⟩ := ih hcalls
      rw [List.foldlM_cons] at hcall
      obtain ⟨s₂, hcall, ⟨⟩⟩ := Option.bind_eq_some_iff.mp hcall
      rw [stored, List.filterMap_append]
      exact hinv.call hcall
  obtain ⟨before, done, txs, hinv⟩ := hinv
  exact ⟨txs, hinv.wrote.mono ⟨_, by rw [hinv.messages, List.append_assoc]⟩⟩

/-- Of two transactions the second is aborted. -/
theorem calls_write_whole_aborted : ∃ s txs, s.lastWatermark = "01" ∧ s.tx = none ∧ s.queue = [] ∧
    Wrote [] "00" [⟨"01", "b", some (.begin false)⟩, ⟨"01", "c", some .commit⟩, ⟨"02", "b", some (.begin false)⟩] s txs := by
  obtain ⟨txs, h⟩ := @calls_write_whole 10 [] "00" _ [.run, .store "01" "b" (some (.begin false)), .store "01" "c" (some .commit),
    .store "02" "b" (some (.begin false)), .abort, .process .succeeds, .process .succeeds, .process .succeeds, .process .succeeds] rfl
  exact ⟨_, txs, rfl, rfl, rfl, h⟩

end Storer

end ZeroSync
