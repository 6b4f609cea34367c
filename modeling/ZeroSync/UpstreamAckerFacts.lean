/-
The acks of an `UpstreamAcker` are safe exactly when no status comes too early
on a connection (`safe_iff_covered`); those of a connection always increase.

A reset forgets the last transaction, so the acker takes a status for the next
thing to ack although a transaction before the start of the connection has not
reached both stores.
-/
import ZeroSync.Runs
import ZeroSync.UpstreamAcker
import Mathlib.Order.MinMax
import Mathlib.Order.Nat

namespace ZeroSync

open Runs

variable {W : Type} [LinearOrder W] [OrderBot W]

/-! ## `#maybeAck` -/

namespace UpstreamAcker

variable {a : UpstreamAcker W}

/-- The last ack, once the stores' progress is acked. -/
def storesAck (a : UpstreamAcker W) : W := max a.lastAck a.currentWatermark

/-- A status is acked after all that was committed on the connection. -/
def AcksStatus (a : UpstreamAcker W) : Prop := a.lastTx ≤ a.storesAck ∧ a.storesAck < a.lastStatus

instance (a : UpstreamAcker W) : Decidable a.AcksStatus := inferInstanceAs (Decidable (_ ∧ _))

omit [OrderBot W] in
theorem maybeAck_fst (a : UpstreamAcker W) :
    a.maybeAck.1 = { a with lastAck := if a.AcksStatus then a.lastStatus else a.storesAck } := by
  unfold maybeAck AcksStatus storesAck
  by_cases h : a.lastAck < a.currentWatermark
  · simp only [gt_iff_lt, h, if_true, max_eq_right h.le, ge_iff_le]
    split <;> rfl
  · simp only [gt_iff_lt, h, if_false, max_eq_left (not_lt.mp h), ge_iff_le]
    split <;> rfl

omit [OrderBot W] in
theorem maybeAck_snd (a : UpstreamAcker W) : a.maybeAck.2.map (·.watermark) =
    (if a.upstream = true ∧ a.lastAck < a.currentWatermark then [a.currentWatermark] else []) ++
      if a.upstream = true ∧ a.AcksStatus then [a.lastStatus] else [] := by
  unfold maybeAck AcksStatus storesAck
  by_cases h : a.lastAck < a.currentWatermark
  · simp only [gt_iff_lt, h, if_true, max_eq_right h.le, ge_iff_le, and_true]
    split
    · next hs => cases hu : a.upstream <;> simp [push, hu, UpstreamAck.watermark, hs]
    · next hs => cases hu : a.upstream <;> simp [push, hu, UpstreamAck.watermark, hs]
  · simp only [gt_iff_lt, h, if_false, max_eq_left (not_lt.mp h), ge_iff_le, and_false, List.nil_append]
    split
    · next hs => cases hu : a.upstream <;> simp [push, hu, UpstreamAck.watermark, hs]
    · next hs => simp [hs]

end UpstreamAcker

/-! ## The invariant -/

namespace AckerRun

variable {log : W → Prop} {s : AckerRun W} {call : AckerCall W} {t : W}

/-- What the stores that are tracked have all reached is in `currentWatermark`. -/
structure Reports (s : AckerRun W) : Prop where
  pg : ∀ t, ⊥ < t → ((∃ r ∈ s.pgReports, t ≤ r) ↔ t ≤ s.acker.pgChangeLogWatermark)
  backup : ∀ t, ⊥ < t → ((∃ r ∈ s.backupReports, t ≤ r) ↔ t ≤ s.acker.backupWatermark)

theorem Reports.persisted_iff (h : s.Reports) (ht : ⊥ < t) : s.Persisted t ↔ t ≤ s.acker.currentWatermark := by
  have htracks := s.acker.tracks
  rw [Persisted, h.pg t ht, h.backup t ht, UpstreamAcker.currentWatermark]
  cases hp : s.acker.trackPgChangeLog <;> cases hb : s.acker.trackBackup
  · simp [hp, hb] at htracks
  · simp
  · simp
  · simp

/-- The state of a run. What is waiting, or was acked on this connection, is
before the position in the log; and nothing was acked too early. -/
structure Inv (log : W → Prop) (s : AckerRun W) : Prop where
  reports : s.Reports
  logged : ∀ t ∈ s.committed, log t ∧ ⊥ < t
  start_le : s.lastWatermark ≤ s.position
  status_le : s.acker.lastStatus ≤ s.position
  tx : s.acker.lastTx = ⊥ ∨ s.lastWatermark < s.acker.lastTx
  seen : ∀ t, log t → s.lastWatermark < t → t ≤ s.position → t ≤ s.acker.lastTx
  ack_le : s.acker.lastAck ≤ s.acker.currentWatermark ∨ s.acker.lastAck ≤ s.acker.lastStatus
  acked : ∀ t ∈ s.committed, t ≤ s.acker.lastAck → t ≤ s.acker.currentWatermark
  waiting : s.acker.lastStatus ≠ ⊥ → s.acker.lastTx = ⊥ → ∀ t ∈ s.committed, t ≤ s.lastWatermark →
    t ≤ s.acker.currentWatermark
  acks : s.acks.Pairwise (· < ·) ∧ ∀ a ∈ s.acks, a ≤ s.acker.lastAck

theorem inv_start (trackPgChangeLog trackBackup : Bool) (tracks : (trackPgChangeLog || trackBackup) = true) :
    Inv log (start (UpstreamAcker.new trackPgChangeLog trackBackup tracks)) where
  reports := ⟨fun t ht => by simp [start, UpstreamAcker.new, ht.ne'], fun t ht => by simp [start, UpstreamAcker.new, ht.ne']⟩
  logged := by simp [start]
  start_le := le_rfl
  status_le := le_rfl
  tx := .inl rfl
  seen t _ hlt hle := absurd (hlt.trans_le hle) (lt_irrefl _)
  ack_le := .inl bot_le
  acked := by simp [start]
  waiting h := absurd rfl h
  acks := by simp [start]

theorem Inv.acksStatus (h : Inv log s) (hacks : s.acker.AcksStatus) (ht : t ∈ s.committed) (hle : t ≤ s.acker.lastStatus) :
    t ≤ s.acker.currentWatermark := by
  obtain ⟨htx, hstatus⟩ := hacks
  obtain ⟨hlog, hpos⟩ := h.logged t ht
  have hstores (hle : t ≤ s.acker.storesAck) : t ≤ s.acker.currentWatermark :=
    (le_max_iff.mp hle).elim (h.acked t ht) id
  rcases le_or_gt t s.lastWatermark with hstart | hstart
  · rcases h.tx with hnone | hlt
    · exact h.waiting (ne_bot_of_gt hstatus) hnone t ht hstart
    · exact hstores ((hstart.trans hlt.le).trans htx)
  · -- It came on this connection, so it is not after the last transaction.
    exact hstores ((h.seen t hlog hstart (hle.trans h.status_le)).trans htx)

omit [OrderBot W] in
theorem mem_maybeAck {a : UpstreamAcker W} {w : W} (hw : w ∈ a.maybeAck.2.map (·.watermark)) :
    (w = a.currentWatermark ∧ a.lastAck < w) ∨ (w = a.lastStatus ∧ a.AcksStatus) := by
  rw [UpstreamAcker.maybeAck_snd, List.mem_append] at hw
  rcases hw with hw | hw
  · split at hw
    · next h =>
      obtain rfl := List.mem_singleton.mp hw
      exact .inl ⟨rfl, h.2⟩
    · cases hw
  · split at hw
    · next h => exact .inr ⟨List.mem_singleton.mp hw, h.2⟩
    · cases hw

omit [OrderBot W] in
theorem maybeAck_increases (a : UpstreamAcker W) : (a.maybeAck.2.map (·.watermark)).Pairwise (· < ·) ∧
    ∀ w ∈ a.maybeAck.2.map (·.watermark), a.lastAck < w ∧ w ≤ a.maybeAck.1.lastAck := by
  constructor
  · rw [UpstreamAcker.maybeAck_snd]
    refine List.pairwise_append.mpr ⟨by split <;> simp, by split <;> simp, fun w hw w' hw' => ?_⟩
    split at hw
    · split at hw'
      · next hs =>
        rw [List.mem_singleton.mp hw, List.mem_singleton.mp hw']
        exact (le_max_right _ _).trans_lt hs.2.2
      · cases hw'
    · cases hw
  · intro w hw
    rw [UpstreamAcker.maybeAck_fst]
    dsimp only
    rcases mem_maybeAck hw with ⟨rfl, hlt⟩ | ⟨rfl, hs⟩
    · refine ⟨hlt, ?_⟩
      split
      · next hs => exact (le_max_right _ _).trans hs.2.le
      · exact le_max_right _ _
    · rw [if_pos hs]
      exact ⟨(le_max_left _ _).trans_lt hs.2, le_rfl⟩

/-- The run after `#maybeAck`. -/
def settle (s : AckerRun W) : AckerRun W :=
  { s with acker := s.acker.maybeAck.1, acks := s.acks ++ s.acker.maybeAck.2.map (·.watermark) }

omit [OrderBot W] in
theorem persisted_settle : s.settle.Persisted t ↔ s.Persisted t := by
  unfold settle Persisted
  rw [UpstreamAcker.maybeAck_fst]

/-- **`#maybeAck`** acks nothing too early. -/
theorem Inv.settle (h : Inv log s) : (∀ a ∈ s.acker.maybeAck.2.map (·.watermark), ∀ t ∈ s.committed, t ≤ a →
    s.settle.Persisted t) ∧ Inv log s.settle := by
  obtain ⟨hincreasing, hbounds⟩ := maybeAck_increases s.acker
  refine ⟨fun a ha t ht hle => ?_, ?_⟩
  · rw [persisted_settle, h.reports.persisted_iff (h.logged t ht).2]
    rcases mem_maybeAck ha with ⟨rfl, -⟩ | ⟨rfl, hs⟩
    · exact hle
    · exact h.acksStatus hs ht hle
  · have hacks : (s.acks ++ s.acker.maybeAck.2.map (·.watermark)).Pairwise (· < ·) ∧
        ∀ a ∈ s.acks ++ s.acker.maybeAck.2.map (·.watermark), a ≤ s.acker.maybeAck.1.lastAck := by
      obtain ⟨hp, hle⟩ := h.acks
      refine ⟨List.pairwise_append.mpr ⟨hp, hincreasing, fun a ha b hb => (hle a ha).trans_lt (hbounds b hb).1⟩, ?_⟩
      refine List.forall_mem_append.mpr ⟨fun a ha => (hle a ha).trans ?_, fun b hb => (hbounds b hb).2⟩
      rw [UpstreamAcker.maybeAck_fst]
      dsimp only
      split
      · next hs => exact (le_max_left _ _).trans hs.2.le
      · exact le_max_left _ _
    rw [AckerRun.settle]
    rw [UpstreamAcker.maybeAck_fst] at hacks ⊢
    refine ⟨⟨h.reports.pg, h.reports.backup⟩, h.logged, h.start_le, h.status_le, h.tx, h.seen, ?_, ?_, h.waiting, hacks⟩
    · dsimp only
      split
      · exact .inr le_rfl
      · exact (le_total s.acker.lastAck s.acker.currentWatermark).elim (fun hle => .inl (max_le hle le_rfl)) fun hle => by
          rw [UpstreamAcker.storesAck, max_eq_left hle]
          exact h.ack_le
    · intro t ht hle
      dsimp only at hle ⊢
      split at hle
      · next hs => exact h.acksStatus hs ht hle
      · exact (le_max_iff.mp hle).elim (h.acked t ht) id

/-! ## Calls -/

omit [OrderBot W] in
theorem currentWatermark_mono {a b : UpstreamAcker W} (hp : b.trackPgChangeLog = a.trackPgChangeLog)
    (hb : b.trackBackup = a.trackBackup) (hpg : a.pgChangeLogWatermark ≤ b.pgChangeLogWatermark)
    (hbackup : a.backupWatermark ≤ b.backupWatermark) : a.currentWatermark ≤ b.currentWatermark := by
  rw [UpstreamAcker.currentWatermark, UpstreamAcker.currentWatermark, hp, hb]
  split
  · exact hpg
  · split
    · exact hbackup
    · exact min_le_min hpg hbackup

theorem Inv.report (h : Inv log s) {s' : AckerRun W} (hreports : s'.Reports)
    (hle : s.acker.currentWatermark ≤ s'.acker.currentWatermark)
    (hsame : s'.acker.lastTx = s.acker.lastTx ∧ s'.acker.lastStatus = s.acker.lastStatus ∧
      s'.acker.lastAck = s.acker.lastAck ∧ s'.acks = s.acks ∧ s'.lastWatermark = s.lastWatermark ∧
      s'.position = s.position ∧ s'.committed = s.committed) : Inv log s' := by
  obtain ⟨htx, hstatus, hack, hacks, hlast, hposition, hcommitted⟩ := hsame
  refine ⟨hreports, ?_, ?_, ?_, ?_, ?_, ?_, ?_, ?_, ?_⟩
  · rw [hcommitted]
    exact h.logged
  · rw [hlast, hposition]
    exact h.start_le
  · rw [hstatus, hposition]
    exact h.status_le
  · rw [htx, hlast]
    exact h.tx
  · rw [htx, hlast, hposition]
    exact h.seen
  · rw [hack, hstatus]
    exact h.ack_le.imp (fun hs => hs.trans hle) id
  · rw [hcommitted, hack]
    exact fun t ht htle => (h.acked t ht htle).trans hle
  · rw [hstatus, htx, hcommitted, hlast]
    exact fun hs hn t ht htle => (h.waiting hs hn t ht htle).trans hle
  · rw [hacks, hack]
    exact h.acks

theorem Inv.note (h : Inv log s) (hp : s.Possible log call) (hc : s.Covered call) : Inv log (s.note call) := by
  cases call with
  | reset lastWatermark =>
    exact {
      reports := ⟨h.reports.pg, h.reports.backup⟩
      logged := h.logged
      start_le := le_rfl
      status_le := bot_le
      tx := .inl rfl
      seen := fun t _ hlt hle => absurd (hlt.trans_le hle) (lt_irrefl _)
      ack_le := .inl bot_le
      acked := fun t ht hle => absurd ((h.logged t ht).2.trans_le hle) (lt_irrefl _)
      waiting := fun hs => absurd rfl hs
      acks := ⟨.nil, fun a ha => nomatch ha⟩ }
  | status ack watermark =>
    cases ack with
    | false => exact h
    | true =>
      obtain ⟨hle, hnone⟩ := hp.2 rfl
      exact {
        reports := ⟨h.reports.pg, h.reports.backup⟩
        logged := h.logged
        start_le := h.start_le.trans hle
        status_le := le_rfl
        tx := h.tx
        seen := fun t ht hlt htle => by
          rcases le_or_gt t s.position with hpos | hpos
          · exact h.seen t ht hlt hpos
          · exact absurd htle (not_le.mpr (hnone t ht hpos))
        ack_le := h.ack_le.imp id fun hs => hs.trans (h.status_le.trans hle)
        acked := h.acked
        waiting := fun _ htx t ht htle => (h.reports.persisted_iff (h.logged t ht).2).mp (hc rfl htx t ht htle)
        acks := h.acks }
  | commit watermark =>
    obtain ⟨-, hlog, hlt, hnext⟩ := hp
    have hpos : ⊥ < watermark := bot_le.trans_lt hlt
    exact {
      reports := ⟨h.reports.pg, h.reports.backup⟩
      logged := List.forall_mem_cons.mpr ⟨⟨hlog, hpos⟩, h.logged⟩
      start_le := h.start_le.trans hlt.le
      status_le := h.status_le.trans hlt.le
      tx := .inr (h.start_le.trans_lt hlt)
      seen := fun _ _ _ htle => htle
      ack_le := h.ack_le
      acked := List.forall_mem_cons.mpr ⟨fun hle => h.ack_le.elim (fun hs => hle.trans hs) fun hs =>
        absurd (hle.trans (hs.trans h.status_le)) (not_le.mpr hlt), h.acked⟩
      waiting := fun _ htx => absurd htx hpos.ne'
      acks := h.acks }
  | trackPgChangeLog committedWatermark =>
    refine h.report ⟨fun t ht => ?_, h.reports.backup⟩
      (currentWatermark_mono rfl rfl (le_max_right _ _) le_rfl) ⟨rfl, rfl, rfl, rfl, rfl, rfl, rfl⟩
    change (∃ r ∈ committedWatermark :: s.pgReports, t ≤ r) ↔ t ≤ max committedWatermark s.acker.pgChangeLogWatermark
    rw [le_max_iff, ← h.reports.pg t ht]
    simp
  | trackBackup backedUpWatermark =>
    refine h.report ⟨h.reports.pg, fun t ht => ?_⟩
      (currentWatermark_mono rfl rfl le_rfl (le_max_right _ _)) ⟨rfl, rfl, rfl, rfl, rfl, rfl, rfl⟩
    change (∃ r ∈ backedUpWatermark :: s.backupReports, t ≤ r) ↔ t ≤ max backedUpWatermark s.acker.backupWatermark
    rw [le_max_iff, ← h.reports.backup t ht]
    simp

theorem note_acker (s : AckerRun W) (call : AckerCall W) : (s.note call).acker = call.record s.acker := by
  cases call with
  | status ack watermark => cases ack <;> rfl
  | _ => rfl

/-- A reset acks nothing, and any other call ends with `#maybeAck`. -/
theorem step_cases (s : AckerRun W) (call : AckerCall W) :
    ((∃ lastWatermark, call = .reset lastWatermark) ∧ s.pushed call = [] ∧ s.step call = s.note call) ∨
    (s.pushed call = (s.note call).acker.maybeAck.2.map (·.watermark) ∧ s.step call = (s.note call).settle) := by
  have hacker := note_acker s call
  unfold AckerRun.step pushed settle
  rw [hacker]
  cases call with
  | reset lastWatermark =>
    refine .inl ⟨⟨lastWatermark, rfl⟩, rfl, ?_⟩
    rw [show (AckerCall.reset lastWatermark).apply s.acker = ((AckerCall.reset lastWatermark).record s.acker, []) from rfl,
      ← hacker, List.map_nil, List.append_nil]
  | _ => exact .inr ⟨rfl, rfl⟩

/-- **A call** that is covered acks nothing too early. -/
theorem Inv.step (h : Inv log s) (hp : s.Possible log call) (hc : s.Covered call) : s.Safe call ∧ Inv log (s.step call) := by
  have hnote := h.note hp hc
  rcases step_cases s call with ⟨-, hpushed, hstep⟩ | ⟨hpushed, hstep⟩
  · rw [Safe, hpushed, hstep]
    exact ⟨⟨by simp, hnote.acks.1⟩, hnote⟩
  · obtain ⟨hsafe, hinv⟩ := hnote.settle
    rw [Safe, hpushed, hstep]
    exact ⟨⟨hsafe, hinv.acks.1⟩, hinv⟩

theorem Inv.covered_of_safe (h : Inv log s) (hp : s.Possible log call) (hs : s.Safe call) : s.Covered call := by
  cases call with
  | status ack watermark =>
    rintro rfl htx t ht hle
    have hpos := (h.logged t ht).2
    rw [h.reports.persisted_iff hpos]
    by_contra hnot
    have hstatus : s.acker.lastStatus = ⊥ := by
      by_contra hstatus
      exact hnot (h.waiting hstatus htx t ht hle)
    have hlt : t ≤ watermark := (hle.trans h.start_le).trans (hp.2 rfl).1
    have hcurrent : s.acker.currentWatermark < watermark := (not_le.mp hnot).trans_le hlt
    have hack : s.acker.lastAck < watermark := h.ack_le.elim (fun hle => hle.trans_lt hcurrent) fun hle => by
      rw [hstatus, le_bot_iff] at hle
      rw [hle]
      exact hpos.trans_le hlt
    have hacks : ((AckerCall.status true watermark).record s.acker).AcksStatus :=
      ⟨by rw [show ((AckerCall.status true watermark).record s.acker).lastTx = ⊥ from htx]; exact bot_le,
        max_lt hack hcurrent⟩
    have hpushed : watermark ∈ s.pushed (.status true watermark) := by
      change watermark ∈ ((AckerCall.status true watermark).record s.acker).maybeAck.2.map (·.watermark)
      rw [UpstreamAcker.maybeAck_snd]
      refine List.mem_append_right _ ?_
      have hupstream : ((AckerCall.status true watermark).record s.acker).upstream = true := hp.1
      rw [if_pos ⟨hupstream, hacks⟩]
      exact List.mem_singleton.mpr rfl
    have hpersisted := hs.1 watermark hpushed t ht hlt
    rcases step_cases s (.status true watermark) with ⟨⟨_, hcall⟩, -⟩ | ⟨-, hstep⟩
    · cases hcall
    · rw [hstep, persisted_settle] at hpersisted
      exact hnot ((h.reports.persisted_iff hpos).mp hpersisted)
  | _ => trivial

theorem Inv.safe_iff (h : Inv log s) (hp : s.Possible log call) : s.Safe call ↔ s.Covered call :=
  ⟨h.covered_of_safe hp, fun hc => (h.step hp hc).1⟩

/-- **Acks are safe**, and increase on each connection, exactly in the runs in
which no status wants an ack before the first commit of its connection while
something committed before the start of the connection is not persisted. -/
theorem safe_iff_covered (log : W → Prop) (trackPgChangeLog trackBackup : Bool)
    (tracks : (trackPgChangeLog || trackBackup) = true) (calls : List (AckerCall W))
    (hp : Always step (Possible log) (start (UpstreamAcker.new trackPgChangeLog trackBackup tracks)) calls) :
    Always step Safe (start (UpstreamAcker.new trackPgChangeLog trackBackup tracks)) calls ↔
      Always step Covered (start (UpstreamAcker.new trackPgChangeLog trackBackup tracks)) calls :=
  hp.iff_of_inv (inv_start trackPgChangeLog trackBackup tracks) (fun _ _ h hp => h.safe_iff hp)
    fun _ _ h hp hc => (h.step hp hc).2

/-- An acker of both stores, for the log of the transactions 5 and 10. -/
def bothStores : AckerRun ℕ := start (UpstreamAcker.new true true rfl)

theorem safe_iff_covered_both : Always step Safe bothStores
    [.reset 0, .commit 5, .status true 6, .trackPgChangeLog 5, .trackBackup 5, .reset 5, .status true 6] := by
  refine (safe_iff_covered (fun t => t = 5 ∨ t = 10) true true rfl _ ?_).mpr ?_
  · simp [Always, Possible, step, note, start, UpstreamAcker.new, AckerCall.apply, AckerCall.record, UpstreamAcker.reset,
      UpstreamAcker.maybeAck, UpstreamAcker.currentWatermark]
  · simp [Always, Covered, Persisted, step, note, start, UpstreamAcker.new, AckerCall.apply, AckerCall.record,
      UpstreamAcker.reset, UpstreamAcker.maybeAck, UpstreamAcker.currentWatermark]

/-- The backup has not reached the transaction before the start of the second
connection when the status after it is acked. -/
theorem reset_acks_early :
    Always step (Possible fun t => t = 5 ∨ t = 10) bothStores [.reset 0, .commit 5, .trackPgChangeLog 5, .reset 5, .status true 6] ∧
    ¬ Always step Safe bothStores [.reset 0, .commit 5, .trackPgChangeLog 5, .reset 5, .status true 6] := by
  constructor
  · simp [bothStores, Always, Possible, step, note, start, UpstreamAcker.new, AckerCall.apply, AckerCall.record,
      UpstreamAcker.reset, UpstreamAcker.maybeAck, UpstreamAcker.currentWatermark]
  · simp [bothStores, Always, Safe, Persisted, pushed, step, note, start, UpstreamAcker.new, AckerCall.apply,
      AckerCall.record, UpstreamAcker.reset, UpstreamAcker.maybeAck, UpstreamAcker.currentWatermark, UpstreamAcker.push,
      UpstreamAck.watermark]

end AckerRun

end ZeroSync
