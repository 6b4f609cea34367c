/-
No subscriber of a storer is forgotten, but by a `stop` that is taken while
some still wait for the end of a transaction.

Every subscriber is in one place: in the queue, in the catchup queue of the
loop, started or failed (`Placed`). A turn of the loop moves it from one to the
next; the end of the loop fails those in the queue.
-/
import ZeroSync.Storer
import Mathlib.Data.List.Perm.Basic
import Mathlib.Data.List.Nodup

namespace ZeroSync

namespace Storer

variable {changeLogBatchSize : ℕ} {s s' : Storer} {outcome : StorerOutcome} {calls : List StorerCall}

/-- The subscribers passed to `catchup`. -/
def joined (calls : List StorerCall) : List SubscriberAndMode :=
  calls.filterMap fun
    | .catchup subscriber => some subscriber
    | _ => none

/-- The catchup of a subscriber was started, or the subscriber has failed. -/
def Settled (s : Storer) (subscriber : SubscriberAndMode) : Prop := subscriber ∈ s.started.map (·.1) ∨ subscriber ∈ s.failed

/-- Where the subscribers are. -/
def places (s : Storer) : List SubscriberAndMode := waiting s.queue ++ s.catchupQueue ++ s.started.map (·.1) ++ s.failed

/-- The loop does not take `stop` while subscribers wait for the end of a transaction. -/
def StopsClean (s : Storer) : StorerCall → Prop
  | .process _ => s.queue.head? = some .stop → s.catchupQueue = []
  | _ => True

instance (s : Storer) (call : StorerCall) : Decidable (s.StopsClean call) := by
  unfold StopsClean
  split <;> infer_instance

theorem waiting_append (q q' : List QueueEntry) : waiting (q ++ q') = waiting q ++ waiting q' := List.filterMap_append

theorem count_places (s : Storer) (x : SubscriberAndMode) : s.places.count x =
    (waiting s.queue).count x + s.catchupQueue.count x + (s.started.map (·.1)).count x + s.failed.count x := by
  simp only [places, List.count_append]

/-- The storer when a turn goes on or throws. -/
def after : Except Storer Storer → Storer
  | .ok s | .error s => s

theorem map_fst_started (subs : List SubscriberAndMode) (watermark : String) :
    (subs.map (·, watermark)).map (·.1) = subs := by
  rw [List.map_map]
  exact List.map_id _

theorem startCatchup_places (subs : List SubscriberAndMode) (x : SubscriberAndMode) :
    (after (s.startCatchup subs outcome)).places.count x = s.places.count x + subs.count x := by
  rw [startCatchup]
  split
  · next hempty => simp [after, List.isEmpty_iff.mp hempty]
  · split
    · simp only [after, count_places, List.count_append]
      omega
    · simp only [after, count_places, List.map_append, List.count_append, map_fst_started]
      omega

theorem startCatchup_running (subs : List SubscriberAndMode) :
    (after (s.startCatchup subs outcome)).running = s.running := by
  rw [startCatchup]
  split
  · rfl
  · split <;> rfl

theorem endTransaction_places (x : SubscriberAndMode) :
    (after (s.endTransaction outcome)).places.count x = s.places.count x := by
  rw [endTransaction, startCatchup_places]
  simp only [count_places, List.count_nil]
  omega

theorem processChange_places (watermark json : String) (change : Option StoredChange) (x : SubscriberAndMode) :
    (after (s.processChange changeLogBatchSize watermark json change outcome)).places.count x = s.places.count x ∧
      (after (s.processChange changeLogBatchSize watermark json change outcome)).running = s.running := by
  rw [processChange]
  split
  · exact ⟨rfl, rfl⟩
  · split
    · exact ⟨rfl, rfl⟩
    · dsimp only
      split
      · exact ⟨endTransaction_places x, startCatchup_running _⟩
      · exact ⟨endTransaction_places x, startCatchup_running _⟩
      · exact ⟨rfl, rfl⟩

/-- **A turn of the loop** moves the subscriber that it takes, and those that waited for a transaction. -/
theorem processEntry_places (entry : QueueEntry) (x : SubscriberAndMode) :
    (after (s.processEntry changeLogBatchSize entry outcome)).places.count x = s.places.count x + (waiting [entry]).count x ∧
      (after (s.processEntry changeLogBatchSize entry outcome)).running = s.running := by
  cases entry with
  | ready => exact ⟨rfl, rfl⟩
  | stop => exact ⟨rfl, rfl⟩
  | subscriber subscriber =>
    rw [processEntry]
    have hwaiting : waiting [.subscriber subscriber] = [subscriber] := rfl
    split
    · refine ⟨?_, rfl⟩
      simp only [after, count_places, List.count_append, hwaiting]
      omega
    · rw [startCatchup_places, startCatchup_running, hwaiting]
      exact ⟨rfl, rfl⟩
  | abort =>
    rw [processEntry]
    split
    · split <;> exact ⟨rfl, rfl⟩
    · exact ⟨rfl, rfl⟩
  | change watermark json orig => exact processChange_places watermark json orig x

theorem finish_places (x : SubscriberAndMode) : s.finish.places.count x + s.catchupQueue.count x = s.places.count x := by
  simp only [count_places, finish, List.count_append, List.count_nil, waiting, List.filterMap_nil]
  omega

theorem failCatchupQueue_places (x : SubscriberAndMode) :
    s.failCatchupQueue.places.count x = s.places.count x + s.catchupQueue.count x := by
  simp only [count_places, failCatchupQueue, List.count_append]
  omega

theorem process_places (x : SubscriberAndMode) :
    (s.process changeLogBatchSize outcome).places.count x +
        (if s.queue.head? = some .stop then s.catchupQueue.count x else 0) = s.places.count x := by
  have hqueue (entry : QueueEntry) (queue : List QueueEntry) (h : s.queue = entry :: queue) :
      ({ s with queue := queue } : Storer).places.count x + (waiting [entry]).count x = s.places.count x := by
    have hsplit : waiting s.queue = waiting [entry] ++ waiting queue := by
      rw [h, ← waiting_append]
      rfl
    simp only [count_places, hsplit, List.count_append]
    omega
  rw [process]
  split
  · next hnil => simp [hnil]
  · next queue hstop =>
    have hmoved := hqueue _ _ hstop
    have hnone : waiting [QueueEntry.stop] = [] := rfl
    rw [hnone, List.count_nil] at hmoved
    have hfinish := finish_places (s := { s with queue := queue }) x
    simp only [hstop, List.head?_cons, if_true]
    simp only at hfinish
    omega
  · next entry queue hne hentry =>
    have hmoved := hqueue _ _ hentry
    have hnotStop : s.queue.head? ≠ some .stop := fun hhead => by
      rw [hentry, List.head?_cons] at hhead
      cases hhead
      exact hne rfl
    have hturn : (after (processEntry changeLogBatchSize { s with queue := queue } entry outcome)).places.count x = _ :=
      (processEntry_places entry x).1
    rw [if_neg hnotStop]
    split
    · next s' hok =>
      rw [hok] at hturn
      simp only [after] at hturn
      omega
    · next s' herror =>
      rw [herror] at hturn
      have hfinish := finish_places (s := s'.failCatchupQueue) x
      have hfail := failCatchupQueue_places (s := s') x
      have hsame : s'.failCatchupQueue.catchupQueue = s'.catchupQueue := rfl
      rw [hsame] at hfinish
      simp only [after] at hturn
      omega

/-- What holds of a storer after some calls: each subscriber is in one place,
and none waits for a transaction when the loop does not run. -/
structure Placed (calls : List StorerCall) (s : Storer) : Prop where
  places : s.places.Perm (joined calls)
  idle : s.running = false → s.catchupQueue = []

theorem joined_concat (calls : List StorerCall) (call : StorerCall) : joined (calls ++ [call]) = joined calls ++ joined [call] :=
  List.filterMap_append

theorem process_idle (hrunning : s.running = true) (h : (s.process changeLogBatchSize outcome).running = false) :
    (s.process changeLogBatchSize outcome).queue = [] ∧ (s.process changeLogBatchSize outcome).catchupQueue = [] := by
  rw [process] at h ⊢
  split
  · next hnil =>
    rw [hnil] at h
    simp only at h
    rw [hrunning] at h
    cases h
  · exact ⟨rfl, rfl⟩
  · next entry queue hne hentry =>
    rw [hentry] at h
    split
    · next s' hok =>
      have hkeeps : (after (processEntry changeLogBatchSize { s with queue := queue } entry outcome)).running = _ :=
        (processEntry_places entry ⟨"", "", .backup⟩).2
      rw [hok] at hkeeps
      simp only [hok, after] at h hkeeps
      rw [h, hrunning] at hkeeps
      cases hkeeps
    · exact ⟨rfl, rfl⟩

/-- **A call keeps each subscriber in its place**, but for a `stop` that forgets some. -/
theorem Placed.call {call : StorerCall} (h : Placed calls s) (hclean : s.StopsClean call)
    (hcall : s.call changeLogBatchSize call = some s') : Placed (calls ++ [call]) s' := by
  have hqueue (entries : List QueueEntry) (subs : List SubscriberAndMode) (hsubs : waiting entries = subs)
      (hjoined : joined [call] = subs) : Placed (calls ++ [call]) { s with queue := s.queue ++ entries } := by
    refine ⟨List.perm_iff_count.mpr fun x => ?_, h.idle⟩
    have hperm := h.places.count_eq x
    rw [joined_concat, hjoined, List.count_append, ← hperm, count_places, count_places]
    simp only [waiting_append, List.count_append, hsubs]
    omega
  have hsame (hjoined : joined [call] = []) : Placed (calls ++ [call]) s :=
    ⟨by rw [joined_concat, hjoined, List.append_nil]; exact h.places, h.idle⟩
  cases call with
  | store watermark json orig =>
    cases hcall
    exact hqueue [.change watermark json orig] [] rfl rfl
  | abort =>
    cases hcall
    exact hqueue [.abort] [] rfl rfl
  | catchup subscriber =>
    cases hcall
    exact hqueue [.subscriber subscriber] [subscriber] rfl rfl
  | allProcessed =>
    rw [Storer.call] at hcall
    split at hcall <;> cases hcall
    · exact hqueue [.ready] [] rfl rfl
    · exact hsame rfl
  | stop =>
    rw [Storer.call] at hcall
    split at hcall <;> cases hcall
    · exact hqueue [.abort, .stop] [] rfl rfl
    · exact hsame rfl
  | run =>
    rw [Storer.call] at hcall
    split at hcall
    · cases hcall
    · next hrunning =>
      cases hcall
      refine ⟨?_, fun _ => rfl⟩
      have hidle := h.idle (by simpa using hrunning)
      have hplaces := (hsame rfl).places
      simp only [Storer.places, hidle] at hplaces ⊢
      exact hplaces
  | process outcome =>
    rw [Storer.call] at hcall
    split at hcall
    · next hrunning =>
      cases hcall
      refine ⟨List.perm_iff_count.mpr fun x => ?_, fun hended => (process_idle hrunning hended).2⟩
      have hperm := (hsame rfl).places.count_eq x
      have hplaces : (s.process changeLogBatchSize outcome).places.count x + _ = _ := process_places x
      rw [← hperm, ← hplaces]
      split
      · next hstop => rw [hclean hstop, List.count_nil, Nat.add_zero]
      · rfl
    · cases hcall

/-- A new storer: nothing is queued. -/
def new (changeLog : List ChangeLogRow) (lastWatermark : String) : Storer :=
  ⟨[], false, none, [], changeLog, lastWatermark, [], [], []⟩

/-- A storer after calls none of which is a turn that takes `stop` while subscribers wait. -/
inductive CleanCalls (changeLogBatchSize : ℕ) (changeLog : List ChangeLogRow) (lastWatermark : String) :
    List StorerCall → Storer → Prop
  | start : CleanCalls changeLogBatchSize changeLog lastWatermark [] (new changeLog lastWatermark)
  | call {calls : List StorerCall} {s s' : Storer} (call : StorerCall)
      (from_ : CleanCalls changeLogBatchSize changeLog lastWatermark calls s) (clean : s.StopsClean call)
      (done : s.call changeLogBatchSize call = some s') :
      CleanCalls changeLogBatchSize changeLog lastWatermark (calls ++ [call]) s'

variable {changeLog : List ChangeLogRow} {lastWatermark : String}

theorem CleanCalls.placed (h : CleanCalls changeLogBatchSize changeLog lastWatermark calls s) : Placed calls s := by
  induction h with
  | start => exact ⟨.refl _, fun _ => rfl⟩
  | call call _ clean done ih => exact ih.call clean done

/-- **When the loop ends, every subscriber is settled** if and only if it did not
take `stop` while subscribers waited for the end of a transaction. -/
theorem cleanCalls_settled_iff (h : CleanCalls changeLogBatchSize changeLog lastWatermark calls s)
    (hnodup : (joined calls).Nodup) (hrunning : s.running = true)
    (hends : (s.process changeLogBatchSize outcome).running = false) :
    (∀ subscriber ∈ joined calls, (s.process changeLogBatchSize outcome).Settled subscriber) ↔
      s.StopsClean (.process outcome) := by
  have hplaced := h.placed
  obtain ⟨hqueue, hcatchup⟩ := process_idle hrunning hends
  have hsettled (x : SubscriberAndMode) :
      (s.process changeLogBatchSize outcome).Settled x ↔ 0 < (s.process changeLogBatchSize outcome).places.count x := by
    rw [List.count_pos_iff, places, hqueue, hcatchup]
    simp [Settled, waiting]
  have hforgets (x : SubscriberAndMode) : (s.process changeLogBatchSize outcome).places.count x +
      (if s.queue.head? = some .stop then s.catchupQueue.count x else 0) = (joined calls).count x := by
    rw [process_places, hplaced.places.count_eq x]
  have hone (x : SubscriberAndMode) (hx : x ∈ joined calls) : (joined calls).count x = 1 := List.count_eq_one_of_mem hnodup hx
  constructor
  · intro hall hstop
    by_contra hne
    obtain ⟨x, hx⟩ := List.exists_mem_of_ne_nil _ hne
    have hjoined : x ∈ joined calls := by
      refine hplaced.places.mem_iff.mp ?_
      simp [places, hx]
    have hpos := (hsettled x).mp (hall x hjoined)
    have hcount := hforgets x
    have hwaits := List.count_pos_iff.mpr hx
    rw [if_pos hstop, hone x hjoined] at hcount
    omega
  · intro hclean x hx
    rw [hsettled]
    have hcount := hforgets x
    rw [hone x hx] at hcount
    split at hcount
    · next hstop =>
      rw [hclean hstop, List.count_nil] at hcount
      omega
    · omega

instance (s : Storer) (subscriber : SubscriberAndMode) : Decidable (s.Settled subscriber) := by
  unfold Settled
  infer_instance

/-- Calls one after another, as long as each can be made and is clean. -/
def callAll (changeLogBatchSize : ℕ) (calls : List StorerCall) (s : Storer) : Option Storer :=
  calls.foldlM (fun s call => if s.StopsClean call then s.call changeLogBatchSize call else none) s

theorem CleanCalls.callAll {more : List StorerCall} (h : CleanCalls changeLogBatchSize changeLog lastWatermark calls s)
    (hall : callAll changeLogBatchSize more s = some s') :
    CleanCalls changeLogBatchSize changeLog lastWatermark (calls ++ more) s' := by
  induction more generalizing calls s with
  | nil =>
    cases hall
    rwa [List.append_nil]
  | cons call more ih =>
    rw [Storer.callAll, List.foldlM_cons, Option.bind_eq_bind, Option.bind_eq_some_iff] at hall
    obtain ⟨s₁, hcall, hrest⟩ := hall
    split at hcall
    · next hclean =>
      rw [List.append_cons]
      exact ih (h.call call hclean hcall) hrest
    · cases hcall

/-- A subscriber that joins a transaction which is rolled back, and one that joins after it. -/
def rolledBack : List StorerCall :=
  [.run, .store "01" "[]" (some (.begin false)), .process .succeeds, .catchup ⟨"a", "00", .serving⟩, .process .succeeds,
    .store "01" "[]" (some .rollback), .process .succeeds, .catchup ⟨"b", "00", .serving⟩, .stop, .process .succeeds,
    .process .succeeds]

/-- Both are settled when the loop has ended. -/
theorem cleanCalls_settled_rolledBack : ∃ s, CleanCalls 10 [] "00" rolledBack s ∧
    ∀ subscriber ∈ joined rolledBack, (s.process 10 .succeeds).Settled subscriber := by
  have hrun : (callAll 10 rolledBack (new [] "00")).any (fun s => decide (s.running = true ∧
      (s.process 10 .succeeds).running = false ∧ s.StopsClean (.process .succeeds))) = true := by decide +kernel
  obtain ⟨s, hs, hlast⟩ := (Option.any_eq_true ..).mp hrun
  obtain ⟨hrunning, hends, hclean⟩ := of_decide_eq_true hlast
  have hcalls : CleanCalls 10 [] "00" rolledBack s := CleanCalls.start.callAll hs
  exact ⟨s, hcalls, (cleanCalls_settled_iff hcalls (by decide) hrunning hends).mpr hclean⟩

/-- A subscriber that joins a transaction which is aborted by `stop`. -/
def stopped : List StorerCall :=
  [.run, .store "01" "[]" (some (.begin false)), .process .succeeds, .catchup ⟨"a", "00", .serving⟩, .process .succeeds,
    .stop, .process .succeeds]

/-- It is forgotten when the loop has ended. -/
theorem cleanCalls_forgets : ∃ s, CleanCalls 10 [] "00" stopped s ∧ s.running = true ∧
    (s.process 10 .succeeds).running = false ∧ ∃ subscriber ∈ joined stopped, ¬(s.process 10 .succeeds).Settled subscriber := by
  have hrun : (callAll 10 stopped (new [] "00")).any (fun s => decide (s.running = true ∧
      (s.process 10 .succeeds).running = false ∧
      ∃ subscriber ∈ joined stopped, ¬(s.process 10 .succeeds).Settled subscriber)) = true := by decide +kernel
  obtain ⟨s, hs, hlast⟩ := (Option.any_eq_true ..).mp hrun
  exact ⟨s, CleanCalls.start.callAll hs, of_decide_eq_true hlast⟩

end Storer

end ZeroSync
