/-
A mutation tracker with the query manager attached to it: what holds in
every order of calls, and what a removal of a query may meet.
-/
import ZeroSync.MutationTracker
import ZeroSync.QueryManagerFacts
import ZeroSync.Runs

namespace ZeroSync

/-- The tracker, the manager that listens to it, the first assertion that
failed, and each `#remove` that ran with the tracker it met. -/
structure MutationSession (κ β δ ε : Type) where
  tracker : MutationTracker δ ε
  queryManager : QueryManager κ β
  failed : Option String
  removals : List (κ × MutationTracker δ ε)

namespace MutationSession

/-- A call. -/
inductive Event (κ β δ ε : Type)
  | trackMutation
  | mutationIDAssigned (id mutationID : ℕ)
  | rejectMutation (id : ℕ) (e : ε)
  | rejectAllOutstandingMutations (error : ε)
  | processPushResponse (response : PushResponseBody δ)
  | processMutationResponses (diffs : List (ℕ × ResponseDiff δ))
  | lmidAdvanced (lastMutationID : ℕ)
  | add (queryId : κ) (normalized : AST) (name : Option String) (args : Option (List β)) (ttl : TTL)
  | update (queryID : κ) (ttl : TTL)
  | cleanup (k : ℕ)
  | flushBatch

variable {κ β δ ε : Type} [DecidableEq κ]

def init (clientID : String) (blank : QueryManager.Entry β) (recentQueriesMaxSize : ℕ) : MutationSession κ β δ ε :=
  ⟨.init clientID, .init blank recentQueriesMaxSize, none, []⟩

def fail (s : MutationSession κ β δ ε) (message : String) : MutationSession κ β δ ε :=
  { s with failed := s.failed.or (some message) }

/-- A call of the tracker that throws or not. -/
def track (s : MutationSession κ β δ ε) : Except String (MutationTracker δ ε) → MutationSession κ β δ ε
  | .ok tracker => { s with tracker }
  | .error message => s.fail message

/-- A call of the manager that throws or not, in which the queries of `removed` are removed. -/
def manage (s : MutationSession κ β δ ε) (removed : List κ) : Except String (QueryManager κ β) → MutationSession κ β δ ε
  | .ok queryManager => { s with queryManager, removals := s.removals ++ removed.map fun hash => (hash, s.tracker) }
  | .error message => s.fail message

/-- `#notifyAllMutationsAppliedListeners`. -/
def notifyAllMutationsAppliedListeners (s : MutationSession κ β δ ε) : MutationSession κ β δ ε :=
  s.manage (s.queryManager.pendingRemovals.map (·.2)) s.queryManager.allMutationsApplied

/-- The query a cleanup callback removes at once. -/
def removedBy (s : MutationSession κ β δ ε) (k : ℕ) : List κ :=
  if s.tracker.size > 0 then []
  else (s.queryManager.cleanups[k]?.filter fun cb => !cb.removed).toList.map (·.queryId)

def step (s : MutationSession κ β δ ε) : Event κ β δ ε → MutationSession κ β δ ε
  | .trackMutation => { s with tracker := s.tracker.trackMutation }
  | .mutationIDAssigned id mutationID => { s with tracker := s.tracker.mutationIDAssigned id mutationID }
  | .rejectMutation id e => { s with tracker := s.tracker.rejectMutation id e }
  | .rejectAllOutstandingMutations error =>
    let (tracker, notify) := s.tracker.rejectAllOutstandingMutations error
    let s := { s with tracker }
    if notify then s.notifyAllMutationsAppliedListeners else s
  | .processPushResponse response => s.track (s.tracker.processPushResponse response)
  | .processMutationResponses diffs => s.track (s.tracker.processMutationResponses diffs)
  | .lmidAdvanced lastMutationID =>
    match s.tracker.lmidAdvanced lastMutationID with
    | .error message => s.fail message
    | .ok (tracker, notify) =>
      let s := { s with tracker }
      if notify then s.notifyAllMutationsAppliedListeners else s
  | .add queryId normalized name args ttl => s.manage [] (s.queryManager.add queryId normalized name args ttl)
  | .update queryID ttl => s.manage [] (s.queryManager.update queryID ttl)
  | .cleanup k => s.manage (s.removedBy k) (s.queryManager.cleanup s.tracker.size k)
  | .flushBatch => { s with queryManager := s.queryManager.flushBatch.2 }

/-! ## The calls a client makes -/

/-- A mutation gets its id once, while it waits: one above those of the
mutations that wait and above what the server has acknowledged. Mutations
tracked after it have none yet. Results are the client's own. -/
def Legal (s : MutationSession κ β δ ε) : Event κ β δ ε → Prop
  | .mutationIDAssigned id mutationID => s.tracker.outstandingMutations.get? id = none ∨
      s.tracker.outstandingMutations.get? id = some none ∧ s.tracker.currentMutationID < mutationID ∧
      (∀ id' m, s.tracker.outstandingMutations.get? id' = some (some m) → m < mutationID) ∧
      ∀ pre post, s.tracker.outstandingMutations.entries = pre ++ (id, none) :: post → ∀ e ∈ post, e.2 = none
  | .processPushResponse response => ∀ mutations, response = .ok mutations → ∀ m ∈ mutations, m.1.1 = s.tracker.clientID
  | .processMutationResponses diffs => ∀ diff ∈ diffs, ∀ mid, diff ≠ (mid, .change)
  | .lmidAdvanced lastMutationID => s.tracker.currentMutationID ≤ lastMutationID
  | .add _ _ name args _ => name.isNone = args.isNone
  | .update queryID _ => s.queryManager.has queryID = true
  | _ => True

/-- No mutation gets an id before one that was tracked earlier and waits without one. -/
def InOrder (s : MutationSession κ β δ ε) : Event κ β δ ε → Prop
  | .mutationIDAssigned id _ => ∀ pre post, s.tracker.outstandingMutations.entries = pre ++ (id, none) :: post →
      ∀ e ∈ pre, e.2 ≠ none
  | _ => True

/-! ## What every order of calls keeps -/

/-- Every id that waits is one the server has acknowledged. -/
def Covered (t : MutationTracker δ ε) : Prop :=
  ∀ id n, t.outstandingMutations.get? id = some (some n) → n ≤ t.currentMutationID

/-- What holds after every call. -/
structure Inv (s : MutationSession κ β δ ε) : Prop where
  tracker : s.tracker.Inv
  queryManager : s.queryManager.Inv
  failed : s.failed = none
  removals : ∀ r ∈ s.removals, Covered r.2

variable {s : MutationSession κ β δ ε}

theorem Inv.init (clientID : String) (blank : QueryManager.Entry β) (recentQueriesMaxSize : ℕ) :
    (init clientID blank recentQueriesMaxSize : MutationSession κ β δ ε).Inv where
  tracker := .init clientID
  queryManager := .init blank recentQueriesMaxSize
  failed := rfl
  removals r hr := by cases hr

theorem Inv.track (h : s.Inv) {result : Except String (MutationTracker δ ε)}
    (hresult : ∃ t', result = .ok t' ∧ t'.Inv ∧ s.tracker.Shrinks t') : (s.track result).Inv := by
  obtain ⟨t', rfl, ht', -⟩ := hresult
  exact { h with tracker := ht' }

theorem Inv.manage (h : s.Inv) {removed : List κ} {result : Except String (QueryManager κ β)}
    (hresult : ∃ qm', result = .ok qm' ∧ qm'.Inv) (hcovered : removed = [] ∨ Covered s.tracker) :
    (s.manage removed result).Inv := by
  obtain ⟨qm', rfl, hqm'⟩ := hresult
  refine { h with queryManager := hqm', removals := fun r hr => ?_ }
  rcases List.mem_append.mp hr with hr | hr
  · exact h.removals r hr
  · obtain ⟨hash, hhash, rfl⟩ := List.mem_map.mp hr
    rcases hcovered with rfl | hcovered
    · cases hhash
    · exact hcovered

theorem Inv.notifyAllMutationsAppliedListeners (h : s.Inv) (hcovered : Covered s.tracker) :
    s.notifyAllMutationsAppliedListeners.Inv ∧ s.notifyAllMutationsAppliedListeners.queryManager.pendingRemovals = [] ∧
      s.notifyAllMutationsAppliedListeners.tracker = s.tracker := by
  obtain ⟨qm', hok, hqm', hpending⟩ := h.queryManager.allMutationsApplied
  refine ⟨h.manage ⟨qm', hok, hqm'⟩ (.inr hcovered), ?_, ?_⟩
  · simp [MutationSession.notifyAllMutationsAppliedListeners, MutationSession.manage, hok, hpending]
  · simp [MutationSession.notifyAllMutationsAppliedListeners, MutationSession.manage, hok]

theorem covered_of_size {t : MutationTracker δ ε} (hsize : t.size = 0) : Covered t := by
  intro id n hid
  have hmem := (OrderedMap.mem_entries_iff ..).mpr hid
  rw [List.eq_nil_of_length_eq_zero hsize] at hmem
  cases hmem

theorem Inv.rejectAllOutstandingMutations (h : s.Inv) (error : ε) :
    let s' := s.step (.rejectAllOutstandingMutations error)
    s'.Inv ∧ s'.tracker.size = 0 ∧ s'.tracker.currentMutationID = s.tracker.currentMutationID ∧
      (s.tracker.size ≠ 0 → s'.queryManager.pendingRemovals = []) := by
  obtain ⟨hinv, hsize, hcurrent⟩ := h.tracker.rejectAllOutstandingMutations error
  have hrejected : Inv { s with tracker := (s.tracker.rejectAllOutstandingMutations error).1 } := { h with tracker := hinv }
  by_cases hzero : s.tracker.size = 0
  · have hstep : s.step (.rejectAllOutstandingMutations error) = s := by
      simp [MutationSession.step, MutationTracker.rejectAllOutstandingMutations, hzero]
    rw [hstep]
    exact ⟨h, hzero, rfl, fun hne => absurd hzero hne⟩
  · obtain ⟨hinv', hpending, htracker⟩ := hrejected.notifyAllMutationsAppliedListeners (covered_of_size hsize)
    have hstep : s.step (.rejectAllOutstandingMutations error) = MutationSession.notifyAllMutationsAppliedListeners
        { s with tracker := (s.tracker.rejectAllOutstandingMutations error).1 } := by
      simp [MutationSession.step, MutationTracker.rejectAllOutstandingMutations, hzero]
    rw [hstep]
    exact ⟨hinv', by rw [htracker]; exact hsize, by rw [htracker]; exact hcurrent, fun _ => hpending⟩

/-- What `lmidAdvanced` leaves. -/
theorem Inv.lmidAdvanced (h : s.Inv) {n : ℕ} (hn : s.tracker.currentMutationID ≤ n) :
    let s' := s.step (.lmidAdvanced n)
    s'.Inv ∧ s'.tracker.currentMutationID = n ∧
      s'.tracker.outstandingMutations.entries.Sublist s.tracker.outstandingMutations.entries ∧
      (s.tracker.currentMutationID < n → s'.tracker.Overtaken n) ∧
      (s.tracker.currentMutationID = n → s'.tracker = s.tracker) ∧
      (s.tracker.currentMutationID < n → s.tracker.largestOutstandingMutationID ≤ n →
        s'.queryManager.pendingRemovals = []) := by
  obtain ⟨t', notify, hok, hinv, hcurrent, hlargest, hentries, hnotify, hovertaken, hsame⟩ := h.tracker.lmidAdvanced hn
  have hadvanced : Inv { s with tracker := t' } := { h with tracker := hinv }
  cases notify with
  | false =>
    have hstep : s.step (.lmidAdvanced n) = { s with tracker := t' } := by simp [MutationSession.step, hok]
    rw [hstep]
    refine ⟨hadvanced, hcurrent, hentries, hovertaken, hsame, fun hlt hle => ?_⟩
    cases hnotify.mpr ⟨hlt, hle⟩
  | true =>
    have hstep : s.step (.lmidAdvanced n) =
        MutationSession.notifyAllMutationsAppliedListeners { s with tracker := t' } := by
      simp [MutationSession.step, hok]
    have hcovered : Covered t' := fun id m hid => by
      have hm := hinv.largest id m hid
      rw [hlargest] at hm
      rw [hcurrent]
      exact hm.trans (hnotify.mp rfl).2
    obtain ⟨hinv', hpending, htracker⟩ := hadvanced.notifyAllMutationsAppliedListeners hcovered
    rw [hstep]
    dsimp only
    rw [htracker]
    exact ⟨hinv', hcurrent, hentries, hovertaken, hsame, fun _ _ => hpending⟩

theorem Inv.step {e : Event κ β δ ε} (h : s.Inv) (hlegal : s.Legal e) : (s.step e).Inv := by
  cases e with
  | trackMutation => exact { h with tracker := h.tracker.trackMutation }
  | mutationIDAssigned id mutationID =>
    rcases hlegal with hnone | ⟨hid, hcurrent, hlt, hlater⟩
    · have hsame : s.tracker.mutationIDAssigned id mutationID = s.tracker := by
        simp [MutationTracker.mutationIDAssigned, hnone]
      exact { h with tracker := by simpa [MutationSession.step, hsame] using h.tracker }
    · exact { h with tracker := h.tracker.mutationIDAssigned hid (by omega) hlt hlater }
  | rejectMutation id e => exact { h with tracker := (h.tracker.rejectMutation id e).1 }
  | rejectAllOutstandingMutations error => exact (h.rejectAllOutstandingMutations error).1
  | processPushResponse response => exact h.track (h.tracker.processPushResponse hlegal)
  | processMutationResponses diffs => exact h.track (h.tracker.processMutationResponses hlegal)
  | lmidAdvanced n => exact (h.lmidAdvanced hlegal).1
  | add queryId normalized name args ttl =>
    obtain ⟨qm', hok, hqm', -⟩ := h.queryManager.add hlegal
    exact h.manage ⟨qm', hok, hqm'⟩ (.inl rfl)
  | update queryID ttl =>
    obtain ⟨qm', hok, hqm', -⟩ := h.queryManager.update hlegal
    exact h.manage ⟨qm', hok, hqm'⟩ (.inl rfl)
  | cleanup k =>
    obtain ⟨qm', hok, hqm', -⟩ := h.queryManager.cleanup s.tracker.size k
    refine h.manage ⟨qm', hok, hqm'⟩ ?_
    by_cases hsize : s.tracker.size > 0
    · exact .inl (if_pos hsize)
    · exact .inr (covered_of_size (by omega))
  | flushBatch => exact { h with queryManager := h.queryManager.congr rfl rfl rfl rfl }

theorem Inv.run (h : s.Inv) {es : List (Event κ β δ ε)} (hlegal : Runs.Always MutationSession.step Legal s es) :
    (es.foldl MutationSession.step s).Inv := by
  induction es generalizing s with
  | nil => exact h
  | cons e es ih => exact ih (h.step hlegal.1) hlegal.2

/-! ## Ids assigned in order -/

/-- The mutations with ids come first, and their ids are above what the
server has acknowledged. -/
structure Ordered (t : MutationTracker δ ε) : Prop where
  above : ∀ id n, t.outstandingMutations.get? id = some (some n) → t.currentMutationID < n
  first : t.outstandingMutations.entries.Pairwise fun a b => a.2 = none → b.2 = none

variable {t t' : MutationTracker δ ε}

theorem Ordered.shrinks (h : Ordered t) (hsub : t'.outstandingMutations.entries.Sublist t.outstandingMutations.entries)
    (hcurrent : t'.currentMutationID = t.currentMutationID) : Ordered t' where
  above id n hid := by
    rw [hcurrent]
    exact h.above id n ((OrderedMap.mem_entries_iff ..).mp (hsub.subset ((OrderedMap.mem_entries_iff ..).mpr hid)))
  first := h.first.sublist hsub

theorem Ordered.trackMutation (h : Ordered t) (hinv : t.Inv) : Ordered t.trackMutation := by
  have hnew : t.outstandingMutations.get? (t.currentEphemeralID + 1) = none := by
    rw [Option.eq_none_iff_forall_ne_some]
    intro entry hentry
    exact absurd (hinv.tracked _ entry hentry).2 (Nat.not_succ_le_self _)
  have hentries : t.trackMutation.outstandingMutations.entries =
      t.outstandingMutations.entries ++ [(t.currentEphemeralID + 1, none)] :=
    OrderedMap.setEntries_of_notMem (by rw [← OrderedMap.keys, OrderedMap.mem_keys_iff, hnew]; simp)
  constructor
  · intro id n hid
    have hmem := (OrderedMap.mem_entries_iff ..).mpr hid
    rw [hentries, List.mem_append] at hmem
    rcases hmem with hmem | hmem
    · exact h.above id n ((OrderedMap.mem_entries_iff ..).mp hmem)
    · simp at hmem
  · rw [hentries]
    refine List.pairwise_append.mpr ⟨h.first, List.pairwise_singleton .., fun a _ b hb _ => ?_⟩
    obtain rfl := List.mem_singleton.mp hb
    rfl

theorem Ordered.step {e : Event κ β δ ε} (h : Ordered s.tracker) (hinv : s.Inv) (hlegal : s.Legal e)
    (horder : s.InOrder e) : Ordered (s.step e).tracker := by
  have htrack : ∀ {result : Except String (MutationTracker δ ε)},
      (∃ t', result = .ok t' ∧ t'.Inv ∧ s.tracker.Shrinks t') → Ordered (s.track result).tracker := by
    rintro _ ⟨t', rfl, -, hshrinks⟩
    exact h.shrinks hshrinks.entries hshrinks.current
  have hmanage : ∀ removed (result : Except String (QueryManager κ β)), (s.manage removed result).tracker = s.tracker :=
    fun _ result => by cases result <;> rfl
  cases e with
  | trackMutation => exact h.trackMutation hinv.tracker
  | mutationIDAssigned id mutationID =>
    rcases hlegal with hnone | ⟨hid, hcurrent, hlt, hlater⟩
    · have hsame : s.tracker.mutationIDAssigned id mutationID = s.tracker := by
        simp [MutationTracker.mutationIDAssigned, hnone]
      simpa [MutationSession.step, hsame] using h
    · obtain ⟨pre, post, hentries, hset⟩ := OrderedMap.entries_split hid
      have hassigned : (s.tracker.mutationIDAssigned id mutationID).outstandingMutations.entries =
          pre ++ (id, some mutationID) :: post := by
        simp [MutationTracker.mutationIDAssigned, hid, hset]
      have hsame : (s.tracker.mutationIDAssigned id mutationID).currentMutationID = s.tracker.currentMutationID := by
        simp [MutationTracker.mutationIDAssigned, hid]
      have hfirst := h.first
      rw [hentries, List.pairwise_append, List.pairwise_cons] at hfirst
      obtain ⟨hpre, ⟨-, hpost⟩, hcross⟩ := hfirst
      constructor
      · intro id' n hid'
        have hmem := (OrderedMap.mem_entries_iff ..).mpr hid'
        show (s.tracker.mutationIDAssigned id mutationID).currentMutationID < n
        rw [hsame]
        simp only [MutationSession.step, hassigned, List.mem_append, List.mem_cons, Prod.mk.injEq, Option.some.injEq] at hmem
        have hold : (id', some n) ∈ pre ∨ (id', some n) ∈ post → s.tracker.currentMutationID < n := fun hmem =>
          h.above id' n ((OrderedMap.mem_entries_iff ..).mp (by rw [hentries]; simp; tauto))
        rcases hmem with hmem | ⟨-, rfl⟩ | hmem
        · exact hold (.inl hmem)
        · exact hcurrent
        · exact hold (.inr hmem)
      · show (s.tracker.mutationIDAssigned id mutationID).outstandingMutations.entries.Pairwise _
        rw [hassigned, List.pairwise_append, List.pairwise_cons]
        refine ⟨hpre, ⟨fun b hb hnone => (by cases hnone), hpost⟩, fun a ha b hb hnone => ?_⟩
        exact absurd hnone (horder pre post hentries a ha)
  | rejectMutation id e =>
    have hshrinks := (hinv.tracker.rejectMutation id e).2
    exact h.shrinks hshrinks.entries hshrinks.current
  | rejectAllOutstandingMutations error =>
    obtain ⟨-, hsize, hcurrent, -⟩ := hinv.rejectAllOutstandingMutations error
    refine h.shrinks ?_ hcurrent
    rw [List.eq_nil_of_length_eq_zero hsize]
    exact List.nil_sublist _
  | processPushResponse response => exact htrack (hinv.tracker.processPushResponse hlegal)
  | processMutationResponses diffs => exact htrack (hinv.tracker.processMutationResponses hlegal)
  | lmidAdvanced n =>
    obtain ⟨-, hcurrent, hentries, hovertaken, hsame, -⟩ := hinv.lmidAdvanced hlegal
    rcases Nat.eq_or_lt_of_le hlegal with heq | hlt
    · rw [hsame heq]
      exact h
    · have hfirst := h.first.sublist hentries
      refine ⟨fun id m hid => ?_, hfirst⟩
      obtain ⟨pre, post, hsplit, -⟩ := OrderedMap.entries_split hid
      by_contra hle
      obtain ⟨e, he, hnone⟩ := hovertaken hlt pre id m post hsplit (by omega)
      rw [hsplit, List.pairwise_append] at hfirst
      cases hfirst.2.2 e he (id, some m) (List.mem_cons_self ..) hnone
  | add queryId normalized name args ttl => simpa [MutationSession.step, hmanage] using h
  | update queryID ttl => simpa [MutationSession.step, hmanage] using h
  | cleanup k => simpa [MutationSession.step, hmanage] using h
  | flushBatch => exact h

theorem Ordered.run (h : Ordered s.tracker) (hinv : s.Inv) {es : List (Event κ β δ ε)}
    (hlegal : Runs.Always MutationSession.step Legal s es) (horder : Runs.Always MutationSession.step InOrder s es) :
    Ordered (es.foldl MutationSession.step s).tracker := by
  induction es generalizing s with
  | nil => exact h
  | cons e es ih => exact ih (h.step hinv hlegal.1 horder.1) (hinv.step hlegal.1) hlegal.2 horder.2

/-! ## The main result -/

/-- What holds of a state of a session, of the next `lmidAdvanced` and of the
next `rejectAllOutstandingMutations`. -/
structure Orderly (s : MutationSession κ β δ ε) : Prop where
  failed : s.failed = none
  inverse : ∀ n id, s.tracker.ephemeralIDsByMutationID.get? n = some id ↔
    s.tracker.outstandingMutations.get? id = some (some n)
  settled_once : (s.tracker.settled.map (·.1)).Nodup
  removals : ∀ r ∈ s.removals, Covered r.2
  lmidAdvanced : ∀ n, s.tracker.currentMutationID < n → (s.step (.lmidAdvanced n)).tracker.Overtaken n ∧
    (s.tracker.largestOutstandingMutationID ≤ n → (s.step (.lmidAdvanced n)).queryManager.pendingRemovals = [])
  rejectAll : ∀ error, s.tracker.size ≠ 0 → (s.step (.rejectAllOutstandingMutations error)).tracker.size = 0 ∧
    (s.step (.rejectAllOutstandingMutations error)).queryManager.pendingRemovals = []

/-- **Mutations and pending removals**: in every order of calls a client makes
nothing fails, ids are found again, and no mutation is settled twice. A query
is removed only when every id that waits is acknowledged; raising the last id
to the largest assigned, or rejecting all, leaves no removal pending. With ids
assigned in the order of tracking none that waits is acknowledged. -/
theorem run_orderly (clientID : String) (blank : QueryManager.Entry β) (recentQueriesMaxSize : ℕ)
    (es : List (Event κ β δ ε)) (hlegal : Runs.Always step Legal (init clientID blank recentQueriesMaxSize) es) :
    (es.foldl step (init clientID blank recentQueriesMaxSize)).Orderly ∧
      (Runs.Always step InOrder (init clientID blank recentQueriesMaxSize) es → ∀ id n,
        (es.foldl step (init clientID blank recentQueriesMaxSize)).tracker.outstandingMutations.get? id = some (some n) →
          (es.foldl step (init clientID blank recentQueriesMaxSize)).tracker.currentMutationID < n) := by
  have hinit : (init clientID blank recentQueriesMaxSize : MutationSession κ β δ ε).Inv := .init ..
  have hinv := hinit.run hlegal
  refine ⟨?_, fun horder => (Ordered.run ⟨fun id n hid => ?_, List.Pairwise.nil⟩ hinit hlegal horder).above⟩
  · exact {
      failed := hinv.failed
      inverse := hinv.tracker.inverse
      settled_once := hinv.tracker.settled_nodup
      removals := hinv.removals
      lmidAdvanced := fun n hn => by
        obtain ⟨-, -, -, hovertaken, -, hpending⟩ := hinv.lmidAdvanced hn.le
        exact ⟨hovertaken hn, hpending hn⟩
      rejectAll := fun error hsize => by
        obtain ⟨-, hzero, -, hpending⟩ := hinv.rejectAllOutstandingMutations error
        exact ⟨hzero, hpending hsize⟩ }
  · cases hid

/-! ### Removals and ids the calls leave -/

def blankIssues : QueryManager.Entry Empty := { normalized := issuesAST, name := none, args := none, count := 0, ttl := 0 }

def begun : MutationSession ℕ Empty Empty Unit := init "client" blankIssues 0

/-- The server answers a push before it acknowledges the mutation. -/
def answeredByPush : List (Event ℕ Empty Empty Unit) :=
  [.add 1 issuesAST none none .forever, .trackMutation, .mutationIDAssigned 1 1, .cleanup 0,
    .processPushResponse (.ok [(("client", 1), .ok none)])]

/-- The first mutation is acknowledged while the second waits for its id. -/
def acknowledgedTooEarly : List (Event ℕ Empty Empty Unit) :=
  [.add 1 issuesAST none none .forever, .trackMutation, .mutationIDAssigned 1 1, .trackMutation, .cleanup 0, .lmidAdvanced 1]

/-- The second mutation gets an id while the first one waits for its. -/
def overtakes : List (Event ℕ Empty Empty Unit) := [.trackMutation, .trackMutation, .mutationIDAssigned 2 1, .lmidAdvanced 1]

/-- A removal stays pending with no mutation outstanding; a query is removed
with one outstanding; an id stays outstanding once it is acknowledged. -/
theorem answered_keeps_removal :
    ((answeredByPush.foldl step begun).tracker.size = 0 ∧
      (answeredByPush.foldl step begun).queryManager.pendingRemovals ≠ []) ∧
    ((acknowledgedTooEarly.dropLast.foldl step begun).queryManager.has 1 = true ∧
      (acknowledgedTooEarly.foldl step begun).queryManager.has 1 = false ∧
      (acknowledgedTooEarly.foldl step begun).tracker.size ≠ 0) ∧
    (overtakes.foldl step begun).tracker.outstandingMutations.get? 2 = some (some 1) := by
  decide +kernel

theorem run_orderly_answered : (answeredByPush.foldl step begun).Orderly := by
  have hwaits : ∀ id' m, (OrderedMap.set ∅ 1 none : OrderedMap ℕ (Option ℕ)).get? id' ≠ some (some m) := fun id' m => by
    rw [OrderedMap.get?_set]
    split <;> simp
  have hlast : ∀ pre post, [(1, (none : Option ℕ))] = pre ++ (1, none) :: post → ∀ e ∈ post, e.2 = none := by
    intro pre post hsplit e he
    have hlen := congrArg List.length hsplit
    simp only [List.length_append, List.length_cons, List.length_nil] at hlen
    rw [List.eq_nil_of_length_eq_zero (show post.length = 0 by omega)] at he
    cases he
  refine (run_orderly "client" blankIssues 0 answeredByPush ⟨rfl, trivial, .inr ⟨by decide +kernel, by decide +kernel,
    fun id' m hid => absurd hid (hwaits id' m), hlast⟩, trivial, fun mutations hok m hm => ?_, trivial⟩).1
  obtain rfl := PushResponseBody.ok.inj hok
  obtain rfl := List.mem_singleton.mp hm
  rfl

end MutationSession

end ZeroSync
