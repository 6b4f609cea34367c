/-
What a `Subscription` accounts for over a run of its producer and its consumer, and the
consumers that are done once with each message.
-/
import ZeroSync.MessageSubscriptionFacts

namespace ZeroSync.MessageSubscription

variable {M E : Type} {coalesce : Option (M → M → M)} {s s' s'' : Run M E} {groups : List (List (Entry M))}
  {late left held : List (Entry M)}

/-! ## Consumers that signal each message once -/

def Event.isCall : Event M E → Bool
  | .next => true
  | .return_ => true
  | _ => false

def Event.signaled? : Event M E → Option ℕ
  | .consumed call => some call
  | _ => none

namespace Run

/-! ### What an operation leaves alone -/

/-- An operation that gives numbers to `n` calls, settles promises and wakes calls. -/
structure Frame (n : ℕ) (s s' : Run M E) : Prop where
  consumed : s'.consumed = s.consumed
  continued : s'.continued = s.continued
  prevConsumed : s'.prevConsumed = s.prevConsumed
  results : s.results ⊆ s'.results
  returned : s.returned <+: s'.returned
  calls : s'.calls = s.calls + n
  tally : s'.returned.length + s'.woken.length + s'.consumers.length =
    s.returned.length + s.woken.length + s.consumers.length + n

theorem Frame.refl (s : Run M E) : Frame 0 s s := ⟨rfl, rfl, rfl, List.Subset.refl _, List.prefix_rfl, rfl, rfl⟩

theorem subset_settle (results : List (ℕ × Result)) (push : ℕ) (result : Result) :
    results ⊆ settle results push result := by
  unfold settle
  split
  · exact List.Subset.refl _
  · exact List.subset_append_left _ _

theorem subset_settleAll (results : List (ℕ × Result)) (entries : List (Entry M)) (result : Result) :
    results ⊆ entries.foldl (fun results e => settle results e.push result) results := by
  induction entries generalizing results with
  | nil => exact List.Subset.refl _
  | cons e entries ih => exact List.Subset.trans (subset_settle results e.push result) (ih _)

theorem frame_push (coalesce : Option (M → M → M)) (s : Run M E) (value : M) : Frame 0 s (s.push coalesce value) := by
  unfold push
  dsimp only
  split
  · exact ⟨rfl, rfl, rfl, subset_settle _ _ _, List.prefix_rfl, rfl, rfl⟩
  · next consumer consumers _ hconsumers =>
    refine ⟨rfl, rfl, rfl, List.Subset.refl _, List.prefix_rfl, rfl, ?_⟩
    simp only [hconsumers, List.length_append, List.length_cons, List.length_nil]
    omega
  · split
    · exact ⟨rfl, rfl, rfl, subset_settle _ _ _, List.prefix_rfl, rfl, rfl⟩
    · exact ⟨rfl, rfl, rfl, List.Subset.refl _, List.prefix_rfl, rfl, rfl⟩

theorem frame_terminate (s : Run M E) (sentinel : Sentinel E) : Frame 0 s (s.terminate sentinel) := by
  unfold terminate
  split
  · exact Frame.refl s
  · refine ⟨rfl, rfl, rfl, subset_settleAll _ _ _, List.prefix_rfl, rfl, ?_⟩
    simp only [List.length_append, List.length_map, List.length_nil]
    omega

theorem frame_end_ (s : Run M E) : Frame 0 s s.end_ := by
  unfold end_
  split
  · exact Frame.refl s
  · exact frame_terminate s _
  · exact ⟨rfl, rfl, rfl, List.Subset.refl _, List.prefix_rfl, rfl, rfl⟩

theorem frame_resume (s : Run M E) : Frame 0 s s.resume := by
  unfold resume
  split
  · exact Frame.refl s
  · next call e woken hwoken =>
    refine ⟨rfl, rfl, rfl, List.Subset.refl _, List.prefix_append _ _, rfl, ?_⟩
    simp only [hwoken, List.length_append, List.length_cons, List.length_nil]
    omega
  · next call outcome woken _ hwoken =>
    refine ⟨rfl, rfl, rfl, List.Subset.refl _, List.prefix_append _ _, rfl, ?_⟩
    simp only [hwoken, List.length_append, List.length_cons, List.length_nil]
    omega

theorem frame_pipelineNext (s : Run M E) : Frame 1 s s.pipelineNext := by
  unfold pipelineNext
  dsimp only
  split
  · next messages hmessages =>
    have hcancel := frame_terminate { s with calls := s.calls + 1, messages } (.canceled : Sentinel E)
    refine ⟨hcancel.consumed, hcancel.continued, hcancel.prevConsumed, hcancel.results,
      hcancel.returned.trans (List.prefix_append _ _), hcancel.calls, ?_⟩
    have htally := hcancel.tally
    simp only [cancel, List.length_append, List.length_singleton] at htally ⊢
    omega
  · refine ⟨rfl, rfl, rfl, List.Subset.refl _, List.prefix_append _ _, rfl, ?_⟩
    simp only [List.length_append, List.length_singleton]
    omega
  · split
    · refine ⟨rfl, rfl, rfl, List.Subset.refl _, List.prefix_append _ _, rfl, ?_⟩
      simp only [List.length_append, List.length_singleton]
      omega
    · refine ⟨rfl, rfl, rfl, List.Subset.refl _, List.prefix_rfl, rfl, ?_⟩
      simp only [List.length_append, List.length_singleton]
      omega

/-- The messages that calls of the plain iterator have come back with. -/
def passedOn (s : Run M E) : List (Entry M) := entriesOf (s.returned.take s.continued)

/-- A consumer of the pipeline is done once with what a call has come back with; one of the plain iterator calls
again only when each of its calls has come back with a message. -/
def SignalsOnce (coalesce : Option (M → M → M)) (iteration : Iteration) (events : List (Event M E)) : Prop :=
  match iteration with
  | .pipeline => (events.filterMap Event.signaled?).Nodup
  | .plain => ∀ before event after, events = before ++ event :: after → event.isCall →
      before.countP Event.isCall ≤ (run coalesce .plain before).passedOn.length

theorem Invariant.handed_nodup (h : Invariant coalesce s groups late left held) : (s.handed.map (·.2)).Nodup :=
  (List.nodup_append'.mp (List.Nodup.of_map _ h.ordered.entries_nodup)).1

theorem Invariant.call_unique (h : Invariant coalesce s groups late left held) {call call' : ℕ} {e : Entry M}
    (he : (call, e) ∈ s.handed) (he' : (call', e) ∈ s.handed) : call = call' :=
  congrArg Prod.fst (List.inj_on_of_nodup_map h.handed_nodup he he' rfl)

/-! ### The pipeline -/

/-- What the consumer of a pipeline has been done with, it has signaled. -/
def Signaled (s : Run M E) (signals : List ℕ) : Prop :=
  ∀ e ∈ s.consumed, ∃ call ∈ signals, (call, .entry e) ∈ s.returned

theorem Frame.signaled {n : ℕ} (h : Frame n s s') {signals : List ℕ} (hsignaled : s.Signaled signals) :
    s'.Signaled signals := by
  intro e he
  rw [h.consumed] at he
  obtain ⟨call, hcall, hreturned⟩ := hsignaled e he
  exact ⟨call, hcall, h.returned.subset hreturned⟩

theorem Invariant.signal_once (h : Invariant coalesce s groups late left held) {signals : List ℕ}
    (hsignaled : s.Signaled signals) (hnodup : s.consumed.Nodup) {call : ℕ} (hcall : call ∉ signals) :
    (s.signal call).consumed.Nodup ∧ (s.signal call).Signaled (signals ++ [call]) := by
  have hmore : s.Signaled (signals ++ [call]) := fun e he =>
    (hsignaled e he).imp fun _ hin => ⟨List.mem_append_left _ hin.1, hin.2⟩
  unfold Run.signal
  split
  · next c e hfind =>
    have hreturned : (c, Outcome.entry e) ∈ s.returned := List.mem_of_find?_eq_some hfind
    obtain rfl : c = call := by simpa using List.find?_some hfind
    constructor
    · refine List.nodup_append'.mpr ⟨hnodup, List.nodup_singleton e, List.disjoint_singleton.mpr fun hin => ?_⟩
      obtain ⟨c', hc', hreturned'⟩ := hsignaled e hin
      have hsame := h.call_unique (h.placed.returned _ _ hreturned') (h.placed.returned _ _ hreturned)
      exact hcall (hsame ▸ hc')
    · intro e' he'
      rcases List.mem_append.mp he' with hold | hnew
      · exact hmore e' hold
      · obtain rfl := List.mem_singleton.mp hnew
        exact ⟨c, List.mem_append_right _ (List.mem_singleton_self _), hreturned⟩
  · exact ⟨hnodup, hmore⟩

theorem pipeline_once (coalesce : Option (M → M → M)) (events : List (Event M E))
    (h : (events.filterMap Event.signaled?).Nodup) :
    (run coalesce .pipeline events).consumed.Nodup ∧
      (run coalesce .pipeline events).Signaled (events.filterMap Event.signaled?) := by
  induction events using List.reverseRecOn with
  | nil => exact ⟨.nil, fun _ he => absurd he List.not_mem_nil⟩
  | append_singleton events event ih =>
    rw [List.filterMap_append] at h ⊢
    obtain ⟨hbefore, -, hapart⟩ := List.nodup_append'.mp h
    obtain ⟨hnodup, hsignaled⟩ := ih hbefore
    obtain ⟨groups, late, left, held, hinv⟩ := run_invariant coalesce .pipeline events
    rw [run_snoc]
    have hframe {n : ℕ} {s' : Run M E} (hf : Frame n (run coalesce .pipeline events) s') :
        s'.consumed.Nodup ∧ s'.Signaled (events.filterMap Event.signaled? ++ []) := by
      rw [List.append_nil, hf.consumed]
      exact ⟨hnodup, hf.signaled hsignaled⟩
    cases event with
    | push value => exact hframe (frame_push coalesce _ value)
    | end_ => exact hframe (frame_end_ _)
    | cancel err => exact hframe (frame_terminate _ _)
    | fail err => exact hframe (frame_terminate _ _)
    | next => exact hframe (frame_pipelineNext _)
    | return_ => exact hframe (frame_terminate _ _)
    | consumed call =>
      exact hinv.signal_once hsignaled hnodup fun hin => hapart hin List.mem_cons_self
    | resume => exact hframe (frame_resume _)
    | continue_ => exact hframe (Frame.refl _)

/-! ### The plain iterator -/

/-- A run of the plain iterator whose consumer has made a number of calls: it is done with all that it has been
passed, but for the last message when no call has been made since. -/
structure Alternates (s : Run M E) (made : ℕ) : Prop where
  tally : s.returned.length + s.woken.length + s.consumers.length = s.calls
  calls : s.calls ≤ made
  continued : s.continued ≤ s.returned.length
  outstanding : made ≤ s.passedOn.length + 1
  called : s.passedOn.length < made → s.consumed = s.passedOn
  fresh : s.passedOn.length = made → s.consumed = s.passedOn.dropLast ∧ s.prevConsumed = s.passedOn.getLast?

theorem passedOn_length_le (s : Run M E) : s.passedOn.length ≤ s.continued :=
  Nat.le_trans (List.length_filterMap_le _ _) (List.length_take_le _ _)

theorem Frame.passedOn {n : ℕ} (h : Frame n s s') (hcontinued : s.continued ≤ s.returned.length) :
    s'.passedOn = s.passedOn := by
  obtain ⟨more, hmore⟩ := h.returned
  unfold Run.passedOn
  rw [h.continued, ← hmore, List.take_append_of_le_length hcontinued]

theorem Frame.alternates (h : Frame 0 s s') {made : ℕ} (ha : Alternates s made) : Alternates s' made := by
  have hpassed := h.passedOn ha.continued
  refine ⟨h.tally.trans (ha.tally.trans h.calls.symm), Nat.le_trans (Nat.le_of_eq h.calls) ha.calls, ?_, ?_, ?_, ?_⟩
  · rw [h.continued]
    exact Nat.le_trans ha.continued h.returned.length_le
  · rw [hpassed]
    exact ha.outstanding
  · rw [hpassed, h.consumed]
    exact ha.called
  · rw [hpassed, h.consumed, h.prevConsumed]
    exact ha.fresh

theorem Alternates.signalPrev {made : ℕ} (h : Alternates s made) (hcalls : made ≤ s.passedOn.length) :
    s.signalPrev.consumed = s.passedOn := by
  have hle : s.passedOn.length ≤ made := by
    have h1 := s.passedOn_length_le
    have h2 := h.continued
    have h3 := h.tally
    have h4 := h.calls
    omega
  obtain ⟨hconsumed, hprev⟩ := h.fresh (Nat.le_antisymm hle hcalls)
  unfold Run.signalPrev
  split
  · next hnone =>
    have hnil : s.passedOn = [] := List.getLast?_eq_none_iff.mp (hprev.symm.trans hnone)
    rw [hconsumed, hnil]
    rfl
  · next e hsome =>
    change s.consumed ++ [e] = s.passedOn
    rw [hconsumed]
    exact List.dropLast_append_getLast? e (hprev.symm.trans hsome)

theorem Alternates.call {made : ℕ} (h : Alternates s made) (hcalls : made ≤ s.passedOn.length) {n : ℕ} (hn : n ≤ 1)
    (hframe : Frame n s.signalPrev s') : Alternates s' (made + 1) := by
  have hsignal := h.signalPrev hcalls
  have hsame : s.signalPrev.returned = s.returned ∧ s.signalPrev.woken = s.woken ∧ s.signalPrev.consumers = s.consumers ∧
      s.signalPrev.calls = s.calls ∧ s.signalPrev.continued = s.continued := by
    unfold Run.signalPrev
    split <;> exact ⟨rfl, rfl, rfl, rfl, rfl⟩
  obtain ⟨hreturned, hwoken, hconsumers, hcount, hcontinued⟩ := hsame
  have hpassed : s'.passedOn = s.passedOn := by
    rw [hframe.passedOn (by rw [hcontinued, hreturned]; exact h.continued)]
    unfold Run.passedOn
    rw [hreturned, hcontinued]
  have htally := hframe.tally
  have hle := hframe.returned.length_le
  rw [hreturned, hwoken, hconsumers, h.tally] at htally
  rw [hreturned] at hle
  refine ⟨htally.trans (by rw [hframe.calls, hcount]), ?_, ?_, ?_, fun _ => ?_, fun hfresh => ?_⟩
  · rw [hframe.calls, hcount]
    exact Nat.add_le_add h.calls hn
  · rw [hframe.continued, hcontinued]
    exact Nat.le_trans h.continued hle
  · rw [hpassed]
    exact Nat.succ_le_succ hcalls
  · rw [hframe.consumed, hsignal, hpassed]
  · rw [hpassed] at hfresh
    have h1 := s.passedOn_length_le
    have h2 := h.continued
    have h3 := h.tally
    have h4 := h.calls
    omega

theorem Alternates.continue_ {made : ℕ} (h : Alternates s made) : Alternates s.continue_ made := by
  have h1 := s.passedOn_length_le
  have h2 := h.continued
  have h3 := h.tally
  have h4 := h.calls
  have h5 := h.outstanding
  have htake (outcome : ℕ × Outcome M E) (hreturned : s.returned[s.continued]? = some outcome) :
      entriesOf (s.returned.take (s.continued + 1)) = s.passedOn ++ entriesOf [outcome] := by
    rw [List.take_add_one, hreturned, entriesOf_append]
    rfl
  unfold Run.continue_
  split
  · exact h
  · next call e hreturned =>
    have hlt := (List.getElem?_eq_some_iff.mp hreturned).1
    have hpassed : entriesOf (s.returned.take (s.continued + 1)) = s.passedOn ++ [e] := htake _ hreturned
    have hcalled := h.called (by omega)
    refine ⟨h3, h4, hlt, ?_, fun hless => ?_, fun _ => ⟨?_, ?_⟩⟩
    · change made ≤ (entriesOf _).length + 1
      rw [hpassed, List.length_append]
      omega
    · change (entriesOf _).length < made at hless
      rw [hpassed, List.length_append, List.length_singleton] at hless
      omega
    · change s.consumed = (entriesOf _).dropLast
      rw [hpassed, List.dropLast_concat]
      exact hcalled
    · change some e = (entriesOf _).getLast?
      rw [hpassed, List.getLast?_concat]
  · next pair hother hreturned =>
    obtain ⟨call, outcome⟩ := pair
    have hlt := (List.getElem?_eq_some_iff.mp hreturned).1
    have hpassed : entriesOf (s.returned.take (s.continued + 1)) = s.passedOn := by
      rw [htake _ hreturned, entriesOf_other call fun e heq => hother call e (by rw [heq]), List.append_nil]
    refine ⟨h3, h4, hlt, ?_, ?_, ?_⟩
    · change made ≤ (entriesOf _).length + 1
      rw [hpassed]
      exact h5
    · change (entriesOf _).length < made → s.consumed = entriesOf _
      rw [hpassed]
      exact h.called
    · change (entriesOf _).length = made → s.consumed = (entriesOf _).dropLast ∧ s.prevConsumed = (entriesOf _).getLast?
      rw [hpassed]
      exact h.fresh

theorem plain_alternates (coalesce : Option (M → M → M)) (events : List (Event M E))
    (h : SignalsOnce coalesce .plain events) :
    Alternates (run coalesce .plain events) (events.countP Event.isCall) := by
  induction events using List.reverseRecOn with
  | nil => exact ⟨rfl, Nat.le_refl 0, Nat.le_refl 0, Nat.zero_le _, fun _ => rfl, fun _ => ⟨rfl, rfl⟩⟩
  | append_singleton events event ih =>
    have hlast : event.isCall → events.countP Event.isCall ≤ (run coalesce .plain events).passedOn.length :=
      h events event [] rfl
    have ha := ih fun before e after hevents => h before e (after ++ [event]) (by rw [hevents]; simp)
    rw [run_snoc, List.countP_append]
    cases event with
    | push value => exact (frame_push coalesce _ value).alternates ha
    | end_ => exact (frame_end_ _).alternates ha
    | cancel err => exact (frame_terminate _ _).alternates ha
    | fail err => exact (frame_terminate _ _).alternates ha
    | next => exact ha.call (hlast rfl) (Nat.le_refl 1) (frame_pipelineNext _)
    | return_ => exact ha.call (hlast rfl) (Nat.zero_le 1) (frame_terminate _ _)
    | consumed call => exact ha
    | resume => exact (frame_resume _).alternates ha
    | continue_ => exact ha.continue_

theorem consumed_nodup (coalesce : Option (M → M → M)) (iteration : Iteration) (events : List (Event M E))
    (h : SignalsOnce coalesce iteration events) : (run coalesce iteration events).consumed.Nodup := by
  cases iteration with
  | pipeline => exact (pipeline_once coalesce events h).1
  | plain =>
    have ha := plain_alternates coalesce events h
    obtain ⟨groups, late, left, held, hinv⟩ := run_invariant coalesce .plain events
    have hpassed : (run coalesce .plain events).passedOn.Nodup :=
      hinv.placed.distinct.sublist ((List.take_sublist _ _).filterMap _)
    by_cases hless : (run coalesce .plain events).passedOn.length < events.countP Event.isCall
    · rw [ha.called hless]
      exact hpassed
    · have h1 := (run coalesce .plain events).passedOn_length_le
      have h2 := ha.continued
      have h3 := ha.tally
      have h4 := ha.calls
      rw [(ha.fresh (by omega)).1]
      exact hpassed.sublist (List.dropLast_sublist _)

/-! ### Promises stay settled -/

theorem results_step (s : Run M E) (coalesce : Option (M → M → M)) (iteration : Iteration) (event : Event M E) :
    s.results ⊆ (s.step coalesce iteration event).results := by
  have hconsume (e : Entry M) : s.results ⊆ (s.consume e).results := subset_settle _ _ _
  have hprev : s.results ⊆ s.signalPrev.results := by
    unfold Run.signalPrev
    split
    · exact List.Subset.refl _
    · exact hconsume _
  have hsame : s.results ⊆ s.results := List.Subset.refl _
  cases event with
  | push value => exact (frame_push coalesce s value).results
  | end_ => exact (frame_end_ s).results
  | cancel err => exact (frame_terminate s _).results
  | fail err => exact (frame_terminate s _).results
  | resume => exact (frame_resume s).results
  | next =>
    cases iteration with
    | pipeline => exact (frame_pipelineNext s).results
    | plain => exact List.Subset.trans hprev (frame_pipelineNext _).results
  | return_ =>
    cases iteration with
    | pipeline => exact (frame_terminate s _).results
    | plain => exact List.Subset.trans hprev (frame_terminate _ _).results
  | consumed call =>
    cases iteration with
    | plain => exact hsame
    | pipeline =>
      change s.results ⊆ (s.signal call).results
      unfold Run.signal
      split
      · exact hconsume _
      · exact hsame
  | continue_ =>
    cases iteration with
    | pipeline => exact hsame
    | plain =>
      change s.results ⊆ s.continue_.results
      unfold Run.continue_
      split <;> exact hsame

theorem results_run (coalesce : Option (M → M → M)) (iteration : Iteration) (before after : List (Event M E)) :
    (run coalesce iteration before).results ⊆ (run coalesce iteration (before ++ after)).results := by
  induction after using List.reverseRecOn with
  | nil => rw [List.append_nil]; exact List.Subset.refl _
  | append_singleton after event ih =>
    rw [← List.append_assoc, run_snoc]
    exact List.Subset.trans ih (results_step _ coalesce iteration event)

theorem not_cleaned_later (coalesce : Option (M → M → M)) (iteration : Iteration) (before after : List (Event M E))
    {e : Entry M} (he : e ∈ (run coalesce iteration before).consumed)
    (hnot : e ∉ (run coalesce iteration before).cleaned) :
    e ∉ (run coalesce iteration (before ++ after)).cleaned := by
  intro hcleaned
  obtain ⟨groups, late, left, held, hbefore⟩ := run_invariant coalesce iteration before
  obtain ⟨groups', late', left', held', hafter⟩ := run_invariant coalesce iteration (before ++ after)
  have hconsumed := results_run coalesce iteration before after ((hbefore.settles.consumed e.push).mpr ⟨e, he, hnot, rfl⟩)
  have hunconsumed := (hafter.settles.unconsumed e.push).mpr ⟨e, List.mem_append_left _ hcleaned, rfl⟩
  cases List.inj_on_of_nodup_map hafter.settles.once hconsumed hunconsumed rfl

/-! ### What the consumer holds when the subscription terminates -/

/-- The push of an entry has settled, or the consumer holds the entry and may go on. -/
def Kept (s : Run M E) (e : Entry M) : Prop :=
  e.push ∈ s.results.map (·.1) ∨ e ∈ s.consuming ∧ s.sentinel = none

theorem mem_settle_self (results : List (ℕ × Result)) (push : ℕ) (result : Result) :
    push ∈ (settle results push result).map (·.1) := by
  unfold settle
  split
  · assumption
  · rw [List.map_append]
    exact List.mem_append_right _ (List.mem_singleton_self _)

theorem mem_settleAll_self {results : List (ℕ × Result)} {entries : List (Entry M)} {e : Entry M} (he : e ∈ entries)
    (result : Result) :
    e.push ∈ (entries.foldl (fun results e => settle results e.push result) results).map (·.1) := by
  induction entries generalizing results with
  | nil => cases he
  | cons first entries ih =>
    rcases List.mem_cons.mp he with rfl | hrest
    · exact List.map_subset _ (subset_settleAll _ entries result) (mem_settle_self results e.push result)
    · exact ih hrest

theorem Kept.of_subset {e : Entry M} (h : s.Kept e) (hresults : s.results ⊆ s'.results)
    (hconsuming : s.consuming ⊆ s'.consuming) (hsentinel : s.sentinel = none → s'.sentinel = none) : s'.Kept e :=
  h.imp (fun hin => List.map_subset _ hresults hin) fun hin => ⟨hconsuming hin.1, hsentinel hin.2⟩

theorem Kept.consume {e : Entry M} (h : s.Kept e) (e' : Entry M) : (s.consume e').Kept e := by
  rcases h with hsettled | ⟨hconsuming, hlive⟩
  · exact .inl (List.map_subset _ (subset_settle s.results e'.push .consumed) hsettled)
  · by_cases hpush : e.push = e'.push
    · refine .inl ?_
      rw [hpush]
      exact mem_settle_self s.results e'.push .consumed
    · exact .inr ⟨List.mem_filter.mpr ⟨hconsuming, decide_eq_true hpush⟩, hlive⟩

theorem Kept.terminate {e : Entry M} (h : s.Kept e) (sentinel : Sentinel E) : (s.terminate sentinel).Kept e := by
  have hresults := (frame_terminate s sentinel).results
  rcases h with hsettled | ⟨hconsuming, hlive⟩
  · exact .inl (List.map_subset _ hresults hsettled)
  · refine .inl ?_
    unfold Run.terminate
    rw [hlive]
    exact mem_settleAll_self (List.mem_append_left _ hconsuming) .unconsumed

theorem Kept.pipelineNext {e : Entry M} (h : s.Kept e) : s.pipelineNext.Kept e := by
  unfold Run.pipelineNext
  dsimp only
  split
  · next messages _ => exact Kept.terminate (s := { s with calls := s.calls + 1, messages }) h .canceled
  · exact h.of_subset (List.Subset.refl _) (List.subset_append_left _ _) id
  · split <;> exact h

theorem Kept.signalPrev {e : Entry M} (h : s.Kept e) : s.signalPrev.Kept e := by
  unfold Run.signalPrev
  split
  · exact h
  · exact h.consume _

theorem Kept.step {e : Entry M} (h : s.Kept e) (coalesce : Option (M → M → M)) (iteration : Iteration)
    (event : Event M E) : (s.step coalesce iteration event).Kept e := by
  cases event with
  | push value =>
    refine h.of_subset (frame_push coalesce s value).results ?_ ?_
    · unfold Run.step Run.push
      dsimp only
      split
      · exact List.Subset.refl _
      · exact List.Subset.refl _
      · split <;> exact List.Subset.refl _
    · unfold Run.step Run.push
      dsimp only
      split
      · exact id
      · exact id
      · split <;> exact id
  | end_ =>
    change s.end_.Kept e
    unfold Run.end_
    split
    · exact h
    · exact h.terminate _
    · exact h
  | cancel err => exact h.terminate _
  | fail err => exact h.terminate _
  | resume =>
    change s.resume.Kept e
    unfold Run.resume
    split
    · exact h
    · exact h.of_subset (List.Subset.refl _) (List.subset_append_left _ _) id
    · exact h
  | next =>
    cases iteration with
    | pipeline => exact h.pipelineNext
    | plain => exact h.signalPrev.pipelineNext
  | return_ =>
    cases iteration with
    | pipeline => exact h.terminate _
    | plain => exact h.signalPrev.terminate _
  | consumed call =>
    cases iteration with
    | plain => exact h
    | pipeline =>
      change (s.signal call).Kept e
      unfold Run.signal
      split
      · exact h.consume _
      · exact h
  | continue_ =>
    cases iteration with
    | pipeline => exact h
    | plain =>
      change s.continue_.Kept e
      unfold Run.continue_
      split <;> exact h

theorem settled_of_held (coalesce : Option (M → M → M)) (iteration : Iteration) (before after : List (Event M E))
    (hlive : (run coalesce iteration before).sentinel = none)
    (hended : (run coalesce iteration (before ++ after)).sentinel.isSome) {e : Entry M}
    (he : e ∈ (run coalesce iteration before).consuming) :
    e.push ∈ (run coalesce iteration (before ++ after)).results.map (·.1) := by
  have hkept : (run coalesce iteration (before ++ after)).Kept e := by
    clear hended
    induction after using List.reverseRecOn with
    | nil =>
      rw [List.append_nil]
      exact .inr ⟨he, hlive⟩
    | append_singleton after event ih =>
      rw [← List.append_assoc, run_snoc]
      exact ih.step coalesce iteration event
  refine hkept.resolve_right fun hin => ?_
  rw [hin.2] at hended
  cases hended

end Run

/-! ## What a subscription accounts for -/

open Run

/-- The messages of a run, merged into entries, and what has come of them. -/
structure Accounted (coalesce : Option (M → M → M)) (s : Run M E) (groups : List (List (Entry M)))
    (late left : List (Entry M)) : Prop where
  /-- Pushes are merged with those next to them, or late. -/
  pushes : s.pushed = groups.flatten ++ late
  numbered : s.pushed.map (·.push) = List.range s.pushed.length
  /-- What has been handed out, and then what is left, are the merged entries in order. -/
  merged : List.Forall₂ (Merged coalesce) groups (s.handed.map (·.2) ++ left)
  /-- Entries are handed to the calls in the order of these, each of which comes back with its own. -/
  inOrder : (s.handed.map (·.1)).Pairwise (· < ·)
  comesBack : ∀ call e, (call, .entry e) ∈ s.returned → (call, e) ∈ s.handed
  cleanedUp : s.cleanups.length = if s.sentinel.isSome then 1 else 0
  dropped : late ≠ [] → s.sentinel.isSome
  settledOnce : (s.results.map (·.1)).Nodup
  coalesced : ∀ push, (push, .coalesced) ∈ s.results ↔ push ∈ inner groups
  unconsumed : ∀ push, (push, .unconsumed) ∈ s.results ↔ ∃ e ∈ s.cleaned ++ late, e.push = push
  consumed : ∀ push, (push, .consumed) ∈ s.results ↔ ∃ e ∈ s.consumed, e ∉ s.cleaned ∧ e.push = push
  /-- An entry that has not settled waits, is on its way to a call, or the consumer is not done with it. -/
  unsettled : ∀ e ∈ s.handed.map (·.2) ++ left,
    e.push ∈ s.results.map (·.1) ∨ .entry e ∈ s.messages ∨ e ∈ s.wokenEntries ∨ e ∈ s.consuming
  cleanedOnce : s.cleaned.Nodup
  /-- What has not been handed out is not consumed, and what has been passed to the hooks are entries. -/
  consumedReturned : ∀ e ∈ s.consumed, ∃ call, (call, .entry e) ∈ s.returned
  cleanedEntries : ∀ e ∈ s.cleaned, e ∈ s.handed.map (·.2) ++ left
  leftCleaned : s.sentinel.isSome → ∀ e ∈ left, e ∈ s.cleaned

/-- A run accounts for its messages; what goes to both hooks goes to the cleanup hook first; what the consumer holds
when the subscription terminates has settled then; and a consumer that is done with each message once has each passed
to the consumed hook at most once. -/
def AccountsFor (coalesce : Option (M → M → M)) (iteration : Iteration) (events : List (Event M E)) : Prop :=
  (∃ groups late left, Accounted coalesce (run coalesce iteration events) groups late left) ∧
    (∀ before after, events = before ++ after → ∀ e ∈ (run coalesce iteration before).consumed,
      e ∉ (run coalesce iteration before).cleaned → e ∉ (run coalesce iteration events).cleaned) ∧
    (∀ before after, events = before ++ after → (run coalesce iteration before).sentinel = none →
      (run coalesce iteration events).sentinel.isSome → ∀ e ∈ (run coalesce iteration before).consuming,
        e.push ∈ (run coalesce iteration events).results.map (·.1)) ∧
    (SignalsOnce coalesce iteration events → (run coalesce iteration events).consumed.Nodup)

theorem Run.Invariant.accounted {s : Run M E} (h : Invariant coalesce s groups late left held) :
    Accounted coalesce s groups late left := by
  have hentries := List.Nodup.of_map _ h.ordered.entries_nodup
  have hcleaned := h.phase.cleaned_eq
  refine ⟨h.ordered.pushes, h.ordered.numbered, h.ordered.merged, ?_, h.placed.returned, ?_, ?_, h.settles.once,
    h.settles.coalesced, h.settles.unconsumed, h.settles.consumed, fun e he => ?_, ?_, ?_, fun e => h.mem_of_cleaned, ?_⟩
  · exact h.ordered.calls.sublist (List.sublist_append_left _ _)
  · cases hsentinel : s.sentinel with
    | none => rw [(h.phase.live hsentinel).2.2.1]; rfl
    | some sentinel =>
      obtain ⟨-, -, err, hcleanups⟩ := h.phase.ended (by rw [hsentinel]; rfl)
      rw [hcleanups]
      rfl
  · intro hlate
    by_contra hlive
    exact hlate (h.phase.live (Option.not_isSome_iff_eq_none.mp hlive)).1
  · by_cases hconsumed : e ∈ s.consumed
    · by_cases hclean : e ∈ s.cleaned
      · exact .inl (List.mem_map_of_mem ((h.settles.unconsumed e.push).mpr ⟨e, List.mem_append_left _ hclean, rfl⟩))
      · exact .inl (List.mem_map_of_mem ((h.settles.consumed e.push).mpr ⟨e, hconsumed, hclean, rfl⟩))
    · rcases List.mem_append.mp he with hhanded | hleft
      · exact .inr (.inr ((h.placed.handed e hhanded).imp_right fun hin => hin.resolve_right hconsumed))
      · cases hsentinel : s.sentinel with
        | none =>
          rw [(h.phase.live hsentinel).2.2.2.1] at hleft
          obtain ⟨message, hmessage, hentry⟩ := List.mem_filterMap.mp hleft
          cases message with
          | terminus => cases hentry
          | entry e' =>
            obtain rfl := Option.some.inj hentry
            exact .inr (.inl hmessage)
        | some sentinel =>
          rw [hsentinel] at hcleaned
          have hclean : e ∈ s.cleaned := by
            rw [hcleaned]
            exact List.mem_append_right _ hleft
          exact .inl (List.mem_map_of_mem ((h.settles.unconsumed e.push).mpr ⟨e, List.mem_append_left _ hclean, rfl⟩))
  · rw [hcleaned]
    split
    · obtain ⟨-, hleft, hapart⟩ := List.nodup_append'.mp hentries
      refine List.nodup_append'.mpr ⟨h.phase.held.1, hleft, fun e he => hapart ?_⟩
      exact h.placed.mem_handed (h.phase.held.2 e he)
    · exact .nil
  · exact fun e he => (h.placed.delivered e).mp (.inr he)
  · intro hended e he
    rw [hcleaned, if_pos hended]
    exact List.mem_append_right _ he

/-- **A subscription accounts for its messages,** in whatever order its producer and its consumer act. -/
theorem accountsFor (coalesce : Option (M → M → M)) (iteration : Iteration) (events : List (Event M E)) :
    AccountsFor coalesce iteration events := by
  refine ⟨?_, ?_, ?_, consumed_nodup coalesce iteration events⟩
  · obtain ⟨groups, late, left, held, h⟩ := run_invariant coalesce iteration events
    exact ⟨groups, late, left, h.accounted⟩
  · rintro before after rfl e he hnot
    exact not_cleaned_later coalesce iteration before after he hnot
  · rintro before after rfl hlive hended e he
    exact settled_of_held coalesce iteration before after hlive hended he

/-- A message that the consumer holds when the subscription is canceled is passed to both hooks. -/
theorem passed_to_both_hooks :
    let s : Run Unit Empty := run none .plain [.push (), .next, .continue_, .cancel none, .next]
    s.cleaned = [⟨(), 0⟩] ∧ s.consumed = [⟨(), 0⟩] ∧ s.results = [(0, .unconsumed)] :=
  ⟨rfl, rfl, rfl⟩

end ZeroSync.MessageSubscription
