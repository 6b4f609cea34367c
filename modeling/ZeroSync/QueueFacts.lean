/-
A `Queue` is a FIFO rendezvous channel, but for the values `undefined` and `null`
that wait for a consumer: `dequeue` takes them for rejections.

The entries that have been handed out are the first ones produced, each once; the
rest waits in the queue, or consumers wait, never both. Consumers are served in the order
of their calls, and a call is served, timed out or waiting.
-/
import ZeroSync.Queue

namespace ZeroSync

variable {α : Type}

/-- What is enqueued. -/
inductive Enqueued (α : Type)
  | value (v : JSValue α)
  | rejection (reason : JSValue α)

namespace Enqueued

/-- The record that waits for a consumer. -/
def record : Enqueued α → Produced α
  | .value v => { value := v, rejection := .undefined }
  | .rejection reason => { value := .undefined, rejection := reason }

/-- How it should settle a dequeue call. -/
def settled : Enqueued α → Settled α
  | .value v => .resolved v
  | .rejection reason => .rejected reason

/-- A value that is taken for a rejection when it has waited. -/
def Mistaken : Enqueued α → Prop
  | .value v => v.isNullish = true
  | .rejection _ => False

/-- An entry is handed out as what it was enqueued as. -/
def DeliveredAs (entry : Enqueued α) : Delivery α → Prop
  | .settled how => how = entry.settled
  | .drained v => v = entry.record.value

theorem settle_record_eq_iff (entry : Enqueued α) : Queue.settle entry.record = entry.settled ↔ ¬ entry.Mistaken := by
  cases entry with
  | rejection reason => exact iff_of_true rfl not_false
  | value v => cases v <;> simp [record, settled, Mistaken, Queue.settle, JSValue.isNullish]

end Enqueued

/-- The entries that events produce. -/
def QueueEvent.entry? : QueueEvent α → Option (Enqueued α)
  | .enqueue value => some (.value value)
  | .enqueueRejection reason => some (.rejection reason)
  | _ => none

def enqueuedBy (events : List (QueueEvent α)) : List (Enqueued α) := events.filterMap QueueEvent.entry?

namespace QueueRun

/-- What is handed out: an entry as it should be, or a value that has waited as a rejection. -/
def HandedAs (entry : Enqueued α) (delivery : Delivery α) : Prop :=
  entry.DeliveredAs delivery ∨ (entry.Mistaken ∧ delivery = .settled (Queue.settle entry.record))

/-- Who waits. -/
structure Waiting (s : QueueRun α) (pending : List (Enqueued α)) (waiting : List Consumer) : Prop where
  consumers : s.queue.consumers.Represents waiting
  ordered : (s.served ++ waiting.map (·.resolver)).Pairwise (· < ·)
  calls : (s.served ++ s.timedOut.map (·.1) ++ waiting.map (·.resolver)).Perm (List.range s.dequeues)
  idle : waiting = [] ∨ pending = []

/-- A run in which `handed` have been handed out and `pending` wait. -/
structure Reached (s : QueueRun α) (handed pending : List (Enqueued α)) (waiting : List Consumer) : Prop where
  produced : s.queue.produced.Represents (pending.map Enqueued.record)
  handed : List.Forall₂ HandedAs handed (s.handed.map (·.2))
  waits : Waiting s pending waiting

/-- All that has been handed out was what it was enqueued as. -/
def Faithful (s : QueueRun α) (handed : List (Enqueued α)) : Prop :=
  List.Forall₂ Enqueued.DeliveredAs handed (s.handed.map (·.2))

theorem start_reached : Reached (start : QueueRun α) [] [] [] :=
  ⟨RingBuffer.new_represents, .nil, RingBuffer.new_represents, .nil, .refl _, .inl rfl⟩

variable {s : QueueRun α} {handed pending : List (Enqueued α)} {waiting : List Consumer}

theorem forall₂_append_iff {β γ : Type} {r : β → γ → Prop} {l l' : List β} {m m' : List γ} (hlen : l.length = m.length) :
    List.Forall₂ r (l ++ l') (m ++ m') ↔ List.Forall₂ r l m ∧ List.Forall₂ r l' m' := by
  induction l generalizing m with
  | nil =>
    obtain rfl := List.eq_nil_of_length_eq_zero hlen.symm
    simp
  | cons x l ih =>
    cases m with
    | nil => cases hlen
    | cons y m =>
      rw [List.cons_append, List.cons_append, List.forall₂_cons, List.forall₂_cons, ih (Nat.succ.inj hlen), and_assoc]

theorem Waiting.lt_dequeues (h : Waiting s pending waiting) {call : ℕ}
    (hcall : call ∈ s.served ++ s.timedOut.map (·.1) ++ waiting.map (·.resolver)) : call < s.dequeues :=
  List.mem_range.mp (h.calls.mem_iff.mp hcall)

theorem served_append (s : QueueRun α) (call : ℕ) (delivery : Delivery α) :
    served { s with handed := s.handed ++ [(.dequeue call, delivery)] } = s.served ++ [call] := by
  unfold served
  rw [List.filterMap_append]
  rfl

theorem Reached.serve {consumer : Consumer} (h : Reached s handed pending (consumer :: waiting)) (entry : Enqueued α)
    {consumers : RingBuffer Consumer} (hconsumers : consumers.Represents waiting) (timers : List (ℕ × JSValue α)) :
    let s' : QueueRun α := { s with
      queue := { s.queue with consumers }
      timers
      handed := s.handed ++ [(.dequeue consumer.resolver, .settled entry.settled)] }
    Reached s' (handed ++ [entry]) pending waiting ∧ (Faithful s' (handed ++ [entry]) ↔ Faithful s handed) := by
  obtain ⟨hproduced, hhanded, -, hordered, hcalls, hidle⟩ := h
  have hserved := served_append s consumer.resolver (.settled entry.settled)
  refine ⟨⟨hproduced, ?_, hconsumers, ?_, ?_, ?_⟩, ?_⟩
  · rw [List.map_append]
    exact (forall₂_append_iff hhanded.length_eq).mpr ⟨hhanded, .cons (.inl rfl) .nil⟩
  · change (served { s with handed := _ } ++ _).Pairwise _
    rw [hserved, List.append_assoc]
    exact hordered
  · change (served { s with handed := _ } ++ _ ++ _).Perm _
    rw [hserved]
    refine List.Perm.trans ?_ hcalls
    have hmiddle : (s.timedOut.map (·.1) ++ consumer.resolver :: waiting.map (·.resolver)).Perm
        (consumer.resolver :: (s.timedOut.map (·.1) ++ waiting.map (·.resolver))) := List.perm_middle
    rw [List.append_assoc, List.append_assoc, List.append_assoc]
    exact hmiddle.symm.append_left _
  · exact .inr (hidle.resolve_left (List.cons_ne_nil _ _))
  · unfold Faithful
    rw [List.map_append, forall₂_append_iff hhanded.length_eq]
    exact and_iff_left (.cons rfl .nil)

theorem Reached.wait (h : Reached s handed pending []) (entry : Enqueued α) {consumers : RingBuffer Consumer}
    (hconsumers : consumers.Represents []) :
    Reached { s with queue := ⟨consumers, s.queue.produced.push entry.record⟩ } handed (pending ++ [entry]) [] := by
  obtain ⟨hproduced, hhanded, -, hordered, hcalls, -⟩ := h
  refine ⟨?_, hhanded, hconsumers, hordered, hcalls, .inl rfl⟩
  rw [List.map_append]
  exact hproduced.push entry.record

/-- A dequeue call that finds an entry is not mistaken about it. -/
def Clear (pending : List (Enqueued α)) : QueueEvent α → Prop
  | .dequeue _ => ∀ entry, pending.head? = some entry → ¬ entry.Mistaken
  | _ => True

/-- What an event does to a run. -/
def Steps (s s' : QueueRun α) (handed pending : List (Enqueued α)) (event : QueueEvent α) : Prop :=
  ∃ handed' pending' waiting', Reached s' handed' pending' waiting' ∧
    handed' ++ pending' = handed ++ pending ++ event.entry?.toList ∧
    (Faithful s' handed' ↔ Faithful s handed ∧ Clear pending event)

theorem Reached.produce (h : Reached s handed pending waiting) {event : QueueEvent α} {entry : Enqueued α}
    (hentry : event.entry? = some entry) (hclear : Clear pending event)
    (hserve : ∀ consumer consumers, s.queue.consumers.shift = (some consumer, consumers) →
      s.step event = s.produce (some (consumer, entry.settled), { s.queue with consumers }))
    (hwait : ∀ consumers, s.queue.consumers.shift = (none, consumers) →
      s.step event = s.produce (none, ⟨consumers, s.queue.produced.push entry.record⟩)) :
    Steps s (s.step event) handed pending event := by
  cases waiting with
  | nil =>
    have hshift := h.waits.consumers.shift_nil
    refine ⟨handed, pending ++ [entry], [], ?_, ?_, ?_⟩
    · rw [hwait _ hshift]
      exact h.wait entry h.waits.consumers
    · rw [hentry, ← List.append_assoc]
      rfl
    · rw [hwait _ hshift]
      exact (and_iff_left hclear).symm
  | cons consumer waiting =>
    obtain ⟨consumers, hshift, hconsumers⟩ := h.waits.consumers.shift_cons
    obtain ⟨hreached, hfaithful⟩ := h.serve entry hconsumers
      (s.timers.filter fun timer => consumer.timeoutID ≠ some timer.1)
    obtain rfl := h.waits.idle.resolve_left (List.cons_ne_nil _ _)
    refine ⟨handed ++ [entry], [], waiting, ?_, ?_, ?_⟩
    · rw [hserve _ _ hshift]
      exact hreached
    · rw [hentry, List.append_nil, List.append_nil]
      rfl
    · rw [hserve _ _ hshift]
      exact hfaithful.trans (and_iff_left hclear).symm

theorem Reached.enqueue (h : Reached s handed pending waiting) (v : JSValue α) :
    Steps s (s.step (.enqueue v)) handed pending (.enqueue v) := by
  refine h.produce (rfl : _ = some (Enqueued.value v)) trivial (fun consumer consumers hshift => ?_)
    fun consumers hshift => ?_
  · simp only [step, Queue.enqueue, hshift, Enqueued.settled]
  · simp only [step, Queue.enqueue, hshift, Enqueued.record]

theorem Reached.enqueueRejection (h : Reached s handed pending waiting) (reason : JSValue α) :
    Steps s (s.step (.enqueueRejection reason)) handed pending (.enqueueRejection reason) := by
  refine h.produce (rfl : _ = some (Enqueued.rejection reason)) trivial (fun consumer consumers hshift => ?_)
    fun consumers hshift => ?_
  · simp only [step, Queue.enqueueRejection, hshift, Enqueued.settled]
  · simp only [step, Queue.enqueueRejection, hshift, Enqueued.record]

theorem Reached.join (h : Reached s handed [] waiting) (timeoutID : Option ℕ) (timers : List (ℕ × JSValue α)) :
    Reached { s with
      queue := { s.queue with consumers := s.queue.consumers.push ⟨s.dequeues, timeoutID⟩ }
      dequeues := s.dequeues + 1
      timers } handed [] (waiting ++ [⟨s.dequeues, timeoutID⟩]) := by
  obtain ⟨hproduced, hhanded, hwaits⟩ := h
  refine ⟨hproduced, hhanded, hwaits.consumers.push _, ?_, ?_, .inr rfl⟩
  · rw [List.map_append, ← List.append_assoc]
    refine List.pairwise_append.mpr ⟨hwaits.ordered, List.pairwise_singleton _ _, fun call hcall last hlast => ?_⟩
    obtain rfl := List.mem_singleton.mp hlast
    refine hwaits.lt_dequeues ?_
    rcases List.mem_append.mp hcall with hserved | hwaiting
    · exact List.mem_append_left _ (List.mem_append_left _ hserved)
    · exact List.mem_append_right _ hwaiting
  · rw [List.map_append, ← List.append_assoc, List.range_succ]
    exact hwaits.calls.append_right _

theorem Reached.take {entry : Enqueued α} (h : Reached s handed (entry :: pending) [])
    {produced : RingBuffer (Produced α)} (hproduced : produced.Represents (pending.map Enqueued.record)) :
    let s' : QueueRun α := { s with
      queue := { s.queue with produced }
      dequeues := s.dequeues + 1
      handed := s.handed ++ [(.dequeue s.dequeues, .settled (Queue.settle entry.record))] }
    Reached s' (handed ++ [entry]) pending [] ∧
      (Faithful s' (handed ++ [entry]) ↔ Faithful s handed ∧ ¬ entry.Mistaken) := by
  obtain ⟨-, hhanded, hconsumers, hordered, hcalls, -⟩ := h
  have hserved := served_append s s.dequeues (.settled (Queue.settle entry.record))
  refine ⟨⟨hproduced, ?_, hconsumers, ?_, ?_, .inl rfl⟩, ?_⟩
  · rw [List.map_append]
    refine (forall₂_append_iff hhanded.length_eq).mpr ⟨hhanded, .cons ?_ .nil⟩
    by_cases hmistaken : entry.Mistaken
    · exact .inr ⟨hmistaken, rfl⟩
    · exact .inl (entry.settle_record_eq_iff.mpr hmistaken)
  · change (served { s with handed := _ } ++ _).Pairwise _
    rw [hserved, List.map_nil, List.append_nil]
    rw [List.map_nil, List.append_nil] at hordered hcalls
    refine List.pairwise_append.mpr ⟨hordered, List.pairwise_singleton _ _, fun call hcall last hlast => ?_⟩
    obtain rfl := List.mem_singleton.mp hlast
    exact List.mem_range.mp (hcalls.mem_iff.mp (List.mem_append_left _ hcall))
  · change (served { s with handed := _ } ++ _ ++ _).Perm _
    rw [hserved, List.range_succ, List.append_assoc, List.append_assoc]
    rw [List.append_assoc] at hcalls
    refine List.Perm.trans ?_ (hcalls.append_right [s.dequeues])
    rw [List.append_assoc]
    exact List.perm_append_comm.append_left _
  · unfold Faithful
    rw [List.map_append, forall₂_append_iff hhanded.length_eq]
    refine and_congr_right fun _ => ?_
    change List.Forall₂ Enqueued.DeliveredAs [entry] [.settled (Queue.settle entry.record)] ↔ _
    rw [List.forall₂_cons, and_iff_left .nil]
    exact entry.settle_record_eq_iff

theorem Reached.dequeue (h : Reached s handed pending waiting) (timeoutValue : JSValue α) :
    Steps s (s.step (.dequeue timeoutValue)) handed pending (.dequeue timeoutValue) := by
  cases pending with
  | nil =>
    have hshift := h.produced.shift_nil
    have hclear : Clear (α := α) [] (.dequeue timeoutValue) := fun entry hentry => by cases hentry
    obtain ⟨timeoutID, timers, hstep⟩ : ∃ timeoutID timers, s.step (.dequeue timeoutValue) = { s with
        queue := { s.queue with consumers := s.queue.consumers.push ⟨s.dequeues, timeoutID⟩ }
        dequeues := s.dequeues + 1
        timers } := by
      simp only [step, Queue.dequeue, hshift]
      exact ⟨_, _, rfl⟩
    refine ⟨handed, [], waiting ++ [⟨s.dequeues, timeoutID⟩], ?_, (List.append_nil _).symm, ?_⟩
    · rw [hstep]
      exact h.join timeoutID timers
    · rw [hstep]
      exact (and_iff_left hclear).symm
  | cons entry pending =>
    obtain ⟨produced, hshift, hproduced⟩ := h.produced.shift_cons
    obtain rfl := h.waits.idle.resolve_right (List.cons_ne_nil _ _)
    obtain ⟨hreached, hfaithful⟩ := h.take hproduced
    refine ⟨handed ++ [entry], pending, [], ?_, ?_, ?_⟩
    · simp only [step, Queue.dequeue, hshift]
      exact hreached
    · rw [List.append_assoc]
      exact (List.append_nil _).symm
    · simp only [step, Queue.dequeue, hshift]
      refine hfaithful.trans (and_congr_right fun _ => ?_)
      constructor
      · rintro hclear _ ⟨⟩
        exact hclear
      · intro hclear
        exact hclear entry rfl

theorem Waiting.calls_nodup (h : Waiting s pending waiting) :
    (s.served ++ s.timedOut.map (·.1) ++ waiting.map (·.resolver)).Nodup :=
  h.calls.nodup_iff.mpr (List.nodup_range)

theorem perm_filter_resolver {consumer : Consumer} (hnodup : (waiting.map (·.resolver)).Nodup)
    (hconsumer : consumer ∈ waiting) :
    (waiting.map (·.resolver)).Perm
      (consumer.resolver :: (waiting.filter (·.resolver ≠ consumer.resolver)).map (·.resolver)) := by
  induction waiting with
  | nil => cases hconsumer
  | cons first waiting ih =>
    rw [List.map_cons, List.nodup_cons] at hnodup
    rcases List.mem_cons.mp hconsumer with rfl | hrest
    · rw [List.filter_cons_of_neg (by simp), List.map_cons]
      refine List.Perm.cons _ (.of_eq (congrArg _ (Eq.symm ?_)))
      refine List.filter_eq_self.mpr fun other hother => decide_eq_true fun heq => ?_
      exact hnodup.1 (heq ▸ List.mem_map_of_mem hother)
    · have hne : first.resolver ≠ consumer.resolver := fun heq => hnodup.1 (heq ▸ List.mem_map_of_mem hrest)
      rw [List.filter_cons_of_pos (by simpa using hne), List.map_cons, List.map_cons]
      exact ((ih hnodup.2 hrest).cons _).trans (.swap _ _ _)

theorem Reached.leave {call : ℕ} (h : Reached s handed pending waiting) {timer : ℕ × JSValue α} (htimer : timer.1 = call)
    {consumers : RingBuffer Consumer} (hconsumers : consumers.Represents (waiting.filter (·.resolver ≠ call)))
    (timers : List (ℕ × JSValue α)) :
    Reached { s with
      queue := { s.queue with consumers }
      timers
      timedOut := if 0 < waiting.countP (·.resolver = call) then s.timedOut ++ [timer] else s.timedOut }
      handed pending (waiting.filter (·.resolver ≠ call)) := by
  obtain ⟨hproduced, hhanded, hwaits⟩ := h
  have hsub : (waiting.filter (·.resolver ≠ call)).Sublist waiting := List.filter_sublist
  refine ⟨hproduced, hhanded, hconsumers, ?_, ?_, ?_⟩
  · exact hwaits.ordered.sublist ((hsub.map _).append_left _)
  · by_cases hcount : 0 < waiting.countP (·.resolver = call)
    · obtain ⟨consumer, hconsumer, hcall⟩ := List.countP_pos_iff.mp hcount
      obtain rfl := of_decide_eq_true hcall
      have hnodup := (List.nodup_append'.mp hwaits.calls_nodup).2.1
      have hperm := perm_filter_resolver hnodup hconsumer
      refine List.Perm.trans ?_ hwaits.calls
      simp only [if_pos hcount, List.map_append, List.map_cons, List.map_nil, htimer, List.append_assoc]
      exact (hperm.symm.append_left _).append_left _
    · have hall : waiting.filter (·.resolver ≠ call) = waiting := by
        refine List.filter_eq_self.mpr fun consumer hconsumer => decide_eq_true fun heq => hcount ?_
        exact List.countP_pos_iff.mpr ⟨consumer, hconsumer, decide_eq_true heq⟩
      simp only [if_neg hcount]
      rw [hall]
      exact hwaits.calls
  · rcases hwaits.idle with rfl | hpending
    · exact .inl rfl
    · exact .inr hpending

theorem Reached.timeout (h : Reached s handed pending waiting) (call : ℕ) :
    Steps s (s.step (.timeout call)) handed pending (.timeout call) := by
  cases htimer : s.timers.find? (·.1 = call) with
  | none =>
    refine ⟨handed, pending, waiting, ?_, (List.append_nil _).symm, ?_⟩
    · simp only [step, htimer]
      exact h
    · simp only [step, htimer]
      exact (and_iff_left trivial).symm
  | some timer =>
    have hcall : timer.1 = call := by simpa using List.find?_some htimer
    obtain ⟨hcount, hconsumers⟩ := h.waits.consumers.delete fun item => item.any (·.resolver = call)
    have hfilter : (waiting.filter fun consumer => !(some consumer).any (·.resolver = call)) =
        waiting.filter (·.resolver ≠ call) := by
      refine List.filter_congr fun consumer _ => ?_
      simp
    rw [hfilter] at hconsumers
    refine ⟨handed, pending, waiting.filter (·.resolver ≠ call), ?_, (List.append_nil _).symm, ?_⟩
    · have hleave := h.leave hcall hconsumers (s.timers.filter (·.1 ≠ call))
      simp only [step, htimer, Queue.expire, decide_eq_true_eq, hcount]
      exact hleave
    · simp only [step, htimer]
      exact (and_iff_left trivial).symm

theorem mapM_value (entries : List (Enqueued α)) :
    ((entries.map Enqueued.record).map some).mapM (fun item => item.map (·.value)) =
      some (entries.map (·.record.value)) := by
  induction entries with
  | nil => rfl
  | cons entry entries ih =>
    rw [List.map_cons, List.map_cons, List.mapM_cons, ih]
    rfl

theorem deliveredAs_drained (entries : List (Enqueued α)) (call : ℕ) :
    List.Forall₂ Enqueued.DeliveredAs entries
      (((entries.map (·.record.value)).map fun value => (Receiver.drain call, Delivery.drained value)).map (·.2)) := by
  induction entries with
  | nil => exact .nil
  | cons entry entries ih => exact .cons rfl ih

theorem served_append_drained (s : QueueRun α) (call : ℕ) (values : List (JSValue α)) :
    served { s with handed := s.handed ++ values.map fun value => (.drain call, .drained value) } = s.served := by
  unfold served
  rw [List.filterMap_append, List.filterMap_map]
  refine (congrArg _ (List.filterMap_eq_nil_iff.mpr fun _ _ => rfl)).trans (List.append_nil _)

theorem Reached.drain (h : Reached s handed pending waiting) : Steps s (s.step .drain) handed pending .drain := by
  obtain ⟨hitems, hempty⟩ := h.produced.drain
  have hstep : s.step .drain = { s with
      queue := { s.queue with produced := s.queue.produced.drain.2 }
      drains := s.drains + 1
      handed := s.handed ++ (pending.map (·.record.value)).map fun value => (.drain s.drains, .drained value) } := by
    simp only [step, Queue.drain, hitems, mapM_value]
  have hserved := served_append_drained s s.drains (pending.map (·.record.value))
  have hdelivered := deliveredAs_drained pending s.drains
  obtain ⟨-, hhanded, hconsumers, hordered, hcalls, -⟩ := h
  refine ⟨handed ++ pending, [], waiting, ⟨?_, ?_, ?_, ?_, ?_, .inr rfl⟩, ?_, ?_⟩
  · rw [hstep]
    exact hempty
  · rw [hstep, List.map_append]
    exact (forall₂_append_iff hhanded.length_eq).mpr ⟨hhanded, hdelivered.imp fun _ _ hentry => .inl hentry⟩
  · rw [hstep]
    exact hconsumers
  · rw [hstep]
    change (served { s with handed := _ } ++ _).Pairwise _
    rw [hserved]
    exact hordered
  · rw [hstep]
    change (served { s with handed := _ } ++ _ ++ _).Perm _
    rw [hserved]
    exact hcalls
  · rw [List.append_nil]
    exact (List.append_nil _).symm
  · rw [hstep]
    unfold Faithful
    rw [List.map_append, forall₂_append_iff hhanded.length_eq]
    exact and_congr_right fun _ => iff_of_true hdelivered trivial

/-- **What an event does:** it hands out first entries or adds a last one, as it should where no call is mistaken. -/
theorem Reached.step (h : Reached s handed pending waiting) (event : QueueEvent α) :
    Steps s (s.step event) handed pending event := by
  cases event with
  | enqueue value => exact h.enqueue value
  | enqueueRejection reason => exact h.enqueueRejection reason
  | dequeue timeoutValue => exact h.dequeue timeoutValue
  | timeout call => exact h.timeout call
  | drain => exact h.drain

/-! ## Runs -/

/-- A dequeue call does not find, as the first entry that waits, a value that it takes for a rejection. -/
def NotMistaken (before : List (QueueEvent α)) : QueueEvent α → Prop
  | .dequeue _ => ∀ entry, (enqueuedBy before)[(run before).handed.length]? = some entry → ¬ entry.Mistaken
  | _ => True

/-- No dequeue call of a run is mistaken. -/
def NeverMistaken (events : List (QueueEvent α)) : Prop :=
  ∀ before event after, events = before ++ event :: after → NotMistaken before event

/-- What a rendezvous channel does with a run: the entries enqueued first have been handed out in that order as what
they were enqueued as, each to one call, and the rest waits; who waits has called after all who were served, and
no call is served or times out twice. -/
def Rendezvous (events : List (QueueEvent α)) : Prop :=
  ∃ handed pending waiting, enqueuedBy events = handed ++ pending ∧ Faithful (run events) handed ∧
    (run events).queue.produced.Represents (pending.map Enqueued.record) ∧ Waiting (run events) pending waiting

theorem neverMistaken_snoc (events : List (QueueEvent α)) (event : QueueEvent α) :
    NeverMistaken (events ++ [event]) ↔ NeverMistaken events ∧ NotMistaken events event := by
  constructor
  · intro h
    refine ⟨fun before e after hevents => h before e (after ++ [event]) ?_, h events event [] rfl⟩
    rw [hevents, List.append_assoc, List.cons_append]
  · rintro ⟨hearlier, hlast⟩ before e after hevents
    rcases List.eq_nil_or_concat after with rfl | ⟨after, last, rfl⟩
    · obtain ⟨rfl, he⟩ := List.append_inj' hevents rfl
      obtain rfl := List.head_eq_of_cons_eq he
      exact hlast
    · rw [List.concat_eq_append, ← List.cons_append, ← List.append_assoc] at hevents
      exact hearlier before e after (List.append_inj' hevents rfl).1

theorem clear_iff_notMistaken {before : List (QueueEvent α)} (h : Reached (run before) handed pending waiting)
    (henqueued : enqueuedBy before = handed ++ pending) (event : QueueEvent α) :
    Clear pending event ↔ NotMistaken before event := by
  cases event with
  | dequeue timeoutValue =>
    have hlen : handed.length = (run before).handed.length := by rw [h.handed.length_eq, List.length_map]
    unfold Clear NotMistaken
    rw [henqueued, ← hlen, List.getElem?_append_right le_rfl, Nat.sub_self, List.head?_eq_getElem?]
  | _ => exact Iff.rfl

/-- **What a run comes to:** all was handed out as it should where no call was mistaken. -/
theorem run_reached (events : List (QueueEvent α)) :
    ∃ handed pending waiting, Reached (run events) handed pending waiting ∧ enqueuedBy events = handed ++ pending ∧
      (Faithful (run events) handed ↔ NeverMistaken events) := by
  induction events using List.reverseRecOn with
  | nil =>
    refine ⟨[], [], [], start_reached, rfl, iff_of_true .nil fun before event after hevents => ?_⟩
    cases before <;> cases hevents
  | append_singleton events event ih =>
    obtain ⟨handed, pending, waiting, hreached, henqueued, hfaithful⟩ := ih
    have hrun : run (events ++ [event]) = (run events).step event := by
      unfold run
      rw [List.foldl_append]
      rfl
    obtain ⟨handed', pending', waiting', hreached', hentries, hfaithful'⟩ := hreached.step event
    refine ⟨handed', pending', waiting', ?_, ?_, ?_⟩
    · rw [hrun]
      exact hreached'
    · rw [hentries, ← henqueued]
      unfold enqueuedBy
      rw [List.filterMap_append]
      cases hentry : event.entry? <;> simp [hentry]
    · rw [hrun, hfaithful', hfaithful, neverMistaken_snoc, clear_iff_notMistaken hreached henqueued]

/-- **A queue is a FIFO rendezvous channel** exactly in the runs where no dequeue call finds `undefined` or `null`
waiting for it. -/
theorem rendezvous_iff (events : List (QueueEvent α)) : Rendezvous events ↔ NeverMistaken events := by
  obtain ⟨handed, pending, waiting, hreached, henqueued, hfaithful⟩ := run_reached events
  rw [← hfaithful]
  constructor
  · rintro ⟨handed', pending', -, henqueued', hfaithful', -, -⟩
    have hlen : handed.length = handed'.length := hreached.handed.length_eq.trans hfaithful'.length_eq.symm
    obtain ⟨rfl, -⟩ := List.append_inj (henqueued.symm.trans henqueued') hlen
    exact hfaithful'
  · intro hall
    exact ⟨handed, pending, waiting, henqueued, hall, hreached.produced, hreached.waits⟩

/-- `undefined`, enqueued in a queue of nothing else, is handed out as a rejection. -/
theorem not_rendezvous_undefined : ¬ Rendezvous [.enqueue (.undefined : JSValue Empty), .dequeue .undefined] := by
  rintro ⟨handed, pending, -, henqueued, hfaithful, -, -⟩
  cases hfaithful with
  | cons hfirst hrest =>
    obtain rfl := List.head_eq_of_cons_eq henqueued
    cases hfirst

end QueueRun

end ZeroSync
