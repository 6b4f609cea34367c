/-
`shared/src/queue.ts`: consumers wait for entries, or entries for consumers.

A dequeue call is known by its number. What it returns or settles its promise with,
and what `drain` returns, is noted in the order it happens (`QueueRun.handed`). A
timer that is pending may fire at any time.
-/
import ZeroSync.RingBuffer
import Mathlib.Data.List.Nodup

namespace ZeroSync

/-- A value of JS; nothing looks into one that is neither `undefined` nor `null`. -/
inductive JSValue (α : Type)
  | undefined
  | null
  | value (a : α)

namespace JSValue

variable {α : Type}

def isNullish : JSValue α → Bool
  | .value _ => false
  | _ => true

end JSValue

/-- `Consumer`: the promise of a dequeue call, and its timer. -/
structure Consumer where
  resolver : ℕ
  timeoutID : Option ℕ

/-- `Produced`: a field that the object does not have reads as `undefined`. -/
structure Produced (α : Type) where
  value : JSValue α
  rejection : JSValue α

/-- What a dequeue call comes to. -/
inductive Settled (α : Type)
  | resolved (value : JSValue α)
  | rejected (reason : JSValue α)

structure Queue (α : Type) where
  consumers : RingBuffer Consumer
  produced : RingBuffer (Produced α)

namespace Queue

variable {α : Type}

def new : Queue α := ⟨.new, .new⟩

/-- The consumer that takes the value, if one is waiting. -/
def enqueue (q : Queue α) (value : JSValue α) : Option (Consumer × Settled α) × Queue α :=
  match q.consumers.shift with
  | (some consumer, consumers) => (some (consumer, .resolved value), { q with consumers })
  | (none, consumers) => (none, { consumers, produced := q.produced.push { value, rejection := .undefined } })

def enqueueRejection (q : Queue α) (reason : JSValue α) : Option (Consumer × Settled α) × Queue α :=
  match q.consumers.shift with
  | (some consumer, consumers) => (some (consumer, .rejected reason), { q with consumers })
  | (none, consumers) => (none, { consumers, produced := q.produced.push { value := .undefined, rejection := reason } })

/-- `produced.value ?? Promise.reject(produced.rejection)` -/
def settle (produced : Produced α) : Settled α :=
  if produced.value.isNullish then .rejected produced.rejection else .resolved produced.value

/-- The call of a number; `none` when it waits. -/
def dequeue (q : Queue α) (call : ℕ) (timeoutValue : JSValue α) : Option (Settled α) × Queue α :=
  match q.produced.shift with
  | (some entry, produced) => (some (settle entry), { q with produced })
  | (none, produced) =>
    let timeoutID := match timeoutValue with
      | .undefined => none
      | _ => some call
    (none, { consumers := q.consumers.push ⟨call, timeoutID⟩, produced })

/-- The callback of the timer of a call: whether its promise is resolved. -/
def expire (q : Queue α) (call : ℕ) : Bool × Queue α :=
  let (count, consumers) := q.consumers.delete fun item => item.any (·.resolver = call)
  (0 < count, { q with consumers })

/-- The values; `none` for the `TypeError` of an empty slot. -/
def drain (q : Queue α) : Option (List (JSValue α)) × Queue α :=
  let (items, produced) := q.produced.drain
  (items.mapM fun item => item.map (·.value), { q with produced })

end Queue

/-! ## Runs -/

inductive QueueEvent (α : Type)
  | enqueue (value : JSValue α)
  | enqueueRejection (reason : JSValue α)
  | dequeue (timeoutValue : JSValue α)
  /-- The timer of a dequeue call fires. -/
  | timeout (call : ℕ)
  | drain

inductive Receiver
  | dequeue (call : ℕ)
  | drain (call : ℕ)

inductive Delivery (α : Type)
  | settled (how : Settled α)
  | drained (value : JSValue α)

/-- A queue, the calls made of it, the timers that are pending, and what has come of the calls. -/
structure QueueRun (α : Type) where
  queue : Queue α
  dequeues : ℕ
  drains : ℕ
  timers : List (ℕ × JSValue α)
  handed : List (Receiver × Delivery α)
  timedOut : List (ℕ × JSValue α)

namespace QueueRun

variable {α : Type}

def start : QueueRun α := ⟨.new, 0, 0, [], [], []⟩

/-- An entry is produced: a consumer that takes it no longer has a timer. -/
def produce (s : QueueRun α) : Option (Consumer × Settled α) × Queue α → QueueRun α
  | (some (consumer, how), queue) =>
    { s with
      queue
      timers := s.timers.filter fun timer => consumer.timeoutID ≠ some timer.1
      handed := s.handed ++ [(.dequeue consumer.resolver, .settled how)] }
  | (none, queue) => { s with queue }

def step (s : QueueRun α) : QueueEvent α → QueueRun α
  | .enqueue value => s.produce (s.queue.enqueue value)
  | .enqueueRejection reason => s.produce (s.queue.enqueueRejection reason)
  | .dequeue timeoutValue =>
    match s.queue.dequeue s.dequeues timeoutValue with
    | (some how, queue) =>
      { s with queue, dequeues := s.dequeues + 1, handed := s.handed ++ [(.dequeue s.dequeues, .settled how)] }
    | (none, queue) =>
      let timers := match timeoutValue with
        | .undefined => s.timers
        | _ => s.timers ++ [(s.dequeues, timeoutValue)]
      { s with queue, dequeues := s.dequeues + 1, timers }
  | .timeout call =>
    match s.timers.find? (·.1 = call) with
    | none => s
    | some timer =>
      let (resolves, queue) := s.queue.expire call
      { s with
        queue
        timers := s.timers.filter (·.1 ≠ call)
        timedOut := if resolves then s.timedOut ++ [timer] else s.timedOut }
  | .drain =>
    match s.queue.drain with
    | (some values, queue) =>
      { s with
        queue
        drains := s.drains + 1
        handed := s.handed ++ values.map fun value => (.drain s.drains, .drained value) }
    | (none, queue) => { s with queue, drains := s.drains + 1 }

def run (events : List (QueueEvent α)) : QueueRun α := events.foldl step start

/-- The dequeue calls that were handed an entry, in the order it was. -/
def served (s : QueueRun α) : List ℕ :=
  s.handed.filterMap fun h =>
    match h.1 with
    | .dequeue call => some call
    | .drain _ => none

end QueueRun

end ZeroSync
