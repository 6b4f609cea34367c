/-
`zero-cache/src/types/subscription.ts`: a stream of messages from a producer to one
consumer, with hooks for the messages that are consumed and for those that are left.

An entry is known by the number of its push, whose promise its `resolve` settles, and
a `next` call by its own. What is noted of a run: how the promises settle, what the
hooks are called with, which calls the entries are handed to, and what the calls come
back with. The consumer's calls that have been woken resume later.
-/
import Mathlib.Data.List.Basic

namespace ZeroSync.MessageSubscription

structure Entry (M : Type) where
  value : M
  push : ℕ
  deriving DecidableEq

/-- `Entry<M> | 'terminus'` -/
inductive Message (M : Type)
  | entry (e : Entry M)
  | terminus

def Message.entry? {M : Type} : Message M → Option (Entry M)
  | .entry e => some e
  | .terminus => none

/-- `'canceled' | Error` -/
inductive Sentinel (E : Type)
  | canceled
  | error (err : E)

inductive Result
  | consumed
  | coalesced
  | unconsumed
  deriving DecidableEq

/-- What the promise of a `next` call settles with. -/
inductive Outcome (M E : Type)
  | entry (e : Entry M)
  | done
  | rejected (err : E)

namespace Sentinel

variable {M E : Type}

def error? : Sentinel E → Option E
  | .canceled => none
  | .error err => some err

def outcome : Sentinel E → Outcome M E
  | .canceled => .done
  | .error err => .rejected err

end Sentinel

structure Subscription (M E : Type) where
  /-- The `next` calls that wait. -/
  consumers : List ℕ
  messages : List (Message M)
  consuming : List (Entry M)
  sentinel : Option (Sentinel E)

/-- A subscription, what has come of its messages, and the iterator of its consumer. -/
structure Run (M E : Type) extends Subscription M E where
  pushed : List (Entry M)
  results : List (ℕ × Result)
  /-- The calls of the consumed hook. -/
  consumed : List (Entry M)
  /-- The calls of the cleanup hook. -/
  cleanups : List (List (Entry M) × Option E)
  calls : ℕ
  handed : List (ℕ × Entry M)
  /-- The waiting calls whose promises are settled and that have not resumed. -/
  woken : List (ℕ × Outcome M E)
  /-- What `next` calls of the pipeline have come back with. -/
  returned : List (ℕ × Outcome M E)
  /-- How many of these the plain iterator has passed on. -/
  continued : ℕ
  prevConsumed : Option (Entry M)

/-- The promise of a push settles once. -/
def settle (results : List (ℕ × Result)) (push : ℕ) (result : Result) : List (ℕ × Result) :=
  if push ∈ results.map (·.1) then results else results ++ [(push, result)]

namespace Run

variable {M E : Type}

def start : Run M E :=
  { consumers := [], messages := [], consuming := [], sentinel := none, pushed := [], results := [], consumed := [],
    cleanups := [], calls := 0, handed := [], woken := [], returned := [], continued := 0, prevConsumed := none }

/-- The entry of the next push. -/
def nextEntry (s : Run M E) (value : M) : Entry M := ⟨value, s.pushed.length⟩

def push (coalesce : Option (M → M → M)) (s : Run M E) (value : M) : Run M E :=
  let entry := s.nextEntry value
  let s := { s with pushed := s.pushed ++ [entry] }
  match s.sentinel, s.consumers with
  | some _, _ => { s with results := settle s.results entry.push .unconsumed }
  | none, consumer :: consumers =>
    { s with
      consumers
      handed := s.handed ++ [(consumer, entry)]
      woken := s.woken ++ [(consumer, .entry entry)] }
  | none, [] =>
    match coalesce, s.messages.getLast? with
    | some coalesce, some (.entry prev) =>
      { s with
        messages := s.messages.dropLast ++ [.entry ⟨coalesce entry.value prev.value, entry.push⟩]
        results := settle s.results prev.push .coalesced }
    | _, _ => { s with messages := s.messages ++ [.entry entry] }

/-- `#terminate` -/
def terminate (s : Run M E) (sentinel : Sentinel E) : Run M E :=
  match s.sentinel with
  | some _ => s
  | none =>
    let unconsumed := s.consuming ++ s.messages.filterMap Message.entry?
    { s with
      sentinel := some sentinel
      cleanups := s.cleanups ++ [(unconsumed, sentinel.error?)]
      results := unconsumed.foldl (fun results e => settle results e.push .unconsumed) s.results
      messages := []
      consumers := []
      woken := s.woken ++ s.consumers.map fun call => (call, sentinel.outcome) }

def cancel (s : Run M E) (err : Option E) : Run M E :=
  s.terminate (match err with | some err => .error err | none => .canceled)

def fail (s : Run M E) (err : E) : Run M E := s.terminate (.error err)

def end_ (s : Run M E) : Run M E :=
  match s.sentinel, s.messages with
  | some _, _ => s
  | none, [] => s.cancel none
  | none, _ => { s with messages := s.messages ++ [.terminus] }

/-- `#consumed` of an entry. -/
def consume (s : Run M E) (e : Entry M) : Run M E :=
  { s with
    consumed := s.consumed ++ [e]
    consuming := s.consuming.filter (·.push ≠ e.push)
    results := settle s.results e.push .consumed }

/-- `next` of the pipeline, as far as it runs at once. -/
def pipelineNext (s : Run M E) : Run M E :=
  let call := s.calls
  let s := { s with calls := call + 1 }
  match s.messages with
  | .terminus :: messages =>
    let s := cancel { s with messages } none
    { s with returned := s.returned ++ [(call, .done)] }
  | .entry e :: messages =>
    { s with
      messages
      consuming := s.consuming ++ [e]
      handed := s.handed ++ [(call, e)]
      returned := s.returned ++ [(call, .entry e)] }
  | [] =>
    match s.sentinel with
    | some sentinel => { s with returned := s.returned ++ [(call, sentinel.outcome)] }
    | none => { s with consumers := s.consumers ++ [call] }

/-- A `next` call that has been woken goes on. -/
def resume (s : Run M E) : Run M E :=
  match s.woken with
  | [] => s
  | (call, .entry e) :: woken =>
    { s with woken, consuming := s.consuming ++ [e], returned := s.returned ++ [(call, .entry e)] }
  | (call, outcome) :: woken => { s with woken, returned := s.returned ++ [(call, outcome)] }

/-- A `next` call of the plain iterator goes on with what the pipeline's has come back with. -/
def continue_ (s : Run M E) : Run M E :=
  match s.returned[s.continued]? with
  | none => s
  | some (_, .entry e) => { s with continued := s.continued + 1, prevConsumed := some e }
  | some _ => { s with continued := s.continued + 1 }

/-- The plain iterator's `prevConsumed()` -/
def signalPrev (s : Run M E) : Run M E :=
  match s.prevConsumed with
  | none => s
  | some e => s.consume e

/-- `consumed` of what a call of the pipeline has come back with. -/
def signal (s : Run M E) (call : ℕ) : Run M E :=
  match s.returned.find? (·.1 = call) with
  | some (_, .entry e) => s.consume e
  | _ => s

end Run

/-- What the consumer iterates with. -/
inductive Iteration
  | pipeline
  | plain

inductive Event (M E : Type)
  | push (value : M)
  | end_
  | cancel (err : Option E)
  | fail (err : E)
  | next
  | return_
  /-- The consumer of the pipeline is done with what a call has come back with. -/
  | consumed (call : ℕ)
  | resume
  | continue_

namespace Run

variable {M E : Type}

def step (coalesce : Option (M → M → M)) (iteration : Iteration) (s : Run M E) : Event M E → Run M E
  | .push value => s.push coalesce value
  | .end_ => s.end_
  | .cancel err => s.cancel err
  | .fail err => s.fail err
  | .resume => s.resume
  | .next =>
    match iteration with
    | .pipeline => s.pipelineNext
    | .plain => s.signalPrev.pipelineNext
  | .return_ =>
    match iteration with
    | .pipeline => s.cancel none
    | .plain => s.signalPrev.cancel none
  | .consumed call =>
    match iteration with
    | .pipeline => s.signal call
    | .plain => s
  | .continue_ =>
    match iteration with
    | .pipeline => s
    | .plain => s.continue_

def run (coalesce : Option (M → M → M)) (iteration : Iteration) (events : List (Event M E)) : Run M E :=
  events.foldl (step coalesce iteration) start

end Run

end ZeroSync.MessageSubscription
