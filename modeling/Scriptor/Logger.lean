import Scriptor.Element
import Scriptor.Lts

/-!
# The logger

`Logger` stands between the sessions and one sink. `push` appends to a queue under a mutex; a worker
thread swaps the queue with an empty one, under the same mutex, and hands the elements to the sink
outside of it; the destructor sets a flag and waits for the worker.

Each step below is atomic in the program: the body of a critical section, or one call of the sink.
What a step does not determine is in its label: which party moves, and whether a call of the sink
throws (`ok = false`). The worker evaluates its wait predicate and goes to sleep, or acts on it, in
one step, because it holds the mutex in between.
-/

namespace Scriptor

/-! ## The sink -/

/-- A call of the sink, and whether it returned. -/
inductive SinkCall where
  | log (e : Element) (ok : Bool)
  | flush (ok : Bool)
  deriving DecidableEq

/-- `spdlog::sinks::sink`: its level, and the calls it received so far. -/
structure Sink where
  /-- The level from which on an element is wanted. -/
  level : ℤ
  /-- The calls, in their order. -/
  calls : List SinkCall := []
  deriving DecidableEq

/-- `should_log`. -/
def Sink.shouldLog (sink : Sink) (level : Level) : Bool := sink.level ≤ level.toInt

/-- The sink after one more call. -/
def Sink.called (sink : Sink) (call : SinkCall) : Sink := { sink with calls := sink.calls ++ [call] }

/-- The elements handed to `log`. -/
def Sink.handed (sink : Sink) : List Element :=
  sink.calls.filterMap fun
    | .log e _ => some e
    | .flush _ => none

/-- The elements for which `log` returned. -/
def Sink.logged (sink : Sink) : List Element :=
  sink.calls.filterMap fun
    | .log e true => some e
    | _ => none

/-- The elements logged since the last flush that returned. -/
def Sink.unflushed (sink : Sink) : List Element :=
  sink.calls.foldl (fun es call =>
    match call with
    | .log e true => es ++ [e]
    | .log _ false => es
    | .flush true => []
    | .flush false => es) []

/-! ## The state -/

/-- Where the worker thread is. -/
inductive Worker where
  /-- About to evaluate the predicate of its wait. -/
  | waiting
  /-- Blocked on the condition variable. -/
  | asleep
  /-- Unblocked, and about to evaluate the predicate again. -/
  | notified
  /-- In the loop over a batch: the elements still to come, and `count`. -/
  | batch (elements : List Element) (count : ℕ)
  /-- `worker()` returned. -/
  | returned
  /-- An exception left `worker()`, which ends the process. -/
  | terminated
  deriving DecidableEq

/-- The next statement of `~Logger`. -/
inductive Destructor where
  | notEntered
  | notify
  | join
  | returned
  deriving DecidableEq

/-- `Logger`, with its two threads. -/
structure Logger where
  /-- `m_sink`. -/
  sink : Sink
  /-- `m_done`: the worker is told to end. -/
  mDone : Bool := false
  /-- `m_elements`: the queue. -/
  mElements : List Element := []
  /-- `m_worker`. -/
  worker : Worker := .waiting
  /-- The thread that destroys the logger. -/
  destructor : Destructor := .notEntered
  /-- History: the batches swapped out of the queue. -/
  batches : List (List Element) := []
  /-- History: the elements the loop over a batch has passed. -/
  handled : List Element := []
  deriving DecidableEq

namespace Logger

/-- `Logger::Logger`, with a sink of the given level. -/
def init (level : ℤ) : Logger := { sink := { level } }

/-- Whether the sink wants an element. -/
def shouldLog (s : Logger) (e : Element) : Bool := s.sink.shouldLog e.level

/-- The rest of the batch the worker holds. -/
def held (s : Logger) : List Element :=
  match s.worker with
  | .batch elements _ => elements
  | _ => []

/-- The worker holds the mutex, or is about to take it, to evaluate its wait predicate. -/
def awake (s : Logger) : Bool := s.worker = .waiting ∨ s.worker = .notified

/-- The worker is at its wait. -/
def atWait (s : Logger) : Bool := s.awake ∨ s.worker = .asleep

/-- Before shutdown, the worker is at its wait and nothing is queued. -/
def drained (s : Logger) : Bool := s.atWait ∧ s.mElements = [] ∧ s.mDone = false

/-! ## The steps -/

/-- `m_cv.notify_one()`, which reaches a thread only if it is blocked. -/
def notifyOne (s : Logger) : Logger :=
  { s with worker := if s.worker = .asleep then .notified else s.worker }

/-- `push` of an lvalue. -/
def pushCopy (s : Logger) (elements : List Element) : Logger :=
  notifyOne { s with mElements := s.mElements ++ elements }

/-- `push` of an rvalue: the elements are moved one after the other. -/
def pushMove (s : Logger) (elements : List Element) : Logger :=
  notifyOne { s with mElements := elements.foldl (fun es e => es ++ [e]) s.mElements }

/-- The predicate is false, so the worker blocks. -/
def sleep (s : Logger) : Option Logger :=
  if s.awake ∧ s.mDone = false ∧ s.mElements = [] then some { s with worker := .asleep } else none

/-- A spurious wake-up. -/
def wake (s : Logger) : Option Logger :=
  if s.worker = .asleep then some { s with worker := .notified } else none

/-- The predicate is true and `m_done` is set: the last flush, still under the mutex and outside of
the `try` block. -/
def finish (s : Logger) (ok : Bool) : Option Logger :=
  if s.awake ∧ s.mDone = true then
    some { s with
      sink := s.sink.called (.flush ok)
      worker := if ok then .returned else .terminated }
  else none

/-- The predicate is true and `m_done` is not set: the queue becomes the batch of the worker. -/
def swap (s : Logger) : Option Logger :=
  if s.awake ∧ s.mDone = false ∧ s.mElements ≠ [] then
    some { s with
      mElements := []
      worker := .batch s.mElements 0
      batches := s.batches ++ [s.mElements] }
  else none

/-- An element the sink does not want. -/
def skip (s : Logger) : Option Logger :=
  match s.worker with
  | .batch (e :: elements) count =>
    if s.shouldLog e then none
    else some { s with worker := .batch elements count, handled := s.handled ++ [e] }
  | _ => none

/-- An element is handed to the sink; an exception leaves the loop, and the `catch` after it sends
the worker back to its wait. -/
def log (s : Logger) (ok : Bool) : Option Logger :=
  match s.worker with
  | .batch (e :: elements) count =>
    if s.shouldLog e then
      some { s with
        sink := s.sink.called (.log e ok)
        worker := if ok then .batch elements (count + 1) else .waiting
        handled := s.handled ++ [e] }
    else none
  | _ => none

/-- The end of a batch of which elements were logged. -/
def flush (s : Logger) (ok : Bool) : Option Logger :=
  match s.worker with
  | .batch [] (_ + 1) => some { s with sink := s.sink.called (.flush ok), worker := .waiting }
  | _ => none

/-- The end of a batch of which nothing was logged. -/
def endBatch (s : Logger) : Option Logger :=
  match s.worker with
  | .batch [] 0 => some { s with worker := .waiting }
  | _ => none

/-- `~Logger` up to the end of its critical section. It waits for nothing but the mutex, and nobody
pushes to a logger that is being destroyed, so its entry and this step are one. -/
def setDone (s : Logger) : Option Logger :=
  if s.destructor = .notEntered then some { s with mDone := true, destructor := .notify } else none

/-- The notification of `~Logger`, after the mutex is released. -/
def notifyDone (s : Logger) : Option Logger :=
  if s.destructor = .notify then some { s.notifyOne with destructor := .join } else none

/-- `m_worker.join()`, which waits for the worker. -/
def join (s : Logger) : Option Logger :=
  if s.destructor = .join ∧ s.worker = .returned then some { s with destructor := .returned } else none

/-- The labels of the steps, under the names of the steps. -/
inductive Action where
  | pushCopy (elements : List Element)
  | pushMove (elements : List Element)
  | sleep
  | wake
  | finish (ok : Bool)
  | swap
  | skip
  | log (ok : Bool)
  | flush (ok : Bool)
  | endBatch
  | setDone
  | notifyDone
  | join
  deriving DecidableEq

/-- A step of a producer, of the worker or of the destructor. -/
def act (s : Logger) : Action → Option Logger
  | .pushCopy elements => some (s.pushCopy elements)
  | .pushMove elements => some (s.pushMove elements)
  | .sleep => s.sleep
  | .wake => s.wake
  | .finish ok => s.finish ok
  | .swap => s.swap
  | .skip => s.skip
  | .log ok => s.log ok
  | .flush ok => s.flush ok
  | .endBatch => s.endBatch
  | .setDone => s.setDone
  | .notifyDone => s.notifyDone
  | .join => s.join

/-- A logger with all its threads; nothing moves once the process has ended. -/
def lts : Lts Logger Action where
  step s a := if s.worker = .terminated then none else s.act a

/-! ## Runs -/

/-- The batches pushed in a run, in the order of the pushes. -/
def pushes (ls : List Action) : List (List Element) :=
  ls.filterMap fun
    | .pushCopy elements => some elements
    | .pushMove elements => some elements
    | _ => none

/-- The label of a call of the sink that throws. -/
def Action.throws : Action → Bool
  | .log ok => !ok
  | .flush ok => !ok
  | .finish ok => !ok
  | _ => false

/-- The logger with a sink that does not throw. -/
def quiet : Lts Logger Action := lts.restrict fun _ a => !a.throws

/-- In the state `s`, the label agrees with a sink whose `log` throws on exactly the elements of
`bad`; `flush` may throw or not. -/
def respects (bad : Element → Bool) (s : Logger) : Action → Bool
  | .log ok =>
    match s.held with
    | e :: _ => ok == !bad e
    | [] => true
  | _ => true

/-- The logger with a sink whose `log` throws on exactly the elements of `bad`. -/
def failing (bad : Element → Bool) : Lts Logger Action := lts.restrict (respects bad)

end Logger

end Scriptor
