import Scriptor.Run

/-!
# The io threads

In `Scriptor.Server` any number of handlers may run, and the io threads end in one step. Here are the
threads themselves, and the thread that owns the server: the loop of the constructor that starts
them, with what it does when a thread cannot be started or stored; the wait of `run` for a signal;
`shutdown`, which joins them one after the other; and the end of the members. A `std::thread` object
that is destroyed while it stands for a thread ends the process.

The handlers and the loggers take the steps of `Scriptor.Server`. A handler runs in a thread that is
free when it starts and that is free again when it ends.
-/

namespace Scriptor

/-- Where an io thread is. -/
inductive IoThread where
  /-- In `m_ioc.run()`, and in no handler. -/
  | free
  /-- In the handler of an accept. -/
  | accepting
  /-- In the handler of a read of session `k`. -/
  | reading (k : ℕ)
  /-- `m_ioc.run()` returned. -/
  | ended
  deriving DecidableEq

/-- From where `shutdown` is called. -/
inductive Caller where
  | destructor
  /-- The first `catch` of the constructor: a thread could not be started. -/
  | notStarted
  /-- The second one: a thread could not be stored in `m_ioc_threads`. -/
  | notStored
  deriving DecidableEq

/-- The next statement of the thread that owns the server. -/
inductive Control where
  /-- The head of the loop of the constructor. -/
  | starting
  /-- A thread was started; `m_ioc_threads.push_back`. -/
  | storing
  /-- The constructor has returned; the loop of `run` over `g_signal`. -/
  | serving
  /-- `m_ioc.stop()`. -/
  | stopping (caller : Caller)
  /-- The loop of `shutdown`: the next object. -/
  | joining (caller : Caller) (next : ℕ)
  /-- `thread.join()` in the second `catch`. -/
  | joiningThread
  /-- An exception leaves the loop of the constructor; the end of `thread`. -/
  | unwinding
  /-- The loggers are being destroyed. -/
  | clearing
  /-- All members are destroyed. -/
  | gone
  /-- A `std::thread` object was destroyed while it stood for a thread. -/
  | terminated
  deriving DecidableEq

/-- asio has no operation and no handler left, in which case `m_ioc.run()` returns, too. -/
def Server.outOfWork (s : Server) : Bool :=
  s.accepting = [] ∧ (∀ acceptor ∈ s.mAcceptors, acceptor.pending = 0) ∧
    ∀ session ∈ s.sessions, session.phase = .closed

/-- A server, its io threads, and the thread that owns it. -/
structure Pool where
  /-- The server, with its handlers and loggers. -/
  server : Server
  /-- `n_threads`. -/
  nThreads : ℕ
  /-- `g_signal`. -/
  gSignal : ℤ := 0
  /-- The io threads started. -/
  threads : List IoThread := []
  /-- The threads that the objects in `m_ioc_threads` stand for, `none` after a `join`. -/
  mIocThreads : List (Option ℕ) := []
  /-- `thread` in the loop of the constructor. -/
  thread : Option ℕ := none
  /-- Where the owner of the server is. -/
  control : Control := .starting
  deriving DecidableEq

namespace Pool

/-- `Server::Server` up to its loop. -/
def create (opt : AllOptions) : Except String Pool :=
  (Server.create opt.toOptions).map fun server => { server, nThreads := opt.nThreads.toNat }

/-! ## The constructor -/

/-- The head of the loop, when a thread is to be started. -/
def start (s : Pool) (ok : Bool) : Option Pool :=
  if s.control = .starting ∧ s.mIocThreads.length < s.nThreads then
    if ok then
      some { s with
        threads := s.threads ++ [.free]
        thread := some s.threads.length
        control := .storing }
    else some { s with control := .stopping .notStarted }
  else none

/-- `push_back` moves `thread`, unless it throws. -/
def store (s : Pool) (ok : Bool) : Option Pool :=
  if s.control = .storing then
    if ok then
      some { s with
        mIocThreads := s.mIocThreads ++ [s.thread]
        thread := none
        control := .starting }
    else some { s with control := .stopping .notStored }
  else none

/-- The end of the loop and of the constructor. -/
def constructed (s : Pool) : Option Pool :=
  if s.control = .starting ∧ s.nThreads ≤ s.mIocThreads.length then some { s with control := .serving }
  else none

/-! ## `run` -/

/-- `stop`. -/
def signal (s : Pool) (signal : ℤ) : Option Pool := some { s with gSignal := signal }

/-- The end of the loop of `run`, and the entry of `~Server`. -/
def leave (s : Pool) : Option Pool :=
  if s.control = .serving ∧ s.gSignal ≠ 0 then some { s with control := .stopping .destructor }
  else none

/-! ## `shutdown` and the end of the members -/

/-- `m_ioc.stop()`. -/
def stop (s : Pool) : Option Pool :=
  match s.control with
  | .stopping caller =>
    some { s with server.stopped := true, control := .joining caller 0 }
  | _ => none

/-- What follows `shutdown`. The loggers come next, unless the constructor fails. -/
def returned (s : Pool) : Caller → Pool
  | .destructor => { s with server.joined := true, control := .clearing }
  | .notStarted => { s with control := .unwinding }
  | .notStored => { s with control := .joiningThread }

/-- The next iteration of the loop of `shutdown`, or its end. `join` waits for the thread. -/
def joinNext (s : Pool) : Option Pool :=
  match s.control with
  | .joining caller next =>
    match s.mIocThreads[next]? with
    | some (some t) =>
      if s.threads[t]? = some .ended then
        some { s with
          mIocThreads := s.mIocThreads.set next none
          control := .joining caller (next + 1) }
      else none
    | some none => some { s with control := .joining caller (next + 1) }
    | none => some (s.returned caller)
  | _ => none

/-- `thread.join()`, which waits for the thread that could not be stored. -/
def joinThread (s : Pool) : Option Pool :=
  match s.control, s.thread with
  | .joiningThread, some t =>
    if s.threads[t]? = some .ended then some { s with thread := none, control := .unwinding } else none
  | _, _ => none

/-- The end of `thread`, when the constructor fails. -/
def unwind (s : Pool) : Option Pool :=
  if s.control = .unwinding then
    if s.thread = none then some { s with server.joined := true, control := .clearing }
    else some { s with control := .terminated }
  else none

/-- The end of `m_ioc_threads`, once the loggers are destroyed. -/
def destroyed (s : Pool) : Option Pool :=
  if s.control = .clearing ∧ ∀ node ∈ s.server.mLoggers, node.logger.destructor = .returned then
    if ∀ object ∈ s.mIocThreads, object = none then some { s with control := .gone }
    else some { s with control := .terminated }
  else none

/-! ## The io threads -/

/-- A step of a handler in the thread `t`, which is at `here` before it and at `next` after it. -/
def inThread (s : Pool) (t : ℕ) (here : IoThread) (next : Server → IoThread) (server : Option Server) :
    Option Pool :=
  if s.threads[t]? = some here then
    server.map fun server => { s with server, threads := s.threads.set t (next server) }
  else none

/-- In a handler of an accept, until there is one handler less. -/
def stillAccepting (s : Pool) (server : Server) : IoThread :=
  if server.accepting.length < s.server.accepting.length then .free else .accepting

/-- A completion that the thread `t` takes, or a step of the handler it is in. -/
def handle (P : Platform) (s : Pool) (t : ℕ) : Server.Action → Option Pool
  | .accepted i ok => s.inThread t .free (fun _ => .accepting) (s.server.accepted i ok)
  | .acceptNext h => s.inThread t .accepting s.stillAccepting (s.server.acceptNext h)
  | .readDone k data clock =>
    s.inThread t .free (fun _ => .reading k) (s.server.readDone P k data clock)
  | .readFailed k => s.inThread t .free (fun _ => .free) (s.server.readFailed k)
  | .push k => s.inThread t (.reading k) (fun _ => .reading k) (s.server.push k)
  | .read k => s.inThread t (.reading k) (fun _ => .free) (s.server.read k)
  | .stop => none
  | .join => none
  | .logger _ _ => none

/-- `m_ioc.run()` returns, and the thread ends. -/
def finish (s : Pool) (t : ℕ) : Option Pool :=
  if s.threads[t]? = some .free ∧ (s.server.stopped = true ∨ s.server.outOfWork = true) then
    some { s with threads := s.threads.set t .ended }
  else none

/-- A step of the worker or of the destructor of logger `j`. -/
def loggerStep (s : Pool) (j : ℕ) (a : Logger.Action) : Option Pool :=
  (s.server.loggerStep j a).map fun server => { s with server }

/-! ## The system -/

/-- The labels of the steps, under the names of the steps. -/
inductive Action where
  | start (ok : Bool)
  | store (ok : Bool)
  | constructed
  | signal (signal : ℤ)
  | leave
  | stop
  | joinNext
  | joinThread
  | unwind
  | destroyed
  | handle (t : ℕ) (a : Server.Action)
  | finish (t : ℕ)
  | logger (j : ℕ) (a : Logger.Action)

/-- A step of the owner, of an io thread or of a logger. -/
def act (P : Platform) (s : Pool) : Action → Option Pool
  | .start ok => s.start ok
  | .store ok => s.store ok
  | .constructed => s.constructed
  | .signal signal => s.signal signal
  | .leave => s.leave
  | .stop => s.stop
  | .joinNext => s.joinNext
  | .joinThread => s.joinThread
  | .unwind => s.unwind
  | .destroyed => s.destroyed
  | .handle t a => s.handle P t a
  | .finish t => s.finish t
  | .logger j a => s.loggerStep j a

/-- Nothing moves once the process has ended. -/
def lts (P : Platform) : Lts Pool Action where
  step s a := if s.server.terminated ∨ s.control = .terminated then none else s.act P a

/-- The label of a call of a sink that throws. -/
def Action.throws : Action → Bool
  | .handle _ b => b.throws
  | .logger _ b => b.throws
  | _ => false

/-- The server and its threads, with sinks that do not throw. -/
def quiet (P : Platform) : Lts Pool Action := (lts P).restrict fun _ a => !a.throws

end Pool

end Scriptor
