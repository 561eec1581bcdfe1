import Scriptor.FanOut
import Scriptor.Logger
import Scriptor.Processor

/-!
# The server

`Server` puts the parts together: acceptors, one session per connection, and the loggers, all driven
by the completion handlers that the io threads run. A handler that runs is a position in its code, so
any number of handlers may be in progress at once, as many as there are io threads; what asio does is
in the labels: which operation completes, whether it failed, and the bytes that were read.

A step is one call that other threads can see: an operation started, a batch pushed to one logger.
The processor belongs to its session alone, so its run is part of the completion of a read.
-/

namespace Scriptor

/-! ## Sessions -/

/-- Where the one read operation of a session, or the handler of its completion, is. -/
inductive Phase where
  /-- The read is outstanding. -/
  | reading
  /-- In the handler, about to call `m_push`. -/
  | pushing (elements : List Element)
  /-- In the loop of `m_push` over several loggers: the next one. -/
  | looping (elements : List Element) (next : ℕ)
  /-- In the handler, about to issue the next read. -/
  | pushed
  /-- A read failed, and the session is gone. -/
  | closed
  deriving DecidableEq

/-- `Session`: one connection. -/
structure Session where
  /-- `m_processor`. -/
  mProcessor : Processor := {}
  /-- Where its one operation is. -/
  phase : Phase := .reading
  /-- History: the bytes read. -/
  received : Bytes := []
  /-- History: what the processor returned. -/
  returned : List Element := []
  deriving DecidableEq

namespace Session

/-- The size of `m_buffer`. -/
def bufferSize : ℕ := 1024

/-- No handler of the session is in progress. -/
def idle (session : Session) : Bool := session.phase = .reading ∨ session.phase = .closed

/-- The handler of a read that did not fail, up to the call of `m_push` or, without elements, of
`read`. -/
def onRead (P : Platform) (session : Session) (data : Bytes) (clock : Clock) : Session :=
  let out := session.mProcessor.call P data clock
  { mProcessor := out.processor
    phase := if out.elements = [] then .pushed else .pushing out.elements
    received := session.received ++ data
    returned := session.returned ++ out.elements }

end Session

/-! ## Acceptors and loggers of a server -/

/-- The kinds of acceptors. -/
inductive AcceptorKind where
  | unix
  | tcp
  deriving DecidableEq

/-- An acceptor, with the number of its `async_accept` operations that have not completed. -/
structure Acceptor where
  /-- Which of the two classes it is of. -/
  kind : AcceptorKind
  /-- The operations that have not completed. -/
  pending : ℕ := 0
  deriving DecidableEq

/-- `async_accept`, which is the same for both kinds. -/
def Acceptor.asyncAccept (acceptor : Acceptor) : Acceptor :=
  { acceptor with pending := acceptor.pending + 1 }

/-- A node of the list `m_loggers`. -/
structure LoggerNode where
  /-- The logger of the node. -/
  logger : Logger
  /-- History: the elements pushed, each with the session it comes from. -/
  pushed : List (ℕ × Element) := []
  deriving DecidableEq

namespace LoggerNode

/-- The push of a batch of session `k`, by one of the overloads of `Logger::push`. -/
def push (node : LoggerNode) (overload : Logger → List Element → Logger) (k : ℕ)
    (elements : List Element) : LoggerNode where
  logger := overload node.logger elements
  pushed := node.pushed ++ elements.map (k, ·)

/-- The elements pushed by session `k`. -/
def pushedBy (node : LoggerNode) (k : ℕ) : List Element := FanOut.ofSource k node.pushed

end LoggerNode

/-! ## Options -/

/-- The options that decide on acceptors and loggers, on Linux. -/
structure Options where
  /-- The path of the unix socket; without one there is no such acceptor. -/
  socketFile : String := ""
  /-- The address of the tcp socket; without one there is no such acceptor. -/
  socketAddress : String := ""
  /-- The file to log to; without one there is no such sink. -/
  fileSinkFilename : String := ""
  /-- The level of the file sink. -/
  fileSinkLogLevel : ℤ := Level.trace.toInt
  /-- Whether to log to systemd. -/
  systemdSinkUse : Bool := false
  /-- The level of the systemd sink. -/
  systemdSinkLogLevel : ℤ := Level.trace.toInt
  /-- Whether to log to syslog. -/
  syslogSinkUse : Bool := false
  /-- The level of the syslog sink. -/
  syslogSinkLogLevel : ℤ := Level.trace.toInt

namespace Options

/-- The acceptors that are asked for. -/
def acceptors (opt : Options) : List AcceptorKind :=
  (if opt.socketFile ≠ "" then [.unix] else []) ++ (if opt.socketAddress ≠ "" then [.tcp] else [])

/-- The levels of the sinks that are asked for. -/
def sinks (opt : Options) : List ℤ :=
  (if opt.fileSinkFilename ≠ "" then [opt.fileSinkLogLevel] else []) ++
    ((if opt.systemdSinkUse then [opt.systemdSinkLogLevel] else []) ++
      (if opt.syslogSinkUse then [opt.syslogSinkLogLevel] else []))

/-- The levels of the sinks, with the console sink if there is no other. -/
def levels (opt : Options) : List ℤ :=
  if opt.sinks = [] then [Level.trace.toInt] else opt.sinks

end Options

/-! ## The state -/

/-- `Server`, with the handlers of its operations. -/
structure Server where
  /-- `m_acceptors`. -/
  mAcceptors : List Acceptor
  /-- `m_loggers`. -/
  mLoggers : List LoggerNode
  /-- The sessions in the order in which their connections were accepted. -/
  sessions : List Session := []
  /-- The handlers of accepts that are running: the next acceptor in the loop of `accept`. -/
  accepting : List ℕ := []
  /-- `m_ioc.stop()` was called, so no handler is started any more. -/
  stopped : Bool := false
  /-- The io threads have ended. -/
  joined : Bool := false
  deriving DecidableEq

namespace Server

/-- A server when its constructor returns: the loop of `accept` has run once. -/
def init (acceptors : List AcceptorKind) (levels : List ℤ) : Server where
  mAcceptors := acceptors.map fun kind => { kind : Acceptor }.asyncAccept
  mLoggers := levels.map fun level => { logger := .init level }

/-- `Server::Server`. -/
def create (opt : Options) : Except String Server :=
  if opt.acceptors = [] then .error "Must provide socket_file and/or socket_address!"
  else .ok (init opt.acceptors opt.levels)

/-- The server with another state of session `k`. -/
def setSession (s : Server) (k : ℕ) (session : Session) : Server :=
  { s with sessions := s.sessions.set k session }

/-- The server with another state of logger `j`. -/
def setLogger (s : Server) (j : ℕ) (node : LoggerNode) : Server :=
  { s with mLoggers := s.mLoggers.set j node }

/-- No completion handler is running. -/
def quiescent (s : Server) : Bool := s.accepting = [] ∧ ∀ session ∈ s.sessions, session.idle

/-! ## Accepting -/

/-- An `async_accept` completes: its handler starts a session, unless it failed, and then calls
`accept`. -/
def accepted (s : Server) (i : ℕ) (ok : Bool) : Option Server :=
  match s.mAcceptors[i]? with
  | none => none
  | some acceptor =>
    if s.stopped = false ∧ 0 < acceptor.pending then
      some { s with
        mAcceptors := s.mAcceptors.set i { acceptor with pending := acceptor.pending - 1 }
        sessions := if ok then s.sessions ++ [{}] else s.sessions
        accepting := s.accepting ++ [0] }
    else none

/-- The next iteration of the loop of `accept` in a running handler, or the end of the loop. -/
def acceptNext (s : Server) (h : ℕ) : Option Server :=
  match s.accepting[h]? with
  | none => none
  | some i =>
    match s.mAcceptors[i]? with
    | some acceptor =>
      some { s with
        mAcceptors := s.mAcceptors.set i acceptor.asyncAccept
        accepting := s.accepting.set h (i + 1) }
    | none => some { s with accepting := s.accepting.eraseIdx h }

/-! ## Reading -/

/-- A read of session `k` completes with at most as many bytes as there is room for: its handler
starts, and the processor takes them. -/
def readDone (P : Platform) (s : Server) (k : ℕ) (data : Bytes) (clock : Clock) : Option Server :=
  match s.sessions[k]? with
  | none => none
  | some session =>
    if s.stopped = false ∧ session.phase = .reading ∧ data.length ≤ Session.bufferSize then
      some (s.setSession k (session.onRead P data clock))
    else none

/-- A read of session `k` fails. Its handler returns at once, and with it the session ends. -/
def readFailed (s : Server) (k : ℕ) : Option Server :=
  match s.sessions[k]? with
  | none => none
  | some session =>
    if s.stopped = false ∧ session.phase = .reading then
      some (s.setSession k { session with phase := .closed })
    else none

/-- The next statement of `m_push`: a batch is moved to the only logger, or copied to the next one. -/
def push (s : Server) (k : ℕ) : Option Server :=
  match s.sessions[k]? with
  | none => none
  | some session =>
    match session.phase with
    | .pushing elements =>
      match s.mLoggers with
      | [node] =>
        some { s.setSession k { session with phase := .pushed } with
          mLoggers := [node.push Logger.pushMove k elements] }
      | _ => some (s.setSession k { session with phase := .looping elements 0 })
    | .looping elements next =>
      match s.mLoggers[next]? with
      | some node =>
        some ((s.setSession k { session with phase := .looping elements (next + 1) }).setLogger next
          (node.push Logger.pushCopy k elements))
      | none => some (s.setSession k { session with phase := .pushed })
    | _ => none

/-- `Session::read`, which ends the handler. -/
def read (s : Server) (k : ℕ) : Option Server :=
  match s.sessions[k]? with
  | none => none
  | some session =>
    if session.phase = .pushed then some (s.setSession k { session with phase := .reading }) else none

/-! ## Shutting down -/

/-- `m_ioc.stop()`. -/
def stop (s : Server) : Option Server :=
  if s.stopped = false then some { s with stopped := true } else none

/-- The io threads end when the handlers they are in have ended. -/
def join (s : Server) : Option Server :=
  if s.stopped = true ∧ s.joined = false ∧ s.quiescent then some { s with joined := true } else none

/-- A logger may be destroyed: the threads have ended and the loggers before it in the list are
gone. -/
def mayDestroy (s : Server) (j : ℕ) : Bool :=
  s.joined ∧ ∀ node ∈ s.mLoggers.take j, node.logger.destructor = .returned

/-- A step of the worker or of the destructor of a logger. -/
def loggerStep (s : Server) (j : ℕ) (a : Logger.Action) : Option Server :=
  match s.mLoggers[j]? with
  | none => none
  | some node =>
    if Logger.pushes [a] = [] ∧ (a = .setDone → s.mayDestroy j = true) then
      (Logger.lts.step node.logger a).map fun logger => s.setLogger j { node with logger }
    else none

/-! ## The system -/

/-- The labels of the steps, under the names of the steps. -/
inductive Action where
  | accepted (i : ℕ) (ok : Bool)
  | acceptNext (h : ℕ)
  | readDone (k : ℕ) (data : Bytes) (clock : Clock)
  | readFailed (k : ℕ)
  | push (k : ℕ)
  | read (k : ℕ)
  | stop
  | join
  | logger (j : ℕ) (a : Logger.Action)

/-- A step of a handler, of the destructor or of a logger. -/
def act (P : Platform) (s : Server) : Action → Option Server
  | .accepted i ok => s.accepted i ok
  | .acceptNext h => s.acceptNext h
  | .readDone k data clock => s.readDone P k data clock
  | .readFailed k => s.readFailed k
  | .push k => s.push k
  | .read k => s.read k
  | .stop => s.stop
  | .join => s.join
  | .logger j a => s.loggerStep j a

/-- An exception left the worker of a logger. -/
def terminated (s : Server) : Bool := s.mLoggers.any (·.logger.worker = .terminated)

/-- The server with all its threads; nothing moves once the process has ended. -/
def lts (P : Platform) : Lts Server Action where
  step s a := if s.terminated then none else s.act P a

/-- The label of a call of a sink that throws. -/
def Action.throws : Action → Bool
  | .logger _ a => a.throws
  | _ => false

/-- The server with sinks that do not throw. -/
def quiet (P : Platform) : Lts Server Action := (lts P).restrict fun _ a => !a.throws

/-- The label of the completion of an accept on the acceptor `i`. -/
def Action.acceptedOn (i : ℕ) : Action → Bool
  | .accepted i' _ => i = i'
  | _ => false

/-- The label of the completion of an accept. -/
def Action.isAccepted : Action → Bool
  | .accepted _ _ => true
  | _ => false

end Server

end Scriptor
