import Scriptor.Popl
import Scriptor.Server

/-!
# The program

`run` reads the options, removes the socket file that a former server left, and keeps a server until a
signal comes. What the file system and the construction of the server may do is in `System`; the
reader of floating-point numbers of the standard library is there, too.
-/

namespace Scriptor

open Popl (Opt Text)

/-- All members of `Options`. Those that decide on acceptors and loggers are in `Options` here. -/
structure AllOptions extends Options where
  /-- The port of the tcp socket. -/
  socketPort : UInt16 := 12345
  /-- The name to log under. -/
  identity : String := "scriptor"
  /-- The number of io threads. -/
  nThreads : UInt64
  /-- The size of a log file in megabytes. -/
  fileSinkMaxFileSize : Double := .finite 10
  /-- The number of log files. -/
  fileSinkMaxFiles : UInt64 := 3
  /-- Whether to log to the event log of Windows. -/
  eventlogSinkUse : Bool := false
  /-- The level of the event log sink. -/
  eventlogSinkLogLevel : ℤ := Level.trace.toInt

/-- What the options are bound to. -/
structure Target where
  /-- `opt`. -/
  opt : AllOptions
  /-- `help->count()`. -/
  help : ℕ := 0

/-! ## The options -/

namespace Run

/-- `help`, which is counted and not assigned. -/
def help : Opt Target :=
  .switch (some 'h') "help".toList fun _ t => { t with help := t.help + 1 }

def socketFile : Opt Target :=
  .string none "socket_file".toList fun v t => { t with opt.socketFile := .ofList v }

def socketAddress : Opt Target :=
  .string none "socket_address".toList fun v t => { t with opt.socketAddress := .ofList v }

def socketPort : Opt Target :=
  .value none "socket_port".toList (.unsigned 16) fun v t => { t with opt.socketPort := .ofBitVec v }

def identity : Opt Target :=
  .string none "identity".toList fun v t => { t with opt.identity := .ofList v }

def threads : Opt Target :=
  .value none "threads".toList (.unsigned 64) fun v t => { t with opt.nThreads := .ofBitVec v }

def filelogFilename : Opt Target :=
  .string none "filelog_filename".toList fun v t => { t with opt.fileSinkFilename := .ofList v }

def filelogMaxFileMb (double : Popl.Extractor Double) : Opt Target :=
  .value none "filelog_max_file_mb".toList double fun v t =>
    { t with opt.fileSinkMaxFileSize := v }

def filelogMaxFiles : Opt Target :=
  .value none "filelog_max_files".toList (.unsigned 64) fun v t =>
    { t with opt.fileSinkMaxFiles := .ofBitVec v }

def filelogLevel : Opt Target :=
  .value none "filelog_level".toList .int fun v t => { t with opt.fileSinkLogLevel := v }

def systemdLogging : Opt Target :=
  .switch none "systemd_logging".toList fun v t => { t with opt.systemdSinkUse := v }

def systemdLevel : Opt Target :=
  .value none "systemd_level".toList .int fun v t => { t with opt.systemdSinkLogLevel := v }

def syslogLogging : Opt Target :=
  .switch none "syslog_logging".toList fun v t => { t with opt.syslogSinkUse := v }

def syslogLevel : Opt Target :=
  .value none "syslog_level".toList .int fun v t => { t with opt.syslogSinkLogLevel := v }

def eventlogLogging : Opt Target :=
  .switch none "eventlog_logging".toList fun v t => { t with opt.eventlogSinkUse := v }

def eventlogLevel : Opt Target :=
  .value none "eventlog_level".toList .int fun v t => { t with opt.eventlogSinkLogLevel := v }

/-- The options in the order in which they are added. -/
def options (double : Popl.Extractor Double) : List (Opt Target) :=
  [help, socketFile, socketAddress, socketPort, identity, threads, filelogFilename,
    filelogMaxFileMb double, filelogMaxFiles, filelogLevel, systemdLogging, systemdLevel,
    syslogLogging, syslogLevel, eventlogLogging, eventlogLevel]

/-- Their names, in the same order. -/
def longNames : List Text :=
  ["help".toList, "socket_file".toList, "socket_address".toList, "socket_port".toList,
    "identity".toList, "threads".toList, "filelog_filename".toList, "filelog_max_file_mb".toList,
    "filelog_max_files".toList, "filelog_level".toList, "systemd_logging".toList,
    "systemd_level".toList, "syslog_logging".toList, "syslog_level".toList,
    "eventlog_logging".toList, "eventlog_level".toList]

theorem map_longName (double : Popl.Extractor Double) :
    (options double).map Opt.longName = longNames := rfl

theorem filterMap_shortName (double : Popl.Extractor Double) :
    (options double).filterMap Opt.shortName = ['h'] := rfl

/-- The parser with these options. No name is taken twice. -/
def parser (double : Popl.Extractor Double) : Popl.OptionParser Target where
  options := options double
  shortNames := by
    rw [filterMap_shortName]
    decide
  longNames := by
    rw [map_longName]
    decide +kernel

end Run

/-! ## `run` -/

/-- What the program finds: the file system, and the libraries where the source does not decide. -/
structure System where
  /-- `std::thread::hardware_concurrency`. -/
  hardwareConcurrency : UInt64
  /-- `is >> value` for a `double`. -/
  double : Popl.Extractor Double
  /-- `std::filesystem::exists`. -/
  fileExists : String → Except Text Bool
  /-- `std::filesystem::remove`. -/
  remove : String → Except Text Unit
  /-- What stops the construction of a server that has an acceptor, with the text of the exception
  unless it is not a `std::exception`. -/
  construct : AllOptions → Except (Option Text) Unit

/-- What an observer of the program sees. -/
inductive Event where
  /-- The help is written to `std::cout`. -/
  | help
  | removed (file : String)
  /-- A server runs until a signal comes, and is then destroyed. -/
  | served (server : Server)
  /-- An error is written to `std::cerr`. -/
  | fatal (what : Text)

namespace Run

/-- What `run` does, and the exit code. -/
structure Result where
  /-- What was seen, in its order. -/
  events : List Event
  /-- What `run` returns. -/
  code : ℕ

/-- An exception ends the program. -/
def fatal (events : List Event) (what : Text) : Result := ⟨events ++ [.fatal what], 1⟩

/-- The construction of the server, and the wait for a signal. -/
def serve (sys : System) (opt : AllOptions) (events : List Event) : Result :=
  match Server.create opt.toOptions with
  | .error what => fatal events what.toList
  | .ok server =>
    match sys.construct opt with
    | .error what => fatal events (what.getD "Unknown".toList)
    | .ok () => ⟨events ++ [.served server], 0⟩

/-- What follows the parsing of the options if there was no `help` among them. -/
def start (sys : System) (opt : AllOptions) : Result :=
  match sys.fileExists opt.socketFile with
  | .error what => fatal [] what
  | .ok false => serve sys opt []
  | .ok true =>
    match sys.remove opt.socketFile with
    | .error what => fatal [] what
    | .ok () => serve sys opt [.removed opt.socketFile]

/-- The options of a program that is given none. -/
def defaults (sys : System) : AllOptions := { nThreads := sys.hardwareConcurrency }

end Run

/-- `run`, on the arguments after the name of the program. -/
def run (sys : System) (args : List Text) : Run.Result :=
  match (Run.parser sys.double).parse args { target := { opt := Run.defaults sys } } with
  | .thrown e s => if 1 ≤ s.target.help then ⟨[.help], 0⟩ else Run.fatal [] e.what
  | .done s => if 1 ≤ s.target.help then ⟨[.help], 0⟩ else Run.start sys s.target.opt

end Scriptor
