import Scriptor.Proofs.PoplProofs
import Scriptor.Run

/-!
# From the command line to the server

A command line that writes out some of the options, each in either spelling, in any order and as often
as one likes, gives these options their values and leaves the others at their defaults
(`run_written`). A `help` among the options comes before everything else, even before what is wrong
behind it (`help_wins`). What is wrong first decides, unless it is an argument that is still to come
(`error_wins`).
-/

namespace Scriptor

open Popl (Opt OptionParser Text)

namespace Run

/-- `run` adds its options without an exception. -/
theorem options_added (double : Popl.Extractor Double) :
    (options double).foldlM OptionParser.add .empty = .ok (parser double) :=
  OptionParser.foldlM_add (parser double)

/-! ## Writing the options of a program -/

/-- The options that have a variable. -/
inductive Name where
  | socketFile
  | socketAddress
  | socketPort
  | identity
  | threads
  | filelogFilename
  | filelogMaxFileMb
  | filelogMaxFiles
  | filelogLevel
  | systemdLogging
  | systemdLevel
  | syslogLogging
  | syslogLevel
  | eventlogLogging
  | eventlogLevel
  deriving DecidableEq

namespace Name

variable (double : Popl.Extractor Double) (write : Double → Text)

/-- The option of a name. -/
def opt : Name → Opt Target
  | socketFile => Run.socketFile
  | socketAddress => Run.socketAddress
  | socketPort => Run.socketPort
  | identity => Run.identity
  | threads => Run.threads
  | filelogFilename => Run.filelogFilename
  | filelogMaxFileMb => Run.filelogMaxFileMb double
  | filelogMaxFiles => Run.filelogMaxFiles
  | filelogLevel => Run.filelogLevel
  | systemdLogging => Run.systemdLogging
  | systemdLevel => Run.systemdLevel
  | syslogLogging => Run.syslogLogging
  | syslogLevel => Run.syslogLevel
  | eventlogLogging => Run.eventlogLogging
  | eventlogLevel => Run.eventlogLevel

/-- The argument that an option is written with. -/
def value (o : AllOptions) : Name → Text
  | socketFile => o.socketFile.toList
  | socketAddress => o.socketAddress.toList
  | socketPort => Popl.natText o.socketPort.toNat
  | identity => o.identity.toList
  | threads => Popl.natText o.nThreads.toNat
  | filelogFilename => o.fileSinkFilename.toList
  | filelogMaxFileMb => write o.fileSinkMaxFileSize
  | filelogMaxFiles => Popl.natText o.fileSinkMaxFiles.toNat
  | filelogLevel => Popl.intText o.fileSinkLogLevel
  | systemdLogging => []
  | systemdLevel => Popl.intText o.systemdSinkLogLevel
  | syslogLogging => []
  | syslogLevel => Popl.intText o.syslogSinkLogLevel
  | eventlogLogging => []
  | eventlogLevel => Popl.intText o.eventlogSinkLogLevel

/-- A number of the type `int`. -/
def IsInt (i : ℤ) : Prop := -2 ^ 31 ≤ i ∧ i < 2 ^ 31

/-- What can be written: a string that is not empty, a switch that is on, a level that is an `int`, and
a size that is read back. -/
def Writable (o : AllOptions) : Name → Prop
  | socketFile => o.socketFile ≠ ""
  | socketAddress => o.socketAddress ≠ ""
  | socketPort => True
  | identity => o.identity ≠ ""
  | threads => True
  | filelogFilename => o.fileSinkFilename ≠ ""
  | filelogMaxFileMb => double.readAll (write o.fileSinkMaxFileSize) = some [o.fileSinkMaxFileSize]
  | filelogMaxFiles => True
  | filelogLevel => IsInt o.fileSinkLogLevel
  | systemdLogging => o.systemdSinkUse = true
  | systemdLevel => IsInt o.systemdSinkLogLevel
  | syslogLogging => o.syslogSinkUse = true
  | syslogLevel => IsInt o.syslogSinkLogLevel
  | eventlogLogging => o.eventlogSinkUse = true
  | eventlogLevel => IsInt o.eventlogSinkLogLevel

end Name

/-- The options `o` for the names of `S`, and `d` for the others. -/
def pick (S : Name → Bool) (o d : AllOptions) : AllOptions where
  socketFile := if S .socketFile then o.socketFile else d.socketFile
  socketAddress := if S .socketAddress then o.socketAddress else d.socketAddress
  socketPort := if S .socketPort then o.socketPort else d.socketPort
  identity := if S .identity then o.identity else d.identity
  nThreads := if S .threads then o.nThreads else d.nThreads
  fileSinkFilename := if S .filelogFilename then o.fileSinkFilename else d.fileSinkFilename
  fileSinkMaxFileSize :=
    if S .filelogMaxFileMb then o.fileSinkMaxFileSize else d.fileSinkMaxFileSize
  fileSinkMaxFiles := if S .filelogMaxFiles then o.fileSinkMaxFiles else d.fileSinkMaxFiles
  fileSinkLogLevel := if S .filelogLevel then o.fileSinkLogLevel else d.fileSinkLogLevel
  systemdSinkUse := if S .systemdLogging then o.systemdSinkUse else d.systemdSinkUse
  systemdSinkLogLevel := if S .systemdLevel then o.systemdSinkLogLevel else d.systemdSinkLogLevel
  syslogSinkUse := if S .syslogLogging then o.syslogSinkUse else d.syslogSinkUse
  syslogSinkLogLevel := if S .syslogLevel then o.syslogSinkLogLevel else d.syslogSinkLogLevel
  eventlogSinkUse := if S .eventlogLogging then o.eventlogSinkUse else d.eventlogSinkUse
  eventlogSinkLogLevel :=
    if S .eventlogLevel then o.eventlogSinkLogLevel else d.eventlogSinkLogLevel

variable {double : Popl.Extractor Double} {write : Double → Text} {o d : AllOptions} {i : Name}
  {S : Name → Bool} {n : ℕ}

theorem toList_ne_nil {s : String} (h : s ≠ "") : s.toList ≠ [] := by
  simpa using h

/-- What is set is what was written. -/
theorem parse_string {what : Popl.OptionName} {name : Text} {s : String} {f : Text → Target → Target}
    {t t' : Target} (h : s ≠ "") (ht : f s.toList t = t') :
    (Opt.string none name f).parse what s.toList t = .ok t' := by
  rw [OptionParser.string_parse (toList_ne_nil h), ht]

theorem parse_nat {w m : ℕ} {what : Popl.OptionName} {name : Text} {f : BitVec w → Target → Target}
    {t t' : Target} (h : m < 2 ^ w) (ht : f (BitVec.ofNat w m) t = t') :
    (Opt.value none name (.unsigned w) f).parse what (Popl.natText m) t = .ok t' := by
  rw [OptionParser.value_parse (Popl.readAll_natText h), ht]

theorem parse_int {j : ℤ} {what : Popl.OptionName} {name : Text} {f : ℤ → Target → Target}
    {t t' : Target} (h : Name.IsInt j) (ht : f j t = t') :
    (Opt.value none name .int f).parse what (Popl.intText j) t = .ok t' := by
  rw [OptionParser.value_parse (Popl.readAll_intText h.1 h.2), ht]

theorem ofBitVec_toNat (m : UInt64) : UInt64.ofBitVec (BitVec.ofNat 64 m.toNat) = m := by
  simp

/-- An option that is written out gets the value that was written, and no other changes. -/
theorem parse_value (h : i.Writable double write o) :
    (i.opt double).parse .long_name (i.value write o) ⟨pick S o d, n⟩ =
      .ok ⟨pick (Function.update S i true) o d, n⟩ := by
  cases i with
  | socketFile =>
    refine parse_string h ?_
    rw [String.ofList_toList]
    rfl
  | socketAddress =>
    refine parse_string h ?_
    rw [String.ofList_toList]
    rfl
  | socketPort =>
    have hport : UInt16.ofBitVec (BitVec.ofNat 16 o.socketPort.toNat) = o.socketPort := by simp
    refine parse_nat o.socketPort.toNat_lt ?_
    rw [hport]
    rfl
  | identity =>
    refine parse_string h ?_
    rw [String.ofList_toList]
    rfl
  | threads =>
    refine parse_nat o.nThreads.toNat_lt ?_
    rw [ofBitVec_toNat]
    rfl
  | filelogFilename =>
    refine parse_string h ?_
    rw [String.ofList_toList]
    rfl
  | filelogMaxFileMb => exact OptionParser.value_parse h
  | filelogMaxFiles =>
    refine parse_nat o.fileSinkMaxFiles.toNat_lt ?_
    rw [ofBitVec_toNat]
    rfl
  | filelogLevel => exact parse_int h rfl
  | systemdLogging =>
    have hon : true = o.systemdSinkUse := h.symm
    show Except.ok (Target.mk { pick S o d with systemdSinkUse := true } n) = _
    conv_lhs => rw [hon]
    rfl
  | systemdLevel => exact parse_int h rfl
  | syslogLogging =>
    have hon : true = o.syslogSinkUse := h.symm
    show Except.ok (Target.mk { pick S o d with syslogSinkUse := true } n) = _
    conv_lhs => rw [hon]
    rfl
  | syslogLevel => exact parse_int h rfl
  | eventlogLogging =>
    have hon : true = o.eventlogSinkUse := h.symm
    show Except.ok (Target.mk { pick S o d with eventlogSinkUse := true } n) = _
    conv_lhs => rw [hon]
    rfl
  | eventlogLevel => exact parse_int h rfl

theorem opt_mem (double : Popl.Extractor Double) (i : Name) :
    i.opt double ∈ (parser double).options := by
  cases i <;> simp [parser, options, Name.opt]

theorem longName_mem (double : Popl.Extractor Double) (i : Name) :
    (i.opt double).longName ∈ longNames := by
  rw [← map_longName double]
  exact List.mem_map_of_mem (opt_mem double i)

theorem longNames_spec : ∀ name ∈ longNames, name ≠ [] ∧ '=' ∉ name := by
  decide +kernel

/-- The names, and the empty and non-empty arguments, are as the parser wants them. -/
theorem writable (h : i.Writable double write o) :
    (parser double).Writable (i.opt double) (i.value write o) := by
  obtain ⟨hnamed, hequals⟩ := longNames_spec _ (longName_mem double i)
  refine ⟨opt_mem double i, hnamed, hequals, ?_⟩
  cases i with
  | systemdLogging => exact .inl ⟨rfl, rfl⟩
  | syslogLogging => exact .inl ⟨rfl, rfl⟩
  | eventlogLogging => exact .inl ⟨rfl, rfl⟩
  | socketFile => exact .inr ⟨rfl, toList_ne_nil h⟩
  | socketAddress => exact .inr ⟨rfl, toList_ne_nil h⟩
  | identity => exact .inr ⟨rfl, toList_ne_nil h⟩
  | filelogFilename => exact .inr ⟨rfl, toList_ne_nil h⟩
  | filelogMaxFileMb =>
    refine .inr ⟨rfl, ?_⟩
    intro hnil
    have hread : double.readAll (write o.fileSinkMaxFileSize) = some [o.fileSinkMaxFileSize] := h
    have hnil : write o.fileSinkMaxFileSize = [] := hnil
    simp [hnil, Popl.Extractor.readAll] at hread
  | _ => exact .inr ⟨rfl, Popl.Numeral.text_ne_nil _⟩

/-- The arguments of some options, each in its spelling. -/
def writtenArgs (double : Popl.Extractor Double) (write : Double → Text) (o : AllOptions)
    (names : List (Name × OptionParser.Spelling)) : List Text :=
  names.flatMap fun x => OptionParser.optionArgs (x.1.opt double) (x.1.value write o) x.2

/-- The names of a list. -/
def named (names : List (Name × OptionParser.Spelling)) (i : Name) : Bool :=
  names.any fun x => i = x.1

theorem parse_written {names : List (Name × OptionParser.Spelling)}
    (h : ∀ x ∈ names, x.1.Writable double write o) (S : Name → Bool) (n : ℕ) :
    (parser double).parse (writtenArgs double write o names) { target := ⟨pick S o d, n⟩ } =
      .done { target := ⟨pick (fun i => S i || named names i) o d, n⟩ } := by
  induction names generalizing S with
  | nil => simp [writtenArgs, named]
  | cons x names ih =>
    have hx := h x List.mem_cons_self
    have hS : (fun i => Function.update S x.1 true i || named names i) =
        fun i => S i || named (x :: names) i := by
      funext i
      by_cases hi : i = x.1
      · simp [hi, named]
      · simp [hi, named]
    rw [writtenArgs, List.flatMap_cons, OptionParser.parse_optionArgs (writable hx) (parse_value hx)]
    exact (ih (fun y hy => h y (List.mem_cons_of_mem _ hy)) _).trans (by rw [hS])

theorem pick_none (o d : AllOptions) : pick (fun _ => false) o d = d := rfl

theorem pick_all (o d : AllOptions) : pick (fun _ => true) o d = o := rfl

end Run

variable {sys : System} {write : Double → Text} {o : AllOptions}
  {names : List (Run.Name × OptionParser.Spelling)}

/-- A program that is given some of the options `o`, in any order and spelling and as often as one
likes, starts with these options, and with the defaults for the others; given all of them it starts
with `o`. -/
theorem run_written (h : ∀ x ∈ names, x.1.Writable sys.double write o) :
    run sys (Run.writtenArgs sys.double write o names) =
        Run.start sys (Run.pick (Run.named names) o (Run.defaults sys)) ∧
      ((∀ i, Run.named names i = true) →
        run sys (Run.writtenArgs sys.double write o names) = Run.start sys o) := by
  have hrun : run sys (Run.writtenArgs sys.double write o names) =
      Run.start sys (Run.pick (Run.named names) o (Run.defaults sys)) := by
    have hparse := Run.parse_written (d := Run.defaults sys) h (fun _ => false) 0
    rw [Run.pick_none] at hparse
    rw [run, hparse]
    simp
  refine ⟨hrun, ?_⟩
  intro hall
  have hnamed : Run.named names = fun _ => true := funext hall
  rw [hrun, hnamed, Run.pick_all]

/-- A system on which everything succeeds; its doubles are whole numbers. -/
def sampleSystem : System where
  hardwareConcurrency := 8
  double := .integer fun negative n => if negative then none else some (.finite n)
  fileExists _ := .ok false
  remove _ := .ok ()
  construct _ := .ok ()

/-- The options that are written. -/
def sampleOptions : AllOptions where
  socketFile := "/tmp/s"
  nThreads := 4
  fileSinkMaxFileSize := .finite 25
  systemdSinkUse := true

/-- Four options in both spellings. -/
def sampleNames : List (Run.Name × OptionParser.Spelling) :=
  [(.socketFile, .joined), (.threads, .separate), (.systemdLogging, .joined),
    (.filelogMaxFileMb, .joined)]

theorem sampleNames_writable : ∀ x ∈ sampleNames,
    x.1.Writable sampleSystem.double (fun _ => "25".toList) sampleOptions := by
  intro x hx
  simp only [sampleNames, List.mem_cons, List.not_mem_nil, or_false] at hx
  rcases hx with rfl | rfl | rfl | rfl
  · show "/tmp/s" ≠ ""
    decide
  · trivial
  · rfl
  · show sampleSystem.double.readAll "25".toList = some [.finite 25]
    decide +kernel

theorem run_written_four :
    run sampleSystem ["--socket_file=/tmp/s".toList, "--threads".toList, "4".toList,
      "--systemd_logging".toList, "--filelog_max_file_mb=25".toList] =
        Run.start sampleSystem sampleOptions := by
  have hargs : Run.writtenArgs sampleSystem.double (fun _ => "25".toList) sampleOptions sampleNames =
      ["--socket_file=/tmp/s".toList, "--threads".toList, "4".toList,
        "--systemd_logging".toList, "--filelog_max_file_mb=25".toList] := by
    decide +kernel
  rw [← hargs, (run_written sampleNames_writable).1]
  rfl

/-! ## Help -/

namespace Run

variable {double : Popl.Extractor Double}

/-- No option of the program is a `Value<bool>`. -/
theorem refusesEmpty (double : Popl.Extractor Double) : (parser double).RefusesEmpty := by
  simp only [OptionParser.RefusesEmpty, parser, options, List.forall_mem_cons]
  refine ⟨fun h => absurd h (by decide), fun _ => OptionParser.string_refuses,
    fun _ => OptionParser.string_refuses, fun _ => OptionParser.value_refuses,
    fun _ => OptionParser.string_refuses, fun _ => OptionParser.value_refuses,
    fun _ => OptionParser.string_refuses, fun _ => OptionParser.value_refuses,
    fun _ => OptionParser.value_refuses, fun _ => OptionParser.value_refuses,
    fun h => absurd h (by decide), fun _ => OptionParser.value_refuses,
    fun h => absurd h (by decide), fun _ => OptionParser.value_refuses,
    fun h => absurd h (by decide), fun _ => OptionParser.value_refuses, ?_⟩
  intro o ho
  exact absurd ho List.not_mem_nil

/-- No option takes back a `help`. -/
theorem keeps_help (double : Popl.Extractor Double) :
    (parser double).Keeps fun t => 1 ≤ t.help := by
  simp only [OptionParser.Keeps, parser, options, List.forall_mem_cons]
  refine ⟨OptionParser.switch_keeps fun _ t _ => Nat.le_add_left 1 t.help,
    OptionParser.string_keeps fun _ _ ht => ht, OptionParser.string_keeps fun _ _ ht => ht,
    OptionParser.value_keeps fun _ _ ht => ht, OptionParser.string_keeps fun _ _ ht => ht,
    OptionParser.value_keeps fun _ _ ht => ht, OptionParser.string_keeps fun _ _ ht => ht,
    OptionParser.value_keeps fun _ _ ht => ht, OptionParser.value_keeps fun _ _ ht => ht,
    OptionParser.value_keeps fun _ _ ht => ht, OptionParser.switch_keeps fun _ _ ht => ht,
    OptionParser.value_keeps fun _ _ ht => ht, OptionParser.switch_keeps fun _ _ ht => ht,
    OptionParser.value_keeps fun _ _ ht => ht, OptionParser.switch_keeps fun _ _ ht => ht,
    OptionParser.value_keeps fun _ _ ht => ht, ?_⟩
  intro o ho
  exact absurd ho List.not_mem_nil

/-- Either name of `help` counts. -/
theorem parseArg_help {arg : Text} (harg : arg = "--help".toList ∨ arg = "-h".toList)
    (rest : List Text) (s : Popl.State Target) :
    (parser double).parseArg arg rest s =
      (.done { s with target := { s.target with help := s.target.help + 1 } }, rest) := by
  rcases harg with rfl | rfl
  · rfl
  · rfl

theorem run_of_help {args : List Text}
    (h : 1 ≤ ((parser sys.double).parse args { target := ⟨defaults sys, 0⟩ }).state.target.help) :
    run sys args = ⟨[.help], 0⟩ := by
  rw [run]
  cases hparse : (parser sys.double).parse args { target := ⟨defaults sys, 0⟩ } with
  | done s =>
    rw [hparse] at h
    exact if_pos h
  | thrown e s =>
    rw [hparse] at h
    exact if_pos h

end Run

/-- A `help` at the place of an option, behind a command line that is parsed without an exception,
makes the program write its help and end with 0, whatever stands behind it. -/
theorem help_wins {xs ys : List Text} {s : Popl.State Target}
    (h : (Run.parser sys.double).parse xs { target := ⟨Run.defaults sys, 0⟩ } = .done s)
    {arg : Text} (harg : arg = "--help".toList ∨ arg = "-h".toList) :
    run sys (xs ++ arg :: ys) = ⟨[.help], 0⟩ := by
  refine Run.run_of_help ?_
  have hrest := OptionParser.parse_append (Run.refusesEmpty sys.double) h (arg :: ys)
  rw [OptionParser.parse_cons_done (Run.parseArg_help harg ys s)] at hrest
  have hkeeps := OptionParser.parse_keeps (Run.keeps_help sys.double) ys
    (s := { s with target := { s.target with help := s.target.help + 1 } }) (Nat.le_add_left 1 _)
  rw [← Popl.withoutArgs_target, ← hrest, Popl.withoutArgs_target] at hkeeps
  exact hkeeps

/-- What is wrong behind the `help` is not reported. -/
theorem help_wins_error :
    run sampleSystem ["--socket_file=/tmp/s".toList, "--threads".toList, "4".toList,
      "--systemd_logging".toList, "--filelog_max_file_mb=25".toList, "-h".toList,
      "--threads=four".toList] = ⟨[.help], 0⟩ := by
  have hparse := Run.parse_written (d := Run.defaults sampleSystem) sampleNames_writable
    (fun _ => false) 0
  rw [Run.pick_none] at hparse
  have hargs : Run.writtenArgs sampleSystem.double (fun _ => "25".toList) sampleOptions sampleNames ++
      "-h".toList :: ["--threads=four".toList] =
        ["--socket_file=/tmp/s".toList, "--threads".toList, "4".toList,
          "--systemd_logging".toList, "--filelog_max_file_mb=25".toList, "-h".toList,
          "--threads=four".toList] := by
    decide +kernel
  rw [← hargs]
  exact help_wins hparse (.inr rfl)

/-! ## Errors -/

namespace Run

/-- What the parser did not recognise makes no difference to an error. -/
theorem run_of_thrown {args : List Text} {e : Popl.InvalidOption} {s : Popl.State Target}
    (h : ((parser sys.double).parse args { target := ⟨defaults sys, 0⟩ }).withoutArgs =
      .thrown e s.withoutArgs) :
    run sys args = if 1 ≤ s.target.help then ⟨[.help], 0⟩ else fatal [] e.what := by
  rw [run]
  cases hparse : (parser sys.double).parse args { target := ⟨defaults sys, 0⟩ } with
  | done s' =>
    rw [hparse] at h
    cases h
  | thrown e' s' =>
    rw [hparse] at h
    obtain ⟨rfl, hs⟩ : e' = e ∧ s'.withoutArgs = s.withoutArgs := by
      simpa only [Popl.withoutArgs_thrown, Popl.Outcome.thrown.injEq] using h
    have htarget : s'.target = s.target := by
      show s'.withoutArgs.target = s.withoutArgs.target
      rw [hs]
    simp only [htarget]

end Run

/-- The first error is the one that the program ends with, and only a `help` before it comes first.
Nothing behind it is looked at, unless the error is that the last argument lacks its own. -/
theorem error_wins {xs : List Text} {e : Popl.InvalidOption} {s : Popl.State Target}
    (h : (Run.parser sys.double).parse xs { target := ⟨Run.defaults sys, 0⟩ } = .thrown e s)
    (he : e.error ≠ .missing_argument) (ys : List Text) :
    run sys (xs ++ ys) = if 1 ≤ s.target.help then ⟨[.help], 0⟩ else Run.fatal [] e.what :=
  Run.run_of_thrown (OptionParser.parse_append_of_thrown (Run.refusesEmpty sys.double) he h ys)

/-- Neither the `help` behind the first error nor what else is wrong is looked at. -/
theorem error_wins_help :
    run sampleSystem ["--threads=four".toList, "-h".toList, "--filelog_level=".toList] =
      ⟨[.fatal "invalid argument for --threads: 'four'".toList], 1⟩ := by
  have hread : (Popl.Extractor.unsigned 64).readAll "four".toList = none := by
    decide +kernel
  have happly : Run.threads.apply .long_name "four".toList
      { target := ⟨Run.defaults sampleSystem, 0⟩ } =
        .thrown (Popl.invalidArgument none "threads".toList .long_name "four".toList)
          { target := ⟨Run.defaults sampleSystem, 0⟩ } := by
    simp only [Opt.apply, Run.threads, Opt.value, hread]
  have hparse : (Run.parser sampleSystem.double).parse ["--threads=four".toList]
      { target := ⟨Run.defaults sampleSystem, 0⟩ } =
        .thrown (Popl.invalidArgument none "threads".toList .long_name "four".toList)
          { target := ⟨Run.defaults sampleSystem, 0⟩ } :=
    OptionParser.parse_cons_thrown happly
  exact error_wins hparse (by decide) ["-h".toList, "--filelog_level=".toList]

end Scriptor
