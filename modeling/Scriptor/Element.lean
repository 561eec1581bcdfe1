import Scriptor.Platform

/-!
# Log elements

The record a log becomes, and `Element::from_json`, which reads it off a JSON text. A field that is
absent or null has a default; for the time this is the current reading of the clock, so the readings
still to come are passed along.

A time point remembers whether it was read from the clock. Nothing in the program looks at that; it
says which times two runs at different moments may differ in (`Element.forgetClock`).
-/

namespace Scriptor

open Json (Value)

/-! ## Levels -/

/-- `spdlog::level::level_enum`. -/
inductive Level where
  | trace
  | debug
  | info
  | warn
  | err
  | critical
  | off
  deriving DecidableEq

/-- The number of a level. -/
def Level.toInt : Level → ℤ
  | .trace => 0
  | .debug => 1
  | .info => 2
  | .warn => 3
  | .err => 4
  | .critical => 5
  | .off => 6

/-- `n_levels`, which counts `off` among the levels. -/
def nLevels : ℤ := 7

/-- `static_cast<level_enum>` of a value below `nLevels`. -/
def Level.ofInt (value : ℤ) : Level :=
  if value = 0 then .trace
  else if value = 1 then .debug
  else if value = 2 then .info
  else if value = 3 then .warn
  else if value = 4 then .err
  else if value = 5 then .critical
  else .off

/-! ## Elements -/

/-- A time point of `log_clock`, in its nanosecond ticks. -/
inductive TimePoint where
  /-- Given in the log. -/
  | given (ticks : Int64)
  /-- Read from the clock. -/
  | now (ticks : Int64)
  deriving DecidableEq

/-- `Element`: a log, as the sinks are given it. -/
structure Element where
  /-- When it was logged. -/
  time : TimePoint
  /-- How urgent it is. -/
  level : Level
  /-- The line to log, with what is known of its origin. -/
  message : Bytes
  deriving DecidableEq

/-- Replaces a time that was read from the clock by a fixed one. -/
def TimePoint.forgetClock : TimePoint → TimePoint
  | .given ticks => .given ticks
  | .now _ => .now 0

/-- An element without the reading of the clock that may be in it. -/
def Element.forgetClock (e : Element) : Element := { e with time := e.time.forgetClock }

/-- The readings of `log_clock` still to come. -/
def Clock : Type := ℕ → Int64

/-- `log_clock::now()`: the next reading, and the readings after it. -/
def Clock.now (clock : Clock) : Int64 × Clock := (clock 0, fun n => clock (n + 1))

/-! ## `Element::from_json` -/

/-- The text of a field: a number is written in decimal, and no field or null is the empty text. -/
def findString (P : Platform) (data : Value) (token : Bytes) : Except Exception Bytes :=
  match find data token with
  | none => .ok []
  | some it =>
    if isNull it then .ok []
    else if isNumber it then (getInt64 P it).map toString
    else getString it

/-- Seconds, as a string or as a number. -/
def secondsOf (P : Platform) (s : Value) : Except Exception Double :=
  match s with
  | .string text => P.stringToDouble text
  | _ => getDouble s

/-- `duration_cast` to microseconds, and the conversion of those to ticks. -/
def ticksOf (P : Platform) (value : Double) : Int64 :=
  P.toInt64 (value.mul (.finite 1000000)) * 1000

/-- The time of a log; without one it is the time at which it is decoded. -/
def findTime (P : Platform) (data : Value) (clock : Clock) : Except Exception TimePoint × Clock :=
  match find data (ascii "s") with
  | none => (.ok (.now clock.now.1), clock.now.2)
  | some s =>
    if isNull s then (.ok (.now clock.now.1), clock.now.2)
    else ((secondsOf P s).map fun value => .given (ticksOf P value), clock)

/-- The number of a level, as a string or as a number. -/
def levelNumberOf (P : Platform) (l : Value) : Except Exception Int32 :=
  match l with
  | .string text => stoi text
  | _ => getInt P l

/-- The level of a log; without one, and for a number that is no level, it is `trace`. -/
def findLevel (P : Platform) (data : Value) : Except Exception Level :=
  match find data (ascii "l") with
  | none => .ok .trace
  | some l =>
    if isNull l then .ok .trace
    else do
      let value ← levelNumberOf P l
      if Level.trace.toInt ≤ value.toInt ∧ value.toInt < nLevels then .ok (.ofInt value.toInt)
      else .ok .trace

/-- `[c] [p:t] [f:i:n] m`. The order in which the fields are read is open in C++; it decides only which
of several exceptions is thrown. -/
def findMessage (P : Platform) (data : Value) : Except Exception Bytes := do
  let c ← findString P data (ascii "c")
  let p ← findString P data (ascii "p")
  let t ← findString P data (ascii "t")
  let f ← findString P data (ascii "f")
  let i ← findString P data (ascii "i")
  let n ← findString P data (ascii "n")
  let m ← findString P data (ascii "m")
  return ascii "[" ++ c ++ ascii "] [" ++ p ++ ascii ":" ++ t ++ ascii "] [" ++ f ++ ascii ":" ++ i ++
    ascii ":" ++ n ++ ascii "] " ++ m

/-- `Element::from_json`, with the readings of the clock that are left after it. -/
def Element.fromJson (P : Platform) (text : Bytes) (clock : Clock) :
    Except Exception Element × Clock :=
  match P.parse text with
  | .error e => (.error (.parse e), clock)
  | .ok data =>
    match findTime P data clock with
    | (.error e, clock) => (.error e, clock)
    | (.ok time, clock) =>
      (do
        let level ← findLevel P data
        let message ← findMessage P data
        return ⟨time, level, message⟩, clock)

end Scriptor
