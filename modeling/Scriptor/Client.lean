import Scriptor.Binary64
import Scriptor.Json.Printer

/-!
# The clients

`ScriptorHandler` of the two Python clients, which differ only in the kind of their socket. For every
record it opens a connection, hands one JSON text to `send`, and closes the connection. `send` may
take less than it is given; the handler does not look at that.

What a float is printed as is not defined here: `repr` is a parameter.
-/

namespace Scriptor

/-- What a client reads of a `logging.LogRecord`. -/
structure LogRecord where
  /-- A `float`, as the number it denotes. -/
  created : ℚ
  /-- The level, which in Python is ten times that of the server. -/
  levelno : ℤ
  /-- `None` if `logging.logProcesses` is off. -/
  process : Option ℤ
  /-- The last part of the path of the source file. -/
  filename : Json.Str
  /-- The line in it. -/
  lineno : ℤ
  /-- `None` if the caller is not known. -/
  funcName : Option Json.Str
  /-- The first argument of the logging call, which need not be a string. -/
  msg : Json.Data

/-- A handler, as far as its records depend on it. -/
structure ScriptorHandler where
  /-- The channel that it was constructed for. -/
  channelName : Json.Str

/-- `int(record.levelno / 10)`: the quotient is a `float`. -/
def LogRecord.level (record : LogRecord) : ℤ :=
  Binary64.truncate (Binary64.round (record.levelno / 10))

namespace ScriptorHandler

variable (repr : ℚ → Json.FloatText)

/-- The dictionary that `emit` builds. -/
def members (handler : ScriptorHandler) (record : LogRecord) : List (Json.Str × Json.Data) :=
  [(.ofString "c", .string handler.channelName),
    (.ofString "s", .float (repr record.created)),
    (.ofString "l", .integer record.level),
    (.ofString "p", record.process.elim .null .integer),
    (.ofString "f", .string record.filename),
    (.ofString "i", .integer record.lineno),
    (.ofString "n", record.funcName.elim .null .string),
    (.ofString "m", record.msg)]

/-- `json.dumps` of it. -/
def text (handler : ScriptorHandler) (record : LogRecord) : Bytes :=
  Json.dumps (.object (handler.members repr record))

/-- `emit`: the bytes that go to the connection, of which `send` takes `taken`. -/
def emit (handler : ScriptorHandler) (record : LogRecord) (taken : ℕ) : Bytes :=
  (handler.text repr record).take taken

end ScriptorHandler

end Scriptor
