import Scriptor.Json.Parser

/-!
# What the program takes from its libraries

The JSON parser is a library outside the repository: `Platform` has it as a function, together with
`std::stod` and the double-to-integer conversions that the C++ standard leaves undefined. What a
result needs of the parser is a hypothesis of that result (`Platform.AcceptsOnlyJson`).

The rest of what `element.cpp` uses of its libraries is defined here under its own names: looking up
a member, the typed access `get<T>`, `std::stoi`, `std::to_string`, and the texts of the exceptions.
-/

namespace Scriptor

open Json (Value)

/-- The bytes of a text in ASCII. -/
def ascii (s : String) : Bytes := s.toList.map fun c => UInt8.ofNat c.toNat

/-! ## Exceptions -/

/-- What `json::parse` throws. -/
inductive ParseFailure where
  /-- The text is not JSON. -/
  | parse_error (detail : Bytes)
  /-- A number is too large for a double. -/
  | out_of_range (detail : Bytes)
  deriving DecidableEq

/-- The exceptions that can leave `Element::from_json`; all derive from `std::exception`. -/
inductive Exception where
  | parse (e : ParseFailure)
  /-- A typed access to a value of another type. -/
  | type_error (expected actual : String)
  /-- `std::invalid_argument` or `std::out_of_range`, from the conversion function named. -/
  | conversion (function : String)
  deriving DecidableEq

/-- `what()` of the exceptions of the parser. -/
def ParseFailure.what : ParseFailure → Bytes
  | .parse_error detail => ascii "[json.exception.parse_error.101] " ++ detail
  | .out_of_range detail => ascii "[json.exception.out_of_range.406] " ++ detail

/-- `what()`. -/
def Exception.what : Exception → Bytes
  | .parse e => e.what
  | .type_error expected actual =>
    ascii "[json.exception.type_error.302] type must be " ++
      (ascii expected ++ (ascii ", but is " ++ ascii actual))
  | .conversion function => ascii function

/-! ## The platform -/

/-- What the program takes as given. -/
structure Platform where
  /-- `nlohmann::json::parse`. -/
  parse : Bytes → Except ParseFailure Value
  /-- `std::stod`; `none` where it throws. -/
  stod : Bytes → Option Double
  /-- The conversion of a double to `std::int64_t` where the truncated value does not fit. -/
  castInt64 : Double → Int64
  /-- The conversion of a double to `int` where the truncated value does not fit. -/
  castInt : Double → Int32

/-- The parser throws on everything that is not a JSON text. It may throw on some JSON texts, too: on
one with a number too large for a double, or with an escape of a surrogate that stands alone. -/
def Platform.AcceptsOnlyJson (P : Platform) : Prop := ∀ w, (P.parse w).isOk = true → Json.IsText w

/-- `static_cast<std::int64_t>` of a double. -/
def Platform.toInt64 (P : Platform) (x : Double) : Int64 :=
  match x with
  | .finite q =>
    let i := Binary64.truncate q
    if -2 ^ 63 ≤ i ∧ i < 2 ^ 63 then .ofInt i else P.castInt64 x
  | .special => P.castInt64 x

/-- `static_cast<int>` of a double. -/
def Platform.toInt (P : Platform) (x : Double) : Int32 :=
  match x with
  | .finite q =>
    let i := Binary64.truncate q
    if -2 ^ 31 ≤ i ∧ i < 2 ^ 31 then .ofInt i else P.castInt x
  | .special => P.castInt x

/-! ## Access to JSON values -/

/-- `json::find`: only an object has members. -/
def find (data : Value) (token : Bytes) : Option Value :=
  match data with
  | .object members => members.lookup token
  | _ => none

/-- `json::type_name`. -/
def typeName : Value → String
  | .null => "null"
  | .boolean _ => "boolean"
  | .number_integer _ => "number"
  | .number_unsigned _ => "number"
  | .number_float _ => "number"
  | .string _ => "string"
  | .array _ => "array"
  | .object _ => "object"

/-- `is_null`. -/
def isNull : Value → Bool
  | .null => true
  | _ => false

/-- `is_number`. -/
def isNumber : Value → Bool
  | .number_integer _ => true
  | .number_unsigned _ => true
  | .number_float _ => true
  | _ => false

/-- `get<std::string>`. -/
def getString : Value → Except Exception Bytes
  | .string s => .ok s
  | v => .error (.type_error "string" (typeName v))

/-- `get<std::int64_t>`: an unsigned number is converted modulo 2^64. -/
def getInt64 (P : Platform) : Value → Except Exception Int64
  | .number_integer i => .ok i
  | .number_unsigned n => .ok n.toInt64
  | .number_float x => .ok (P.toInt64 (.finite x))
  | v => .error (.type_error "number" (typeName v))

/-- `get<double>`. -/
def getDouble : Value → Except Exception Double
  | .number_integer i => .ok (.ofInt i.toInt)
  | .number_unsigned n => .ok (.ofInt n.toNat)
  | .number_float x => .ok (.finite x)
  | v => .error (.type_error "number" (typeName v))

/-- `get<int>`: an integer is converted modulo 2^32; unlike the other accesses to numbers, this one
takes a boolean. -/
def getInt (P : Platform) : Value → Except Exception Int32
  | .number_integer i => .ok i.toInt32
  | .number_unsigned n => .ok n.toInt64.toInt32
  | .number_float x => .ok (P.toInt (.finite x))
  | .boolean b => .ok (if b then 1 else 0)
  | v => .error (.type_error "number" (typeName v))

/-! ## Conversions of the standard library -/

/-- `std::isspace` in the C locale. -/
def isSpace (b : UInt8) : Bool := b == 0x20 || (0x09 ≤ b && b ≤ 0x0D)

/-- `std::stoi`: leading space, a sign, and the digits after it; what follows them is ignored. -/
def stoi (s : Bytes) : Except Exception Int32 :=
  let s := s.dropWhile isSpace
  let negative := s.head? == some Json.minus
  let s := if negative ∨ s.head? == some Json.plus then s.tail else s
  let digits := s.takeWhile Json.isDigit
  if digits = [] then .error (.conversion "stoi")
  else
    let value : ℤ := Json.digitsValue digits
    let value := if negative then -value else value
    if -2 ^ 31 ≤ value ∧ value < 2 ^ 31 then .ok (.ofInt value) else .error (.conversion "stoi")

/-- `std::stod`, which names itself in what it throws. -/
def Platform.stringToDouble (P : Platform) (s : Bytes) : Except Exception Double :=
  match P.stod s with
  | some x => .ok x
  | none => .error (.conversion "stod")

/-- `std::to_string`. -/
def toString (num : Int64) : Bytes := ascii (ToString.toString num.toInt)

/-! ## A platform to run the program on -/

/-- The parser of `Scriptor.Json.Parser`, decimal numbers, and the conversions of x86-64. -/
def referencePlatform : Platform where
  parse w :=
    match Json.parse w with
    | some v => .ok v
    | none => .error (.parse_error (ascii "parse error: syntax error"))
  stod s := (Json.scanNumber s).map fun m => .finite (Binary64.round m.1.toRat)
  castInt64 _ := Int64.minValue
  castInt _ := Int32.minValue

end Scriptor
