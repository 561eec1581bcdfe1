import Scriptor.Json.Grammar

/-!
# A parser for JSON texts

A recursive-descent parser over bytes. Each function takes what is left of the text and returns what
it read and what is left after it; the ones that recurse through a value or a string are bounded by
a fuel, for which the length of the text is enough (`Scriptor.Proofs.JsonProofs`).
-/

namespace Json

/-- What is left after the space. -/
def skipSpace (s : Bytes) : Bytes := s.dropWhile isWs

/-- What is left after the byte `b`. -/
def expect (b : UInt8) : Bytes → Option Bytes
  | [] => none
  | a :: t => if a = b then some t else none

/-! ## Strings -/

/-- What one character of a string contributes: bytes, or a UTF-16 code unit written `\u`. -/
inductive StringUnit where
  | bytes (b : Bytes)
  | code (u : ℕ)

/-- The character after a backslash. -/
def scanEscape : Bytes → Option (StringUnit × Bytes)
  | [] => none
  | e :: t =>
    if e = 0x75 then
      match t with
      | a :: b :: c :: d :: t => do
        let a ← hexValue a
        let b ← hexValue b
        let c ← hexValue c
        let d ← hexValue d
        some (.code (a * 4096 + b * 256 + c * 16 + d), t)
      | _ => none
    else (escapeValue e).map fun b => (.bytes [b], t)

/-- One character of a string. -/
def scanChar : Bytes → Option (StringUnit × Bytes)
  | [] => none
  | b :: t =>
    if b = backslash then scanEscape t
    else if b = quote ∨ b < 0x20 then none
    else if b < 0x80 then some (.bytes [b], t)
    else
      match utf8Lead b, t with
      | some (lo, hi, n), s :: t =>
        if lo ≤ s ∧ s ≤ hi ∧ (t.take n).length = n ∧ (t.take n).all isContinuation then
          some (.bytes (b :: s :: t.take n), t.drop n)
        else none
      | _, _ => none

/-- The characters up to the closing quote. -/
def scanChars : ℕ → Bytes → Option (List StringUnit × Bytes)
  | 0, _ => none
  | _ + 1, [] => none
  | n + 1, b :: t =>
    if b = quote then some ([], t)
    else do
      let (u, t) ← scanChar (b :: t)
      let (us, t) ← scanChars n t
      some (u :: us, t)

/-- The UTF-8 bytes of a code point. -/
def encodeUtf8 (p : ℕ) : Bytes :=
  if p < 0x80 then [.ofNat p]
  else if p < 0x800 then [.ofNat (0xC0 + p / 64), .ofNat (0x80 + p % 64)]
  else if p < 0x10000 then
    [.ofNat (0xE0 + p / 4096), .ofNat (0x80 + p / 64 % 64), .ofNat (0x80 + p % 64)]
  else
    [.ofNat (0xF0 + p / 262144), .ofNat (0x80 + p / 4096 % 64), .ofNat (0x80 + p / 64 % 64),
      .ofNat (0x80 + p % 64)]

/-- The bytes of a string: a surrogate pair is one code point. -/
def decodeUnits : List StringUnit → Bytes
  | [] => []
  | .bytes b :: us => b ++ decodeUnits us
  | .code u :: .code v :: us =>
    if 0xD800 ≤ u ∧ u < 0xDC00 ∧ 0xDC00 ≤ v ∧ v < 0xE000 then
      encodeUtf8 (0x10000 + (u - 0xD800) * 1024 + (v - 0xDC00)) ++ decodeUnits us
    else encodeUtf8 u ++ decodeUnits (.code v :: us)
  | .code u :: us => encodeUtf8 u ++ decodeUnits us

/-- A string after its opening quote. -/
def scanString (s : Bytes) : Option (Bytes × Bytes) :=
  (scanChars s.length s).map fun (us, t) => (decodeUnits us, t)

/-! ## Numbers -/

/-- A minus sign, or nothing. -/
def scanSign : Bytes → Bool × Bytes
  | [] => (false, [])
  | b :: t => if b = minus then (true, t) else (false, b :: t)

/-- One digit or more. -/
def scanDigits (s : Bytes) : Option (Bytes × Bytes) :=
  match s.takeWhile isDigit with
  | [] => none
  | ds => some (ds, s.dropWhile isDigit)

/-- The integer part: a single zero, or digits that start with another one. -/
def scanInt : Bytes → Option (Bytes × Bytes)
  | [] => none
  | b :: t => if b = zero then some ([zero], t) else scanDigits (b :: t)

/-- The digits after a decimal point, if there is one. -/
def scanFrac : Bytes → Option (Option Bytes × Bytes)
  | [] => some (none, [])
  | b :: t => if b = dot then (scanDigits t).map fun (ds, t) => (some ds, t) else some (none, b :: t)

/-- The sign of an exponent, or nothing. -/
def scanExpSign : Bytes → Bytes × Bytes
  | [] => ([], [])
  | b :: t => if b = plus ∨ b = minus then ([b], t) else ([], b :: t)

/-- An exponent, if there is one. -/
def scanExp : Bytes → Option (Option (UInt8 × Bytes × Bytes) × Bytes)
  | [] => some (none, [])
  | b :: t =>
    if b = 0x65 ∨ b = 0x45 then
      (scanDigits (scanExpSign t).2).map fun (ds, r) => (some (b, (scanExpSign t).1, ds), r)
    else some (none, b :: t)

/-- A number, from its sign to its exponent. -/
def scanNumber (s : Bytes) : Option (Number × Bytes) := do
  let (neg, s) := scanSign s
  let (int, s) ← scanInt s
  let (frac, s) ← scanFrac s
  let (exp, s) ← scanExp s
  some (⟨neg, int, frac, exp⟩, s)

/-- The number that digits denote. -/
def digitsValue (ds : Bytes) : ℕ := ds.foldl (fun n b => 10 * n + (b.toNat - 0x30)) 0

/-- The rational number a number text denotes. -/
def Number.toRat (m : Number) : ℚ :=
  let frac := m.frac.getD []
  let digits : ℚ := digitsValue (m.int ++ frac)
  let exp : ℤ :=
    match m.exp with
    | none => 0
    | some (_, sign, ds) => if sign = [minus] then -(digitsValue ds : ℤ) else digitsValue ds
  (if m.neg then -digits else digits) * 10 ^ (exp - frac.length)

/-- Without point and exponent a number is kept as an integer where 64 bits hold it, and otherwise
as the nearest double. -/
def Number.toValue (m : Number) : Value :=
  let n := digitsValue m.int
  if m.frac.isNone ∧ m.exp.isNone ∧ (if m.neg then n ≤ 2 ^ 63 else n < 2 ^ 64) then
    if m.neg then .number_integer (.ofInt (-(n : ℤ))) else .number_unsigned (.ofNat n)
  else .number_float (Binary64.round m.toRat)

/-! ## Values -/

/-- Replaces the member with the key, or adds it. -/
def insertMember (k : Bytes) (v : Value) : List (Bytes × Value) → List (Bytes × Value)
  | [] => [(k, v)]
  | (k', v') :: ms => if k = k' then (k, v) :: ms else (k', v') :: insertMember k v ms

/-- An object from its members in the order of the text: of two with one key the later one stays. -/
def mkObject (ms : List (Bytes × Value)) : Value :=
  .object (ms.foldl (fun acc m => insertMember m.1 m.2 acc) [])

/-- Everything but strings, arrays and objects. -/
def scanScalar (s : Bytes) : Option (Value × Bytes) :=
  if nullText <+: s then some (.null, s.drop 4)
  else if trueText <+: s then some (.boolean true, s.drop 4)
  else if falseText <+: s then some (.boolean false, s.drop 5)
  else (scanNumber s).map fun (m, t) => (m.toValue, t)

mutual

/-- A value that begins with the first byte. -/
def parseValue : ℕ → Bytes → Option (Value × Bytes)
  | 0, _ => none
  | _ + 1, [] => none
  | n + 1, b :: t =>
    if b = quote then (scanString t).map fun (s, t) => (.string s, t)
    else if b = lbracket then
      if (skipSpace t).head? = some rbracket then some (.array [], (skipSpace t).tail)
      else (parseElements n t).map fun (vs, t) => (.array vs, t)
    else if b = lbrace then
      if (skipSpace t).head? = some rbrace then some (mkObject [], (skipSpace t).tail)
      else (parseMembers n t).map fun (ms, t) => (mkObject ms, t)
    else scanScalar (b :: t)

/-- The elements of a non-empty array and its closing bracket. -/
def parseElements : ℕ → Bytes → Option (List Value × Bytes)
  | 0, _ => none
  | n + 1, s => do
    let (v, s) ← parseValue n (skipSpace s)
    match skipSpace s with
    | [] => none
    | b :: t =>
      if b = rbracket then some ([v], t)
      else if b = comma then do
        let (vs, t) ← parseElements n t
        some (v :: vs, t)
      else none

/-- The members of a non-empty object and its closing brace. -/
def parseMembers : ℕ → Bytes → Option (List (Bytes × Value) × Bytes)
  | 0, _ => none
  | n + 1, s => do
    let s ← expect quote (skipSpace s)
    let (k, s) ← scanString s
    let s ← expect colon (skipSpace s)
    let (v, s) ← parseValue n (skipSpace s)
    match skipSpace s with
    | [] => none
    | b :: t =>
      if b = rbrace then some ([(k, v)], t)
      else if b = comma then do
        let (ms, t) ← parseMembers n t
        some ((k, v) :: ms, t)
      else none

end

/-- The value of a JSON text. -/
def parse (s : Bytes) : Option Value := do
  let (v, t) ← parseValue (s.length + 1) (skipSpace s)
  if skipSpace t = [] then some v else none

end Json
