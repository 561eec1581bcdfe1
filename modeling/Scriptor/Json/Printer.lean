import Scriptor.Json.Parser

/-!
# Writing JSON

`dumps` writes a tree as `json.dumps` of Python does without spaces: keys in their order, numbers as
Python prints them, and strings in ASCII, where every other character is a `\u` escape, or a pair of
them for a character outside of the first plane.

A `str` of Python is a list of code points, and some of them may be surrogates. Each is written as its
own escape, so a high one before a low one is read back as one character (`joinPairs`), and one that
stands alone is not the text of any character.

The printer of floating-point numbers is not part of it: a float comes as the text it is printed as.
-/

namespace Json

/-! ## Code points -/

/-- A code point, which unlike a `Char` may be a surrogate. -/
structure CodePoint where
  /-- Its number. -/
  val : ℕ
  bound : val < 0x110000
  deriving DecidableEq

/-- A `str` of Python. -/
abbrev Str := List CodePoint

namespace CodePoint

/-- The code point of a character. -/
def ofChar (c : Char) : CodePoint where
  val := c.toNat
  bound := by
    have hvalid : c.toNat < 0xD800 ∨ 0xDFFF < c.toNat ∧ c.toNat < 0x110000 := c.valid
    omega

/-- The first half of a pair of surrogates. -/
def IsHigh (c : CodePoint) : Prop := 0xD800 ≤ c.val ∧ c.val < 0xDC00

/-- The second half of a pair of surrogates. -/
def IsLow (c : CodePoint) : Prop := 0xDC00 ≤ c.val ∧ c.val < 0xE000

/-- Either half of a pair of surrogates. -/
def IsSurrogate (c : CodePoint) : Prop := 0xD800 ≤ c.val ∧ c.val < 0xE000

instance (c : CodePoint) : Decidable c.IsHigh := inferInstanceAs (Decidable (_ ∧ _))

instance (c : CodePoint) : Decidable c.IsLow := inferInstanceAs (Decidable (_ ∧ _))

instance (c : CodePoint) : Decidable c.IsSurrogate := inferInstanceAs (Decidable (_ ∧ _))

/-- The character that a pair of surrogates stands for. -/
def join (c d : CodePoint) (h : c.IsHigh ∧ d.IsLow) : CodePoint where
  val := 0x10000 + (c.val - 0xD800) * 1024 + (d.val - 0xDC00)
  bound := by
    obtain ⟨⟨-, hc⟩, -, hd⟩ := h
    omega

end CodePoint

/-- The `str` of a text. -/
def Str.ofString (s : String) : Str := s.toList.map .ofChar

/-- A string with its pairs of surrogates joined. -/
def joinPairs : Str → Str
  | [] => []
  | [c] => [c]
  | c :: d :: s =>
    if h : c.IsHigh ∧ d.IsLow then c.join d h :: joinPairs s else c :: joinPairs (d :: s)

/-- No surrogate stands alone. -/
def IsPaired (s : Str) : Prop := ∀ c ∈ joinPairs s, ¬ c.IsSurrogate

instance (s : Str) : Decidable (IsPaired s) :=
  inferInstanceAs (Decidable (∀ c ∈ joinPairs s, ¬ c.IsSurrogate))

/-! ## The data -/

/-- The text of a number that a parser takes for a floating-point one. -/
structure FloatText where
  /-- The parts of the text. -/
  number : Number
  valid : number.Valid
  /-- There is a point or an exponent. -/
  float : number.frac.isSome ∨ number.exp.isSome

/-- The trees that can be written. -/
inductive Data where
  | null
  | boolean (b : Bool)
  | integer (i : ℤ)
  | float (x : FloatText)
  | string (s : Str)
  | array (elements : List Data)
  | object (members : List (Str × Data))

/-! ## Numbers -/

/-- The decimal digits of a natural number. -/
def naturalText (n : ℕ) : Bytes := (Nat.toDigits 10 n).map fun c => UInt8.ofNat c.toNat

/-- An integer as it is written. -/
def Number.ofInt (i : ℤ) : Number where
  neg := i < 0
  int := naturalText i.natAbs
  frac := none
  exp := none

/-! ## Strings -/

/-- A hexadecimal digit, in lower case. -/
def hexDigit (n : ℕ) : UInt8 := if n < 10 then .ofNat (0x30 + n) else .ofNat (0x57 + n)

/-- The escape of a UTF-16 code unit. -/
def unicodeEscape (u : ℕ) : Bytes :=
  [backslash, 0x75, hexDigit (u / 4096), hexDigit (u / 256 % 16), hexDigit (u / 16 % 16),
    hexDigit (u % 16)]

/-- What a character is written as. -/
def escapeChar (c : CodePoint) : Bytes :=
  if c.val = 0x22 then [backslash, quote]
  else if c.val = 0x5C then [backslash, backslash]
  else if c.val = 0x0A then [backslash, 0x6E]
  else if c.val = 0x0D then [backslash, 0x72]
  else if c.val = 0x09 then [backslash, 0x74]
  else if c.val = 0x0C then [backslash, 0x66]
  else if c.val = 0x08 then [backslash, 0x62]
  else if 0x20 ≤ c.val ∧ c.val < 0x7F then [.ofNat c.val]
  else if c.val < 0x10000 then unicodeEscape c.val
  else
    unicodeEscape (0xD800 + (c.val - 0x10000) / 1024) ++
      unicodeEscape (0xDC00 + (c.val - 0x10000) % 1024)

/-- What a string is written as. -/
def dumpString (s : Str) : Bytes := quote :: (s.flatMap escapeChar ++ [quote])

/-- The bytes of a string in UTF-8. -/
def utf8 (s : Str) : Bytes := (joinPairs s).flatMap fun c => encodeUtf8 c.val

/-! ## Trees -/

mutual

/-- `json.dumps` without spaces. -/
def dumps : Data → Bytes
  | .null => nullText
  | .boolean b => if b then trueText else falseText
  | .integer i => (Number.ofInt i).text
  | .float x => x.number.text
  | .string s => dumpString s
  | .array elements => lbracket :: (dumpElements elements ++ [rbracket])
  | .object members => lbrace :: (dumpMembers members ++ [rbrace])

/-- The elements of an array, with commas between them. -/
def dumpElements : List Data → Bytes
  | [] => []
  | [d] => dumps d
  | d :: d' :: elements => dumps d ++ comma :: dumpElements (d' :: elements)

/-- The members of an object, with commas between them. -/
def dumpMembers : List (Str × Data) → Bytes
  | [] => []
  | [(k, d)] => dumpString k ++ colon :: dumps d
  | (k, d) :: m :: members => dumpString k ++ colon :: (dumps d ++ comma :: dumpMembers (m :: members))

end

mutual

/-- The value a tree is read back as. -/
def Data.toValue : Data → Value
  | .null => .null
  | .boolean b => .boolean b
  | .integer i => (Number.ofInt i).toValue
  | .float x => x.number.toValue
  | .string s => .string (utf8 s)
  | .array elements => .array (toValues elements)
  | .object members => mkObject (toMembers members)

/-- The same for the elements of an array. -/
def toValues : List Data → List Value
  | [] => []
  | d :: elements => d.toValue :: toValues elements

/-- The same for the members of an object. -/
def toMembers : List (Str × Data) → List (Bytes × Value)
  | [] => []
  | (k, d) :: members => (utf8 k, d.toValue) :: toMembers members

end

mutual

/-- No string of the tree has a surrogate that stands alone. -/
def Data.IsPaired : Data → Prop
  | .null => True
  | .boolean _ => True
  | .integer _ => True
  | .float _ => True
  | .string s => Json.IsPaired s
  | .array elements => ElementsPaired elements
  | .object members => MembersPaired members

/-- The same for the elements of an array. -/
def ElementsPaired : List Data → Prop
  | [] => True
  | d :: elements => d.IsPaired ∧ ElementsPaired elements

/-- The same for the members of an object, with their keys. -/
def MembersPaired : List (Str × Data) → Prop
  | [] => True
  | (k, d) :: members => Json.IsPaired k ∧ d.IsPaired ∧ MembersPaired members

end

end Json
