import Scriptor.Binary64
import Mathlib.Data.List.Basic

/-!
# JSON values and JSON texts

`Value` is the tree a JSON text denotes, with the three kinds of number a C++ reader keeps apart.
`IsText` is the grammar of JSON over bytes in UTF-8; it is written for texts without a remainder, so
that it does not depend on how a parser goes through them.
-/

/-- A `std::string`. -/
abbrev Bytes := List UInt8

namespace Json

/-- A JSON value; the members of an object have pairwise different keys. -/
inductive Value where
  | null
  | boolean (b : Bool)
  /-- A negative integer. -/
  | number_integer (i : Int64)
  /-- An integer that is not negative. -/
  | number_unsigned (n : UInt64)
  /-- A number with a point or an exponent, or one too large for an integer. -/
  | number_float (x : ℚ)
  | string (s : Bytes)
  | array (elements : List Value)
  | object (members : List (Bytes × Value))

/-! Equality of values is decidable. -/

mutual

/-- Equality of values, by recursion on the first. -/
def Value.beq : Value → Value → Bool
  | .null, .null => true
  | .boolean a, .boolean b => a == b
  | .number_integer i, .number_integer j => i == j
  | .number_unsigned m, .number_unsigned n => m == n
  | .number_float x, .number_float y => x == y
  | .string s, .string t => s == t
  | .array vs, .array ws => beqElements vs ws
  | .object ms, .object ns => beqMembers ms ns
  | _, _ => false

/-- Equality of the elements of arrays. -/
def beqElements : List Value → List Value → Bool
  | [], [] => true
  | v :: vs, w :: ws => v.beq w && beqElements vs ws
  | _, _ => false

/-- Equality of the members of objects, in their order. -/
def beqMembers : List (Bytes × Value) → List (Bytes × Value) → Bool
  | [], [] => true
  | (k, v) :: ms, (l, w) :: ns => k == l && v.beq w && beqMembers ms ns
  | _, _ => false

end

mutual

theorem Value.beq_iff : ∀ {v w : Value}, v.beq w = true ↔ v = w
  | v, w => by
    cases v with
    | array vs => cases w <;> simp [Value.beq, @beqElements_iff vs]
    | object ms => cases w <;> simp [Value.beq, @beqMembers_iff ms]
    | _ => cases w <;> simp [Value.beq]

theorem beqElements_iff : ∀ {vs ws : List Value}, beqElements vs ws = true ↔ vs = ws
  | [], ws => by cases ws <;> simp [beqElements]
  | v :: vs, ws => by
    cases ws <;> simp [beqElements, Value.beq_iff (v := v), @beqElements_iff vs]

theorem beqMembers_iff : ∀ {ms ns : List (Bytes × Value)}, beqMembers ms ns = true ↔ ms = ns
  | [], ns => by cases ns <;> simp [beqMembers]
  | (k, v) :: ms, ns => by
    cases ns <;> simp [beqMembers, Value.beq_iff (v := v), @beqMembers_iff ms, Prod.ext_iff]

end

instance : DecidableEq Value := fun v w => decidable_of_iff (v.beq w = true) Value.beq_iff

/-! ## Bytes -/

def quote : UInt8 := 0x22
def comma : UInt8 := 0x2C
def colon : UInt8 := 0x3A
def lbracket : UInt8 := 0x5B
def backslash : UInt8 := 0x5C
def rbracket : UInt8 := 0x5D
def lbrace : UInt8 := 0x7B
def rbrace : UInt8 := 0x7D
def minus : UInt8 := 0x2D
def plus : UInt8 := 0x2B
def dot : UInt8 := 0x2E
def zero : UInt8 := 0x30

def nullText : Bytes := [0x6E, 0x75, 0x6C, 0x6C]
def trueText : Bytes := [0x74, 0x72, 0x75, 0x65]
def falseText : Bytes := [0x66, 0x61, 0x6C, 0x73, 0x65]

/-- Space, tab, line feed and carriage return. -/
def isWs (b : UInt8) : Bool := b == 0x20 || b == 0x09 || b == 0x0A || b == 0x0D

/-- A decimal digit. -/
def isDigit (b : UInt8) : Bool := 0x30 ≤ b && b ≤ 0x39

/-- The value of a hexadecimal digit. -/
def hexValue (b : UInt8) : Option ℕ :=
  if isDigit b then some (b.toNat - 0x30)
  else if 0x61 ≤ b && b ≤ 0x66 then some (b.toNat - 0x57)
  else if 0x41 ≤ b && b ≤ 0x46 then some (b.toNat - 0x37)
  else none

/-- A hexadecimal digit, in either case. -/
def isHex (b : UInt8) : Bool := (hexValue b).isSome

/-- The byte a two-character escape stands for. -/
def escapeValue (e : UInt8) : Option UInt8 :=
  if e == quote || e == backslash || e == 0x2F then some e
  else if e == 0x62 then some 0x08
  else if e == 0x66 then some 0x0C
  else if e == 0x6E then some 0x0A
  else if e == 0x72 then some 0x0D
  else if e == 0x74 then some 0x09
  else none

/-- For the first byte of a longer UTF-8 sequence: the bounds of its second byte, and how many
bytes follow the second. -/
def utf8Lead (b : UInt8) : Option (UInt8 × UInt8 × ℕ) :=
  if 0xC2 ≤ b && b ≤ 0xDF then some (0x80, 0xBF, 0)
  else if b == 0xE0 then some (0xA0, 0xBF, 1)
  else if b == 0xED then some (0x80, 0x9F, 1)
  else if 0xE1 ≤ b && b ≤ 0xEF then some (0x80, 0xBF, 1)
  else if b == 0xF0 then some (0x90, 0xBF, 2)
  else if 0xF1 ≤ b && b ≤ 0xF3 then some (0x80, 0xBF, 2)
  else if b == 0xF4 then some (0x80, 0x8F, 2)
  else none

/-- A byte of a longer UTF-8 sequence after the first. -/
def isContinuation (b : UInt8) : Bool := 0x80 ≤ b && b ≤ 0xBF

/-! ## Numbers -/

/-- The parts of a number text. -/
structure Number where
  /-- There is a minus sign. -/
  neg : Bool
  /-- The digits before the point and the exponent. -/
  int : Bytes
  /-- The digits after the decimal point. -/
  frac : Option Bytes
  /-- The letter, the sign and the digits of the exponent. -/
  exp : Option (UInt8 × Bytes × Bytes)

/-- The text of the digits after the decimal point. -/
def fracText : Option Bytes → Bytes
  | none => []
  | some ds => dot :: ds

/-- The text of the exponent. -/
def expText : Option (UInt8 × Bytes × Bytes) → Bytes
  | none => []
  | some (e, sign, ds) => e :: (sign ++ ds)

/-- The text with these parts. -/
def Number.text (m : Number) : Bytes :=
  (if m.neg then [minus] else []) ++ (m.int ++ (fracText m.frac ++ expText m.exp))

/-- One digit or more. -/
def IsDigits (ds : Bytes) : Prop := ds ≠ [] ∧ ∀ b ∈ ds, isDigit b

/-- No leading zeros, and digits wherever there is a point or an exponent. -/
structure Number.Valid (m : Number) : Prop where
  int : IsDigits m.int
  /-- Only zero begins with a zero. -/
  noLeadingZero : m.int.head? = some zero → m.int = [zero]
  frac : ∀ ds, m.frac = some ds → IsDigits ds
  exp : ∀ e sign ds, m.exp = some (e, sign, ds) →
    (e = 0x65 ∨ e = 0x45) ∧ (sign = [] ∨ sign = [plus] ∨ sign = [minus]) ∧ IsDigits ds

/-- The text of a number. -/
def IsNumber (w : Bytes) : Prop := ∃ m : Number, m.Valid ∧ w = m.text

/-! ## Strings -/

/-- One character of a string, as it is written. -/
inductive IsChar : Bytes → Prop where
  | ascii {b : UInt8} (hlo : 0x20 ≤ b) (hhi : b < 0x80) (hq : b ≠ quote) (hb : b ≠ backslash) :
      IsChar [b]
  | utf8 {b s lo hi : UInt8} {n : ℕ} {t : Bytes} (hlead : utf8Lead b = some (lo, hi, n))
      (hlo : lo ≤ s) (hhi : s ≤ hi) (hn : t.length = n) (ht : ∀ x ∈ t, isContinuation x) :
      IsChar (b :: s :: t)
  | escape {e : UInt8} (he : (escapeValue e).isSome) : IsChar [backslash, e]
  | unicode {a b c d : UInt8} (ha : isHex a) (hb : isHex b) (hc : isHex c) (hd : isHex d) :
      IsChar [backslash, 0x75, a, b, c, d]

/-- A string with its quotes. -/
def IsString (w : Bytes) : Prop :=
  ∃ cs : List Bytes, (∀ x ∈ cs, IsChar x) ∧ w = quote :: (cs.flatten ++ [quote])

/-! ## Values -/

/-- Space between two tokens, which may be empty. -/
def IsSpace (w : Bytes) : Prop := ∀ b ∈ w, isWs b

mutual

/-- A value, without space around it. -/
inductive IsValue : Bytes → Prop where
  | nullLit : IsValue nullText
  | trueLit : IsValue trueText
  | falseLit : IsValue falseText
  | number {w : Bytes} (h : IsNumber w) : IsValue w
  | string {w : Bytes} (h : IsString w) : IsValue w
  | emptyArray {a : Bytes} (h : IsSpace a) : IsValue (lbracket :: (a ++ [rbracket]))
  | array {w : Bytes} (h : IsElements w) : IsValue (lbracket :: (w ++ [rbracket]))
  | emptyObject {a : Bytes} (h : IsSpace a) : IsValue (lbrace :: (a ++ [rbrace]))
  | object {w : Bytes} (h : IsMembers w) : IsValue (lbrace :: (w ++ [rbrace]))

/-- What stands between the brackets of a non-empty array. -/
inductive IsElements : Bytes → Prop where
  | last {a v b : Bytes} (ha : IsSpace a) (hv : IsValue v) (hb : IsSpace b) :
      IsElements (a ++ (v ++ b))
  | more {a v b w : Bytes} (ha : IsSpace a) (hv : IsValue v) (hb : IsSpace b) (h : IsElements w) :
      IsElements (a ++ (v ++ (b ++ comma :: w)))

/-- What stands between the braces of a non-empty object. -/
inductive IsMembers : Bytes → Prop where
  | last {a k b c v d : Bytes} (ha : IsSpace a) (hk : IsString k) (hb : IsSpace b) (hc : IsSpace c)
      (hv : IsValue v) (hd : IsSpace d) :
      IsMembers (a ++ (k ++ (b ++ colon :: (c ++ (v ++ d)))))
  | more {a k b c v d w : Bytes} (ha : IsSpace a) (hk : IsString k) (hb : IsSpace b)
      (hc : IsSpace c) (hv : IsValue v) (hd : IsSpace d) (h : IsMembers w) :
      IsMembers (a ++ (k ++ (b ++ colon :: (c ++ (v ++ (d ++ comma :: w))))))

end

/-- A JSON text: one value, with space around it. -/
def IsText (w : Bytes) : Prop :=
  ∃ a v b, IsSpace a ∧ IsValue v ∧ IsSpace b ∧ w = a ++ (v ++ b)

end Json
