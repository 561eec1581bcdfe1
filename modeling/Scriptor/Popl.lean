import Mathlib.Algebra.Order.Ring.Int
import Mathlib.Data.List.Nodup

/-!
# Command lines

The option parser `popl::OptionParser`. An option is what it is called and what its `parse` does to
the variables that the options are bound to, of an arbitrary type `σ`. The parser goes through the
arguments once; it remembers what it did not recognise, and an option that rejects its argument ends
it with an exception, which leaves the variables as they are at that moment.

All options here have the attribute `optional`, so none is skipped and none is missed at the end.
-/

universe u

namespace Popl

/-- A `std::string`. -/
abbrev Text := List Char

/-- `Argument`: whether an option takes one. -/
inductive Argument where
  /-- It takes none. -/
  | no
  /-- It takes one, be it the next argument of the command line. -/
  | required
  /-- It takes one if it stands in the same argument of the command line. -/
  | optional
  deriving DecidableEq

/-- `OptionName`: which of its names an option was given by. -/
inductive OptionName where
  | short_name
  | long_name
  deriving DecidableEq

/-- `invalid_option::Error`. -/
inductive Error where
  | missing_argument
  | invalid_argument
  | too_many_arguments
  deriving DecidableEq

/-- The exception `invalid_option`. -/
structure InvalidOption where
  /-- What is wrong. -/
  error : Error
  /-- `what()`. -/
  what : Text
  deriving DecidableEq

/-! ## Reading from a stream -/

/-- `std::isspace` in the C locale. -/
def isSpace (c : Char) : Bool := c == ' ' || (0x09 ≤ c.toNat && c.toNat ≤ 0x0D)

/-- What `is >> value` does after it has skipped space: the value, and what is left in the stream.
It fails, or it takes something from the stream. -/
structure Extractor (α : Type u) where
  /-- The value and the rest, unless it fails. -/
  extract : Text → Option (α × Text)
  /-- Where it does not fail, the stream gets shorter. -/
  shorter : ∀ {s rest : Text} {v : α}, extract s = some (v, rest) → rest.length < s.length

variable {α β : Type u}

/-- The loop of `Value<T>::parse`, until the stream is at its end or has failed: the values read, or
nothing where it failed. -/
def Extractor.readAll (E : Extractor α) (s : Text) : Option (List α) :=
  if s = [] then some []
  else
    match h : E.extract (s.dropWhile isSpace) with
    | none => none
    | some (v, rest) =>
      have : rest.length < s.length :=
        Nat.lt_of_lt_of_le (E.shorter h) (List.dropWhile_suffix isSpace).length_le
      (E.readAll rest).map (v :: ·)
termination_by s.length
decreasing_by exact this

/-- The number at the beginning of a stream: a sign, and the digits after it. -/
def scanInteger (s : Text) : Bool × Text × Text :=
  let negative := s.head? == some '-'
  let s := if negative ∨ s.head? == some '+' then s.tail else s
  (negative, s.takeWhile Char.isDigit, s.dropWhile Char.isDigit)

theorem scanInteger_shorter {s : Text} (h : (scanInteger s).2.1 ≠ []) :
    (scanInteger s).2.2.length < s.length := by
  have hsplit := congrArg List.length (List.takeWhile_append_dropWhile
    (p := Char.isDigit) (l := if s.head? == some '-' ∨ s.head? == some '+' then s.tail else s))
  have hle : (if s.head? == some '-' ∨ s.head? == some '+' then s.tail else s).length ≤ s.length := by
    split_ifs
    · exact s.tail_suffix.length_le
    · exact Nat.le_refl _
  have hpos := List.length_pos_iff.mpr h
  simp only [scanInteger, List.length_append] at hpos hsplit ⊢
  omega

/-- An integer type: which numbers it takes, and as which values. -/
def Extractor.integer (convert : Bool → ℕ → Option α) : Extractor α where
  extract s :=
    let (negative, digits, rest) := scanInteger s
    if digits = [] then none
    else (convert negative (Nat.ofDigitChars 10 digits 0)).map fun v => (v, rest)
  shorter {s rest v} h := by
    simp only at h
    split_ifs at h with hdigits
    obtain ⟨w, -, hw⟩ := Option.map_eq_some_iff.mp h
    obtain ⟨-, rfl⟩ := Prod.mk.inj hw
    exact scanInteger_shorter hdigits

/-- `int`. -/
def Extractor.int : Extractor ℤ :=
  .integer fun negative n =>
    let i : ℤ := if negative then -n else n
    if -2 ^ 31 ≤ i ∧ i < 2 ^ 31 then some i else none

/-- An unsigned type of `w` bits: a number with a minus sign is converted modulo `2 ^ w`. -/
def Extractor.unsigned (w : ℕ) : Extractor (BitVec w) :=
  .integer fun negative n =>
    if n < 2 ^ w then some (if negative then -BitVec.ofNat w n else BitVec.ofNat w n) else none

/-! ## Options -/

/-- An option, with the variables it is bound to in a `σ`. -/
structure Opt (σ : Type u) where
  /-- The letter it is given by, if it has one. -/
  shortName : Option Char
  /-- The name it is given by, which is empty if it has none. -/
  longName : Text
  /-- `argument_type`. -/
  argument : Argument
  /-- What its argument makes of the variables, or the exception. -/
  parse : OptionName → Text → σ → Except InvalidOption σ

/-- `Option::name` with hyphens. -/
def nameOf (shortName : Option Char) (longName : Text) : OptionName → Text
  | .short_name => shortName.elim [] fun c => ['-', c]
  | .long_name => if longName = [] then [] else '-' :: '-' :: longName

section

variable {σ : Type u} (shortName : Option Char) (longName : Text)

/-- The exception for an empty argument. -/
def missingArgument (what : OptionName) : InvalidOption where
  error := .missing_argument
  what := "missing argument for ".toList ++ nameOf shortName longName what

/-- The exception for an argument that is not a value. -/
def invalidArgument (what : OptionName) (value : Text) : InvalidOption where
  error := .invalid_argument
  what := "invalid argument for ".toList ++ nameOf shortName longName what ++ ": '".toList ++ value ++
    "'".toList

/-- The exception for an argument of several values. -/
def tooManyArguments (what : OptionName) (value : Text) : InvalidOption where
  error := .too_many_arguments
  what := "too many arguments for ".toList ++ nameOf shortName longName what ++ ": '".toList ++
    value ++ "'".toList

/-- `Switch`. -/
def Opt.switch (set : Bool → σ → σ) : Opt σ where
  shortName
  longName
  argument := .no
  parse _ _ s := .ok (set true s)

/-- `Value<std::string>`. -/
def Opt.string (set : Text → σ → σ) : Opt σ where
  shortName
  longName
  argument := .required
  parse what value s :=
    if value = [] then .error (missingArgument shortName longName what) else .ok (set value s)

/-- `Value<bool>`, which takes every argument, and the empty one for `false`. -/
def Opt.bool (set : Bool → σ → σ) : Opt σ where
  shortName
  longName
  argument := .required
  parse _ value s :=
    .ok (set (value ∈ ["1".toList, "true".toList, "True".toList, "TRUE".toList]) s)

/-- `Value<T>`, for a type that is read from a stream. -/
def Opt.value (E : Extractor α) (set : α → σ → σ) : Opt σ where
  shortName
  longName
  argument := .required
  parse what value s :=
    match E.readAll value with
    | none => .error (invalidArgument shortName longName what value)
    | some [] => .error (missingArgument shortName longName what)
    | some [v] => .ok (set v s)
    | some (_ :: _ :: _) => .error (tooManyArguments shortName longName what value)

end

/-! ## The parser -/

/-- `OptionParser`. No name is taken twice, which `add` looks after. -/
structure OptionParser (σ : Type u) where
  /-- The options in the order in which they were added. -/
  options : List (Opt σ)
  shortNames : (options.filterMap Opt.shortName).Nodup
  longNames : ((options.map Opt.longName).filter (· ≠ [])).Nodup

/-- The variables, and what the parser did not recognise. -/
structure State (σ : Type u) where
  /-- The variables. -/
  target : σ
  /-- `non_option_args_`. -/
  nonOptionArgs : List Text := []
  /-- `unknown_options_`. -/
  unknownOptions : List Text := []
  deriving DecidableEq

/-- An argument is recorded as an unknown option. -/
def State.unknown {σ : Type u} (s : State σ) (arg : Text) : State σ :=
  { s with unknownOptions := s.unknownOptions ++ [arg] }

/-- An argument is recorded if one of its letters is unknown. -/
def State.noteUnknown {σ : Type u} (s : State σ) (unknown : Bool) (arg : Text) : State σ :=
  if unknown then s.unknown arg else s

/-- How a run of the parser, or a part of it, ends. -/
inductive Outcome (σ : Type u) where
  | done (s : State σ)
  | thrown (e : InvalidOption) (s : State σ)
  deriving DecidableEq

variable {σ : Type u}

/-- The state in which a run ends, with an exception or without one. -/
def Outcome.state : Outcome σ → State σ
  | .done s => s
  | .thrown _ s => s

/-- The same, unless there was an exception before. -/
def Outcome.noteUnknown (unknown : Bool) (arg : Text) : Outcome σ → Outcome σ
  | .done s => .done (s.noteUnknown unknown arg)
  | .thrown e s => .thrown e s

/-- The option is given with an argument, which may be empty. -/
def Opt.apply (o : Opt σ) (what : OptionName) (value : Text) (s : State σ) : Outcome σ :=
  match o.parse what value s.target with
  | .ok target => .done { s with target }
  | .error e => .thrown e s

/-- An option that requires an argument takes the next one if it has none of its own. -/
def takeArgument (optarg : Text) (rest : List Text) : Text × List Text :=
  match optarg, rest with
  | [], next :: rest => (next, rest)
  | optarg, rest => (optarg, rest)

namespace OptionParser

/-- A parser without options. -/
def empty : OptionParser σ where
  options := []
  shortNames := List.nodup_nil
  longNames := List.nodup_nil

/-- Both options have the same short name. -/
def sameShort (o o' : Opt σ) : Bool := o.shortName ≠ none ∧ o.shortName = o'.shortName

/-- Both options have the same long name. -/
def sameLong (o o' : Opt σ) : Bool := o.longName ≠ [] ∧ o.longName = o'.longName

theorem nodup_shortNames_add {p : OptionParser σ} {o : Opt σ}
    (h : ∀ o' ∈ p.options, sameShort o o' = false) :
    ((p.options ++ [o]).filterMap Opt.shortName).Nodup := by
  cases ho : o.shortName with
  | none => simpa [ho] using p.shortNames
  | some c =>
    have hnot : c ∉ p.options.filterMap Opt.shortName := by
      intro hc
      obtain ⟨o', ho', hc'⟩ := List.mem_filterMap.mp hc
      have hsame := h o' ho'
      simp [sameShort, ho, hc'] at hsame
    rw [List.filterMap_append, List.filterMap_cons_some ho, List.filterMap_nil]
    exact List.concat_eq_append ▸ p.shortNames.concat hnot

theorem nodup_longNames_add {p : OptionParser σ} {o : Opt σ}
    (h : ∀ o' ∈ p.options, sameLong o o' = false) :
    (((p.options ++ [o]).map Opt.longName).filter (· ≠ [])).Nodup := by
  by_cases ho : o.longName = []
  · simpa [ho] using p.longNames
  · have hnot : o.longName ∉ (p.options.map Opt.longName).filter (· ≠ []) := by
      intro hmem
      obtain ⟨o', ho', hlong⟩ := List.mem_map.mp (List.mem_filter.mp hmem).1
      have hsame := h o' ho'
      simp [sameLong, ho, hlong] at hsame
    have hsplit : ((p.options ++ [o]).map Opt.longName).filter (· ≠ []) =
        (p.options.map Opt.longName).filter (· ≠ []) ++ [o.longName] := by
      simp [ho]
    rw [hsplit]
    exact List.concat_eq_append ▸ p.longNames.concat hnot

/-- `add`, of an option with the attribute `optional`, or the text of the exception. -/
def add (p : OptionParser σ) (o : Opt σ) : Except Text (OptionParser σ) :=
  match h : p.options.find? fun o' => sameShort o o' || sameLong o o' with
  | some o' =>
    .error (if sameShort o o' then
      "duplicate short option name '-".toList ++ o.shortName.toList ++ "'".toList
    else "duplicate long option name '--".toList ++ o.longName ++ "'".toList)
  | none =>
    have hfree : ∀ o' ∈ p.options, sameShort o o' = false ∧ sameLong o o' = false := by
      simpa [List.find?_eq_none] using h
    .ok {
      options := p.options ++ [o]
      shortNames := nodup_shortNames_add fun o' ho' => (hfree o' ho').1
      longNames := nodup_longNames_add fun o' ho' => (hfree o' ho').2 }

/-- `find_option` by a long name. -/
def findLong (p : OptionParser σ) (longName : Text) : Option (Opt σ) :=
  p.options.find? fun o => o.longName = longName

/-- `find_option` by a letter. -/
def findShort (p : OptionParser σ) (c : Char) : Option (Opt σ) :=
  p.options.find? fun o => o.shortName = some c

/-- An argument that begins with two hyphens: what it leads to, and the arguments left after it. -/
def parseLong (p : OptionParser σ) (arg : Text) (rest : List Text) (s : State σ) :
    Outcome σ × List Text :=
  let opt := (arg.drop 2).takeWhile (· != '=')
  let optarg := ((arg.drop 2).dropWhile (· != '=')).tail
  match p.findLong opt with
  | none => (.done (s.unknown arg), rest)
  | some o =>
    match o.argument with
    | .no =>
      (if optarg = [] then o.apply .long_name optarg s else .done (s.unknown arg), rest)
    | .required =>
      (o.apply .long_name (takeArgument optarg rest).1 s, (takeArgument optarg rest).2)
    | .optional => (o.apply .long_name optarg s, rest)

/-- The letters of an argument that begins with one hyphen; `unknown` says whether one of those before
was not the name of an option. -/
def parseShort (p : OptionParser σ) (arg : Text) :
    Text → List Text → State σ → Bool → Outcome σ × List Text
  | [], rest, s, unknown => (.done (s.noteUnknown unknown arg), rest)
  | c :: letters, rest, s, unknown =>
    match p.findShort c with
    | none => p.parseShort arg letters rest s true
    | some o =>
      match o.argument with
      | .no =>
        match o.apply .short_name [] s with
        | .done s => p.parseShort arg letters rest s unknown
        | .thrown e s => (.thrown e s, rest)
      | .required =>
        ((o.apply .short_name (takeArgument letters rest).1 s).noteUnknown unknown arg,
          (takeArgument letters rest).2)
      | .optional => ((o.apply .short_name letters s).noteUnknown unknown arg, rest)

/-- One iteration of the loop of `parse`. After `--` the arguments are recorded, and the loop goes on
with them all the same. -/
def parseArg (p : OptionParser σ) (arg : Text) (rest : List Text) (s : State σ) :
    Outcome σ × List Text :=
  if arg = ['-', '-'] then (.done { s with nonOptionArgs := s.nonOptionArgs ++ rest }, rest)
  else if arg.take 2 = ['-', '-'] then p.parseLong arg rest s
  else if arg.take 1 = ['-'] then p.parseShort arg (arg.drop 1) rest s false
  else (.done { s with nonOptionArgs := s.nonOptionArgs ++ [arg] }, rest)

theorem takeArgument_suffix (optarg : Text) (rest : List Text) :
    (takeArgument optarg rest).2 <:+ rest := by
  unfold takeArgument
  split
  · exact List.suffix_cons _ _
  · exact List.suffix_rfl

theorem parseLong_suffix (p : OptionParser σ) (arg : Text) (rest : List Text) (s : State σ) :
    (p.parseLong arg rest s).2 <:+ rest := by
  simp only [parseLong]
  split
  · exact List.suffix_rfl
  · split
    · exact List.suffix_rfl
    · exact takeArgument_suffix _ _
    · exact List.suffix_rfl

theorem parseShort_suffix (p : OptionParser σ) (arg letters : Text) (rest : List Text) (s : State σ)
    (unknown : Bool) : (p.parseShort arg letters rest s unknown).2 <:+ rest := by
  induction letters generalizing s unknown with
  | nil => exact List.suffix_rfl
  | cons c letters ih =>
    unfold parseShort
    split
    · exact ih s true
    · split
      · split
        · exact ih _ unknown
        · exact List.suffix_rfl
      · exact takeArgument_suffix _ _
      · exact List.suffix_rfl

/-- What is left after an argument is the arguments after it, or all of them but the first. -/
theorem parseArg_suffix (p : OptionParser σ) (arg : Text) (rest : List Text) (s : State σ) :
    (p.parseArg arg rest s).2 <:+ rest := by
  unfold parseArg
  split_ifs
  · exact List.suffix_rfl
  · exact parseLong_suffix p arg rest s
  · exact parseShort_suffix p arg _ rest s false
  · exact List.suffix_rfl

/-- `parse`, for the arguments after the name of the program. -/
def parse (p : OptionParser σ) (args : List Text) (s : State σ) : Outcome σ :=
  match args with
  | [] => .done s
  | arg :: rest =>
    match (p.parseArg arg rest s).1 with
    | .done t => p.parse (p.parseArg arg rest s).2 t
    | .thrown e t => .thrown e t
termination_by args.length
decreasing_by exact Nat.lt_succ_of_le (parseArg_suffix p arg rest s).length_le

end OptionParser

end Popl
