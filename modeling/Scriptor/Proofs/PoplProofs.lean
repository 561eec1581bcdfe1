import Scriptor.Popl
import Scriptor.Spans

/-!
# Command lines: numbers, and parts of a command line

`Value<T>::parse` reads its argument with the stream operator until nothing is left, so it takes
exactly one number, with space before it but not after it (`readAll_integer_iff`).
-/

universe u

namespace Popl

open Spans

variable {α : Type u}

/-! ## Numbers -/

/-- A number in a stream: space, a sign, and digits. -/
structure Numeral where
  space : Text
  sign : Text
  digits : Text
  hspace : ∀ c ∈ space, isSpace c = true
  hsign : sign = [] ∨ sign = ['-'] ∨ sign = ['+']
  hnonempty : digits ≠ []
  hdigit : ∀ c ∈ digits, c.isDigit = true

namespace Numeral

/-- The text with these parts. -/
def text (n : Numeral) : Text := n.space ++ (n.sign ++ n.digits)

/-- It has a minus sign. -/
def negative (n : Numeral) : Bool := n.sign = ['-']

/-- The number that the digits denote. -/
def value (n : Numeral) : ℕ := Nat.ofDigitChars 10 n.digits 0

/-- The value in an integer type. -/
def convert (n : Numeral) (convert : Bool → ℕ → Option α) : Option α := convert n.negative n.value

theorem text_ne_nil (n : Numeral) : n.text ≠ [] := by
  simp [text, n.hnonempty]

end Numeral

/-- A digit is no space, and no sign. -/
theorem digit_spec {c : Char} (h : c.isDigit = true) : isSpace c = false ∧ c ≠ '-' ∧ c ≠ '+' := by
  have hrange : 48 ≤ c.toNat ∧ c.toNat ≤ 57 := by
    simpa [Char.isDigit, UInt32.le_iff_toNat_le] using h
  refine ⟨?_, ?_, ?_⟩
  · rw [isSpace, Bool.or_eq_false_iff, Bool.and_eq_false_iff]
    refine ⟨?_, .inr ?_⟩
    · rw [beq_eq_false_iff_ne]
      rintro rfl
      exact absurd hrange.1 (by decide)
    · rw [decide_eq_false_iff_not]
      omega
  · rintro rfl
    exact absurd hrange.1 (by decide)
  · rintro rfl
    exact absurd hrange.1 (by decide)

/-- The numbers in a text, each as long as possible, with their values. -/
inductive IsNumerals (convert : Bool → ℕ → Option α) : Text → List α → Prop where
  | nil : IsNumerals convert [] []
  | cons {n : Numeral} {rest : Text} {v : α} {vs : List α} (hv : n.convert convert = some v)
      (hstop : ∀ c ∈ rest.head?, c.isDigit = false) (h : IsNumerals convert rest vs) :
      IsNumerals convert (n.text ++ rest) (v :: vs)

variable {convert : Bool → ℕ → Option α} {s rest : Text} {v : α} {vs : List α}

theorem Numeral.head_sign (n : Numeral) (rest : Text) :
    ∀ c ∈ (n.sign ++ (n.digits ++ rest)).head?, isSpace c = false := by
  obtain ⟨d, ds, hd⟩ := List.exists_cons_of_ne_nil n.hnonempty
  have hdigit := digit_spec (n.hdigit d (hd ▸ List.mem_cons_self))
  intro c hc
  rcases n.hsign with h | h | h
  · rw [h, hd] at hc
    obtain rfl : d = c := by simpa using hc
    exact hdigit.1
  · rw [h] at hc
    obtain rfl : '-' = c := by simpa using hc
    rfl
  · rw [h] at hc
    obtain rfl : '+' = c := by simpa using hc
    rfl

theorem Numeral.dropWhile_text (n : Numeral) (rest : Text) :
    (n.text ++ rest).dropWhile isSpace = n.sign ++ (n.digits ++ rest) := by
  rw [text, List.append_assoc, List.append_assoc]
  exact dropWhile_of_head n.hspace (n.head_sign rest)

theorem Numeral.scanInteger_text (n : Numeral) (hstop : ∀ c ∈ rest.head?, c.isDigit = false) :
    scanInteger (n.sign ++ (n.digits ++ rest)) = (n.negative, n.digits, rest) := by
  have htake := takeWhile_of_head n.hdigit hstop
  have hdrop := dropWhile_of_head n.hdigit hstop
  obtain ⟨d, ds, hd⟩ := List.exists_cons_of_ne_nil n.hnonempty
  obtain ⟨-, hminus, hplus⟩ := digit_spec (n.hdigit d (hd ▸ List.mem_cons_self))
  rcases n.hsign with h | h | h
  · have hhead : (n.digits ++ rest).head? = some d := by simp [hd]
    simp [scanInteger, negative, h, hhead, hminus, hplus, htake, hdrop]
  · simp [scanInteger, negative, h, htake, hdrop]
  · simp [scanInteger, negative, h, htake, hdrop]

/-- What the stream operator makes of a text that begins with a number. -/
theorem extract_text (n : Numeral) (hstop : ∀ c ∈ rest.head?, c.isDigit = false) :
    (Extractor.integer convert).extract ((n.text ++ rest).dropWhile isSpace) =
      (n.convert convert).map fun v => (v, rest) := by
  rw [n.dropWhile_text]
  simp only [Extractor.integer, n.scanInteger_text hstop, if_neg n.hnonempty]
  rfl

theorem exists_sign (t : Text) :
    ∃ sign u, t = sign ++ u ∧ (sign = [] ∨ sign = ['-'] ∨ sign = ['+']) ∧ scanInteger t =
      (decide (sign = ['-']), u.takeWhile Char.isDigit, u.dropWhile Char.isDigit) := by
  by_cases hminus : t.head? = some '-'
  · obtain ⟨u, rfl⟩ := List.head?_eq_some_iff.mp hminus
    exact ⟨['-'], u, rfl, .inr (.inl rfl), rfl⟩
  · by_cases hplus : t.head? = some '+'
    · obtain ⟨u, rfl⟩ := List.head?_eq_some_iff.mp hplus
      exact ⟨['+'], u, rfl, .inr (.inr rfl), rfl⟩
    · exact ⟨[], t, rfl, .inl rfl, by simp [scanInteger, hminus, hplus]⟩

/-- Where the stream operator succeeds there is a number. -/
theorem exists_numeral
    (h : (Extractor.integer convert).extract (s.dropWhile isSpace) = some (v, rest)) :
    ∃ n : Numeral, s = n.text ++ rest ∧ n.convert convert = some v ∧
      ∀ c ∈ rest.head?, c.isDigit = false := by
  obtain ⟨t, ht⟩ : ∃ t, s.dropWhile isSpace = t := ⟨_, rfl⟩
  have hs : s = s.takeWhile isSpace ++ t := by rw [← ht, List.takeWhile_append_dropWhile]
  have hspace : ∀ c ∈ s.takeWhile isSpace, isSpace c = true := fun c => List.mem_takeWhile_imp
  rw [ht] at h
  obtain ⟨sign, u, rfl, hsign, hscan⟩ := exists_sign t
  simp only [Extractor.integer, hscan] at h
  split_ifs at h with hdigits
  obtain ⟨w, hw, hpair⟩ := Option.map_eq_some_iff.mp h
  obtain ⟨rfl, rfl⟩ := Prod.mk.inj hpair
  refine ⟨⟨s.takeWhile isSpace, sign, u.takeWhile Char.isDigit, hspace, hsign, hdigits,
    fun c => List.mem_takeWhile_imp⟩, ?_, hw, head_dropWhile⟩
  rw [Numeral.text, List.append_assoc, List.append_assoc, List.takeWhile_append_dropWhile]
  exact hs

theorem readAll_cons {E : Extractor α} (hs : s ≠ []) :
    E.readAll s = (E.extract (s.dropWhile isSpace)).bind fun r =>
      (E.readAll r.2).map (r.1 :: ·) := by
  rw [Extractor.readAll, if_neg hs]
  split
  · rename_i h
    rw [h, Option.bind_none]
  · rename_i v rest h
    conv_rhs => rw [h, Option.bind_some]

/-- The loop of `parse` reads a text exactly if it is made of numbers of the type. -/
theorem readAll_integer_iff :
    (Extractor.integer convert).readAll s = some vs ↔ IsNumerals convert s vs := by
  constructor
  · induction hn : s.length using Nat.strongRecOn generalizing s vs with
    | _ n ih =>
      intro h
      by_cases hs : s = []
      · subst hs
        obtain rfl : [] = vs := by simpa [Extractor.readAll] using h
        exact .nil
      · rw [readAll_cons hs] at h
        obtain ⟨⟨v, rest⟩, hextract, hrest⟩ := Option.bind_eq_some_iff.mp h
        obtain ⟨us, hus, rfl⟩ := Option.map_eq_some_iff.mp hrest
        obtain ⟨m, rfl, hv, hstop⟩ := exists_numeral hextract
        have hlt : rest.length < n := by
          have hpos := List.length_pos_iff.mpr m.text_ne_nil
          simp only [List.length_append] at hn
          omega
        exact .cons hv hstop (ih _ hlt rfl hus)
  · intro h
    induction h with
    | nil => simp [Extractor.readAll]
    | @cons n rest v vs hv hstop h ih =>
      have hne : n.text ++ rest ≠ [] := by simp [n.text_ne_nil]
      rw [readAll_cons hne, extract_text n hstop, hv, Option.map_some, Option.bind_some, ih,
        Option.map_some]

theorem isNumerals_nil_iff : IsNumerals convert s [] ↔ s = [] := by
  constructor
  · intro h
    cases h
    rfl
  · rintro rfl
    exact .nil

theorem isNumerals_singleton_iff :
    IsNumerals convert s [v] ↔ ∃ n : Numeral, s = n.text ∧ n.convert convert = some v := by
  constructor
  · intro h
    cases h with
    | @cons n rest _ _ hv hstop h =>
      obtain rfl := isNumerals_nil_iff.mp h
      exact ⟨n, List.append_nil _, hv⟩
  · rintro ⟨n, rfl, hv⟩
    rw [← List.append_nil n.text]
    exact .cons hv (by simp) .nil

variable {σ : Type u} {shortName : Option Char} {longName : Text} {set : α → σ → σ}
  {what : OptionName} {t t' : σ}

/-- `Value<T>::parse` for an integer type takes exactly the texts that are one number of the type, with
space before it at most. It says that the argument is missing for the empty text alone, that there
are too many for two numbers or more, which need no space between them if the later ones have a sign,
and that the argument is invalid for everything else. -/
theorem value_parse_iff :
    ((Opt.value shortName longName (.integer convert) set).parse what s t = .ok t' ↔
      ∃ (n : Numeral) (v : α), s = n.text ∧ n.convert convert = some v ∧ t' = set v t) ∧
    ((Opt.value shortName longName (.integer convert) set).parse what s t =
      .error (missingArgument shortName longName what) ↔ s = []) ∧
    ((Opt.value shortName longName (.integer convert) set).parse what s t =
      .error (tooManyArguments shortName longName what s) ↔
        ∃ vs, IsNumerals convert s vs ∧ 2 ≤ vs.length) ∧
    ((Opt.value shortName longName (.integer convert) set).parse what s t =
      .error (invalidArgument shortName longName what s) ↔ ¬ ∃ vs, IsNumerals convert s vs) := by
  have hone : (∃ (n : Numeral) (v : α), s = n.text ∧ n.convert convert = some v ∧ t' = set v t) ↔
      ∃ v, (Extractor.integer convert).readAll s = some [v] ∧ set v t = t' := by
    constructor
    · rintro ⟨n, v, hs, hv, ht⟩
      exact ⟨v, readAll_integer_iff.mpr (isNumerals_singleton_iff.mpr ⟨n, hs, hv⟩), ht.symm⟩
    · rintro ⟨v, hread, ht⟩
      obtain ⟨n, hs, hv⟩ := isNumerals_singleton_iff.mp (readAll_integer_iff.mp hread)
      exact ⟨n, v, hs, hv, ht.symm⟩
  have hnone : s = [] ↔ (Extractor.integer convert).readAll s = some [] := by
    rw [readAll_integer_iff, isNumerals_nil_iff]
  rw [hone]
  simp only [hnone, ← readAll_integer_iff]
  rcases hread : (Extractor.integer convert).readAll s with _ | _ | ⟨v, _ | ⟨w, vs⟩⟩
  · simp [Opt.value, hread, missingArgument, invalidArgument, tooManyArguments]
  · simp [Opt.value, hread, missingArgument, invalidArgument, tooManyArguments]
  · simp [Opt.value, hread]
  · simp [Opt.value, hread, missingArgument, invalidArgument, tooManyArguments]

/-- A number as it is usually written. -/
def Numeral.ofNat (negative : Bool) (n : ℕ) : Numeral where
  space := []
  sign := if negative then ['-'] else []
  digits := Nat.toDigits 10 n
  hspace := by simp
  hsign := by cases negative <;> simp
  hnonempty := Nat.toDigits_ne_nil
  hdigit c hc := Nat.isDigit_of_mem_toDigits (by omega) (by omega) hc

theorem readAll_ofNat {negative : Bool} {m : ℕ} (h : convert negative m = some v) :
    (Extractor.integer convert).readAll (Numeral.ofNat negative m).text = some [v] := by
  refine readAll_integer_iff.mpr (isNumerals_singleton_iff.mpr ⟨_, rfl, ?_⟩)
  have hvalue : (Numeral.ofNat negative m).value = m := Nat.ofDigitChars_ten_toDigits
  have hnegative : (Numeral.ofNat negative m).negative = negative := by
    cases negative <;> simp [Numeral.negative, Numeral.ofNat]
  rw [Numeral.convert, hvalue, hnegative, h]

/-- An `int` as it is usually written. -/
def intText (i : ℤ) : Text := (Numeral.ofNat (i < 0) i.natAbs).text

/-- An unsigned number as it is usually written. -/
def natText (m : ℕ) : Text := (Numeral.ofNat false m).text

theorem readAll_intText {i : ℤ} (hlo : -2 ^ 31 ≤ i) (hhi : i < 2 ^ 31) :
    Extractor.int.readAll (intText i) = some [i] := by
  refine readAll_ofNat ?_
  have hi : (if decide (i < 0) = true then -(i.natAbs : ℤ) else i.natAbs) = i := by
    simp only [decide_eq_true_eq]
    split_ifs <;> omega
  simp only [hi, if_pos (And.intro hlo hhi)]

theorem readAll_natText {w m : ℕ} (h : m < 2 ^ w) :
    (Extractor.unsigned w).readAll (natText m) = some [BitVec.ofNat w m] := by
  refine readAll_ofNat ?_
  rw [if_pos h]
  rfl

/-! ## Adding options -/

namespace OptionParser

variable {σ : Type u} {p : OptionParser σ}

theorem ext_options {p q : OptionParser σ} (h : p.options = q.options) : p = q := by
  cases p
  cases q
  cases h
  rfl

/-- An option whose names are free is added. -/
theorem add_eq_ok {o : Opt σ}
    (hfree : ∀ o' ∈ p.options, sameShort o o' = false ∧ sameLong o o' = false) :
    ∃ q, p.add o = .ok q ∧ q.options = p.options ++ [o] := by
  unfold add
  split
  · rename_i o' hfind
    have hsame := List.find?_some hfind
    obtain ⟨hshort, hlong⟩ := hfree o' (List.mem_of_find?_eq_some hfind)
    simp [hshort, hlong] at hsame
  · exact ⟨_, rfl, rfl⟩

theorem free_of_nodup {os os' : List (Opt σ)} {o o' : Opt σ} (hp : p.options = os ++ o :: os')
    (ho' : o' ∈ os) : sameShort o o' = false ∧ sameLong o o' = false := by
  have hshort := p.shortNames
  have hlong := p.longNames
  rw [hp, List.filterMap_append, List.nodup_append] at hshort
  rw [hp, List.map_append, List.filter_append, List.nodup_append] at hlong
  refine ⟨?_, ?_⟩
  · by_contra hsame
    simp only [sameShort, Bool.not_eq_false, decide_eq_true_eq] at hsame
    obtain ⟨c, hc⟩ := Option.ne_none_iff_exists'.mp hsame.1
    refine hshort.2.2 c (List.mem_filterMap.mpr ⟨o', ho', hsame.2 ▸ hc⟩) c ?_ rfl
    exact List.mem_filterMap.mpr ⟨o, List.mem_cons_self, hc⟩
  · by_contra hsame
    simp only [sameLong, Bool.not_eq_false, decide_eq_true_eq] at hsame
    refine hlong.2.2 o.longName ?_ o.longName ?_ rfl
    · exact List.mem_filter.mpr ⟨List.mem_map.mpr ⟨o', ho', hsame.2.symm⟩, by simpa using hsame.1⟩
    · exact List.mem_filter.mpr ⟨List.mem_map.mpr ⟨o, List.mem_cons_self, rfl⟩, by simpa using hsame.1⟩

/-- Every parser is what `add` makes of its options, one after the other, without an exception. -/
theorem foldlM_add (p : OptionParser σ) : p.options.foldlM add empty = .ok p := by
  have hadd : ∀ (os : List (Opt σ)) (q : OptionParser σ), q.options ++ os = p.options →
      os.foldlM add q = .ok p := by
    intro os
    induction os with
    | nil =>
      intro q hq
      rw [List.append_nil] at hq
      exact congrArg Except.ok (ext_options hq)
    | cons o os ih =>
      intro q hq
      obtain ⟨r, hr, hoptions⟩ := add_eq_ok (p := q) fun o' ho' => free_of_nodup hq.symm ho'
      rw [List.foldlM_cons, hr]
      exact ih r (by rw [hoptions, List.append_assoc]; exact hq)
  exact hadd p.options empty rfl

end OptionParser

/-! ## What the arguments without an option change -/

/-- Forgets the arguments that belong to no option. -/
def State.withoutArgs (s : State σ) : State σ := { s with nonOptionArgs := [] }

/-- The same for the state in which a run ends. -/
def Outcome.withoutArgs : Outcome σ → Outcome σ
  | .done s => .done s.withoutArgs
  | .thrown e s => .thrown e s.withoutArgs

@[simp] theorem withoutArgs_done (s : State σ) :
    (Outcome.done s).withoutArgs = .done s.withoutArgs := rfl

@[simp] theorem withoutArgs_thrown (e : InvalidOption) (s : State σ) :
    (Outcome.thrown e s).withoutArgs = .thrown e s.withoutArgs := rfl

@[simp] theorem withoutArgs_withoutArgs (s : State σ) : s.withoutArgs.withoutArgs = s.withoutArgs :=
  rfl

@[simp] theorem withoutArgs_args (s : State σ) (args : List Text) :
    State.withoutArgs { s with nonOptionArgs := args } = s.withoutArgs := rfl

@[simp] theorem noteUnknown_withoutArgs (s : State σ) (unknown : Bool) (arg : Text) :
    s.withoutArgs.noteUnknown unknown arg = (s.noteUnknown unknown arg).withoutArgs := by
  cases unknown <;> rfl

theorem Outcome.noteUnknown_withoutArgs (o : Outcome σ) (unknown : Bool) (arg : Text) :
    o.withoutArgs.noteUnknown unknown arg = (o.noteUnknown unknown arg).withoutArgs := by
  cases o with
  | done s => simp [noteUnknown]
  | thrown e s => rfl

theorem withoutArgs_target (o : Outcome σ) : o.withoutArgs.state.target = o.state.target := by
  cases o <;> rfl

theorem noteUnknown_target (s : State σ) (unknown : Bool) (arg : Text) :
    (s.noteUnknown unknown arg).target = s.target := by
  cases unknown <;> rfl

theorem Outcome.noteUnknown_target (o : Outcome σ) (unknown : Bool) (arg : Text) :
    (o.noteUnknown unknown arg).state.target = o.state.target := by
  cases o with
  | done s => exact Popl.noteUnknown_target s unknown arg
  | thrown e s => rfl

theorem apply_withoutArgs (o : Opt σ) (what : OptionName) (value : Text) (s : State σ) :
    o.apply what value s.withoutArgs = (o.apply what value s).withoutArgs := by
  unfold Opt.apply
  have htarget : s.withoutArgs.target = s.target := rfl
  rw [htarget]
  cases o.parse what value s.target <;> rfl

namespace OptionParser

variable {p : OptionParser σ} {arg : Text} {rest left xs ys : List Text} {s t : State σ}

theorem parseLong_withoutArgs :
    p.parseLong arg rest s.withoutArgs =
      ((p.parseLong arg rest s).1.withoutArgs, (p.parseLong arg rest s).2) := by
  unfold parseLong
  simp only
  split
  · rfl
  · split
    · split_ifs
      · rw [apply_withoutArgs]
      · rfl
    · rw [apply_withoutArgs]
    · rw [apply_withoutArgs]

theorem parseShort_withoutArgs (letters : Text) (unknown : Bool) :
    p.parseShort arg letters rest s.withoutArgs unknown =
      ((p.parseShort arg letters rest s unknown).1.withoutArgs,
        (p.parseShort arg letters rest s unknown).2) := by
  induction letters generalizing s unknown with
  | nil => simp [parseShort]
  | cons c letters ih =>
    unfold parseShort
    split
    · exact ih true
    · rename_i o ho
      split
      · rw [apply_withoutArgs]
        cases o.apply .short_name [] s with
        | done s => exact ih unknown
        | thrown e s => rfl
      · rw [apply_withoutArgs, Outcome.noteUnknown_withoutArgs]
      · rw [apply_withoutArgs, Outcome.noteUnknown_withoutArgs]

/-- What was recorded of the arguments without an option makes no difference to the rest. -/
theorem parseArg_withoutArgs :
    (p.parseArg arg rest s.withoutArgs).1.withoutArgs = (p.parseArg arg rest s).1.withoutArgs ∧
      (p.parseArg arg rest s.withoutArgs).2 = (p.parseArg arg rest s).2 := by
  unfold parseArg
  split_ifs
  · exact ⟨rfl, rfl⟩
  · rw [parseLong_withoutArgs]
    refine ⟨?_, rfl⟩
    cases (p.parseLong arg rest s).1 <;> rfl
  · rw [parseShort_withoutArgs]
    refine ⟨?_, rfl⟩
    cases (p.parseShort arg (arg.drop 1) rest s false).1 <;> rfl
  · exact ⟨rfl, rfl⟩

@[simp] theorem parse_nil : p.parse [] s = .done s := by
  rw [parse]

theorem parse_cons_done (h : p.parseArg arg rest s = (.done t, left)) :
    p.parse (arg :: rest) s = p.parse left t := by
  rw [parse, h]

theorem parse_cons_thrown {e : InvalidOption} (h : (p.parseArg arg rest s).1 = .thrown e t) :
    p.parse (arg :: rest) s = .thrown e t := by
  rw [parse, h]

theorem parse_withoutArgs (xs : List Text) (s : State σ) :
    (p.parse xs s.withoutArgs).withoutArgs = (p.parse xs s).withoutArgs := by
  induction hn : xs.length using Nat.strongRecOn generalizing xs s with
  | _ n ih =>
    cases xs with
    | nil => simp
    | cons arg rest =>
      have hleft := (p.parseArg_suffix arg rest s).length_le
      obtain ⟨hout, hrest⟩ := @parseArg_withoutArgs _ p arg rest s
      rcases h : p.parseArg arg rest s with ⟨o, left⟩
      rcases h' : p.parseArg arg rest s.withoutArgs with ⟨o', left'⟩
      simp only [h, h'] at hout hrest hleft
      subst hrest
      simp only [List.length_cons] at hn
      cases o with
      | thrown e t =>
        cases o' with
        | done t' => simp at hout
        | thrown e' t' =>
          rw [parse_cons_thrown (congrArg Prod.fst h), parse_cons_thrown (congrArg Prod.fst h'), hout]
      | done t =>
        cases o' with
        | thrown e' t' => simp at hout
        | done t' =>
          have hstate : t'.withoutArgs = t.withoutArgs := by simpa using hout
          rw [parse_cons_done h, parse_cons_done h', ← ih _ (by omega) left' t' rfl, hstate,
            ih _ (by omega) left' t rfl]

/-! ## Parts of a command line -/

/-- Every option that requires an argument rejects the empty one, as a missing one. So do the options
of all types but `Value<bool>`. -/
def RefusesEmpty (p : OptionParser σ) : Prop :=
  ∀ o ∈ p.options, o.argument = .required → ∀ what t, ∃ e, o.parse what [] t = .error e ∧
    e.error = .missing_argument

theorem string_refuses {shortName : Option Char} {longName : Text} {set : Text → σ → σ}
    (what : OptionName) (t : σ) :
    ∃ e, (Opt.string shortName longName set).parse what [] t = .error e ∧
      e.error = .missing_argument :=
  ⟨missingArgument shortName longName what, rfl, rfl⟩

theorem value_refuses {shortName : Option Char} {longName : Text} {E : Extractor α}
    {set : α → σ → σ} (what : OptionName) (t : σ) :
    ∃ e, (Opt.value shortName longName E set).parse what [] t = .error e ∧
      e.error = .missing_argument := by
  have hread : E.readAll [] = some [] := by
    rw [Extractor.readAll, if_pos rfl]
  refine ⟨missingArgument shortName longName what, ?_, rfl⟩
  simp only [Opt.value, hread]

/-- An option that finds its argument takes it from the part before `ys`. -/
theorem takeArgument_append {optarg : Text} (h : optarg = [] → rest ≠ []) (ys : List Text) :
    (takeArgument optarg (rest ++ ys)).1 = (takeArgument optarg rest).1 ∧
      (takeArgument optarg (rest ++ ys)).2 = (takeArgument optarg rest).2 ++ ys := by
  cases optarg with
  | cons c optarg => exact ⟨rfl, rfl⟩
  | nil =>
    cases rest with
    | cons next rest => exact ⟨rfl, rfl⟩
    | nil => exact absurd rfl (h rfl)

/-- So does one that takes its argument, and does not reject it. -/
theorem apply_takeArgument (hp : p.RefusesEmpty) {o : Opt σ} (hmem : o ∈ p.options)
    {what : OptionName} {optarg : Text} (ho : o.argument = .required)
    (h : o.apply what (takeArgument optarg rest).1 s = .done t) (ys : List Text) :
    (takeArgument optarg (rest ++ ys)).1 = (takeArgument optarg rest).1 ∧
      (takeArgument optarg (rest ++ ys)).2 = (takeArgument optarg rest).2 ++ ys := by
  refine takeArgument_append ?_ ys
  rintro rfl rfl
  obtain ⟨e, he, -⟩ := hp o hmem ho what s.target
  simp [takeArgument, Opt.apply, he] at h

theorem parseLong_append (hp : p.RefusesEmpty) (h : p.parseLong arg rest s = (.done t, left))
    (ys : List Text) :
    p.parseLong arg (rest ++ ys) s = (.done t, left ++ ys) := by
  unfold parseLong at h ⊢
  simp only at h ⊢
  split at h
  · obtain ⟨hout, rfl⟩ := Prod.mk.inj h
    rw [hout]
  · rename_i o ho
    split at h
    · obtain ⟨hout, rfl⟩ := Prod.mk.inj h
      rw [hout]
    · rename_i hrequired
      obtain ⟨hout, rfl⟩ := Prod.mk.inj h
      obtain ⟨hoptarg, hrest⟩ :=
        apply_takeArgument hp (List.mem_of_find?_eq_some ho) hrequired hout ys
      rw [hoptarg, hrest, hout]
    · obtain ⟨hout, rfl⟩ := Prod.mk.inj h
      rw [hout]

theorem done_of_noteUnknown {o : Outcome σ} {unknown : Bool} (h : o.noteUnknown unknown arg = .done t) :
    ∃ s, o = .done s := by
  cases o with
  | done s => exact ⟨s, rfl⟩
  | thrown e s => simp [Outcome.noteUnknown] at h

theorem parseShort_append (hp : p.RefusesEmpty) {letters : Text} {unknown : Bool}
    (h : p.parseShort arg letters rest s unknown = (.done t, left)) (ys : List Text) :
    p.parseShort arg letters (rest ++ ys) s unknown = (.done t, left ++ ys) := by
  induction letters generalizing s unknown with
  | nil =>
    obtain ⟨hout, rfl⟩ := Prod.mk.inj h
    rw [parseShort, hout]
  | cons c letters ih =>
    unfold parseShort at h ⊢
    split at h
    · exact ih h
    · rename_i o ho
      split at h
      · cases hletter : o.apply .short_name [] s with
        | done s' =>
          rw [hletter] at h
          exact ih h
        | thrown e s' =>
          rw [hletter] at h
          simp at h
      · rename_i hrequired
        obtain ⟨hout, rfl⟩ := Prod.mk.inj h
        obtain ⟨s', hs'⟩ := done_of_noteUnknown hout
        obtain ⟨hoptarg, hrest⟩ :=
          apply_takeArgument hp (List.mem_of_find?_eq_some ho) hrequired hs' ys
        rw [hoptarg, hrest, hout]
      · obtain ⟨hout, rfl⟩ := Prod.mk.inj h
        rw [hout]

/-- An argument that is taken without an exception takes nothing of what is added behind. -/
theorem parseArg_append (hp : p.RefusesEmpty) (h : p.parseArg arg rest s = (.done t, left))
    (ys : List Text) :
    ∃ t', p.parseArg arg (rest ++ ys) s = (.done t', left ++ ys) ∧
      t'.withoutArgs = t.withoutArgs := by
  unfold parseArg at h ⊢
  split_ifs at h ⊢
  · obtain ⟨hout, rfl⟩ := Prod.mk.inj h
    obtain rfl := Outcome.done.inj hout
    exact ⟨_, rfl, rfl⟩
  · exact ⟨t, parseLong_append hp h ys, rfl⟩
  · exact ⟨t, parseShort_append hp h ys, rfl⟩
  · obtain ⟨hout, rfl⟩ := Prod.mk.inj h
    obtain rfl := Outcome.done.inj hout
    exact ⟨_, rfl, rfl⟩

/-- A command line that is parsed without an exception is parsed in the same way with others behind it,
and these as if they stood alone. -/
theorem parse_append (hp : p.RefusesEmpty) (h : p.parse xs s = .done t) (ys : List Text) :
    (p.parse (xs ++ ys) s).withoutArgs = (p.parse ys t).withoutArgs := by
  induction hn : xs.length using Nat.strongRecOn generalizing xs s with
  | _ n ih =>
    cases xs with
    | nil =>
      obtain rfl := Outcome.done.inj (parse_nil.symm.trans h)
      rfl
    | cons arg rest =>
      have hlen := (p.parseArg_suffix arg rest s).length_le
      rcases harg : p.parseArg arg rest s with ⟨o, left⟩
      cases o with
      | thrown e t' => simp [parse_cons_thrown (congrArg Prod.fst harg)] at h
      | done s' =>
        rw [parse_cons_done harg] at h
        rw [harg] at hlen
        simp only [List.length_cons] at hn hlen
        obtain ⟨s'', harg', hstate⟩ := parseArg_append hp harg ys
        rw [List.cons_append, parse_cons_done harg', ← parse_withoutArgs, hstate,
          parse_withoutArgs, ih _ (by omega) h rfl]

/-- The parser goes on behind `--`: put between a command line that is parsed without an exception and
any other arguments, it changes nothing but the list of the arguments without an option. -/
theorem separator_ignored (hp : p.RefusesEmpty) (h : p.parse xs s = .done t) (ys : List Text) :
    (p.parse (xs ++ ['-', '-'] :: ys) s).withoutArgs = (p.parse (xs ++ ys) s).withoutArgs ∧
      (p.parse (xs ++ ys) s).withoutArgs = (p.parse ys t).withoutArgs := by
  have hseparator : p.parse (['-', '-'] :: ys) t =
      p.parse ys { t with nonOptionArgs := t.nonOptionArgs ++ ys } := parse_cons_done rfl
  refine ⟨?_, parse_append hp h ys⟩
  rw [parse_append hp h, parse_append hp h, hseparator, ← parse_withoutArgs, withoutArgs_args,
    parse_withoutArgs]

/-- A parser with one option, bound to a string. -/
def sampleParser : OptionParser Text where
  options := [.string (some 'o') "out".toList fun v _ => v]
  shortNames := by decide
  longNames := by decide

theorem sampleParser_refusesEmpty : sampleParser.RefusesEmpty := by
  intro o ho _
  obtain rfl := List.mem_singleton.mp ho
  exact string_refuses

/-- The option behind `--` is read all the same. -/
theorem separator_ignored_option :
    (sampleParser.parse ["--out=a".toList, "--".toList, "-ob".toList, "c".toList]
        { target := [] }).withoutArgs =
      (sampleParser.parse ["--out=a".toList, "-ob".toList, "c".toList]
        { target := [] }).withoutArgs ∧
    (sampleParser.parse ["--out=a".toList, "-ob".toList, "c".toList] { target := [] }).withoutArgs =
      .done { target := "b".toList } := by
  have hfirst : sampleParser.parse ["--out=a".toList] { target := [] } =
      .done { target := "a".toList } := by decide +kernel
  obtain ⟨hseparator, hrest⟩ :=
    separator_ignored sampleParser_refusesEmpty hfirst ["-ob".toList, "c".toList]
  have hlast : (sampleParser.parse ["-ob".toList, "c".toList] { target := "a".toList }).withoutArgs =
      .done { target := "b".toList } := by decide +kernel
  exact ⟨hseparator, hrest.trans hlast⟩

/-- A parser with one option, a `Value<bool>`. -/
def flagParser : OptionParser Bool where
  options := [.bool none "flag".toList fun v _ => v]
  shortNames := by decide
  longNames := by decide

/-- Of a `Value<bool>` the `--` is the argument. -/
example :
    (flagParser.parse ["--flag".toList, "--".toList, "1".toList] { target := false }).withoutArgs ≠
      (flagParser.parse ["--flag".toList, "1".toList] { target := false }).withoutArgs := by
  decide +kernel

/-! ## The first error -/

variable {e : InvalidOption}

theorem takeArgument_of_thrown (hp : p.RefusesEmpty) (he : e.error ≠ .missing_argument) {o : Opt σ}
    (hmem : o ∈ p.options) (ho : o.argument = .required) {what : OptionName} {optarg : Text}
    (h : o.apply what (takeArgument optarg rest).1 s = .thrown e t) (ys : List Text) :
    (takeArgument optarg (rest ++ ys)).1 = (takeArgument optarg rest).1 := by
  refine (takeArgument_append ?_ ys).1
  rintro rfl rfl
  obtain ⟨e', hparse, hmissing⟩ := hp o hmem ho what s.target
  obtain ⟨rfl, -⟩ : e' = e ∧ s = t := by simpa [takeArgument, Opt.apply, hparse] using h
  exact he hmissing

theorem parseLong_thrown (hp : p.RefusesEmpty) (he : e.error ≠ .missing_argument)
    (h : (p.parseLong arg rest s).1 = .thrown e t) (ys : List Text) :
    (p.parseLong arg (rest ++ ys) s).1 = .thrown e t := by
  unfold parseLong at h ⊢
  simp only at h ⊢
  split at h
  · exact h
  · rename_i o ho
    split at h
    · exact h
    · rename_i hrequired
      rw [takeArgument_of_thrown hp he (List.mem_of_find?_eq_some ho) hrequired h ys]
      exact h
    · exact h

theorem thrown_of_noteUnknown {o : Outcome σ} {unknown : Bool}
    (h : o.noteUnknown unknown arg = .thrown e t) : o = .thrown e t := by
  cases o with
  | done s => simp [Outcome.noteUnknown] at h
  | thrown e' s => exact h

theorem parseShort_thrown (hp : p.RefusesEmpty) (he : e.error ≠ .missing_argument) {letters : Text}
    {unknown : Bool} (h : (p.parseShort arg letters rest s unknown).1 = .thrown e t)
    (ys : List Text) : (p.parseShort arg letters (rest ++ ys) s unknown).1 = .thrown e t := by
  induction letters generalizing s unknown with
  | nil => exact h
  | cons c letters ih =>
    unfold parseShort at h ⊢
    split at h
    · exact ih h
    · rename_i o ho
      split at h
      · cases hletter : o.apply .short_name [] s with
        | done s' =>
          rw [hletter] at h
          exact ih h
        | thrown e' s' =>
          rw [hletter] at h
          exact h
      · rename_i hrequired
        rw [takeArgument_of_thrown hp he (List.mem_of_find?_eq_some ho) hrequired
          (thrown_of_noteUnknown h) ys]
        exact h
      · exact h

/-- An argument that is wrong, and not only without its own argument, is wrong with any others behind
it. -/
theorem parseArg_thrown (hp : p.RefusesEmpty) (he : e.error ≠ .missing_argument)
    (h : (p.parseArg arg rest s).1 = .thrown e t) (ys : List Text) :
    (p.parseArg arg (rest ++ ys) s).1 = .thrown e t := by
  unfold parseArg at h ⊢
  split_ifs at h ⊢
  · exact parseLong_thrown hp he h ys
  · exact parseShort_thrown hp he h ys

/-- The first error is the one that counts. -/
theorem parse_append_of_thrown (hp : p.RefusesEmpty) (he : e.error ≠ .missing_argument)
    (h : p.parse xs s = .thrown e t) (ys : List Text) :
    (p.parse (xs ++ ys) s).withoutArgs = .thrown e t.withoutArgs := by
  induction hn : xs.length using Nat.strongRecOn generalizing xs s with
  | _ n ih =>
    cases xs with
    | nil => simp at h
    | cons arg rest =>
      have hlen := (p.parseArg_suffix arg rest s).length_le
      rcases harg : p.parseArg arg rest s with ⟨o, left⟩
      cases o with
      | thrown e' t' =>
        have hhead := congrArg Prod.fst harg
        rw [parse_cons_thrown hhead] at h
        obtain ⟨rfl, rfl⟩ : e' = e ∧ t' = t := by simpa using h
        rw [List.cons_append, parse_cons_thrown (parseArg_thrown hp he hhead ys)]
        rfl
      | done s' =>
        rw [parse_cons_done harg] at h
        rw [harg] at hlen
        simp only [List.length_cons] at hn hlen
        obtain ⟨s'', harg', hstate⟩ := parseArg_append hp harg ys
        rw [List.cons_append, parse_cons_done harg', ← parse_withoutArgs, hstate,
          parse_withoutArgs, ih _ (by omega) h rfl]

/-! ## What every option keeps -/

/-- `I` is kept by every option of the parser that takes its argument. -/
def Keeps (p : OptionParser σ) (I : σ → Prop) : Prop :=
  ∀ o ∈ p.options, ∀ what value t t', o.parse what value t = .ok t' → I t → I t'

variable {I : σ → Prop}

theorem apply_keeps {o : Opt σ} (hI : p.Keeps I) (ho : o ∈ p.options) (hs : I s.target)
    (what : OptionName) (value : Text) : I (o.apply what value s).state.target := by
  unfold Opt.apply
  cases hparse : o.parse what value s.target with
  | ok t => exact hI o ho what value s.target t hparse hs
  | error e => exact hs

theorem parseLong_keeps (hI : p.Keeps I) (hs : I s.target) :
    I (p.parseLong arg rest s).1.state.target := by
  unfold parseLong
  simp only
  split
  · exact hs
  · rename_i o ho
    have hmem := List.mem_of_find?_eq_some ho
    split
    · split_ifs
      · exact apply_keeps hI hmem hs _ _
      · exact hs
    · exact apply_keeps hI hmem hs _ _
    · exact apply_keeps hI hmem hs _ _

theorem parseShort_keeps (hI : p.Keeps I) (letters : Text) (unknown : Bool) (hs : I s.target) :
    I (p.parseShort arg letters rest s unknown).1.state.target := by
  induction letters generalizing s unknown with
  | nil =>
    show I (s.noteUnknown unknown arg).target
    rw [noteUnknown_target]
    exact hs
  | cons c letters ih =>
    unfold parseShort
    split
    · exact ih true hs
    · rename_i o ho
      have hmem := List.mem_of_find?_eq_some ho
      split
      · have hletter := apply_keeps hI hmem hs .short_name []
        cases hout : o.apply .short_name [] s with
        | done s' =>
          rw [hout] at hletter
          exact ih unknown hletter
        | thrown e s' =>
          rw [hout] at hletter
          exact hletter
      · rw [Outcome.noteUnknown_target]
        exact apply_keeps hI hmem hs _ _
      · rw [Outcome.noteUnknown_target]
        exact apply_keeps hI hmem hs _ _

theorem parseArg_keeps (hI : p.Keeps I) (hs : I s.target) :
    I (p.parseArg arg rest s).1.state.target := by
  unfold parseArg
  split_ifs
  · exact hs
  · exact parseLong_keeps hI hs
  · exact parseShort_keeps hI _ _ hs
  · exact hs

/-- What every option keeps holds of the variables when the parser ends, also with an exception. -/
theorem parse_keeps (hI : p.Keeps I) (xs : List Text) (hs : I s.target) :
    I (p.parse xs s).state.target := by
  induction hn : xs.length using Nat.strongRecOn generalizing xs s with
  | _ n ih =>
    cases xs with
    | nil =>
      rw [parse_nil]
      exact hs
    | cons arg rest =>
      have hlen := (p.parseArg_suffix arg rest s).length_le
      have hstep := @parseArg_keeps _ p arg rest s I hI hs
      rcases harg : p.parseArg arg rest s with ⟨o, left⟩
      rw [harg] at hlen hstep
      simp only [List.length_cons] at hn hlen
      cases o with
      | done t =>
        rw [parse_cons_done harg]
        exact ih _ (by omega) left hstep rfl
      | thrown e t =>
        rw [parse_cons_thrown (congrArg Prod.fst harg)]
        exact hstep

section

variable {shortName : Option Char} {longName : Text}

theorem switch_keeps {set : Bool → σ → σ} (hset : ∀ v t, I t → I (set v t)) (what : OptionName)
    (value : Text) (t t' : σ) (h : (Opt.switch shortName longName set).parse what value t = .ok t')
    (ht : I t) : I t' := by
  obtain rfl := Except.ok.inj h
  exact hset true t ht

theorem string_keeps {set : Text → σ → σ} (hset : ∀ v t, I t → I (set v t)) (what : OptionName)
    (value : Text) (t t' : σ) (h : (Opt.string shortName longName set).parse what value t = .ok t')
    (ht : I t) : I t' := by
  simp only [Opt.string] at h
  split_ifs at h
  obtain rfl := Except.ok.inj h
  exact hset value t ht

theorem value_keeps {E : Extractor α} {set : α → σ → σ} (hset : ∀ v t, I t → I (set v t))
    (what : OptionName) (value : Text) (t t' : σ)
    (h : (Opt.value shortName longName E set).parse what value t = .ok t') (ht : I t) : I t' := by
  simp only [Opt.value] at h
  split at h
  · cases h
  · cases h
  · rename_i v hread
    obtain rfl := Except.ok.inj h
    exact hset v t ht
  · cases h

end

/-! ## Writing options -/

theorem string_parse {shortName : Option Char} {longName : Text} {what : OptionName} {t : σ}
    {value : Text} {set : Text → σ → σ} (h : value ≠ []) :
    (Opt.string shortName longName set).parse what value t = .ok (set value t) :=
  if_neg h

theorem value_parse {shortName : Option Char} {longName : Text} {what : OptionName} {t : σ}
    {value : Text} {E : Extractor α} {v : α} {set : α → σ → σ} (h : E.readAll value = some [v]) :
    (Opt.value shortName longName E set).parse what value t = .ok (set v t) := by
  simp [Opt.value, h]

/-- Whether the argument of an option is one of its own or stands behind an equals sign. -/
inductive Spelling where
  | separate
  | joined

/-- The arguments that give an option by its long name. -/
def optionArgs (o : Opt σ) (value : Text) (spelling : Spelling) : List Text :=
  match o.argument, spelling with
  | .no, _ => ['-' :: '-' :: o.longName]
  | _, .separate => ['-' :: '-' :: o.longName, value]
  | _, .joined => ['-' :: '-' :: (o.longName ++ '=' :: value)]

/-- An option of the parser, and an argument that it can be given on a command line. -/
structure Writable (p : OptionParser σ) (o : Opt σ) (value : Text) : Prop where
  mem : o ∈ p.options
  named : o.longName ≠ []
  noEquals : '=' ∉ o.longName
  value : o.argument = .no ∧ value = [] ∨ o.argument = .required ∧ value ≠ []

variable {o : Opt σ} {value : Text} {spelling : Spelling}

theorem find_longName {options : List (Opt σ)}
    (h : ((options.map Opt.longName).filter (· ≠ [])).Nodup) (ho : o ∈ options)
    (hname : o.longName ≠ []) : (options.find? fun x => x.longName = o.longName) = some o := by
  induction options with
  | nil => simp at ho
  | cons x options ih =>
    by_cases hx : x.longName = o.longName
    · rw [List.find?_cons_of_pos (by simpa using hx)]
      rcases List.mem_cons.mp ho with rfl | hmem
      · rfl
      · rw [List.map_cons, List.filter_cons_of_pos (by simpa [hx] using hname)] at h
        have hnot := (List.nodup_cons.mp h).1
        exact absurd (by simp [hx, hname]; exact ⟨o, hmem, rfl⟩) hnot
    · rw [List.find?_cons_of_neg (by simpa using hx)]
      refine ih ?_ ?_
      · exact h.sublist ((List.sublist_cons_self _ _).filter _)
      · rcases List.mem_cons.mp ho with rfl | hmem
        · exact absurd rfl hx
        · exact hmem

theorem findLong_mem (h : Writable p o value) : p.findLong o.longName = some o :=
  find_longName p.longNames h.mem h.named

/-- An argument with two hyphens and more is a long option. -/
theorem parseArg_long {name : Text} (hname : name ≠ []) :
    p.parseArg ('-' :: '-' :: name) rest s = p.parseLong ('-' :: '-' :: name) rest s := by
  have hne : '-' :: '-' :: name ≠ ['-', '-'] := by simpa using hname
  have htake : ('-' :: '-' :: name).take 2 = ['-', '-'] := rfl
  rw [parseArg, if_neg hne, if_pos htake]

theorem parseLong_name (h : Writable p o value) :
    p.parseLong ('-' :: '-' :: o.longName) rest s =
      if o.argument = .no then (o.apply .long_name [] s, rest)
      else (o.apply .long_name (takeArgument [] rest).1 s, (takeArgument [] rest).2) := by
  have htake := takeWhile_of_head (bne_of_not_mem h.noEquals) (y := []) (by simp)
  have hdrop := dropWhile_bne_eq_nil h.noEquals
  rw [List.append_nil] at htake
  have hbody : ('-' :: '-' :: o.longName).drop 2 = o.longName := rfl
  simp only [parseLong, hbody, htake, hdrop, findLong_mem h]
  rcases h.value with ⟨ho, -⟩ | ⟨ho, -⟩
  · simp [ho]
  · simp [ho]

theorem parseLong_joined (h : Writable p o value) (ho : o.argument = .required) :
    p.parseLong ('-' :: '-' :: (o.longName ++ '=' :: value)) rest s =
      (o.apply .long_name (takeArgument value rest).1 s, (takeArgument value rest).2) := by
  have htake := takeWhile_bne h.noEquals value
  have hdrop := dropWhile_bne h.noEquals value
  have hbody : ('-' :: '-' :: (o.longName ++ '=' :: value)).drop 2 = o.longName ++ '=' :: value :=
    rfl
  simp only [parseLong, hbody, htake, hdrop, findLong_mem h, ho, List.tail_cons]

/-- An option that is written out is applied, and the parser goes on behind it. -/
theorem parse_optionArgs {t : σ} (h : Writable p o value)
    (hok : o.parse .long_name value s.target = .ok t) :
    p.parse (optionArgs o value spelling ++ rest) s = p.parse rest { s with target := t } := by
  have happly : o.apply .long_name value s = .done { s with target := t } := by
    rw [Opt.apply, hok]
  rcases h.value with ⟨ho, rfl⟩ | ⟨ho, hvalue⟩
  · have hargs : optionArgs o [] spelling = ['-' :: '-' :: o.longName] := by
      simp [optionArgs, ho]
    rw [hargs, List.singleton_append]
    refine parse_cons_done ?_
    rw [parseArg_long h.named, parseLong_name h, if_pos ho, happly]
  · have hno : o.argument ≠ .no := by
      rw [ho]
      decide
    cases spelling with
    | separate =>
      have hargs : optionArgs o value .separate = ['-' :: '-' :: o.longName, value] := by
        simp [optionArgs, ho]
      have htake : takeArgument [] (value :: rest) = (value, rest) := rfl
      rw [hargs, List.cons_append, List.singleton_append]
      refine parse_cons_done ?_
      rw [parseArg_long h.named, parseLong_name h, if_neg hno, htake, happly]
    | joined =>
      have hargs : optionArgs o value .joined = ['-' :: '-' :: (o.longName ++ '=' :: value)] := by
        simp [optionArgs, ho]
      have htake : takeArgument value rest = (value, rest) := by
        cases value with
        | nil => exact absurd rfl hvalue
        | cons c value => rfl
      rw [hargs, List.singleton_append]
      refine parse_cons_done ?_
      rw [parseArg_long (by simp [h.named]), parseLong_joined h ho, htake, happly]

end OptionParser

end Popl
