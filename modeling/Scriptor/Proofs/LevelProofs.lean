import Scriptor.Proofs.SpellingProofs
import Scriptor.Spans
import Mathlib.Data.List.Induction
import Mathlib.Tactic.IntervalCases

/-!
# The level of a log

The documented levels are 0 to 5. `Element::from_json` reads a number modulo 2^32 and a string up to
its first byte that is no digit, and then admits everything below `n_levels`, which is 7. So the
level is read as documented except for the values of `Misread` (`level_read_iff`).
-/

namespace Scriptor

open Json (Value digitsValue)
open Spans

/-! ## What `std::stoi` reads -/

/-- What a text that begins like a number is made of: space, a sign, digits, and a rest. -/
structure IntText where
  space : Bytes
  sign : Bytes
  digits : Bytes
  rest : Bytes
  isSpace : ∀ b ∈ space, isSpace b = true
  isSign : sign = [] ∨ sign = [Json.minus] ∨ sign = [Json.plus]
  isDigit : ∀ b ∈ digits, Json.isDigit b = true
  nonempty : digits ≠ []
  stops : ∀ b ∈ rest.head?, Json.isDigit b = false

namespace IntText

/-- The text with these parts. -/
def text (t : IntText) : Bytes := t.space ++ (t.sign ++ (t.digits ++ t.rest))

/-- The integer it begins with. -/
def value (t : IntText) : ℤ :=
  if t.sign = [Json.minus] then -(digitsValue t.digits : ℤ) else digitsValue t.digits

/-- After the sign come digits. -/
theorem head_digits (t : IntText) :
    ∃ b x, t.digits ++ t.rest = b :: x ∧ Json.isDigit b = true := by
  obtain ⟨b, x, hx⟩ := List.exists_cons_of_ne_nil t.nonempty
  refine ⟨b, x ++ t.rest, by rw [hx, List.cons_append], ?_⟩
  exact t.isDigit b (by rw [hx]; exact List.mem_cons_self)

end IntText

theorem not_space_of_digit {b : UInt8} (hb : Json.isDigit b = true) :
    isSpace b = false ∧ b ≠ Json.minus ∧ b ≠ Json.plus := by
  have hrange : 0x30 ≤ b.toNat ∧ b.toNat ≤ 0x39 := by
    simpa [Json.isDigit, UInt8.le_iff_toNat_le] using hb
  refine ⟨?_, ?_, ?_⟩
  · simp only [isSpace, Bool.or_eq_false_iff, Bool.and_eq_false_iff, beq_eq_false_iff_ne,
      decide_eq_false_iff_not, UInt8.le_iff_toNat_le, ne_eq, ← UInt8.toNat_inj]
    have h20 : (0x20 : UInt8).toNat = 0x20 := rfl
    have h0D : (0x0D : UInt8).toNat = 0x0D := rfl
    omega
  · rintro rfl
    exact absurd hrange (by decide)
  · rintro rfl
    exact absurd hrange (by decide)

/-- The part of `std::stoi` after the sign. -/
def digitsToInt (negative : Bool) (digits : Bytes) : Except Exception Int32 :=
  if digits = [] then .error (.conversion "stoi")
  else
    let value : ℤ := if negative then -(digitsValue digits : ℤ) else digitsValue digits
    if -2 ^ 31 ≤ value ∧ value < 2 ^ 31 then .ok (.ofInt value) else .error (.conversion "stoi")

theorem stoi_eq_digitsToInt {s u : Bytes} {sign : Bytes} (hs : s.dropWhile isSpace = sign ++ u)
    (hsign : sign = [Json.minus] ∨ sign = [Json.plus] ∨
      sign = [] ∧ u.head? ≠ some Json.minus ∧ u.head? ≠ some Json.plus) :
    stoi s = digitsToInt (sign = [Json.minus]) (u.takeWhile Json.isDigit) := by
  rw [stoi, hs]
  rcases hsign with rfl | rfl | ⟨rfl, hminus, hplus⟩
  · rfl
  · rfl
  · simp [digitsToInt, hminus, hplus]

theorem stoi_text (t : IntText) :
    stoi t.text = if -2 ^ 31 ≤ t.value ∧ t.value < 2 ^ 31 then .ok (.ofInt t.value)
      else .error (.conversion "stoi") := by
  obtain ⟨b, x, hdigits, hb⟩ := t.head_digits
  obtain ⟨hspace, hminus, hplus⟩ := not_space_of_digit hb
  have htake : (t.digits ++ t.rest).takeWhile Json.isDigit = t.digits :=
    takeWhile_of_head t.isDigit t.stops
  have hdrop : t.text.dropWhile isSpace = t.sign ++ (t.digits ++ t.rest) := by
    refine dropWhile_of_head t.isSpace ?_
    rcases t.isSign with hsign | hsign | hsign
    · simp [hsign, hdigits, hspace]
    · have hminus' : isSpace Json.minus = false := rfl
      simp [hsign, hminus']
    · have hplus' : isSpace Json.plus = false := rfl
      simp [hsign, hplus']
  have hsign : t.sign = [Json.minus] ∨ t.sign = [Json.plus] ∨
      t.sign = [] ∧ (t.digits ++ t.rest).head? ≠ some Json.minus ∧
        (t.digits ++ t.rest).head? ≠ some Json.plus := by
    rcases t.isSign with hsign | hsign | hsign
    · exact .inr (.inr ⟨hsign, by simpa [hdigits] using hminus, by simpa [hdigits] using hplus⟩)
    · exact .inl hsign
    · exact .inr (.inl hsign)
  rw [stoi_eq_digitsToInt hdrop hsign, htake, digitsToInt, if_neg t.nonempty]
  by_cases hminus' : t.sign = [Json.minus]
  · simp [IntText.value, hminus']
  · simp [IntText.value, hminus']

/-- What `std::stoi` accepts begins like a number. -/
theorem exists_intText {s : Bytes} {w : Int32} (h : stoi s = .ok w) :
    ∃ t : IntText, t.text = s := by
  have hsplit : ∃ sign u, s.dropWhile isSpace = sign ++ u ∧
      (sign = [Json.minus] ∨ sign = [Json.plus] ∨
        sign = [] ∧ u.head? ≠ some Json.minus ∧ u.head? ≠ some Json.plus) := by
    cases hs : s.dropWhile isSpace with
    | nil => exact ⟨[], [], rfl, by simp⟩
    | cons b u =>
      by_cases hminus : b = Json.minus
      · exact ⟨[Json.minus], u, by rw [hminus]; rfl, .inl rfl⟩
      · by_cases hplus : b = Json.plus
        · exact ⟨[Json.plus], u, by rw [hplus]; rfl, .inr (.inl rfl)⟩
        · exact ⟨[], b :: u, rfl, .inr (.inr ⟨rfl, by simp [hminus], by simp [hplus]⟩)⟩
  obtain ⟨sign, u, hs, hsign⟩ := hsplit
  rw [stoi_eq_digitsToInt hs hsign, digitsToInt] at h
  have hne : u.takeWhile Json.isDigit ≠ [] := by
    intro hnil
    rw [if_pos hnil] at h
    simp at h
  have hsign' : sign = [] ∨ sign = [Json.minus] ∨ sign = [Json.plus] := by
    rcases hsign with hsign | hsign | ⟨hsign, -, -⟩
    · exact .inr (.inl hsign)
    · exact .inr (.inr hsign)
    · exact .inl hsign
  refine ⟨⟨s.takeWhile isSpace, sign, u.takeWhile Json.isDigit, u.dropWhile Json.isDigit,
    fun b hb => List.mem_takeWhile_imp hb, hsign', fun b hb => List.mem_takeWhile_imp hb, hne,
    head_dropWhile⟩, ?_⟩
  rw [IntText.text]
  simp only
  rw [List.takeWhile_append_dropWhile, ← hs, List.takeWhile_append_dropWhile]

/-! ## Small numbers -/

theorem digitsValue_append (ds : Bytes) (d : UInt8) :
    digitsValue (ds ++ [d]) = 10 * digitsValue ds + (d.toNat - 0x30) := by
  rw [digitsValue, List.foldl_append]
  rfl

theorem digitsValue_zeros {ds : Bytes} (h : ∀ b ∈ ds, b = Json.zero) : digitsValue ds = 0 := by
  induction ds using List.reverseRecOn with
  | nil => rfl
  | append_singleton ds d ih =>
    obtain rfl : d = Json.zero := h d (by simp)
    rw [digitsValue_append, ih fun b hb => h b (by simp [hb])]
    rfl

theorem zeros_of_digitsValue {ds : Bytes} (hds : ∀ b ∈ ds, Json.isDigit b = true)
    (h : digitsValue ds = 0) : ∀ b ∈ ds, b = Json.zero := by
  induction ds using List.reverseRecOn with
  | nil => simp
  | append_singleton ds d ih =>
    rw [digitsValue_append] at h
    have hd : 0x30 ≤ d.toNat ∧ d.toNat ≤ 0x39 := by
      simpa [Json.isDigit, UInt8.le_iff_toNat_le] using hds d (by simp)
    have hzero : d = Json.zero := by
      rw [← UInt8.toNat_inj]
      show d.toNat = 0x30
      omega
    intro b hb
    rcases List.mem_append.mp hb with hb | hb
    · exact ih (fun b hb => hds b (by simp [hb])) (by omega) b hb
    · rw [List.mem_singleton.mp hb, hzero]

/-- Digits that stand for a number from 1 to 6: zeros, and one digit. -/
def SmallDigits (ds : Bytes) : Prop :=
  ∃ zeros d, ds = zeros ++ [d] ∧ (∀ b ∈ zeros, b = Json.zero) ∧ 0x31 ≤ d.toNat ∧ d.toNat ≤ 0x36

theorem digitsValue_small {ds : Bytes} (hds : ∀ b ∈ ds, Json.isDigit b = true) :
    1 ≤ digitsValue ds ∧ digitsValue ds ≤ 6 ↔ SmallDigits ds := by
  constructor
  · rintro ⟨hpos, hle⟩
    rcases List.eq_nil_or_concat ds with rfl | ⟨zeros, d, rfl⟩
    · simp [digitsValue] at hpos
    · rw [List.concat_eq_append] at *
      rw [digitsValue_append] at hpos hle
      have hzeros : digitsValue zeros = 0 := by omega
      refine ⟨zeros, d, rfl, ?_, by omega, by omega⟩
      exact zeros_of_digitsValue (fun b hb => hds b (by simp [hb])) hzeros
  · rintro ⟨zeros, d, rfl, hzeros, hpos, hle⟩
    rw [digitsValue_append, digitsValue_zeros hzeros]
    omega

/-! ## Levels as documented, and as read -/

/-- The documented ways of giving a level: its number, or the string of its digit. -/
def Denotes (l : Value) (k : ℤ) : Prop :=
  0 ≤ k ∧ k ≤ 5 ∧ (integerOf l = some k ∨ l = .string (decimal k))

/-- Strings that `std::stoi` takes for a number from 1 to 6. -/
def SmallText (s : Bytes) : Prop :=
  ∃ t : IntText, t.text = s ∧ t.sign ≠ [Json.minus] ∧ SmallDigits t.digits

/-- What gives a level although it denotes none: an integer that is 1 to 6 only modulo 2^32, or 6
itself, and a string that is more than one digit but begins with a number from 1 to 6, or `6`. -/
def Misread (l : Value) : Prop :=
  (∀ k, ¬ Denotes l k) ∧
    ((∃ i, integerOf l = some i ∧ 1 ≤ i % 2 ^ 32 ∧ i % 2 ^ 32 ≤ 6) ∨
      ∃ s, l = .string s ∧ SmallText s)

variable {P : Platform} {data l : Value} {text : Bytes} {i k : ℤ} {w : Int32}

theorem levelOf_toInt (w : Int32) :
    (levelOf w).toInt = if 0 ≤ w.toInt ∧ w.toInt ≤ 6 then w.toInt else 0 := by
  rw [levelOf]
  generalize w.toInt = i
  by_cases hrange : 0 ≤ i ∧ i ≤ 6
  · obtain ⟨h0, h6⟩ := hrange
    interval_cases i <;> rfl
  · have hrange' : ¬ (Level.trace.toInt ≤ i ∧ i < nLevels) := by
      simp only [Level.toInt, nLevels]
      omega
    rw [if_neg hrange, if_neg hrange']
    rfl

theorem eq_trace_iff {level : Level} : level = .trace ↔ level.toInt = 0 := by
  cases level <;> decide

theorem levelOf_eq_trace_iff : levelOf w = .trace ↔ ¬ (1 ≤ w.toInt ∧ w.toInt ≤ 6) := by
  rw [eq_trace_iff, levelOf_toInt]
  split_ifs <;> omega

/-- A number is read modulo 2^32. -/
theorem levelNumberOf_integer (h : integerOf l = some i) :
    ∃ w, levelNumberOf P l = .ok w ∧ w.toInt = i.bmod (2 ^ 32) := by
  cases l with
  | number_integer n =>
    obtain rfl : n.toInt = i := by simpa [integerOf] using h
    exact ⟨n.toInt32, rfl, n.toInt_toInt32⟩
  | number_unsigned n =>
    obtain rfl : (n.toNat : ℤ) = i := by simpa [integerOf] using h
    refine ⟨n.toInt64.toInt32, rfl, ?_⟩
    rw [Int64.toInt_toInt32, toInt_toInt64]
    exact Int.bmod_bmod_of_dvd (by decide)
  | _ => simp [integerOf] at h

theorem stoi_small_iff {s : Bytes} :
    (∃ w, stoi s = .ok w ∧ 1 ≤ w.toInt ∧ w.toInt ≤ 6) ↔ SmallText s := by
  constructor
  · rintro ⟨w, hw, hpos, hle⟩
    obtain ⟨t, rfl⟩ := exists_intText hw
    rw [stoi_text] at hw
    split_ifs at hw with hrange
    obtain rfl := Except.ok.inj hw
    rw [Int32.toInt_ofInt_of_le hrange.1 hrange.2] at hpos hle
    have hsign : t.sign ≠ [Json.minus] := by
      intro hsign
      rw [IntText.value, if_pos hsign] at hpos
      omega
    rw [IntText.value, if_neg hsign] at hpos hle
    exact ⟨t, rfl, hsign, (digitsValue_small t.isDigit).mp ⟨by omega, by omega⟩⟩
  · rintro ⟨t, rfl, hsign, hsmall⟩
    obtain ⟨hpos, hle⟩ := (digitsValue_small t.isDigit).mpr hsmall
    have hvalue : t.value = digitsValue t.digits := by rw [IntText.value, if_neg hsign]
    have hrange : -2 ^ 31 ≤ t.value ∧ t.value < 2 ^ 31 := by omega
    refine ⟨.ofInt t.value, by rw [stoi_text, if_pos hrange], ?_⟩
    rw [Int32.toInt_ofInt_of_le hrange.1 hrange.2]
    omega

/-- An integer, or a string. -/
def IntegerOrString (l : Value) : Prop := (∃ i, integerOf l = some i) ∨ ∃ s, l = .string s

theorem levelNumberOf_small_iff (hl : IntegerOrString l) :
    (∃ w, levelNumberOf P l = .ok w ∧ 1 ≤ w.toInt ∧ w.toInt ≤ 6) ↔
      (∃ i, integerOf l = some i ∧ 1 ≤ i % 2 ^ 32 ∧ i % 2 ^ 32 ≤ 6) ∨
        ∃ s, l = .string s ∧ SmallText s := by
  rcases hl with ⟨i, hi⟩ | ⟨s, rfl⟩
  · obtain ⟨w, hw, hwrap⟩ := levelNumberOf_integer (P := P) hi
    have hnot : ∀ s, l ≠ .string s := by
      rintro s rfl
      simp [integerOf] at hi
    have hmod : (1 ≤ w.toInt ∧ w.toInt ≤ 6) ↔ 1 ≤ i % 2 ^ 32 ∧ i % 2 ^ 32 ≤ 6 := by
      rw [hwrap, Int.bmod_def]
      omega
    simp [hw, hi, hnot, hmod]
  · have hstoi : levelNumberOf P (.string s) = stoi s := rfl
    simp [hstoi, stoi_small_iff, integerOf]

/-- What denotes a level is read as that level. -/
theorem findLevel_of_denotes (hl : present data (ascii "l") = some l) (hk : Denotes l k) :
    ∃ level, findLevel P data = .ok level ∧ level.toInt = k := by
  obtain ⟨h0, h5, hk⟩ := hk
  have hnumber : ∃ w, levelNumberOf P l = .ok w ∧ w.toInt = k := by
    rcases hk with hk | rfl
    · obtain ⟨w, hw, hwrap⟩ := levelNumberOf_integer (P := P) hk
      refine ⟨w, hw, ?_⟩
      rw [hwrap, Int.bmod_def]
      omega
    · show ∃ w, stoi (decimal k) = .ok w ∧ w.toInt = k
      interval_cases k
      all_goals exact ⟨_, rfl, by decide⟩
  obtain ⟨w, hw, rfl⟩ := hnumber
  refine ⟨levelOf w, ?_, ?_⟩
  · rw [findLevel_eq, hl, Option.elim_some, hw]
    rfl
  · rw [levelOf_toInt, if_pos ⟨h0, by omega⟩]

/-- What denotes no level but gives one is misread. -/
theorem exists_level_iff (hl : present data (ascii "l") = some l) (hshape : IntegerOrString l)
    (hnone : ∀ k, ¬ Denotes l k) :
    (∃ level, findLevel P data = .ok level ∧ level ≠ .trace) ↔ Misread l := by
  have hsmall := levelNumberOf_small_iff (P := P) hshape
  rw [Misread, and_iff_right hnone, ← hsmall, findLevel_eq, hl, Option.elim_some]
  constructor
  · rintro ⟨level, hlevel, hne⟩
    cases hw : levelNumberOf P l with
    | error e =>
      rw [hw] at hlevel
      simp [Except.map] at hlevel
    | ok w =>
      rw [hw] at hlevel
      rw [← Except.ok.inj hlevel, ne_eq, levelOf_eq_trace_iff, not_not] at hne
      exact ⟨w, rfl, hne⟩
  · rintro ⟨w, hw, hrange⟩
    refine ⟨levelOf w, by rw [hw]; rfl, ?_⟩
    rw [ne_eq, levelOf_eq_trace_iff, not_not]
    exact hrange

/-- The level of a log is read as documented: what denotes a level gives that level, and anything
else gives trace or an exception. -/
structure ReadsLevel (P : Platform) (text : Bytes) (data : Value) (clock : Clock) : Prop where
  denoted : ∀ l k, present data (ascii "l") = some l → Denotes l k → ¬ RejectedElsewhere P data →
    ∃ x, (Element.fromJson P text clock).1 = .ok x ∧ x.level.toInt = k
  other : (∀ l k, present data (ascii "l") = some l → ¬ Denotes l k) →
    ∀ x, (Element.fromJson P text clock).1 = .ok x → x.level = .trace

theorem exists_element {level : Level} (h : P.parse text = .ok data)
    (hr : ¬ RejectedElsewhere P data) (hlevel : findLevel P data = .ok level) (clock : Clock) :
    ∃ x, (Element.fromJson P text clock).1 = .ok x ∧ x.level = level := by
  have hbad : ¬ ∃ v, present data (ascii "l") = some v ∧ BadLevel v := by
    rw [← findLevel_error_iff (P := P), hlevel]
    simp
  have haccepted : ¬ Rejected P data := not_or.mpr ⟨hr, hbad⟩
  rw [← fromJson_error_iff h clock, exists_error_iff, not_not] at haccepted
  obtain ⟨x, hx⟩ := haccepted
  obtain ⟨-, hlevel', -⟩ := (fromJson_eq_ok h).mp hx
  rw [hlevel] at hlevel'
  exact ⟨x, hx, (Except.ok.inj hlevel').symm⟩

/-- For a log whose level is absent, null, an integer or a string: the level is read as documented
exactly if it is not one of the misread ones, or another field makes `Element::from_json` throw. -/
theorem level_read_iff (h : P.parse text = .ok data)
    (hshape : ∀ l, present data (ascii "l") = some l → IntegerOrString l) (clock : Clock) :
    ReadsLevel P text data clock ↔
      RejectedElsewhere P data ∨ ∀ l, present data (ascii "l") = some l → ¬ Misread l := by
  constructor
  · intro hreads
    by_contra hboth
    push Not at hboth
    obtain ⟨hr, l, hl, hmisread⟩ := hboth
    have hnone : ∀ l' k, present data (ascii "l") = some l' → ¬ Denotes l' k := by
      intro l' k hl'
      obtain rfl : l = l' := Option.some.inj (hl.symm.trans hl')
      exact hmisread.1 k
    obtain ⟨level, hlevel, hne⟩ :=
      (exists_level_iff (P := P) hl (hshape l hl) hmisread.1).mpr hmisread
    obtain ⟨x, hx, hxlevel⟩ := exists_element h hr hlevel clock
    exact hne (hxlevel ▸ hreads.other hnone x hx)
  · intro hcond
    refine ⟨?_, ?_⟩
    · intro l k hl hk hr
      obtain ⟨level, hlevel, hlevelk⟩ := findLevel_of_denotes (P := P) hl hk
      obtain ⟨x, hx, hxlevel⟩ := exists_element h hr hlevel clock
      exact ⟨x, hx, by rw [hxlevel, hlevelk]⟩
    · intro hnone x hx
      have haccepted : ¬ Rejected P data := by
        rw [← fromJson_error_iff h clock, hx]
        simp
      have hmisread := hcond.resolve_left (not_or.mp haccepted).1
      obtain ⟨-, hlevel, -⟩ := (fromJson_eq_ok h).mp hx
      cases hl : present data (ascii "l") with
      | none =>
        rw [findLevel_eq, hl, Option.elim_none] at hlevel
        exact (Except.ok.inj hlevel).symm
      | some l =>
        by_contra hne
        have hiff := exists_level_iff (P := P) hl (hshape l hl) fun k => hnone l k hl
        exact hmisread l hl (hiff.mp ⟨x.level, hlevel, hne⟩)

/-- The level of an object with that one member. -/
theorem eq_of_present {n : UInt64}
    (hl : present (.object [(ascii "l", .number_unsigned n)]) (ascii "l") = some l) :
    .number_unsigned n = l := by
  have hfind := (present_eq_some.mp hl).1
  simpa [find] using hfind

theorem integerOrString_unsigned (n : UInt64) : IntegerOrString (.number_unsigned n) :=
  .inl ⟨n.toNat, rfl⟩

theorem level_read_iff_warn :
    ReadsLevel referencePlatform (ascii "\x7b\"l\":3\x7d")
      (.object [(ascii "l", .number_unsigned 3)]) fun _ => 0 := by
  refine (level_read_iff (by decide +kernel) ?_ _).mpr (.inr ?_)
  · intro l hl
    exact eq_of_present hl ▸ integerOrString_unsigned 3
  · intro l hl hmisread
    obtain rfl := eq_of_present hl
    exact hmisread.1 3 ⟨by decide, by decide, .inl rfl⟩

/-- The level 6 is read as off. -/
theorem level_six_off :
    ¬ ∀ (P : Platform) (text : Bytes) (data : Value) (clock : Clock), P.parse text = .ok data →
      (∀ l, present data (ascii "l") = some l → IntegerOrString l) →
      ReadsLevel P text data clock := by
  intro h
  have hreads := h referencePlatform (ascii "\x7b\"l\":6\x7d")
    (.object [(ascii "l", .number_unsigned 6)]) (fun _ => 0) (by decide +kernel)
    fun l hl => eq_of_present hl ▸ integerOrString_unsigned 6
  have htrace := hreads.other ?_ ⟨.now 0, .off, ascii "[] [:] [::] "⟩ (by decide +kernel)
  · exact absurd htrace (by decide)
  · rintro l k hl ⟨-, h5, hk⟩
    obtain rfl := eq_of_present hl
    rcases hk with hk | hk
    · obtain rfl : 6 = k := by simpa [integerOf] using hk
      omega
    · simp at hk

end Scriptor
