import Scriptor.Proofs.FieldProofs

/-!
# Numbers and strings in the text fields

A client may send a process id as a number or as the string of its digits. `find_string` converts
the number to a signed 64-bit integer before it writes it, so the two give the same message exactly
for the numbers below 2^63 (`spelling_iff`); a larger one is written with a minus sign.
-/

namespace Scriptor

open Json (Value)

/-! ## Decimal texts -/

/-- The decimal digits of an integer, after a minus sign if it is negative. -/
def decimal (i : ℤ) : Bytes := ascii (ToString.toString i)

theorem ascii_append (s t : String) : ascii (s ++ t) = ascii s ++ ascii t := by simp [ascii]

theorem decimal_of_neg {i : ℤ} (hi : i < 0) : ∃ x, decimal i = Json.minus :: x := by
  have htext : ToString.toString i = "-" ++ (-i).toNat.repr := by
    rw [Int.toString_eq_repr, Int.repr_eq_if, if_neg (by omega)]
  refine ⟨ascii (-i).toNat.repr, ?_⟩
  rw [decimal, htext, ascii_append]
  rfl

/-- A text of digits does not begin with a minus sign. -/
theorem decimal_of_nonneg {i : ℤ} (hi : 0 ≤ i) : ∃ b x, decimal i = b :: x ∧ b ≠ Json.minus := by
  have htext : ToString.toString i = i.toNat.repr := by
    rw [Int.toString_eq_repr, Int.repr_eq_if, if_pos hi]
  have hdigits : decimal i = (Nat.toDigits 10 i.toNat).map fun c => UInt8.ofNat c.toNat := by
    rw [decimal, htext, ascii, Nat.toList_repr]
  cases hd : Nat.toDigits 10 i.toNat with
  | nil => exact absurd hd Nat.toDigits_ne_nil
  | cons c cs =>
    refine ⟨_, _, by rw [hdigits, hd, List.map_cons], ?_⟩
    have hmem : c ∈ Nat.toDigits 10 i.toNat := hd ▸ List.mem_cons_self
    have hdigit : c.isDigit = true := Nat.isDigit_of_mem_toDigits (by omega) (by omega) hmem
    have hc : 48 ≤ c.toNat ∧ c.toNat ≤ 57 := by
      simpa [Char.isDigit, UInt32.le_iff_toNat_le] using hdigit
    intro hminus
    have hnat := congrArg UInt8.toNat hminus
    simp only [UInt8.toNat_ofNat', Json.minus] at hnat
    have h45 : (0x2D : UInt8).toNat = 45 := rfl
    omega

/-! ## Spelling a number as a string -/

/-- The integer that a number without point and exponent denotes. -/
def integerOf : Value → Option ℤ
  | .number_integer i => some i.toInt
  | .number_unsigned n => some n.toNat
  | _ => none

/-- The string of the digits of an integer; anything else stays. -/
def spell (v : Value) : Value :=
  match integerOf v with
  | some i => .string (decimal i)
  | none => v

/-- Spells the integers in the fields of `S`. -/
def spellFields (S : List Bytes) (members : List (Bytes × Value)) : List (Bytes × Value) :=
  members.map fun m => (m.1, if m.1 ∈ S then spell m.2 else m.2)

variable {P : Platform} {data v : Value} {token text text' : Bytes} {i : ℤ} {S : List Bytes}
  {members : List (Bytes × Value)}

theorem spell_of_integer (h : integerOf v = some i) : spell v = .string (decimal i) := by
  rw [spell, h]

theorem spell_of_none (h : integerOf v = none) : spell v = v := by
  rw [spell, h]

theorem isNull_spell (v : Value) : isNull (spell v) = isNull v := by
  cases v <;> rfl

theorem present_spellFields :
    present (.object (spellFields S members)) token =
      (present (.object members) token).map fun v => if token ∈ S then spell v else v := by
  have hlookup : (spellFields S members).lookup token =
      (members.lookup token).map fun v => if token ∈ S then spell v else v := by
    induction members with
    | nil => rfl
    | cons m ms ih =>
      obtain ⟨k, v⟩ := m
      by_cases hk : token = k
      · simp [spellFields, hk]
      · have hk' : (token == k) = false := by simpa using hk
        simp only [spellFields, List.map_cons, List.lookup_cons, hk'] at ih ⊢
        exact ih
  have hnull : ∀ v, isNull (if token ∈ S then spell v else v) = isNull v := by
    intro v
    split_ifs
    · exact isNull_spell v
    · rfl
  simp only [present, find, hlookup]
  cases members.lookup token with
  | none => rfl
  | some v => cases hv : isNull v <;> simp [Option.filter_some, hnull, hv]

/-! ## The two texts of an integer -/

theorem integerOf_range (h : integerOf v = some i) : -2 ^ 63 ≤ i ∧ i < 2 ^ 64 := by
  cases v with
  | number_integer n =>
    obtain rfl : n.toInt = i := by simpa [integerOf] using h
    have hle := n.le_toInt
    have hlt := n.toInt_lt
    omega
  | number_unsigned n =>
    obtain rfl : (n.toNat : ℤ) = i := by simpa [integerOf] using h
    have hlt := n.toNat_lt
    omega
  | _ => simp [integerOf] at h

/-- The conversion of an unsigned number to the signed type. -/
theorem toInt_toInt64 (n : UInt64) : n.toInt64.toInt = (n.toNat : ℤ).bmod (2 ^ 64) :=
  BitVec.toInt_eq_toNat_bmod n.toBitVec

/-- A number goes through the signed 64-bit type. -/
theorem textOf_integer (h : integerOf v = some i) :
    textOf P v = .ok (decimal (i.bmod (2 ^ 64))) := by
  cases v with
  | number_integer n =>
    obtain rfl : n.toInt = i := by simpa [integerOf] using h
    have hwrap : n.toInt.bmod (2 ^ 64) = n.toInt := n.toInt_bmod
    rw [hwrap]
    rfl
  | number_unsigned n =>
    obtain rfl : (n.toNat : ℤ) = i := by simpa [integerOf] using h
    rw [← toInt_toInt64]
    rfl
  | _ => simp [integerOf] at h

theorem textOf_spell (h : integerOf v = some i) : textOf P (spell v) = .ok (decimal i) := by
  rw [spell_of_integer h]
  rfl

/-- Two texts that are equal, or differ in their first bytes. -/
def Diverge (x y : Bytes) : Prop :=
  x = y ∨ ∃ a s b t, x = a :: s ∧ y = b :: t ∧ a ≠ b

/-- From 2^63 on the number is written with a minus sign. -/
theorem decimal_wrapped (hi : -2 ^ 63 ≤ i ∧ i < 2 ^ 64) :
    Diverge (decimal (i.bmod (2 ^ 64))) (decimal i) ∧
      (decimal (i.bmod (2 ^ 64)) = decimal i ↔ i < 2 ^ 63) := by
  by_cases hlt : i < 2 ^ 63
  · have hwrap : i.bmod (2 ^ 64) = i := Int.bmod_eq_of_le (by omega) (by omega)
    rw [hwrap]
    exact ⟨.inl rfl, iff_of_true rfl hlt⟩
  · have hwrap : i.bmod (2 ^ 64) < 0 := by
      rw [Int.bmod_def]
      omega
    obtain ⟨s, hs⟩ := decimal_of_neg hwrap
    obtain ⟨b, t, ht, hb⟩ := decimal_of_nonneg (i := i) (by omega)
    rw [hs, ht]
    refine ⟨.inr ⟨_, _, _, _, rfl, rfl, hb.symm⟩, iff_of_false ?_ hlt⟩
    intro heq
    exact hb (List.cons.inj heq).1.symm

/-- The integer a field holds. -/
def fieldInteger (data : Value) (token : Bytes) : Option ℤ := (present data token).bind integerOf

theorem fieldText_spellFields :
    Diverge (fieldText P (.object members) token)
        (fieldText P (.object (spellFields S members)) token) ∧
      (fieldText P (.object members) token =
          fieldText P (.object (spellFields S members)) token ↔
        (token ∈ S → ∀ i ∈ fieldInteger (.object members) token, i < 2 ^ 63)) := by
  have hpresent := @present_spellFields token S members
  by_cases hint : token ∈ S ∧ ∃ i, fieldInteger (.object members) token = some i
  · obtain ⟨hS, i, hfield⟩ := hint
    obtain ⟨v, hv, hi⟩ := Option.bind_eq_some_iff.mp hfield
    have hv' : present (.object (spellFields S members)) token = some (spell v) := by
      rw [hpresent, hv, Option.map_some, if_pos hS]
    have htext : findString P (.object members) token = .ok (decimal (i.bmod (2 ^ 64))) := by
      rw [findString_eq, hv, Option.elim_some, textOf_integer hi]
    have htext' : findString P (.object (spellFields S members)) token = .ok (decimal i) := by
      rw [findString_eq, hv', Option.elim_some, textOf_spell hi]
    rw [fieldText_of_ok htext, fieldText_of_ok htext']
    obtain ⟨hdiverge, hiff⟩ := decimal_wrapped (integerOf_range hi)
    refine ⟨hdiverge, hiff.trans ⟨?_, fun hsmall => hsmall hS i hfield⟩⟩
    intro hlt _ j hj
    obtain rfl : i = j := Option.some.inj (hfield.symm.trans hj)
    exact hlt
  · have hsame : present (.object (spellFields S members)) token =
        present (.object members) token := by
      rw [hpresent]
      cases hv : present (.object members) token with
      | none => rfl
      | some v =>
        by_cases hS : token ∈ S
        · have hi : integerOf v = none := by
            by_contra hsome
            obtain ⟨i, hi⟩ := Option.ne_none_iff_exists'.mp hsome
            exact hint ⟨hS, i, by rw [fieldInteger, hv, Option.bind_some, hi]⟩
          rw [Option.map_some, if_pos hS, spell_of_none hi]
        · rw [Option.map_some, if_neg hS]
    have htext : fieldText P (.object (spellFields S members)) token =
        fieldText P (.object members) token := by
      rw [fieldText, fieldText, findString_congr hsame]
    rw [htext]
    refine ⟨.inl rfl, iff_of_true rfl ?_⟩
    intro hS i hi
    exact absurd ⟨hS, i, hi⟩ hint

/-! ## The message -/

theorem append_cancel_of_diverge {x y r s : Bytes} (h : Diverge x y) (heq : x ++ r = y ++ s) :
    x = y ∧ r = s := by
  rcases h with rfl | ⟨a, x', b, y', rfl, rfl, hab⟩
  · exact ⟨rfl, List.append_cancel_left heq⟩
  · exact absurd (List.cons.inj heq).1 hab

/-- Two messages of texts that pairwise agree or differ in their first bytes differ at the first
text that does. -/
theorem flatMap_diverge {x y : Bytes → Bytes} {parts : List (Bytes × Bytes)}
    (h : ∀ p ∈ parts, Diverge (x p.2) (y p.2))
    (heq : (parts.flatMap fun p => p.1 ++ x p.2) = parts.flatMap fun p => p.1 ++ y p.2) :
    ∀ p ∈ parts, x p.2 = y p.2 := by
  induction parts with
  | nil => simp
  | cons p parts ih =>
    simp only [List.flatMap_cons, List.append_assoc] at heq
    obtain ⟨hp, hrest⟩ :=
      append_cancel_of_diverge (h p List.mem_cons_self) (List.append_cancel_left heq)
    intro q hq
    rcases List.mem_cons.mp hq with rfl | hq
    · exact hp
    · exact ih (fun q hq => h q (List.mem_cons_of_mem p hq)) hrest q hq

theorem message_eq_iff {x y : Bytes → Bytes} (h : ∀ k ∈ textFields, Diverge (x k) (y k)) :
    message x = message y ↔ ∀ k ∈ textFields, x k = y k := by
  rw [textFields, List.forall_mem_map]
  rw [textFields, List.forall_mem_map] at h
  constructor
  · exact flatMap_diverge h
  · intro heq
    rw [message, message]
    exact List.flatMap_congr fun p hp => by rw [heq p hp]

/-- The message that `Element::from_json` builds, if it does not throw. -/
def builtMessage (P : Platform) (text : Bytes) (clock : Clock) : Option Bytes :=
  (Element.fromJson P text clock).1.toOption.map Element.message

theorem builtMessage_of_rejected (h : P.parse text = .ok data) (hr : Rejected P data)
    (clock : Clock) : builtMessage P text clock = none := by
  obtain ⟨e, he⟩ := (fromJson_error_iff h clock).mpr hr
  rw [builtMessage, he]
  rfl

theorem builtMessage_of_accepted (h : P.parse text = .ok data) (hr : ¬ Rejected P data)
    (clock : Clock) : builtMessage P text clock = some (message (fieldText P data)) := by
  rw [← fromJson_error_iff h clock, exists_error_iff, not_not] at hr
  obtain ⟨x, hx⟩ := hr
  obtain ⟨-, -, hmessage⟩ := (fromJson_eq_ok h).mp hx
  rw [builtMessage, hx, ← (findMessage_eq_ok.mp hmessage).2]
  rfl

theorem badText_spell (v : Value) : BadText (spell v) ↔ BadText v := by
  cases v <;> simp [BadText, spell, integerOf, isBoolean, isStructured]

/-- A spelled number is as good a text as the number. -/
theorem rejected_spellFields (hS : S ⊆ textFields) :
    Rejected P (.object (spellFields S members)) ↔ Rejected P (.object members) := by
  have hs : ascii "s" ∉ S := fun h => absurd (hS h) (by decide)
  have hl : ascii "l" ∉ S := fun h => absurd (hS h) (by decide)
  have htext : ∀ k, (∃ v, present (.object (spellFields S members)) k = some v ∧ BadText v) ↔
      ∃ v, present (.object members) k = some v ∧ BadText v := by
    intro k
    rw [present_spellFields]
    by_cases hk : k ∈ S <;> simp [hk, badText_spell]
  have htime : present (.object (spellFields S members)) (ascii "s") =
      present (.object members) (ascii "s") := by
    rw [present_spellFields]
    simp [hs]
  have hlevel : present (.object (spellFields S members)) (ascii "l") =
      present (.object members) (ascii "l") := by
    rw [present_spellFields]
    simp [hl]
  simp only [Rejected, RejectedElsewhere, htext, htime, hlevel]

/-- Spelling the integers in some of the text fields as strings leaves the message as it is exactly
if each of them is below 2^63, or the log is rejected in either spelling. -/
theorem spelling_iff (hS : S ⊆ textFields) (h : P.parse text = .ok (.object members))
    (h' : P.parse text' = .ok (.object (spellFields S members))) (clock : Clock) :
    builtMessage P text' clock = builtMessage P text clock ↔
      Rejected P (.object members) ∨
        ∀ k ∈ S, ∀ i ∈ fieldInteger (.object members) k, i < 2 ^ 63 := by
  have hrejected := @rejected_spellFields P S members hS
  by_cases hr : Rejected P (.object members)
  · have hr' := hrejected.mpr hr
    rw [builtMessage_of_rejected h hr, builtMessage_of_rejected h' hr']
    exact iff_of_true rfl (.inl hr)
  · have hr' := mt hrejected.mp hr
    rw [builtMessage_of_accepted h hr, builtMessage_of_accepted h' hr', Option.some_inj, eq_comm,
      message_eq_iff fun k _ => fieldText_spellFields.1]
    constructor
    · intro hall
      refine .inr ?_
      intro k hk
      exact fieldText_spellFields.2.mp (hall k (hS hk)) hk
    · intro hsmall k _
      exact fieldText_spellFields.2.mpr fun hk => (hsmall.resolve_left hr) k hk

/-- A log with a process id and a negative thread id, and the same log with both as strings. -/
theorem spelling_iff_ids :
    builtMessage referencePlatform (ascii "\x7b\"p\":\"4294967296\",\"t\":\"-5\"\x7d")
        (fun _ => 0) =
      builtMessage referencePlatform (ascii "\x7b\"p\":4294967296,\"t\":-5\x7d") fun _ => 0 := by
  exact (@spelling_iff referencePlatform _ _ [ascii "p", ascii "t"]
    [(ascii "p", .number_unsigned 4294967296), (ascii "t", .number_integer (-5))]
    (by decide) (by decide +kernel) (by decide +kernel) _).mpr (.inr (by decide +kernel))

/-- The process id 18446744073709551615 is written as -1. -/
theorem large_id_negative :
    ¬ ∀ (P : Platform) (S : List Bytes) (text text' : Bytes) (members : List (Bytes × Value))
      (clock : Clock), S ⊆ textFields → P.parse text = .ok (.object members) →
      P.parse text' = .ok (.object (spellFields S members)) →
      builtMessage P text' clock = builtMessage P text clock := by
  intro h
  have hsame := h referencePlatform [ascii "p"] (ascii "\x7b\"p\":18446744073709551615\x7d")
    (ascii "\x7b\"p\":\"18446744073709551615\"\x7d")
    [(ascii "p", .number_unsigned 18446744073709551615)] (fun _ => 0) (by decide)
    (by decide +kernel) (by decide +kernel)
  exact absurd hsame (by decide +kernel)

end Scriptor
