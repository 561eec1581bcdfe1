import Scriptor.Proofs.ElementProofs

/-!
# The nine fields of a log

`Element::from_json` looks at nine members of an object and treats a null member like an absent one
(`present`), so whether it throws, and what it returns, is read off those (`fields_decide`).
-/

namespace Scriptor

open Json (Value)

/-! ## Members -/

/-- A member that is neither absent nor null. -/
def present (data : Value) (token : Bytes) : Option Value :=
  (find data token).filter fun v => !isNull v

theorem present_eq_some {data v : Value} {token : Bytes} :
    present data token = some v ↔ find data token = some v ∧ isNull v = false := by
  rw [present, Option.filter_eq_some_iff, Bool.not_eq_true']

/-- Branching on a member and then on null is branching on `present`. -/
theorem find_elim {α : Type} {data : Value} {token : Bytes} (absent : α) (f : Value → α) :
    ((find data token).elim absent fun v => if isNull v = true then absent else f v) =
      (present data token).elim absent f := by
  rw [present]
  cases find data token with
  | none => rfl
  | some v => by_cases hnull : isNull v = true <;> simp [Option.filter_some, hnull]

section Except

variable {α β ε : Type} {x : Except ε α}

theorem exists_error_iff : (∃ e, x = .error e) ↔ ¬ ∃ a, x = .ok a := by
  cases x with
  | error e => simp
  | ok a => simp

theorem map_error_iff {f : α → β} : (∃ e, x.map f = .error e) ↔ ∃ e, x = .error e := by
  cases x with
  | error e => simp [Except.map]
  | ok a => simp [Except.map]

/-- An optional field throws only through its value. -/
theorem elim_error_iff {v : Option Value} {a : α} {f : Value → Except ε α} :
    (∃ e, v.elim (.ok a) f = .error e) ↔ ∃ w, v = some w ∧ ∃ e, f w = .error e := by
  cases v with
  | none => simp
  | some w => simp

end Except

/-! ## Text fields -/

/-- The texts around the fields of a message, each with the field that follows it. -/
def messageParts : List (Bytes × Bytes) :=
  [(ascii "[", ascii "c"), (ascii "] [", ascii "p"), (ascii ":", ascii "t"),
    (ascii "] [", ascii "f"), (ascii ":", ascii "i"), (ascii ":", ascii "n"),
    (ascii "] ", ascii "m")]

/-- The fields that the message is made of. -/
def textFields : List Bytes := messageParts.map Prod.snd

/-- The text of a member that is not null. -/
def textOf (P : Platform) (v : Value) : Except Exception Bytes :=
  if isNumber v then (getInt64 P v).map toString else getString v

/-- `true` or `false`. -/
def isBoolean : Value → Bool
  | .boolean _ => true
  | _ => false

/-- An array or an object. -/
def isStructured : Value → Bool
  | .array _ => true
  | .object _ => true
  | _ => false

/-- What a text field must not be. -/
def BadText (v : Value) : Prop := isBoolean v = true ∨ isStructured v = true

variable {P : Platform} {data data' v : Value} {token : Bytes}

theorem findString_eq :
    findString P data token = (present data token).elim (.ok []) (textOf P) := by
  rw [← find_elim, findString]
  cases find data token with
  | none => rfl
  | some v => rfl

theorem textOf_error_iff (hv : isNull v = false) : (∃ e, textOf P v = .error e) ↔ BadText v := by
  cases v <;>
    simp_all [textOf, isNull, isNumber, isBoolean, isStructured, BadText, getInt64, getString,
      Except.map]

theorem findString_error_iff :
    (∃ e, findString P data token = .error e) ↔ ∃ v, present data token = some v ∧ BadText v := by
  rw [findString_eq, elim_error_iff]
  exact exists_congr fun v => and_congr_right fun h => textOf_error_iff (present_eq_some.mp h).2

theorem findString_congr (h : present data token = present data' token) :
    findString P data token = findString P data' token := by
  rw [findString_eq, findString_eq, h]

/-! ## The message -/

/-- The text of a field that has one. -/
def fieldText (P : Platform) (data : Value) (token : Bytes) : Bytes :=
  (findString P data token).toOption.getD []

theorem fieldText_of_ok {x : Bytes} (h : findString P data token = .ok x) :
    fieldText P data token = x := by
  rw [fieldText, h]
  rfl

/-- The message with the given texts. -/
def message (text : Bytes → Bytes) : Bytes := messageParts.flatMap fun p => p.1 ++ text p.2

theorem findMessage_eq_ok {x : Bytes} :
    findMessage P data = .ok x ↔
      (∀ k ∈ textFields, ∃ t, findString P data k = .ok t) ∧ x = message (fieldText P data) := by
  simp only [textFields, messageParts, List.map_cons, List.map_nil, List.forall_mem_cons,
    List.not_mem_nil, false_imp_iff, implies_true, and_true]
  constructor
  · intro h
    simp only [findMessage, bind_eq_ok] at h
    obtain ⟨c, hc, p, hp, t, ht, f, hf, i, hi, n, hn, m, hm, h⟩ := h
    refine ⟨⟨⟨c, hc⟩, ⟨p, hp⟩, ⟨t, ht⟩, ⟨f, hf⟩, ⟨i, hi⟩, ⟨n, hn⟩, ⟨m, hm⟩⟩, ?_⟩
    rw [← Except.ok.inj h]
    simp [message, messageParts, fieldText_of_ok hc, fieldText_of_ok hp, fieldText_of_ok ht,
      fieldText_of_ok hf, fieldText_of_ok hi, fieldText_of_ok hn, fieldText_of_ok hm]
  · rintro ⟨⟨⟨c, hc⟩, ⟨p, hp⟩, ⟨t, ht⟩, ⟨f, hf⟩, ⟨i, hi⟩, ⟨n, hn⟩, ⟨m, hm⟩⟩, rfl⟩
    simp only [findMessage, bind_eq_ok]
    refine ⟨c, hc, p, hp, t, ht, f, hf, i, hi, n, hn, m, hm, ?_⟩
    simp [message, messageParts, fieldText_of_ok hc, fieldText_of_ok hp, fieldText_of_ok ht,
      fieldText_of_ok hf, fieldText_of_ok hi, fieldText_of_ok hn, fieldText_of_ok hm, pure,
      Except.pure]

theorem findMessage_error_iff :
    (∃ e, findMessage P data = .error e) ↔
      ∃ k ∈ textFields, ∃ v, present data k = some v ∧ BadText v := by
  constructor
  · intro h
    by_contra hgood
    refine exists_error_iff.mp h ⟨_, findMessage_eq_ok.mpr ⟨?_, rfl⟩⟩
    intro k hk
    by_contra hk'
    exact hgood ⟨k, hk, findString_error_iff.mp (exists_error_iff.mpr hk')⟩
  · rintro ⟨k, hk, hbad⟩
    rw [exists_error_iff]
    rintro ⟨x, hx⟩
    have htext := (findMessage_eq_ok.mp hx).1 k hk
    exact exists_error_iff.mp (findString_error_iff.mpr hbad) htext

theorem findMessage_congr (h : ∀ k ∈ textFields, present data k = present data' k) :
    findMessage P data = findMessage P data' := by
  simp only [textFields, messageParts, List.map_cons, List.map_nil, List.forall_mem_cons] at h
  obtain ⟨hc, hp, ht, hf, hi, hn, hm, -⟩ := h
  simp only [findMessage, findString_congr hc, findString_congr hp, findString_congr ht,
    findString_congr hf, findString_congr hi, findString_congr hn, findString_congr hm]

/-! ## The time -/

/-- What the time must not be. -/
def BadSeconds (P : Platform) (v : Value) : Prop :=
  isBoolean v = true ∨ isStructured v = true ∨ ∃ text, v = .string text ∧ P.stod text = none

variable {clock clock' : Clock}

/-- The time that a member which is not null stands for. -/
def timeOf (P : Platform) (v : Value) : Except Exception TimePoint :=
  (secondsOf P v).map fun value => .given (ticksOf P value)

theorem findTime_eq :
    findTime P data clock = (present data (ascii "s")).elim
      (.ok (.now clock.now.1), clock.now.2) fun v => (timeOf P v, clock) := by
  rw [← find_elim, findTime]
  cases find data (ascii "s") with
  | none => rfl
  | some v => rfl

theorem findTime_fst :
    (findTime P data clock).1 =
      (present data (ascii "s")).elim (.ok (.now clock.now.1)) (timeOf P) := by
  rw [findTime_eq]
  cases present data (ascii "s") with
  | none => rfl
  | some v => rfl

theorem secondsOf_error_iff (hv : isNull v = false) :
    (∃ e, secondsOf P v = .error e) ↔ BadSeconds P v := by
  cases v with
  | string text =>
    cases h : P.stod text <;>
      simp [secondsOf, Platform.stringToDouble, BadSeconds, isBoolean, isStructured, h]
  | _ => simp_all [secondsOf, getDouble, BadSeconds, isNull, isBoolean, isStructured]

theorem findTime_error_iff :
    (∃ e, (findTime P data clock).1 = .error e) ↔
      ∃ v, present data (ascii "s") = some v ∧ BadSeconds P v := by
  rw [findTime_fst, elim_error_iff]
  refine exists_congr fun v => and_congr_right fun h => ?_
  rw [timeOf, map_error_iff]
  exact secondsOf_error_iff (present_eq_some.mp h).2

theorem findTime_congr (h : present data (ascii "s") = present data' (ascii "s")) :
    findTime P data clock = findTime P data' clock := by
  rw [findTime_eq, findTime_eq, h]

/-! ## The level -/

/-- What the level must not be. -/
def BadLevel (v : Value) : Prop :=
  isStructured v = true ∨ ∃ text e, v = .string text ∧ stoi text = .error e

/-- The level a number stands for. -/
def levelOf (value : Int32) : Level :=
  if Level.trace.toInt ≤ value.toInt ∧ value.toInt < nLevels then .ofInt value.toInt else .trace

theorem findLevel_eq :
    findLevel P data = (present data (ascii "l")).elim (.ok .trace)
      fun v => (levelNumberOf P v).map levelOf := by
  rw [← find_elim, findLevel]
  cases find data (ascii "l") with
  | none => rfl
  | some v =>
    simp only [Option.elim_some]
    split_ifs
    · rfl
    · cases levelNumberOf P v with
      | error e => rfl
      | ok value =>
        simp only [bind, Except.bind, Except.map, levelOf]
        split_ifs <;> rfl

theorem levelNumberOf_error_iff (hv : isNull v = false) :
    (∃ e, levelNumberOf P v = .error e) ↔ BadLevel v := by
  cases v <;> simp_all [levelNumberOf, getInt, BadLevel, isNull, isStructured]

theorem findLevel_error_iff :
    (∃ e, findLevel P data = .error e) ↔
      ∃ v, present data (ascii "l") = some v ∧ BadLevel v := by
  rw [findLevel_eq, elim_error_iff]
  refine exists_congr fun v => and_congr_right fun h => ?_
  rw [map_error_iff]
  exact levelNumberOf_error_iff (present_eq_some.mp h).2

theorem findLevel_congr (h : present data (ascii "l") = present data' (ascii "l")) :
    findLevel P data = findLevel P data' := by
  rw [findLevel_eq, findLevel_eq, h]

/-! ## The element -/

/-- `Element::from_json` throws because of a text field or the time. -/
def RejectedElsewhere (P : Platform) (data : Value) : Prop :=
  (∃ k ∈ textFields, ∃ v, present data k = some v ∧ BadText v) ∨
    ∃ v, present data (ascii "s") = some v ∧ BadSeconds P v

/-- `Element::from_json` throws because of one of the nine fields. -/
def Rejected (P : Platform) (data : Value) : Prop :=
  RejectedElsewhere P data ∨ ∃ v, present data (ascii "l") = some v ∧ BadLevel v

/-- The keys of the nine fields. -/
def fields : List Bytes := ascii "s" :: ascii "l" :: textFields

variable {text text' : Bytes}

theorem fromJson_eq_ok {x : Element} (h : P.parse text = .ok data) :
    (Element.fromJson P text clock).1 = .ok x ↔
      (findTime P data clock).1 = .ok x.time ∧ findLevel P data = .ok x.level ∧
        findMessage P data = .ok x.message := by
  unfold Element.fromJson
  rw [h]
  simp only
  rcases findTime P data clock with ⟨time, clock'⟩
  cases time with
  | error e => simp
  | ok time =>
    simp only [bind_eq_ok, Except.ok.injEq]
    constructor
    · rintro ⟨level, hlevel, message, hmessage, hx⟩
      obtain rfl := Except.ok.inj hx
      exact ⟨rfl, hlevel, hmessage⟩
    · rintro ⟨rfl, hlevel, hmessage⟩
      exact ⟨x.level, hlevel, x.message, hmessage, rfl⟩

theorem fromJson_error_iff (h : P.parse text = .ok data) (clock : Clock) :
    (∃ e, (Element.fromJson P text clock).1 = .error e) ↔ Rejected P data := by
  rw [Rejected, RejectedElsewhere, ← findMessage_error_iff, ← @findTime_error_iff P data clock,
    ← findLevel_error_iff (P := P), exists_error_iff, exists_error_iff, exists_error_iff,
    exists_error_iff]
  constructor
  · intro hnone
    by_contra hall
    push Not at hall
    obtain ⟨⟨⟨message, hmessage⟩, ⟨time, htime⟩⟩, ⟨level, hlevel⟩⟩ := hall
    exact hnone ⟨⟨time, level, message⟩, (fromJson_eq_ok h).mpr ⟨htime, hlevel, hmessage⟩⟩
  · rintro hsome ⟨x, hx⟩
    obtain ⟨htime, hlevel, hmessage⟩ := (fromJson_eq_ok h).mp hx
    rcases hsome with (hsome | hsome) | hsome
    · exact hsome ⟨x.message, hmessage⟩
    · exact hsome ⟨x.time, htime⟩
    · exact hsome ⟨x.level, hlevel⟩

theorem fromJson_congr (h : P.parse text = .ok data) (h' : P.parse text' = .ok data')
    (hfields : ∀ k ∈ fields, present data' k = present data k) (clock : Clock) :
    Element.fromJson P text' clock = Element.fromJson P text clock := by
  have htime : findTime P data' clock = findTime P data clock :=
    findTime_congr (hfields _ (by simp [fields]))
  have hlevel : findLevel P data' = findLevel P data :=
    findLevel_congr (hfields _ (by simp [fields]))
  have hmessage : findMessage P data' = findMessage P data :=
    findMessage_congr fun k hk => hfields k (by simp [fields, hk])
  unfold Element.fromJson
  simp only [h, h', htime, hlevel, hmessage]

/-- A log that parses as an object is rejected exactly if one of the nine fields holds what it must
not; and another object that agrees with it on these fields, where null is the same as absent, is
rejected or decoded alike. -/
theorem fields_decide {members : List (Bytes × Value)} (h : P.parse text = .ok (.object members))
    (clock : Clock) :
    ((∃ e, (Element.fromJson P text clock).1 = .error e) ↔ Rejected P (.object members)) ∧
      ∀ text' members', P.parse text' = .ok (.object members') →
        (∀ k ∈ fields, present (.object members') k = present (.object members) k) →
        Element.fromJson P text' clock = Element.fromJson P text clock :=
  ⟨fromJson_error_iff h clock, fun _ _ h' hfields => fromJson_congr h h' hfields clock⟩

/-- A null member and a member of another name make no difference. -/
theorem fields_decide_null :
    Element.fromJson referencePlatform
        (ascii "\x7b\"x\":[1],\"m\":\"a\",\"c\":null,\"l\":2\x7d") (fun _ => 0) =
      Element.fromJson referencePlatform (ascii "\x7b\"l\":2,\"m\":\"a\"\x7d") fun _ => 0 := by
  have hparse : referencePlatform.parse (ascii "\x7b\"l\":2,\"m\":\"a\"\x7d") =
      .ok (.object [(ascii "l", .number_unsigned 2), (ascii "m", .string (ascii "a"))]) := by
    decide +kernel
  exact (fields_decide hparse _).2 _
    [(ascii "x", .array [.number_unsigned 1]), (ascii "m", .string (ascii "a")),
      (ascii "c", .null), (ascii "l", .number_unsigned 2)] (by decide +kernel) (by decide +kernel)

end Scriptor
