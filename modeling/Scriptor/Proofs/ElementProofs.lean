import Scriptor.Element
import Mathlib.Tactic.Common

/-!
# What `Element::from_json` returns and throws

The clock decides nothing but the time of an element whose log gives none (`fromJson_forgetClock`).
A message starts with `[`, and an exception thrown after the text was parsed differs in its text from
those the parser throws (`what_ne_parse`), so the element made of a log that parses is never the one
that reports a parse failure.
-/

namespace Scriptor

open Json (Value)

/-! ## The clock -/

theorem findTime_forgetClock (P : Platform) (data : Value) (clock clock' : Clock) :
    (findTime P data clock).1.map TimePoint.forgetClock =
      (findTime P data clock').1.map TimePoint.forgetClock := by
  unfold findTime
  split
  · rfl
  · split_ifs
    · rfl
    · rfl

theorem fromJson_forgetClock (P : Platform) (text : Bytes) (clock clock' : Clock) :
    (Element.fromJson P text clock).1.map Element.forgetClock =
      (Element.fromJson P text clock').1.map Element.forgetClock := by
  unfold Element.fromJson
  cases P.parse text with
  | error e => rfl
  | ok data =>
    have htime := findTime_forgetClock P data clock clock'
    rcases hc : findTime P data clock with ⟨time, c⟩
    rcases hc' : findTime P data clock' with ⟨time', c'⟩
    rw [hc, hc'] at htime
    simp only [hc, hc']
    cases time with
    | error e =>
      cases time' with
      | error e' => simpa [Except.map] using htime
      | ok time' => simp [Except.map] at htime
    | ok time =>
      cases time' with
      | error e' => simp [Except.map] at htime
      | ok time' =>
        have ht : time.forgetClock = time'.forgetClock := by simpa [Except.map] using htime
        cases findLevel P data with
        | error e => rfl
        | ok level =>
          cases findMessage P data with
          | error e => rfl
          | ok message =>
            show Except.ok (Element.forgetClock ⟨time, level, message⟩) =
              Except.ok (Element.forgetClock ⟨time', level, message⟩)
            simp only [Element.forgetClock, ht]

/-! ## Exceptions -/

theorem bind_eq_ok {α β ε : Type} {x : Except ε α} {f : α → Except ε β} {b : β} :
    (x >>= f) = .ok b ↔ ∃ a, x = .ok a ∧ f a = .ok b := by
  cases x with
  | error e => simp [bind, Except.bind]
  | ok a => simp [bind, Except.bind]

theorem bind_eq_error {α β ε : Type} {x : Except ε α} {f : α → Except ε β} {e : ε} :
    (x >>= f) = .error e ↔ x = .error e ∨ ∃ a, x = .ok a ∧ f a = .error e := by
  cases x with
  | error e => simp [bind, Except.bind]
  | ok a => simp [bind, Except.bind]

/-- The exceptions thrown after the text was parsed: a field of a wrong type, or a text that is not
the number it should be. -/
def Exception.OfField (e : Exception) : Prop :=
  (∃ expected actual, e = .type_error expected actual) ∨ e = .conversion "stod" ∨
    e = .conversion "stoi"

theorem getString_error {v : Value} {e : Exception} (h : getString v = .error e) : e.OfField := by
  unfold getString at h
  split at h
  · simp at h
  · exact .inl ⟨_, _, (Except.error.inj h).symm⟩

theorem getDouble_error {v : Value} {e : Exception} (h : getDouble v = .error e) : e.OfField := by
  unfold getDouble at h
  split at h
  · simp at h
  · simp at h
  · simp at h
  · exact .inl ⟨_, _, (Except.error.inj h).symm⟩

theorem getInt64_error {P : Platform} {v : Value} {e : Exception} (h : getInt64 P v = .error e) :
    e.OfField := by
  unfold getInt64 at h
  split at h
  · simp at h
  · simp at h
  · simp at h
  · exact .inl ⟨_, _, (Except.error.inj h).symm⟩

theorem getInt_error {P : Platform} {v : Value} {e : Exception} (h : getInt P v = .error e) :
    e.OfField := by
  unfold getInt at h
  split at h
  · simp at h
  · simp at h
  · simp at h
  · simp at h
  · exact .inl ⟨_, _, (Except.error.inj h).symm⟩

theorem stoi_error {s : Bytes} {e : Exception} (h : stoi s = .error e) : e.OfField := by
  simp only [stoi] at h
  split_ifs at h <;> exact .inr (.inr (Except.error.inj h).symm)

theorem findString_error {P : Platform} {data : Value} {token : Bytes} {e : Exception}
    (h : findString P data token = .error e) : e.OfField := by
  unfold findString at h
  split at h
  · simp at h
  · rename_i it _
    split_ifs at h with hnull hnum
    · cases hget : getInt64 P it with
      | error e' =>
        rw [hget] at h
        obtain rfl : e' = e := by simpa [Except.map] using h
        exact getInt64_error hget
      | ok num => simp [hget, Except.map] at h
    · exact getString_error h

theorem findMessage_error {P : Platform} {data : Value} {e : Exception}
    (h : findMessage P data = .error e) : e.OfField := by
  simp only [findMessage, bind_eq_error] at h
  rcases h with h | ⟨_, _, h | ⟨_, _, h | ⟨_, _, h | ⟨_, _, h | ⟨_, _, h | ⟨_, _, h | ⟨_, _, h⟩⟩⟩⟩⟩⟩⟩
  all_goals first | exact findString_error h | exact absurd h (by simp [pure, Except.pure])

theorem findLevel_error {P : Platform} {data : Value} {e : Exception}
    (h : findLevel P data = .error e) : e.OfField := by
  unfold findLevel at h
  split at h
  · simp at h
  · split_ifs at h
    rw [bind_eq_error] at h
    rcases h with h | ⟨value, -, h⟩
    · unfold levelNumberOf at h
      split at h
      · exact stoi_error h
      · exact getInt_error h
    · split_ifs at h

theorem findTime_error {P : Platform} {data : Value} {clock clock' : Clock} {e : Exception}
    (h : findTime P data clock = (.error e, clock')) : e.OfField := by
  unfold findTime at h
  split at h
  · simp at h
  · rename_i s _
    split_ifs at h
    · simp at h
    · cases hs : secondsOf P s with
      | ok x => simp [hs, Except.map] at h
      | error e' =>
        obtain rfl : e' = e := by simpa [hs, Except.map] using (Prod.mk.inj h).1
        unfold secondsOf at hs
        split at hs
        · unfold Platform.stringToDouble at hs
          split at hs
          · simp at hs
          · exact .inr (.inl (Except.error.inj hs).symm)
        · exact getDouble_error hs

theorem findMessage_head {P : Platform} {data : Value} {message : Bytes}
    (h : findMessage P data = .ok message) : message.head? = some 0x5B := by
  simp only [findMessage, bind_eq_ok] at h
  obtain ⟨c, -, p, -, t, -, f, -, i, -, n, -, m, -, h⟩ := h
  rw [← Except.ok.inj h]
  simp only [List.append_assoc]
  rfl

/-- A text that parses is decoded, or rejected because of one of its fields. -/
theorem fromJson_of_parse {P : Platform} {text : Bytes} {data : Value} (h : P.parse text = .ok data)
    (clock : Clock) :
    (∃ element, (Element.fromJson P text clock).1 = .ok element ∧
      element.message.head? = some 0x5B) ∨
    ∃ e, (Element.fromJson P text clock).1 = .error e ∧ e.OfField := by
  unfold Element.fromJson
  rw [h]
  simp only
  rcases htime : findTime P data clock with ⟨time, clock'⟩
  cases time with
  | error e => exact .inr ⟨e, rfl, findTime_error htime⟩
  | ok time =>
    cases hlevel : findLevel P data with
    | error e => exact .inr ⟨e, rfl, findLevel_error hlevel⟩
    | ok level =>
      cases hmessage : findMessage P data with
      | error e => exact .inr ⟨e, rfl, findMessage_error hmessage⟩
      | ok message => exact .inl ⟨⟨time, level, message⟩, rfl, findMessage_head hmessage⟩

theorem fromJson_of_parse_error {P : Platform} {text : Bytes} {e : ParseFailure}
    (h : P.parse text = .error e) (clock : Clock) :
    Element.fromJson P text clock = (.error (.parse e), clock) := by
  unfold Element.fromJson
  rw [h]

/-! ## Texts of exceptions -/

theorem append_ne_of_take {a b x y : Bytes} (k : ℕ) (ha : k ≤ a.length) (hb : k ≤ b.length)
    (h : a.take k ≠ b.take k) : a ++ x ≠ b ++ y := by
  intro heq
  have htake := congrArg (List.take k) heq
  rw [List.take_append_of_le_length ha, List.take_append_of_le_length hb] at htake
  exact h htake

theorem what_head (f : ParseFailure) : (Exception.parse f).what.head? = some 0x5B := by
  cases f <;> rfl

/-- The text of a parse failure is not that of a failure in a field. -/
theorem what_ne_parse {e : Exception} (he : e.OfField) (f : ParseFailure) :
    e.what ≠ (Exception.parse f).what := by
  rcases he with ⟨a, b, rfl⟩ | rfl | rfl
  · cases f with
    | parse_error d => exact append_ne_of_take 17 (by decide) (by decide) (by decide)
    | out_of_range d => exact append_ne_of_take 17 (by decide) (by decide) (by decide)
  · intro h
    have hhead := what_head f
    rw [← h] at hhead
    exact absurd hhead (by decide)
  · intro h
    have hhead := what_head f
    rw [← h] at hhead
    exact absurd hhead (by decide)

end Scriptor
