import Scriptor.Proofs.Binary64Proofs
import Scriptor.Proofs.FieldProofs

/-!
# The time of a log

Seconds are read as a double, multiplied by 10^6, cut to an integer and multiplied by 1000 in 64
bits. For whole seconds the double and the product are exact, so the only thing that can go wrong is
the last step (`whole_seconds_iff`). What becomes of fractions is the subject of
`Scriptor.Proofs.MicrosProofs`.
-/

namespace Scriptor

open Json (Value)

variable {P : Platform} {v : Value} {q : ℚ} {x : Element}

/-! ## From a decimal number to ticks -/

/-- What the parser, or `std::stod`, makes of the decimal number `q`. -/
inductive Spells (P : Platform) (q : ℚ) : Value → Prop where
  | float : Spells P q (.number_float (Binary64.round q))
  | integer (i : Int64) (hi : (i.toInt : ℚ) = q) : Spells P q (.number_integer i)
  | unsigned (n : UInt64) (hn : (n.toNat : ℚ) = q) : Spells P q (.number_unsigned n)
  | string (s : Bytes) (hs : P.stod s = some (.finite (Binary64.round q))) : Spells P q (.string s)

theorem secondsOf_of_spells (h : Spells P q v) :
    secondsOf P v = .ok (.finite (Binary64.round q)) := by
  cases h with
  | float => rfl
  | integer i hi =>
    rw [← hi]
    rfl
  | unsigned n hn =>
    rw [← hn]
    exact congrArg Except.ok (by rw [Double.ofInt, Int.cast_natCast])
  | string s hs =>
    show P.stringToDouble s = _
    rw [Platform.stringToDouble, hs]

theorem isNull_of_spells (h : Spells P q v) : isNull v = false := by
  cases h <;> rfl

/-- The element was decoded from a log whose `s` is the decimal number `q`. -/
def DecodedAt (P : Platform) (q : ℚ) (x : Element) : Prop :=
  ∃ text data v clock, P.parse text = .ok data ∧ find data (ascii "s") = some v ∧ Spells P q v ∧
    (Element.fromJson P text clock).1 = .ok x

/-- The time point is that many nanoseconds after the epoch, as the log gave it. -/
def TimePoint.IsAt (time : TimePoint) (ns : ℤ) : Prop :=
  ∃ ticks, time = .given ticks ∧ ticks.toInt = ns

/-- The ticks, wherever they come from. -/
def TimePoint.ticks : TimePoint → Int64
  | .given ticks => ticks
  | .now ticks => ticks

theorem time_of_decodedAt (h : DecodedAt P q x) :
    x.time = .given (ticksOf P (.finite (Binary64.round q))) := by
  obtain ⟨text, data, v, clock, hparse, hfind, hspells, hx⟩ := h
  have hpresent : present data (ascii "s") = some v :=
    present_eq_some.mpr ⟨hfind, isNull_of_spells hspells⟩
  obtain ⟨htime, -, -⟩ := (fromJson_eq_ok hparse).mp hx
  rw [findTime_fst, hpresent, Option.elim_some, timeOf, secondsOf_of_spells hspells] at htime
  exact (Except.ok.inj htime).symm

/-- The number of microseconds, before they are converted to ticks. -/
def microsOf (q : ℚ) : ℤ := Binary64.truncate (Binary64.round (Binary64.round q * 1000000))

/-- Microseconds become ticks modulo 2^64. -/
theorem ticksOf_toInt (h : -2 ^ 63 ≤ microsOf q ∧ microsOf q < 2 ^ 63) :
    (ticksOf P (.finite (Binary64.round q))).toInt = (microsOf q * 1000).bmod (2 ^ 64) := by
  have hcast : P.toInt64 (Double.mul (.finite (Binary64.round q)) (.finite 1000000)) =
      .ofInt (microsOf q) := by
    show (if _ then _ else _) = _
    exact if_pos h
  have hthousand : (1000 : Int64).toInt = 1000 := by decide
  rw [ticksOf, hcast, Int64.toInt_mul, Int64.toInt_ofInt_of_le h.1 h.2, hthousand]

/-- The time is exact if the microseconds are and the ticks fit. -/
theorem isAt_iff {ns : ℤ} (hx : DecodedAt P q x) (h : -2 ^ 63 ≤ microsOf q ∧ microsOf q < 2 ^ 63) :
    x.time.IsAt ns ↔ (microsOf q * 1000).bmod (2 ^ 64) = ns := by
  rw [← ticksOf_toInt (P := P) h, time_of_decodedAt hx]
  simp [TimePoint.IsAt]

/-! ## Whole seconds -/

theorem microsOf_intCast {s : ℤ} (hs : |s| * 15625 < 2 ^ 53) : microsOf s = s * 1000000 := by
  have hs' : |s| < 2 ^ 53 := by
    have hnonneg := abs_nonneg s
    omega
  have hshort : |s * 15625| < 2 ^ 53 := by
    rw [abs_mul]
    exact hs
  have hproduct : (s * 1000000 : ℚ) = ((s * 15625 : ℤ) : ℚ) * 2 ^ (6 : ℤ) := by
    push_cast
    ring
  rw [microsOf, Binary64.round_intCast hs', hproduct, Binary64.round_of_short hshort, ← hproduct]
  have hcast : (s * 1000000 : ℚ) = ((s * 1000000 : ℤ) : ℚ) := by push_cast; rfl
  rw [hcast, Binary64.truncate_intCast]

/-- A whole second fits the ticks of the clock. -/
def InRange (s : ℤ) : Prop := -2 ^ 63 ≤ s * 10 ^ 9 ∧ s * 10 ^ 9 < 2 ^ 63

instance (s : ℤ) : Decidable (InRange s) := inferInstanceAs (Decidable (_ ∧ _))

theorem isAt_seconds {s : ℤ} (hs : |s| * 15625 < 2 ^ 53) (hx : DecodedAt P s x) :
    x.time.IsAt (s * 10 ^ 9) ↔ InRange s := by
  obtain ⟨hlo, hhi⟩ := abs_le.mp (le_refl |s|)
  have hmicros := microsOf_intCast hs
  have hrange : -2 ^ 63 ≤ microsOf s ∧ microsOf s < 2 ^ 63 := by
    rw [hmicros]
    omega
  rw [isAt_iff hx hrange, hmicros, Int.bmod_def, InRange]
  omega

theorem TimePoint.IsAt.ticks {time : TimePoint} {ns : ℤ} (h : time.IsAt ns) :
    time.ticks.toInt = ns := by
  obtain ⟨ticks, rfl, hticks⟩ := h
  exact hticks

/-- Of two logs with whole seconds, both are stored at exactly these seconds, and hence in their
order, if and only if both fit the ticks of the clock. -/
theorem whole_seconds_iff {s₁ s₂ : ℤ} {x₁ x₂ : Element} (hs₁ : |s₁| * 15625 < 2 ^ 53)
    (hs₂ : |s₂| * 15625 < 2 ^ 53) (hx₁ : DecodedAt P s₁ x₁) (hx₂ : DecodedAt P s₂ x₂) :
    (x₁.time.IsAt (s₁ * 10 ^ 9) ∧ x₂.time.IsAt (s₂ * 10 ^ 9) ∧
        (s₁ < s₂ → x₁.time.ticks < x₂.time.ticks)) ↔
      InRange s₁ ∧ InRange s₂ := by
  rw [← isAt_seconds hs₁ hx₁, ← isAt_seconds hs₂ hx₂]
  constructor
  · rintro ⟨h₁, h₂, -⟩
    exact ⟨h₁, h₂⟩
  · rintro ⟨h₁, h₂⟩
    refine ⟨h₁, h₂, ?_⟩
    intro hlt
    rw [Int64.lt_iff_toInt_lt, h₁.ticks, h₂.ticks]
    omega

/-- The logs with 5 and with -1.5e3 seconds. -/
theorem whole_seconds_iff_pair :
    ∃ x₁ x₂ : Element, x₁.time.IsAt (-1500 * 10 ^ 9) ∧ x₂.time.IsAt (5 * 10 ^ 9) ∧
      ((-1500 : ℤ) < 5 → x₁.time.ticks < x₂.time.ticks) := by
  have hx₁ : DecodedAt referencePlatform (-1500 : ℤ)
      ⟨.given (-1500000000000), .trace, ascii "[] [:] [::] "⟩ :=
    ⟨ascii "\x7b\"s\":-1.5e3\x7d",
      .object [(ascii "s", .number_float (Binary64.round (-1500 : ℤ)))], _, fun _ => 0,
      by decide +kernel, rfl, .float, by decide +kernel⟩
  have hx₂ : DecodedAt referencePlatform (5 : ℤ)
      ⟨.given 5000000000, .trace, ascii "[] [:] [::] "⟩ :=
    ⟨ascii "\x7b\"s\":5\x7d", .object [(ascii "s", .number_unsigned 5)], _, fun _ => 0,
      by decide +kernel, rfl, .unsigned 5 (by decide +kernel), by decide +kernel⟩
  exact ⟨_, _, (whole_seconds_iff (by decide) (by decide) hx₁ hx₂).mpr ⟨by decide, by decide⟩⟩

/-- The seconds of the unit test are stored as another time. -/
theorem test_seconds_wrap :
    ¬ ∀ (P : Platform) (s : ℤ) (x : Element), |s| * 15625 < 2 ^ 53 → DecodedAt P s x →
      x.time.IsAt (s * 10 ^ 9) := by
  intro h
  have hx : DecodedAt referencePlatform (123124141241 : ℤ)
      ⟨.given (.ofInt (123124141241 * 10 ^ 9)), .trace, ascii "[] [:] [::] "⟩ :=
    ⟨ascii "\x7b\"s\":123124141241\x7d", .object [(ascii "s", .number_unsigned 123124141241)], _,
      fun _ => 0, by decide +kernel, rfl, .unsigned _ (by decide +kernel), by decide +kernel⟩
  have hticks := (h referencePlatform _ _ (by decide) hx).ticks
  exact absurd hticks (by decide)

end Scriptor
