import Scriptor.Json.Parser
import Mathlib.Data.List.TakeWhile
import Mathlib.Tactic.Common

/-!
# The parser accepts exactly the JSON texts

`parse_isSome_iff`: the parser succeeds on a sequence of bytes if and only if the grammar derives it.
Completeness is proved with an arbitrary continuation after the value, and for a value that is not
a number without any condition on that continuation. So the parser, being a function, shows that no
object text is a proper part of another one at its front (`object_text_unique`).
-/

namespace Json

/-! ## Space -/

theorem skipSpace_append {a : Bytes} (ha : IsSpace a) (s : Bytes) :
    skipSpace (a ++ s) = skipSpace s := List.dropWhile_append_of_pos ha

theorem skipSpace_of_not_ws {b : UInt8} (hb : isWs b = false) (t : Bytes) :
    skipSpace (b :: t) = b :: t := by
  simp [skipSpace, hb]

/-- Space in front of another byte is skipped. -/
theorem skipSpace_to {a : Bytes} (ha : IsSpace a) {b : UInt8} (hb : isWs b = false) (t : Bytes) :
    skipSpace (a ++ b :: t) = b :: t := by
  rw [skipSpace_append ha, skipSpace_of_not_ws hb]

theorem exists_space (s : Bytes) : ∃ a, IsSpace a ∧ s = a ++ skipSpace s :=
  ⟨s.takeWhile isWs, fun _ hb => List.mem_takeWhile_imp hb, (List.takeWhile_append_dropWhile).symm⟩

theorem isSpace_of_skipSpace_eq_nil {s : Bytes} (h : skipSpace s = []) : IsSpace s := by
  obtain ⟨a, ha, hs⟩ := exists_space s
  rw [hs, h, List.append_nil]
  exact ha

theorem skipSpace_eq_nil {a : Bytes} (ha : IsSpace a) : skipSpace a = [] := by
  have := skipSpace_append ha []
  rwa [List.append_nil] at this

theorem expect_eq_some {b : UInt8} {s t : Bytes} : expect b s = some t ↔ s = b :: t := by
  cases s with
  | nil => simp [expect]
  | cons a s => by_cases h : a = b <;> simp [expect, h]

/-! ## Strings -/

theorem scanEscape_sound {s t : Bytes} {u : StringUnit} (h : scanEscape s = some (u, t)) :
    ∃ w, IsChar (backslash :: w) ∧ s = w ++ t := by
  unfold scanEscape at h
  split at h
  · simp at h
  · rename_i e r
    split_ifs at h with he
    · split at h
      · rename_i a b c d r
        simp only [Option.bind_eq_bind, Option.bind_eq_some_iff] at h
        obtain ⟨a', ha, b', hb, c', hc, d', hd, h⟩ := h
        simp only [Option.some.injEq, Prod.mk.injEq] at h
        obtain ⟨-, rfl⟩ := h
        refine ⟨[e, a, b, c, d], ?_, rfl⟩
        rw [he]
        exact .unicode (by simp [isHex, ha]) (by simp [isHex, hb]) (by simp [isHex, hc])
          (by simp [isHex, hd])
      · simp at h
    · simp only [Option.map_eq_some_iff, Prod.mk.injEq] at h
      obtain ⟨b, hb, -, rfl⟩ := h
      exact ⟨[e], .escape (by simp [hb]), rfl⟩

theorem scanChar_sound {s t : Bytes} {u : StringUnit} (h : scanChar s = some (u, t)) :
    ∃ w, IsChar w ∧ s = w ++ t := by
  unfold scanChar at h
  split at h
  · simp at h
  · rename_i b r
    split_ifs at h with hback hbad hascii
    · obtain ⟨w, hw, rfl⟩ := scanEscape_sound h
      exact ⟨backslash :: w, hw, by rw [hback]; rfl⟩
    · simp only [Option.some.injEq, Prod.mk.injEq] at h
      obtain ⟨-, rfl⟩ := h
      rw [not_or, UInt8.not_lt] at hbad
      exact ⟨[b], .ascii hbad.2 hascii hbad.1 hback, rfl⟩
    · split at h
      · rename_i lo hi n s r hlead
        split_ifs at h with hs
        simp only [Option.some.injEq, Prod.mk.injEq] at h
        obtain ⟨-, rfl⟩ := h
        obtain ⟨hlo, hhi, hn, hcont⟩ := hs
        refine ⟨b :: s :: r.take n, .utf8 hlead hlo hhi hn ?_, by simp⟩
        simpa using hcont
      · simp at h

theorem escapeValue_u : escapeValue 0x75 = none := rfl

theorem utf8Lead_range {b lo hi : UInt8} {n : ℕ} (h : utf8Lead b = some (lo, hi, n)) :
    0x80 ≤ b := by
  unfold utf8Lead at h
  grind

theorem scanChar_complete {w : Bytes} (hw : IsChar w) (t : Bytes) :
    ∃ u, scanChar (w ++ t) = some (u, t) := by
  cases hw with
  | ascii hlo hhi hq hb =>
    have hlo' := UInt8.not_lt.mpr hlo
    exact ⟨_, by simp [scanChar, hb, hq, hlo', hhi]; rfl⟩
  | @utf8 b s lo hi n r hlead hlo hhi hn hr =>
    have hb := utf8Lead_range hlead
    have hback : b ≠ backslash := by rintro rfl; simp [backslash] at hb
    have hq : b ≠ quote := by rintro rfl; simp [quote] at hb
    have h20 : ¬ b < 0x20 := by
      intro h
      have hlt : b < 0x80 := UInt8.lt_of_lt_of_le h (by decide)
      exact absurd hlt (UInt8.not_lt.mpr hb)
    have htake : (r ++ t).take n = r := by rw [← hn]; simp
    have hdrop : (r ++ t).drop n = t := by rw [← hn]; simp
    refine ⟨.bytes (b :: s :: r), ?_⟩
    simp only [List.cons_append, scanChar, hback, hq, h20, UInt8.not_lt.mpr hb, hlead, htake, hdrop,
      if_false, or_self]
    rw [if_pos ⟨hlo, hhi, hn, by simpa using hr⟩]
  | @escape e he =>
    have hu : e ≠ 0x75 := by rintro rfl; simp [escapeValue_u] at he
    obtain ⟨b, hb⟩ := Option.isSome_iff_exists.mp he
    exact ⟨.bytes [b], by simp [scanChar, scanEscape, hu, hb]⟩
  | unicode ha hb hc hd =>
    obtain ⟨a', ha⟩ := Option.isSome_iff_exists.mp ha
    obtain ⟨b', hb⟩ := Option.isSome_iff_exists.mp hb
    obtain ⟨c', hc⟩ := Option.isSome_iff_exists.mp hc
    obtain ⟨d', hd⟩ := Option.isSome_iff_exists.mp hd
    exact ⟨_, by simp [scanChar, scanEscape, ha, hb, hc, hd]; rfl⟩

/-- No character of a string is written with a quote in front, and none is empty. -/
theorem IsChar.exists_cons {w : Bytes} (hw : IsChar w) : ∃ b r, w = b :: r ∧ b ≠ quote := by
  cases hw with
  | ascii _ _ hq _ => exact ⟨_, _, rfl, hq⟩
  | utf8 hlead _ _ _ _ =>
    refine ⟨_, _, rfl, ?_⟩
    rintro rfl
    exact absurd (utf8Lead_range hlead) (by decide)
  | escape _ => exact ⟨_, _, rfl, by decide⟩
  | unicode _ _ _ _ => exact ⟨_, _, rfl, by decide⟩

theorem scanChars_sound : ∀ {n : ℕ} {s t : Bytes} {us : List StringUnit},
    scanChars n s = some (us, t) → ∃ cs : List Bytes, (∀ x ∈ cs, IsChar x) ∧
      s = cs.flatten ++ quote :: t := by
  intro n
  induction n with
  | zero => intro s t us h; simp [scanChars] at h
  | succ n ih =>
    intro s t us h
    cases s with
    | nil => simp [scanChars] at h
    | cons b r =>
      simp only [scanChars] at h
      split_ifs at h with hq
      · simp only [Option.some.injEq, Prod.mk.injEq] at h
        obtain ⟨-, rfl⟩ := h
        exact ⟨[], by simp, by simp [hq]⟩
      · simp only [Option.bind_eq_bind, Option.bind_eq_some_iff, Prod.exists] at h
        obtain ⟨u, r', hchar, us', r'', hrest, h⟩ := h
        simp only [Option.some.injEq, Prod.mk.injEq] at h
        obtain ⟨-, rfl⟩ := h
        obtain ⟨w, hw, hs⟩ := scanChar_sound hchar
        obtain ⟨cs, hcs, rfl⟩ := ih hrest
        refine ⟨w :: cs, ?_, by simp [hs]⟩
        intro x hx
        rcases List.mem_cons.mp hx with rfl | hx
        · exact hw
        · exact hcs x hx

theorem scanChars_complete (t : Bytes) : ∀ {cs : List Bytes} {n : ℕ}, (∀ x ∈ cs, IsChar x) →
    cs.length < n → ∃ us, scanChars n (cs.flatten ++ quote :: t) = some (us, t) := by
  intro cs
  induction cs with
  | nil =>
    intro n _ hn
    obtain ⟨n, rfl⟩ := Nat.exists_eq_succ_of_ne_zero (Nat.ne_of_gt hn)
    exact ⟨[], by simp [scanChars]⟩
  | cons w cs ih =>
    intro n hcs hn
    obtain ⟨n, rfl⟩ := Nat.exists_eq_succ_of_ne_zero (by omega : n ≠ 0)
    have hw := hcs w List.mem_cons_self
    obtain ⟨us, hus⟩ := ih (fun x hx => hcs x (List.mem_cons_of_mem _ hx))
      (by simpa using hn : cs.length < n)
    obtain ⟨u, hu⟩ := scanChar_complete hw (cs.flatten ++ quote :: t)
    obtain ⟨b, r, rfl, hb⟩ := hw.exists_cons
    refine ⟨u :: us, ?_⟩
    rw [List.cons_append] at hu
    simp only [List.flatten_cons, List.append_assoc, List.cons_append, scanChars, if_neg hb, hu,
      Option.bind_eq_bind, Option.bind_some, hus]

theorem length_le_flatten {cs : List Bytes} (hcs : ∀ x ∈ cs, IsChar x) :
    cs.length ≤ cs.flatten.length := by
  induction cs with
  | nil => simp
  | cons w cs ih =>
    obtain ⟨b, r, rfl, -⟩ := (hcs w List.mem_cons_self).exists_cons
    have := ih fun x hx => hcs x (List.mem_cons_of_mem _ hx)
    simp only [List.length_cons, List.flatten_cons, List.length_append]
    omega

theorem scanString_sound {s t k : Bytes} (h : scanString s = some (k, t)) :
    ∃ w, IsString (quote :: w) ∧ s = w ++ t := by
  simp only [scanString, Option.map_eq_some_iff, Prod.exists, Prod.mk.injEq] at h
  obtain ⟨us, r, h, -, rfl⟩ := h
  obtain ⟨cs, hcs, rfl⟩ := scanChars_sound h
  exact ⟨cs.flatten ++ [quote], ⟨cs, hcs, rfl⟩, by simp⟩

theorem scanString_complete {w : Bytes} (hw : IsString w) (t : Bytes) :
    ∃ r k, w = quote :: r ∧ scanString (r ++ t) = some (k, t) := by
  obtain ⟨cs, hcs, rfl⟩ := hw
  have hlen := length_le_flatten hcs
  obtain ⟨us, hus⟩ := scanChars_complete t (n := (cs.flatten ++ quote :: t).length) hcs
    (by simp only [List.length_append, List.length_cons]; omega)
  have hlist : (cs.flatten ++ [quote]) ++ t = cs.flatten ++ quote :: t := by simp
  refine ⟨_, decodeUnits us, rfl, ?_⟩
  rw [hlist, scanString, hus, Option.map_some]

/-! ## Numbers -/

/-- What follows does not go on with a number. -/
def Follow (t : Bytes) : Prop :=
  ∀ b ∈ t.head?, isDigit b = false ∧ b ≠ dot ∧ b ≠ 0x65 ∧ b ≠ 0x45

theorem scanDigits_sound {s t ds : Bytes} (h : scanDigits s = some (ds, t)) :
    IsDigits ds ∧ s = ds ++ t := by
  unfold scanDigits at h
  split at h
  · simp at h
  · rename_i hne
    simp only [Option.some.injEq, Prod.mk.injEq] at h
    obtain ⟨rfl, rfl⟩ := h
    exact ⟨⟨hne, fun _ hb => List.mem_takeWhile_imp hb⟩, (List.takeWhile_append_dropWhile).symm⟩

theorem scanDigits_complete {ds t : Bytes} (hds : IsDigits ds)
    (ht : ∀ b ∈ t.head?, isDigit b = false) : scanDigits (ds ++ t) = some (ds, t) := by
  have htake : t.takeWhile isDigit = [] := by
    cases t with
    | nil => rfl
    | cons b t => simp [ht b rfl]
  have hdrop : t.dropWhile isDigit = t := by
    cases t with
    | nil => rfl
    | cons b t => simp [ht b rfl]
  unfold scanDigits
  rw [List.takeWhile_append_of_pos hds.2, List.dropWhile_append_of_pos hds.2, htake, hdrop,
    List.append_nil]
  obtain ⟨hne, -⟩ := hds
  cases ds with
  | nil => exact absurd rfl hne
  | cons b ds => rfl

theorem scanSign_text (s : Bytes) :
    s = (if (scanSign s).1 then [minus] else []) ++ (scanSign s).2 := by
  cases s with
  | nil => rfl
  | cons b t => by_cases h : b = minus <;> simp [scanSign, h]

theorem scanInt_sound {s t ds : Bytes} (h : scanInt s = some (ds, t)) :
    IsDigits ds ∧ (ds.head? = some zero → ds = [zero]) ∧ s = ds ++ t := by
  cases s with
  | nil => simp [scanInt] at h
  | cons b r =>
    simp only [scanInt] at h
    split_ifs at h with hz
    · simp only [Option.some.injEq, Prod.mk.injEq] at h
      obtain ⟨rfl, rfl⟩ := h
      exact ⟨⟨by simp, by simp [zero, isDigit]⟩, fun _ => rfl, by rw [hz]; rfl⟩
    · obtain ⟨hds, hs⟩ := scanDigits_sound h
      refine ⟨hds, fun hhead => ?_, hs⟩
      have : (b :: r).head? = some zero := by
        rw [hs, List.head?_append_of_ne_nil _ hds.1, hhead]
      simp at this
      exact absurd this hz

theorem scanInt_complete {ds t : Bytes} (hds : IsDigits ds)
    (hz : ds.head? = some zero → ds = [zero]) (ht : ∀ b ∈ t.head?, isDigit b = false) :
    scanInt (ds ++ t) = some (ds, t) := by
  cases ds with
  | nil => exact absurd rfl hds.1
  | cons b r =>
    by_cases hb : b = zero
    · have := hz (by rw [hb]; rfl)
      simp [this, scanInt]
    · have := scanDigits_complete hds ht
      simpa [scanInt, hb] using this

theorem scanFrac_sound {s t : Bytes} {frac : Option Bytes} (h : scanFrac s = some (frac, t)) :
    (∀ ds, frac = some ds → IsDigits ds) ∧
      s = fracText frac ++ t := by
  cases s with
  | nil => simp [scanFrac] at h; simp [← h.1, h.2, fracText]
  | cons b r =>
    simp only [scanFrac] at h
    split_ifs at h with hdot
    · simp only [Option.map_eq_some_iff, Prod.exists, Prod.mk.injEq] at h
      obtain ⟨ds, r', hscan, rfl, rfl⟩ := h
      obtain ⟨hds, rfl⟩ := scanDigits_sound hscan
      exact ⟨by simpa using hds, by simp [hdot, fracText]⟩
    · simp only [Option.some.injEq, Prod.mk.injEq] at h
      simp [← h.1, ← h.2, fracText]

theorem scanExp_sound {s t : Bytes} {exp : Option (UInt8 × Bytes × Bytes)}
    (h : scanExp s = some (exp, t)) :
    (∀ e sign ds, exp = some (e, sign, ds) →
      (e = 0x65 ∨ e = 0x45) ∧ (sign = [] ∨ sign = [plus] ∨ sign = [minus]) ∧ IsDigits ds) ∧
      s = expText exp ++ t := by
  cases s with
  | nil => simp [scanExp] at h; simp [← h.1, h.2, expText]
  | cons b r =>
    simp only [scanExp] at h
    split_ifs at h with he
    · simp only [Option.map_eq_some_iff, Prod.exists, Prod.mk.injEq] at h
      obtain ⟨ds, r', hscan, rfl, rfl⟩ := h
      obtain ⟨hds, hr⟩ := scanDigits_sound hscan
      have hsign : r = (scanExpSign r).1 ++ (scanExpSign r).2 ∧ ((scanExpSign r).1 = [] ∨
          (scanExpSign r).1 = [plus] ∨ (scanExpSign r).1 = [minus]) := by
        cases r with
        | nil => simp [scanExpSign]
        | cons x r =>
          by_cases hx : x = plus ∨ x = minus
          · rcases hx with rfl | rfl <;> simp [scanExpSign]
          · simp [scanExpSign, hx]
      refine ⟨?_, ?_⟩
      · intro e sign ds' heq
        simp only [Option.some.injEq, Prod.mk.injEq] at heq
        obtain ⟨rfl, rfl, rfl⟩ := heq
        exact ⟨he, hsign.2, hds⟩
      · rw [hr] at hsign
        simpa [expText] using hsign.1
    · simp only [Option.some.injEq, Prod.mk.injEq] at h
      simp [← h.1, ← h.2, expText]

theorem scanNumber_sound {s t : Bytes} {m : Number} (h : scanNumber s = some (m, t)) :
    m.Valid ∧ s = m.text ++ t := by
  simp only [scanNumber, Option.bind_eq_bind, Option.bind_eq_some_iff, Prod.exists,
    Option.some.injEq, Prod.mk.injEq] at h
  obtain ⟨int, s₁, hint, frac, s₂, hfrac, exp, s₃, hexp, rfl, rfl⟩ := h
  obtain ⟨hi, hz, hs₁⟩ := scanInt_sound hint
  obtain ⟨hf, hs₂⟩ := scanFrac_sound hfrac
  obtain ⟨he, hs₃⟩ := scanExp_sound hexp
  refine ⟨⟨hi, hz, hf, he⟩, ?_⟩
  calc s = (if (scanSign s).1 then [minus] else []) ++ (scanSign s).2 := scanSign_text s
    _ = Number.text ⟨(scanSign s).1, int, frac, exp⟩ ++ s₃ := by
      rw [hs₁, hs₂, hs₃]; simp [Number.text]

theorem scanFrac_complete {frac : Option Bytes} {t : Bytes}
    (hf : ∀ ds, frac = some ds → IsDigits ds)
    (ht : ∀ b ∈ t.head?, isDigit b = false ∧ b ≠ dot) :
    scanFrac (fracText frac ++ t) = some (frac, t) := by
  cases frac with
  | none =>
    cases t with
    | nil => rfl
    | cons b t => simp [fracText, scanFrac, (ht b rfl).2]
  | some ds =>
    have := scanDigits_complete (hf ds rfl) fun b hb => (ht b hb).1
    simp [fracText, scanFrac, this]

theorem scanExp_complete {exp : Option (UInt8 × Bytes × Bytes)} {t : Bytes}
    (he : ∀ e sign ds, exp = some (e, sign, ds) →
      (e = 0x65 ∨ e = 0x45) ∧ (sign = [] ∨ sign = [plus] ∨ sign = [minus]) ∧ IsDigits ds)
    (ht : Follow t) : scanExp (expText exp ++ t) = some (exp, t) := by
  cases exp with
  | none =>
    cases t with
    | nil => rfl
    | cons b t =>
      obtain ⟨-, -, h65, h45⟩ := ht b rfl
      simp [expText, scanExp, h65, h45]
  | some x =>
    obtain ⟨e, sign, ds⟩ := x
    obtain ⟨he, hsign, hds⟩ := he e sign ds rfl
    have hscan := scanDigits_complete (t := t) hds fun b hb => (ht b hb).1
    have hstep : scanExpSign (sign ++ (ds ++ t)) = (sign, ds ++ t) := by
      obtain ⟨d, r, rfl⟩ := List.exists_cons_of_ne_nil hds.1
      have hd : isDigit d = true := hds.2 d List.mem_cons_self
      have hplus : d ≠ plus := by rintro rfl; exact absurd hd (by decide)
      have hminus : d ≠ minus := by rintro rfl; exact absurd hd (by decide)
      rcases hsign with rfl | rfl | rfl <;> simp [scanExpSign, hplus, hminus]
    simp only [expText, List.cons_append, List.append_assoc, scanExp, he, if_true, hstep, hscan,
      Option.map_some]

/-- An exponent, or what follows a number, starts neither with a digit nor with a point. -/
theorem expText_head {exp : Option (UInt8 × Bytes × Bytes)} {t : Bytes}
    (he : ∀ e sign ds, exp = some (e, sign, ds) →
      (e = 0x65 ∨ e = 0x45) ∧ (sign = [] ∨ sign = [plus] ∨ sign = [minus]) ∧ IsDigits ds)
    (ht : Follow t) : ∀ b ∈ (expText exp ++ t).head?, isDigit b = false ∧ b ≠ dot := by
  intro b hb
  cases exp with
  | none => exact ⟨(ht b hb).1, (ht b hb).2.1⟩
  | some x =>
    obtain ⟨e, sign, ds⟩ := x
    obtain rfl : e = b := by simpa [expText] using hb
    rcases (he e sign ds rfl).1 with rfl | rfl <;> decide

theorem scanNumber_complete {m : Number} (hm : m.Valid) {t : Bytes} (ht : Follow t) :
    scanNumber (m.text ++ t) = some (m, t) := by
  obtain ⟨neg, int, frac, exp⟩ := m
  obtain ⟨hi, hz, hf, he⟩ := hm
  simp only at hi hz hf he
  have hexp := expText_head he ht
  have hfrac : ∀ b ∈ (fracText frac ++ (expText exp ++ t)).head?, isDigit b = false := by
    cases frac with
    | none => exact fun b hb => (hexp b hb).1
    | some ds =>
      intro b hb
      obtain rfl : dot = b := by simpa [fracText] using hb
      decide
  have hsign : scanSign ((if neg then [minus] else []) ++ (int ++ (fracText frac ++ (expText exp ++ t))))
      = (neg, int ++ (fracText frac ++ (expText exp ++ t))) := by
    obtain ⟨d, r, rfl⟩ := List.exists_cons_of_ne_nil hi.1
    have hminus : d ≠ minus := by
      rintro rfl
      exact absurd (hi.2 minus List.mem_cons_self) (by decide)
    cases neg <;> simp [scanSign, hminus]
  simp only [Number.text, List.append_assoc, scanNumber, hsign, Option.bind_eq_bind,
    scanInt_complete hi hz hfrac, scanFrac_complete hf hexp, scanExp_complete he ht,
    Option.bind_some]

/-! ## Values -/

theorem IsNumber.exists_cons {w : Bytes} (hw : IsNumber w) :
    ∃ b r, w = b :: r ∧ (b = minus ∨ isDigit b = true) := by
  obtain ⟨m, hm, rfl⟩ := hw
  obtain ⟨d, r, hd⟩ := List.exists_cons_of_ne_nil hm.int.1
  have hdigit : isDigit d = true := hm.int.2 d (by simp [hd])
  cases hneg : m.neg with
  | true => exact ⟨minus, _, by simp [Number.text, hneg]; rfl, .inl rfl⟩
  | false => exact ⟨d, _, by simp [Number.text, hneg, hd]; rfl, .inr hdigit⟩

/-- A value starts with a byte that is neither space nor a closing bracket. -/
theorem IsValue.exists_cons {w : Bytes} (hw : IsValue w) :
    ∃ b r, w = b :: r ∧ isWs b = false ∧ b ≠ rbracket := by
  cases hw with
  | nullLit => exact ⟨_, _, rfl, rfl, by decide⟩
  | trueLit => exact ⟨_, _, rfl, rfl, by decide⟩
  | falseLit => exact ⟨_, _, rfl, rfl, by decide⟩
  | number h =>
    obtain ⟨b, r, rfl, hb⟩ := h.exists_cons
    refine ⟨b, r, rfl, ?_⟩
    rcases hb with rfl | hb
    · decide
    · unfold isDigit at hb
      unfold isWs rbracket
      grind
  | string h =>
    obtain ⟨cs, -, rfl⟩ := h
    exact ⟨_, _, rfl, rfl, by decide⟩
  | emptyArray _ => exact ⟨_, _, rfl, rfl, by decide⟩
  | array _ => exact ⟨_, _, rfl, rfl, by decide⟩
  | emptyObject _ => exact ⟨_, _, rfl, rfl, by decide⟩
  | object _ => exact ⟨_, _, rfl, rfl, by decide⟩

theorem skipSpace_value {a v : Bytes} (ha : IsSpace a) (hv : IsValue v) (t : Bytes) :
    skipSpace (a ++ (v ++ t)) = v ++ t := by
  obtain ⟨b, r, rfl, hb, -⟩ := hv.exists_cons
  rw [skipSpace_append ha, List.cons_append, skipSpace_of_not_ws hb]

theorem skipSpace_string {a k : Bytes} (ha : IsSpace a) (hk : IsString k) (t : Bytes) :
    skipSpace (a ++ (k ++ t)) = k ++ t := skipSpace_value ha (.string hk) t

theorem scanScalar_sound {s t : Bytes} {v : Value} (h : scanScalar s = some (v, t)) :
    ∃ w, IsValue w ∧ s = w ++ t := by
  unfold scanScalar at h
  split_ifs at h with hnull htrue hfalse
  · obtain ⟨r, rfl⟩ := hnull
    simp only [Option.some.injEq, Prod.mk.injEq] at h
    exact ⟨_, .nullLit, by rw [← h.2]; rfl⟩
  · obtain ⟨r, rfl⟩ := htrue
    simp only [Option.some.injEq, Prod.mk.injEq] at h
    exact ⟨_, .trueLit, by rw [← h.2]; rfl⟩
  · obtain ⟨r, rfl⟩ := hfalse
    simp only [Option.some.injEq, Prod.mk.injEq] at h
    exact ⟨_, .falseLit, by rw [← h.2]; rfl⟩
  · simp only [Option.map_eq_some_iff, Prod.exists, Prod.mk.injEq] at h
    obtain ⟨m, r, h, -, rfl⟩ := h
    obtain ⟨hm, rfl⟩ := scanNumber_sound h
    exact ⟨m.text, .number ⟨m, hm, rfl⟩, rfl⟩

theorem scanScalar_text {m : Number} (hm : m.Valid) {t : Bytes} (ht : Follow t) :
    scanScalar (m.text ++ t) = some (m.toValue, t) := by
  obtain ⟨b, r, hb, hstart⟩ := IsNumber.exists_cons ⟨m, hm, rfl⟩
  have hne : ∀ c : UInt8, c ≠ minus → isDigit c = false → ∀ x, ¬ (c :: x) <+: m.text ++ t := by
    rintro c hc hd x ⟨y, hy⟩
    rw [hb] at hy
    obtain rfl : c = b := by simpa using (List.cons.inj hy).1
    rcases hstart with rfl | hdig
    · exact hc rfl
    · simp [hd] at hdig
  have hnull : ¬ nullText <+: m.text ++ t := hne _ (by decide) rfl _
  have htrue : ¬ trueText <+: m.text ++ t := hne _ (by decide) rfl _
  have hfalse : ¬ falseText <+: m.text ++ t := hne _ (by decide) rfl _
  rw [scanScalar, if_neg hnull, if_neg htrue, if_neg hfalse, scanNumber_complete hm ht]
  rfl

theorem scanScalar_number {w : Bytes} (hw : IsNumber w) {t : Bytes} (ht : Follow t) :
    ∃ v, scanScalar (w ++ t) = some (v, t) := by
  obtain ⟨m, hm, rfl⟩ := hw
  exact ⟨m.toValue, scanScalar_text hm ht⟩

/-! ## Soundness -/

/-- What `parseValue` consumes with fuel `n` is a value. -/
def ValueSound (n : ℕ) : Prop :=
  ∀ s v t, parseValue n s = some (v, t) → ∃ w, IsValue w ∧ s = w ++ t

/-- The same for the elements of an array. -/
def ElementsSound (n : ℕ) : Prop :=
  ∀ s vs t, parseElements n s = some (vs, t) → ∃ w, IsElements w ∧ s = w ++ rbracket :: t

/-- The same for the members of an object. -/
def MembersSound (n : ℕ) : Prop :=
  ∀ s ms t, parseMembers n s = some (ms, t) → ∃ w, IsMembers w ∧ s = w ++ rbrace :: t

/-- What is skipped in front of a byte is space. -/
theorem eq_of_head_skipSpace {b : UInt8} {s : Bytes} (h : (skipSpace s).head? = some b) :
    ∃ a, IsSpace a ∧ s = a ++ b :: (skipSpace s).tail := by
  obtain ⟨a, ha, hs⟩ := exists_space s
  refine ⟨a, ha, ?_⟩
  rw [← List.eq_cons_of_mem_head? h]
  exact hs

variable {n : ℕ}

theorem parseValue_sound_succ (ihe : ElementsSound n) (ihm : MembersSound n) : ValueSound (n + 1) := by
  intro s v t h
  cases s with
  | nil => simp [parseValue] at h
  | cons b r =>
    simp only [parseValue] at h
    split_ifs at h with hq hlb hempty hlc hempty
    · simp only [Option.map_eq_some_iff, Prod.exists, Prod.mk.injEq] at h
      obtain ⟨k, r', h, -, rfl⟩ := h
      obtain ⟨w, hw, rfl⟩ := scanString_sound h
      exact ⟨quote :: w, .string hw, by rw [hq]; rfl⟩
    · simp only [Option.some.injEq, Prod.mk.injEq] at h
      obtain ⟨a, ha, hr⟩ := eq_of_head_skipSpace hempty
      refine ⟨lbracket :: (a ++ [rbracket]), .emptyArray ha, ?_⟩
      rw [hlb, hr, h.2]
      simp
    · simp only [Option.map_eq_some_iff, Prod.exists, Prod.mk.injEq] at h
      obtain ⟨vs, r', h, -, rfl⟩ := h
      obtain ⟨w, hw, rfl⟩ := ihe _ _ _ h
      exact ⟨lbracket :: (w ++ [rbracket]), .array hw, by simp [hlb]⟩
    · simp only [Option.some.injEq, Prod.mk.injEq] at h
      obtain ⟨a, ha, hr⟩ := eq_of_head_skipSpace hempty
      refine ⟨lbrace :: (a ++ [rbrace]), .emptyObject ha, ?_⟩
      rw [hlc, hr, h.2]
      simp
    · simp only [Option.map_eq_some_iff, Prod.exists, Prod.mk.injEq] at h
      obtain ⟨ms, r', h, -, rfl⟩ := h
      obtain ⟨w, hw, rfl⟩ := ihm _ _ _ h
      exact ⟨lbrace :: (w ++ [rbrace]), .object hw, by simp [hlc]⟩
    · exact scanScalar_sound h

theorem parseElements_sound_succ (ihv : ValueSound n) (ihe : ElementsSound n) :
    ElementsSound (n + 1) := by
  intro s vs t h
  simp only [parseElements, Option.bind_eq_bind, Option.bind_eq_some_iff, Prod.exists] at h
  obtain ⟨v, r, hval, h⟩ := h
  obtain ⟨w, hw, hs⟩ := ihv _ _ _ hval
  obtain ⟨a, ha, hs'⟩ := exists_space s
  obtain ⟨b, hb, hr⟩ := exists_space r
  rw [hs', hs]
  split at h
  · simp at h
  · rename_i x r' hsk
    rw [hsk] at hr
    rw [hr]
    split_ifs at h with hrb hcomma
    · simp only [Option.some.injEq, Prod.mk.injEq] at h
      exact ⟨_, .last ha hw hb, by simp [hrb, h.2]⟩
    · simp only [Option.bind_eq_some_iff, Prod.exists, Option.some.injEq, Prod.mk.injEq] at h
      obtain ⟨vs', t', hrest, -, rfl⟩ := h
      obtain ⟨w', hw', rfl⟩ := ihe _ _ _ hrest
      exact ⟨_, .more ha hw hb hw', by simp [hcomma]⟩

theorem parseMembers_sound_succ (ihv : ValueSound n) (ihm : MembersSound n) :
    MembersSound (n + 1) := by
  intro s ms t h
  simp only [parseMembers, Option.bind_eq_bind, Option.bind_eq_some_iff, Prod.exists,
    expect_eq_some] at h
  obtain ⟨s₁, hs₁, k, s₂, hk, s₃, hs₃, v, r, hval, h⟩ := h
  obtain ⟨kw, hkw, rfl⟩ := scanString_sound hk
  obtain ⟨w, hw, hs⟩ := ihv _ _ _ hval
  obtain ⟨a, ha, hs'⟩ := exists_space s
  obtain ⟨b, hb, hs₂⟩ := exists_space s₂
  obtain ⟨c, hc, hs₃'⟩ := exists_space s₃
  obtain ⟨d, hd, hr⟩ := exists_space r
  rw [hs', hs₁, hs₂, hs₃, hs₃', hs]
  split at h
  · simp at h
  · rename_i x r' hsk
    rw [hsk] at hr
    rw [hr]
    split_ifs at h with hrb hcomma
    · simp only [Option.some.injEq, Prod.mk.injEq] at h
      exact ⟨_, .last ha hkw hb hc hw hd, by simp [hrb, h.2]⟩
    · simp only [Option.bind_eq_some_iff, Prod.exists, Option.some.injEq, Prod.mk.injEq] at h
      obtain ⟨ms', t', hrest, -, rfl⟩ := h
      obtain ⟨w', hw', rfl⟩ := ihm _ _ _ hrest
      exact ⟨_, .more ha hkw hb hc hw hd hw', by simp [hcomma]⟩

/-- By induction on the fuel, for the three functions together. -/
theorem parse_sound (n : ℕ) : ValueSound n ∧ ElementsSound n ∧ MembersSound n := by
  induction n with
  | zero =>
    refine ⟨fun s v t h => ?_, fun s vs t h => ?_, fun s ms t h => ?_⟩
    · simp [parseValue] at h
    · simp [parseElements] at h
    · simp [parseMembers] at h
  | succ n ih =>
    obtain ⟨ihv, ihe, ihm⟩ := ih
    exact ⟨parseValue_sound_succ ihe ihm, parseElements_sound_succ ihv ihe,
      parseMembers_sound_succ ihv ihm⟩

/-! ## Completeness -/

theorem follow_cons {b : UInt8} (hd : isDigit b = false) (hdot : b ≠ dot) (h65 : b ≠ 0x65)
    (h45 : b ≠ 0x45) (t : Bytes) : Follow (b :: t) := by
  intro x hx
  obtain rfl : b = x := by simpa using hx
  exact ⟨hd, hdot, h65, h45⟩

/-- A number ends where space or a structural character follows. -/
theorem follow_space {a t : Bytes} (ha : IsSpace a) (ht : Follow t) : Follow (a ++ t) := by
  cases a with
  | nil => exact ht
  | cons b a =>
    have hb : isWs b = true := ha b List.mem_cons_self
    unfold isWs at hb
    refine follow_cons ?_ ?_ ?_ ?_ _
    · unfold isDigit; grind
    · unfold dot; grind
    · grind
    · grind

theorem follow_comma (t : Bytes) : Follow (comma :: t) :=
  follow_cons rfl (by decide) (by decide) (by decide) t

theorem follow_rbracket (t : Bytes) : Follow (rbracket :: t) :=
  follow_cons rfl (by decide) (by decide) (by decide) t

theorem follow_rbrace (t : Bytes) : Follow (rbrace :: t) :=
  follow_cons rfl (by decide) (by decide) (by decide) t

theorem IsElements.head {w : Bytes} (hw : IsElements w) (t : Bytes) :
    (skipSpace (w ++ t)).head? ≠ some rbracket := by
  have key : ∀ {a v : Bytes} (r : Bytes), IsSpace a → IsValue v →
      (skipSpace (a ++ (v ++ r))).head? ≠ some rbracket := by
    intro a v r ha hv
    obtain ⟨b, r', rfl, -, hb⟩ := hv.exists_cons
    rw [skipSpace_value ha hv]
    simpa using hb
  cases hw with
  | last ha hv hb => simpa only [List.append_assoc] using key _ ha hv
  | more ha hv hb h => simpa only [List.append_assoc] using key _ ha hv

theorem IsMembers.head {w : Bytes} (hw : IsMembers w) (t : Bytes) :
    (skipSpace (w ++ t)).head? ≠ some rbrace := by
  have key : ∀ {a k : Bytes} (r : Bytes), IsSpace a → IsString k →
      (skipSpace (a ++ (k ++ r))).head? ≠ some rbrace := by
    intro a k r ha hk
    rw [skipSpace_string ha hk]
    obtain ⟨cs, -, rfl⟩ := hk
    simp only [List.cons_append, List.head?_cons]
    decide
  cases hw with
  | last ha hk _ _ _ _ => simpa only [List.append_assoc] using key _ ha hk
  | more ha hk _ _ _ _ _ => simpa only [List.append_assoc] using key _ ha hk

/-- `parseValue` succeeds on a value, given enough fuel, and leaves what follows it. Only a number has
to be told apart from what follows. -/
def ValueComplete (n : ℕ) : Prop :=
  ∀ w, IsValue w → w.length ≤ n → ∀ t, (IsNumber w → Follow t) →
    ∃ v, parseValue n (w ++ t) = some (v, t)

/-- The same for the elements of an array. -/
def ElementsComplete (n : ℕ) : Prop :=
  ∀ w, IsElements w → w.length < n → ∀ t, ∃ vs, parseElements n (w ++ rbracket :: t) = some (vs, t)

/-- The same for the members of an object. -/
def MembersComplete (n : ℕ) : Prop :=
  ∀ w, IsMembers w → w.length < n → ∀ t, ∃ ms, parseMembers n (w ++ rbrace :: t) = some (ms, t)

theorem parseValue_complete_succ (ihe : ElementsComplete n) (ihm : MembersComplete n) :
    ValueComplete (n + 1) := by
  intro w hw hn t ht
  cases hw with
  | nullLit => exact ⟨.null, by simp [nullText, parseValue, scanScalar, quote, lbracket, lbrace]⟩
  | trueLit => exact ⟨.boolean true, by
      simp [nullText, trueText, parseValue, scanScalar, quote, lbracket, lbrace]⟩
  | falseLit => exact ⟨.boolean false, by
      simp [nullText, trueText, falseText, parseValue, scanScalar, quote, lbracket, lbrace]⟩
  | number h =>
    obtain ⟨v, hv⟩ := scanScalar_number h (ht h)
    obtain ⟨b, r, rfl, hb⟩ := h.exists_cons
    have hne : ∀ x : UInt8, x ≠ minus → isDigit x = false → b ≠ x := by
      rintro x hx hd rfl
      rcases hb with hb | hb
      · exact hx hb
      · simp [hd] at hb
    have hq : b ≠ quote := hne quote (by decide) rfl
    have hlb : b ≠ lbracket := hne lbracket (by decide) rfl
    have hlc : b ≠ lbrace := hne lbrace (by decide) rfl
    exact ⟨v, by simpa [parseValue, hq, hlb, hlc] using hv⟩
  | string h =>
    obtain ⟨r, k, rfl, hk⟩ := scanString_complete h t
    exact ⟨.string k, by simp [parseValue, hk]⟩
  | @emptyArray a ha =>
    have hsk := skipSpace_to ha (b := rbracket) rfl t
    exact ⟨.array [], by simp [parseValue, hsk, quote, lbracket]⟩
  | @array w h =>
    obtain ⟨vs, hvs⟩ := ihe w h (by simp at hn; omega) t
    exact ⟨.array vs, by simp [parseValue, h.head (rbracket :: t), hvs, quote, lbracket]⟩
  | @emptyObject a ha =>
    have hsk := skipSpace_to ha (b := rbrace) rfl t
    exact ⟨mkObject [], by simp [parseValue, hsk, quote, lbracket, lbrace]⟩
  | @object w h =>
    obtain ⟨ms, hms⟩ := ihm w h (by simp at hn; omega) t
    exact ⟨mkObject ms, by simp [parseValue, h.head (rbrace :: t), hms, quote, lbracket, lbrace]⟩

theorem parseElements_complete_succ (ihv : ValueComplete n) (ihe : ElementsComplete n) :
    ElementsComplete (n + 1) := by
  intro w hw hn t
  cases hw with
  | @last a v b ha hv hb =>
    simp only [List.length_append] at hn
    obtain ⟨x, hx⟩ := ihv v hv (by omega) (b ++ rbracket :: t)
      fun _ => follow_space hb (follow_rbracket t)
    have hsk := skipSpace_to hb (b := rbracket) rfl t
    refine ⟨[x], ?_⟩
    simp [parseElements, skipSpace_value ha hv, hx, hsk]
  | @more a v b w ha hv hb h =>
    simp only [List.length_append, List.length_cons] at hn
    obtain ⟨x, hx⟩ := ihv v hv (by omega) (b ++ comma :: (w ++ rbracket :: t))
      fun _ => follow_space hb (follow_comma _)
    obtain ⟨xs, hxs⟩ := ihe w h (by omega) t
    have hsk := skipSpace_to hb (b := comma) rfl (w ++ rbracket :: t)
    have hne : comma ≠ rbracket := by decide
    refine ⟨x :: xs, ?_⟩
    simp [parseElements, skipSpace_value ha hv, hx, hsk, hxs, hne]

/-- The part of a member up to its value; `z` is what comes after it. -/
theorem parseMembers_of_value {a k b c v y s t : Bytes} {x : Value} {z : UInt8} (ha : IsSpace a)
    (hk : IsString k) (hb : IsSpace b) (hc : IsSpace c) (hv : IsValue v)
    (hx : parseValue n (v ++ y) = some (x, s)) (hs : skipSpace s = z :: t) :
    ∃ key, parseMembers (n + 1) (a ++ (k ++ (b ++ colon :: (c ++ (v ++ y))))) =
      if z = rbrace then some ([(key, x)], t)
      else if z = comma then (parseMembers n t).bind fun m => some ((key, x) :: m.1, m.2)
      else none := by
  have hsk := skipSpace_string ha hk (b ++ colon :: (c ++ (v ++ y)))
  obtain ⟨r, key, rfl, hkey⟩ := scanString_complete hk (b ++ colon :: (c ++ (v ++ y)))
  have hcolon := skipSpace_to hb (b := colon) rfl (c ++ (v ++ y))
  refine ⟨key, ?_⟩
  simp only [List.cons_append] at hsk
  simp [parseMembers, expect, hsk, hkey, hcolon, skipSpace_value hc hv, hx, hs]

theorem parseMembers_complete_succ (ihv : ValueComplete n) (ihm : MembersComplete n) :
    MembersComplete (n + 1) := by
  intro w hw hn t
  cases hw with
  | @last a k b c v d ha hk hb hc hv hd =>
    simp only [List.length_append, List.length_cons] at hn
    obtain ⟨x, hx⟩ := ihv v hv (by omega) (d ++ rbrace :: t)
      fun _ => follow_space hd (follow_rbrace t)
    have hsk := skipSpace_to hd (b := rbrace) rfl t
    obtain ⟨key, hkey⟩ := parseMembers_of_value ha hk hb hc hv hx hsk
    refine ⟨[(key, x)], ?_⟩
    simp only [List.append_assoc, List.cons_append]
    rw [hkey, if_pos rfl]
  | @more a k b c v d w ha hk hb hc hv hd h =>
    simp only [List.length_append, List.length_cons] at hn
    obtain ⟨x, hx⟩ := ihv v hv (by omega) (d ++ comma :: (w ++ rbrace :: t))
      fun _ => follow_space hd (follow_comma _)
    obtain ⟨ms, hms⟩ := ihm w h (by omega) t
    have hsk := skipSpace_to hd (b := comma) rfl (w ++ rbrace :: t)
    have hne : comma ≠ rbrace := by decide
    obtain ⟨key, hkey⟩ := parseMembers_of_value ha hk hb hc hv hx hsk
    refine ⟨(key, x) :: ms, ?_⟩
    simp only [List.append_assoc, List.cons_append]
    rw [hkey, if_neg hne, if_pos rfl, hms]
    rfl

/-- By induction on the fuel, for the three functions together. -/
theorem parse_complete (n : ℕ) : ValueComplete n ∧ ElementsComplete n ∧ MembersComplete n := by
  induction n with
  | zero =>
    refine ⟨fun w hw hn => ?_, fun w hw hn => ?_, fun w hw hn => ?_⟩
    · obtain ⟨b, r, rfl, -⟩ := hw.exists_cons
      simp at hn
    · omega
    · omega
  | succ n ih =>
    obtain ⟨ihv, ihe, ihm⟩ := ih
    exact ⟨parseValue_complete_succ ihe ihm, parseElements_complete_succ ihv ihe,
      parseMembers_complete_succ ihv ihm⟩

/-! ## Texts -/

theorem parseValue_sound {s t : Bytes} {v : Value} (h : parseValue n s = some (v, t)) :
    ∃ w, IsValue w ∧ s = w ++ t := (parse_sound n).1 s v t h

theorem parseValue_complete {w t : Bytes} (hw : IsValue w) (hn : w.length ≤ n)
    (ht : IsNumber w → Follow t) : ∃ v, parseValue n (w ++ t) = some (v, t) :=
  (parse_complete n).1 w hw hn t ht

/-- The parser succeeds on exactly the JSON texts. -/
theorem parse_isSome_iff (s : Bytes) : (parse s).isSome ↔ IsText s := by
  constructor
  · intro h
    obtain ⟨x, h⟩ := Option.isSome_iff_exists.mp h
    simp only [parse, Option.bind_eq_bind, Option.bind_eq_some_iff, Prod.exists] at h
    obtain ⟨v, t, hval, h⟩ := h
    split_ifs at h with ht
    obtain ⟨a, ha, hs⟩ := exists_space s
    obtain ⟨w, hw, hs'⟩ := parseValue_sound hval
    exact ⟨a, w, t, ha, hw, isSpace_of_skipSpace_eq_nil ht, by rw [← hs', ← hs]⟩
  · rintro ⟨a, w, b, ha, hw, hb, rfl⟩
    have hfollow : Follow b := by
      have := follow_space hb (t := []) (by simp [Follow])
      rwa [List.append_nil] at this
    obtain ⟨v, hv⟩ := parseValue_complete (n := (a ++ (w ++ b)).length + 1) hw
      (by simp only [List.length_append]; omega) fun _ => hfollow
    rw [parse, skipSpace_value ha hw, hv]
    simp [skipSpace_eq_nil hb]

/-! ## Object texts -/

theorem isSpace_singleton_cons {b : UInt8} {a : Bytes} (hb : isWs b = false) : ¬ IsSpace (b :: a) := by
  intro h
  simp [h b List.mem_cons_self] at hb

/-- A text between braces is a value itself, without space around it. -/
theorem isValue_of_text {w : Bytes} (h : IsText w) (hhead : w.head? = some lbrace)
    (hlast : w.getLast? = some rbrace) : IsValue w := by
  obtain ⟨a, v, b, ha, hv, hb, rfl⟩ := h
  have ha' : a = [] := by
    cases a with
    | nil => rfl
    | cons x a =>
      obtain rfl : x = lbrace := by simpa using hhead
      exact absurd ha (isSpace_singleton_cons rfl)
  have hb' : b = [] := by
    rcases List.eq_nil_or_concat b with rfl | ⟨b', x, rfl⟩
    · rfl
    · rw [List.concat_eq_append] at hlast hb
      obtain rfl : x = rbrace := by simpa [← List.append_assoc] using hlast
      exact absurd (hb rbrace (by simp)) (by decide)
  simpa [ha', hb'] using hv

/-- Of two object texts, neither goes on where the other ends: an object text cut short is never an
object text. -/
theorem object_text_unique {w r : Bytes} (hw : IsText w) (hwr : IsText (w ++ r))
    (hhead : w.head? = some lbrace) (hlast : w.getLast? = some rbrace)
    (hlast' : (w ++ r).getLast? = some rbrace) : r = [] := by
  have hnum : ∀ x : Bytes, x.head? = some lbrace → ¬ IsNumber x := by
    intro x hx hn
    obtain ⟨b, t, rfl, hb⟩ := hn.exists_cons
    obtain rfl : b = lbrace := by simpa using hx
    exact absurd hb (by decide)
  have hhead' : (w ++ r).head? = some lbrace := by
    cases w with
    | nil => simp at hhead
    | cons b w => simpa using hhead
  obtain ⟨v, hv⟩ := parseValue_complete (t := r) (n := (w ++ r).length)
    (isValue_of_text hw hhead hlast) (by simp) fun h => absurd h (hnum w hhead)
  obtain ⟨v', hv'⟩ := parseValue_complete (t := []) (n := (w ++ r).length)
    (isValue_of_text hwr hhead' hlast') le_rfl fun h => absurd h (hnum _ hhead')
  rw [List.append_nil, hv] at hv'
  exact (Prod.mk.inj (Option.some.inj hv')).2

end Json
