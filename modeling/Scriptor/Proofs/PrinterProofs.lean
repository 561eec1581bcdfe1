import Scriptor.Json.Printer
import Scriptor.Proofs.JsonProofs

/-!
# Reading back what was written

The parser reads what `dumps` writes of a tree as the value of the tree (`parse_dumps`), whatever
characters its strings have and however deep it is, unless a surrogate stands alone in one of them.
-/

namespace Json

variable {n : ℕ}

/-! ## Strings -/

theorem hexValue_hexDigit : ∀ {d : ℕ}, d < 16 → hexValue (hexDigit d) = some d := by
  decide

/-- A character other than the closing quote is one step of `scanChars`. -/
theorem scanChars_succ {b : UInt8} {w t t' : Bytes} {u : StringUnit} {us : List StringUnit} {m : ℕ}
    (hb : b ≠ quote) (hu : scanChar (b :: w) = some (u, t)) (h : scanChars m t = some (us, t')) :
    scanChars (m + 1) (b :: w) = some (u :: us, t') := by
  simp [scanChars, hb, hu, h]

theorem scanChar_plain {b : UInt8} (hlo : 0x20 ≤ b) (hhi : b < 0x80) (hq : b ≠ quote)
    (hb : b ≠ backslash) (t : Bytes) : scanChar (b :: t) = some (.bytes [b], t) := by
  simp [scanChar, hb, hq, UInt8.not_lt.mpr hlo, hhi]

theorem scanChar_escape {e v : UInt8} (he : escapeValue e = some v) (t : Bytes) :
    scanChar (backslash :: e :: t) = some (.bytes [v], t) := by
  have hu : e ≠ 0x75 := by
    rintro rfl
    simp [escapeValue_u] at he
  simp [scanChar, scanEscape, hu, he]

theorem scanChar_unicode {u : ℕ} (hu : u < 65536) (t : Bytes) :
    scanChar (unicodeEscape u ++ t) = some (.code u, t) := by
  have hvalue : u / 4096 * 4096 + u / 256 % 16 * 256 + u / 16 % 16 * 16 + u % 16 = u := by omega
  have h₁ := hexValue_hexDigit (d := u / 4096) (by omega)
  have h₂ := hexValue_hexDigit (d := u / 256 % 16) (by omega)
  have h₃ := hexValue_hexDigit (d := u / 16 % 16) (by omega)
  have h₄ := hexValue_hexDigit (d := u % 16) (by omega)
  simp [unicodeEscape, scanChar, scanEscape, h₁, h₂, h₃, h₄, hvalue]

/-- How the escape of a character is scanned: as units that decode to its UTF-8 bytes. -/
structure ScansAs (w : Bytes) (units : List StringUnit) (bytes : Bytes) : Prop where
  /-- There are not more units than bytes. -/
  length : units.length ≤ w.length
  /-- The units decode to the bytes, whatever comes after them. -/
  decode : ∀ us, decodeUnits (units ++ us) = bytes ++ decodeUnits us
  /-- The text is scanned as the units, whatever comes after it. -/
  scan : ∀ {m t us t'}, scanChars m t = some (us, t') →
    scanChars (m + units.length) (w ++ t) = some (units ++ us, t')

theorem scansAs_escape {e v : UInt8} (he : escapeValue e = some v) :
    ScansAs [backslash, e] [.bytes [v]] [v] where
  length := by simp
  decode us := rfl
  scan h := scanChars_succ (by decide) (scanChar_escape he _) h

theorem scansAs_plain {b : UInt8} (hlo : 0x20 ≤ b) (hhi : b < 0x80) (hq : b ≠ quote)
    (hb : b ≠ backslash) : ScansAs [b] [.bytes [b]] [b] where
  length := by simp
  decode us := rfl
  scan h := scanChars_succ hq (scanChar_plain hlo hhi hq hb _) h

/-- A code unit that is no surrogate stands for itself. -/
theorem scansAs_unicode {u : ℕ} (hu : u < 65536) (hsurrogate : u < 0xD800 ∨ 0xE000 ≤ u) :
    ScansAs (unicodeEscape u) [.code u] (encodeUtf8 u) where
  length := by simp [unicodeEscape]
  decode us := by
    have hno : ¬ (0xD800 ≤ u ∧ u < 0xDC00) := by omega
    cases us with
    | nil => simp [decodeUnits]
    | cons x us =>
      cases x with
      | bytes b => simp [decodeUnits]
      | code v =>
        rw [List.singleton_append, decodeUnits, if_neg]
        exact fun h => hno ⟨h.1, h.2.1⟩
  scan h := scanChars_succ (by decide) (scanChar_unicode hu _) h

/-- A character outside of the first plane is a pair of surrogates. -/
theorem scansAs_pair {p : ℕ} (hlo : 0x10000 ≤ p) (hhi : p < 0x110000) :
    ScansAs (unicodeEscape (0xD800 + (p - 0x10000) / 1024) ++
        unicodeEscape (0xDC00 + (p - 0x10000) % 1024))
      [.code (0xD800 + (p - 0x10000) / 1024), .code (0xDC00 + (p - 0x10000) % 1024)]
      (encodeUtf8 p) where
  length := by simp [unicodeEscape]
  decode us := by
    have hvalue : 0x10000 + (0xD800 + (p - 0x10000) / 1024 - 0xD800) * 1024 +
        (0xDC00 + (p - 0x10000) % 1024 - 0xDC00) = p := by omega
    rw [List.cons_append, List.singleton_append, decodeUnits, if_pos, hvalue]
    omega
  scan {m t us t'} h := by
    have hlow := scanChars_succ (m := m) (by decide)
      (scanChar_unicode (u := 0xDC00 + (p - 0x10000) % 1024) (by omega) t) h
    rw [List.append_assoc]
    exact scanChars_succ (by decide)
      (scanChar_unicode (u := 0xD800 + (p - 0x10000) / 1024) (by omega) _) hlow

theorem encodeUtf8_ascii {p : ℕ} (hp : p < 0x80) : encodeUtf8 p = [.ofNat p] := if_pos hp

theorem scansAs_escapeChar {c : CodePoint} (hc : ¬ c.IsSurrogate) :
    ∃ units, ScansAs (escapeChar c) units (encodeUtf8 c.val) := by
  have hbound := c.bound
  have hvalid : c.val < 0xD800 ∨ 0xE000 ≤ c.val := by
    simp only [CodePoint.IsSurrogate] at hc
    omega
  have hshort : ∀ {p : ℕ} {e : UInt8}, c.val = p → p < 0x80 → escapeValue e = some (.ofNat p) →
      ∃ units, ScansAs [backslash, e] units (encodeUtf8 c.val) := by
    intro p e hval hp he
    rw [hval, encodeUtf8_ascii hp]
    exact ⟨_, scansAs_escape he⟩
  unfold escapeChar
  split_ifs with h22 h5C h0A h0D h09 h0C h08 hplain hplane
  · exact hshort h22 (by decide) rfl
  · exact hshort h5C (by decide) rfl
  · exact hshort h0A (by decide) rfl
  · exact hshort h0D (by decide) rfl
  · exact hshort h09 (by decide) rfl
  · exact hshort h0C (by decide) rfl
  · exact hshort h08 (by decide) rfl
  · rw [encodeUtf8_ascii (by omega)]
    have hnat : (UInt8.ofNat c.val).toNat = c.val := by
      rw [UInt8.toNat_ofNat']
      omega
    refine ⟨_, scansAs_plain ?_ ?_ ?_ ?_⟩
    · rw [UInt8.le_iff_toNat_le, hnat]
      exact hplain.1
    · rw [UInt8.lt_iff_toNat_lt, hnat]
      exact hplain.2.trans (by decide)
    · intro h
      rw [h] at hnat
      exact h22 hnat.symm
    · intro h
      rw [h] at hnat
      exact h5C hnat.symm
  · exact ⟨_, scansAs_unicode hplane (by omega)⟩
  · exact ⟨_, scansAs_pair (by omega) (by omega)⟩

/-- By induction on the characters. -/
theorem scanChars_flatMap {s : Str} (hs : ∀ c ∈ s, ¬ c.IsSurrogate) (t : Bytes) :
    ∃ units : List StringUnit, decodeUnits units = (s.flatMap fun c => encodeUtf8 c.val) ∧
      units.length ≤ (s.flatMap escapeChar).length ∧
      ∀ m, units.length < m → scanChars m (s.flatMap escapeChar ++ quote :: t) = some (units, t) := by
  induction s with
  | nil =>
    refine ⟨[], rfl, by simp, ?_⟩
    intro m hm
    obtain ⟨m, rfl⟩ := Nat.exists_eq_add_one.mpr hm
    simp [scanChars]
  | cons c s ih =>
    obtain ⟨units, hdecode, hlength, hscan⟩ := ih fun c hc => hs c (List.mem_cons_of_mem _ hc)
    obtain ⟨first, hfirst⟩ := scansAs_escapeChar (hs c List.mem_cons_self)
    have hlen := hfirst.length
    refine ⟨first ++ units, ?_, ?_, ?_⟩
    · rw [hfirst.decode, hdecode]
      rfl
    · simp only [List.length_append, List.flatMap_cons]
      omega
    · intro m hm
      rw [List.length_append] at hm
      have hrest := hfirst.scan (hscan (m - first.length) (by omega))
      rw [Nat.sub_add_cancel (by omega)] at hrest
      rw [List.flatMap_cons, List.append_assoc]
      exact hrest

/-- A pair of surrogates is written as the character it stands for. -/
theorem escapeChar_join {c d : CodePoint} (h : c.IsHigh ∧ d.IsLow) :
    escapeChar (c.join d h) = escapeChar c ++ escapeChar d := by
  obtain ⟨⟨hc, hc'⟩, hd, hd'⟩ := id h
  have hunit : ∀ x : CodePoint, 0xD800 ≤ x.val → x.val < 0xE000 →
      escapeChar x = unicodeEscape x.val := by
    intro x hx hx'
    unfold escapeChar
    repeat rw [if_neg (by omega)]
    exact if_pos (by omega)
  have hjoin : (c.join d h).val = 0x10000 + (c.val - 0xD800) * 1024 + (d.val - 0xDC00) := rfl
  have hhigh : 0xD800 + ((c.join d h).val - 0x10000) / 1024 = c.val := by omega
  have hlow : 0xDC00 + ((c.join d h).val - 0x10000) % 1024 = d.val := by omega
  rw [hunit c hc (by omega), hunit d (by omega) hd', ← hhigh, ← hlow]
  unfold escapeChar
  repeat rw [if_neg (by omega)]

/-- Whether pairs of surrogates are joined makes no difference to what is written. -/
theorem flatMap_joinPairs (s : Str) : (joinPairs s).flatMap escapeChar = s.flatMap escapeChar := by
  fun_induction joinPairs s with
  | case1 => rfl
  | case2 c => rfl
  | case3 c d s h ih => rw [List.flatMap_cons, ih, escapeChar_join, List.append_assoc]; rfl
  | case4 c d s h ih => rw [List.flatMap_cons, ih]; rfl

/-- A written string is read back, after its opening quote, as its UTF-8 bytes. -/
theorem scanString_dumpString {s : Str} (hs : IsPaired s) (t : Bytes) :
    scanString (s.flatMap escapeChar ++ quote :: t) = some (utf8 s, t) := by
  obtain ⟨units, hdecode, hlength, hscan⟩ := scanChars_flatMap hs t
  rw [flatMap_joinPairs] at hlength hscan
  have hfuel : units.length < (s.flatMap escapeChar ++ quote :: t).length := by
    simp only [List.length_append, List.length_cons]
    omega
  rw [scanString, hscan _ hfuel, utf8, ← hdecode]
  rfl

/-! ## Numbers -/

theorem digitChar_byte {d : ℕ} (hd : d < 10) :
    UInt8.ofNat (Nat.digitChar d).toNat = .ofNat (0x30 + d) := by
  have hall : ∀ d < 10, UInt8.ofNat (Nat.digitChar d).toNat = .ofNat (0x30 + d) := by decide
  exact hall d hd

theorem naturalText_of_lt {m : ℕ} (hm : m < 10) : naturalText m = [.ofNat (0x30 + m)] := by
  rw [naturalText, Nat.toDigits_of_lt_base hm, List.map_singleton, digitChar_byte hm]

theorem naturalText_of_le {m : ℕ} (hm : 10 ≤ m) :
    naturalText m = naturalText (m / 10) ++ [.ofNat (0x30 + m % 10)] := by
  rw [naturalText, Nat.toDigits_of_base_le (by omega) hm, List.map_append, List.map_singleton,
    digitChar_byte (Nat.mod_lt _ (by omega))]
  rfl

theorem isDigit_ofNat {d : ℕ} (hd : d < 10) : isDigit (.ofNat (0x30 + d)) = true := by
  have hall : ∀ d < 10, isDigit (.ofNat (0x30 + d)) = true := by decide
  exact hall d hd

theorem toNat_digit {d : ℕ} (hd : d < 10) : (UInt8.ofNat (0x30 + d)).toNat = 0x30 + d := by
  rw [UInt8.toNat_ofNat']
  omega

theorem naturalText_isDigits (m : ℕ) : IsDigits (naturalText m) := by
  induction m using Nat.strongRecOn with
  | _ m ih =>
    rcases Nat.lt_or_ge m 10 with hm | hm
    · rw [naturalText_of_lt hm]
      exact ⟨by simp, by simpa using isDigit_ofNat hm⟩
    · obtain ⟨hne, hdigits⟩ := ih (m / 10) (by omega)
      rw [naturalText_of_le hm]
      refine ⟨by simp, ?_⟩
      intro b hb
      rcases List.mem_append.mp hb with hb | hb
      · exact hdigits b hb
      · rw [List.mem_singleton.mp hb]
        exact isDigit_ofNat (Nat.mod_lt _ (by omega))

theorem digitsValue_naturalText (m : ℕ) : digitsValue (naturalText m) = m := by
  induction m using Nat.strongRecOn with
  | _ m ih =>
    rcases Nat.lt_or_ge m 10 with hm | hm
    · rw [naturalText_of_lt hm]
      simp [digitsValue, Nat.mod_eq_of_lt (show 48 + m < 256 by omega)]
    · have hlast := toNat_digit (Nat.mod_lt m (show 10 > 0 by omega))
      have hfirst := ih (m / 10) (by omega)
      rw [naturalText_of_le hm, digitsValue, List.foldl_append]
      show 10 * digitsValue (naturalText (m / 10)) + ((UInt8.ofNat (0x30 + m % 10)).toNat - 0x30) = m
      rw [hfirst, hlast]
      omega

/-- Only zero is written with a leading zero. -/
theorem naturalText_zero {m : ℕ} (h : (naturalText m).head? = some zero) :
    naturalText m = [zero] := by
  have hzero : ∀ m : ℕ, (naturalText m).head? = some zero → m = 0 := by
    intro m
    induction m using Nat.strongRecOn with
    | _ m ih =>
      intro h
      rcases Nat.lt_or_ge m 10 with hm | hm
      · rw [naturalText_of_lt hm] at h
        have hnat := congrArg UInt8.toNat (Option.some.inj h)
        rw [toNat_digit hm] at hnat
        simpa [zero] using hnat
      · rw [naturalText_of_le hm, List.head?_append_of_ne_nil _ (naturalText_isDigits _).1] at h
        have hdiv := ih (m / 10) (by omega) h
        omega
  rw [hzero m h]
  rfl

theorem Number.ofInt_valid (i : ℤ) : (Number.ofInt i).Valid where
  int := naturalText_isDigits _
  noLeadingZero := naturalText_zero
  frac := by simp [ofInt]
  exp := by simp [ofInt]

/-! ## Trees -/

/-- What is written of a tree does not begin with space or with a closing bracket. -/
theorem dumps_cons (d : Data) : ∃ b r, dumps d = b :: r ∧ isWs b = false ∧ b ≠ rbracket := by
  have hnumber : ∀ m : Number, m.Valid → ∃ b r, m.text = b :: r ∧ isWs b = false ∧ b ≠ rbracket :=
    fun m hm => (IsValue.number ⟨m, hm, rfl⟩).exists_cons
  cases d with
  | null => exact ⟨_, _, rfl, rfl, by decide⟩
  | boolean b => cases b <;> exact ⟨_, _, rfl, rfl, by decide⟩
  | integer i => exact hnumber _ (Number.ofInt_valid i)
  | float x => exact hnumber _ x.valid
  | string s => exact ⟨_, _, rfl, rfl, by decide⟩
  | array elements => exact ⟨_, _, by rw [dumps], rfl, by decide⟩
  | object members => exact ⟨_, _, by rw [dumps], rfl, by decide⟩

theorem skipSpace_dumps (d : Data) (t : Bytes) : skipSpace (dumps d ++ t) = dumps d ++ t := by
  obtain ⟨b, r, hd, hb, -⟩ := dumps_cons d
  rw [hd, List.cons_append, skipSpace_of_not_ws hb]

theorem parseValue_number {m : Number} (hm : m.Valid) {t : Bytes} (ht : Follow t) :
    parseValue (n + 1) (m.text ++ t) = some (m.toValue, t) := by
  obtain ⟨b, r, hb, hstart⟩ := IsNumber.exists_cons ⟨m, hm, rfl⟩
  have hne : ∀ x : UInt8, x ≠ minus → isDigit x = false → b ≠ x := by
    rintro x hx hd rfl
    rcases hstart with hstart | hstart
    · exact hx hstart
    · simp [hd] at hstart
  have hq : b ≠ quote := hne quote (by decide) rfl
  have hlb : b ≠ lbracket := hne lbracket (by decide) rfl
  have hlc : b ≠ lbrace := hne lbrace (by decide) rfl
  have hscan := scanScalar_text hm ht
  rw [hb] at hscan ⊢
  simpa [parseValue, hq, hlb, hlc] using hscan

theorem head_dumpElements (d : Data) (ds : List Data) (t : Bytes) :
    (skipSpace (dumpElements (d :: ds) ++ t)).head? ≠ some rbracket := by
  have hvalue : ∀ y, (skipSpace (dumps d ++ y)).head? ≠ some rbracket := by
    intro y
    obtain ⟨b, r, hd, -, hb⟩ := dumps_cons d
    rw [skipSpace_dumps, hd]
    simpa using hb
  cases ds with
  | nil => exact hvalue t
  | cons d' ds =>
    rw [dumpElements, List.append_assoc]
    exact hvalue _

theorem skipSpace_dumpString (s : Str) (t : Bytes) :
    skipSpace (dumpString s ++ t) = quote :: (s.flatMap escapeChar ++ quote :: t) := by
  rw [dumpString, List.cons_append, skipSpace_of_not_ws rfl, List.append_assoc]
  rfl

theorem head_dumpMembers (m : Str × Data) (ms : List (Str × Data)) (t : Bytes) :
    (skipSpace (dumpMembers (m :: ms) ++ t)).head? ≠ some rbrace := by
  have hkey : ∀ y, (skipSpace (dumpString m.1 ++ y)).head? ≠ some rbrace := by
    intro y
    rw [skipSpace_dumpString]
    simp [quote, rbrace]
  cases ms with
  | nil =>
    rw [dumpMembers, List.append_assoc]
    exact hkey _
  | cons m' ms =>
    rw [dumpMembers, List.append_assoc]
    exact hkey _

/-- With fuel `n`, what is written of a tree is read back, up to what follows it. -/
def ValueRead (n : ℕ) : Prop :=
  ∀ d : Data, d.IsPaired → (dumps d).length ≤ n → ∀ t, Follow t →
    parseValue n (dumps d ++ t) = some (d.toValue, t)

/-- The same for the elements of an array. -/
def ElementsRead (n : ℕ) : Prop :=
  ∀ d ds, ElementsPaired (d :: ds) → (dumpElements (d :: ds)).length < n → ∀ t,
    parseElements n (dumpElements (d :: ds) ++ rbracket :: t) = some (toValues (d :: ds), t)

/-- The same for the members of an object. -/
def MembersRead (n : ℕ) : Prop :=
  ∀ m ms, MembersPaired (m :: ms) → (dumpMembers (m :: ms)).length < n → ∀ t,
    parseMembers n (dumpMembers (m :: ms) ++ rbrace :: t) = some (toMembers (m :: ms), t)

theorem valueRead_succ (ihe : ElementsRead n) (ihm : MembersRead n) : ValueRead (n + 1) := by
  intro d hpaired hd t ht
  cases d with
  | null => simp [dumps, Data.toValue, nullText, parseValue, scanScalar, quote, lbracket, lbrace]
  | boolean b =>
    cases b <;> simp [dumps, Data.toValue, nullText, trueText, falseText, parseValue, scanScalar,
      quote, lbracket, lbrace]
  | integer i => exact parseValue_number (Number.ofInt_valid i) ht
  | float x => exact parseValue_number x.valid ht
  | string s =>
    have hscan := scanString_dumpString hpaired t
    simp [dumps, dumpString, Data.toValue, parseValue, hscan]
  | array elements =>
    cases elements with
    | nil =>
      have hsk := skipSpace_of_not_ws (b := rbracket) rfl t
      simp [dumps, dumpElements, Data.toValue, toValues, parseValue, hsk, quote, lbracket]
    | cons d ds =>
      have hrest := ihe d ds hpaired (by simp [dumps] at hd; omega) t
      have hhead := head_dumpElements d ds (rbracket :: t)
      simp [dumps, Data.toValue, parseValue, hrest, hhead, quote, lbracket]
  | object members =>
    cases members with
    | nil =>
      have hsk := skipSpace_of_not_ws (b := rbrace) rfl t
      simp [dumps, dumpMembers, Data.toValue, toMembers, parseValue, hsk, quote, lbracket, lbrace]
    | cons m ms =>
      have hrest := ihm m ms hpaired (by simp [dumps] at hd; omega) t
      have hhead := head_dumpMembers m ms (rbrace :: t)
      simp [dumps, Data.toValue, parseValue, hrest, hhead, quote, lbracket, lbrace]

theorem elementsRead_succ (ihv : ValueRead n) (ihe : ElementsRead n) : ElementsRead (n + 1) := by
  intro d ds hpaired hd t
  cases ds with
  | nil =>
    rw [dumpElements] at hd
    have hval := ihv d hpaired.1 (by omega) (rbracket :: t) (follow_rbracket t)
    have hsk := skipSpace_of_not_ws (b := rbracket) rfl t
    simp [dumpElements, toValues, parseElements, skipSpace_dumps, hval, hsk]
  | cons d' ds =>
    simp only [dumpElements, List.length_append, List.length_cons] at hd
    have hval := ihv d hpaired.1 (by omega) (comma :: (dumpElements (d' :: ds) ++ rbracket :: t))
      (follow_comma _)
    have hrest := ihe d' ds hpaired.2 (by omega) t
    have hsk := skipSpace_of_not_ws (b := comma) rfl (dumpElements (d' :: ds) ++ rbracket :: t)
    have hne : comma ≠ rbracket := by decide
    rw [dumpElements, List.append_assoc, List.cons_append, toValues]
    simp [parseElements, skipSpace_dumps, hval, hsk, hrest, hne]

/-- A member up to its value; `z` is what comes after it. -/
theorem parseMembers_dumpString {k : Str} {y r t : Bytes} {v : Value} {z : UInt8}
    (hk : IsPaired k) (hy : skipSpace y = y) (hval : parseValue n y = some (v, r))
    (hz : skipSpace r = z :: t) :
    parseMembers (n + 1) (dumpString k ++ colon :: y) =
      if z = rbrace then some ([(utf8 k, v)], t)
      else if z = comma then (parseMembers n t).bind fun m => some ((utf8 k, v) :: m.1, m.2)
      else none := by
  have hkey := scanString_dumpString hk (colon :: y)
  have hcolon := skipSpace_of_not_ws (b := colon) rfl y
  simp [parseMembers, expect, skipSpace_dumpString, hkey, hcolon, hy, hval, hz]

theorem membersRead_succ (ihv : ValueRead n) (ihm : MembersRead n) : MembersRead (n + 1) := by
  rintro ⟨k, d⟩ ms ⟨hk, hvalue, hpaired⟩ hd t
  cases ms with
  | nil =>
    simp only [dumpMembers, List.length_append, List.length_cons] at hd
    have hval := ihv d hvalue (by omega) (rbrace :: t) (follow_rbrace t)
    rw [dumpMembers, List.append_assoc, List.cons_append,
      parseMembers_dumpString hk (skipSpace_dumps d _) hval (skipSpace_of_not_ws rfl t), if_pos rfl]
    rfl
  | cons m ms =>
    simp only [dumpMembers, List.length_append, List.length_cons] at hd
    have hval := ihv d hvalue (by omega) (comma :: (dumpMembers (m :: ms) ++ rbrace :: t))
      (follow_comma _)
    have hrest := ihm m ms hpaired (by omega) t
    have hne : comma ≠ rbrace := by decide
    rw [dumpMembers, List.append_assoc, List.cons_append, List.append_assoc, List.cons_append,
      parseMembers_dumpString hk (skipSpace_dumps d _) hval (skipSpace_of_not_ws rfl _), if_neg hne,
      if_pos rfl, hrest, toMembers]
    rfl

/-- By induction on the fuel, for the three functions together. -/
theorem dumps_read (n : ℕ) : ValueRead n ∧ ElementsRead n ∧ MembersRead n := by
  induction n with
  | zero =>
    refine ⟨?_, ?_, ?_⟩
    · intro d _ hd
      obtain ⟨b, r, h, -, -⟩ := dumps_cons d
      simp [h] at hd
    · intro d ds _ hd
      omega
    · intro m ms _ hd
      omega
  | succ n ih =>
    obtain ⟨ihv, ihe, ihm⟩ := ih
    exact ⟨valueRead_succ ihe ihm, elementsRead_succ ihv ihe, membersRead_succ ihv ihm⟩

/-- What is written of a tree is read back as its value. -/
theorem parse_dumps {d : Data} (hd : d.IsPaired) : parse (dumps d) = some d.toValue := by
  have hval := (dumps_read ((dumps d).length + 1)).1 d hd (by omega) [] (by simp [Follow])
  have hsk := skipSpace_dumps d []
  rw [List.append_nil] at hval hsk
  have hnil : skipSpace [] = [] := rfl
  simp [parse, hsk, hval, hnil]

/-! ## Closing braces -/

theorem rbrace_ne_hexDigit : ∀ {d : ℕ}, d < 16 → rbrace ≠ hexDigit d := by
  decide

theorem rbrace_not_mem_unicodeEscape {u : ℕ} (hu : u < 65536) : rbrace ∉ unicodeEscape u := by
  have h₁ := rbrace_ne_hexDigit (d := u / 4096) (by omega)
  have h₂ := rbrace_ne_hexDigit (d := u / 256 % 16) (by omega)
  have h₃ := rbrace_ne_hexDigit (d := u / 16 % 16) (by omega)
  have h₄ := rbrace_ne_hexDigit (d := u % 16) (by omega)
  have hletter : rbrace ≠ backslash ∧ rbrace ≠ 0x75 := by decide
  simp [unicodeEscape, hletter, h₁, h₂, h₃, h₄]

/-- A closing brace is written as it is, and no other character is written with one. -/
theorem rbrace_mem_escapeChar {c : CodePoint} : rbrace ∈ escapeChar c ↔ c = .ofChar '\x7d' := by
  have hbound := c.bound
  have hc : c = .ofChar '\x7d' ↔ c.val = 0x7D := by
    rw [CodePoint.mk.injEq]
    rfl
  rw [hc]
  unfold escapeChar
  split_ifs with h22 h5C h0A h0D h09 h0C h08 hplain hplane
  · exact iff_of_false (by decide) (by omega)
  · exact iff_of_false (by decide) (by omega)
  · exact iff_of_false (by decide) (by omega)
  · exact iff_of_false (by decide) (by omega)
  · exact iff_of_false (by decide) (by omega)
  · exact iff_of_false (by decide) (by omega)
  · exact iff_of_false (by decide) (by omega)
  · rw [List.mem_singleton, ← UInt8.toNat_inj, UInt8.toNat_ofNat', Nat.mod_eq_of_lt (by omega)]
    exact eq_comm
  · exact iff_of_false (rbrace_not_mem_unicodeEscape hplane) (by omega)
  · refine iff_of_false ?_ (by omega)
    rw [List.mem_append, not_or]
    exact ⟨rbrace_not_mem_unicodeEscape (by omega), rbrace_not_mem_unicodeEscape (by omega)⟩

theorem rbrace_mem_dumpString {s : Str} : rbrace ∈ dumpString s ↔ .ofChar '\x7d' ∈ s := by
  have hquote : rbrace ≠ quote := by decide
  simp [dumpString, hquote, rbrace_mem_escapeChar]

theorem rbrace_not_mem_digits {ds : Bytes} (hds : IsDigits ds) : rbrace ∉ ds :=
  fun h => absurd (hds.2 _ h) (by decide)

theorem rbrace_not_mem_number {m : Number} (hm : m.Valid) : rbrace ∉ m.text := by
  have hsign : rbrace ∉ (if m.neg then [minus] else []) := by
    split_ifs
    · decide
    · exact List.not_mem_nil
  have hfrac : rbrace ∉ fracText m.frac := by
    cases h : m.frac with
    | none => exact List.not_mem_nil
    | some ds =>
      rw [fracText, List.mem_cons, not_or]
      exact ⟨by decide, rbrace_not_mem_digits (hm.frac ds h)⟩
  have hexp : rbrace ∉ expText m.exp := by
    rcases h : m.exp with _ | ⟨e, sign, ds⟩
    · exact List.not_mem_nil
    · obtain ⟨he, hs, hds⟩ := hm.exp e sign ds h
      rw [expText, List.mem_cons, List.mem_append, not_or, not_or]
      refine ⟨?_, ?_, rbrace_not_mem_digits hds⟩
      · rcases he with rfl | rfl <;> decide
      · rcases hs with rfl | rfl | rfl <;> decide
  rw [Number.text, List.mem_append, List.mem_append, List.mem_append]
  exact not_or.mpr ⟨hsign, not_or.mpr ⟨rbrace_not_mem_digits hm.int, not_or.mpr ⟨hfrac, hexp⟩⟩⟩

end Json
