import Scriptor.Framing
import Mathlib.Tactic.Common

/-!
# Scanning finds the one layout of a sequence

Every sequence has exactly one valid layout (`existsUnique_layout`), and `scan` computes it
(`scan_assemble`, `assemble_scan`, `scan_valid`). Scanning composes over concatenation
(`scan_append`), and a remainder without an opening delimiter changes no later frame
(`frames_append_of_not_mem`), which is what resynchronisation rests on.
-/

namespace Framing

variable {α : Type*} {o c : α}

/-! ## Splitting at the first occurrence -/

/-- Cutting at a symbol that is not in the first list leaves that list in front of the cut. -/
theorem append_cut {a : α} {b y g t : List α} (hb : a ∉ b) (h : b ++ y = g ++ a :: t) :
    ∃ g', g = b ++ g' ∧ y = g' ++ a :: t := by
  induction b generalizing g with
  | nil => exact ⟨g, rfl, h⟩
  | cons x b ih =>
    simp only [List.mem_cons, not_or] at hb
    cases g with
    | nil => simp at h; exact absurd h.1.symm hb.1
    | cons x' g =>
      simp only [List.cons_append, List.cons.injEq] at h
      obtain ⟨rfl, h⟩ := h
      obtain ⟨g', rfl, hy⟩ := ih hb.2 h
      exact ⟨g', rfl, hy⟩

/-! ## Sequences without a complete frame -/

theorem noFrame_of_not_mem {r : List α} (ho : o ∉ r) : NoFrame o c r := by
  intro g t h
  exact absurd (by simp [h]) ho

theorem noFrame_of_not_mem_close {r : List α} (hc : c ∉ r) : NoFrame o c r := by
  intro g t h hmem
  exact hc (by simp [h, hmem])

theorem Pending.noFrame (s : Pending o c) : NoFrame o c s.toList := by
  cases s with
  | gap g hg => exact noFrame_of_not_mem hg
  | opened g b hg hb =>
    intro g' t h
    obtain ⟨g'', rfl, ht⟩ := append_cut hg h
    cases g'' with
    | nil => simp at ht; exact ht ▸ hb
    | cons x g'' =>
      simp only [List.cons_append, List.cons.injEq] at ht
      intro hc
      exact hb (by rw [ht.2]; simp [hc])

/-- A sequence without a complete frame is what some pending state stands for: the scanner never
has to remember more. -/
theorem NoFrame.exists_pending {r : List α} (h : NoFrame o c r) :
    ∃ s : Pending o c, s.toList = r := by
  by_cases ho : o ∈ r
  · obtain ⟨g, b, hr, hg⟩ := List.eq_append_cons_of_mem ho
    exact ⟨.opened g b hg (h g b hr), hr.symm⟩
  · exact ⟨.gap r ho, rfl⟩

/-- Without a complete frame there is a gap, and then nothing or a frame that is still open. -/
theorem NoFrame.exists_gap {r : List α} (h : NoFrame o c r) :
    ∃ g u, r = g ++ u ∧ o ∉ g ∧ (u = [] ∨ ∃ b, u = o :: b ∧ c ∉ b) := by
  obtain ⟨s, rfl⟩ := h.exists_pending
  cases s with
  | gap g hg => exact ⟨g, [], (List.append_nil g).symm, hg, .inl rfl⟩
  | opened g b hg hb => exact ⟨g, o :: b, rfl, hg, .inr ⟨b, rfl, hb⟩⟩

/-- A sequence that ends in the closing delimiter and has no complete frame has no opening
delimiter at all. -/
theorem NoFrame.not_mem_of_getLast {r : List α} (hoc : o ≠ c) (h : NoFrame o c (r ++ [c])) :
    o ∉ r ++ [c] := by
  intro ho
  have hor : o ∈ r := by simpa [hoc] using ho
  obtain ⟨g, t, rfl⟩ := List.append_of_mem hor
  exact h g (t ++ [c]) (by simp) (by simp)

section Scan

variable [DecidableEq α]

/-! ## One symbol -/

/-- Reading a symbol loses nothing: what was pending and the symbol are the completed piece, if
there is one, and what is pending now. -/
theorem Pending.push_text (s : Pending o c) (a : α) :
    ((s.push a).1.toList.map (Piece.text o c)).flatten ++ (s.push a).2.toList = s.toList ++ [a] := by
  cases s with
  | gap g hg =>
    by_cases h : a = o <;> simp [Pending.push, h, Pending.toList]
  | opened g b hg hb =>
    by_cases h : a = c <;>
      simp [Pending.push, h, Pending.toList, Pending.empty, Piece.text, Piece.frame]

theorem Pending.push_valid (s : Pending o c) (a : α) : ∀ p ∈ (s.push a).1, p.Valid o c := by
  cases s with
  | gap g hg => by_cases h : a = o <;> simp [Pending.push, h]
  | opened g b hg hb => by_cases h : a = c <;> simp [Pending.push, h, Piece.Valid, hg, hb]

/-! ## Scanning from a pending state -/

theorem Pending.scan_cons (s : Pending o c) (a : α) (x : List α) :
    s.scan (a :: x) =
      ((s.push a).1.toList ++ ((s.push a).2.scan x).1, ((s.push a).2.scan x).2) := rfl

theorem Pending.scan_append (s : Pending o c) (x y : List α) :
    s.scan (x ++ y) =
      ((s.scan x).1 ++ ((s.scan x).2.scan y).1, ((s.scan x).2.scan y).2) := by
  induction x generalizing s with
  | nil => rfl
  | cons a x ih => simp only [List.cons_append, scan_cons, ih, List.append_assoc]

theorem Pending.scan_text (s : Pending o c) (x : List α) :
    ((s.scan x).1.map (Piece.text o c)).flatten ++ (s.scan x).2.toList = s.toList ++ x := by
  induction x generalizing s with
  | nil => simp [scan]
  | cons a x ih =>
    rw [scan_cons, List.map_append, List.flatten_append, List.append_assoc, ih,
      ← List.append_assoc, push_text, List.append_assoc, List.singleton_append]

theorem Pending.scan_valid (s : Pending o c) (x : List α) : ∀ p ∈ (s.scan x).1, p.Valid o c := by
  induction x generalizing s with
  | nil => simp [scan]
  | cons a x ih =>
    intro p hp
    rw [scan_cons, List.mem_append, Option.mem_toList] at hp
    rcases hp with hp | hp
    · exact s.push_valid a p hp
    · exact ih _ p hp

/-- Inside a gap, symbols other than the opening delimiter are skipped. -/
theorem Pending.scan_gap {g : List α} (hg : o ∉ g) (x : List α) (hx : o ∉ g ++ x) :
    (Pending.gap g hg : Pending o c).scan x = ([], .gap (g ++ x) hx) := by
  induction x generalizing g with
  | nil => simp [scan]
  | cons a x ih =>
    have ha : a ≠ o := by rintro rfl; simp at hx
    have hg' : o ∉ (g ++ [a]) ++ x := by simpa using hx
    rw [scan_cons]
    simp only [push, ha, dif_neg, not_false_iff]
    rw [ih _ hg']
    simp

/-- Inside a frame, symbols other than the closing delimiter belong to the body. -/
theorem Pending.scan_opened {g b : List α} (hg : o ∉ g) (hb : c ∉ b) (x : List α)
    (hx : c ∉ b ++ x) :
    (Pending.opened g b hg hb : Pending o c).scan x = ([], .opened g (b ++ x) hg hx) := by
  induction x generalizing b with
  | nil => simp [scan]
  | cons a x ih =>
    have ha : a ≠ c := by rintro rfl; simp at hx
    have hb' : c ∉ (b ++ [a]) ++ x := by simpa using hx
    rw [scan_cons]
    simp only [push, ha, dif_neg, not_false_iff]
    rw [ih _ hb']
    simp

/-- Scanning again what is pending leads back to it: a scanner may keep the symbols instead of its
state and start over at every call. -/
theorem Pending.scan_toList (s : Pending o c) : (Pending.empty o c).scan s.toList = ([], s) := by
  cases s with
  | gap g hg => exact scan_gap _ g hg
  | opened g b hg hb =>
    have hgap : (Pending.empty o c).scan g = ([], .gap g hg) := scan_gap _ g hg
    have hb' : c ∉ [] ++ b := hb
    rw [toList, scan_append, hgap, scan_cons]
    simp only [push, dif_pos]
    rw [scan_opened _ _ b hb']
    simp

/-! ## Layouts -/

theorem assemble_scan (x : List α) : (scan o c x).assemble o c = x :=
  (Pending.empty o c).scan_text x

theorem scan_valid (x : List α) : (scan o c x).Valid o c :=
  ⟨(Pending.empty o c).scan_valid x, Pending.noFrame _⟩

/-- Scanning a concatenation is scanning the first part and then its remainder with the second. -/
theorem scan_append (x y : List α) :
    scan o c (x ++ y) =
      ⟨(scan o c x).pieces ++ (scan o c ((scan o c x).rest ++ y)).pieces,
        (scan o c ((scan o c x).rest ++ y)).rest⟩ := by
  simp only [scan, Pending.scan_append, Pending.scan_toList, List.nil_append]

theorem scan_of_noFrame {r : List α} (h : NoFrame o c r) : scan o c r = ⟨[], r⟩ := by
  obtain ⟨s, rfl⟩ := h.exists_pending
  simp only [scan, Pending.scan_toList]

/-- A valid piece at the front is the first piece of the layout. -/
theorem scan_piece {p : Piece α} (hp : p.Valid o c) (x : List α) :
    scan o c (p.text o c ++ x) = ⟨p :: (scan o c x).pieces, (scan o c x).rest⟩ := by
  obtain ⟨g, b⟩ := p
  obtain ⟨hg, hb⟩ := hp
  have hopen : (Pending.empty o c).scan (g ++ o :: b) = ([], .opened g b hg hb) :=
    (Pending.opened g b hg hb).scan_toList
  have htext : Piece.text o c ⟨g, b⟩ ++ x = (g ++ o :: b) ++ c :: x := by
    simp [Piece.text, Piece.frame]
  simp only [scan]
  rw [htext, Pending.scan_append, hopen, Pending.scan_cons]
  simp only [Pending.push, dif_pos, Option.toList_some, List.nil_append, List.singleton_append]

theorem scan_assemble {d : Layout α} (hd : d.Valid o c) : scan o c (d.assemble o c) = d := by
  obtain ⟨ps, r⟩ := d
  obtain ⟨hps, hr⟩ := hd
  induction ps with
  | nil => simpa [Layout.assemble] using scan_of_noFrame hr
  | cons p ps ih =>
    have hps' : ∀ q ∈ ps, q.Valid o c := fun q hq => hps q (List.mem_cons_of_mem _ hq)
    have hcons : Layout.assemble o c ⟨p :: ps, r⟩ = p.text o c ++ Layout.assemble o c ⟨ps, r⟩ := by
      simp [Layout.assemble]
    rw [hcons, scan_piece (hps p List.mem_cons_self), ih hps' hr]

/-- The grammar is unambiguous and total: every sequence has exactly one valid layout. -/
theorem existsUnique_layout (o c : α) (x : List α) :
    ∃! d : Layout α, d.Valid o c ∧ d.assemble o c = x := by
  refine ⟨scan o c x, ⟨scan_valid x, assemble_scan x⟩, ?_⟩
  rintro d ⟨hd, rfl⟩
  exact (scan_assemble hd).symm

/-! ## Frames -/

theorem frames_append (x y : List α) :
    frames o c (x ++ y) = frames o c x ++ frames o c ((scan o c x).rest ++ y) := by
  rw [frames, scan_append, List.map_append]
  rfl

theorem frames_of_noFrame {r : List α} (h : NoFrame o c r) : frames o c r = [] := by
  simp [frames, scan_of_noFrame h]

/-- A gap in front of a sequence changes none of its frames. -/
theorem frames_append_of_not_mem {g : List α} (hg : o ∉ g) (x : List α) :
    frames o c (g ++ x) = frames o c x := by
  obtain ⟨hps, hr⟩ := scan_valid (o := o) (c := c) x
  rw [← assemble_scan (o := o) (c := c) x]
  generalize scan o c x = d at hps hr
  obtain ⟨ps, r⟩ := d
  cases ps with
  | nil =>
    have hgr : NoFrame o c (g ++ r) := by
      intro g' t h
      obtain ⟨g'', rfl, ht⟩ := append_cut hg h
      exact hr g'' t ht
    simp only [Layout.assemble, List.map_nil, List.flatten_nil, List.nil_append]
    rw [frames_of_noFrame hgr, frames_of_noFrame hr]
  | cons p ps =>
    obtain ⟨g', b⟩ := p
    have hp := hps _ List.mem_cons_self
    have hp' : (⟨g ++ g', b⟩ : Piece α).Valid o c := ⟨by simp [hg, hp.1], hp.2⟩
    have htext : Layout.assemble o c ⟨⟨g', b⟩ :: ps, r⟩ =
        Piece.text o c ⟨g', b⟩ ++ Layout.assemble o c ⟨ps, r⟩ := by simp [Layout.assemble]
    have htext' : g ++ Layout.assemble o c ⟨⟨g', b⟩ :: ps, r⟩ =
        Piece.text o c ⟨g ++ g', b⟩ ++ Layout.assemble o c ⟨ps, r⟩ := by
      simp [Layout.assemble, Piece.text, Piece.frame]
    rw [htext', htext, frames, frames, scan_piece hp, scan_piece hp']
    rfl

/-- A frame at the front of a sequence is its first frame. -/
theorem frames_frame {b : List α} (hb : c ∉ b) (x : List α) :
    frames o c (o :: (b ++ c :: x)) = (o :: (b ++ [c])) :: frames o c x := by
  have hp : (⟨[], b⟩ : Piece α).Valid o c := ⟨List.not_mem_nil, hb⟩
  have htext : o :: (b ++ c :: x) = Piece.text o c ⟨[], b⟩ ++ x := by
    simp [Piece.text, Piece.frame]
  rw [htext, frames, scan_piece hp]
  rfl

/-- Every symbol completes at most one frame. -/
theorem Pending.scan_length (s : Pending o c) (x : List α) : (s.scan x).1.length ≤ x.length := by
  induction x generalizing s with
  | nil => simp [Pending.scan]
  | cons a x ih =>
    have htail := ih (s.push a).2
    have hone : (s.push a).1.toList.length ≤ 1 := by cases (s.push a).1 <;> simp
    rw [scan_cons, List.length_append, List.length_cons]
    omega

/-- A remainder completes no frame by itself. -/
theorem frames_length_le {r : List α} (h : NoFrame o c r) (x : List α) :
    (frames o c (r ++ x)).length ≤ x.length := by
  obtain ⟨s, rfl⟩ := h.exists_pending
  have hscan : (Pending.empty o c).scan (s.toList ++ x) = s.scan x := by
    rw [Pending.scan_append, s.scan_toList]
    rfl
  rw [frames, List.length_map]
  show ((Pending.empty o c).scan (s.toList ++ x)).1.length ≤ x.length
  rw [hscan]
  exact s.scan_length x

/-- The remainder of a sequence is a suffix of it. -/
theorem rest_suffix (x : List α) : (scan o c x).rest <:+ x :=
  ⟨_, assemble_scan (o := o) (c := c) x⟩

/-- A sequence that ends in the closing delimiter leaves no opening delimiter behind. -/
theorem not_mem_rest (hoc : o ≠ c) (x : List α) : o ∉ (scan o c (x ++ [c])).rest := by
  have hr := (scan_valid (o := o) (c := c) (x ++ [c])).2
  obtain ⟨y, hy⟩ := rest_suffix (o := o) (c := c) (x ++ [c])
  generalize (scan o c (x ++ [c])).rest = r at hr hy
  rcases List.eq_nil_or_concat r with rfl | ⟨r', a, rfl⟩
  · exact List.not_mem_nil
  · rw [List.concat_eq_append] at *
    rw [← List.append_assoc] at hy
    obtain ⟨-, ha⟩ := List.append_inj' hy rfl
    obtain rfl : a = c := by simpa using ha
    exact hr.not_mem_of_getLast hoc

/-- After a closing delimiter, the frames of what follows are its own. -/
theorem frames_resync (hoc : o ≠ c) (x y : List α) :
    frames o c ((x ++ [c]) ++ y) = frames o c (x ++ [c]) ++ frames o c y := by
  rw [frames_append, frames_append_of_not_mem (not_mem_rest hoc x)]

end Scan

end Framing
