import Scriptor.Processor
import Scriptor.Proofs.ElementProofs
import Scriptor.Proofs.FramingProofs
import Scriptor.Spans

/-!
# The processor refines the scanner

The processor keeps the bytes of the unfinished frame and searches them again at every call; the
scanner of `Scriptor.Framing` reads every byte once. Both find the same frames: a call drains exactly
the frames of the buffer and leaves its remainder (`drain_eq`), and any number of calls finds the
frames of everything read (`feed_eq`).

Elements are compared up to the times read from the clock. That this is all the clock does is
`decode_forgetClock`.
-/

namespace Scriptor

open Framing Spans

/-! ## The clock -/

/-- The clock decides nothing about an element but the time of one whose log gives none. -/
theorem decode_forgetClock (P : Platform) (frame : Bytes) (clock clock' : Clock) :
    (decode P frame clock).1.forgetClock = (decode P frame clock').1.forgetClock := by
  have h := fromJson_forgetClock P frame clock clock'
  unfold decode
  rcases hc : Element.fromJson P frame clock with ⟨r, c⟩
  rcases hc' : Element.fromJson P frame clock' with ⟨r', c'⟩
  rw [hc, hc'] at h
  cases r with
  | error e =>
    cases r' with
    | error e' =>
      obtain rfl : e = e' := by simpa [Except.map] using h
      rfl
    | ok x' => simp [Except.map] at h
  | ok x =>
    cases r' with
    | error e' => simp [Except.map] at h
    | ok x' => simpa [Except.map] using h

theorem decodeAll_forgetClock (P : Platform) (frames : List Bytes) (clock clock' : Clock) :
    (decodeAll P frames clock).1.map Element.forgetClock =
      frames.map fun f => (decode P f clock').1.forgetClock := by
  induction frames generalizing clock with
  | nil => rfl
  | cons f fs ih =>
    simp only [decodeAll, List.map_cons, ih]
    rw [decode_forgetClock P f clock clock']

theorem decodeAll_append (P : Platform) (fs fs' : List Bytes) (clock : Clock) :
    decodeAll P (fs ++ fs') clock =
      ((decodeAll P fs clock).1 ++ (decodeAll P fs' (decodeAll P fs clock).2).1,
        (decodeAll P fs' (decodeAll P fs clock).2).2) := by
  induction fs generalizing clock with
  | nil => rfl
  | cons f fs ih => simp only [List.cons_append, decodeAll, ih]

/-! ## Searching -/

theorem start_ne_stop : start ≠ stop := by decide

namespace Processor

/-- Without a complete frame in the buffer nothing is found. -/
theorem findOne_of_noFrame (P : Platform) {p : Processor} (clock : Clock)
    (h : NoFrame start stop p.mCurrent) : p.findOne P clock = none := by
  obtain ⟨s, hs⟩ := h.exists_pending
  unfold findOne
  rw [← hs]
  cases s with
  | gap g hg => rw [Pending.toList, dropWhile_bne_eq_nil hg]
  | opened g b hg hb =>
    rw [Pending.toList, dropWhile_bne hg]
    simp only
    rw [dropWhile_bne_eq_nil hb]

/-- The first frame of the grammar is the one found; the gap before it is erased with it. -/
theorem findOne_of_piece (P : Platform) {q : Piece UInt8} (hq : q.Valid start stop) (x : Bytes)
    (clock : Clock) :
    findOne P ⟨q.text start stop ++ x⟩ clock =
      some ((decode P (q.frame start stop) clock).1, ⟨x⟩,
        (decode P (q.frame start stop) clock).2) := by
  obtain ⟨g, b⟩ := q
  obtain ⟨hg, hb⟩ := hq
  have htext : Piece.text start stop ⟨g, b⟩ ++ x = g ++ start :: (b ++ stop :: x) := by
    simp [Piece.text, Piece.frame]
  unfold findOne
  simp only [htext]
  rw [dropWhile_bne hg]
  simp only
  rw [dropWhile_bne hb, takeWhile_bne hb]
  rfl

/-- One call of `operator()` after the bytes are appended: it decodes the frames of the buffer, each
from its own bytes alone, and leaves the remainder. -/
theorem drain_eq (P : Platform) (p : Processor) (clock : Clock) :
    drain P p clock =
      ⟨(decodeAll P (frames start stop p.mCurrent) clock).1, ⟨(scan start stop p.mCurrent).rest⟩,
        (decodeAll P (frames start stop p.mCurrent) clock).2⟩ := by
  obtain ⟨x⟩ := p
  have hx := scan_valid (o := start) (c := stop) x
  obtain ⟨⟨ps, r⟩, hd⟩ : ∃ d, d = scan start stop x := ⟨_, rfl⟩
  have htext := assemble_scan (o := start) (c := stop) x
  simp only [frames, ← hd] at hx htext ⊢
  clear hd
  subst htext
  induction ps generalizing clock with
  | nil =>
    have hnone : findOne P ⟨Layout.assemble start stop ⟨[], r⟩⟩ clock = none :=
      findOne_of_noFrame P clock (by simpa [Layout.assemble] using hx.2)
    rw [drain]
    split
    · simp [Layout.assemble, decodeAll]
    · rename_i h
      rw [hnone] at h
      simp at h
  | cons q ps ih =>
    have hq := hx.1 q List.mem_cons_self
    have hcons : Layout.assemble start stop ⟨q :: ps, r⟩ =
        q.text start stop ++ Layout.assemble start stop ⟨ps, r⟩ := by simp [Layout.assemble]
    have hsome := findOne_of_piece P hq (Layout.assemble start stop ⟨ps, r⟩) clock
    rw [← hcons] at hsome
    rw [drain]
    split
    · rename_i h
      rw [hsome] at h
      simp at h
    · rename_i e p' clock' h
      rw [hsome] at h
      simp only [Option.some.injEq, Prod.mk.injEq] at h
      obtain ⟨rfl, rfl, rfl⟩ := h
      rw [ih _ ⟨fun q hq => hx.1 q (List.mem_cons_of_mem _ hq), hx.2⟩]
      rfl

theorem call_eq (P : Platform) (p : Processor) (data : Bytes) (clock : Clock) :
    p.call P data clock =
      ⟨(decodeAll P (frames start stop (p.mCurrent ++ data)) clock).1,
        ⟨(scan start stop (p.mCurrent ++ data)).rest⟩,
        (decodeAll P (frames start stop (p.mCurrent ++ data)) clock).2⟩ := drain_eq P _ clock

/-! ## Any number of calls -/

/-- Calls on a list of chunks find the frames of the retained bytes and all chunks together. -/
theorem feed_eq (P : Platform) {p : Processor} (hp : NoFrame start stop p.mCurrent)
    (chunks : List Bytes) (clock : Clock) :
    feed P p chunks clock =
      ⟨(decodeAll P (frames start stop (p.mCurrent ++ chunks.flatten)) clock).1,
        ⟨(scan start stop (p.mCurrent ++ chunks.flatten)).rest⟩,
        (decodeAll P (frames start stop (p.mCurrent ++ chunks.flatten)) clock).2⟩ := by
  induction chunks generalizing p clock with
  | nil =>
    simp only [feed, List.flatten_nil, List.append_nil, frames, scan_of_noFrame hp, List.map_nil,
      decodeAll]
  | cons data chunks ih =>
    have hrest : NoFrame start stop
        (⟨(scan start stop (p.mCurrent ++ data)).rest⟩ : Processor).mCurrent := (scan_valid _).2
    rw [feed, call_eq]
    simp only
    rw [ih hrest, List.flatten_cons, ← List.append_assoc,
      frames_append (p.mCurrent ++ data) chunks.flatten, decodeAll_append,
      scan_append (p.mCurrent ++ data) chunks.flatten]

theorem noFrame_fresh : NoFrame start stop ({} : Processor).mCurrent :=
  noFrame_of_not_mem List.not_mem_nil

/-- Between two calls the buffer holds no complete frame, and may be anything else. -/
theorem reachable_iff {P : Platform} {p : Processor} :
    p.Reachable P ↔ NoFrame start stop p.mCurrent := by
  constructor
  · rintro ⟨chunks, clock, rfl⟩
    rw [feed_eq P noFrame_fresh]
    exact (scan_valid _).2
  · intro hp
    refine ⟨[p.mCurrent], fun _ => 0, ?_⟩
    have hfeed := feed_eq P noFrame_fresh [p.mCurrent] fun _ => 0
    simp only [List.flatten_singleton, List.nil_append, scan_of_noFrame hp] at hfeed
    rw [hfeed]

end Processor

end Scriptor
