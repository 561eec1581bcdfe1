import Scriptor.Proofs.ProcessorProofs

/-!
# What the processor keeps between two calls

`find_one` erases from its buffer only together with a complete frame, so the buffer holds
everything that came after the last complete frame: the unfinished log, and in front of it whatever
lay between the two (`retained_eq`). Such bytes stay until the next log is complete.
-/

namespace Scriptor

open Framing Processor

/-- Nothing, or a log that is still to be closed. -/
def Unfinished (u : Bytes) : Prop := u = [] ∨ u.head? = some start ∧ stop ∉ u

theorem unfinished_of_opened {b : Bytes} (hb : stop ∉ b) : Unfinished (start :: b) := by
  refine .inr ⟨rfl, ?_⟩
  rw [List.mem_cons, not_or]
  exact ⟨start_ne_stop.symm, hb⟩

/-- What does not begin a log is not part of an unfinished one. -/
theorem unfinished_append_iff {g u : Bytes} (hg : start ∉ g) (hu : Unfinished u) :
    Unfinished (g ++ u) ↔ g = [] := by
  constructor
  · rintro (hnil | ⟨hhead, -⟩)
    · exact (List.append_eq_nil_iff.mp hnil).1
    · cases g with
      | nil => rfl
      | cons a g =>
        obtain rfl : a = start := by simpa using hhead
        exact absurd List.mem_cons_self hg
  · rintro rfl
    exact hu

/-- After any calls, what is kept is what follows the last complete frame of the stream: bytes
outside of any log, then nothing or one unfinished log. It is no more than the unfinished log
exactly if no bytes came between that and the last complete frame. -/
theorem retained_eq (P : Platform) (chunks : List Bytes) (clock : Clock) :
    ∃ d : Layout UInt8, d.Valid start stop ∧ d.assemble start stop = chunks.flatten ∧
      (feed P {} chunks clock).processor.mCurrent = d.rest ∧
      ∃ g u, d.rest = g ++ u ∧ start ∉ g ∧ Unfinished u ∧
        (Unfinished (feed P {} chunks clock).processor.mCurrent ↔ g = []) := by
  have hvalid := scan_valid (o := start) (c := stop) chunks.flatten
  have hkept : (feed P {} chunks clock).processor.mCurrent =
      (scan start stop chunks.flatten).rest := by
    rw [feed_eq P noFrame_fresh]
    rfl
  have hopen : NoFrame start stop (scan start stop chunks.flatten).rest := hvalid.2
  obtain ⟨g, u, hrest, hg, hu⟩ := hopen.exists_gap
  have hu' : Unfinished u := by
    rcases hu with rfl | ⟨b, rfl, hb⟩
    · exact .inl rfl
    · exact unfinished_of_opened hb
  refine ⟨scan start stop chunks.flatten, hvalid, assemble_scan _, hkept, g, u, hrest, hg, hu', ?_⟩
  rw [hkept, hrest]
  exact unfinished_append_iff hg hu'

/-- The newline after a log is kept. -/
theorem separator_retained :
    ¬ ∀ (P : Platform) (chunks : List Bytes) (clock : Clock),
      (feed P {} chunks clock).processor.mCurrent = [] ∨
        (feed P {} chunks clock).processor.mCurrent.head? = some start ∧
          stop ∉ (feed P {} chunks clock).processor.mCurrent := by
  intro h
  have hkept := h referencePlatform [ascii "\x7b\x7d\n"] fun _ => 0
  exact absurd hkept (by decide +kernel)

end Scriptor
