import Scriptor.Element

/-!
# The processor of a session

`Processor` turns the bytes read from one socket into elements. It appends each chunk to its buffer
and takes complete frames off the front: from the first `{` to the first `}` after it. A frame the
parser rejects becomes an element of its own that reports the error.
-/

namespace Scriptor

/-- `{`, where a frame begins. -/
def start : UInt8 := 0x7B
/-- `}`, where a frame ends. -/
def stop : UInt8 := 0x7D

/-- `Processor`: the bytes that were read but belong to no complete frame yet. -/
structure Processor where
  /-- `m_current`. -/
  mCurrent : Bytes := []
  deriving DecidableEq

/-- The element that stands for a frame that could not be decoded. -/
def parseError (now : Int64) (e : Exception) : Element :=
  ⟨.now now, .critical, ascii "Scriptor Json Parse Error: " ++ e.what⟩

/-- The `try` block of `find_one`: the element of a frame, whether or not it can be decoded. -/
def decode (P : Platform) (frame : Bytes) (clock : Clock) : Element × Clock :=
  match Element.fromJson P frame clock with
  | (.ok element, clock) => (element, clock)
  | (.error e, clock) => (parseError clock.now.1 e, clock.now.2)

/-- The elements of a list of frames, decoded one after the other. -/
def decodeAll (P : Platform) : List Bytes → Clock → List Element × Clock
  | [], clock => ([], clock)
  | frame :: frames, clock =>
    let (e, clock) := decode P frame clock
    let (es, clock) := decodeAll P frames clock
    (e :: es, clock)

namespace Processor

/-- `find_one`: the element of the first complete frame, which is erased from the buffer together
with everything before it. -/
def findOne (P : Platform) (p : Processor) (clock : Clock) : Option (Element × Processor × Clock) :=
  match p.mCurrent.dropWhile (· != start) with
  | [] => none
  | is :: next =>
    match next.dropWhile (· != stop) with
    | [] => none
    | ie :: beyond =>
      let (element, clock) := decode P (is :: (next.takeWhile (· != stop) ++ [ie])) clock
      some (element, ⟨beyond⟩, clock)

/-- What a number of calls returned, and what they left. -/
structure Output where
  /-- The elements, in the order of their frames. -/
  elements : List Element
  /-- The processor after the calls. -/
  processor : Processor
  /-- The readings of the clock that are left. -/
  clock : Clock

/-- Every frame found makes the buffer shorter, so the loop of `operator()` ends. -/
theorem findOne_length {P : Platform} {p p' : Processor} {clock clock' : Clock} {e : Element}
    (h : p.findOne P clock = some (e, p', clock')) : p'.mCurrent.length < p.mCurrent.length := by
  unfold findOne at h
  split at h
  · simp at h
  · rename_i is next hstart
    split at h
    · simp at h
    · rename_i ie beyond hstop
      simp only [Option.some.injEq, Prod.mk.injEq] at h
      obtain ⟨-, rfl, -⟩ := h
      have h₁ := (List.dropWhile_suffix (· != start) (l := p.mCurrent)).length_le
      have h₂ := (List.dropWhile_suffix (· != stop) (l := next)).length_le
      rw [hstart] at h₁
      rw [hstop] at h₂
      simp only [List.length_cons] at h₁ h₂ ⊢
      omega

/-- The loop of `operator()`. -/
def drain (P : Platform) (p : Processor) (clock : Clock) : Output :=
  match h : p.findOne P clock with
  | none => ⟨[], p, clock⟩
  | some (e, p', clock') =>
    have : p'.mCurrent.length < p.mCurrent.length := findOne_length h
    let out := drain P p' clock'
    ⟨e :: out.elements, out.processor, out.clock⟩
termination_by p.mCurrent.length

/-- `Processor::operator()` on one chunk. -/
def call (P : Platform) (p : Processor) (data : Bytes) (clock : Clock) : Output :=
  drain P ⟨p.mCurrent ++ data⟩ clock

/-- `operator()` on one chunk after the other, with all elements returned. -/
def feed (P : Platform) : Processor → List Bytes → Clock → Output
  | p, [], clock => ⟨[], p, clock⟩
  | p, data :: chunks, clock =>
    let out := p.call P data clock
    let rest := feed P out.processor chunks out.clock
    ⟨out.elements ++ rest.elements, rest.processor, rest.clock⟩

/-- The states of a processor: what some chunks leave of a fresh one. -/
def Reachable (P : Platform) (p : Processor) : Prop :=
  ∃ chunks clock, (feed P {} chunks clock).processor = p

end Processor

end Scriptor
