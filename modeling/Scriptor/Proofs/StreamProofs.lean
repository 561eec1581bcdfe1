import Scriptor.Proofs.ProcessorProofs
import Scriptor.Proofs.JsonProofs

/-!
# What a session decodes

The results about whole streams: how the bytes are cut into chunks does not matter
(`chunking_irrelevant`), one call follows the grammar of frames (`call_follows_grammar`), the stream
resynchronises at every closing brace (`resync_after_stop`), and a log is delivered intact exactly if
its last byte is its only closing brace (`intact_delivery_boundary`, `logs_delivered_iff`).
-/

namespace Scriptor

open Framing Processor Spans

/-! ## Chunks -/

theorem feed_elements (P : Platform) {p : Processor} (hp : NoFrame start stop p.mCurrent)
    (chunks : List Bytes) (clock clock' : Clock) :
    (feed P p chunks clock).elements.map Element.forgetClock =
      (frames start stop (p.mCurrent ++ chunks.flatten)).map
        fun f => (decode P f clock').1.forgetClock := by
  rw [feed_eq P hp]
  exact decodeAll_forgetClock P _ clock clock'

/-- From a reachable state, two ways of cutting the same bytes give the same elements and leave the
same buffer, whatever the clock shows in the two runs; with the same readings the runs agree
entirely. -/
theorem chunking_irrelevant {P : Platform} {p : Processor} (hp : p.Reachable P)
    {chunks chunks' : List Bytes} (h : chunks.flatten = chunks'.flatten) (clock clock' : Clock) :
    (feed P p chunks clock).elements.map Element.forgetClock =
        (feed P p chunks' clock').elements.map Element.forgetClock ∧
      (feed P p chunks clock).processor = (feed P p chunks' clock').processor ∧
      feed P p chunks clock = feed P p chunks' clock := by
  have hp' := reachable_iff.mp hp
  refine ⟨?_, ?_, ?_⟩
  · rw [feed_elements P hp' chunks clock clock, feed_elements P hp' chunks' clock' clock, h]
  · rw [feed_eq P hp', feed_eq P hp', h]
  · rw [feed_eq P hp', feed_eq P hp', h]

/-- A log with all fields but one, and an opening brace in its message. -/
def fullLog : Bytes :=
  ascii "\x7b\"c\":\"app\",\"s\":1.5,\"l\":2,\"p\":42,\"f\":\"a.py\",\"i\":17,\"n\":null," ++
    ascii "\"m\":\"a\x7bb\"\x7d"

/-- A log with a message only. -/
def shortLog : Bytes := ascii "\x7b\"m\":\"c\"\x7d"

/-- A processor that has read a part of a log. -/
def sampleProcessor : Processor := ⟨ascii "ok " ++ fullLog.take 60⟩

theorem sampleProcessor_reachable (P : Platform) : sampleProcessor.Reachable P :=
  reachable_iff.mpr (noFrame_of_not_mem_close (by decide +kernel))

/-- The rest of the log and another one, in two chunks and in four. -/
theorem chunking_irrelevant_bytewise :
    sampleProcessor.Reachable referencePlatform ∧
      (feed referencePlatform sampleProcessor [fullLog.drop 60, ascii "\n" ++ shortLog]
          fun _ => 0).elements.map Element.forgetClock =
        (feed referencePlatform sampleProcessor
          [(fullLog.drop 60).take 5, [], fullLog.drop 65 ++ ascii "\n" ++ shortLog.take 3,
            shortLog.drop 3] fun _ => 1).elements.map Element.forgetClock :=
  ⟨sampleProcessor_reachable _,
    (chunking_irrelevant (sampleProcessor_reachable _) (by decide +kernel) (fun _ => 0)
      fun _ => 1).1⟩

/-! ## The grammar of frames -/

/-- One call on a fresh processor: the bytes have exactly one layout of gaps, frames and remainder;
the elements are those of its frames, each decoded from its own bytes, and the remainder is kept. -/
theorem call_follows_grammar (P : Platform) (x : Bytes) (clock clock' : Clock) :
    (∃! d : Layout UInt8, d.Valid start stop ∧ d.assemble start stop = x) ∧
      ∀ d : Layout UInt8, d.Valid start stop → d.assemble start stop = x →
        ((({} : Processor).call P x clock).elements.map Element.forgetClock =
            d.pieces.map fun q => (decode P (q.frame start stop) clock').1.forgetClock) ∧
          (({} : Processor).call P x clock).elements.length = d.pieces.length ∧
          (({} : Processor).call P x clock).processor.mCurrent = d.rest := by
  refine ⟨existsUnique_layout start stop x, ?_⟩
  rintro d hd rfl
  have helements : ((({} : Processor).call P (d.assemble start stop) clock).elements.map
      Element.forgetClock) =
      d.pieces.map fun q => (decode P (q.frame start stop) clock').1.forgetClock := by
    rw [call_eq, decodeAll_forgetClock P _ clock clock']
    simp only [List.nil_append, frames, scan_assemble hd, List.map_map]
    rfl
  refine ⟨helements, ?_, ?_⟩
  · simpa using congrArg List.length helements
  · rw [call_eq]
    simp only [List.nil_append, scan_assemble hd]

/-! ## Resynchronisation -/

theorem eq_append_stop {u : Bytes} (hu : u.getLast? = some stop) : ∃ u', u = u' ++ [stop] := by
  obtain ⟨u', rfl⟩ := List.getLast?_eq_some_iff.mp hu
  exact ⟨u', rfl⟩

/-- In any reachable state, after bytes that end in a closing brace, the buffer has no opening brace
and whatever follows is decoded as if the session had just started. -/
theorem resync_after_stop {P : Platform} {p : Processor} (hp : p.Reachable P) {u v : Bytes}
    (hu : u.getLast? = some stop) {chunks chunks' fresh : List Bytes} (hchunks : chunks.flatten = u)
    (hchunks' : chunks'.flatten = v) (hfresh : fresh.flatten = v) (clock clock' clock'' : Clock) :
    start ∉ (feed P p chunks clock).processor.mCurrent ∧
      (feed P (feed P p chunks clock).processor chunks' clock').elements.map Element.forgetClock =
        (feed P {} fresh clock'').elements.map Element.forgetClock := by
  obtain ⟨u', rfl⟩ := eq_append_stop hu
  have hstart : start ∉ (feed P p chunks clock).processor.mCurrent := by
    rw [feed_eq P (reachable_iff.mp hp), hchunks, ← List.append_assoc]
    exact not_mem_rest start_ne_stop _
  refine ⟨hstart, ?_⟩
  rw [feed_elements P (noFrame_of_not_mem hstart) chunks' clock' clock,
    feed_elements P noFrame_fresh fresh clock'' clock, hchunks', hfresh,
    frames_append_of_not_mem hstart]
  rfl

/-- The log goes on with a closing brace too many, and another log comes after it. -/
theorem resync_after_stop_braces :
    sampleProcessor.Reachable referencePlatform ∧
      start ∉ (feed referencePlatform sampleProcessor
        [fullLog.drop 60, ascii " \x7b\x7d\x7d"] fun _ => 0).processor.mCurrent ∧
        (feed referencePlatform
            (feed referencePlatform sampleProcessor
              [fullLog.drop 60, ascii " \x7b\x7d\x7d"] fun _ => 0).processor
            [shortLog.take 3, shortLog.drop 3] fun _ => 1).elements.map Element.forgetClock =
          (feed referencePlatform {} [shortLog] fun _ => 2).elements.map Element.forgetClock :=
  ⟨sampleProcessor_reachable _,
    resync_after_stop (u := fullLog.drop 60 ++ ascii " \x7b\x7d\x7d") (v := shortLog)
      (sampleProcessor_reachable _) (by decide +kernel) (by decide +kernel) (by decide +kernel)
      (by decide +kernel) (fun _ => 0) (fun _ => 1) fun _ => 2⟩

/-! ## Logs -/

/-- The bytes up to the first closing brace: the frame the processor finds in a log. -/
def upToStop (w : Bytes) : Bytes := w.takeWhile (· != stop) ++ [stop]

/-- A log of the documented format: a JSON object from its opening to its closing brace. -/
structure IsLog (w : Bytes) : Prop where
  text : Json.IsText w
  head : w.head? = some start
  last : w.getLast? = some stop

theorem eq_braces {w : Bytes} (hhead : w.head? = some start) (hlast : w.getLast? = some stop) :
    ∃ b, w = start :: (b ++ [stop]) := by
  obtain ⟨w', rfl⟩ := eq_append_stop hlast
  cases w' with
  | nil => exact absurd hhead (by decide)
  | cons a b =>
    obtain rfl : a = start := by simpa using hhead
    exact ⟨b, rfl⟩

theorem dropLast_braces (b : Bytes) : (start :: (b ++ [stop])).dropLast = start :: b := by
  rw [← List.cons_append, List.dropLast_concat]

theorem not_mem_body_iff (b : Bytes) : stop ∈ (start :: (b ++ [stop])).dropLast ↔ stop ∈ b := by
  rw [dropLast_braces, List.mem_cons]
  exact or_iff_right start_ne_stop.symm

/-- A log whose last byte is its only closing brace is one frame. -/
theorem frames_of_intact {w : Bytes} (hhead : w.head? = some start) (hlast : w.getLast? = some stop)
    (hw : stop ∉ w.dropLast) : frames start stop w = [w] := by
  obtain ⟨b, rfl⟩ := eq_braces hhead hlast
  rw [not_mem_body_iff] at hw
  rw [frames_frame hw, frames_of_noFrame (noFrame_of_not_mem List.not_mem_nil)]

/-- Any other log is cut at its first closing brace. -/
theorem frames_of_inner_stop {w : Bytes} (hhead : w.head? = some start)
    (hlast : w.getLast? = some stop) (hw : stop ∈ w.dropLast) :
    ∃ r, r ≠ [] ∧ w = upToStop w ++ r ∧
      frames start stop w = upToStop w :: frames start stop r := by
  obtain ⟨b, rfl⟩ := eq_braces hhead hlast
  rw [not_mem_body_iff] at hw
  obtain ⟨b₁, b₂, rfl, hb₁⟩ := List.eq_append_cons_of_mem hw
  have hup : upToStop (start :: (b₁ ++ stop :: b₂ ++ [stop])) = start :: (b₁ ++ [stop]) := by
    have hstart : stop ∉ start :: b₁ := by simp [hb₁, start_ne_stop.symm]
    have := takeWhile_bne hstart (b₂ ++ [stop])
    rw [upToStop, List.append_assoc, List.cons_append, ← List.cons_append, this]
    rfl
  refine ⟨b₂ ++ [stop], by simp, by rw [hup]; simp, ?_⟩
  rw [hup, List.append_assoc, List.cons_append, frames_frame hb₁]

/-- What comes before the first of several closing braces of a log is not a JSON text. -/
theorem upToStop_not_text {w : Bytes} (hw : IsLog w) (hstop : stop ∈ w.dropLast) :
    ¬ Json.IsText (upToStop w) := by
  intro htext
  obtain ⟨r, hr, hwr, -⟩ := frames_of_inner_stop hw.head hw.last hstop
  have hhead : (upToStop w).head? = some Json.lbrace := by
    obtain ⟨b, rfl⟩ := eq_braces hw.head hw.last
    simp [upToStop, start_ne_stop]
    rfl
  refine hr (Json.object_text_unique htext (hwr ▸ hw.text) hhead ?_ (hwr ▸ hw.last))
  simp [upToStop]
  rfl

theorem isLog_of_accepted {P : Platform} (hP : P.AcceptsOnlyJson) {w : Bytes}
    (hw : (P.parse w).isOk = true) (hhead : w.head? = some start) (hlast : w.getLast? = some stop) :
    IsLog w := ⟨hP w hw, hhead, hlast⟩

theorem exists_parse_error {P : Platform} (hP : P.AcceptsOnlyJson) {w : Bytes} (hw : ¬ Json.IsText w) :
    ∃ e, P.parse w = .error e := by
  cases h : P.parse w with
  | error e => exact ⟨e, rfl⟩
  | ok v =>
    have hok : (P.parse w).isOk = true := by rw [h]; rfl
    exact absurd (hP w hok) hw

theorem decode_of_parse_error {P : Platform} {w : Bytes} {e : ParseFailure}
    (h : P.parse w = .error e) (clock : Clock) :
    (decode P w clock).1 = parseError clock.now.1 (.parse e) := by
  unfold decode
  rw [fromJson_of_parse_error h]

theorem parseError_head (now : Int64) (e : Exception) :
    (parseError now e).message.head? = some 0x53 := rfl

/-- A text that parses is not decoded to the element that reports a parse failure. -/
theorem decode_ne_parseError {P : Platform} {w : Bytes} {v : Json.Value} (h : P.parse w = .ok v)
    (clock : Clock) (now : Int64) (f : ParseFailure) :
    (decode P w clock).1.forgetClock ≠ (parseError now (.parse f)).forgetClock := by
  intro heq
  have hforget := congrArg Element.message heq
  have hmessage : (decode P w clock).1.message = (parseError now (.parse f)).message := hforget
  unfold decode at hmessage
  rcases hjson : Element.fromJson P w clock with ⟨r, clock'⟩
  rw [hjson] at hmessage
  rcases fromJson_of_parse h clock with ⟨element, hok, hhead⟩ | ⟨e, herror, he⟩
  · rw [hjson] at hok
    simp only at hok
    subst hok
    simp only at hmessage
    rw [hmessage, parseError_head] at hhead
    exact absurd hhead (by decide)
  · rw [hjson] at herror
    simp only at herror
    subst herror
    exact what_ne_parse he f (List.append_cancel_left hmessage)

/-- A log the parser accepts, fed in any chunking to a processor without an opening brace in its
buffer: with a single closing brace it gives exactly its element; otherwise the first element reports
a parse error, because the bytes up to the first closing brace are not a JSON text. -/
theorem intact_delivery_boundary {P : Platform} (hP : P.AcceptsOnlyJson) {w : Bytes}
    (hw : (P.parse w).isOk = true) (hhead : w.head? = some start) (hlast : w.getLast? = some stop)
    {p : Processor} (hp : start ∉ p.mCurrent) {chunks : List Bytes} (hchunks : chunks.flatten = w)
    (clock clock' : Clock) :
    (stop ∉ w.dropLast →
      (feed P p chunks clock).elements.map Element.forgetClock =
        [(decode P w clock').1.forgetClock]) ∧
    (stop ∈ w.dropLast → ¬ Json.IsText (upToStop w) ∧
      ∃ e, P.parse (upToStop w) = .error e ∧
        (feed P p chunks clock).elements.head? = some (parseError clock.now.1 (.parse e))) := by
  have hp' : NoFrame start stop p.mCurrent := noFrame_of_not_mem hp
  refine ⟨fun hstop => ?_, fun hstop => ?_⟩
  · rw [feed_elements P hp' chunks clock clock', hchunks, frames_append_of_not_mem hp,
      frames_of_intact hhead hlast hstop]
    rfl
  · have hlog := isLog_of_accepted hP hw hhead hlast
    have htext := upToStop_not_text hlog hstop
    obtain ⟨e, he⟩ := exists_parse_error hP htext
    obtain ⟨r, -, -, hframes⟩ := frames_of_inner_stop hhead hlast hstop
    refine ⟨htext, e, he, ?_⟩
    rw [feed_eq P hp', hchunks, frames_append_of_not_mem hp, hframes]
    simp only [decodeAll, List.head?_cons, decode_of_parse_error he]

/-- The parser of `referencePlatform` accepts the JSON texts, and nothing else. -/
theorem referencePlatform_isOk_iff {w : Bytes} :
    (referencePlatform.parse w).isOk = true ↔ Json.IsText w := by
  rw [← Json.parse_isSome_iff]
  simp only [referencePlatform]
  cases Json.parse w <;> simp [Except.isOk, Except.toBool]

theorem referencePlatform_acceptsOnlyJson : referencePlatform.AcceptsOnlyJson :=
  fun _ => referencePlatform_isOk_iff.mp

/-- A log whose message has a closing brace. -/
def braceLog : Bytes := ascii "\x7b\"m\":\"a\x7db\"\x7d"

theorem isLog_braceLog : IsLog braceLog :=
  ⟨(Json.parse_isSome_iff _).mp (by decide +kernel), by decide, by decide⟩

theorem intact_delivery_boundary_braceLog :
    stop ∈ braceLog.dropLast ∧ ¬ Json.IsText (upToStop braceLog) ∧
      ∃ e, referencePlatform.parse (upToStop braceLog) = .error e ∧
        (feed referencePlatform ⟨ascii "x"⟩ [braceLog] fun _ => 7).elements.head? =
          some (parseError 7 (.parse e)) :=
  have hstop : stop ∈ braceLog.dropLast := by decide
  have hchunks : [braceLog].flatten = braceLog := by decide
  ⟨hstop, (intact_delivery_boundary referencePlatform_acceptsOnlyJson
    (referencePlatform_isOk_iff.mpr isLog_braceLog.text) isLog_braceLog.head
    isLog_braceLog.last (p := ⟨ascii "x"⟩) (by decide) hchunks (fun _ => 7) fun _ => 7).2 hstop⟩

/-! ## Sequences of logs -/

/-- Logs, each with a separator before it, and what follows the last one. -/
def stream (logs : List (Bytes × Bytes)) (tail : Bytes) : Bytes :=
  (logs.map fun l => l.1 ++ l.2).flatten ++ tail

/-- The frames of a stream of logs are the frames of its logs. -/
theorem frames_stream {logs : List (Bytes × Bytes)} {tail : Bytes}
    (hlogs : ∀ l ∈ logs, start ∉ l.1 ∧ l.2.getLast? = some stop) (htail : start ∉ tail) :
    frames start stop (stream logs tail) = logs.flatMap fun l => frames start stop l.2 := by
  induction logs with
  | nil => exact frames_of_noFrame (noFrame_of_not_mem htail)
  | cons l logs ih =>
    obtain ⟨hsep, hlast⟩ := hlogs l List.mem_cons_self
    obtain ⟨w, hw⟩ := eq_append_stop hlast
    have hcons : stream (l :: logs) tail = l.1 ++ (l.2 ++ stream logs tail) := by simp [stream]
    rw [hcons, frames_append_of_not_mem hsep, List.flatMap_cons,
      ← ih fun l hl => hlogs l (List.mem_cons_of_mem _ hl), hw, frames_resync start_ne_stop]

/-- A log cut at an inner brace is not decoded as the log is. -/
theorem decode_upToStop_ne {P : Platform} (hP : P.AcceptsOnlyJson) {w : Bytes} (hw : IsLog w)
    (hok : (P.parse w).isOk = true) (hstop : stop ∈ w.dropLast) (clock : Clock) :
    (decode P (upToStop w) clock).1.forgetClock ≠ (decode P w clock).1.forgetClock := by
  obtain ⟨e, he⟩ := exists_parse_error hP (upToStop_not_text hw hstop)
  cases hv : P.parse w with
  | error e => simp [hv, Except.isOk, Except.toBool] at hok
  | ok v =>
    rw [decode_of_parse_error he]
    exact (decode_ne_parseError hv clock _ e).symm

theorem decoded_frames_iff {P : Platform} (hP : P.AcceptsOnlyJson) {logs : List (Bytes × Bytes)}
    (hlogs : ∀ l ∈ logs, IsLog l.2)
    (haccepted : ∀ l ∈ logs, stop ∈ l.2.dropLast → (P.parse l.2).isOk = true)
    (clock : Clock) :
    (logs.flatMap fun l => frames start stop l.2).map
        (fun f => (decode P f clock).1.forgetClock) =
      (logs.map fun l => (decode P l.2 clock).1.forgetClock) ↔
    ∀ l ∈ logs, stop ∉ l.2.dropLast := by
  induction logs with
  | nil => simp
  | cons l logs ih =>
    have hl := hlogs l List.mem_cons_self
    have hok := haccepted l List.mem_cons_self
    have ih := ih (fun l hl => hlogs l (List.mem_cons_of_mem _ hl)) fun l hl =>
      haccepted l (List.mem_cons_of_mem _ hl)
    rw [List.flatMap_cons, List.map_append, List.map_cons, List.forall_mem_cons]
    by_cases hstop : stop ∈ l.2.dropLast
    · obtain ⟨r, -, -, hframes⟩ := frames_of_inner_stop hl.head hl.last hstop
      rw [hframes]
      constructor
      · intro h
        exact absurd (List.cons.inj h).1 (decode_upToStop_ne hP hl (hok hstop) hstop clock)
      · exact fun h => absurd hstop h.1
    · rw [frames_of_intact hl.head hl.last hstop, ← ih]
      simp [hstop]

/-- A stream of logs, in any chunking, gives exactly the elements of the logs in order if and only if
the last byte of every log is its only closing brace. A log with an inner brace has to be accepted by
the parser: one that is rejected may be rejected up to that brace in the same words. -/
theorem logs_delivered_iff {P : Platform} (hP : P.AcceptsOnlyJson) {logs : List (Bytes × Bytes)}
    {tail : Bytes} (hseparators : ∀ l ∈ logs, start ∉ l.1) (htail : start ∉ tail)
    (hlogs : ∀ l ∈ logs, IsLog l.2)
    (haccepted : ∀ l ∈ logs, stop ∈ l.2.dropLast → (P.parse l.2).isOk = true)
    {chunks : List Bytes} (hchunks : chunks.flatten = stream logs tail) (clock clock' : Clock) :
    (feed P {} chunks clock).elements.map Element.forgetClock =
        (logs.map fun l => (decode P l.2 clock').1.forgetClock) ↔
      ∀ l ∈ logs, stop ∉ l.2.dropLast := by
  have hframes := frames_stream (fun l hl => ⟨hseparators l hl, (hlogs l hl).last⟩) htail
  rw [feed_elements P noFrame_fresh chunks clock clock', hchunks]
  show (frames start stop (stream logs tail)).map _ = _ ↔ _
  rw [hframes]
  exact decoded_frames_iff hP hlogs haccepted clock'

/-- Two logs, cut inside the first one. -/
theorem logs_delivered_iff_plain :
    (feed referencePlatform {}
        [fullLog.take 20, fullLog.drop 20 ++ ascii "\n" ++ shortLog ++ ascii "end\x7d"]
        fun _ => 0).elements.map Element.forgetClock =
      [(decode referencePlatform fullLog fun _ => 0).1.forgetClock,
        (decode referencePlatform shortLog fun _ => 0).1.forgetClock] := by
  have hfull : IsLog fullLog :=
    ⟨(Json.parse_isSome_iff _).mp (by decide +kernel), by decide, by decide⟩
  have hshort : IsLog shortLog :=
    ⟨(Json.parse_isSome_iff _).mp (by decide +kernel), by decide, by decide⟩
  have hlogs : ∀ l ∈ [([], fullLog), (ascii "\n", shortLog)], IsLog l.2 := by
    simpa using ⟨hfull, hshort⟩
  have htail : start ∉ ascii "end\x7d" := by decide
  exact (logs_delivered_iff referencePlatform_acceptsOnlyJson (by decide) htail hlogs
    (fun l hl _ => referencePlatform_isOk_iff.mpr (hlogs l hl).text) (by decide +kernel) (fun _ => 0)
    fun _ => 0).mpr (by decide)

/-- A log is not delivered if a string in it has a closing brace: of `{"m":"a}b"}` the processor makes
the report of a parse error. -/
theorem braceLog_not_delivered :
    ¬ ∀ (logs : List (Bytes × Bytes)) (tail : Bytes) (chunks : List Bytes) (clock clock' : Clock),
      (∀ l ∈ logs, start ∉ l.1) → start ∉ tail → (∀ l ∈ logs, IsLog l.2) →
      chunks.flatten = stream logs tail →
      (feed referencePlatform {} chunks clock).elements.map Element.forgetClock =
        logs.map fun l => (decode referencePlatform l.2 clock').1.forgetClock := by
  intro h
  have hlogs := h [([], braceLog)] [] [braceLog] (fun _ => 0) (fun _ => 0) (by decide) (by decide)
    (by simpa using isLog_braceLog) (by decide)
  rw [feed_elements referencePlatform noFrame_fresh [braceLog] (fun _ => 0) fun _ => 0] at hlogs
  exact absurd hlogs (by decide +kernel)

end Scriptor
