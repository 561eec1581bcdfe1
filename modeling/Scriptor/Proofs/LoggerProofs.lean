import Scriptor.Logger
import Scriptor.Fifo
import Mathlib.Tactic.Common

/-!
# The logger: what its runs conserve

`Step` says once what each step does; the invariants are read off it. With a sink that does not throw
the logger refines the queue of `Scriptor.Fifo` (`quiet_refines_fifo`), so no element is lost,
repeated or reordered while it runs (`queue_safety`).
-/

namespace Scriptor

/-! ## The sink -/

namespace Sink

variable (sink : Sink) (e : Element) (ok : Bool)

@[simp] theorem logged_log : (sink.called (.log e true)).logged = sink.logged ++ [e] := by
  simp [logged, called]

@[simp] theorem logged_flush : (sink.called (.flush ok)).logged = sink.logged := by
  simp [logged, called]

@[simp] theorem unflushed_log : (sink.called (.log e true)).unflushed = sink.unflushed ++ [e] := by
  simp [unflushed, called]

@[simp] theorem unflushed_flush : (sink.called (.flush true)).unflushed = [] := by
  simp [unflushed, called]

@[simp] theorem handed_log : (sink.called (.log e ok)).handed = sink.handed ++ [e] := by
  simp [handed, called]

@[simp] theorem handed_flush : (sink.called (.flush ok)).handed = sink.handed := by
  simp [handed, called]

end Sink

namespace Logger

variable {s t : Logger} {a : Action} {ls : List Action} {level : ℤ}

/-! ## One step -/

/-- What each step requires and what it does. -/
inductive Step (s : Logger) : Action → Logger → Prop where
  | pushCopy (es : List Element) :
      Step s (.pushCopy es) (notifyOne { s with mElements := s.mElements ++ es })
  | pushMove (es : List Element) :
      Step s (.pushMove es) (notifyOne { s with mElements := s.mElements ++ es })
  | sleep (hw : s.awake = true) (hd : s.mDone = false) (he : s.mElements = []) :
      Step s .sleep { s with worker := .asleep }
  | wake (hw : s.worker = .asleep) : Step s .wake { s with worker := .notified }
  | finish (ok : Bool) (hw : s.awake = true) (hd : s.mDone = true) :
      Step s (.finish ok) { s with
        sink := s.sink.called (.flush ok)
        worker := if ok then .returned else .terminated }
  | swap (hw : s.awake = true) (hd : s.mDone = false) (he : s.mElements ≠ []) :
      Step s .swap { s with
        mElements := []
        worker := .batch s.mElements 0
        batches := s.batches ++ [s.mElements] }
  | skip {e : Element} {es : List Element} {n : ℕ} (hw : s.worker = .batch (e :: es) n)
      (hl : s.shouldLog e = false) :
      Step s .skip { s with worker := .batch es n, handled := s.handled ++ [e] }
  | log (ok : Bool) {e : Element} {es : List Element} {n : ℕ} (hw : s.worker = .batch (e :: es) n)
      (hl : s.shouldLog e = true) :
      Step s (.log ok) { s with
        sink := s.sink.called (.log e ok)
        worker := if ok then .batch es (n + 1) else .waiting
        handled := s.handled ++ [e] }
  | flush (ok : Bool) {n : ℕ} (hw : s.worker = .batch [] (n + 1)) :
      Step s (.flush ok) { s with sink := s.sink.called (.flush ok), worker := .waiting }
  | endBatch (hw : s.worker = .batch [] 0) : Step s .endBatch { s with worker := .waiting }
  | setDone (hd : s.destructor = .notEntered) :
      Step s .setDone { s with mDone := true, destructor := .notify }
  | notifyDone (hd : s.destructor = .notify) :
      Step s .notifyDone { s.notifyOne with destructor := .join }
  | join (hd : s.destructor = .join) (hw : s.worker = .returned) :
      Step s .join { s with destructor := .returned }

theorem foldl_emplace_back (es xs : List Element) :
    es.foldl (fun xs e => xs ++ [e]) xs = xs ++ es := by
  induction es generalizing xs with
  | nil => simp
  | cons e es ih => rw [List.foldl_cons, ih, List.append_assoc, List.singleton_append]

theorem Step.of_step (h : lts.step s a = some t) : Step s a t := by
  simp only [lts] at h
  split_ifs at h
  cases a with
  | pushCopy es =>
    obtain rfl := Option.some.inj h
    exact .pushCopy es
  | pushMove es =>
    obtain rfl := Option.some.inj h
    rw [Logger.pushMove, foldl_emplace_back]
    exact .pushMove es
  | sleep =>
    simp only [act, Logger.sleep] at h
    split_ifs at h with hc
    obtain rfl := Option.some.inj h
    exact .sleep hc.1 hc.2.1 hc.2.2
  | wake =>
    simp only [act, Logger.wake] at h
    split_ifs at h with hc
    obtain rfl := Option.some.inj h
    exact .wake hc
  | finish ok =>
    simp only [act, Logger.finish] at h
    by_cases hc : s.awake ∧ s.mDone = true
    · rw [if_pos hc] at h
      obtain rfl := Option.some.inj h
      exact .finish ok hc.1 hc.2
    · simp [hc] at h
  | swap =>
    simp only [act, Logger.swap] at h
    split_ifs at h with hc
    obtain rfl := Option.some.inj h
    exact .swap hc.1 hc.2.1 hc.2.2
  | skip =>
    simp only [act, Logger.skip] at h
    split at h
    · rename_i hw
      split_ifs at h with hl
      obtain rfl := Option.some.inj h
      exact .skip hw (by simpa using hl)
    · simp at h
  | log ok =>
    simp only [act, Logger.log] at h
    split at h
    · rename_i e es n hw
      by_cases hl : s.shouldLog e = true
      · rw [if_pos hl] at h
        obtain rfl := Option.some.inj h
        exact .log ok hw hl
      · simp [hl] at h
    · simp at h
  | flush ok =>
    simp only [act, Logger.flush] at h
    split at h
    · rename_i hw
      obtain rfl := Option.some.inj h
      exact .flush ok hw
    · simp at h
  | endBatch =>
    simp only [act, Logger.endBatch] at h
    split at h
    · rename_i hw
      obtain rfl := Option.some.inj h
      exact .endBatch hw
    · simp at h
  | setDone =>
    simp only [act, Logger.setDone] at h
    split_ifs at h with hc
    obtain rfl := Option.some.inj h
    exact .setDone hc
  | notifyDone =>
    simp only [act, Logger.notifyDone] at h
    split_ifs at h with hc
    obtain rfl := Option.some.inj h
    exact .notifyDone hc
  | join =>
    simp only [act, Logger.join] at h
    split_ifs at h with hc
    obtain rfl := Option.some.inj h
    exact .join hc.1 hc.2

/-! ## Small facts about the state -/

theorem awake_iff : s.awake = true ↔ s.worker = .waiting ∨ s.worker = .notified := by
  simp [awake]

theorem atWait_iff :
    s.atWait = true ↔ s.worker = .waiting ∨ s.worker = .notified ∨ s.worker = .asleep := by
  simp [atWait, awake_iff, or_assoc]

/-- `count`, which is zero outside the loop over a batch. -/
def count (s : Logger) : ℕ :=
  match s.worker with
  | .batch _ n => n
  | _ => 0

theorem held_of_awake (h : s.awake = true) : s.held = [] := by
  rcases awake_iff.mp h with hw | hw <;> simp [held, hw]

theorem count_of_awake (h : s.awake = true) : s.count = 0 := by
  rcases awake_iff.mp h with hw | hw <;> simp [count, hw]

theorem held_of_batch {es : List Element} {n : ℕ} (hw : s.worker = .batch es n) : s.held = es := by
  rw [held, hw]

theorem held_of_atWait (h : s.atWait = true) : s.held = [] := by
  rcases atWait_iff.mp h with hw | hw | hw <;> simp [held, hw]

theorem count_of_atWait (h : s.atWait = true) : s.count = 0 := by
  rcases atWait_iff.mp h with hw | hw | hw <;> simp [count, hw]

theorem held_notifyOne (s : Logger) : s.notifyOne.held = s.held := by
  by_cases hw : s.worker = .asleep <;> simp [notifyOne, held, hw]

theorem count_notifyOne (s : Logger) : s.notifyOne.count = s.count := by
  by_cases hw : s.worker = .asleep <;> simp [notifyOne, count, hw]

/-! ## The level of the sink -/

theorem step_level (h : lts.step s a = some t) : t.sink.level = s.sink.level := by
  cases Step.of_step h <;> rfl

theorem run_level (h : lts.run (init level) ls = some s) : s.sink.level = level := by
  refine Lts.run_preserves (I := fun s => s.sink.level = level) ?_ rfl h
  intro s a t hs ha
  rw [step_level ha, hs]

/-- In a run, the filter is that of the level the sink started with. -/
theorem run_shouldLog (h : lts.run (init level) ls = some s) :
    s.shouldLog = (init level).shouldLog := by
  funext e
  simp only [shouldLog, Sink.shouldLog, run_level h]
  rfl

/-- Only `setDone` enters the destructor. -/
theorem step_destructor (h : lts.step s a = some t) (ha : a ≠ .setDone)
    (hs : s.destructor = .notEntered) : t.destructor = .notEntered := by
  cases Step.of_step h with
  | setDone hd => exact absurd rfl ha
  | notifyDone hd => simp [hs] at hd
  | join hd hw => simp [hs] at hd
  | _ => exact hs

/-! ## The logger as a queue -/

/-- What the logger is as a queue: the elements the worker has handled are popped, and those it
holds are still queued, in front of `m_elements`. -/
def toFifo (s : Logger) : Fifo.State Element := ⟨s.handled, s.held ++ s.mElements⟩

/-- What a step is for the queue. -/
def Action.toFifo : Action → List (Fifo.Action Element)
  | .pushCopy es => [.push es]
  | .pushMove es => [.push es]
  | .skip => [.pop]
  | .log _ => [.pop]
  | _ => []

theorem quiet_step (h : quiet.step s a = some t) : a.throws = false ∧ lts.step s a = some t := by
  obtain ⟨hok, hstep⟩ := Lts.restrict_step.mp h
  exact ⟨by simpa using hok, hstep⟩

theorem toFifo_notifyOne (s : Logger) : s.notifyOne.toFifo = s.toFifo := by
  rw [toFifo, held_notifyOne]
  rfl

/-- With a sink that does not throw, the logger refines a first-in first-out queue. -/
theorem quiet_refines_fifo : Lts.Refines quiet (Fifo.fifo Element) toFifo Action.toFifo := by
  intro s a t h
  obtain ⟨hok, hstep⟩ := quiet_step h
  cases Step.of_step hstep with
  | pushCopy es =>
    rw [toFifo_notifyOne]
    show some (Fifo.State.mk s.handled ((s.held ++ s.mElements) ++ es)) =
      some ⟨s.handled, s.held ++ (s.mElements ++ es)⟩
    rw [List.append_assoc]
  | pushMove es =>
    rw [toFifo_notifyOne]
    show some (Fifo.State.mk s.handled ((s.held ++ s.mElements) ++ es)) =
      some ⟨s.handled, s.held ++ (s.mElements ++ es)⟩
    rw [List.append_assoc]
  | sleep hw hd he =>
    show some s.toFifo = some ⟨s.handled, [] ++ s.mElements⟩
    rw [toFifo, held_of_awake hw]
  | wake hw =>
    show some s.toFifo = some ⟨s.handled, [] ++ s.mElements⟩
    rw [toFifo, held_of_atWait (atWait_iff.mpr (.inr (.inr hw)))]
  | finish ok hw hd =>
    obtain rfl : ok = true := by simpa [Action.throws] using hok
    show some s.toFifo = some ⟨s.handled, [] ++ s.mElements⟩
    rw [toFifo, held_of_awake hw]
  | swap hw hd he =>
    show some s.toFifo = some ⟨s.handled, s.mElements ++ []⟩
    rw [toFifo, held_of_awake hw, List.append_nil, List.nil_append]
  | @skip e es n hw hl =>
    have hheld : s.held = e :: es := held_of_batch hw
    show (Fifo.fifo Element).run ⟨s.handled, s.held ++ s.mElements⟩ [.pop] =
      some ⟨s.handled ++ [e], es ++ s.mElements⟩
    rw [hheld]
    rfl
  | @log ok e es n hw hl =>
    obtain rfl : ok = true := by simpa [Action.throws] using hok
    have hheld : s.held = e :: es := held_of_batch hw
    show (Fifo.fifo Element).run ⟨s.handled, s.held ++ s.mElements⟩ [.pop] =
      some ⟨s.handled ++ [e], es ++ s.mElements⟩
    rw [hheld]
    rfl
  | flush ok hw =>
    show some s.toFifo = some ⟨s.handled, [] ++ s.mElements⟩
    rw [toFifo, held_of_batch hw]
  | endBatch hw =>
    show some s.toFifo = some ⟨s.handled, [] ++ s.mElements⟩
    rw [toFifo, held_of_batch hw]
  | setDone hd => rfl
  | notifyDone hd =>
    show some s.toFifo = some s.notifyOne.toFifo
    rw [toFifo_notifyOne]
  | join hd hw => rfl

theorem pushes_toFifo (ls : List Action) : Fifo.pushes (ls.flatMap Action.toFifo) = pushes ls := by
  induction ls with
  | nil => rfl
  | cons a ls ih =>
    rw [List.flatMap_cons, Fifo.pushes, List.filterMap_append, ← Fifo.pushes, ← Fifo.pushes, ih]
    cases a <;> rfl

/-- Nothing is lost, repeated or reordered between the producers and the worker. -/
theorem run_conserves (h : quiet.run (init level) ls = some s) :
    s.handled ++ (s.held ++ s.mElements) = (pushes ls).flatten := by
  rw [← pushes_toFifo]
  exact Fifo.run_conserves (quiet_refines_fifo.run h)

/-! ## The batches -/

theorem pushes_append (ls ls' : List Action) : pushes (ls ++ ls') = pushes ls ++ pushes ls' :=
  List.filterMap_append

theorem step_batches (h : lts.step s a = some t) :
    t.batches.flatten ++ t.mElements = s.batches.flatten ++ s.mElements ++ (pushes [a]).flatten := by
  cases Step.of_step h with
  | pushCopy es => simp [notifyOne, pushes]
  | pushMove es => simp [notifyOne, pushes]
  | swap hw hd he => simp [pushes]
  | _ => simp [notifyOne, pushes]

/-- The batches swapped out and the queue are together what was pushed, also when the sink throws. -/
theorem run_batches (h : lts.run (init level) ls = some s) :
    s.batches.flatten ++ s.mElements = (pushes ls).flatten := by
  refine Lts.run_invariant (I := fun ls s => s.batches.flatten ++ s.mElements = (pushes ls).flatten)
    rfl ?_ ls s h
  intro ls s a t hs ha
  rw [step_batches ha, hs, pushes_append, List.flatten_append]

/-! ## What reaches the sink -/

/-- An element of level info, for the runs below. -/
def infoElement (m : String) : Element := ⟨.given 0, .info, ascii m⟩

/-- With a sink that does not throw: what is logged is what was handled and wanted, and what is not
flushed yet is what `count` has counted. -/
structure SinkInv (s : Logger) : Prop where
  logged : s.sink.logged = s.handled.filter s.shouldLog
  unflushed : s.sink.unflushed.length = s.count

theorem SinkInv.step (hs : SinkInv s) (h : quiet.step s a = some t) : SinkInv t := by
  obtain ⟨hok, hstep⟩ := quiet_step h
  obtain ⟨hlog, hflush⟩ := hs
  cases Step.of_step hstep with
  | pushCopy es => exact ⟨hlog, by rw [count_notifyOne]; exact hflush⟩
  | pushMove es => exact ⟨hlog, by rw [count_notifyOne]; exact hflush⟩
  | sleep hw hd he => exact ⟨hlog, by rw [count_of_awake hw] at hflush; exact hflush⟩
  | wake hw =>
    rw [count_of_atWait (atWait_iff.mpr (.inr (.inr hw)))] at hflush
    exact ⟨hlog, hflush⟩
  | finish ok hw hd =>
    obtain rfl : ok = true := by simpa [Action.throws] using hok
    refine ⟨?_, ?_⟩
    · rw [Sink.logged_flush]; exact hlog
    · rw [Sink.unflushed_flush]; rfl
  | swap hw hd he =>
    rw [count_of_awake hw] at hflush
    exact ⟨hlog, hflush⟩
  | @skip e es n hw hl =>
    refine ⟨?_, ?_⟩
    · show s.sink.logged = (s.handled ++ [e]).filter s.shouldLog
      rw [List.filter_append, ← hlog]
      simp [hl]
    · simpa [count, hw] using hflush
  | @log ok e es n hw hl =>
    obtain rfl : ok = true := by simpa [Action.throws] using hok
    refine ⟨?_, ?_⟩
    · show (s.sink.called (.log e true)).logged = (s.handled ++ [e]).filter s.shouldLog
      rw [List.filter_append, ← hlog, Sink.logged_log]
      simp [hl]
    · simpa [count, hw] using hflush
  | flush ok hw =>
    obtain rfl : ok = true := by simpa [Action.throws] using hok
    refine ⟨?_, ?_⟩
    · rw [Sink.logged_flush]; exact hlog
    · rw [Sink.unflushed_flush]; rfl
  | endBatch hw =>
    rw [count, hw] at hflush
    exact ⟨hlog, hflush⟩
  | setDone hd => exact ⟨hlog, hflush⟩
  | notifyDone hd => exact ⟨hlog, by rw [← count_notifyOne] at hflush; exact hflush⟩
  | join hd hw => exact ⟨hlog, hflush⟩

theorem SinkInv.run (h : quiet.run (init level) ls = some s) : SinkInv s :=
  Lts.run_preserves (I := SinkInv) (fun _ _ _ hs ha => hs.step ha) ⟨rfl, rfl⟩ h

/-- In every reachable state, with a sink that does not throw: what the worker handled, what it holds
and what is queued are together what was pushed; the sink has logged a part of what was pushed and
wanted, from its beginning on; and when the worker is at its wait with an empty queue, the sink has
logged all of it and nothing is left to flush. -/
theorem queue_safety (h : quiet.run (init level) ls = some s) :
    s.handled ++ s.held ++ s.mElements = (pushes ls).flatten ∧
      s.sink.logged <+: (pushes ls).flatten.filter (init level).shouldLog ∧
      (s.atWait = true → s.mElements = [] →
        s.sink.logged = (pushes ls).flatten.filter (init level).shouldLog ∧
          s.sink.unflushed = []) := by
  have hqueue := run_conserves h
  have hinv := SinkInv.run h
  have hlogged : s.sink.logged = s.handled.filter (init level).shouldLog := by
    rw [hinv.logged, run_shouldLog (Lts.run_of_restrict h)]
  refine ⟨?_, ?_, ?_⟩
  · rw [List.append_assoc]
    exact hqueue
  · rw [← hqueue, List.filter_append, hlogged]
    exact List.prefix_append _ _
  · intro hwait hempty
    have hcount := hinv.unflushed
    rw [count_of_atWait hwait] at hcount
    rw [held_of_atWait hwait, hempty, List.append_nil, List.append_nil] at hqueue
    exact ⟨by rw [hlogged, hqueue], List.length_eq_zero_iff.mp hcount⟩

/-- A run in which a push lands while the worker writes a batch, and one of its elements is below
the level of the sink. -/
theorem queue_safety_two_batches :
    ∃ s : Logger,
      quiet.run (init Level.info.toInt)
        [.pushCopy [infoElement "a"], .swap, .log true,
          .pushMove [⟨.given 0, .trace, ascii "b"⟩, infoElement "c"], .flush true, .swap, .skip,
          .log true, .flush true] = some s ∧
      s.sink.logged = [infoElement "a", infoElement "c"] ∧ s.sink.unflushed = [] := by
  refine ⟨_, rfl, ?_⟩
  exact (@queue_safety _ [.pushCopy [infoElement "a"], .swap, .log true,
    .pushMove [⟨.given 0, .trace, ascii "b"⟩, infoElement "c"], .flush true, .swap, .skip,
    .log true, .flush true] Level.info.toInt rfl).2.2 rfl rfl

end Logger

end Scriptor
