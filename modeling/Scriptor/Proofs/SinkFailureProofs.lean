import Scriptor.Proofs.LoggerProofs

/-!
# The logger: a sink that throws

The `try` block of the worker surrounds the loop over a batch, so an exception of the sink costs the
rest of the batch it occurs in. What reaches the sink is, batch by batch, the part up to and
including the first element it fails on (`handed_when_drained`), and therefore depends on how the
pushes were grouped into batches (`grouping_decides_what_is_lost`).
-/

universe u

namespace Scriptor

namespace Logger

variable {s t : Logger} {a : Action} {ls : List Action} {level : ℤ} {bad : Element → Bool}

/-- The part of a list up to and including the first bad element. -/
def upTo {α : Type u} (bad : α → Bool) : List α → List α
  | [] => []
  | e :: es => if bad e then [e] else e :: upTo bad es

/-- Up to the end, if nothing is bad. -/
theorem upTo_eq_self {α : Type u} {bad : α → Bool} {es : List α} (h : ∀ e ∈ es, bad e = false) :
    upTo bad es = es := by
  induction es with
  | nil => rfl
  | cons e es ih =>
    have he : bad e = false := h e List.mem_cons_self
    have hes : upTo bad es = es := ih fun x hx => h x (List.mem_cons_of_mem e hx)
    simp [upTo, he, hes]

/-- Of batches with nothing bad in them, the wanted elements are handed over. -/
theorem flatMap_upTo {α : Type u} {bad p : α → Bool} (batches : List (List α))
    (h : ∀ e ∈ batches.flatten, p e = true → bad e = false) :
    (batches.flatMap fun batch => upTo bad (batch.filter p)) = batches.flatten.filter p := by
  induction batches with
  | nil => rfl
  | cons batch batches ih =>
    have hbatch : upTo bad (batch.filter p) = batch.filter p := by
      refine upTo_eq_self ?_
      intro e he
      obtain ⟨hmem, hp⟩ := List.mem_filter.mp he
      exact h e (List.mem_append_left _ hmem) hp
    have hrest := ih fun e he => h e (List.mem_append_right _ he)
    rw [List.flatMap_cons, hbatch, hrest, List.flatten_cons, List.filter_append]

/-! ## What reaches the sink -/

/-- What the sink should be handed of a batch. -/
def handOver (bad : Element → Bool) (s : Logger) (batch : List Element) : List Element :=
  upTo bad (batch.filter s.shouldLog)

/-- What the sink was handed, with what it is still to be handed of the batch in progress, is what
it should be handed of the batches so far. -/
def HandedInv (bad : Element → Bool) (s : Logger) : Prop :=
  s.sink.handed ++ s.handOver bad s.held = s.batches.flatMap (s.handOver bad)

theorem handOver_skip {e : Element} {es : List Element} (hl : s.shouldLog e = false) :
    s.handOver bad (e :: es) = s.handOver bad es := by
  simp [handOver, hl]

theorem handOver_bad {e : Element} {es : List Element} (hl : s.shouldLog e = true)
    (he : bad e = true) : s.handOver bad (e :: es) = [e] := by
  simp [handOver, upTo, hl, he]

theorem handOver_good {e : Element} {es : List Element} (hl : s.shouldLog e = true)
    (he : bad e = false) : s.handOver bad (e :: es) = e :: s.handOver bad es := by
  simp [handOver, upTo, hl, he]

/-- A step that touches neither the batch in progress nor the calls of `log`. -/
theorem HandedInv.congr (hs : HandedInv bad s) (hlevel : t.shouldLog = s.shouldLog)
    (hhanded : t.sink.handed = s.sink.handed) (hheld : t.held = s.held)
    (hbatches : t.batches = s.batches) : HandedInv bad t := by
  have hover : t.handOver bad = s.handOver bad := by
    funext batch
    rw [handOver, handOver, hlevel]
  rw [HandedInv, hhanded, hheld, hbatches, hover]
  exact hs

theorem HandedInv.step (hs : HandedInv bad s) (h : (failing bad).step s a = some t) :
    HandedInv bad t := by
  obtain ⟨hok, hstep⟩ := Lts.restrict_step.mp h
  cases Step.of_step hstep with
  | pushCopy es => exact hs.congr rfl rfl (held_notifyOne _) rfl
  | pushMove es => exact hs.congr rfl rfl (held_notifyOne _) rfl
  | sleep hw hd he => exact hs.congr rfl rfl (held_of_awake hw).symm rfl
  | wake hw =>
    have hheld : s.held = [] := held_of_atWait (atWait_iff.mpr (.inr (.inr hw)))
    exact hs.congr rfl rfl hheld.symm rfl
  | finish ok hw hd =>
    refine hs.congr rfl (Sink.handed_flush s.sink ok) ?_ rfl
    rw [held_of_awake hw]
    cases ok <;> rfl
  | swap hw hd he =>
    have hheld : s.held = [] := held_of_awake hw
    have hdone : s.sink.handed = s.batches.flatMap (s.handOver bad) := by
      rw [← hs, hheld]
      exact (List.append_nil _).symm
    show s.sink.handed ++ s.handOver bad s.mElements =
      (s.batches ++ [s.mElements]).flatMap (s.handOver bad)
    rw [hdone, List.flatMap_append, List.flatMap_singleton]
  | @skip e es n hw hl =>
    have hheld : s.held = e :: es := held_of_batch hw
    rw [HandedInv, hheld, handOver_skip hl] at hs
    exact hs
  | @log ok e es n hw hl =>
    have hheld : s.held = e :: es := held_of_batch hw
    have hanswer : ok = !bad e := by simpa [respects, hheld] using hok
    rw [HandedInv, hheld] at hs
    cases hbad : bad e with
    | true =>
      obtain rfl : ok = false := by rw [hanswer, hbad]; rfl
      rw [handOver_bad hl hbad] at hs
      show (s.sink.called (.log e false)).handed ++ [] = s.batches.flatMap (s.handOver bad)
      rw [Sink.handed_log, List.append_nil]
      exact hs
    | false =>
      obtain rfl : ok = true := by rw [hanswer, hbad]; rfl
      rw [handOver_good hl hbad] at hs
      show (s.sink.called (.log e true)).handed ++ s.handOver bad es =
        s.batches.flatMap (s.handOver bad)
      rw [Sink.handed_log, List.append_assoc, List.singleton_append]
      exact hs
  | flush ok hw =>
    have hheld : s.held = [] := held_of_batch hw
    exact hs.congr rfl (Sink.handed_flush s.sink ok) hheld.symm rfl
  | endBatch hw =>
    have hheld : s.held = [] := held_of_batch hw
    exact hs.congr rfl rfl hheld.symm rfl
  | setDone hd => exact hs.congr rfl rfl rfl rfl
  | notifyDone hd => exact hs.congr rfl rfl (held_notifyOne s) rfl
  | join hd hw => exact hs.congr rfl rfl rfl rfl

theorem HandedInv.run (h : (failing bad).run (init level) ls = some s) : HandedInv bad s := by
  have hinit : HandedInv bad (init level) := rfl
  exact Lts.run_preserves (fun _ _ _ hs ha => hs.step ha) hinit h

theorem drained_iff :
    s.drained = true ↔ s.atWait = true ∧ s.mElements = [] ∧ s.mDone = false := by
  simp [drained]

/-- When the worker has drained the queue, the batches it took are together what was pushed, and of
each batch the sink was handed the elements it wants, in order and once, up to and including the
first on which it throws; if it throws on none of them, it was handed all of them. -/
theorem handed_when_drained (h : (failing bad).run (init level) ls = some s) (hs : s.drained = true) :
    s.batches.flatten = (pushes ls).flatten ∧
      (s.sink.handed = s.batches.flatMap fun batch =>
        upTo bad (batch.filter (init level).shouldLog)) ∧
      ((∀ e ∈ (pushes ls).flatten, (init level).shouldLog e = true → bad e = false) →
        s.sink.handed = (pushes ls).flatten.filter (init level).shouldLog) := by
  obtain ⟨hwait, hempty, -⟩ := drained_iff.mp hs
  have hrun := Lts.run_of_restrict h
  have hbatches : s.batches.flatten = (pushes ls).flatten := by
    rw [← run_batches hrun, hempty, List.append_nil]
  have hhanded : s.sink.handed = s.batches.flatMap fun batch =>
      upTo bad (batch.filter (init level).shouldLog) := by
    have hinv : HandedInv bad s := HandedInv.run h
    have hover : s.handOver bad = fun batch => upTo bad (batch.filter (init level).shouldLog) := by
      funext batch
      rw [handOver, run_shouldLog hrun]
    rw [HandedInv, held_of_atWait hwait] at hinv
    rw [← hover, ← hinv]
    exact (List.append_nil _).symm
  refine ⟨hbatches, hhanded, ?_⟩
  intro hgood
  rw [← hbatches] at hgood ⊢
  rw [hhanded, flatMap_upTo s.batches hgood]

/-- The first of two pushed elements makes the sink throw; the worker takes both in one batch. -/
def mergedRun : List Action :=
  [.pushCopy [infoElement "a"], .pushCopy [infoElement "b"], .swap, .log false]

/-- The same pushes, each of them swapped out before the next one. -/
def separateRun : List Action :=
  [.pushCopy [infoElement "a"], .swap, .log false, .pushCopy [infoElement "b"], .swap, .log true,
    .flush true]

theorem handed_when_drained_separate :
    ∃ s : Logger, (failing (· = infoElement "a")).run (init 0) separateRun = some s ∧
      s.sink.handed = [infoElement "a", infoElement "b"] := by
  refine ⟨_, rfl, ?_⟩
  exact (@handed_when_drained _ separateRun 0 (· = infoElement "a") rfl rfl).2.1

/-- A failure can cost another element than the one it occurred on, and which one it costs depends on
how the pushes were grouped. -/
theorem grouping_decides_what_is_lost :
    (¬ ∀ (bad : Element → Bool) (level : ℤ) (ls : List Action) (s : Logger),
      (failing bad).run (init level) ls = some s → s.drained = true →
        s.sink.handed = (pushes ls).flatten.filter (init level).shouldLog) ∧
    ¬ ∀ (bad : Element → Bool) (level : ℤ) (ls ls' : List Action) (s s' : Logger),
      (failing bad).run (init level) ls = some s → s.drained = true →
        (failing bad).run (init level) ls' = some s' → s'.drained = true → pushes ls = pushes ls' →
          s.sink.handed.filter (!bad ·) = s'.sink.handed.filter (!bad ·) := by
  refine ⟨?_, ?_⟩
  · intro h
    have hlost := h (· = infoElement "a") 0 mergedRun _ rfl rfl
    exact absurd hlost (by decide)
  · intro h
    have hsame := h (· = infoElement "a") 0 mergedRun separateRun _ _ rfl rfl rfl rfl rfl
    exact absurd hsame (by decide)

end Logger

end Scriptor
