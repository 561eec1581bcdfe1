import Scriptor.Proofs.LoggerProofs

/-!
# The logger: shutdown

The worker looks at `m_done` before it looks at the queue, so it never takes a batch once the
destructor has set the flag. The batch it holds at that moment is still written and flushed; what is
queued at that moment is not (`delivered_at_shutdown_iff`).
-/

namespace Scriptor

namespace Logger

variable {s s₁ t : Logger} {a : Action} {ls ls₁ ls₂ : List Action} {level : ℤ}

/-- After `m_done` is set, the elements that are handled or held stay the same: those that were
handled or held when it was set. -/
structure DoneInv (es : List Element) (s : Logger) : Prop where
  done : s.mDone = true
  taken : s.handled ++ s.held = es

theorem DoneInv.step {es : List Element} (hs : DoneInv es s) (h : quiet.step s a = some t) :
    DoneInv es t := by
  obtain ⟨hok, hstep⟩ := quiet_step h
  obtain ⟨hdone, htaken⟩ := hs
  cases Step.of_step hstep with
  | pushCopy xs => exact ⟨hdone, by rw [held_notifyOne]; exact htaken⟩
  | pushMove xs => exact ⟨hdone, by rw [held_notifyOne]; exact htaken⟩
  | sleep hw hd he => simp [hdone] at hd
  | wake hw =>
    rw [held_of_atWait (atWait_iff.mpr (.inr (.inr hw)))] at htaken
    exact ⟨hdone, htaken⟩
  | finish ok hw hd =>
    obtain rfl : ok = true := by simpa [Action.throws] using hok
    rw [held_of_awake hw] at htaken
    exact ⟨hdone, htaken⟩
  | swap hw hd he => simp [hdone] at hd
  | @skip e xs n hw hl =>
    refine ⟨hdone, ?_⟩
    rw [held_of_batch hw] at htaken
    show s.handled ++ [e] ++ xs = es
    rw [← htaken, List.append_assoc, List.singleton_append]
  | @log ok e xs n hw hl =>
    obtain rfl : ok = true := by simpa [Action.throws] using hok
    refine ⟨hdone, ?_⟩
    rw [held_of_batch hw] at htaken
    show s.handled ++ [e] ++ xs = es
    rw [← htaken, List.append_assoc, List.singleton_append]
  | flush ok hw =>
    rw [held_of_batch hw] at htaken
    exact ⟨hdone, htaken⟩
  | endBatch hw =>
    rw [held_of_batch hw] at htaken
    exact ⟨hdone, htaken⟩
  | setDone hd => exact ⟨rfl, htaken⟩
  | notifyDone hd => exact ⟨hdone, by rw [← held_notifyOne] at htaken; exact htaken⟩
  | join hd hw => exact ⟨hdone, htaken⟩

/-- The destructor returns only after the worker has. -/
theorem step_worker_returned (hs : s.destructor = .returned → s.worker = .returned)
    (h : lts.step s a = some t) : t.destructor = .returned → t.worker = .returned := by
  have hnotify : ∀ s : Logger, s.worker = .returned → s.notifyOne.worker = .returned := by
    intro s hw
    simp [notifyOne, hw]
  have hawake : s.awake = true → s.worker ≠ .returned := by
    intro hw
    rcases awake_iff.mp hw with hw | hw <;> simp [hw]
  intro ht
  cases Step.of_step h with
  | pushCopy xs => exact hnotify _ (hs ht)
  | pushMove xs => exact hnotify _ (hs ht)
  | sleep hw hd he => exact absurd (hs ht) (hawake hw)
  | wake hw => simp [hs ht] at hw
  | finish ok hw hd => exact absurd (hs ht) (hawake hw)
  | swap hw hd he => exact absurd (hs ht) (hawake hw)
  | skip hw hl => simp [hs ht] at hw
  | log ok hw hl => simp [hs ht] at hw
  | flush ok hw => simp [hs ht] at hw
  | endBatch hw => simp [hs ht] at hw
  | setDone hd => exact absurd ht (by simp)
  | notifyDone hd => exact absurd ht (by simp)
  | join hd hw => exact hw

theorem worker_returned (h : lts.run (init level) ls = some s) (hs : s.destructor = .returned) :
    s.worker = .returned := by
  refine Lts.run_preserves (I := fun s => s.destructor = .returned → s.worker = .returned)
    ?_ ?_ h hs
  · exact fun _ _ _ hs ha => step_worker_returned hs ha
  · intro h
    simp [init] at h

/-- When `~Logger` has returned, the worker has handled what it had handled or held when `m_done` was
set, and no more. -/
theorem handled_at_return (h₁ : quiet.run (init level) ls₁ = some s₁)
    (h₂ : quiet.run s₁ (.setDone :: ls₂) = some s) (hs : s.destructor = .returned) :
    s.handled = s₁.handled ++ s₁.held := by
  have hrun : quiet.run (init level) (ls₁ ++ .setDone :: ls₂) = some s :=
    Lts.run_append_eq_some.mpr ⟨s₁, h₁, h₂⟩
  have hworker := worker_returned (Lts.run_of_restrict hrun) hs
  rw [Lts.run_cons, Option.bind_eq_some_iff] at h₂
  obtain ⟨s₂, hset, hrest⟩ := h₂
  have hstart : DoneInv (s₁.handled ++ s₁.held) s₂ := by
    cases Step.of_step (quiet_step hset).2 with
    | setDone hd => exact ⟨rfl, rfl⟩
  have hend : DoneInv (s₁.handled ++ s₁.held) s :=
    Lts.run_preserves (fun _ _ _ hs ha => hs.step ha) hstart hrest
  have hheld : s.held = [] := by rw [held, hworker]
  rw [← hend.taken, hheld, List.append_nil]

/-- When `~Logger` has returned, with a sink that does not throw: the sink has logged, and flushed,
everything wanted that was pushed before `m_done` was set, if and only if nothing wanted was still
queued at that moment. -/
theorem delivered_at_shutdown_iff (h₁ : quiet.run (init level) ls₁ = some s₁)
    (h₂ : quiet.run s₁ (.setDone :: ls₂) = some s) (hs : s.destructor = .returned) :
    (s.sink.logged = (pushes ls₁).flatten.filter (init level).shouldLog ∧ s.sink.unflushed = []) ↔
      s₁.mElements.filter (init level).shouldLog = [] := by
  have hrun : quiet.run (init level) (ls₁ ++ .setDone :: ls₂) = some s :=
    Lts.run_append_eq_some.mpr ⟨s₁, h₁, h₂⟩
  have hinv := SinkInv.run hrun
  have hlogged : s.sink.logged = (s₁.handled ++ s₁.held).filter (init level).shouldLog := by
    rw [hinv.logged, run_shouldLog (Lts.run_of_restrict hrun), handled_at_return h₁ h₂ hs]
  have hflushed : s.sink.unflushed = [] := by
    have hcount := hinv.unflushed
    rw [count, worker_returned (Lts.run_of_restrict hrun) hs] at hcount
    exact List.length_eq_zero_iff.mp hcount
  have hpushed : (pushes ls₁).flatten.filter (init level).shouldLog =
      (s₁.handled ++ s₁.held).filter (init level).shouldLog ++
        s₁.mElements.filter (init level).shouldLog := by
    rw [← run_conserves h₁, ← List.append_assoc, List.filter_append]
  rw [hlogged, hpushed]
  constructor
  · rintro ⟨h, -⟩
    exact List.self_eq_append_right.mp h
  · intro h
    exact ⟨by rw [h, List.append_nil], hflushed⟩

/-- A run in which the worker holds the only batch when `m_done` is set. -/
theorem delivered_at_shutdown_iff_held :
    ∃ s₁ s : Logger,
      quiet.run (init 0) [.pushCopy [infoElement "a"], .swap] = some s₁ ∧
      quiet.run s₁ [.setDone, .log true, .notifyDone, .flush true, .finish true, .join] = some s ∧
      s.sink.logged = [infoElement "a"] ∧ s.sink.unflushed = [] := by
  refine ⟨_, _, rfl, rfl, ?_⟩
  exact (@delivered_at_shutdown_iff _ _ [.pushCopy [infoElement "a"], .swap]
    [.log true, .notifyDone, .flush true, .finish true, .join] 0 rfl rfl rfl).mpr rfl

/-- A batch that is still queued when `m_done` is set is not logged. -/
theorem queued_batch_lost :
    ¬ ∀ (level : ℤ) (ls₁ ls₂ : List Action) (s : Logger),
      quiet.run (init level) (ls₁ ++ .setDone :: ls₂) = some s → s.destructor = .returned →
      s.sink.logged = (pushes ls₁).flatten.filter (init level).shouldLog ∧ s.sink.unflushed = [] := by
  intro h
  have hlost := h 0 [.pushCopy [infoElement "a"]] [.notifyDone, .finish true, .join] _ rfl rfl
  exact absurd hlost.1 (by decide)

end Logger

end Scriptor
