import Scriptor.Proofs.WorkerProofs

/-!
# The logger: progress

No interleaving keeps a logger busy with nothing. Every step is paid for by what was pushed, or by a
spurious wake-up (`pays`), and where no step is left but those of others, the worker sleeps over an
empty queue, or the logger is gone (`settled_cases`). Once `m_done` is set, the destructor waits for
the batch the worker holds and for nothing else (`shutdown_terminates`).
-/

namespace Scriptor

/-! ## What a logger still has to do -/

/-- The steps up to the next sleep, if nothing else is queued. -/
def Worker.potential : Worker → ℕ
  | .waiting => 1
  | .asleep => 0
  | .notified => 1
  | .batch elements _ => elements.length + 2
  | .returned => 0
  | .terminated => 0

/-- What the destructor has before it: its steps, and the wake-up that one of them causes. -/
def Destructor.potential : Destructor → ℕ
  | .notEntered => 5
  | .notify => 3
  | .join => 1
  | .returned => 0

/-- The steps up to the end of the thread, once `m_done` is set. -/
def Worker.closing : Worker → ℕ
  | .waiting => 1
  | .asleep => 2
  | .notified => 1
  | .batch elements _ => elements.length + 2
  | .returned => 0
  | .terminated => 0

/-- The steps up to the end of the destructor. -/
def Destructor.closing : Destructor → ℕ
  | .notEntered => 3
  | .notify => 2
  | .join => 1
  | .returned => 0

namespace Logger

variable {s t : Logger} {a : Action} {ls ls' : List Action} {level : ℤ}

/-- A queue costs a swap, its elements and the end of a batch. -/
def queuePotential (elements : List Element) : ℕ :=
  if elements = [] then 0 else elements.length + 2

/-- What pays for the steps of a logger. -/
def potential (s : Logger) : ℕ :=
  s.worker.potential + queuePotential s.mElements + s.destructor.potential

/-- What a step may add to the work to be done: a batch, or a wake-up for nothing. -/
def Action.credit : Action → ℕ
  | .pushCopy elements => elements.length + 4
  | .pushMove elements => elements.length + 4
  | .wake => 2
  | _ => 0

theorem queuePotential_append (es es' : List Element) :
    queuePotential (es ++ es') ≤ queuePotential es + (es'.length + 2) := by
  by_cases hes : es = []
  · subst hes
    by_cases hes' : es' = [] <;> simp [queuePotential, hes']
  · simp only [queuePotential, List.append_eq_nil_iff, hes, false_and, if_false, List.length_append]
    omega

theorem potential_notifyOne (s : Logger) : s.notifyOne.potential ≤ s.potential + 1 := by
  by_cases hw : s.worker = .asleep
  · simp [potential, notifyOne, hw, Worker.potential, Nat.add_comm, Nat.add_left_comm]
  · simp [potential, notifyOne, hw]

theorem potential_push (s : Logger) (es : List Element) :
    (notifyOne { s with mElements := s.mElements ++ es }).potential + 1 ≤
      s.potential + (es.length + 4) := by
  have hnotify := potential_notifyOne { s with mElements := s.mElements ++ es }
  have hqueue := queuePotential_append s.mElements es
  simp only [potential] at hnotify ⊢
  omega

theorem potential_of_awake (hw : s.awake = true) : s.worker.potential = 1 := by
  rcases awake_iff.mp hw with hw | hw <;> simp [hw, Worker.potential]

theorem potential_step (h : lts.step s a = some t) : t.potential + 1 ≤ s.potential + a.credit := by
  cases Step.of_step h with
  | pushCopy es => exact potential_push s es
  | pushMove es => exact potential_push s es
  | sleep hw hd he =>
    simp only [potential, potential_of_awake hw]
    simp only [Worker.potential, Action.credit]
    omega
  | wake hw =>
    simp only [potential, hw, Worker.potential, Action.credit]
    omega
  | finish ok hw hd =>
    simp only [potential, potential_of_awake hw]
    cases ok <;>
    · simp only [Worker.potential, Action.credit, if_true, Bool.false_eq_true, if_false]
      omega
  | swap hw hd he =>
    simp only [potential, potential_of_awake hw]
    simp only [Worker.potential, Action.credit, queuePotential, he, if_false, if_true]
    omega
  | skip hw hl =>
    simp only [potential, hw, Worker.potential, Action.credit, List.length_cons]
    omega
  | log ok hw hl =>
    cases ok <;>
    · simp only [potential, hw, Worker.potential, Action.credit, List.length_cons, if_true,
        Bool.false_eq_true, if_false]
      omega
  | flush ok hw =>
    simp only [potential, hw, Worker.potential, Action.credit, List.length_nil]
    omega
  | endBatch hw =>
    simp only [potential, hw, Worker.potential, Action.credit, List.length_nil]
    omega
  | setDone hd =>
    simp only [potential, hd, Destructor.potential, Action.credit]
    omega
  | notifyDone hd =>
    have hnotify := potential_notifyOne s
    have hdestructor : s.notifyOne.destructor = s.destructor := rfl
    simp only [potential, hdestructor, hd, Destructor.potential, Action.credit] at hnotify ⊢
    omega
  | join hd hw =>
    simp only [potential, hd, Destructor.potential, Action.credit]
    omega

/-- Every step of a logger is paid for by a push or by a spurious wake-up. -/
theorem pays : Lts.Pays lts (fun _ => True) potential Action.credit :=
  ⟨fun _ _ _ _ _ => trivial, fun _ _ _ _ h => potential_step h⟩

/-! ## A logger that is being destroyed -/

/-- `m_done` is what the destructor sets first, and the worker returns only when it is set. -/
structure EndInv (s : Logger) : Prop where
  done : s.mDone = true ↔ s.destructor ≠ .notEntered
  returned : s.worker = .returned → s.mDone = true

theorem EndInv.step (hs : EndInv s) (h : lts.step s a = some t) : EndInv t := by
  obtain ⟨hdone, hreturned⟩ := hs
  have hnotify : ∀ s : Logger, s.notifyOne.worker = .returned → s.worker = .returned :=
    fun s hw => of_worker_notifyOne hw (by simp)
  cases Step.of_step h with
  | pushCopy es => exact ⟨hdone, fun hw => hreturned (hnotify _ hw)⟩
  | pushMove es => exact ⟨hdone, fun hw => hreturned (hnotify _ hw)⟩
  | finish ok hw hd => exact ⟨hdone, fun _ => hd⟩
  | log ok hw hl =>
    refine ⟨hdone, ?_⟩
    cases ok <;> simp
  | setDone hd => exact ⟨by simp, fun _ => rfl⟩
  | notifyDone hd =>
    have hset : s.mDone = true := hdone.mpr (by simp [hd])
    exact ⟨by simp [notifyOne, hset], fun _ => hset⟩
  | join hd hw =>
    have hset : s.mDone = true := hdone.mpr (by simp [hd])
    exact ⟨by simp [hset], fun _ => hset⟩
  | _ => exact ⟨hdone, by simp⟩

theorem EndInv.run (h : lts.run (init level) ls = some s) : EndInv s :=
  Lts.run_preserves (fun _ _ _ hs ha => hs.step ha) ⟨by simp [init], by simp [init]⟩ h

/-- The steps of the worker and of a destructor that was entered. What others decide on is left out:
pushes, spurious wake-ups, the call of the destructor, and whether the sink throws. -/
def Action.isOwn : Action → Bool
  | .pushCopy _ => false
  | .pushMove _ => false
  | .wake => false
  | .setDone => false
  | .finish ok => ok
  | .log ok => ok
  | .flush ok => ok
  | _ => true

/-- No step is left but those of others. -/
def Settled (s : Logger) : Prop := ∀ a, Action.isOwn a = true → lts.step s a = none

/-- Away from its wait, and at its wait with something to do, the worker has a step. -/
theorem Settled.worker (hs : Settled s) :
    s.worker = .terminated ∨ s.worker = .returned ∨ s.worker = .asleep := by
  have hstuck : ∀ a, Action.isOwn a = true → s.worker ≠ .terminated → s.act a = none := by
    intro a ha hw
    simpa [lts, hw] using hs a ha
  by_contra hcon
  simp only [not_or] at hcon
  obtain ⟨hlive, hreturned, hasleep⟩ := hcon
  cases hw : s.worker with
  | batch elements count =>
    cases elements with
    | nil =>
      cases count with
      | zero => simpa [act, endBatch, hw] using hstuck .endBatch rfl hlive
      | succ n => simpa [act, Logger.flush, hw] using hstuck (.flush true) rfl hlive
    | cons e es =>
      cases hl : s.shouldLog e with
      | true => simpa [act, Logger.log, hw, hl] using hstuck (.log true) rfl hlive
      | false => simpa [act, skip, hw, hl] using hstuck .skip rfl hlive
  | returned => exact hreturned hw
  | terminated => exact hlive hw
  | asleep => exact hasleep hw
  | _ =>
    -- At the predicate of its wait: one of its three outcomes applies.
    have hawake : s.awake = true := by simp [awake, hw]
    by_cases hd : s.mDone = true
    · simpa [act, finish, hawake, hd] using hstuck (.finish true) rfl hlive
    · by_cases he : s.mElements = []
      · simpa [act, sleep, hawake, hd, he] using hstuck .sleep rfl hlive
      · simpa [act, swap, hawake, hd, he] using hstuck .swap rfl hlive

/-- A destructor that was entered waits only for a worker that has not returned. -/
theorem Settled.destructor (hs : Settled s) (hw : s.worker ≠ .terminated) :
    s.destructor = .notEntered ∨ s.destructor = .returned ∨
      s.destructor = .join ∧ s.worker ≠ .returned := by
  have hstuck : ∀ a, Action.isOwn a = true → s.act a = none := by
    intro a ha
    simpa [lts, hw] using hs a ha
  cases hd : s.destructor with
  | notEntered => exact .inl rfl
  | notify => simpa [act, notifyDone, hd] using hstuck .notifyDone rfl
  | join =>
    refine .inr (.inr ⟨rfl, ?_⟩)
    intro hr
    simpa [act, join, hd, hr] using hstuck .join rfl
  | returned => exact .inr (.inl rfl)

/-- Where a logger stops by itself: the process has ended, the logger is destroyed, or the worker
sleeps over an empty queue and nobody destroys the logger. -/
theorem settled_cases (hwake : WakeInv s) (hend : EndInv s) (hs : Settled s) :
    s.worker = .terminated ∨ s.destructor = .returned ∨
      s.drained = true ∧ s.destructor = .notEntered := by
  rcases hs.worker with hw | hw | hw
  · exact .inl hw
  · have hd : s.destructor ≠ .notEntered := hend.done.mp (hend.returned hw)
    rcases hs.destructor (by simp [hw]) with hd' | hd' | ⟨-, hr⟩
    · exact absurd hd' hd
    · exact .inr (.inl hd')
    · exact absurd hw hr
  · obtain ⟨hempty, hdone⟩ := hwake hw
    rcases hs.destructor (by simp [hw]) with hd | hd | ⟨hd, -⟩
    · have hset : s.mDone = false := by
        have hnot : ¬ s.mDone = true := fun h => hend.done.mp h hd
        simpa using hnot
      exact .inr (.inr ⟨by simp [drained, atWait, hw, hempty, hset], hd⟩)
    · exact .inr (.inl hd)
    · have hset : s.mDone = true := hend.done.mpr (by simp [hd])
      rcases hdone with h | h
      · simp [hset] at h
      · simp [hd] at h

/-- With a sink that does not throw the process does not end. -/
theorem running_of_quiet (h : quiet.run (init level) ls = some s) : s.worker ≠ .terminated := by
  refine Lts.run_preserves (I := fun s => s.worker ≠ .terminated) ?_ (by simp [init]) h
  intro s a t hs ha
  obtain ⟨hok, hstep⟩ := quiet_step ha
  have hnotify : ∀ s : Logger, s.worker ≠ .terminated → s.notifyOne.worker ≠ .terminated :=
    fun s hs hw => hs (of_worker_notifyOne hw (by simp))
  cases Step.of_step hstep with
  | pushCopy es => exact hnotify _ hs
  | pushMove es => exact hnotify _ hs
  | finish ok hw hd =>
    obtain rfl : ok = true := by simpa [Action.throws] using hok
    simp
  | log ok hw hl =>
    obtain rfl : ok = true := by simpa [Action.throws] using hok
    simp
  | setDone hd => exact hs
  | notifyDone hd => exact hnotify s hs
  | join hd hw => exact hs
  | _ => simp

/-- With such a sink, what was swapped out of the queue is handled or held. -/
theorem taken_of_quiet (h : quiet.run (init level) ls = some s) :
    s.handled ++ s.held = s.batches.flatten := by
  have hqueue := run_conserves h
  have hbatches := run_batches (Lts.run_of_restrict h)
  rw [← hbatches, ← List.append_assoc] at hqueue
  exact List.append_cancel_right hqueue

/-! ## The end of a logger -/

/-- The steps of a logger whose `m_done` is set. -/
def closing (s : Logger) : ℕ := s.worker.closing + s.destructor.closing

theorem closing_notifyOne (s : Logger) : s.notifyOne.closing ≤ s.closing := by
  by_cases hw : s.worker = .asleep <;> simp [closing, notifyOne, hw, Worker.closing]

theorem closing_of_awake (hw : s.awake = true) : s.worker.closing = 1 := by
  rcases awake_iff.mp hw with hw | hw <;> simp [hw, Worker.closing]

/-- Once `m_done` is set every step but a push brings the logger closer to its end. -/
theorem closing_step (hset : s.mDone = true) (h : lts.step s a = some t) :
    t.closing + 1 ≤ s.closing + (if pushes [a] = [] then 0 else 1) := by
  cases Step.of_step h with
  | pushCopy es =>
    have hnotify := closing_notifyOne { s with mElements := s.mElements ++ es }
    simpa [pushes, closing] using hnotify
  | pushMove es =>
    have hnotify := closing_notifyOne { s with mElements := s.mElements ++ es }
    simpa [pushes, closing] using hnotify
  | sleep hw hd he => simp [hset] at hd
  | wake hw =>
    simp only [closing, hw, Worker.closing]
    omega
  | finish ok hw hd =>
    simp only [closing, closing_of_awake hw]
    cases ok <;>
    · simp only [Worker.closing, if_true, Bool.false_eq_true, if_false]
      omega
  | swap hw hd he => simp [hset] at hd
  | skip hw hl =>
    simp only [closing, hw, Worker.closing, List.length_cons]
    omega
  | log ok hw hl =>
    cases ok <;>
    · simp only [closing, hw, Worker.closing, List.length_cons, if_true, Bool.false_eq_true,
        if_false]
      omega
  | flush ok hw =>
    simp only [closing, hw, Worker.closing]
    omega
  | endBatch hw =>
    simp only [closing, hw, Worker.closing]
    omega
  | setDone hd =>
    simp only [closing, hd, Destructor.closing]
    omega
  | notifyDone hd =>
    have hnotify := closing_notifyOne s
    have hdestructor : s.notifyOne.destructor = s.destructor := rfl
    simp only [closing, hdestructor, hd, Destructor.closing] at hnotify ⊢
    omega
  | join hd hw =>
    simp only [closing, hd, Destructor.closing]
    omega

theorem closing_pays : Lts.Pays lts (fun s => s.mDone = true) closing
    (fun a => if pushes [a] = [] then 0 else 1) := by
  refine ⟨?_, fun _ _ _ hset h => closing_step hset h⟩
  intro s a t hset h
  cases Step.of_step h <;> first | exact hset | rfl

theorem closing_le (hend : EndInv s) (hset : s.mDone = true) : s.closing ≤ s.held.length + 4 := by
  have hd : s.destructor ≠ .notEntered := hend.done.mp hset
  cases hdestructor : s.destructor <;> cases hworker : s.worker <;>
    simp_all [closing, held, Worker.closing, Destructor.closing]

/-- Once `m_done` is set no batch is taken any more. -/
theorem step_batches_of_done (hset : s.mDone = true) (h : lts.step s a = some t) :
    t.batches = s.batches := by
  cases Step.of_step h with
  | swap hw hd he => simp [hset] at hd
  | _ => rfl

/-- Whatever the sink does and however long the queue is: once `m_done` is set, and nobody pushes any
more, the logger takes no further batch and not many more steps than there are elements in the
batch it holds; and it stops only when the destructor has returned, or the process has ended. -/
theorem shutdown_terminates (h : lts.run (init level) ls = some s) (hset : s.mDone = true)
    (h' : lts.run s ls' = some t) (hpushes : ∀ a ∈ ls', pushes [a] = []) :
    ls'.length ≤ s.held.length + 4 ∧ t.batches = s.batches ∧
      (Settled t → t.worker = .terminated ∨ t.destructor = .returned) := by
  have hend := EndInv.run h
  have hwhole : lts.run (init level) (ls ++ ls') = some t :=
    Lts.run_append_eq_some.mpr ⟨s, h, h'⟩
  have hkept : t.mDone = true ∧ t.batches = s.batches := by
    refine Lts.run_preserves (I := fun r => r.mDone = true ∧ r.batches = s.batches) ?_ ⟨hset, rfl⟩ h'
    rintro r a r' ⟨hr, hbatches⟩ ha
    exact ⟨closing_pays.keeps r a r' hr ha, by rw [step_batches_of_done hr ha, hbatches]⟩
  refine ⟨?_, hkept.2, ?_⟩
  · have hlen := closing_pays.run_length_le_of_free hset (fun a ha => by simp [hpushes a ha]) h'
    exact hlen.trans (closing_le hend hset)
  · intro hsettled
    rcases settled_cases (WakeInv.run hwhole) (EndInv.run hwhole) hsettled with hw | hd | ⟨hd, -⟩
    · exact .inl hw
    · exact .inr hd
    · simp [drained, hkept.1] at hd

/-- The destructor comes while the worker writes a batch; another one is queued. -/
theorem shutdown_terminates_held :
    ∃ s t : Logger,
      lts.run (init 0) [.pushCopy [infoElement "a", infoElement "b"], .swap,
        .pushCopy [infoElement "c"], .setDone] = some s ∧
      lts.run s [.log false, .notifyDone, .finish true, .join] = some t ∧
      4 ≤ s.held.length + 4 ∧ t.batches = s.batches := by
  refine ⟨_, _, rfl, rfl, ?_⟩
  obtain ⟨hlen, hbatches, -⟩ := @shutdown_terminates _ _
    [.pushCopy [infoElement "a", infoElement "b"], .swap, .pushCopy [infoElement "c"], .setDone]
    [.log false, .notifyDone, .finish true, .join] 0 rfl rfl rfl (by decide)
  exact ⟨hlen, hbatches⟩

end Logger

end Scriptor
