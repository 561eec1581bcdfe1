import Scriptor.Proofs.LoggerProofs

/-!
# The logger: the worker thread

Two things can go wrong with the thread itself. It can sleep through a notification, which the mutex
prevents (`no_lost_wakeup`); and an exception of the sink can leave `worker()`, which the `try`
block prevents for the batches but not for the flush after `m_done` is set (`contained_iff`).
-/

namespace Scriptor

namespace Logger

variable {s t : Logger} {a : Action} {ls : List Action} {level : ℤ}

/-! ## Wake-ups -/

/-- A sleeping worker has nothing to do, or the destructor is about to wake it. -/
def WakeInv (s : Logger) : Prop :=
  s.worker = .asleep → s.mElements = [] ∧ (s.mDone = false ∨ s.destructor = .notify)

theorem worker_notifyOne (s : Logger) : s.notifyOne.worker ≠ .asleep := by
  by_cases hw : s.worker = .asleep <;> simp [notifyOne, hw]

theorem WakeInv.step (hs : WakeInv s) (h : lts.step s a = some t) : WakeInv t := by
  intro ht
  cases Step.of_step h with
  | pushCopy es => exact absurd ht (worker_notifyOne _)
  | pushMove es => exact absurd ht (worker_notifyOne _)
  | sleep hw hd he => exact ⟨he, .inl hd⟩
  | wake hw => exact absurd ht (by simp)
  | finish ok hw hd => cases ok <;> exact absurd ht (by simp)
  | swap hw hd he => exact absurd ht (by simp)
  | skip hw hl => exact absurd ht (by simp)
  | log ok hw hl => cases ok <;> exact absurd ht (by simp)
  | flush ok hw => exact absurd ht (by simp)
  | endBatch hw => exact absurd ht (by simp)
  | setDone hd => exact ⟨(hs ht).1, .inr rfl⟩
  | notifyDone hd => exact absurd ht (worker_notifyOne s)
  | join hd hw =>
    have hworker : s.worker = .asleep := ht
    simp [hw] at hworker

theorem WakeInv.run (h : lts.run (init level) ls = some s) : WakeInv s := by
  refine Lts.run_preserves (fun _ _ _ hs ha => hs.step ha) ?_ h
  intro hw
  simp [init] at hw

/-- The destructor's notification reaches a worker that sleeps. -/
theorem notifyDone_wakes (hw : s.worker = .asleep) (hd : s.destructor = .notify) :
    ∃ t, lts.step s .notifyDone = some t ∧ t.worker = .notified := by
  refine ⟨{ s.notifyOne with destructor := .join }, ?_, ?_⟩
  · simp [lts, act, notifyDone, hw, hd]
  · simp [notifyOne, hw]

/-- In every reachable state, a worker that sleeps has nothing queued, and `m_done` is not set or
the destructor's notification, which will wake the worker, is still to come. -/
theorem no_lost_wakeup (h : lts.run (init level) ls = some s) (hw : s.worker = .asleep) :
    s.mElements = [] ∧
      (s.mDone = false ∨
        s.destructor = .notify ∧ ∃ t, lts.step s .notifyDone = some t ∧ t.worker = .notified) := by
  obtain ⟨hempty, hdone⟩ := WakeInv.run h hw
  refine ⟨hempty, ?_⟩
  rcases hdone with hdone | hnotify
  · exact .inl hdone
  · exact .inr ⟨hnotify, notifyDone_wakes hw hnotify⟩

/-- The worker goes back to sleep after a spurious wake-up, before the destructor sets `m_done`. -/
theorem no_lost_wakeup_spurious :
    ∃ s : Logger, lts.run (init 0) [.sleep, .wake, .sleep, .setDone] = some s ∧
      s.mElements = [] ∧
      (s.mDone = false ∨
        s.destructor = .notify ∧ ∃ t, lts.step s .notifyDone = some t ∧ t.worker = .notified) := by
  refine ⟨_, rfl, ?_⟩
  exact @no_lost_wakeup _ [.sleep, .wake, .sleep, .setDone] 0 rfl rfl

/-! ## Exceptions of the sink -/

/-- The worker takes the queue, with what is pushed next, as its batch. -/
def Serves (s : Logger) : Prop :=
  s.mDone = false → ∀ es, s.mElements ++ es ≠ [] →
    ∃ t, lts.run s [.pushCopy es, .swap] = some t ∧ t.worker = .batch (s.mElements ++ es) 0

/-- What it takes for a step to contain the exceptions of the sink. -/
structure Contained (s : Logger) (a : Action) (t : Logger) : Prop where
  /-- No exception leaves `worker()`. -/
  alive : t.worker ≠ .terminated
  /-- `worker()` returns only from the `m_done` branch, after a flush that returned. -/
  ends : t.worker = .returned → s.worker ≠ .returned → a = .finish true ∧ s.mDone = true
  /-- After an exception the worker is back at its wait, and serves what comes. -/
  recovers : a.throws = true → t.worker = .waiting ∧ Serves t

theorem serves_of_waiting (hw : s.worker = .waiting) : Serves s := by
  intro hd es hne
  let pushed : Logger := { s with mElements := s.mElements ++ es }
  let served : Logger := { pushed with
    mElements := []
    worker := .batch (s.mElements ++ es) 0
    batches := s.batches ++ [s.mElements ++ es] }
  have hpush : lts.step s (.pushCopy es) = some pushed := by
    simp [pushed, lts, act, pushCopy, notifyOne, hw]
  have hswap : lts.step pushed .swap = some served := by
    simp [pushed, served, lts, act, swap, awake, hw, hd, hne]
  refine ⟨served, ?_, rfl⟩
  rw [Lts.run_cons, hpush, Option.bind_some, Lts.run_cons, hswap, Option.bind_some, Lts.run_nil]

/-- A notification does nothing but wake the worker. -/
theorem of_worker_notifyOne {w : Worker} (h : s.notifyOne.worker = w) (hw : w ≠ .notified) :
    s.worker = w := by
  rw [notifyOne] at h
  split_ifs at h with hs
  · exact absurd h.symm hw
  · exact h

theorem worker_of_step (h : lts.step s a = some t) : s.worker ≠ .terminated := by
  intro hw
  simp [lts, hw] at h

/-- A step that ends no thread. -/
theorem Contained.of_running (ht : t.worker ≠ .terminated) (ht' : t.worker ≠ .returned)
    (ha : a.throws = false) : Contained s a t := by
  refine ⟨ht, fun hw => absurd hw ht', ?_⟩
  rw [ha]
  intro hthrows
  simp at hthrows

/-- A step that leaves the worker where it is, or notifies it. -/
theorem Contained.of_worker (hs : s.worker ≠ .terminated)
    (ht : ∀ w, w ≠ .notified → t.worker = w → s.worker = w) (ha : a.throws = false) :
    Contained s a t := by
  refine ⟨?_, ?_, ?_⟩
  · intro hw
    exact hs (ht _ (by simp) hw)
  · intro hw hne
    exact absurd (ht _ (by simp) hw) hne
  · rw [ha]
    intro hthrows
    simp at hthrows

/-- An exception in the loop over a batch, or in the flush after it, is caught. -/
theorem Contained.of_caught (ht : t.worker = .waiting) : Contained s a t :=
  ⟨by simp [ht], by simp [ht], fun _ => ⟨ht, serves_of_waiting ht⟩⟩

/-- The only exception that is not contained is that of the flush after `m_done` is set. -/
theorem Contained.of_step (ha : a ≠ .finish false) (h : lts.step s a = some t) :
    Contained s a t := by
  have halive := worker_of_step h
  cases Step.of_step h with
  | pushCopy es => exact .of_worker halive (fun w hw ht => of_worker_notifyOne ht hw) rfl
  | pushMove es => exact .of_worker halive (fun w hw ht => of_worker_notifyOne ht hw) rfl
  | sleep hw hd he => exact .of_running (by simp) (by simp) rfl
  | wake hw => exact .of_running (by simp) (by simp) rfl
  | finish ok hw hd =>
    cases ok with
    | false => exact absurd rfl ha
    | true => exact ⟨by simp, fun _ _ => ⟨rfl, hd⟩, by simp [Action.throws]⟩
  | swap hw hd he => exact .of_running (by simp) (by simp) rfl
  | skip hw hl => exact .of_running (by simp) (by simp) rfl
  | log ok hw hl =>
    cases ok with
    | false => exact .of_caught rfl
    | true => exact .of_running (by simp) (by simp) rfl
  | flush ok hw => exact .of_caught rfl
  | endBatch hw => exact .of_caught rfl
  | setDone hd => exact .of_worker halive (fun w _ ht => ht) rfl
  | notifyDone hd => exact .of_worker halive (fun w hw ht => of_worker_notifyOne ht hw) rfl
  | join hd hw => exact .of_worker halive (fun w _ ht => ht) rfl

/-- The flush after `m_done` is set is outside of the `try` block. -/
theorem finish_terminates (h : lts.step s (.finish false) = some t) : t.worker = .terminated := by
  cases Step.of_step h
  rfl

/-- Every step of a run contains the exceptions of the sink, at whatever calls they occur, if and
only if the flush on the `m_done` branch does not throw. -/
theorem contained_iff (h : lts.run (init level) ls = some s) :
    (∀ pre a post r t, ls = pre ++ a :: post → lts.run (init level) pre = some r →
      lts.step r a = some t → Contained r a t) ↔ .finish false ∉ ls := by
  constructor
  · intro hall hmem
    obtain ⟨pre, post, rfl⟩ := List.append_of_mem hmem
    obtain ⟨r, hpre, hpost⟩ := Lts.run_append_eq_some.mp h
    rw [Lts.run_cons, Option.bind_eq_some_iff] at hpost
    obtain ⟨t, hstep, -⟩ := hpost
    exact (hall pre _ post r t rfl hpre hstep).alive (finish_terminates hstep)
  · intro hmem pre a post r t hls hpre hstep
    refine Contained.of_step ?_ hstep
    rintro rfl
    exact hmem (by simp [hls])

/-- The sink throws in `log` and then in `flush`, once before and once after `m_done` is set. -/
def recoveringRun : List Action :=
  [.pushCopy [infoElement "a"], .swap, .log false, .pushCopy [infoElement "b"], .swap, .log true,
    .setDone, .flush false, .notifyDone, .finish true, .join]

theorem contained_iff_recovering :
    ∃ s : Logger, lts.run (init 0) recoveringRun = some s ∧
      ∀ pre a post r t, recoveringRun = pre ++ a :: post → lts.run (init 0) pre = some r →
        lts.step r a = some t → Contained r a t := by
  refine ⟨_, rfl, ?_⟩
  exact (@contained_iff _ recoveringRun 0 rfl).mpr (by decide)

/-- A sink whose `flush` throws on the `m_done` branch ends the process. -/
theorem shutdown_flush_terminates :
    ¬ ∀ (level : ℤ) (ls : List Action) (s : Logger), lts.run (init level) ls = some s →
      ∀ pre a post r t, ls = pre ++ a :: post → lts.run (init level) pre = some r →
        lts.step r a = some t → Contained r a t := by
  intro h
  have hcontained :=
    h 0 [.setDone, .finish false] _ rfl [.setDone] (.finish false) [] _ _ rfl rfl rfl
  exact hcontained.alive rfl

end Logger

end Scriptor
