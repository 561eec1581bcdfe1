import Scriptor.Lts

/-!
# A first-in first-out queue

The abstract queue between producers and one consumer: a push appends a batch, a pop takes the
oldest element. Whatever the order of pushes and pops, what was popped and what is still queued are
together what was pushed, in that order (`run_conserves`): nothing is lost, repeated or reordered.
-/

universe u

namespace Fifo

/-- A queue, with its history. -/
structure State (α : Type u) where
  /-- What was taken out, in its order. -/
  popped : List α
  /-- What is queued, the oldest first. -/
  queue : List α

/-- The labels of the steps. -/
inductive Action (α : Type u) where
  | push (batch : List α)
  | pop

variable {α : Type u}

/-- A queue that nothing was pushed to. -/
def empty : State α := ⟨[], []⟩

/-- A push is always possible, a pop only if something is queued. -/
def step : State α → Action α → Option (State α)
  | s, .push batch => some ⟨s.popped, s.queue ++ batch⟩
  | ⟨_, []⟩, .pop => none
  | ⟨popped, a :: queue⟩, .pop => some ⟨popped ++ [a], queue⟩

/-- The queue between any number of producers and the consumer. -/
def fifo (α : Type u) : Lts (State α) (Action α) where
  step := step

/-- The batches pushed in a run. -/
def pushes (ls : List (Action α)) : List (List α) :=
  ls.filterMap fun
    | .push batch => some batch
    | .pop => none

theorem step_conserves {s t : State α} {a : Action α} (h : (fifo α).step s a = some t) :
    t.popped ++ t.queue = s.popped ++ s.queue ++ (pushes [a]).flatten := by
  obtain ⟨popped, queue⟩ := s
  cases a with
  | push batch =>
    obtain rfl := Option.some.inj h
    simp [pushes]
  | pop =>
    cases queue with
    | nil => simp [fifo, step] at h
    | cons a queue =>
      obtain rfl := Option.some.inj h
      simp [pushes]

theorem run_conserves {ls : List (Action α)} {t : State α} (h : (fifo α).run empty ls = some t) :
    t.popped ++ t.queue = (pushes ls).flatten := by
  refine Lts.run_invariant (I := fun ls t => t.popped ++ t.queue = (pushes ls).flatten) rfl ?_ ls t h
  intro ls s a t hs ha
  rw [step_conserves ha, hs, pushes, pushes, pushes, List.filterMap_append, List.flatten_append]

end Fifo
