import Scriptor.Lts
import Mathlib.Logic.Function.Basic
import Mathlib.Tactic.Common

/-!
# Fan-out

Sources emit batches; each batch is delivered to all sinks, one sink after the other, and a source
emits the next batch only when the last one is everywhere. Deliveries of different sources interleave
in any way.

A sink then has from every source what that source emitted, in order, but for the batch that is still
on its way (`Inv`); and when no batch is on its way, all sinks have received the same, up to the order
in which the sources came through (`perm_of_quiescent`).
-/

universe u

namespace FanOut

/-! ## The system -/

/-- One source of batches. -/
structure Source (α : Type u) where
  /-- What it has emitted. -/
  emitted : List α := []
  /-- The batch on its way, and how many sinks have it. -/
  pending : Option (List α × ℕ) := none

/-- Sources and sinks. -/
structure State (α : Type u) where
  /-- Each source has a number. -/
  sources : ℕ → Source α
  /-- What each sink received, every item with its source. -/
  sinks : List (List (ℕ × α))

/-- The labels of the steps of source `k`. -/
inductive Action (α : Type u) where
  | emit (k : ℕ) (batch : List α)
  | deliver (k : ℕ)
  | finish (k : ℕ)

variable {α : Type u}

/-- The state with another source `k`. -/
def State.setSource (s : State α) (k : ℕ) (source : Source α) : State α :=
  { s with sources := Function.update s.sources k source }

/-- Source `k` emits a batch, if it has none on its way. -/
def emit (s : State α) (k : ℕ) (batch : List α) : Option (State α) :=
  match (s.sources k).pending with
  | none => some (s.setSource k ⟨(s.sources k).emitted ++ batch, some (batch, 0)⟩)
  | some _ => none

/-- The batch of source `k` is appended to what the next sink has received. -/
def deliver (s : State α) (k : ℕ) : Option (State α) :=
  match (s.sources k).pending with
  | none => none
  | some (batch, next) =>
    s.sinks[next]?.map fun received =>
      { s.setSource k ⟨(s.sources k).emitted, some (batch, next + 1)⟩ with
        sinks := s.sinks.set next (received ++ batch.map (k, ·)) }

/-- The batch of source `k` has reached the last sink. -/
def finish (s : State α) (k : ℕ) : Option (State α) :=
  match (s.sources k).pending with
  | none => none
  | some (_, next) =>
    if s.sinks.length ≤ next then some (s.setSource k ⟨(s.sources k).emitted, none⟩) else none

/-- The sources and sinks together, in any interleaving. -/
def fanOut (α : Type u) : Lts (State α) (Action α) where
  step s
    | .emit k batch => emit s k batch
    | .deliver k => deliver s k
    | .finish k => finish s k

/-- `n` sinks that have received nothing. -/
def init (n : ℕ) : State α := ⟨fun _ => {}, List.replicate n []⟩

/-- What a sink received from the source `k`. -/
def ofSource (k : ℕ) (received : List (ℕ × α)) : List α :=
  (received.filter (·.1 = k)).map (·.2)

/-- What the sink `j` is still to receive of the batch on its way. -/
def Source.missing (source : Source α) (j : ℕ) : List α :=
  match source.pending with
  | none => []
  | some (batch, next) => if j < next then [] else batch

/-- No batch is on its way. -/
def Quiescent (s : State α) : Prop := ∀ k, (s.sources k).pending = none

/-! ## Enabled steps -/

section

variable {s : State α} {k next : ℕ} {emitted batch : List α} {received : List (ℕ × α)}

theorem emit_of_idle (hk : s.sources k = ⟨emitted, none⟩) (batch : List α) :
    (fanOut α).step s (.emit k batch) =
      some (s.setSource k ⟨emitted ++ batch, some (batch, 0)⟩) := by
  simp [fanOut, emit, hk]

theorem deliver_of_pending (hk : s.sources k = ⟨emitted, some (batch, next)⟩)
    (hn : s.sinks[next]? = some received) :
    (fanOut α).step s (.deliver k) =
      some { s.setSource k ⟨emitted, some (batch, next + 1)⟩ with
        sinks := s.sinks.set next (received ++ batch.map (k, ·)) } := by
  simp [fanOut, deliver, hk, hn]

theorem finish_of_pending (hk : s.sources k = ⟨emitted, some (batch, next)⟩)
    (hn : s.sinks.length ≤ next) :
    (fanOut α).step s (.finish k) = some (s.setSource k ⟨emitted, none⟩) := by
  simp [fanOut, finish, hk, hn]

/-- With one sink, a delivery is the whole way of a batch. -/
theorem reachable_of_one_sink (hk : s.sources k = ⟨emitted, some (batch, 0)⟩)
    (hn : s.sinks = [received]) :
    (fanOut α).Reachable s
      { s.setSource k ⟨emitted, none⟩ with sinks := [received ++ batch.map (k, ·)] } := by
  have hfirst : s.sinks[0]? = some received := by rw [hn]; rfl
  have hdeliver := deliver_of_pending hk hfirst
  rw [hn] at hdeliver
  have hk' : (State.mk (Function.update s.sources k ⟨emitted, some (batch, 1)⟩)
      [received ++ batch.map (k, ·)]).sources k = ⟨emitted, some (batch, 1)⟩ :=
    Function.update_self ..
  have hfinish := finish_of_pending hk' (Nat.le_refl 1)
  refine .trans (.single hdeliver) ?_
  simpa [State.setSource] using Lts.Reachable.single hfinish

end

/-! ## What a sink received from one source -/

theorem ofSource_append (k : ℕ) (xs ys : List (ℕ × α)) :
    ofSource k (xs ++ ys) = ofSource k xs ++ ofSource k ys := by
  simp [ofSource]

theorem ofSource_batch (k : ℕ) (batch : List α) : ofSource k (batch.map (k, ·)) = batch := by
  simp [ofSource, List.filter_map, Function.comp_def]

theorem ofSource_other {k k' : ℕ} (h : k' ≠ k) (batch : List α) :
    ofSource k (batch.map (k', ·)) = [] := by
  simp [ofSource, List.filter_map, Function.comp_def, h]

/-- A first part of what a sink received has a first part from every source. -/
theorem ofSource_isPrefix {xs ys : List (ℕ × α)} (h : xs <+: ys) (k : ℕ) :
    ofSource k xs <+: ofSource k ys := (h.filter _).map _

theorem mem_ofSource {k : ℕ} {a : α} {received : List (ℕ × α)} :
    a ∈ ofSource k received ↔ (k, a) ∈ received := by
  simp [ofSource]

theorem count_ofSource [DecidableEq α] (k : ℕ) (a : α) (received : List (ℕ × α)) :
    received.count (k, a) = (ofSource k received).count a := by
  induction received with
  | nil => rfl
  | cons p received ih =>
    obtain ⟨k', b⟩ := p
    by_cases hk : k' = k
    · have hof : ofSource k ((k', b) :: received) = b :: ofSource k received := by
        simp [ofSource, hk]
      rw [hof, List.count_cons, List.count_cons, ih, hk]
      simp
    · have hof : ofSource k ((k', b) :: received) = ofSource k received := by
        simp [ofSource, hk]
      rw [hof, List.count_cons, ih]
      simp [hk]

/-- Sinks that received the same from every source received the same up to order. -/
theorem perm_of_ofSource {xs ys : List (ℕ × α)} (h : ∀ k, ofSource k xs = ofSource k ys) :
    xs.Perm ys := by
  classical
  rw [List.perm_iff_count]
  rintro ⟨k, a⟩
  rw [count_ofSource, count_ofSource, h k]

/-- What a sink has from a source, with what it is still to receive, is what the source emitted. -/
def Inv (s : State α) : Prop :=
  ∀ k j received, s.sinks[j]? = some received →
    ofSource k received ++ (s.sources k).missing j = (s.sources k).emitted

variable {s t : State α} {k : ℕ}

@[simp] theorem setSource_sinks (source : Source α) : (s.setSource k source).sinks = s.sinks := rfl

@[simp] theorem setSource_self (source : Source α) : (s.setSource k source).sources k = source := by
  simp [State.setSource]

theorem setSource_other {k' : ℕ} (h : k' ≠ k) (source : Source α) :
    (s.setSource k source).sources k' = s.sources k' := by
  simp [State.setSource, h]

theorem init_inv (n : ℕ) : Inv (init n : State α) := by
  intro k j received h
  have hmem : received ∈ List.replicate n [] := List.mem_of_getElem? h
  obtain ⟨-, rfl⟩ := List.mem_replicate.mp hmem
  rfl

theorem emit_inv {batch : List α} (hs : Inv s) (h : emit s k batch = some t) : Inv t := by
  unfold emit at h
  split at h
  · rename_i hidle
    obtain rfl := Option.some.inj h
    intro k' j received hj
    by_cases hk : k' = k
    · subst hk
      have hold := hs k' j received hj
      rw [Source.missing, hidle, List.append_nil] at hold
      rw [setSource_self, hold]
      simp [Source.missing]
    · rw [setSource_other hk]
      exact hs k' j received hj
  · simp at h

theorem deliver_inv (hs : Inv s) (h : deliver s k = some t) : Inv t := by
  unfold deliver at h
  split at h
  · simp at h
  · rename_i batch next hpending
    obtain ⟨received, hnext, rfl⟩ := Option.map_eq_some_iff.mp h
    intro k' j received' hj
    show ofSource k' received' ++
      ((s.setSource k ⟨(s.sources k).emitted, some (batch, next + 1)⟩).sources k').missing j =
        ((s.setSource k ⟨(s.sources k).emitted, some (batch, next + 1)⟩).sources k').emitted
    by_cases hjn : j = next
    · subst hjn
      have hlt : j < s.sinks.length := (List.getElem?_eq_some_iff.mp hnext).1
      rw [List.getElem?_set_self hlt] at hj
      obtain rfl := Option.some.inj hj
      have hold := hs k' j received hnext
      by_cases hk : k' = k
      · subst hk
        rw [Source.missing, hpending] at hold
        rw [setSource_self, ofSource_append, ofSource_batch]
        simpa [Source.missing] using hold
      · rw [setSource_other hk, ofSource_append, ofSource_other (Ne.symm hk), List.append_nil]
        exact hold
    · rw [List.getElem?_set_ne (Ne.symm hjn)] at hj
      have hold := hs k' j received' hj
      by_cases hk : k' = k
      · subst hk
        have hlt : j < next + 1 ↔ j < next := by omega
        rw [Source.missing, hpending] at hold
        rw [setSource_self]
        simpa [Source.missing, hlt] using hold
      · rw [setSource_other hk]
        exact hold

theorem finish_inv (hs : Inv s) (h : finish s k = some t) : Inv t := by
  unfold finish at h
  split at h
  · simp at h
  · rename_i batch next hpending
    split_ifs at h with hnext
    obtain rfl := Option.some.inj h
    intro k' j received hj
    have hold := hs k' j received hj
    by_cases hk : k' = k
    · subst hk
      have hlt : j < next := by
        have hlen := (List.getElem?_eq_some_iff.mp hj).1
        rw [setSource_sinks] at hlen
        omega
      rw [Source.missing, hpending] at hold
      rw [setSource_self]
      simpa [Source.missing, hlt] using hold
    · rw [setSource_other hk]
      exact hold

theorem reachable_inv {n : ℕ} (h : (fanOut α).Reachable (init n) s) : Inv s := by
  refine Lts.Reachable.invariant (init_inv n) ?_ h
  intro s a t hs ha
  cases a with
  | emit k batch => exact emit_inv hs ha
  | deliver k => exact deliver_inv hs ha
  | finish k => exact finish_inv hs ha

/-! ## What follows for a sink -/

/-- A sink has received a first part of what a source emitted. -/
theorem Inv.isPrefix (hs : Inv s) (k : ℕ) {received : List (ℕ × α)} (h : received ∈ s.sinks) :
    ofSource k received <+: (s.sources k).emitted := by
  obtain ⟨j, hj⟩ := List.mem_iff_getElem?.mp h
  rw [← hs k j received hj]
  exact List.prefix_append _ _

/-- Without a batch on its way, all of it. -/
theorem Inv.eq_emitted (hs : Inv s) {received : List (ℕ × α)} (h : received ∈ s.sinks)
    (hk : (s.sources k).pending = none) : ofSource k received = (s.sources k).emitted := by
  obtain ⟨j, hj⟩ := List.mem_iff_getElem?.mp h
  rw [← hs k j received hj, Source.missing, hk, List.append_nil]

theorem Inv.perm_of_quiescent (hs : Inv s) (hq : Quiescent s) {xs ys : List (ℕ × α)}
    (hxs : xs ∈ s.sinks) (hys : ys ∈ s.sinks) : xs.Perm ys := by
  refine perm_of_ofSource ?_
  intro k
  rw [hs.eq_emitted hxs (hq k), hs.eq_emitted hys (hq k)]

end FanOut
