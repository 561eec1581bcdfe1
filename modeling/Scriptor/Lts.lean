import Mathlib.Data.List.Induction
import Mathlib.Algebra.Ring.Nat

/-!
# Labelled transition systems with an executable step

A system is given by its step: a partial function of the state and of a label that carries every
choice the state does not determine (which party moves, what the environment answers). A run is the
list of its labels, so an interleaving of several parties is nothing but a list of labels, and what
a property quantifies over is `∀ ls`.

The rules below package the one induction over runs that safety proofs need: an invariant that holds
at the start and is kept by every step holds at the end of every run (`run_invariant`), possibly one
that also speaks about the labels taken so far. `Projects` is the forward simulation used to read a
component off a composed system, `Simulates` the one that keeps what an observer sees of the labels.

`Pays` is the rule for progress: a potential that every step lowers, up to what its label brings in
from outside, bounds the length of every run (`Pays.run_length_le`).
-/

universe u v w x

/-- A transition system whose labels resolve all nondeterminism; `none` means that the label is not
enabled in the state. -/
structure Lts (State : Type u) (Label : Type v) where
  /-- The state after the label, if the label is enabled. -/
  step : State → Label → Option State

namespace Lts

variable {State : Type u} {Label : Type v}

/-- The state at the end of the run with the given labels. -/
def run (M : Lts State Label) : State → List Label → Option State
  | s, [] => some s
  | s, l :: ls => (M.step s l).bind fun t => run M t ls

/-- `s` is reachable from `s₀`. -/
def Reachable (M : Lts State Label) (s₀ s : State) : Prop := ∃ ls, M.run s₀ ls = some s

/-- The system that takes only the steps `allowed` permits: an assumption on the environment. -/
def restrict (M : Lts State Label) (allowed : State → Label → Bool) : Lts State Label where
  step s l := if allowed s l then M.step s l else none

variable {M : Lts State Label} {s₀ s t : State} {l : Label} {ls ls₁ ls₂ : List Label}

@[simp] theorem run_nil : M.run s [] = some s := rfl

theorem run_cons : M.run s (l :: ls) = (M.step s l).bind fun t => M.run t ls := rfl

theorem run_append : M.run s (ls₁ ++ ls₂) = (M.run s ls₁).bind fun t => M.run t ls₂ := by
  induction ls₁ generalizing s with
  | nil => rfl
  | cons l ls ih =>
    rw [List.cons_append, run_cons, run_cons]
    cases M.step s l with
    | none => rfl
    | some t => exact ih

theorem run_append_eq_some :
    M.run s (ls₁ ++ ls₂) = some t ↔ ∃ r, M.run s ls₁ = some r ∧ M.run r ls₂ = some t := by
  rw [run_append, Option.bind_eq_some_iff]

/-- A run ending in `l` is a run followed by the step `l`. -/
theorem run_snoc : M.run s (ls ++ [l]) = some t ↔ ∃ r, M.run s ls = some r ∧ M.step r l = some t := by
  rw [run_append_eq_some]
  simp [run_cons]

/-- An invariant of the labels taken and the state reached: it holds at the start, and every step
keeps it. -/
theorem run_invariant {I : List Label → State → Prop} (h₀ : I [] s₀)
    (hstep : ∀ ls s l t, I ls s → M.step s l = some t → I (ls ++ [l]) t) :
    ∀ ls s, M.run s₀ ls = some s → I ls s := by
  intro ls
  induction ls using List.reverseRecOn with
  | nil =>
    intro s h
    obtain rfl : s₀ = s := by simpa using h
    exact h₀
  | append_singleton ls l ih =>
    intro s h
    obtain ⟨r, hr, hl⟩ := run_snoc.mp h
    exact hstep ls r l s (ih r hr) hl

/-- An invariant of the state alone, from any state that satisfies it. -/
theorem run_preserves {I : State → Prop} (hstep : ∀ s l t, I s → M.step s l = some t → I t)
    (h₀ : I s₀) (h : M.run s₀ ls = some s) : I s :=
  run_invariant (I := fun _ s => I s) h₀ (fun _ s l t hs hl => hstep s l t hs hl) ls s h

theorem Reachable.invariant {I : State → Prop} (h₀ : I s₀)
    (hstep : ∀ s l t, I s → M.step s l = some t → I t) (h : M.Reachable s₀ s) : I s := by
  obtain ⟨ls, hls⟩ := h
  exact run_preserves hstep h₀ hls

/-! ## Restricted systems -/

theorem restrict_step {allowed : State → Label → Bool} :
    (M.restrict allowed).step s l = some t ↔ allowed s l = true ∧ M.step s l = some t := by
  simp only [restrict]
  split_ifs with h <;> simp [h]

/-- A run of the restricted system is a run of the system. -/
theorem run_of_restrict {allowed : State → Label → Bool} :
    ∀ {ls s}, (M.restrict allowed).run s ls = some t → M.run s ls = some t := by
  intro ls
  induction ls with
  | nil => intro s h; exact h
  | cons l ls ih =>
    intro s h
    rw [run_cons, Option.bind_eq_some_iff] at h
    obtain ⟨r, hr, hrest⟩ := h
    rw [run_cons, (restrict_step.mp hr).2]
    exact ih hrest

/-- Where only the label decides, the runs of the restricted system are the runs with such labels. -/
theorem run_restrict_iff {allowed : Label → Bool} :
    (M.restrict fun _ l => allowed l).run s ls = some t ↔
      M.run s ls = some t ∧ ∀ l ∈ ls, allowed l = true := by
  induction ls generalizing s with
  | nil => simp
  | cons l ls ih =>
    simp only [run_cons, Option.bind_eq_some_iff, restrict_step, ih, List.forall_mem_cons]
    constructor
    · rintro ⟨r, ⟨hl, hr⟩, hrest, hls⟩
      exact ⟨⟨r, hr, hrest⟩, hl, hls⟩
    · rintro ⟨⟨r, hr, hrest⟩, hl, hls⟩
      exact ⟨r, ⟨hl, hr⟩, hrest, hls⟩

/-! ## Refinement -/

variable {State' : Type w} {Label' : Type x}

/-- `M` refines `N`: seen through `f`, a step of `M` is the run of `N` that `g` names for its label,
which is empty for a step that `N` does not see. -/
def Refines (M : Lts State Label) (N : Lts State' Label') (f : State → State')
    (g : Label → List Label') : Prop :=
  ∀ s l t, M.step s l = some t → N.run (f s) (g l) = some (f t)

/-- A run of a refinement is a run of what it refines. -/
theorem Refines.run {N : Lts State' Label'} {f : State → State'} {g : Label → List Label'}
    (hM : Refines M N f g) : ∀ {ls s}, M.run s ls = some t →
      N.run (f s) (ls.flatMap g) = some (f t) := by
  intro ls
  induction ls with
  | nil =>
    intro s h
    obtain rfl : s = t := by simpa using h
    rfl
  | cons l ls ih =>
    intro s h
    rw [run_cons, Option.bind_eq_some_iff] at h
    obtain ⟨r, hr, hrest⟩ := h
    rw [List.flatMap_cons, run_append_eq_some]
    exact ⟨f r, hM s l r hr, ih hrest⟩

/-- `M` simulates in `N` what an observer sees: under an invariant, seen through `f`, a step of `M` is a
run of `N` that shows the same. The run may depend on the state. -/
structure Simulates {Seen : Type*} (M : Lts State Label) (N : Lts State' Label') (I : State → Prop)
    (f : State → State') (seen : Label → List Seen) (seen' : Label' → List Seen) : Prop where
  /-- The invariant is kept. -/
  keeps : ∀ s l t, I s → M.step s l = some t → I t
  /-- Every step has its run. -/
  matched : ∀ s l t, I s → M.step s l = some t →
    ∃ ls, N.run (f s) ls = some (f t) ∧ ls.flatMap seen' = seen l

theorem Simulates.run {Seen : Type*} {N : Lts State' Label'} {I : State → Prop} {f : State → State'}
    {seen : Label → List Seen} {seen' : Label' → List Seen} (hM : Simulates M N I f seen seen') :
    ∀ {ls s}, I s → M.run s ls = some t →
      I t ∧ ∃ ls', N.run (f s) ls' = some (f t) ∧ ls'.flatMap seen' = ls.flatMap seen := by
  intro ls
  induction ls with
  | nil =>
    intro s hs h
    obtain rfl : s = t := by simpa using h
    exact ⟨hs, [], rfl, rfl⟩
  | cons l ls ih =>
    intro s hs h
    rw [run_cons, Option.bind_eq_some_iff] at h
    obtain ⟨r, hr, hrest⟩ := h
    obtain ⟨ls₁, hrun₁, hseen₁⟩ := hM.matched s l r hs hr
    obtain ⟨ht, ls₂, hrun₂, hseen₂⟩ := ih (hM.keeps s l r hs hr) hrest
    refine ⟨ht, ls₁ ++ ls₂, run_append_eq_some.mpr ⟨f r, hrun₁, hrun₂⟩, ?_⟩
    rw [List.flatMap_append, List.flatMap_cons, hseen₁, hseen₂]

/-- `f` reads a state of the component `N` off a state of `M`: every step of `M` is some run of the
component, whose labels may depend on the state of `M`. -/
def Projects (M : Lts State Label) (N : Lts State' Label') (f : State → State') : Prop :=
  ∀ s l t, M.step s l = some t → N.Reachable (f s) (f t)

theorem Reachable.refl (M : Lts State Label) (s : State) : M.Reachable s s := ⟨[], rfl⟩

theorem Reachable.trans {r : State} (h₁ : M.Reachable s r) (h₂ : M.Reachable r t) :
    M.Reachable s t := by
  obtain ⟨ls₁, h₁⟩ := h₁
  obtain ⟨ls₂, h₂⟩ := h₂
  exact ⟨ls₁ ++ ls₂, run_append_eq_some.mpr ⟨r, h₁, h₂⟩⟩

theorem Reachable.single (h : M.step s l = some t) : M.Reachable s t :=
  ⟨[l], by simp [run_cons, h]⟩

/-- What is reachable in the composed system is, component by component, reachable there. -/
theorem Projects.reachable {N : Lts State' Label'} {f : State → State'} (hf : Projects M N f)
    (h : M.Reachable s₀ s) : N.Reachable (f s₀) (f s) := by
  refine Reachable.invariant (I := fun s => N.Reachable (f s₀) (f s)) (.refl N (f s₀)) ?_ h
  intro s l t hs hl
  exact hs.trans (hf s l t hl)

/-! ## Potentials -/

section Potential

variable {I : State → Prop} {potential : State → ℕ} {credit : Label → ℕ}

/-- A potential pays for the steps of a run: under an invariant, every step takes at least one unit
from it, after adding what the label of the step brings in. -/
structure Pays (M : Lts State Label) (I : State → Prop) (potential : State → ℕ)
    (credit : Label → ℕ) : Prop where
  /-- The invariant is kept. -/
  keeps : ∀ s l t, I s → M.step s l = some t → I t
  /-- Every step takes its unit. -/
  pays : ∀ s l t, I s → M.step s l = some t → potential t + 1 ≤ potential s + credit l

/-- A run is no longer than the potential it starts with and what its labels bring in. -/
theorem Pays.run_length_le (hM : Pays M I potential credit) :
    ∀ {ls s}, I s → M.run s ls = some t →
      ls.length + potential t ≤ potential s + (ls.map credit).sum := by
  intro ls
  induction ls with
  | nil =>
    intro s _ h
    obtain rfl : s = t := by simpa using h
    simp
  | cons l ls ih =>
    intro s hs h
    rw [run_cons, Option.bind_eq_some_iff] at h
    obtain ⟨r, hr, hrest⟩ := h
    have hpay := hM.pays s l r hs hr
    have hih := ih (hM.keeps s l r hs hr) hrest
    rw [List.map_cons, List.sum_cons, List.length_cons]
    omega

/-- Labels that bring nothing in can be taken only so often. -/
theorem Pays.run_length_le_of_free (hM : Pays M I potential credit) (hs : I s)
    (hfree : ∀ l ∈ ls, credit l = 0) (h : M.run s ls = some t) : ls.length ≤ potential s := by
  have hlen := hM.run_length_le hs h
  have hzero : (ls.map credit).sum = 0 := by
    rw [List.sum_eq_zero_iff_forall_eq_nat]
    intro n hn
    obtain ⟨l, hl, rfl⟩ := List.mem_map.mp hn
    exact hfree l hl
  omega

/-- Whatever the state, taking steps that bring nothing in ends: there is a run to a state in which
none of them is enabled. -/
theorem Pays.exists_settled (hM : Pays M I potential credit) (own : Label → Prop)
    (hfree : ∀ l, own l → credit l = 0) :
    ∀ {s}, I s → ∃ ls t, (∀ l ∈ ls, own l) ∧ M.run s ls = some t ∧
      ∀ l, own l → M.step t l = none := by
  intro s
  induction hn : potential s using Nat.strongRecOn generalizing s with
  | _ n ih =>
    intro hs
    by_cases hstuck : ∀ l, own l → M.step s l = none
    · exact ⟨[], s, by simp, rfl, hstuck⟩
    · push Not at hstuck
      obtain ⟨l, hl, hsome⟩ := hstuck
      obtain ⟨r, hr⟩ := Option.ne_none_iff_exists'.mp hsome
      have hpay := hM.pays s l r hs hr
      rw [hfree l hl] at hpay
      obtain ⟨ls, t, hown, hrun, hend⟩ := ih (potential r) (by omega) rfl (hM.keeps s l r hs hr)
      refine ⟨l :: ls, t, ?_, ?_, hend⟩
      · intro l' hl'
        rcases List.mem_cons.mp hl' with rfl | hl'
        · exact hl
        · exact hown l' hl'
      · rw [run_cons, hr]
        exact hrun

end Potential

end Lts
