import Scriptor.Proofs.ServerProofs

/-!
# The server: outstanding accepts

The handler of an accept calls `accept`, which starts an operation on every acceptor and not only on
the one that completed. So a completed accept costs its acceptor one operation and gives every
acceptor one (`pending_add_completions`): with one acceptor the balance is kept, with more of them the
operations pile up (`one_accept_pending_iff`).
-/

universe u

namespace Scriptor

/-! ## Counting in lists -/

theorem countP_set_add {α : Type u} {p : α → Bool} {l : List α} {n : ℕ} {x : α} (h : l[n]? = some x)
    (y : α) : (l.set n y).countP p + (if p x then 1 else 0) = l.countP p + if p y then 1 else 0 := by
  obtain ⟨hlt, rfl⟩ := List.getElem?_eq_some_iff.mp h
  have hle : (if p l[n] then 1 else 0) ≤ l.countP p := List.boole_getElem_le_countP hlt
  rw [List.countP_set hlt]
  omega

theorem countP_eraseIdx_of_neg {α : Type u} {p : α → Bool} {l : List α} {n : ℕ} {x : α}
    (h : l[n]? = some x) (hx : p x = false) : (l.eraseIdx n).countP p = l.countP p := by
  obtain ⟨hlt, rfl⟩ := List.getElem?_eq_some_iff.mp h
  rw [← (List.getElem_cons_eraseIdx_perm hlt).countP_eq p, List.countP_cons, hx]
  rfl

namespace Server

variable {P : Platform} {s t : Server} {a : Action} {ls : List Action}
  {acceptors : List AcceptorKind} {levels : List ℤ} {i : ℕ}

/-! ## The balance of an acceptor -/

/-- The accepts that completed on the acceptor `i` in a run. -/
def completions (ls : List Action) (i : ℕ) : ℕ := ls.countP (Action.acceptedOn i)

/-- The accepts that completed in a run. -/
def accepts (ls : List Action) : ℕ := ls.countP Action.isAccepted

/-- The running handlers that have yet to reach the acceptor `i`. -/
def coming (s : Server) (i : ℕ) : ℕ := s.accepting.countP (· ≤ i)

/-- Every accept that completed owes each acceptor an operation; the constructor has started the
first one. -/
structure AcceptInv (n : ℕ) (ls : List Action) (s : Server) : Prop where
  /-- There are as many acceptors as at the beginning. -/
  length : s.mAcceptors.length = n
  /-- Accepts complete on acceptors that there are. -/
  index : ∀ i ok, .accepted i ok ∈ ls → i < n
  /-- What is pending, has completed or is coming is what is owed. -/
  balance : ∀ i acceptor, s.mAcceptors[i]? = some acceptor →
    acceptor.pending + completions ls i + s.coming i = 1 + accepts ls

theorem accepts_append (ls : List Action) (a : Action) :
    accepts (ls ++ [a]) = accepts ls + if a.isAccepted then 1 else 0 := by
  simp [accepts, List.countP_append, List.countP_singleton]

theorem completions_append (ls : List Action) (a : Action) (i : ℕ) :
    completions (ls ++ [a]) i = completions ls i + if a.acceptedOn i then 1 else 0 := by
  simp [completions, List.countP_append, List.countP_singleton]

theorem acceptedOn_imp (h : a.acceptedOn i = true) : a.isAccepted = true := by
  cases a with
  | accepted i' ok => rfl
  | _ => simp [Action.acceptedOn] at h

/-- A step of another kind leaves the balance as it is. -/
theorem AcceptInv.other {n : ℕ} (hs : AcceptInv n ls s) (ha : a.isAccepted = false)
    (hacceptors : t.mAcceptors = s.mAcceptors) (haccepting : t.accepting = s.accepting) :
    AcceptInv n (ls ++ [a]) t := by
  obtain ⟨hlength, hindex, hbalance⟩ := hs
  refine ⟨by rw [hacceptors]; exact hlength, ?_, ?_⟩
  · intro i ok hmem
    rcases List.mem_append.mp hmem with hmem | hmem
    · exact hindex i ok hmem
    · obtain rfl := List.mem_singleton.mp hmem
      simp [Action.isAccepted] at ha
  · intro i acceptor hi
    have hon : a.acceptedOn i = false := by
      by_contra hon
      rw [acceptedOn_imp (by simpa using hon)] at ha
      simp at ha
    have hold := hbalance i acceptor (by rw [← hacceptors]; exact hi)
    have hcoming : t.coming i = s.coming i := by rw [coming, haccepting]; rfl
    rw [completions_append, accepts_append, ha, hon, hcoming]
    simpa using hold

theorem AcceptInv.accepted {n : ℕ} (hs : AcceptInv n ls s) {acceptor : Acceptor}
    (hi : s.mAcceptors[i]? = some acceptor) (hp : 0 < acceptor.pending) (ok : Bool)
    (sessions : List Session) :
    AcceptInv n (ls ++ [.accepted i ok]) { s with
      mAcceptors := s.mAcceptors.set i { acceptor with pending := acceptor.pending - 1 }
      sessions := sessions
      accepting := s.accepting ++ [0] } := by
  obtain ⟨hlength, hindex, hbalance⟩ := hs
  have hlt : i < s.mAcceptors.length := (List.getElem?_eq_some_iff.mp hi).1
  refine ⟨by simpa using hlength, ?_, ?_⟩
  · intro i' ok' hmem
    rcases List.mem_append.mp hmem with hmem | hmem
    · exact hindex i' ok' hmem
    · obtain ⟨rfl, -⟩ : i' = i ∧ ok' = ok := by simpa using hmem
      omega
  · intro i' acceptor' hi'
    have hcoming : (s.accepting ++ [0]).countP (· ≤ i') = s.coming i' + 1 := by
      simp [coming, List.countP_append]
    have htotal : accepts (ls ++ [.accepted i ok]) = accepts ls + 1 := accepts_append ls _
    show acceptor'.pending + completions (ls ++ [.accepted i ok]) i' +
      (s.accepting ++ [0]).countP (· ≤ i') = _
    rw [hcoming, htotal, completions_append]
    by_cases heq : i' = i
    · subst heq
      have hold := hbalance i' acceptor hi
      obtain rfl : { acceptor with pending := acceptor.pending - 1 } = acceptor' := by
        simpa [List.getElem?_set_self hlt] using hi'
      simp only [Action.acceptedOn, decide_true, if_true]
      omega
    · have hold := hbalance i' acceptor' (by
        rw [← List.getElem?_set_ne (Ne.symm heq)]
        exact hi')
      simp only [Action.acceptedOn, heq, decide_false, Bool.false_eq_true, if_false]
      omega

theorem AcceptInv.acceptNext {n m : ℕ} (hs : AcceptInv n ls s) {acceptor : Acceptor}
    (hm : s.accepting[m]? = some i) (hi : s.mAcceptors[i]? = some acceptor) :
    AcceptInv n (ls ++ [.acceptNext m]) { s with
      mAcceptors := s.mAcceptors.set i acceptor.asyncAccept
      accepting := s.accepting.set m (i + 1) } := by
  obtain ⟨hlength, hindex, hbalance⟩ := hs
  have hlt : i < s.mAcceptors.length := (List.getElem?_eq_some_iff.mp hi).1
  refine ⟨by simpa using hlength, ?_, ?_⟩
  · intro i' ok hmem
    exact hindex i' ok (by simpa using hmem)
  · intro i' acceptor' hi'
    have hcoming : (s.accepting.set m (i + 1)).countP (· ≤ i') + (if i ≤ i' then 1 else 0) =
        s.coming i' + if i + 1 ≤ i' then 1 else 0 := by
      simpa [coming] using countP_set_add (p := (· ≤ i')) hm (i + 1)
    show acceptor'.pending + completions (ls ++ [.acceptNext m]) i' +
      (s.accepting.set m (i + 1)).countP (· ≤ i') = _
    rw [completions_append, accepts_append]
    simp only [Action.acceptedOn, Action.isAccepted, Bool.false_eq_true, if_false, Nat.add_zero]
    by_cases heq : i' = i
    · subst heq
      have hold := hbalance i' acceptor hi
      obtain rfl : acceptor.asyncAccept = acceptor' := by
        simpa [List.getElem?_set_self hlt] using hi'
      have hpending : acceptor.asyncAccept.pending = acceptor.pending + 1 := rfl
      rw [if_pos (Nat.le_refl i'), if_neg (Nat.not_succ_le_self i')] at hcoming
      omega
    · have hold := hbalance i' acceptor' (by
        rw [← List.getElem?_set_ne (Ne.symm heq)]
        exact hi')
      have hiff : i ≤ i' ↔ i + 1 ≤ i' := by omega
      simp only [hiff] at hcoming
      omega

theorem AcceptInv.acceptEnd {n m : ℕ} (hs : AcceptInv n ls s) (hm : s.accepting[m]? = some i)
    (hi : s.mAcceptors[i]? = none) :
    AcceptInv n (ls ++ [.acceptNext m]) { s with accepting := s.accepting.eraseIdx m } := by
  obtain ⟨hlength, hindex, hbalance⟩ := hs
  have hend : s.mAcceptors.length ≤ i := List.getElem?_eq_none_iff.mp hi
  refine ⟨hlength, ?_, ?_⟩
  · intro i' ok hmem
    exact hindex i' ok (by simpa using hmem)
  · intro i' acceptor hi'
    have hlt : i' < s.mAcceptors.length := (List.getElem?_eq_some_iff.mp hi').1
    have hnot : decide (i ≤ i') = false := by
      rw [decide_eq_false_iff_not]
      omega
    have hcoming : (s.accepting.eraseIdx m).countP (· ≤ i') = s.coming i' :=
      countP_eraseIdx_of_neg hm hnot
    show acceptor.pending + completions (ls ++ [.acceptNext m]) i' +
      (s.accepting.eraseIdx m).countP (· ≤ i') = _
    rw [completions_append, accepts_append, hcoming]
    simpa [Action.acceptedOn, Action.isAccepted] using hbalance i' acceptor hi'

theorem step_acceptInv {n : ℕ} (hs : AcceptInv n ls s) (h : (lts P).step s a = some t) :
    AcceptInv n (ls ++ [a]) t := by
  cases Step.of_step h with
  | accepted ok hi hrun hp => exact hs.accepted hi hp ok _
  | acceptNext hh hi => exact hs.acceptNext hh hi
  | acceptEnd hh hi => exact hs.acceptEnd hh hi
  | readDone data clock hk hrun hp hl => exact hs.other rfl rfl rfl
  | readFailed hk hrun hp => exact hs.other rfl rfl rfl
  | pushMove hk hp hl => exact hs.other rfl rfl rfl
  | enterLoop hk hp hl => exact hs.other rfl rfl rfl
  | pushCopy hk hp hn => exact hs.other rfl rfl rfl
  | leaveLoop hk hp hn => exact hs.other rfl rfl rfl
  | read hk hp => exact hs.other rfl rfl rfl
  | stop hrun => exact hs.other rfl rfl rfl
  | join hrun hj hq => exact hs.other rfl rfl rfl
  | logger hj ha hd hl => exact hs.other rfl rfl rfl

theorem init_acceptInv (acceptors : List AcceptorKind) (levels : List ℤ) :
    AcceptInv acceptors.length [] (init acceptors levels) := by
  refine ⟨by simp [init], by simp, ?_⟩
  intro i acceptor hi
  obtain ⟨kind, -, rfl⟩ := List.mem_map.mp (List.mem_of_getElem? hi)
  rfl

theorem run_acceptInv (h : (lts P).run (init acceptors levels) ls = some s) :
    AcceptInv acceptors.length ls s :=
  Lts.run_invariant (init_acceptInv acceptors levels)
    (fun _ _ _ _ hs ha => step_acceptInv hs ha) ls s h

/-! ## Between the handlers -/

/-- When no handler of an accept runs, an acceptor has one pending operation, and one more for every
accept that completed on another acceptor. -/
theorem pending_add_completions (h : (lts P).run (init acceptors levels) ls = some s)
    (hq : s.accepting = []) {acceptor : Acceptor} (hi : s.mAcceptors[i]? = some acceptor) :
    acceptor.pending + completions ls i = 1 + accepts ls := by
  have hbalance := (run_acceptInv h).balance i acceptor hi
  have hcoming : s.coming i = 0 := by simp [coming, hq]
  omega

theorem completions_le (ls : List Action) (i : ℕ) : completions ls i ≤ accepts ls :=
  List.countP_mono_left fun _ _ ha => acceptedOn_imp ha

/-- An accept completes on one acceptor only. -/
theorem completions_add_le {i' : ℕ} (ls : List Action) (hi : i ≠ i') :
    completions ls i + completions ls i' ≤ accepts ls := by
  induction ls using List.reverseRecOn with
  | nil => simp [completions, accepts]
  | append_singleton ls a ih =>
    rw [completions_append, completions_append, accepts_append]
    cases a with
    | accepted j ok =>
      by_cases hj : i = j
      · have hj' : i' ≠ j := by omega
        simp [Action.acceptedOn, Action.isAccepted, hj, hj'] at ih ⊢
        omega
      · by_cases hj' : i' = j <;> simp [Action.acceptedOn, Action.isAccepted, hj, hj'] at ih ⊢ <;> omega
    | _ => simpa [Action.acceptedOn, Action.isAccepted] using ih

theorem accepts_eq_zero_iff : accepts ls = 0 ↔ ∀ a ∈ ls, a.isAccepted = false := by
  simp [accepts, List.countP_eq_zero]

/-- With one acceptor, all accepts complete on it. -/
theorem AcceptInv.completions_of_one (hs : AcceptInv 1 ls s) : completions ls 0 = accepts ls := by
  refine List.countP_congr ?_
  intro a ha
  refine ⟨acceptedOn_imp, ?_⟩
  intro hacc
  cases a with
  | accepted j ok =>
    obtain rfl : j = 0 := by
      have hj := hs.index j ok ha
      omega
    rfl
  | _ => simp [Action.isAccepted] at hacc

/-- When no handler of an accept runs, every acceptor has exactly one pending operation if and only
if there is only one acceptor, or no accept has completed yet. -/
theorem one_accept_pending_iff (hne : acceptors ≠ [])
    (h : (lts P).run (init acceptors levels) ls = some s) (hq : s.accepting = []) :
    (∀ acceptor ∈ s.mAcceptors, acceptor.pending = 1) ↔
      acceptors.length = 1 ∨ ∀ a ∈ ls, a.isAccepted = false := by
  have hinv := run_acceptInv h
  have hlength := hinv.length
  have hpos : 0 < acceptors.length := List.length_pos_iff.mpr hne
  have hbalance : ∀ i (hi : i < s.mAcceptors.length),
      s.mAcceptors[i].pending + completions ls i = 1 + accepts ls :=
    fun i hi => pending_add_completions h hq (List.getElem?_eq_getElem hi)
  constructor
  · intro hone
    by_cases hsingle : acceptors.length = 1
    · exact .inl hsingle
    · -- Acceptors 0 and 1 share the completions, and both are owed all of them.
      have h₀ : 0 < s.mAcceptors.length := by omega
      have h₁ : 1 < s.mAcceptors.length := by omega
      have hb₀ := hbalance 0 h₀
      have hb₁ := hbalance 1 h₁
      have hshare : completions ls 0 + completions ls 1 ≤ accepts ls := completions_add_le ls (by omega)
      rw [hone _ (List.getElem_mem h₀)] at hb₀
      rw [hone _ (List.getElem_mem h₁)] at hb₁
      have hnone : accepts ls = 0 := by omega
      exact .inr (accepts_eq_zero_iff.mp hnone)
  · intro hcond acceptor hmem
    obtain ⟨i, hi, rfl⟩ := List.getElem_of_mem hmem
    have hb := hbalance i hi
    rcases hcond with hsingle | hnone
    · rw [hsingle] at hinv
      obtain rfl : i = 0 := by omega
      have hall := hinv.completions_of_one
      omega
    · have hzero := accepts_eq_zero_iff.mpr hnone
      have hle := completions_le ls i
      omega

/-- One acceptor, and a connection accepted. -/
theorem one_accept_pending_iff_unix :
    ∃ s : Server, (lts referencePlatform).run (init [.unix] [0])
        [.accepted 0 true, .acceptNext 0, .acceptNext 0] = some s ∧
      ∀ acceptor ∈ s.mAcceptors, acceptor.pending = 1 := by
  refine ⟨_, rfl, ?_⟩
  exact (@one_accept_pending_iff referencePlatform _
    [.accepted 0 true, .acceptNext 0, .acceptNext 0] [.unix] [0] (by simp) rfl rfl).mpr (.inl rfl)

/-- With two acceptors, a single connection leaves one of them with two pending operations. -/
theorem accepts_pile_up :
    ¬ ∀ (P : Platform) (acceptors : List AcceptorKind) (levels : List ℤ) (ls : List Action)
      (s : Server), acceptors ≠ [] → (lts P).run (init acceptors levels) ls = some s →
        s.quiescent = true → ∀ acceptor ∈ s.mAcceptors, acceptor.pending = 1 := by
  intro h
  have hone := h referencePlatform [.unix, .tcp] [0]
    [.accepted 0 true, .acceptNext 0, .acceptNext 0, .acceptNext 0] _ (by simp) rfl rfl
  exact absurd hone (by decide)

end Server

end Scriptor
