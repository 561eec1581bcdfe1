import Scriptor.Proofs.PoolProofs
import Scriptor.Proofs.SettleProofs

/-!
# The io threads: progress

From the start of the constructor to the end of the members, every step of a server and its threads is
paid for by a completion, a spurious wake-up or a signal (`pays`). So it comes to rest, and it rests
only where it should: while it serves and no signal has come, or when nothing of it is left
(`comes_to_rest`).
-/

namespace Scriptor

/-- The steps up to the end, with `m` of `n` threads stored. -/
def Control.potential (n m : ℕ) : Control → ℕ
  | .starting => 3 * (n - m) + n + 7
  | .storing => 3 * (n - m) + n + 5
  | .serving => m + 6
  | .stopping _ => m + 5
  | .joining _ next => m - next + 4
  | .joiningThread => 3
  | .unwinding => 2
  | .clearing => 1
  | .gone => 0
  | .terminated => 0

theorem Server.potential_stopped (s : Server) :
    ({ s with stopped := true } : Server).potential ≤ s.potential := by
  simp [Server.potential]

theorem Server.potential_joined (s : Server) :
    ({ s with joined := true } : Server).potential ≤ s.potential := by
  simp [Server.potential]

theorem Server.busy_of_push {P : Platform} {s t : Server} {k : ℕ}
    (h : (lts P).step s (.push k) = some t) : s.busy k = true := by
  cases Step.of_step h with
  | pushMove hk hp hl => simp [busy_of_getElem? hk, Session.idle, hp]
  | enterLoop hk hp hl => simp [busy_of_getElem? hk, Session.idle, hp]
  | pushCopy hk hp hn => simp [busy_of_getElem? hk, Session.idle, hp]
  | leaveLoop hk hp hn => simp [busy_of_getElem? hk, Session.idle, hp]

theorem Server.busy_of_read {P : Platform} {s t : Server} {k : ℕ}
    (h : (lts P).step s (.read k) = some t) : s.busy k = true := by
  cases Step.of_step h with
  | read hk hp => simp [busy_of_getElem? hk, Session.idle, hp]

namespace Pool

variable {P : Platform} {s s' s₀ t : Pool} {a : Action} {ls ls' : List Action}
  {acceptors : List AcceptorKind} {levels : List ℤ} {opt : AllOptions}

/-- The steps still to be taken, up to what comes from outside. -/
def potential (s : Pool) : ℕ :=
  s.server.potential + s.control.potential s.nThreads s.mIocThreads.length +
    s.threads.countP (· ≠ .ended)

/-- What a step brings in, with `n` loggers and `m` acceptors. -/
def Action.credit (n m : ℕ) : Action → ℕ
  | .signal _ => 1
  | .handle _ b => b.credit n m
  | .logger _ b => b.credit
  | _ => 0

/-- The owner of the server takes a step. -/
theorem potential_lt {r : Server} {objects : List (Option ℕ)} {last : Option ℕ} {c : Control}
    {credit : ℕ} (hserver : r.potential ≤ s.server.potential)
    (hcontrol : c.potential s.nThreads objects.length + 1 ≤
      s.control.potential s.nThreads s.mIocThreads.length) :
    ({ s with server := r, mIocThreads := objects, thread := last, control := c } : Pool).potential +
      1 ≤ s.potential + credit := by
  simp only [potential]
  omega

theorem countP_not_ended {threads : List IoThread} {n : ℕ} {here : IoThread}
    (ht : threads[n]? = some here) (hhere : here ≠ .ended) (next : IoThread) :
    (threads.set n next).countP (· ≠ .ended) + (if next = .ended then 1 else 0) =
      threads.countP (· ≠ .ended) := by
  have hcount := countP_set_add (p := (· ≠ .ended)) ht next
  simp only [decide_eq_true_eq, if_pos hhere] at hcount
  by_cases hnext : next = .ended
  · simp only [hnext, ne_eq, not_true_eq_false, if_false] at hcount ⊢
    simpa using hcount
  · simp only [hnext, ne_eq, not_false_eq_true, if_true, if_false] at hcount ⊢
    omega

theorem potential_step (hs : Inv P acceptors levels s) (h : (lts P).step s a = some s') :
    s'.potential + 1 ≤ s.potential + a.credit levels.length acceptors.length := by
  obtain ⟨bs, hbs⟩ := hs.server
  have hpays := Server.run_paysInv hbs
  have hsize := hs.control.size
  have hstop := Server.potential_stopped s.server
  have hjoin := Server.potential_joined s.server
  cases Step.of_step h with
  | started hc hn =>
    simp only [potential, hc, Control.potential, Action.credit, List.countP_append]
    simp
    omega
  | notStarted hc hn =>
    refine potential_lt (Nat.le_refl _) ?_
    rw [hc, Control.potential, Control.potential]
    omega
  | stored hc =>
    have hlt := hs.control.storing hc
    refine potential_lt (Nat.le_refl _) ?_
    rw [hc, Control.potential, Control.potential, List.length_append, List.length_singleton]
    omega
  | notStored hc =>
    have hlt := hs.control.storing hc
    refine potential_lt (Nat.le_refl _) ?_
    rw [hc, Control.potential, Control.potential]
    omega
  | constructed hc hn =>
    refine potential_lt (Nat.le_refl _) ?_
    rw [hc, Control.potential, Control.potential]
    omega
  | signal n => exact Nat.le_refl _
  | leave hc hg =>
    refine potential_lt (Nat.le_refl _) ?_
    rw [hc, Control.potential, Control.potential]
  | stop hc =>
    refine potential_lt hstop ?_
    rw [hc, Control.potential, Control.potential]
    omega
  | joined hc ho ht =>
    have hlt := (List.getElem?_eq_some_iff.mp ho).1
    refine potential_lt (Nat.le_refl _) ?_
    rw [hc, Control.potential, Control.potential, List.length_set]
    omega
  | notJoinable hc ho =>
    have hlt := (List.getElem?_eq_some_iff.mp ho).1
    refine potential_lt (Nat.le_refl _) ?_
    rw [hc, Control.potential, Control.potential]
    omega
  | @returned caller next hc ho =>
    cases caller with
    | destructor =>
      refine potential_lt hjoin ?_
      rw [hc, Control.potential, Control.potential]
      omega
    | notStarted =>
      refine potential_lt (Nat.le_refl _) ?_
      rw [hc, Control.potential, Control.potential]
      omega
    | notStored =>
      refine potential_lt (Nat.le_refl _) ?_
      rw [hc, Control.potential, Control.potential]
      omega
  | joinThread hc ho ht =>
    refine potential_lt (Nat.le_refl _) ?_
    rw [hc, Control.potential, Control.potential]
  | unwind hc ho =>
    refine potential_lt hjoin ?_
    rw [hc, Control.potential, Control.potential]
  | unwindJoinable hc ho =>
    refine potential_lt (Nat.le_refl _) ?_
    rw [hc, Control.potential, Control.potential]
    omega
  | destroyed hc hd ho =>
    refine potential_lt (Nat.le_refl _) ?_
    rw [hc, Control.potential, Control.potential]
  | destroyedJoinable hc ho =>
    refine potential_lt (Nat.le_refl _) ?_
    rw [hc, Control.potential, Control.potential]
  | @handle t b here next r ht hb hm =>
    have hserver := Server.potential_step hpays hb
    have hcount := countP_not_ended ht hm.here_ne_ended next
    rw [if_neg hm.next_ne_ended] at hcount
    simp only [potential, Action.credit]
    omega
  | finish ht hf =>
    have hcount := countP_not_ended ht (by simp) .ended
    rw [if_pos rfl] at hcount
    simp only [potential, Action.credit]
    omega
  | logger hb =>
    have hserver := Server.potential_step hpays hb
    simp only [Server.Action.credit] at hserver
    simp only [potential, Action.credit]
    omega

/-- Every step of a server and its threads is paid for from outside. -/
theorem pays (P : Platform) (hne : acceptors ≠ []) (levels : List ℤ) :
    Lts.Pays (lts P) (Inv P acceptors levels) potential
      (Action.credit levels.length acceptors.length) :=
  ⟨fun _ _ _ hs h => hs.step hne h, fun _ _ _ hs h => potential_step hs h⟩

/-! ## Where a server and its threads rest -/

/-- All steps but those that others decide on: completions, spurious wake-ups, failures of the sinks,
and signals. -/
def Action.isOwn : Action → Bool
  | .signal _ => false
  | .handle _ b => b.isOwn
  | .logger _ b => b.isOwn || b = .setDone
  | _ => true

/-- No step is left but those of others. -/
def Settled (P : Platform) (s : Pool) : Prop := ∀ a, Action.isOwn a = true → (lts P).step s a = none

theorem credit_of_isOwn {n m : ℕ} (ha : a.isOwn = true) : a.credit n m = 0 := by
  cases a with
  | handle t b => exact Server.credit_of_isOwn ha
  | logger j b =>
    cases b <;> simp [Action.isOwn, Logger.Action.isOwn] at ha <;> rfl
  | signal n => simp [Action.isOwn] at ha
  | _ => rfl

/-- A thread that is in a handler takes the step of the handler. -/
theorem handle_ne_none {n : ℕ} {b : Server.Action} {here next : IoThread} {r : Server}
    (hrun : s.server.terminated = false) (halive : s.control ≠ .terminated)
    (ht : s.threads[n]? = some here) (hb : (Server.lts P).step s.server b = some r)
    (hm : Moves s.server r b here next) : (lts P).step s (.handle n b) ≠ none := by
  have hact : s.server.act P b = some r := by simpa [Server.lts, hrun] using hb
  have hstep : (lts P).step s (.handle n b) = s.handle P n b := by
    simp [lts, hrun, halive, act]
  rw [hstep]
  cases hm <;> simp only [Server.act] at hact <;> simp [handle, inThread, ht, hact]

section

variable (hs : Inv P acceptors levels s) (hsettled : Settled P s)
  (hrun : s.server.terminated = false)

include hs hsettled hrun

theorem Settled.act (ha : a.isOwn = true) : s.act P a = none := by
  simpa [lts, hrun, hs.control.alive] using hsettled a ha

/-- A handler in progress is in a thread, so where no thread has a step the server has none. -/
theorem Settled.server : Server.Settled P s.server := by
  intro b hb
  by_contra hsome
  obtain ⟨r, hr⟩ := Option.ne_none_iff_exists'.mp hsome
  have hthread : ∀ here next, here ∈ s.threads → Moves s.server r b here next → False := by
    intro here next hmem hm
    obtain ⟨n, hn⟩ := List.mem_iff_getElem?.mp hmem
    exact handle_ne_none hrun hs.control.alive hn hr hm (hsettled (.handle n b) hb)
  cases b with
  | acceptNext n =>
    have hmem : IoThread.accepting ∈ s.threads := by
      rw [← List.count_pos_iff, hs.handlers.accepting]
      cases Server.Step.of_step hr with
      | acceptNext hh hi => exact Nat.zero_lt_of_lt (List.getElem?_eq_some_iff.mp hh).1
      | acceptEnd hh hi => exact Nat.zero_lt_of_lt (List.getElem?_eq_some_iff.mp hh).1
    by_cases hlen : r.accepting.length < s.server.accepting.length
    · exact hthread _ _ hmem (.acceptEnd n hlen)
    · exact hthread _ _ hmem (.acceptNext n (Nat.le_of_not_lt hlen))
  | push k =>
    have hmem : IoThread.reading k ∈ s.threads := by
      rw [← List.count_pos_iff, hs.handlers.reading k, Server.busy_of_push hr]
      exact Nat.zero_lt_one
    exact hthread _ _ hmem (.push k)
  | read k =>
    have hmem : IoThread.reading k ∈ s.threads := by
      rw [← List.count_pos_iff, hs.handlers.reading k, Server.busy_of_read hr]
      exact Nat.zero_lt_one
    exact hthread _ _ hmem (.read k)
  | logger j b =>
    have hown : (Action.logger j b).isOwn = true := by
      have hb' : b.isOwn = true := hb
      simp [Action.isOwn, hb']
    have hstuck := hsettled.act hs hrun hown
    have hact : s.server.loggerStep j b = some r := by
      simpa [Server.lts, Server.act, hrun] using hr
    simp [Pool.act, Pool.loggerStep, hact] at hstuck
  | _ => simp [Server.Action.isOwn] at hb

/-- After `m_ioc.stop()` all threads have ended. -/
theorem Settled.ended (hstop : s.server.stopped = true) : ∀ thread ∈ s.threads, thread = .ended := by
  intro thread hthread
  have hquiet := (hsettled.server hs hrun).quiescent hrun
  obtain ⟨haccepting, hidle⟩ := Server.quiescent_iff.mp hquiet
  obtain ⟨n, hn⟩ := List.mem_iff_getElem?.mp hthread
  cases thread with
  | ended => rfl
  | free =>
    have hstuck := hsettled.act hs hrun (a := .finish n) rfl
    simp [Pool.act, Pool.finish, hn, hstop] at hstuck
  | accepting =>
    have hcount := List.count_pos_iff.mpr hthread
    rw [hs.handlers.accepting, haccepting] at hcount
    simp at hcount
  | reading k =>
    have hcount := List.count_pos_iff.mpr hthread
    rw [hs.handlers.reading k] at hcount
    cases hk : s.server.sessions[k]? with
    | none => simp [Server.busy, hk] at hcount
    | some session =>
      rw [Server.busy_of_getElem? hk, hidle session (List.mem_of_getElem? hk)] at hcount
      simp at hcount

/-- The owner of the server waits for nobody but a signal: whichever thread it joins has ended, and a
thread that could not be started or stored is something that may happen. -/
theorem Settled.control : s.control = .gone ∨ s.control = .clearing ∨ s.control = .serving := by
  have hstuck : ∀ {a : Action}, a.isOwn = true → s.act P a = none := hsettled.act hs hrun
  have hended : s.control.stopped = true → ∀ n < s.threads.length, s.threads[n]? = some .ended := by
    intro hstop n hn
    have hall := hsettled.ended hs hrun (hs.control.stopped.trans hstop)
    rw [List.getElem?_eq_getElem hn, hall _ (List.getElem_mem hn)]
  have hlength := hs.control.length
  cases hc : s.control with
  | gone => exact .inl rfl
  | clearing => exact .inr (.inl rfl)
  | serving => exact .inr (.inr rfl)
  | terminated => exact absurd hc hs.control.alive
  | starting =>
    have hstart := hstuck (a := .start false) rfl
    have hconstructed := hstuck (a := .constructed) rfl
    simp [Pool.act, Pool.start, Pool.constructed, hc] at hstart hconstructed
    omega
  | storing =>
    have hstore := hstuck (a := .store false) rfl
    simp [Pool.act, Pool.store, hc] at hstore
  | stopping caller =>
    have hstop := hstuck (a := .stop) rfl
    simp [Pool.act, Pool.stop, hc] at hstop
  | joining caller next =>
    have hjoin := hstuck (a := .joinNext) rfl
    simp only [Pool.act, Pool.joinNext, hc] at hjoin
    split at hjoin
    · rename_i n ho
      have hlt := (List.getElem?_eq_some_iff.mp ho).1
      have hobject := hs.control.objects next hlt
      rw [ho, hc] at hobject
      obtain rfl : n = next := by simpa [Control.joined] using hobject
      have hthreads := hlength (by rw [hc]; rfl)
      rw [hended (by rw [hc]; rfl) n (by omega)] at hjoin
      simp at hjoin
    · simp at hjoin
    · simp at hjoin
  | joiningThread =>
    have hjoin := hstuck (a := .joinThread) rfl
    have hthread := hs.control.thread
    have hthreads := hlength (by rw [hc]; rfl)
    simp only [hc, Control.holds, if_true, Bool.toNat_true] at hthread hthreads
    have hend := hended (by rw [hc]; rfl) s.mIocThreads.length (by omega)
    simp [Pool.act, Pool.joinThread, hc, hthread, hend] at hjoin
  | unwinding =>
    have hunwind := hstuck (a := .unwind) rfl
    simp only [Pool.act, Pool.unwind, hc, if_true] at hunwind
    split_ifs at hunwind

/-- Nothing is left of the loggers that were being destroyed. -/
theorem Settled.not_clearing : s.control ≠ .clearing := by
  intro hc
  obtain ⟨bs, hbs⟩ := hs.server
  have hjoined := hs.control.joined
  rw [hc] at hjoined
  have hdestroy : ∀ j, (Server.lts P).step s.server (.logger j .setDone) = none := by
    intro j
    have hstuck := hsettled.act hs hrun (a := .logger j .setDone) rfl
    simp only [Pool.act, Pool.loggerStep, Option.map_eq_none_iff] at hstuck
    simpa [Server.lts, Server.act, hrun] using hstuck
  have hreturned : ∀ node ∈ s.server.mLoggers, node.logger.destructor = .returned := by
    intro node hnode
    obtain ⟨j, hj⟩ := List.mem_iff_getElem?.mp hnode
    exact Server.returned_of_settled hbs hrun hjoined (hsettled.server hs hrun) hdestroy j node hj
  have hstuck := hsettled.act hs hrun (a := .destroyed) rfl
  simp only [Pool.act, Pool.destroyed, if_pos (And.intro hc hreturned)] at hstuck
  split_ifs at hstuck

/-- A server that serves waits with nothing queued. -/
theorem Settled.drained (hc : s.control = .serving) :
    ∀ node ∈ s.server.mLoggers, node.logger.drained = true := by
  intro node hnode
  obtain ⟨bs, hbs⟩ := hs.server
  obtain ⟨j, hj⟩ := List.mem_iff_getElem?.mp hnode
  obtain ⟨level, as, -, has⟩ := Server.exists_logger_run hbs hj
  have hjoined := hs.control.joined
  rw [hc] at hjoined
  have halive := (Server.run_shutdownInv hbs).alive hjoined node hnode
  have hworker : node.logger.worker ≠ .terminated := by
    have hall := List.any_eq_false.mp hrun node hnode
    simpa using hall
  rcases Logger.settled_cases (.run has) (.run has)
    ((hsettled.server hs hrun).logger hrun hj) with hw | hd | ⟨hd, -⟩
  · exact absurd hw hworker
  · simp [halive] at hd
  · exact hd

end

/-- Where a server and its threads may rest: the process has ended, nothing is left of them, or the
server serves and no signal has come. -/
def AtRest (s : Pool) : Prop :=
  s.server.terminated = true ∨ s.control = .gone ∨
    s.control = .serving ∧ s.gSignal = 0 ∧ s.server.quiescent = true ∧
      ∀ node ∈ s.server.mLoggers, node.logger.drained = true

theorem Settled.atRest (hs : Inv P acceptors levels s) (hsettled : Settled P s) : AtRest s := by
  cases hrun : s.server.terminated with
  | true => exact .inl hrun
  | false =>
    rcases hsettled.control hs hrun with hc | hc | hc
    · exact .inr (.inl hc)
    · exact absurd hc (hsettled.not_clearing hs hrun)
    · refine .inr (.inr ⟨hc, ?_, (hsettled.server hs hrun).quiescent hrun, hsettled.drained hs hrun hc⟩)
      have hstuck := hsettled.act hs hrun (a := .leave) rfl
      by_contra hsignal
      simp [Pool.act, Pool.leave, hc, hsignal] at hstuck

/-- By its own steps a server comes to rest, with its threads. -/
theorem exists_settled (h₀ : create opt = .ok s₀) (h : (lts P).run s₀ ls = some s) :
    ∃ ls' t, (∀ a ∈ ls', Action.isOwn a = true) ∧ (lts P).run s ls' = some t ∧ Settled P t := by
  obtain ⟨-, hne⟩ := eq_of_create h₀
  obtain ⟨hs, -, -⟩ := run_inv h₀ h
  exact (pays P hne opt.levels).exists_settled (fun a => a.isOwn = true)
    (fun a ha => credit_of_isOwn ha) hs

/-- From every state of the life of a server, whatever fails in it and however its threads interleave:
its own steps lead to rest, no interleaving goes on for longer than the potential and what comes from
outside pay for, and it rests only where it should. So `join` never waits in vain, a constructor that
fails ends, and so does the program after a signal, unless a sink ends the process. -/
theorem comes_to_rest (h₀ : create opt = .ok s₀) (h : (lts P).run s₀ ls = some s) :
    (∃ ls' t, (∀ a ∈ ls', Action.isOwn a = true) ∧ (lts P).run s ls' = some t ∧ Settled P t) ∧
      ∀ ls' t, (lts P).run s ls' = some t →
        ls'.length ≤ s.potential +
            (ls'.map (Action.credit opt.levels.length opt.acceptors.length)).sum ∧
          (Settled P t → AtRest t) := by
  obtain ⟨-, hne⟩ := eq_of_create h₀
  obtain ⟨hs, -, -⟩ := run_inv h₀ h
  refine ⟨exists_settled h₀ h, ?_⟩
  intro ls' t hrun
  have hlength := (pays P hne opt.levels).run_length_le hs hrun
  refine ⟨by omega, ?_⟩
  intro hsettled
  obtain ⟨ht, -, -⟩ := run_inv h₀ (Lts.run_append_eq_some.mpr ⟨s, h, hrun⟩)
  exact hsettled.atRest ht

/-- From the moment at which the second thread could not be stored, with a handler in progress. -/
theorem comes_to_rest_failing :
    ∃ s : Pool, (lts referencePlatform).run sampleCreated (sampleRun.take 5) = some s ∧
      ∃ ls' t, (∀ a ∈ ls', Action.isOwn a = true) ∧
        (lts referencePlatform).run s ls' = some t ∧ AtRest t := by
  have hrun : ((lts referencePlatform).run sampleCreated (sampleRun.take 5)).isSome = true := by
    decide +kernel
  obtain ⟨s, hs⟩ := Option.isSome_iff_exists.mp hrun
  obtain ⟨⟨ls', t, hown, ht, hsettled⟩, hrest⟩ := comes_to_rest create_sample hs
  exact ⟨s, hs, ls', t, hown, ht, (hrest ls' t ht).2 hsettled⟩

/-! ## With sinks that do not throw -/

theorem throws_of_isOwn (ha : a.isOwn = true) : a.throws = false := by
  cases a with
  | handle n b => exact Server.throws_of_isOwn ha
  | logger j b =>
    cases b <;> simp [Action.isOwn, Logger.Action.isOwn] at ha <;>
      simp [Action.throws, Logger.Action.throws, ha]
  | _ => rfl

/-- A step of the server that is not the owner's is one of the threads or of a logger. -/
theorem throws_of_mem_seen {b : Server.Action} (hb : b ∈ a.seen) : a.throws = b.throws := by
  cases a with
  | handle n c =>
    obtain rfl := List.mem_singleton.mp hb
    rfl
  | logger j c =>
    obtain rfl := List.mem_singleton.mp hb
    rfl
  | _ => simp [Action.seen] at hb

/-- Where no sink throws, the server takes a run in which no sink throws. -/
theorem exists_quiet_server (h₀ : create opt = .ok s₀) (h : (quiet P).run s₀ ls = some s) :
    ∃ bs, (Server.quiet P).run (.init opt.acceptors opt.levels) bs = some s.server := by
  obtain ⟨hlts, hquiet⟩ := Lts.run_restrict_iff.mp h
  obtain ⟨-, -, bs, hbs, hseen⟩ := run_inv h₀ hlts
  obtain ⟨rfl, -⟩ := eq_of_create h₀
  refine ⟨bs, Lts.run_restrict_iff.mpr ⟨hbs, ?_⟩⟩
  intro b hb
  cases hthrows : b.throws with
  | false => rfl
  | true =>
    have hmem : b ∈ bs.flatMap Server.Action.seen := by
      refine List.mem_flatMap.mpr ⟨b, hb, ?_⟩
      cases b with
      | logger j c => exact List.mem_singleton_self _
      | _ => simp [Server.Action.throws] at hthrows
    rw [hseen] at hmem
    obtain ⟨a, ha, hba⟩ := List.mem_flatMap.mp hmem
    have hnot := hquiet a ha
    simp [throws_of_mem_seen hba, hthrows] at hnot

/-- With sinks that do not throw, a server and its threads come to rest by their own steps from every
state. If no signal has come by then, the server serves, and all the bytes that its threads have
received are in the sinks, decoded and flushed; otherwise nothing is left of it. -/
theorem hands_over (h₀ : create opt = .ok s₀) (h : (quiet P).run s₀ ls = some s) :
    (∃ ls' t, (∀ a ∈ ls', Action.isOwn a = true) ∧ (quiet P).run s ls' = some t ∧ Settled P t) ∧
      ∀ ls' t, (quiet P).run s ls' = some t → Settled P t →
        t.control = .gone ∨
          t.control = .serving ∧ t.gSignal = 0 ∧ Server.HandedOver P t.server := by
  refine ⟨?_, ?_⟩
  · obtain ⟨ls', t, hown, hrun, hsettled⟩ := exists_settled h₀ (Lts.run_of_restrict h)
    refine ⟨ls', t, hown, Lts.run_restrict_iff.mpr ⟨hrun, ?_⟩, hsettled⟩
    intro a ha
    rw [throws_of_isOwn (hown a ha)]
    rfl
  · intro ls' t hrun hsettled
    have hwhole : (quiet P).run s₀ (ls ++ ls') = some t :=
      Lts.run_append_eq_some.mpr ⟨s, h, hrun⟩
    obtain ⟨bs, hbs⟩ := exists_quiet_server h₀ hwhole
    obtain ⟨hs, -, -⟩ := run_inv h₀ (Lts.run_of_restrict hwhole)
    have halive := Server.not_terminated_of_quiet hbs
    rcases hsettled.atRest hs with hterm | hgone | ⟨hc, hsignal, -, -⟩
    · simp [halive] at hterm
    · exact .inl hgone
    · have hjoined := hs.control.joined
      rw [hc] at hjoined
      exact .inr ⟨hc, hsignal, Server.handedOver_of_settled hbs hjoined (hsettled.server hs halive)⟩

/-- Two threads: one is in the handler of an accept, the other one has read a log. -/
theorem hands_over_two_threads :
    ∃ s : Pool, (quiet referencePlatform).run sampleCreated
        [.start true, .store true, .start true, .store true, .constructed,
          .handle 1 (.accepted 0 true), .handle 0 (.readDone 0 (ascii "\x7b\x7d") fun _ => 0)] =
        some s ∧
      ∃ ls' t, (quiet referencePlatform).run s ls' = some t ∧
        (t.control = .gone ∨ t.control = .serving ∧ t.gSignal = 0 ∧
          Server.HandedOver referencePlatform t.server) := by
  have hrun : ((quiet referencePlatform).run sampleCreated
      [.start true, .store true, .start true, .store true, .constructed,
        .handle 1 (.accepted 0 true),
        .handle 0 (.readDone 0 (ascii "\x7b\x7d") fun _ => 0)]).isSome = true := by
    decide +kernel
  obtain ⟨s, hs⟩ := Option.isSome_iff_exists.mp hrun
  obtain ⟨⟨ls', t, -, ht, hsettled⟩, hrest⟩ := hands_over create_sample hs
  exact ⟨s, hs, ls', t, ht, hrest ls' t ht hsettled⟩

end Pool

end Scriptor
