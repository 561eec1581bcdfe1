import Scriptor.Proofs.HandlerProofs
import Mathlib.Data.List.Nodup

/-!
# The io threads: how a server is built and taken down

What the thread that owns the server knows of the threads it started is `ControlInv`: which object
stands for which thread, which of them were joined, and that a thread ends only after `m_ioc.stop()`.
With what the handlers do, the threads together take the steps of `Scriptor.Server`
(`threads_follow_server`), and whatever fails, no thread is left behind (`exception_safe`).
-/

namespace Scriptor

/-! ## The owner of the server -/

namespace Control

/-- How many of `m` objects were joined. -/
def joined (m : ℕ) : Control → ℕ
  | .starting => 0
  | .storing => 0
  | .serving => 0
  | .stopping _ => 0
  | .joining _ next => next
  | _ => m

/-- `thread` stands for a thread. -/
def holds : Control → Bool
  | .storing => true
  | .stopping caller => caller = .notStored
  | .joining caller _ => caller = .notStored
  | .joiningThread => true
  | _ => false

/-- Every thread was joined. -/
def allJoined : Control → Bool
  | .unwinding => true
  | .clearing => true
  | .gone => true
  | _ => false

/-- `m_ioc.stop()` was called. -/
def stopped : Control → Bool
  | .starting => false
  | .storing => false
  | .serving => false
  | .stopping _ => false
  | _ => true

/-- The loggers may be destroyed. -/
def destroying : Control → Bool
  | .clearing => true
  | .gone => true
  | _ => false

/-- Before `m_ioc.stop()` nothing was joined and nothing is destroyed. -/
theorem of_not_stopped {c : Control} (hc : c.stopped = false) :
    (∀ m, c.joined m = 0) ∧ c.allJoined = false ∧ c.destroying = false ∧ c ≠ .terminated := by
  cases c <;> simp [stopped] at hc <;> simp [joined, allJoined, destroying]

end Control

namespace Pool

variable {P : Platform} {s s' : Pool} {a : Action} {ls : List Action}

/-- What the owner of the server knows of the threads. -/
structure ControlInv (s : Pool) : Prop where
  /-- No object was destroyed while it stood for a thread. -/
  alive : s.control ≠ .terminated
  size : s.mIocThreads.length ≤ s.nThreads
  /-- There is room for the thread that was started. -/
  storing : s.control = .storing → s.mIocThreads.length < s.nThreads
  /-- A server that serves has all its threads. -/
  serving : s.control = .serving → s.nThreads ≤ s.mIocThreads.length
  /-- The objects stand for the threads in the order in which they were started. -/
  objects : ∀ t < s.mIocThreads.length, s.mIocThreads[t]? =
    some (if t < s.control.joined s.mIocThreads.length then none else some t)
  /-- `thread` stands for the last thread, or for none. -/
  thread : s.thread = if s.control.holds then some s.mIocThreads.length else none
  /-- Every thread has its object, as long as not all were joined. -/
  length : s.control.allJoined = false →
    s.threads.length = s.mIocThreads.length + s.control.holds.toNat
  ended : ∀ t < s.mIocThreads.length, t < s.control.joined s.mIocThreads.length →
    s.threads[t]? = some .ended
  /-- Behind the last `join` there is no thread. -/
  allEnded : s.control.allJoined = true → ∀ thread ∈ s.threads, thread = .ended
  /-- A thread ends only after `m_ioc.stop()`. -/
  onlyStopped : .ended ∈ s.threads → s.server.stopped = true
  stopped : s.server.stopped = s.control.stopped
  joined : s.server.joined = s.control.destroying

/-- The owner goes on without touching the threads. -/
theorem ControlInv.goto (hs : ControlInv s) {c : Control} {g : ℤ} {r : Server}
    (hstopped : r.stopped = c.stopped) (hstop : s.server.stopped = true → r.stopped = true)
    (hjoined : r.joined = c.destroying) (hholds : c.holds = s.control.holds)
    (hall : c.allJoined = s.control.allJoined)
    (hnext : ∀ t < s.mIocThreads.length,
      t < c.joined s.mIocThreads.length ↔ t < s.control.joined s.mIocThreads.length)
    (halive : c ≠ .terminated) (hstoring : c = .storing → s.mIocThreads.length < s.nThreads)
    (hserving : c = .serving → s.nThreads ≤ s.mIocThreads.length) :
    ControlInv { s with server := r, gSignal := g, control := c } where
  alive := halive
  size := hs.size
  storing := hstoring
  serving := hserving
  objects := by
    intro t ht
    simp only [hnext t ht]
    exact hs.objects t ht
  thread := by
    simp only [hholds]
    exact hs.thread
  length := by
    intro hc
    simp only [hholds]
    exact hs.length (hall ▸ hc)
  ended := fun t ht hlt => hs.ended t ht ((hnext t ht).mp hlt)
  allEnded := fun hc => hs.allEnded (hall ▸ hc)
  onlyStopped := fun hmem => hstop (hs.onlyStopped hmem)
  stopped := hstopped
  joined := hjoined

/-- The owner goes on before it calls `m_ioc.stop()`. -/
theorem ControlInv.before (hs : ControlInv s) {c : Control} (hc : s.control.stopped = false)
    (hc' : c.stopped = false) (hholds : c.holds = s.control.holds)
    (hstoring : c = .storing → s.mIocThreads.length < s.nThreads)
    (hserving : c = .serving → s.nThreads ≤ s.mIocThreads.length) :
    ControlInv { s with control := c } := by
  obtain ⟨hnone, hall, hdestroying, -⟩ := Control.of_not_stopped hc
  obtain ⟨hnone', hall', hdestroying', halive⟩ := Control.of_not_stopped hc'
  refine hs.goto (hs.stopped.trans (hc.trans hc'.symm)) id
    (hs.joined.trans (hdestroying.trans hdestroying'.symm)) hholds (hall'.trans hall.symm) ?_ halive
    hstoring hserving
  intro t ht
  rw [hnone, hnone']

/-- An io thread goes from one place to another. -/
theorem ControlInv.setThread (hs : ControlInv s) {t : ℕ} {here next : IoThread} {r : Server}
    (ht : s.threads[t]? = some here) (hhere : here ≠ .ended)
    (hnext : next = .ended → s.server.stopped = true) (hstopped : r.stopped = s.server.stopped)
    (hjoined : r.joined = s.server.joined) :
    ControlInv { s with server := r, threads := s.threads.set t next } := by
  have hall : s.control.allJoined = false := by
    by_contra hall
    exact hhere (hs.allEnded (by simpa using hall) here (List.mem_of_getElem? ht))
  refine ⟨hs.alive, hs.size, hs.storing, hs.serving, hs.objects, hs.thread, ?_, ?_, ?_, ?_, ?_, ?_⟩
  · intro hc
    exact List.length_set.trans (hs.length hc)
  · intro i hi hlt
    have hended := hs.ended i hi hlt
    have hne : t ≠ i := by
      rintro rfl
      rw [ht] at hended
      exact hhere (Option.some.inj hended)
    exact (List.getElem?_set_ne hne).trans hended
  · intro hc
    have hc' : s.control.allJoined = true := hc
    simp [hall] at hc'
  · intro hmem
    rw [hstopped]
    rcases List.mem_or_eq_of_mem_set hmem with hmem | hmem
    · exact hs.onlyStopped hmem
    · exact hnext hmem.symm
  · exact hstopped.trans hs.stopped
  · exact hjoined.trans hs.joined

/-- All that was started was joined, and has ended. -/
theorem ControlInv.all_ended (hs : ControlInv s) (hall : s.control.allJoined = false)
    (hjoined : s.mIocThreads.length ≤ s.control.joined s.mIocThreads.length)
    (hlast : s.control.holds = true → s.threads[s.mIocThreads.length]? = some .ended) :
    ∀ thread ∈ s.threads, thread = .ended := by
  intro thread hthread
  obtain ⟨t, ht⟩ := List.mem_iff_getElem?.mp hthread
  have hlt := (List.getElem?_eq_some_iff.mp ht).1
  rw [hs.length hall] at hlt
  by_cases hstored : t < s.mIocThreads.length
  · have hended := hs.ended t hstored (by omega)
    rw [ht] at hended
    exact Option.some.inj hended
  · cases hholds : s.control.holds with
    | false =>
      rw [hholds, Bool.toNat_false] at hlt
      omega
    | true =>
      rw [hholds, Bool.toNat_true] at hlt
      obtain rfl : t = s.mIocThreads.length := by omega
      have hended := hlast hholds
      rw [ht] at hended
      exact Option.some.inj hended

theorem ControlInv.started (hs : ControlInv s) (hc : s.control = .starting)
    (hn : s.mIocThreads.length < s.nThreads) :
    ControlInv { s with
      threads := s.threads ++ [.free]
      thread := some s.threads.length
      control := .storing } := by
  have hlength := hs.length (by rw [hc]; rfl)
  have hobjects := hs.objects
  simp only [hc, Control.holds, Bool.toNat_false, Nat.add_zero] at hlength
  simp only [hc, Control.joined] at hobjects
  refine ⟨by simp, hs.size, fun _ => hn, by simp, hobjects, ?_, ?_, by simp [Control.joined],
    by simp [Control.allJoined], ?_, by simpa [hc, Control.stopped] using hs.stopped,
    by simpa [hc, Control.destroying] using hs.joined⟩
  · simp [Control.holds, hlength]
  · simp [Control.holds, hlength]
  · intro hmem
    exact hs.onlyStopped (by simpa using hmem)

theorem ControlInv.stored (hs : ControlInv s) (hc : s.control = .storing) :
    ControlInv { s with
      mIocThreads := s.mIocThreads ++ [s.thread]
      thread := none
      control := .starting } := by
  have hlength := hs.length (by rw [hc]; rfl)
  have hthread := hs.thread
  have hobjects := hs.objects
  simp only [hc, Control.holds, Bool.toNat_true, if_true] at hlength hthread
  simp only [hc, Control.joined, Nat.not_lt_zero, if_false] at hobjects
  refine ⟨by simp, ?_, by simp, by simp, ?_, by simp [Control.holds], ?_, by simp [Control.joined],
    by simp [Control.allJoined], hs.onlyStopped, by simpa [hc, Control.stopped] using hs.stopped,
    by simpa [hc, Control.destroying] using hs.joined⟩
  · simpa [Nat.succ_le_iff] using hs.storing hc
  · intro t ht
    simp only [Control.joined, Nat.not_lt_zero, if_false]
    by_cases hlt : t < s.mIocThreads.length
    · rw [List.getElem?_append_left hlt]
      exact hobjects t hlt
    · obtain rfl : t = s.mIocThreads.length := by
        simp only [List.length_append, List.length_singleton] at ht
        omega
      rw [List.getElem?_concat_length, hthread]
  · simp [Control.holds, hlength]

/-- An iteration of the loop of `shutdown`, which joins the thread of the same number. -/
theorem ControlInv.joinedOne (hs : ControlInv s) {caller : Caller} {next t : ℕ}
    (hc : s.control = .joining caller next) (ho : s.mIocThreads[next]? = some (some t))
    (ht : s.threads[t]? = some .ended) :
    ControlInv { s with
      mIocThreads := s.mIocThreads.set next none
      control := .joining caller (next + 1) } := by
  have hlt := (List.getElem?_eq_some_iff.mp ho).1
  have hobjects := hs.objects
  have hended := hs.ended
  have hthread := hs.thread
  simp only [hc, Control.joined] at hobjects hended
  simp only [hc] at hthread
  obtain rfl : t = next := by
    have hnext := hobjects next hlt
    rw [ho] at hnext
    simpa [eq_comm] using hnext
  refine ⟨by simp, by simpa using hs.size, by simp, by simp, ?_, ?_, ?_, ?_,
    by simp [Control.allJoined], hs.onlyStopped, by simpa [hc, Control.stopped] using hs.stopped,
    by simpa [hc, Control.destroying] using hs.joined⟩
  · intro i hi
    simp only [List.length_set] at hi
    simp only [Control.joined]
    by_cases heq : t = i
    · subst heq
      rw [List.getElem?_set_self hlt]
      simp
    · have hiff : i < t + 1 ↔ i < t := by omega
      rw [List.getElem?_set_ne heq]
      simpa only [hiff] using hobjects i hi
  · simp only [List.length_set]
    exact hthread
  · intro _
    simpa [hc, Control.holds, Control.allJoined] using hs.length
  · intro i hi hjoin
    simp only [List.length_set, Control.joined] at hi hjoin
    by_cases heq : i = t
    · rw [heq]
      exact ht
    · exact hended i hi (by omega)

/-- The last thread was joined. -/
theorem ControlInv.joinedLast (hs : ControlInv s) {c : Control} {r : Server} {last : Option ℕ}
    (hlast : last = none) (hended : ∀ thread ∈ s.threads, thread = .ended)
    (hjoined : ∀ t < s.mIocThreads.length, t < s.control.joined s.mIocThreads.length)
    (hall : c.allJoined = true) (hstopped : r.stopped = true) (hflag : r.joined = c.destroying) :
    ControlInv { s with server := r, thread := last, control := c } := by
  have hcontrol : c.joined s.mIocThreads.length = s.mIocThreads.length ∧ c.stopped = true ∧
      c.holds = false ∧ c ≠ .storing ∧ c ≠ .serving ∧ c ≠ .terminated := by
    cases c <;> simp [Control.allJoined] at hall <;> simp [Control.joined, Control.stopped, Control.holds]
  obtain ⟨hnext, hstop, hholds, hstoring, hserving, halive⟩ := hcontrol
  refine ⟨halive, hs.size, fun hc => absurd hc hstoring, fun hc => absurd hc hserving, ?_, ?_,
    fun hc => ?_, ?_, fun _ => hended, fun _ => hstopped, hstopped.trans hstop.symm, hflag⟩
  · intro t ht
    have hobject := hs.objects t ht
    rw [if_pos (hjoined t ht)] at hobject
    simp only [hnext, if_pos ht]
    exact hobject
  · simp [hholds, hlast]
  · simp [hall] at hc
  · intro t ht _
    exact hs.ended t ht (hjoined t ht)

/-- The end of the loop of `shutdown`. -/
theorem ControlInv.joinedAll (hs : ControlInv s) {caller : Caller} {next : ℕ}
    (hc : s.control = .joining caller next) (hend : s.mIocThreads.length ≤ next) :
    ControlInv (s.returned caller) := by
  have hstopped := hs.stopped
  have hjoined := hs.joined
  simp only [hc, Control.stopped, Control.destroying] at hstopped hjoined
  have hnext : ∀ t < s.mIocThreads.length, t < s.control.joined s.mIocThreads.length := by
    intro t ht
    simp only [hc, Control.joined]
    omega
  have hlast : caller ≠ .notStored → s.control.holds = false := by
    intro hcaller
    simpa [hc, Control.holds] using hcaller
  have hnone : caller ≠ .notStored → s.thread = none := by
    intro hcaller
    simpa [hlast hcaller] using hs.thread
  have hended : caller ≠ .notStored → ∀ thread ∈ s.threads, thread = .ended := by
    intro hcaller
    refine hs.all_ended (by rw [hc]; rfl) (by simpa [hc, Control.joined] using hend) ?_
    simp [hlast hcaller]
  cases caller with
  | destructor => exact hs.joinedLast (hnone (by simp)) (hended (by simp)) hnext rfl hstopped rfl
  | notStarted =>
    exact hs.joinedLast (hnone (by simp)) (hended (by simp)) hnext rfl hstopped hjoined
  | notStored =>
    refine hs.goto hstopped id hjoined (by rw [hc]; rfl) (by rw [hc]; rfl) ?_ (by simp) (by simp)
      (by simp)
    exact fun t ht => ⟨fun _ => hnext t ht, fun _ => ht⟩

theorem ControlInv.step (hs : ControlInv s) (hwork : s.server.outOfWork = false)
    (h : Step P s a s') : ControlInv s' := by
  have hstopped := hs.stopped
  have hjoined := hs.joined
  cases h with
  | started hc hn => exact hs.started hc hn
  | notStarted hc hn =>
    exact hs.before (by rw [hc]; rfl) rfl (by rw [hc]; rfl) (by simp) (by simp)
  | stored hc => exact hs.stored hc
  | notStored hc => exact hs.before (by rw [hc]; rfl) rfl (by rw [hc]; rfl) (by simp) (by simp)
  | constructed hc hn =>
    exact hs.before (by rw [hc]; rfl) rfl (by rw [hc]; rfl) (by simp) fun _ => hn
  | signal n =>
    exact hs.goto hstopped id hjoined rfl rfl (fun _ _ => .rfl) hs.alive hs.storing hs.serving
  | leave hc hg => exact hs.before (by rw [hc]; rfl) rfl (by rw [hc]; rfl) (by simp) (by simp)
  | stop hc =>
    exact hs.goto (by rfl) (fun _ => rfl) (by simpa [hc, Control.destroying] using hjoined)
      (by rw [hc]; rfl) (by rw [hc]; rfl) (by simp [hc, Control.joined]) (by simp) (by simp) (by simp)
  | joined hc ho ht => exact hs.joinedOne hc ho ht
  | notJoinable hc ho =>
    have hlt := (List.getElem?_eq_some_iff.mp ho).1
    have hobject := hs.objects _ hlt
    rw [ho] at hobject
    simp [hc, Control.joined] at hobject
  | returned hc ho => exact hs.joinedAll hc (List.getElem?_eq_none_iff.mp ho)
  | @joinThread t hc ho ht =>
    have hthread := hs.thread
    simp only [hc, Control.holds, if_true] at hthread
    rw [ho] at hthread
    obtain rfl := Option.some.inj hthread
    have hnext : s.mIocThreads.length ≤ s.control.joined s.mIocThreads.length := by rw [hc]; rfl
    exact hs.joinedLast rfl (hs.all_ended (by rw [hc]; rfl) hnext fun _ => ht)
      (fun t hlt => hlt.trans_le hnext) rfl (by simpa [hc, Control.stopped] using hstopped)
      (by simpa [hc, Control.destroying] using hjoined)
  | unwind hc ho =>
    exact hs.goto (by simpa [hc, Control.stopped] using hstopped) id rfl (by rw [hc]; rfl)
      (by rw [hc]; rfl) (by simp [hc, Control.joined]) (by simp) (by simp) (by simp)
  | unwindJoinable hc ho =>
    have hthread := hs.thread
    simp only [hc, Control.holds, Bool.false_eq_true, if_false] at hthread
    exact absurd hthread ho
  | destroyed hc hd ho =>
    exact hs.goto (by simpa [hc, Control.stopped] using hstopped) id
      (by simpa [hc, Control.destroying] using hjoined) (by rw [hc]; rfl)
      (by rw [hc]; rfl) (by simp [hc, Control.joined]) (by simp) (by simp) (by simp)
  | destroyedJoinable hc ho =>
    refine absurd ?_ ho
    intro object hobject
    obtain ⟨t, ht⟩ := List.mem_iff_getElem?.mp hobject
    have hlt := (List.getElem?_eq_some_iff.mp ht).1
    have hnone := hs.objects t hlt
    simp only [hc, Control.joined, hlt, if_true] at hnone
    rw [ht] at hnone
    exact Option.some.inj hnone
  | handle ht hb hm =>
    obtain ⟨hstop, hjoin⟩ := hm.flags hb
    exact hs.setThread ht hm.here_ne_ended (fun hnext => absurd hnext hm.next_ne_ended) hstop hjoin
  | finish ht hf =>
    refine hs.setThread ht (by simp) (fun _ => ?_) rfl rfl
    rcases hf with hf | hf
    · exact hf
    · simp [hwork] at hf
  | logger hb =>
    obtain ⟨hstop, hjoin⟩ := Server.step_flags hb (by simp) (by simp)
    exact hs.goto (hstop.trans hstopped) (fun h => hstop.trans h) (hjoin.trans hjoined) rfl rfl
      (fun _ _ => .rfl) hs.alive hs.storing hs.serving

end Pool

/-! ## The server as a whole -/

namespace Server

variable {P : Platform} {s : Server} {ls : List Action} {acceptors : List AcceptorKind}
  {levels : List ℤ}

/-- An acceptor is always owed an operation, so asio has something to wait for. -/
theorem outOfWork_eq_false (hne : acceptors ≠ [])
    (h : (lts P).Reachable (init acceptors levels) s) : s.outOfWork = false := by
  obtain ⟨ls, hls⟩ := h
  have hinv := run_acceptInv hls
  have hpos : 0 < s.mAcceptors.length := by
    rw [hinv.length]
    exact List.length_pos_iff.mpr hne
  by_contra hwork
  simp only [outOfWork, Bool.not_eq_false, decide_eq_true_eq] at hwork
  have hbalance := pending_add_completions hls hwork.1 (List.getElem?_eq_getElem hpos)
  have hzero := hwork.2.1 _ (List.getElem_mem hpos)
  have hle := completions_le ls 0
  omega

/-- The steps of the handlers and of the loggers. -/
def Action.seen : Action → List Action
  | .stop => []
  | .join => []
  | a => [a]

/-- The handlers in progress. -/
def inProgress (s : Server) : ℕ :=
  s.accepting.length + ((List.range s.sessions.length).filter s.busy).length

end Server

namespace Pool

variable {P : Platform} {s s' s₀ : Pool} {a : Action} {ls : List Action}
  {acceptors : List AcceptorKind} {levels : List ℤ} {opt : AllOptions}

/-- The steps of the handlers and of the loggers. -/
def Action.seen : Action → List Server.Action
  | .handle _ b => [b]
  | .logger j b => [.logger j b]
  | _ => []

/-- A logger that was destroyed stays so. -/
theorem step_returned (hs : ∀ node ∈ s.server.mLoggers, node.logger.destructor = .returned)
    {r : Server} {j : ℕ} {b : Logger.Action}
    (hb : (Server.lts P).step s.server (.logger j b) = some r) :
    ∀ node ∈ r.mLoggers, node.logger.destructor = .returned := by
  cases Server.Step.of_step hb with
  | @logger _ _ node logger hj ha hmay hl =>
    have hnode := hs node (List.mem_of_getElem? hj)
    refine Server.forall_setLogger hs ?_
    cases Logger.Step.of_step hl with
    | setDone hd => simp [hnode] at hd
    | notifyDone hd => simp [hnode] at hd
    | join hd hw => simp [hnode] at hd
    | _ => exact hnode

/-- What holds in every state of a server with its threads. -/
structure Inv (P : Platform) (acceptors : List AcceptorKind) (levels : List ℤ) (s : Pool) : Prop where
  control : ControlInv s
  handlers : HandlerInv s.threads s.server
  server : (Server.lts P).Reachable (.init acceptors levels) s.server
  gone : s.control = .gone → ∀ node ∈ s.server.mLoggers, node.logger.destructor = .returned
  bound : s.threads.length ≤ s.nThreads

theorem running_of_step (h : (lts P).step s a = some s') : s.server.terminated = false := by
  simp only [lts] at h
  split_ifs at h with hend
  rw [not_or] at hend
  simpa using hend.1

/-- A step of the threads is at most one of the server, which sees the handlers, the loggers, the call
of `m_ioc.stop()` and the moment at which all threads were joined. -/
theorem step_matched (hne : acceptors ≠ []) (hs : Inv P acceptors levels s)
    (h : (lts P).step s a = some s') : ∃ bs, (Server.lts P).run s.server bs = some s'.server ∧
      bs.flatMap Server.Action.seen = a.seen := by
  have hrun := running_of_step h
  have hstopped := hs.control.stopped
  have hjoined := hs.control.joined
  cases Step.of_step h with
  | stop hc =>
    rw [hc] at hstopped
    refine ⟨[.stop], ?_, rfl⟩
    simp [Lts.run_cons, Server.lts, hrun, Server.act, Server.stop, hstopped, Control.stopped]
  | @returned caller next hc ho =>
    cases caller with
    | destructor =>
      -- All objects were passed in the loop, so all threads have ended.
      have hwork := Server.outOfWork_eq_false hne hs.server
      have hended := (hs.control.step hwork (Step.of_step h)).allEnded rfl
      have hquiet := hs.handlers.quiescent hended
      rw [hc] at hstopped hjoined
      refine ⟨[.join], ?_, rfl⟩
      simp [Lts.run_cons, Server.lts, hrun, Server.act, Server.join, hstopped, hjoined, hquiet,
        Control.stopped, Control.destroying, returned]
    | notStarted => exact ⟨[], rfl, rfl⟩
    | notStored => exact ⟨[], rfl, rfl⟩
  | unwind hc ho =>
    have hquiet := hs.handlers.quiescent (hs.control.allEnded (by rw [hc]; rfl))
    rw [hc] at hstopped hjoined
    refine ⟨[.join], ?_, rfl⟩
    simp [Lts.run_cons, Server.lts, hrun, Server.act, Server.join, hstopped, hjoined, hquiet,
      Control.stopped, Control.destroying]
  | @handle t b here next r ht hb hm =>
    refine ⟨[b], by simp [Lts.run_cons, hb], ?_⟩
    cases hm <;> rfl
  | @logger j b r hb => exact ⟨[.logger j b], by simp [Lts.run_cons, hb], rfl⟩
  | _ => exact ⟨[], rfl, rfl⟩

/-- A thread is started only for an object that is still to be stored. -/
theorem threads_length_le (hs : Inv P acceptors levels s) (h : Step P s a s') :
    s'.threads.length ≤ s'.nThreads := by
  have hbound := hs.bound
  cases h with
  | started hc hn =>
    have hlength := hs.control.length (by rw [hc]; rfl)
    simp only [hc, Control.holds, Bool.toNat_false, Nat.add_zero] at hlength
    simp only [List.length_append, List.length_singleton]
    omega
  | @returned caller next hc ho => cases caller <;> exact hbound
  | handle ht hb hm => exact List.length_set.trans_le hbound
  | finish ht hf => exact List.length_set.trans_le hbound
  | _ => exact hbound

theorem Inv.step (hne : acceptors ≠ []) (hs : Inv P acceptors levels s)
    (h : (lts P).step s a = some s') : Inv P acceptors levels s' := by
  obtain ⟨bs, hbs, -⟩ := step_matched hne hs h
  have hstep := Step.of_step h
  refine ⟨hs.control.step (Server.outOfWork_eq_false hne hs.server) hstep,
    step_handlerInv hs.handlers hstep, hs.server.trans ⟨bs, hbs⟩, ?_, threads_length_le hs hstep⟩
  intro hgone
  cases hstep with
  | destroyed hc hd ho => exact hd
  | signal n => exact hs.gone hgone
  | logger hb => exact step_returned (hs.gone hgone) hb
  | @returned caller next hc ho => cases caller <;> simp [returned] at hgone
  | @handle t b here next r ht hb hm =>
    have hc : s.control = .gone := hgone
    have hended := hs.control.allEnded (by rw [hc]; rfl) here (List.mem_of_getElem? ht)
    exact absurd hended hm.here_ne_ended
  | finish ht hf => exact hs.gone hgone
  | _ => simp at hgone

/-- What the constructor starts its loop with. -/
theorem eq_of_create (h : create opt = .ok s) :
    s = { server := .init opt.acceptors opt.levels, nThreads := opt.nThreads.toNat } ∧
      opt.acceptors ≠ [] := by
  unfold create at h
  cases hserver : Server.create opt.toOptions with
  | error what => simp [hserver, Except.map] at h
  | ok server =>
    rw [hserver] at h
    obtain rfl := Except.ok.inj h
    obtain ⟨rfl, hne, -, -⟩ := Server.eq_of_create hserver
    exact ⟨rfl, hne⟩

theorem init_inv (P : Platform) (acceptors : List AcceptorKind) (levels : List ℤ) (n : ℕ) :
    Inv P acceptors levels { server := .init acceptors levels, nThreads := n } := by
  refine ⟨?_, ⟨rfl, fun k => rfl⟩, .refl _ _, by simp, by simp⟩
  exact ⟨by simp, by simp, by simp, by simp, by simp, rfl, fun _ => rfl, by simp, by simp, by simp,
    rfl, rfl⟩

theorem simulates_server (P : Platform) (hne : acceptors ≠ []) (levels : List ℤ) :
    Lts.Simulates (lts P) (Server.lts P) (Inv P acceptors levels) server Action.seen
      Server.Action.seen :=
  ⟨fun _ _ _ hs h => hs.step hne h, fun _ _ _ hs h => step_matched hne hs h⟩

theorem step_nThreads (h : (lts P).step s a = some s') : s'.nThreads = s.nThreads := by
  cases Step.of_step h with
  | @returned caller next hc ho => cases caller <;> rfl
  | _ => rfl

/-- What holds in every run, and what the server does in it. -/
theorem run_inv (h₀ : create opt = .ok s₀) (h : (lts P).run s₀ ls = some s) :
    Inv P opt.acceptors opt.levels s ∧ s.nThreads = opt.nThreads.toNat ∧
      ∃ bs, (Server.lts P).run s₀.server bs = some s.server ∧
        bs.flatMap Server.Action.seen = ls.flatMap Action.seen := by
  obtain ⟨rfl, hne⟩ := eq_of_create h₀
  obtain ⟨hs, hserver⟩ := (simulates_server P hne opt.levels).run (init_inv P _ _ _) h
  refine ⟨hs, ?_, hserver⟩
  exact Lts.run_preserves (I := fun s => s.nThreads = opt.nThreads.toNat)
    (fun _ _ _ hs ha => (step_nThreads ha).trans hs) rfl h

/-- The handlers in progress are in threads of their own. -/
theorem HandlerInv.inProgress_le {threads : List IoThread} {server : Server}
    (hs : HandlerInv threads server) : server.inProgress ≤ threads.length := by
  set handlers := List.replicate server.accepting.length IoThread.accepting ++
    ((List.range server.sessions.length).filter server.busy).map IoThread.reading with hhandlers
  have hsubperm : handlers.Subperm threads := by
    rw [List.subperm_ext_iff]
    intro thread hthread
    rcases List.mem_append.mp hthread with hthread | hthread
    · obtain rfl := List.eq_of_mem_replicate hthread
      have hnone : (((List.range server.sessions.length).filter server.busy).map
          IoThread.reading).count .accepting = 0 := by
        simp [List.count_eq_zero]
      rw [hhandlers, List.count_append, List.count_replicate_self, hnone, hs.accepting]
      exact Nat.le_refl _
    · obtain ⟨k, hk, rfl⟩ := List.mem_map.mp hthread
      have hbusy := (List.mem_filter.mp hk).2
      have hone : (((List.range server.sessions.length).filter server.busy).map
          IoThread.reading).count (.reading k) ≤ 1 := by
        refine List.nodup_iff_count_le_one.mp (List.Nodup.map ?_ (List.nodup_range.filter _)) _
        exact fun i j hij => by simpa using hij
      rw [hhandlers, List.count_append, List.count_replicate, hs.reading k, hbusy]
      simpa using hone
  have hlength := hsubperm.length_le
  simpa [hhandlers, Server.inProgress] using hlength

/-- Where the threads have ended in `Scriptor.Server`, all of them have, and no object stands for
one. -/
theorem ControlInv.of_joined (hs : ControlInv s) (hj : s.server.joined = true) :
    (∀ thread ∈ s.threads, thread = .ended) ∧ s.thread = none ∧
      ∀ object ∈ s.mIocThreads, object = none := by
  have hdestroying : s.control.destroying = true := hs.joined.symm.trans hj
  obtain ⟨hall, hholds, hjoined⟩ : s.control.allJoined = true ∧ s.control.holds = false ∧
      s.control.joined s.mIocThreads.length = s.mIocThreads.length := by
    cases hc : s.control <;> simp [hc, Control.destroying] at hdestroying <;> exact ⟨rfl, rfl, rfl⟩
  refine ⟨hs.allEnded hall, ?_, ?_⟩
  · rw [hs.thread, hholds]
    rfl
  · intro object hobject
    obtain ⟨t, ht, rfl⟩ := List.getElem_of_mem hobject
    have hnone := hs.objects t ht
    rw [hjoined, if_pos ht, List.getElem?_eq_getElem ht] at hnone
    exact Option.some.inj hnone

/-- The server with its threads does what `Scriptor.Server` does: the same steps of handlers and
loggers in the same order. There the threads end in one step, and where that is taken each of them has
ended and was joined. And no more handlers are in progress than threads were started. -/
theorem threads_follow_server (h₀ : create opt = .ok s₀) (h : (lts P).run s₀ ls = some s) :
    (∃ bs, (Server.lts P).run s₀.server bs = some s.server ∧
        bs.flatMap Server.Action.seen = ls.flatMap Action.seen) ∧
      (s.server.joined = true → (∀ thread ∈ s.threads, thread = .ended) ∧ s.thread = none ∧
        ∀ object ∈ s.mIocThreads, object = none) ∧
      s.server.inProgress ≤ s.threads.length ∧ s.threads.length ≤ opt.nThreads.toNat := by
  obtain ⟨hs, hn, hserver⟩ := run_inv h₀ h
  exact ⟨hserver, hs.control.of_joined, hs.handlers.inProgress_le, hn ▸ hs.bound⟩

/-! A server with one acceptor and two threads, of which the second cannot be stored. -/

/-- One socket and two threads. -/
def sampleOptions : AllOptions := { socketFile := "scriptor.sock", nThreads := 2 }

/-- What the constructor makes of them. -/
def sampleCreated : Pool := { server := .init [.unix] [0], nThreads := 2 }

theorem create_sample : create sampleOptions = .ok sampleCreated := by decide +kernel

/-- The second thread is started and not stored. -/
def sampleRun : List Action :=
  [.start true, .store true, .handle 0 (.accepted 0 true), .start true, .store false,
    .handle 0 (.acceptNext 0), .stop, .handle 0 (.acceptNext 0), .finish 1, .finish 0, .joinNext,
    .joinNext, .joinThread, .unwind, .logger 0 .setDone, .logger 0 .notifyDone,
    .logger 0 (.finish true), .logger 0 .join, .destroyed]

theorem threads_follow_server_failing :
    ∃ s : Pool, (lts referencePlatform).run sampleCreated sampleRun = some s ∧
      (∃ bs, (Server.lts referencePlatform).run sampleCreated.server bs = some s.server ∧
        bs.flatMap Server.Action.seen = sampleRun.flatMap Action.seen) ∧
      (∀ thread ∈ s.threads, thread = .ended) ∧ ∀ object ∈ s.mIocThreads, object = none := by
  have hrun : ((lts referencePlatform).run sampleCreated sampleRun).map
      (fun s => s.server.joined) = some true := by
    decide +kernel
  obtain ⟨s, hs, hjoined⟩ := Option.map_eq_some_iff.mp hrun
  obtain ⟨hserver, hend, -⟩ := threads_follow_server create_sample hs
  exact ⟨s, hs, hserver, (hend hjoined).1, (hend hjoined).2.2⟩

/-- A server that serves has all the threads asked for, each with its object. -/
theorem ControlInv.serves (hs : ControlInv s) (hc : s.control = .serving) :
    s.mIocThreads = (List.range s.nThreads).map some ∧ s.threads.length = s.nThreads ∧
      .ended ∉ s.threads := by
  have hn : s.mIocThreads.length = s.nThreads := Nat.le_antisymm hs.size (hs.serving hc)
  have hobjects := hs.objects
  have hlength := hs.length (by rw [hc]; rfl)
  have hstopped := hs.stopped
  simp only [hc, Control.joined, Nat.not_lt_zero, if_false] at hobjects
  simp only [hc, Control.holds, Bool.toNat_false, Nat.add_zero] at hlength
  refine ⟨?_, hlength.trans hn, ?_⟩
  · refine List.ext_getElem? ?_
    intro t
    by_cases ht : t < s.mIocThreads.length
    · rw [hobjects t ht]
      simp [← hn, ht]
    · rw [List.getElem?_eq_none (Nat.le_of_not_lt ht), List.getElem?_eq_none (by simp; omega)]
  · intro hended
    have hstop := hs.onlyStopped hended
    simp [hstopped, hc, Control.stopped] at hstop

/-- Whatever cannot be started or stored, and however the threads interleave: no object is destroyed
while it stands for a thread. A server whose constructor returned has as many threads as were asked
for; no logger is destroyed before all of the threads have ended; and once the members are
destroyed, be it that the constructor threw or that a signal came, no thread is left, neither of
asio nor of a logger. -/
theorem exception_safe (h₀ : create opt = .ok s₀) (h : (lts P).run s₀ ls = some s) :
    s.control ≠ .terminated ∧
      (s.control = .serving → s.mIocThreads = (List.range opt.nThreads.toNat).map some ∧
        s.threads.length = opt.nThreads.toNat ∧ .ended ∉ s.threads) ∧
      (∀ node ∈ s.server.mLoggers, node.logger.destructor ≠ .notEntered →
        ∀ thread ∈ s.threads, thread = .ended) ∧
      (s.control = .gone → (∀ thread ∈ s.threads, thread = .ended) ∧
        ∀ node ∈ s.server.mLoggers, node.logger.destructor = .returned) := by
  obtain ⟨hs, hn, -⟩ := run_inv h₀ h
  refine ⟨hs.control.alive, fun hc => hn ▸ hs.control.serves hc, ?_, ?_⟩
  · intro node hnode hd
    obtain ⟨bs, hbs⟩ := hs.server
    cases hj : s.server.joined with
    | false => exact absurd ((Server.run_shutdownInv hbs).alive hj node hnode) hd
    | true => exact (hs.control.of_joined hj).1
  · intro hc
    exact ⟨hs.control.allEnded (by rw [hc]; rfl), hs.gone hc⟩

theorem exception_safe_failing :
    ∃ s : Pool, (lts referencePlatform).run sampleCreated sampleRun = some s ∧
      s.threads = [.ended, .ended] ∧
      ∀ node ∈ s.server.mLoggers, node.logger.destructor = .returned := by
  have hrun : ((lts referencePlatform).run sampleCreated sampleRun).map
      (fun s => (s.control, s.threads)) = some (.gone, [.ended, .ended]) := by
    decide +kernel
  obtain ⟨s, hs, hend⟩ := Option.map_eq_some_iff.mp hrun
  obtain ⟨hgone, hthreads⟩ := Prod.mk.inj hend
  exact ⟨s, hs, hthreads, ((exception_safe create_sample hs).2.2.2 hgone).2⟩

end Pool

end Scriptor
