import Scriptor.Proofs.ProgressProofs
import Scriptor.Proofs.SessionOrderProofs

/-!
# The server: progress

What the server does by itself is finite: a potential over its handlers, sessions and loggers pays
for every step that is not the completion of an operation or a spurious wake-up (`pays`). A server
that has nothing left to do has handed over all it received (`settles`), and one that is being
destroyed always comes to the end of its destructor (`shutdown_completes`).
-/

universe u

namespace Scriptor

open Framing

/-! ## Sums over lists -/

theorem sum_map_set {α : Type u} (f : α → ℕ) {l : List α} {n : ℕ} {x : α} (h : l[n]? = some x)
    (y : α) : ((l.set n y).map f).sum + f x = (l.map f).sum + f y := by
  induction l generalizing n with
  | nil => simp at h
  | cons z l ih =>
    cases n with
    | zero =>
      obtain rfl : z = x := by simpa using h
      simp only [List.set_cons_zero, List.map_cons, List.sum_cons]
      omega
    | succ n =>
      have hl := ih (n := n) (by simpa using h)
      simp only [List.set_cons_succ, List.map_cons, List.sum_cons]
      omega

theorem sum_map_eraseIdx {α : Type u} (f : α → ℕ) {l : List α} {n : ℕ} {x : α}
    (h : l[n]? = some x) : ((l.eraseIdx n).map f).sum + f x = (l.map f).sum := by
  induction l generalizing n with
  | nil => simp at h
  | cons z l ih =>
    cases n with
    | zero =>
      obtain rfl : z = x := by simpa using h
      simp only [List.eraseIdx_cons_zero, List.map_cons, List.sum_cons]
      omega
    | succ n =>
      have hl := ih (n := n) (by simpa using h)
      simp only [List.eraseIdx_cons_succ, List.map_cons, List.sum_cons]
      omega

theorem sum_map_ite {α : Type u} (p : α → Bool) (n : ℕ) (l : List α) :
    (l.map fun x => if p x then n else 0).sum = n * l.countP p := by
  induction l with
  | nil => simp
  | cons x l ih =>
    rw [List.map_cons, List.sum_cons, ih, List.countP_cons]
    cases p x
    · simp
    · simp only [if_true]
      ring

/-! ## What a handler still has to do -/

/-- The steps of the handler, and the work its batch is for `n` loggers. -/
def Phase.potential (n : ℕ) : Phase → ℕ
  | .reading => 0
  | .pushing elements => n * (elements.length + 4) + 3
  | .looping elements next => (n - next) * (elements.length + 4) + 2
  | .pushed => 1
  | .closed => 0

namespace Phase

variable (n next : ℕ) (elements : List Element)

@[simp] theorem potential_reading : potential n .reading = 0 := rfl

@[simp] theorem potential_pushing :
    potential n (.pushing elements) = n * (elements.length + 4) + 3 := rfl

@[simp] theorem potential_looping :
    potential n (.looping elements next) = (n - next) * (elements.length + 4) + 2 := rfl

@[simp] theorem potential_pushed : potential n .pushed = 1 := rfl

@[simp] theorem potential_closed : potential n .closed = 0 := rfl

end Phase

/-- A call returns no more elements than it is given bytes. -/
theorem Session.StreamInv.elements_length {P : Platform} {session : Session}
    (hs : session.StreamInv P) (data : Bytes) (clock : Clock) :
    (session.mProcessor.call P data clock).elements.length ≤ data.length := by
  have hframes := frames_length_le (scan_valid (o := start) (c := stop) session.received).2 data
  have hdecoded := congrArg List.length (decodeAll_forgetClock P
    (frames start stop ((scan start stop session.received).rest ++ data)) clock clock)
  rw [List.length_map, List.length_map] at hdecoded
  rw [Processor.call_eq, hs.kept]
  exact hdecoded.trans_le hframes

namespace Server

variable {P : Platform} {s t : Server} {a : Action} {ls ls' : List Action}
  {acceptors : List AcceptorKind} {levels : List ℤ}

/-- The steps still to be taken, up to what other threads and the peers bring in. -/
def potential (s : Server) : ℕ :=
  (s.sessions.map fun session => session.phase.potential s.mLoggers.length).sum +
    (s.accepting.map fun i => s.mAcceptors.length - i + 1).sum +
    (s.mLoggers.map fun node => node.logger.potential).sum +
    (!s.stopped).toNat + (!s.joined).toNat

/-- What a step brings in, with `n` loggers and `m` acceptors: the completion of an accept or of a
read, or a spurious wake-up. -/
def Action.credit (n m : ℕ) : Action → ℕ
  | .accepted _ _ => m + 2
  | .readDone _ data _ => n * (data.length + 4) + 4
  | .readFailed _ => 1
  | .logger _ a => a.credit
  | _ => 0

/-- What the potential relies on. -/
structure PaysInv (P : Platform) (n m : ℕ) (s : Server) : Prop where
  loggers : s.mLoggers.length = n
  acceptors : s.mAcceptors.length = m
  streams : ∀ session ∈ s.sessions, session.StreamInv P

theorem PaysInv.step {n m : ℕ} (hs : PaysInv P n m s) (h : (lts P).step s a = some t) :
    PaysInv P n m t := by
  obtain ⟨hloggers, hacceptors, hstreams⟩ := hs
  refine ⟨?_, ?_, step_streamInv hstreams h⟩
  · cases Step.of_step h with
    | pushMove hk hp hl => rw [← hloggers, hl]; rfl
    | pushCopy hk hp hn => rw [← hloggers]; exact List.length_set
    | logger hj ha hd hl => rw [← hloggers]; exact List.length_set
    | _ => exact hloggers
  · cases Step.of_step h with
    | accepted ok hi hrun hp => rw [← hacceptors]; exact List.length_set
    | acceptNext hh hi => rw [← hacceptors]; exact List.length_set
    | _ => exact hacceptors

theorem init_paysInv (P : Platform) (acceptors : List AcceptorKind) (levels : List ℤ) :
    PaysInv P levels.length acceptors.length (init acceptors levels) :=
  ⟨by simp [init], by simp [init], fun x hx => absurd hx List.not_mem_nil⟩

theorem run_paysInv (h : (lts P).run (init acceptors levels) ls = some s) :
    PaysInv P levels.length acceptors.length s :=
  Lts.run_preserves (fun _ _ _ hs ha => hs.step ha) (init_paysInv P acceptors levels) h

/-- A session goes to another phase. -/
theorem potential_setSession {k : ℕ} {session : Session} (hk : s.sessions[k]? = some session)
    (session' : Session) :
    (s.setSession k session').potential + session.phase.potential s.mLoggers.length =
      s.potential + session'.phase.potential s.mLoggers.length := by
  have hsum := sum_map_set (fun x : Session => x.phase.potential s.mLoggers.length) hk session'
  simp only [potential, setSession]
  omega

/-- A logger takes a step. -/
theorem potential_setLogger {j : ℕ} {node : LoggerNode} (hj : s.mLoggers[j]? = some node)
    (node' : LoggerNode) :
    (s.setLogger j node').potential + node.logger.potential =
      s.potential + node'.logger.potential := by
  have hsum := sum_map_set (fun x : LoggerNode => x.logger.potential) hj node'
  simp only [potential, setLogger, List.length_set]
  omega

theorem potential_pushMove (logger : Logger) (elements : List Element) :
    (logger.pushMove elements).potential + 1 ≤ logger.potential + (elements.length + 4) := by
  rw [Logger.pushMove, Logger.foldl_emplace_back]
  exact Logger.potential_push logger elements

theorem potential_pushCopy (logger : Logger) (elements : List Element) :
    (logger.pushCopy elements).potential + 1 ≤ logger.potential + (elements.length + 4) :=
  Logger.potential_push logger elements

theorem potential_step {n m : ℕ} (hs : PaysInv P n m s) (h : (lts P).step s a = some t) :
    t.potential + 1 ≤ s.potential + a.credit n m := by
  obtain ⟨hloggers, hacceptors, hstreams⟩ := hs
  cases Step.of_step h with
  | @accepted ok i acceptor hi hrun hp =>
    cases ok <;>
    · simp only [potential, List.length_set, List.map_append, List.sum_append, List.map_cons,
        List.map_nil, List.sum_cons, List.sum_nil, Phase.potential_reading, Action.credit, if_true,
        Bool.false_eq_true, if_false]
      omega
  | @acceptNext p i acceptor hh hi =>
    have hlt := (List.getElem?_eq_some_iff.mp hi).1
    have hsum := sum_map_set (fun i => s.mAcceptors.length - i + 1) hh (i + 1)
    simp only [potential, List.length_set, Action.credit]
    omega
  | @acceptEnd p i hh hi =>
    have hsum := sum_map_eraseIdx (fun i => s.mAcceptors.length - i + 1) hh
    simp only [potential, Action.credit]
    omega
  | @readDone k data clock session hk hrun hp hl =>
    have hset := potential_setSession hk (session.onRead P data clock)
    have hlen := (hstreams session (List.mem_of_getElem? hk)).elements_length data clock
    have hwork := Nat.mul_le_mul_left n (Nat.add_le_add_right hlen 4)
    have hphase : (session.onRead P data clock).phase.potential n ≤ n * (data.length + 4) + 3 := by
      by_cases hempty : (session.mProcessor.call P data clock).elements = []
      · simp [Session.onRead, hempty]
      · simp [Session.onRead, hempty, hwork]
    rw [hp, hloggers, Phase.potential_reading] at hset
    simp only [Action.credit]
    omega
  | @readFailed k session hk hrun hp =>
    have hset := potential_setSession hk { session with phase := .closed }
    rw [hp, Phase.potential_reading, Phase.potential_closed] at hset
    simp only [Action.credit]
    omega
  | @pushMove k session elements node hk hp hl =>
    have hset := potential_setSession hk { session with phase := .pushed }
    have hzero : (s.setSession k { session with phase := .pushed }).mLoggers[0]? = some node := by
      simp [setSession, hl]
    have hlog := potential_setLogger hzero (node.push Logger.pushMove k elements)
    have hpush := potential_pushMove node.logger elements
    have hlist : (s.setSession k { session with phase := .pushed }).mLoggers.set 0
        (node.push Logger.pushMove k elements) = [node.push Logger.pushMove k elements] := by
      simp [setSession, hl]
    rw [hp, Phase.potential_pushing, Phase.potential_pushed, hl] at hset
    rw [setLogger, hlist] at hlog
    simp only [LoggerNode.push, List.length_singleton, Action.credit] at hset hlog ⊢
    omega
  | @enterLoop k session elements hk hp hl =>
    have hset := potential_setSession hk { session with phase := .looping elements 0 }
    rw [hp, Phase.potential_pushing, Phase.potential_looping, Nat.sub_zero] at hset
    simp only [Action.credit]
    omega
  | @pushCopy k next session elements node hk hp hn =>
    have hset := potential_setSession hk
      { session with phase := .looping elements (next + 1) }
    have hlog := potential_setLogger
      (s := s.setSession k { session with phase := .looping elements (next + 1) }) hn
      (node.push Logger.pushCopy k elements)
    have hpush := potential_pushCopy node.logger elements
    have hlt : next < s.mLoggers.length := (List.getElem?_eq_some_iff.mp hn).1
    -- One logger fewer is still to be served.
    have hleft : (s.mLoggers.length - next) * (elements.length + 4) =
        (s.mLoggers.length - (next + 1)) * (elements.length + 4) + (elements.length + 4) := by
      rw [← Nat.succ_mul]
      congr 1
      omega
    rw [hp, Phase.potential_looping, Phase.potential_looping, hleft] at hset
    simp only [LoggerNode.push, Action.credit] at hlog ⊢
    omega
  | @leaveLoop k next session elements hk hp hn =>
    have hset := potential_setSession hk { session with phase := .pushed }
    rw [hp, Phase.potential_looping, Phase.potential_pushed] at hset
    simp only [Action.credit]
    omega
  | @read k session hk hp =>
    have hset := potential_setSession hk { session with phase := .reading }
    rw [hp, Phase.potential_pushed, Phase.potential_reading] at hset
    simp only [Action.credit]
    omega
  | stop hrun =>
    simp only [potential, hrun, Action.credit, Bool.not_true, Bool.not_false, Bool.toNat_true,
      Bool.toNat_false]
    omega
  | join hrun hj hq =>
    simp only [potential, hj, Action.credit, Bool.not_true, Bool.not_false, Bool.toNat_true,
      Bool.toNat_false]
    omega
  | @logger j b node logger hj hb hd hl =>
    have hset := potential_setLogger hj { node with logger }
    have hstep := Logger.potential_step hl
    simp only [Action.credit] at hset ⊢
    omega

/-- Every step of a server is paid for by the completion of an operation or a spurious wake-up. -/
theorem pays (P : Platform) (n m : ℕ) :
    Lts.Pays (lts P) (PaysInv P n m) potential (Action.credit n m) :=
  ⟨fun _ _ _ hs h => hs.step h, fun _ _ _ hs h => potential_step hs h⟩

/-! ## The loggers of a server that runs -/

section

variable {j : ℕ} {node : LoggerNode}

theorem loggerAt_of_getElem? (hj : s.mLoggers[j]? = some node) : s.loggerAt j = node.logger := by
  simp [loggerAt, hj]

theorem loggerAt_init {level : ℤ} (hj : levels[j]? = some level) :
    (init acceptors levels).loggerAt j = .init level := by
  simp [loggerAt, init, hj]

theorem exists_level (h : (lts P).run (init acceptors levels) ls = some s)
    (hj : s.mLoggers[j]? = some node) : ∃ level, levels[j]? = some level := by
  have hlt := (List.getElem?_eq_some_iff.mp hj).1
  rw [(run_paysInv h).loggers] at hlt
  exact ⟨levels[j], List.getElem?_eq_getElem hlt⟩

/-- A logger of a server is where a run of its own can take it. -/
theorem exists_logger_run (h : (lts P).run (init acceptors levels) ls = some s)
    (hj : s.mLoggers[j]? = some node) :
    ∃ level bs, levels[j]? = some level ∧ Logger.lts.run (.init level) bs = some node.logger := by
  obtain ⟨level, hlevel⟩ := exists_level h hj
  have hreach := (projects_logger P j).reachable ⟨ls, h⟩
  rw [loggerAt_of_getElem? hj, loggerAt_init hlevel] at hreach
  obtain ⟨bs, hbs⟩ := hreach
  exact ⟨level, bs, hlevel, hbs⟩

/-- With sinks that do not throw, a run in which no sink throws. -/
theorem exists_quiet_run (h : (quiet P).run (init acceptors levels) ls = some s)
    (hj : s.mLoggers[j]? = some node) :
    ∃ level bs, levels[j]? = some level ∧ Logger.quiet.run (.init level) bs = some node.logger := by
  obtain ⟨level, hlevel⟩ := exists_level (Lts.run_of_restrict h) hj
  have hreach := (projects_quiet_logger P j).reachable ⟨ls, h⟩
  rw [loggerAt_of_getElem? hj, loggerAt_init hlevel] at hreach
  obtain ⟨bs, hbs⟩ := hreach
  exact ⟨level, bs, hlevel, hbs⟩

theorem not_terminated_of_quiet (h : (quiet P).run (init acceptors levels) ls = some s) :
    s.terminated = false := by
  rw [terminated, List.any_eq_false]
  intro node hnode
  obtain ⟨j, hj⟩ := List.mem_iff_getElem?.mp hnode
  obtain ⟨level, bs, -, hbs⟩ := exists_quiet_run h hj
  simpa using Logger.running_of_quiet hbs

end

/-! ## Where a server stops by itself -/

/-- The steps of the handlers in progress and of the loggers. What asio and the peers decide on is
left out: completions, spurious wake-ups, failures of the sinks, and the end of the server. -/
def Action.isOwn : Action → Bool
  | .acceptNext _ => true
  | .push _ => true
  | .read _ => true
  | .logger _ a => a.isOwn
  | _ => false

/-- No step is left but those of others. -/
def Settled (P : Platform) (s : Server) : Prop := ∀ a, Action.isOwn a = true → (lts P).step s a = none

theorem credit_of_isOwn {n m : ℕ} (ha : a.isOwn = true) : a.credit n m = 0 := by
  cases a with
  | logger j a => cases a <;> simp [Action.isOwn, Logger.Action.isOwn] at ha <;> rfl
  | _ => simp [Action.isOwn] at ha <;> rfl

theorem throws_of_isOwn (ha : a.isOwn = true) : a.throws = false := by
  cases a with
  | logger j a =>
    cases a <;> simp [Action.isOwn, Logger.Action.isOwn] at ha <;>
      simp [Action.throws, Logger.Action.throws, ha]
  | _ => rfl

section

variable (hs : Settled P s) (hrun : s.terminated = false)

include hs hrun

theorem Settled.act {a : Action} (ha : a.isOwn = true) : s.act P a = none := by
  simpa [lts, hrun] using hs a ha

/-- Every handler in progress has a step. -/
theorem Settled.quiescent : s.quiescent = true := by
  rw [quiescent_iff]
  refine ⟨?_, ?_⟩
  · cases haccepting : s.accepting with
    | nil => rfl
    | cons i is =>
      have hstuck := hs.act hrun (a := .acceptNext 0) rfl
      cases hi : s.mAcceptors[i]? <;> simp [Server.act, Server.acceptNext, haccepting, hi] at hstuck
  · intro session hsession
    obtain ⟨k, hk⟩ := List.mem_iff_getElem?.mp hsession
    have hpush := hs.act hrun (a := .push k) rfl
    have hread := hs.act hrun (a := .read k) rfl
    cases hp : session.phase with
    | reading => simp [Session.idle, hp]
    | closed => simp [Session.idle, hp]
    | pushed => simp [Server.act, Server.read, hk, hp] at hread
    | pushing elements =>
      simp only [Server.act, Server.push, hk, hp] at hpush
      split at hpush <;> simp at hpush
    | looping elements next =>
      simp only [Server.act, Server.push, hk, hp] at hpush
      split at hpush <;> simp at hpush

theorem Settled.logger {j : ℕ} {node : LoggerNode} (hj : s.mLoggers[j]? = some node) :
    Logger.Settled node.logger := by
  intro a ha
  have hstuck := hs.act hrun (a := .logger j a) ha
  have hown : Logger.pushes [a] = [] ∧ a ≠ .setDone := by
    cases a <;> simp [Logger.Action.isOwn] at ha <;> simp [Logger.pushes]
  simpa [Server.act, Server.loggerStep, hj, hown] using hstuck

end

/-! ## Nothing received is left behind -/

/-- What own steps leave alone: the bytes received, and the end of the server. -/
structure Kept (s t : Server) : Prop where
  received : t.sessions.map Session.received = s.sessions.map Session.received
  joined : t.joined = s.joined

theorem received_setPhase {k : ℕ} {session : Session} (hk : s.sessions[k]? = some session)
    (phase : Phase) : (s.setSession k { session with phase }).sessions.map Session.received =
      s.sessions.map Session.received := by
  obtain ⟨hlt, rfl⟩ := List.getElem?_eq_some_iff.mp hk
  have hlt' : k < (s.sessions.map Session.received).length := by simpa using hlt
  have hself := List.set_getElem_self hlt'
  rw [List.getElem_map] at hself
  rw [setSession, List.map_set]
  exact hself

theorem Kept.step {r : Server} (hs : Kept r s) (ha : a.isOwn = true)
    (h : (lts P).step s a = some t) : Kept r t := by
  obtain ⟨hreceived, hjoined⟩ := hs
  cases Step.of_step h with
  | accepted ok hi hrun hp => simp [Action.isOwn] at ha
  | readDone data clock hk hrun hp hl => simp [Action.isOwn] at ha
  | readFailed hk hrun hp => simp [Action.isOwn] at ha
  | pushMove hk hp hl => exact ⟨(received_setPhase hk _).trans hreceived, hjoined⟩
  | enterLoop hk hp hl => exact ⟨(received_setPhase hk _).trans hreceived, hjoined⟩
  | pushCopy hk hp hn => exact ⟨(received_setPhase hk _).trans hreceived, hjoined⟩
  | leaveLoop hk hp hn => exact ⟨(received_setPhase hk _).trans hreceived, hjoined⟩
  | read hk hp => exact ⟨(received_setPhase hk _).trans hreceived, hjoined⟩
  | stop hrun => simp [Action.isOwn] at ha
  | join hrun hj hq => simp [Action.isOwn] at ha
  | _ => exact ⟨hreceived, hjoined⟩

theorem Kept.run {r : Server} (hown : ∀ a ∈ ls, a.isOwn = true) (h : (lts P).run s ls = some t)
    (hs : Kept r s) : Kept r t := by
  induction ls generalizing s with
  | nil =>
    obtain rfl : s = t := by simpa using h
    exact hs
  | cons a ls ih =>
    rw [Lts.run_cons, Option.bind_eq_some_iff] at h
    obtain ⟨q, hq, hrest⟩ := h
    exact ih (fun b hb => hown b (List.mem_cons_of_mem a hb)) hrest
      (hs.step (hown a List.mem_cons_self) hq)

/-- `t` has handed over what the server has received: no handler runs, every worker is at its wait with
nothing queued, and every sink has logged and flushed what it wants of what was pushed, which is
from every session all that its bytes decode to. -/
structure HandedOver (P : Platform) (t : Server) : Prop where
  quiescent : t.quiescent = true
  drained : ∀ node ∈ t.mLoggers, node.logger.drained = true
  logged : ∀ node ∈ t.mLoggers,
    node.logger.sink.logged = (node.pushed.map Prod.snd).filter node.logger.shouldLog
  flushed : ∀ node ∈ t.mLoggers, node.logger.sink.unflushed = []
  decoded : ∀ node ∈ t.mLoggers, ∀ k session, t.sessions[k]? = some session → ∀ clock : Clock,
    (node.pushedBy k).map Element.forgetClock =
      (({} : Processor).call P session.received clock).elements.map Element.forgetClock

/-- Where a server stops by itself before it is destroyed, it has handed over everything. -/
theorem handedOver_of_settled (h : (quiet P).run (init acceptors levels) ls = some s)
    (hj : s.joined = false) (hs : Settled P s) : HandedOver P s := by
  have hlts := Lts.run_of_restrict h
  have hrun := not_terminated_of_quiet h
  have hquiet := hs.quiescent hrun
  have hdrained : ∀ node ∈ s.mLoggers, node.logger.drained = true := by
    intro node hnode
    obtain ⟨j, hnode'⟩ := List.mem_iff_getElem?.mp hnode
    obtain ⟨level, bs, -, hbs⟩ := exists_quiet_run h hnode'
    have halive := (run_shutdownInv hlts).alive hj node hnode
    rcases Logger.settled_cases (.run (Lts.run_of_restrict hbs)) (.run (Lts.run_of_restrict hbs))
      (hs.logger hrun hnode') with hw | hd | ⟨hd, -⟩
    · exact absurd hw (Logger.running_of_quiet hbs)
    · simp [halive] at hd
    · exact hd
  have hsink : ∀ node ∈ s.mLoggers,
      node.logger.sink.logged = (node.pushed.map Prod.snd).filter node.logger.shouldLog ∧
        node.logger.sink.unflushed = [] := by
    intro node hnode
    obtain ⟨j, hnode'⟩ := List.mem_iff_getElem?.mp hnode
    obtain ⟨level, bs, -, hbs⟩ := exists_quiet_run h hnode'
    have hwait : node.logger.atWait = true ∧ node.logger.mElements = [] := by
      have hnode := hdrained node hnode
      simp only [Logger.drained, decide_eq_true_eq] at hnode
      exact ⟨hnode.1, hnode.2.1⟩
    have hinv := Logger.SinkInv.run hbs
    have htaken := Logger.taken_of_quiet hbs
    rw [Logger.held_of_atWait hwait.1, List.append_nil] at htaken
    have hpushed := run_queueInv hlts node hnode
    rw [LoggerNode.QueueInv, hwait.2, List.append_nil, ← htaken] at hpushed
    have hcount := hinv.unflushed
    rw [Logger.count_of_atWait hwait.1] at hcount
    exact ⟨by rw [hpushed, hinv.logged], List.length_eq_zero_iff.mp hcount⟩
  refine ⟨hquiet, hdrained, fun node hnode => (hsink node hnode).1,
    fun node hnode => (hsink node hnode).2, ?_⟩
  intro node hnode k session hk clock
  have hidle := (quiescent_iff.mp hquiet).2 session (List.mem_of_getElem? hk)
  have hstream := run_streamInv hlts session (List.mem_of_getElem? hk)
  rw [← hstream.returned_eq_call clock, pushedBy_of_idle (run_fanOutInv hlts) hnode hk hidle]

/-- By its own steps a server whose sinks do not throw comes to rest. -/
theorem exists_settled (h : (quiet P).run (init acceptors levels) ls = some s) :
    ∃ ls' t, (∀ a ∈ ls', Action.isOwn a = true) ∧ (quiet P).run s ls' = some t ∧ Settled P t := by
  have hpays := pays P levels.length acceptors.length
  have hquiet : Lts.Pays (quiet P) (PaysInv P levels.length acceptors.length) potential
      (Action.credit levels.length acceptors.length) :=
    ⟨fun s a t hs ha => hpays.keeps s a t hs (Lts.restrict_step.mp ha).2,
      fun s a t hs ha => hpays.pays s a t hs (Lts.restrict_step.mp ha).2⟩
  obtain ⟨ls', t, hown, hrun, hend⟩ := hquiet.exists_settled (fun a => a.isOwn = true)
    (fun a ha => credit_of_isOwn ha) (run_paysInv (Lts.run_of_restrict h))
  refine ⟨ls', t, hown, hrun, ?_⟩
  intro a ha
  have hstuck := hend a ha
  simpa [quiet, Lts.restrict, throws_of_isOwn ha] using hstuck

/-- From every reachable state before its destruction, a server whose sinks do not throw comes to rest
by its own steps, in no more of them than its potential says, whichever way they interleave; and at
rest it has handed over what all the bytes received so far decode to. -/
theorem settles (h : (quiet P).run (init acceptors levels) ls = some s) (hj : s.joined = false) :
    (∃ ls' t, (∀ a ∈ ls', Action.isOwn a = true) ∧ (quiet P).run s ls' = some t ∧ Settled P t) ∧
      ∀ ls' t, (∀ a ∈ ls', Action.isOwn a = true) → (quiet P).run s ls' = some t →
        ls'.length ≤ s.potential ∧
          (Settled P t → HandedOver P t ∧
            t.sessions.map Session.received = s.sessions.map Session.received) := by
  refine ⟨exists_settled h, ?_⟩
  intro ls' t hown hrun
  have hlts := Lts.run_of_restrict hrun
  have hpays := pays P levels.length acceptors.length
  refine ⟨hpays.run_length_le_of_free (run_paysInv (Lts.run_of_restrict h))
    (fun a ha => credit_of_isOwn (hown a ha)) hlts, ?_⟩
  intro hsettled
  have hwhole : (quiet P).run (init acceptors levels) (ls ++ ls') = some t :=
    Lts.run_append_eq_some.mpr ⟨s, h, hrun⟩
  have hkept := Kept.run (r := s) hown hlts ⟨rfl, rfl⟩
  exact ⟨handedOver_of_settled hwhole (hkept.joined.trans hj) hsettled, hkept.received⟩

/-- Two loggers, and a log that was read and is still to be pushed. -/
theorem settles_two_loggers :
    ∃ s : Server, (quiet referencePlatform).run (init [.unix] [0, 6])
        [.accepted 0 true, .readDone 0 (ascii "\x7b\x7d") fun _ => 0] = some s ∧
      ∃ ls' t, (∀ a ∈ ls', Action.isOwn a = true) ∧ (quiet referencePlatform).run s ls' = some t ∧
        HandedOver referencePlatform t := by
  have hrun : ((quiet referencePlatform).run (init [.unix] [0, 6])
      [.accepted 0 true, .readDone 0 (ascii "\x7b\x7d") fun _ => 0]).map
        (fun s => s.joined) = some false := by decide +kernel
  obtain ⟨s, hs, hj⟩ := Option.map_eq_some_iff.mp hrun
  obtain ⟨⟨ls', t, hown, ht, hsettled⟩, hrest⟩ := settles hs hj
  exact ⟨s, hs, ls', t, hown, ht, ((hrest ls' t hown ht).2 hsettled).1⟩

/-! ## The end of a server -/

/-- The steps of `~Server` after `m_ioc.stop()`. -/
def Action.isShutdown : Action → Bool
  | .join => true
  | .logger _ .setDone => true
  | _ => false

/-- The label of a spurious wake-up. -/
def Action.isWake : Action → Bool
  | .logger _ .wake => true
  | _ => false

/-- Nothing but spurious wake-ups adds to the work of a server that was stopped. -/
theorem credit_of_stopped {n m : ℕ} (hstop : s.stopped = true) (h : (lts P).step s a = some t) :
    a.credit n m ≤ if a.isWake then 2 else 0 := by
  cases Step.of_step h with
  | accepted ok hi hrun hp => simp [hstop] at hrun
  | readDone data clock hk hrun hp hl => simp [hstop] at hrun
  | readFailed hk hrun hp => simp [hstop] at hrun
  | @logger j b node logger hj hb hd hl =>
    cases b <;> simp [Logger.pushes] at hb <;>
      simp [Action.credit, Logger.Action.credit, Action.isWake]
  | _ => simp [Action.credit]

theorem step_stopped (hstop : s.stopped = true) (h : (lts P).step s a = some t) :
    t.stopped = true := by
  cases Step.of_step h with
  | stop hrun => rfl
  | _ => exact hstop

theorem stopped_pays (P : Platform) (n m : ℕ) :
    Lts.Pays (lts P) (fun s => PaysInv P n m s ∧ s.stopped = true) potential
      (fun a => if a.isWake then 2 else 0) := by
  refine ⟨fun s a t hs h => ⟨hs.1.step h, step_stopped hs.2 h⟩, ?_⟩
  intro s a t hs h
  have hpay := potential_step hs.1 h
  have hcredit := credit_of_stopped (n := n) (m := m) hs.2 h
  omega

/-- Where nothing is left to do, the loggers are destroyed, one after the other. -/
theorem returned_of_settled (h : (lts P).run (init acceptors levels) ls = some s)
    (hrun : s.terminated = false) (hj : s.joined = true) (hs : Settled P s)
    (hdestroy : ∀ j, (lts P).step s (.logger j .setDone) = none) :
    ∀ (j : ℕ) (node : LoggerNode), s.mLoggers[j]? = some node →
      node.logger.destructor = .returned := by
  intro j
  induction j using Nat.strongRecOn with
  | _ j ih =>
    intro node hnode
    obtain ⟨level, bs, -, hbs⟩ := exists_logger_run h hnode
    have hworker : node.logger.worker ≠ .terminated := by
      have hall := List.any_eq_false.mp hrun node (List.mem_of_getElem? hnode)
      simpa using hall
    rcases Logger.settled_cases (.run hbs) (.run hbs) (hs.logger hrun hnode) with hw | hd | ⟨-, hd⟩
    · exact absurd hw hworker
    · exact hd
    -- Its turn has come, since the loggers before it are gone.
    · have hbefore : s.mayDestroy j = true := by
        simp only [mayDestroy, decide_eq_true_eq]
        refine ⟨hj, ?_⟩
        intro x hx
        obtain ⟨i, hi⟩ := List.mem_iff_getElem?.mp hx
        rw [List.getElem?_take] at hi
        split_ifs at hi with hlt
        exact ih i hlt x hi
      have hstep := hdestroy j
      simp [lts, hrun, Server.act, Server.loggerStep, hnode, hbefore, Logger.pushes, Logger.lts,
        hworker, Logger.act, Logger.setDone, hd] at hstep

/-- Once `m_ioc.stop()` was called `~Server` comes to its end, whatever the sinks do: spurious wake-ups
apart, no interleaving goes on for longer than the potential says, and there is no deadlock. Where no
step of the server is left, its threads have ended and all its loggers are destroyed, unless an
exception has ended the process. -/
theorem shutdown_completes (h : (lts P).run (init acceptors levels) ls = some s)
    (hstop : s.stopped = true) (h' : (lts P).run s ls' = some t) :
    ls'.length ≤ s.potential + 2 * ls'.countP Action.isWake ∧
      (Settled P t → (∀ a, Action.isShutdown a = true → (lts P).step t a = none) →
        t.terminated = true ∨
          t.joined = true ∧ ∀ node ∈ t.mLoggers, node.logger.destructor = .returned) := by
  have hinv := run_paysInv h
  have hpays := stopped_pays P levels.length acceptors.length
  have hwhole : (lts P).run (init acceptors levels) (ls ++ ls') = some t :=
    Lts.run_append_eq_some.mpr ⟨s, h, h'⟩
  refine ⟨?_, ?_⟩
  · have hlen := hpays.run_length_le ⟨hinv, hstop⟩ h'
    rw [sum_map_ite] at hlen
    omega
  · intro hsettled hshut
    cases hrun : t.terminated with
    | true => exact .inl rfl
    | false =>
      have hstopped : t.stopped = true :=
        Lts.run_preserves (I := fun s => s.stopped = true) (fun _ _ _ hs ha => step_stopped hs ha)
          hstop h'
      have hquiet := hsettled.quiescent hrun
      have hjoined : t.joined = true := by
        by_contra hj
        have hstep := hshut .join rfl
        simp [lts, hrun, Server.act, Server.join, hstopped, hj, hquiet] at hstep
      refine .inr ⟨hjoined, ?_⟩
      intro node hnode
      obtain ⟨j, hj⟩ := List.mem_iff_getElem?.mp hnode
      exact returned_of_settled hwhole hrun hjoined hsettled (fun j => hshut _ rfl) j node hj

/-- A server is stopped while a batch is being pushed; the worker takes it, and its sink throws. -/
theorem shutdown_completes_throwing :
    ∃ s t : Server,
      (lts referencePlatform).run (init [.tcp] [0])
        [.accepted 0 true, .readDone 0 (ascii "\x7b\x7d") fun _ => 0, .stop] = some s ∧
      (lts referencePlatform).run s
        [.push 0, .logger 0 .swap, .acceptNext 0, .logger 0 (.log false), .read 0, .acceptNext 0,
          .join, .logger 0 .setDone, .logger 0 .notifyDone, .logger 0 (.finish true),
          .logger 0 .join] = some t ∧
      11 ≤ s.potential + 2 * 0 := by
  have hrun : (((lts referencePlatform).run (init [.tcp] [0])
      [.accepted 0 true, .readDone 0 (ascii "\x7b\x7d") fun _ => 0, .stop]).bind fun s =>
        ((lts referencePlatform).run s
          [.push 0, .logger 0 .swap, .acceptNext 0, .logger 0 (.log false), .read 0, .acceptNext 0,
            .join, .logger 0 .setDone, .logger 0 .notifyDone, .logger 0 (.finish true),
            .logger 0 .join]).map fun t => (s, t)).map (·.1.stopped) = some true := by
    decide +kernel
  obtain ⟨⟨s, t⟩, hst, hstop⟩ := Option.map_eq_some_iff.mp hrun
  obtain ⟨s', hs, hst'⟩ := Option.bind_eq_some_iff.mp hst
  obtain ⟨t', ht, heq⟩ := Option.map_eq_some_iff.mp hst'
  obtain ⟨rfl, rfl⟩ := Prod.mk.inj heq
  exact ⟨s', t', hs, ht, (shutdown_completes hs hstop ht).1⟩

end Server

end Scriptor
