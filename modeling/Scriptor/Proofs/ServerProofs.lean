import Scriptor.Server
import Scriptor.Proofs.LoggerProofs
import Scriptor.Proofs.ProcessorProofs

/-!
# The server: its steps and its parts

`Step` says once what each step of the server does. What a session knows of its own stream
(`StreamInv`) and a logger of its own queue (`QueueInv`) holds in every run. Each logger of a server
runs as it does on its own (`projects_logger`), and none is destroyed while a session could still push
to it (`no_push_after_destructor`).
-/

namespace Scriptor

open Framing

/-! ## What a session knows of its stream -/

namespace Session

variable {P : Platform}

/-- The processor keeps the unfinished frame of the bytes read, and has returned the elements of the
complete ones. -/
structure StreamInv (P : Platform) (session : Session) : Prop where
  kept : session.mProcessor.mCurrent = (scan start stop session.received).rest
  returned : ∀ clock : Clock, session.returned.map Element.forgetClock =
    (frames start stop session.received).map fun f => (decode P f clock).1.forgetClock

theorem StreamInv.fresh (P : Platform) : StreamInv P {} := ⟨rfl, fun _ => rfl⟩

theorem StreamInv.onRead {session : Session} (hs : StreamInv P session) (data : Bytes)
    (clock : Clock) : StreamInv P (session.onRead P data clock) := by
  obtain ⟨hkept, hreturned⟩ := hs
  have hcall := Processor.call_eq P session.mProcessor data clock
  refine ⟨?_, ?_⟩
  · show (session.mProcessor.call P data clock).processor.mCurrent =
      (scan start stop (session.received ++ data)).rest
    rw [hcall, hkept, scan_append session.received data]
  · intro clock'
    show (session.returned ++ (session.mProcessor.call P data clock).elements).map
      Element.forgetClock = _
    rw [List.map_append, hreturned clock', hcall]
    simp only
    rw [decodeAll_forgetClock P _ clock clock', hkept]
    show _ = (frames start stop (session.received ++ data)).map _
    rw [frames_append session.received data, List.map_append]

/-- The stream does not depend on where the handler is. -/
theorem StreamInv.setPhase {session : Session} (hs : StreamInv P session) (phase : Phase) :
    StreamInv P { session with phase } := ⟨hs.kept, hs.returned⟩

/-- What was returned is what the processor returns for all the bytes in one call. -/
theorem StreamInv.returned_eq_call {session : Session} (hs : StreamInv P session) (clock : Clock) :
    session.returned.map Element.forgetClock =
      (({} : Processor).call P session.received clock).elements.map Element.forgetClock := by
  rw [hs.returned clock, Processor.call_eq, decodeAll_forgetClock P _ clock clock]
  rfl

end Session

/-! ## What a logger knows of its queue -/

namespace LoggerNode

/-- The elements pushed are those in the batches taken so far and in the queue. -/
def QueueInv (node : LoggerNode) : Prop :=
  node.pushed.map Prod.snd = node.logger.batches.flatten ++ node.logger.mElements

theorem map_snd_tagged (k : ℕ) (elements : List Element) :
    (elements.map (k, ·)).map Prod.snd = elements := by
  simp [Function.comp_def]

theorem QueueInv.pushMove {node : LoggerNode} (hs : node.QueueInv) (k : ℕ) (elements : List Element) :
    (node.push Logger.pushMove k elements).QueueInv := by
  show (node.pushed ++ elements.map (k, ·)).map Prod.snd = node.logger.batches.flatten ++
    elements.foldl (fun es e => es ++ [e]) node.logger.mElements
  rw [List.map_append, map_snd_tagged, hs, Logger.foldl_emplace_back, List.append_assoc]

theorem QueueInv.pushCopy {node : LoggerNode} (hs : node.QueueInv) (k : ℕ) (elements : List Element) :
    (node.push Logger.pushCopy k elements).QueueInv := by
  show (node.pushed ++ elements.map (k, ·)).map Prod.snd = node.logger.batches.flatten ++
    (node.logger.mElements ++ elements)
  rw [List.map_append, map_snd_tagged, hs, List.append_assoc]

theorem QueueInv.logger {node : LoggerNode} {a : Logger.Action} {logger : Logger}
    (hs : node.QueueInv) (ha : Logger.pushes [a] = [])
    (h : Logger.lts.step node.logger a = some logger) : QueueInv { node with logger } := by
  have hbatches := Logger.step_batches h
  rw [ha, List.flatten_nil, List.append_nil] at hbatches
  rw [QueueInv, hbatches]
  exact hs

end LoggerNode

namespace Server

variable {P : Platform} {s t : Server} {a : Action} {ls : List Action}
  {acceptors : List AcceptorKind} {levels : List ℤ} {k : ℕ}

/-! ## One step -/

/-- What each step requires and what it does. -/
inductive Step (P : Platform) (s : Server) : Action → Server → Prop where
  | accepted (ok : Bool) {i : ℕ} {acceptor : Acceptor} (hi : s.mAcceptors[i]? = some acceptor)
      (hs : s.stopped = false) (hp : 0 < acceptor.pending) :
      Step P s (.accepted i ok) { s with
        mAcceptors := s.mAcceptors.set i { acceptor with pending := acceptor.pending - 1 }
        sessions := if ok then s.sessions ++ [{}] else s.sessions
        accepting := s.accepting ++ [0] }
  | acceptNext {h i : ℕ} {acceptor : Acceptor} (hh : s.accepting[h]? = some i)
      (hi : s.mAcceptors[i]? = some acceptor) :
      Step P s (.acceptNext h) { s with
        mAcceptors := s.mAcceptors.set i acceptor.asyncAccept
        accepting := s.accepting.set h (i + 1) }
  | acceptEnd {h i : ℕ} (hh : s.accepting[h]? = some i) (hi : s.mAcceptors[i]? = none) :
      Step P s (.acceptNext h) { s with accepting := s.accepting.eraseIdx h }
  | readDone {k : ℕ} (data : Bytes) (clock : Clock) {session : Session}
      (hk : s.sessions[k]? = some session) (hs : s.stopped = false)
      (hp : session.phase = .reading) (hl : data.length ≤ Session.bufferSize) :
      Step P s (.readDone k data clock) (s.setSession k (session.onRead P data clock))
  | readFailed {k : ℕ} {session : Session} (hk : s.sessions[k]? = some session)
      (hs : s.stopped = false) (hp : session.phase = .reading) :
      Step P s (.readFailed k) (s.setSession k { session with phase := .closed })
  | pushMove {k : ℕ} {session : Session} {elements : List Element} {node : LoggerNode}
      (hk : s.sessions[k]? = some session) (hp : session.phase = .pushing elements)
      (hl : s.mLoggers = [node]) :
      Step P s (.push k) { s.setSession k { session with phase := .pushed } with
        mLoggers := [node.push Logger.pushMove k elements] }
  | enterLoop {k : ℕ} {session : Session} {elements : List Element}
      (hk : s.sessions[k]? = some session) (hp : session.phase = .pushing elements)
      (hl : ∀ node, s.mLoggers ≠ [node]) :
      Step P s (.push k) (s.setSession k { session with phase := .looping elements 0 })
  | pushCopy {k next : ℕ} {session : Session} {elements : List Element} {node : LoggerNode}
      (hk : s.sessions[k]? = some session) (hp : session.phase = .looping elements next)
      (hn : s.mLoggers[next]? = some node) :
      Step P s (.push k)
        ((s.setSession k { session with phase := .looping elements (next + 1) }).setLogger next
          (node.push Logger.pushCopy k elements))
  | leaveLoop {k next : ℕ} {session : Session} {elements : List Element}
      (hk : s.sessions[k]? = some session) (hp : session.phase = .looping elements next)
      (hn : s.mLoggers[next]? = none) :
      Step P s (.push k) (s.setSession k { session with phase := .pushed })
  | read {k : ℕ} {session : Session} (hk : s.sessions[k]? = some session)
      (hp : session.phase = .pushed) :
      Step P s (.read k) (s.setSession k { session with phase := .reading })
  | stop (hs : s.stopped = false) : Step P s .stop { s with stopped := true }
  | join (hs : s.stopped = true) (hj : s.joined = false) (hq : s.quiescent = true) :
      Step P s .join { s with joined := true }
  | logger {j : ℕ} {a : Logger.Action} {node : LoggerNode} {logger : Logger}
      (hj : s.mLoggers[j]? = some node) (ha : Logger.pushes [a] = [])
      (hd : a = .setDone → s.mayDestroy j = true) (hl : Logger.lts.step node.logger a = some logger) :
      Step P s (.logger j a) (s.setLogger j { node with logger })

theorem Step.of_step (h : (lts P).step s a = some t) : Step P s a t := by
  simp only [lts] at h
  split_ifs at h
  cases a with
  | accepted i ok =>
    simp only [act, Server.accepted] at h
    split at h
    · simp at h
    · rename_i acceptor hi
      by_cases hc : s.stopped = false ∧ 0 < acceptor.pending
      · rw [if_pos hc] at h
        obtain rfl := Option.some.inj h
        exact .accepted ok hi hc.1 hc.2
      · simp [hc] at h
  | acceptNext n =>
    simp only [act, Server.acceptNext] at h
    split at h
    · simp at h
    · rename_i i hh
      split at h
      · rename_i acceptor hi
        obtain rfl := Option.some.inj h
        exact .acceptNext hh hi
      · rename_i hi
        obtain rfl := Option.some.inj h
        exact .acceptEnd hh hi
  | readDone k data clock =>
    simp only [act, Server.readDone] at h
    split at h
    · simp at h
    · rename_i session hk
      split_ifs at h with hc
      obtain rfl := Option.some.inj h
      exact .readDone data clock hk hc.1 hc.2.1 hc.2.2
  | readFailed k =>
    simp only [act, Server.readFailed] at h
    split at h
    · simp at h
    · rename_i session hk
      split_ifs at h with hc
      obtain rfl := Option.some.inj h
      exact .readFailed hk hc.1 hc.2
  | push k =>
    simp only [act, Server.push] at h
    split at h
    · simp at h
    · rename_i session hk
      split at h
      · rename_i elements hp
        split at h
        · rename_i node hl
          obtain rfl := Option.some.inj h
          exact .pushMove hk hp hl
        · rename_i hl
          obtain rfl := Option.some.inj h
          exact .enterLoop hk hp hl
      · rename_i elements next hp
        split at h
        · rename_i node hn
          obtain rfl := Option.some.inj h
          exact .pushCopy hk hp hn
        · rename_i hn
          obtain rfl := Option.some.inj h
          exact .leaveLoop hk hp hn
      · simp at h
  | read k =>
    simp only [act, Server.read] at h
    split at h
    · simp at h
    · rename_i session hk
      split_ifs at h with hc
      obtain rfl := Option.some.inj h
      exact .read hk hc
  | stop =>
    simp only [act, Server.stop] at h
    split_ifs at h with hc
    obtain rfl := Option.some.inj h
    exact .stop hc
  | join =>
    simp only [act, Server.join] at h
    split_ifs at h with hc
    obtain rfl := Option.some.inj h
    exact .join hc.1 hc.2.1 hc.2.2
  | logger j a =>
    simp only [act, Server.loggerStep] at h
    split at h
    · simp at h
    · rename_i node hj
      split_ifs at h with hc
      obtain ⟨logger, hl, rfl⟩ := Option.map_eq_some_iff.mp h
      exact .logger hj hc.1 hc.2 hl

/-! ## A session and a logger in the server -/

theorem getElem?_setSession {session session' : Session} (hk : s.sessions[k]? = some session)
    (i : ℕ) : (s.setSession k session').sessions[i]? =
      if i = k then some session' else s.sessions[i]? := by
  have hlt : k < s.sessions.length := (List.getElem?_eq_some_iff.mp hk).1
  by_cases hi : i = k
  · subst hi
    rw [if_pos rfl]
    exact List.getElem?_set_self hlt
  · rw [if_neg hi]
    exact List.getElem?_set_ne (Ne.symm hi)

/-- A property of sessions that holds of the session a step puts in place holds of all of them. -/
theorem forall_setSession {I : Session → Prop} {session : Session} (hs : ∀ x ∈ s.sessions, I x)
    (hsession : I session) : ∀ x ∈ (s.setSession k session).sessions, I x := by
  intro x hx
  rcases List.mem_or_eq_of_mem_set hx with hx | rfl
  · exact hs x hx
  · exact hsession

theorem forall_setLogger {I : LoggerNode → Prop} {j : ℕ} {node : LoggerNode}
    (hs : ∀ x ∈ s.mLoggers, I x) (hnode : I node) : ∀ x ∈ (s.setLogger j node).mLoggers, I x := by
  intro x hx
  rcases List.mem_or_eq_of_mem_set hx with hx | rfl
  · exact hs x hx
  · exact hnode

/-! ## Invariants of the parts -/

theorem step_streamInv (hs : ∀ x ∈ s.sessions, x.StreamInv P) (h : (lts P).step s a = some t) :
    ∀ x ∈ t.sessions, x.StreamInv P := by
  cases Step.of_step h with
  | accepted ok hi hrun hp =>
    intro x hx
    cases ok with
    | true =>
      rcases List.mem_append.mp hx with hx | hx
      · exact hs x hx
      · obtain rfl := List.mem_singleton.mp hx
        exact Session.StreamInv.fresh P
    | false => exact hs x hx
  | acceptNext hh hi => exact hs
  | acceptEnd hh hi => exact hs
  | readDone data clock hk hrun hp hl =>
    exact forall_setSession hs ((hs _ (List.mem_of_getElem? hk)).onRead data clock)
  | readFailed hk hrun hp =>
    exact forall_setSession hs ((hs _ (List.mem_of_getElem? hk)).setPhase _)
  | pushMove hk hp hl => exact forall_setSession hs ((hs _ (List.mem_of_getElem? hk)).setPhase _)
  | enterLoop hk hp hl => exact forall_setSession hs ((hs _ (List.mem_of_getElem? hk)).setPhase _)
  | pushCopy hk hp hn => exact forall_setSession hs ((hs _ (List.mem_of_getElem? hk)).setPhase _)
  | leaveLoop hk hp hn => exact forall_setSession hs ((hs _ (List.mem_of_getElem? hk)).setPhase _)
  | read hk hp => exact forall_setSession hs ((hs _ (List.mem_of_getElem? hk)).setPhase _)
  | stop hrun => exact hs
  | join hrun hj hq => exact hs
  | logger hj ha hd hl => exact hs

theorem run_streamInv (h : (lts P).run (init acceptors levels) ls = some s) :
    ∀ x ∈ s.sessions, x.StreamInv P := by
  refine Lts.run_preserves (I := fun s => ∀ x ∈ s.sessions, x.StreamInv P) ?_ ?_ h
  · exact fun _ _ _ hs ha => step_streamInv hs ha
  · exact fun x hx => absurd hx List.not_mem_nil

theorem step_queueInv (hs : ∀ x ∈ s.mLoggers, x.QueueInv) (h : (lts P).step s a = some t) :
    ∀ x ∈ t.mLoggers, x.QueueInv := by
  cases Step.of_step h with
  | @pushMove k session elements node hk hp hl =>
    have hnode : node.QueueInv := hs node (by rw [hl]; exact List.mem_singleton_self node)
    intro x hx
    obtain rfl := List.mem_singleton.mp hx
    exact hnode.pushMove k elements
  | @pushCopy k next session elements node hk hp hn =>
    exact forall_setLogger hs ((hs node (List.mem_of_getElem? hn)).pushCopy k elements)
  | @logger j a node logger hj ha hd hl =>
    exact forall_setLogger hs ((hs node (List.mem_of_getElem? hj)).logger ha hl)
  | _ => exact hs

theorem run_queueInv (h : (lts P).run (init acceptors levels) ls = some s) :
    ∀ x ∈ s.mLoggers, x.QueueInv := by
  refine Lts.run_preserves (I := fun s => ∀ x ∈ s.mLoggers, x.QueueInv) ?_ ?_ h
  · exact fun _ _ _ hs ha => step_queueInv hs ha
  · intro x hx
    obtain ⟨level, -, rfl⟩ := List.mem_map.mp hx
    rfl

/-! ## Each logger on its own -/

/-- The logger `j` of a server. -/
def loggerAt (j : ℕ) (s : Server) : Logger := (s.mLoggers[j]?.map LoggerNode.logger).getD (.init 0)

theorem not_terminated_of_step (h : (lts P).step s a = some t) {node : LoggerNode}
    (hnode : node ∈ s.mLoggers) : node.logger.worker ≠ .terminated := by
  simp only [lts] at h
  split_ifs at h with hterm
  intro hworker
  exact hterm (List.any_eq_true.mpr ⟨node, hnode, by simp [hworker]⟩)

theorem loggerAt_setLogger {i : ℕ} {node : LoggerNode} (hi : s.mLoggers[i]? = some node) (j : ℕ)
    (node' : LoggerNode) :
    (s.setLogger i node').loggerAt j = if j = i then node'.logger else s.loggerAt j := by
  have hlt : i < s.mLoggers.length := (List.getElem?_eq_some_iff.mp hi).1
  by_cases hj : j = i
  · subst hj
    simp [loggerAt, setLogger, List.getElem?_set_self hlt]
  · simp [loggerAt, setLogger, List.getElem?_set_ne (Ne.symm hj), hj]

/-- A step of one logger of the server is a step of a logger. -/
theorem step_setLogger {i : ℕ} {node : LoggerNode} {b : Logger.Action}
    (hi : s.mLoggers[i]? = some node) (node' : LoggerNode)
    (hb : Logger.lts.step node.logger b = some node'.logger) (j : ℕ) :
    (s.setLogger i node').loggerAt j = s.loggerAt j ∨
      Logger.lts.step (s.loggerAt j) b = some ((s.setLogger i node').loggerAt j) := by
  rw [loggerAt_setLogger hi]
  by_cases hj : j = i
  · subst hj
    have hold : s.loggerAt j = node.logger := by simp [loggerAt, hi]
    rw [if_pos rfl, hold]
    exact .inr hb
  · rw [if_neg hj]
    exact .inl rfl

/-- A step of the server leaves a logger alone or is one of its steps, and none in which its sink
throws unless the label says so. -/
theorem loggerAt_step (h : (lts P).step s a = some t) (j : ℕ) :
    t.loggerAt j = s.loggerAt j ∨ ∃ b, (b.throws = true → a.throws = true) ∧
      Logger.lts.step (s.loggerAt j) b = some (t.loggerAt j) := by
  cases Step.of_step h with
  | @pushMove k session elements node hk hp hl =>
    have hzero : s.mLoggers[0]? = some node := by rw [hl]; rfl
    have hworker := not_terminated_of_step h (List.mem_of_getElem? hzero)
    have hb : Logger.lts.step node.logger (.pushMove elements) =
        some (node.push Logger.pushMove k elements).logger := if_neg hworker
    have hset : s.mLoggers.set 0 (node.push Logger.pushMove k elements) =
        [node.push Logger.pushMove k elements] := by rw [hl]; rfl
    have hstep := step_setLogger hzero _ hb j
    simp only [loggerAt, setLogger, hset] at hstep
    exact hstep.imp_right fun hstep => ⟨_, by simp [Logger.Action.throws], hstep⟩
  | @pushCopy k next session elements node hk hp hn =>
    have hworker := not_terminated_of_step h (List.mem_of_getElem? hn)
    have hb : Logger.lts.step node.logger (.pushCopy elements) =
        some (node.push Logger.pushCopy k elements).logger := if_neg hworker
    have hstep := step_setLogger hn _ hb j
    exact hstep.imp_right fun hstep => ⟨_, by simp [Logger.Action.throws], hstep⟩
  | @logger i b node logger hi hb hd hl =>
    have hstep := step_setLogger hi { node with logger } hl j
    exact hstep.imp_right fun hstep => ⟨b, id, hstep⟩
  | _ => exact .inl rfl

/-- Seen from one of its loggers, the server is a logger. -/
theorem projects_logger (P : Platform) (j : ℕ) : Lts.Projects (lts P) Logger.lts (loggerAt j) := by
  intro s a t h
  rcases loggerAt_step h j with hsame | ⟨b, -, hstep⟩
  · rw [hsame]
    exact .refl _ _
  · exact .single hstep

/-- With sinks that do not throw, it is a logger with such a sink. -/
theorem projects_quiet_logger (P : Platform) (j : ℕ) :
    Lts.Projects (quiet P) Logger.quiet (loggerAt j) := by
  intro s a t h
  obtain ⟨ha, hserver⟩ := Lts.restrict_step.mp h
  rcases loggerAt_step hserver j with hsame | ⟨b, hb, hstep⟩
  · rw [hsame]
    exact .refl _ _
  · refine .single (Lts.restrict_step.mpr ⟨?_, hstep⟩)
    cases hthrows : b.throws with
    | false => rfl
    | true => simp [hb hthrows] at ha

/-! ## Construction and shutdown -/

/-- What the constructor builds has one or two acceptors and at least one logger. -/
theorem eq_of_create {opt : Options} (h : create opt = .ok s) :
    s = init opt.acceptors opt.levels ∧ opt.acceptors ≠ [] ∧ opt.acceptors.length ≤ 2 ∧
      opt.levels ≠ [] := by
  unfold create at h
  split_ifs at h with hne
  obtain rfl := Except.ok.inj h
  refine ⟨rfl, hne, ?_, ?_⟩
  · unfold Options.acceptors
    split_ifs <;> simp
  · unfold Options.levels
    split_ifs with hsinks
    · simp
    · exact hsinks

/-- Once the io threads have ended no handler runs and none is started, and before that no logger is
destroyed. -/
structure ShutdownInv (s : Server) : Prop where
  stopped : s.joined = true → s.stopped = true
  quiescent : s.joined = true → s.quiescent = true
  alive : s.joined = false → ∀ node ∈ s.mLoggers, node.logger.destructor = .notEntered

theorem quiescent_iff :
    s.quiescent = true ↔ s.accepting = [] ∧ ∀ session ∈ s.sessions, session.idle = true := by
  simp [quiescent]

/-- Once the io threads have ended, only the loggers move. -/
theorem ShutdownInv.step_joined (hs : ShutdownInv s) (hj : s.joined = true)
    (h : (lts P).step s a = some t) : ∃ j b, a = .logger j b ∧ Logger.pushes [b] = [] := by
  have hstopped := hs.stopped hj
  obtain ⟨haccepting, hidle⟩ := quiescent_iff.mp (hs.quiescent hj)
  have hphase : ∀ {k : ℕ} {session : Session}, s.sessions[k]? = some session →
      session.phase = .reading ∨ session.phase = .closed := by
    intro k session hk
    simpa [Session.idle] using hidle session (List.mem_of_getElem? hk)
  cases Step.of_step h with
  | accepted ok hi hrun hp => simp [hstopped] at hrun
  | acceptNext hh hi => simp [haccepting] at hh
  | acceptEnd hh hi => simp [haccepting] at hh
  | readDone data clock hk hrun hp hl => simp [hstopped] at hrun
  | readFailed hk hrun hp => simp [hstopped] at hrun
  | pushMove hk hp hl => simpa [hp] using hphase hk
  | enterLoop hk hp hl => simpa [hp] using hphase hk
  | pushCopy hk hp hn => simpa [hp] using hphase hk
  | leaveLoop hk hp hn => simpa [hp] using hphase hk
  | read hk hp => simpa [hp] using hphase hk
  | stop hrun => simp [hstopped] at hrun
  | join hrun hj' hq => simp [hj] at hj'
  | @logger j b node logger hl ha hd hb => exact ⟨j, b, rfl, ha⟩

theorem ShutdownInv.step (hs : ShutdownInv s) (h : (lts P).step s a = some t) : ShutdownInv t := by
  cases hj : s.joined with
  | true =>
    obtain ⟨j, b, rfl, hb⟩ := hs.step_joined hj h
    cases Step.of_step h with
    | logger hl ha hd hlog =>
      refine ⟨hs.stopped, hs.quiescent, ?_⟩
      intro hj'
      have hjoined : s.joined = false := hj'
      simp [hj] at hjoined
  | false =>
    have halive := hs.alive hj
    have hkeep : ∀ {t : Server}, t.joined = false →
        (∀ node ∈ t.mLoggers, node.logger.destructor = .notEntered) → ShutdownInv t :=
      fun hj' hloggers => ⟨by simp [hj'], by simp [hj'], fun _ => hloggers⟩
    cases Step.of_step h with
    | accepted ok hi hrun hp => exact hkeep hj halive
    | acceptNext hh hi => exact hkeep hj halive
    | acceptEnd hh hi => exact hkeep hj halive
    | readDone data clock hk hrun hp hl => exact hkeep hj halive
    | readFailed hk hrun hp => exact hkeep hj halive
    | @pushMove k session elements node hk hp hl =>
      refine hkeep hj ?_
      intro x hx
      obtain rfl := List.mem_singleton.mp hx
      exact halive node (by rw [hl]; exact List.mem_singleton_self node)
    | enterLoop hk hp hl => exact hkeep hj halive
    | @pushCopy k next session elements node hk hp hn =>
      exact hkeep hj (forall_setLogger halive (halive node (List.mem_of_getElem? hn)))
    | leaveLoop hk hp hn => exact hkeep hj halive
    | read hk hp => exact hkeep hj halive
    | stop hrun => exact hkeep hj halive
    | join hrun hj' hq => exact ⟨fun _ => hrun, fun _ => hq, fun hj' => by simp at hj'⟩
    | @logger j b node logger hl ha hd hlog =>
      have hnot : b ≠ .setDone := by
        intro hb
        simpa [mayDestroy, hj] using hd hb
      have hnode := halive node (List.mem_of_getElem? hl)
      exact hkeep hj (forall_setLogger halive (Logger.step_destructor hlog hnot hnode))

theorem run_shutdownInv (h : (lts P).run (init acceptors levels) ls = some s) : ShutdownInv s := by
  have hinit : ShutdownInv (init acceptors levels) := by
    refine ⟨by simp [init], by simp [init], ?_⟩
    intro _ node hnode
    obtain ⟨level, -, rfl⟩ := List.mem_map.mp hnode
    rfl
  exact Lts.run_preserves (fun _ _ _ hs ha => hs.step ha) hinit h

/-- Once the destructor of a logger was entered, nothing is pushed to any logger any more. -/
theorem no_push_after_destructor (h : (lts P).run (init acceptors levels) ls = some s)
    {node : LoggerNode} (hnode : node ∈ s.mLoggers) (hd : node.logger.destructor ≠ .notEntered)
    (ha : (lts P).step s a = some t) : ∃ j b, a = .logger j b ∧ Logger.pushes [b] = [] := by
  have hinv := run_shutdownInv h
  cases hj : s.joined with
  | true => exact hinv.step_joined hj ha
  | false => exact absurd (hinv.alive hj node hnode) hd

end Server

end Scriptor
