import Scriptor.Proofs.ServerProofs

/-!
# The server: what reaches the loggers

Seen from its loggers, the server refines the fan-out of `Scriptor.FanOut`, with the sessions as
sources and the loggers as sinks (`projects_fanOut`). So every logger is pushed the elements of every
session in the order of its stream (`fan_out_keeps_order`).
-/

namespace Scriptor

namespace Session

/-- The session as a source: its batch is on its way while the handler is in `m_push`. -/
def toSource (session : Session) : FanOut.Source Element where
  emitted := session.returned
  pending :=
    match session.phase with
    | .pushing elements => some (elements, 0)
    | .looping elements next => some (elements, next)
    | _ => none

theorem toSource_reading {session : Session} (hp : session.phase = .reading) :
    session.toSource = ⟨session.returned, none⟩ := by
  simp [toSource, hp]

theorem toSource_pushing {session : Session} {elements : List Element}
    (hp : session.phase = .pushing elements) :
    session.toSource = ⟨session.returned, some (elements, 0)⟩ := by
  simp [toSource, hp]

theorem toSource_looping {session : Session} {elements : List Element} {next : ℕ}
    (hp : session.phase = .looping elements next) :
    session.toSource = ⟨session.returned, some (elements, next)⟩ := by
  simp [toSource, hp]

theorem pending_of_idle {session : Session} (h : session.idle = true) :
    session.toSource.pending = none := by
  have hphase : session.phase = .reading ∨ session.phase = .closed := by simpa [idle] using h
  rcases hphase with hp | hp <;> simp [toSource, hp]

end Session

namespace Server

variable {P : Platform} {s t : Server} {a : Action} {ls : List Action}
  {acceptors : List AcceptorKind} {levels : List ℤ} {k : ℕ}

/-! ## The server as a fan-out -/

/-- The sessions are the sources, and the loggers the sinks. -/
def toFanOut (s : Server) : FanOut.State Element where
  sources k := (s.sessions[k]?.map Session.toSource).getD {}
  sinks := s.mLoggers.map LoggerNode.pushed

theorem toFanOut_source {session : Session} (hk : s.sessions[k]? = some session) :
    s.toFanOut.sources k = session.toSource := by
  simp [toFanOut, hk]

theorem toFanOut_setSession {session : Session} (hk : s.sessions[k]? = some session)
    (session' : Session) :
    (s.setSession k session').toFanOut = s.toFanOut.setSource k session'.toSource := by
  have hsources : (s.setSession k session').toFanOut.sources =
      Function.update s.toFanOut.sources k session'.toSource := by
    funext i
    simp only [toFanOut, getElem?_setSession hk]
    by_cases hi : i = k
    · simp [hi]
    · simp [hi]
  show FanOut.State.mk (s.setSession k session').toFanOut.sources s.toFanOut.sinks = _
  rw [hsources]
  rfl

/-- A step of a session that its source does not see. -/
theorem toFanOut_setSession_same {session session' : Session} (hk : s.sessions[k]? = some session)
    (h : session'.toSource = session.toSource) :
    (s.setSession k session').toFanOut = s.toFanOut := by
  rw [toFanOut_setSession hk, h, ← toFanOut_source hk]
  simp [FanOut.State.setSource]

theorem toFanOut_accepted {t : Server} (hloggers : t.mLoggers = s.mLoggers)
    (hsessions : t.sessions = s.sessions ∨ t.sessions = s.sessions ++ [({} : Session)]) :
    t.toFanOut = s.toFanOut := by
  have hsources : t.toFanOut.sources = s.toFanOut.sources := by
    funext k
    rcases hsessions with hsessions | hsessions
    · simp only [toFanOut, hsessions]
    · simp only [toFanOut, hsessions]
      rcases Nat.lt_trichotomy k s.sessions.length with hlt | heq | hgt
      · rw [List.getElem?_append_left hlt]
      · subst heq
        simp [Session.toSource]
      · rw [List.getElem?_eq_none (by simp; omega), List.getElem?_eq_none (by omega)]
  show FanOut.State.mk t.toFanOut.sources (t.mLoggers.map LoggerNode.pushed) = _
  rw [hsources, hloggers]
  rfl

theorem toFanOut_readDone {session : Session} (hk : s.sessions[k]? = some session)
    (hp : session.phase = .reading) (data : Bytes) (clock : Clock) :
    (FanOut.fanOut Element).Reachable s.toFanOut
      (s.setSession k (session.onRead P data clock)).toFanOut := by
  by_cases helements : (session.mProcessor.call P data clock).elements = []
  · have hsame : (session.onRead P data clock).toSource = session.toSource := by
      rw [Session.toSource_reading hp]
      simp [Session.onRead, Session.toSource, helements]
    rw [toFanOut_setSession_same hk hsame]
    exact .refl _ _
  · have hsource : (session.onRead P data clock).toSource =
        ⟨session.returned ++ (session.mProcessor.call P data clock).elements,
          some ((session.mProcessor.call P data clock).elements, 0)⟩ := by
      simp [Session.onRead, Session.toSource, helements]
    rw [toFanOut_setSession hk, hsource]
    refine .single (FanOut.emit_of_idle ?_ _)
    rw [toFanOut_source hk, Session.toSource_reading hp]

/-- The one-logger path: the batch is delivered to the only sink, which ends its way. -/
theorem toFanOut_pushMove {session : Session} {elements : List Element} {node : LoggerNode}
    (hk : s.sessions[k]? = some session) (hp : session.phase = .pushing elements)
    (hl : s.mLoggers = [node]) :
    (FanOut.fanOut Element).Reachable s.toFanOut
      ({ s.setSession k { session with phase := .pushed } with
        mLoggers := [node.push Logger.pushMove k elements] } : Server).toFanOut := by
  have hsource : s.toFanOut.sources k = ⟨session.returned, some (elements, 0)⟩ := by
    rw [toFanOut_source hk, Session.toSource_pushing hp]
  have hsinks : s.toFanOut.sinks = [node.pushed] := by simp [toFanOut, hl]
  have hreach := FanOut.reachable_of_one_sink hsource hsinks
  have hpushed : ({ session with phase := .pushed } : Session).toSource = ⟨session.returned, none⟩ :=
    rfl
  rw [← hpushed, ← toFanOut_setSession hk] at hreach
  exact hreach

/-- The loop over several loggers: one more sink has the batch. -/
theorem toFanOut_pushCopy {session : Session} {elements : List Element} {next : ℕ}
    {node : LoggerNode} (hk : s.sessions[k]? = some session)
    (hp : session.phase = .looping elements next) (hn : s.mLoggers[next]? = some node) :
    (FanOut.fanOut Element).Reachable s.toFanOut
      ((s.setSession k { session with phase := .looping elements (next + 1) }).setLogger next
        (node.push Logger.pushCopy k elements)).toFanOut := by
  have hsource : s.toFanOut.sources k = ⟨session.returned, some (elements, next)⟩ := by
    rw [toFanOut_source hk, Session.toSource_looping hp]
  have hsink : s.toFanOut.sinks[next]? = some node.pushed := by simp [toFanOut, hn]
  have hstep := FanOut.deliver_of_pending hsource hsink
  have hnext : ({ session with phase := .looping elements (next + 1) } : Session).toSource =
    ⟨session.returned, some (elements, next + 1)⟩ := rfl
  have hsinks : s.toFanOut.sinks.set next (node.pushed ++ elements.map (k, ·)) =
      (s.mLoggers.set next (node.push Logger.pushCopy k elements)).map LoggerNode.pushed := by
    rw [List.map_set]
    rfl
  rw [← hnext, ← toFanOut_setSession hk, hsinks] at hstep
  exact .single hstep

theorem toFanOut_leaveLoop {session : Session} {elements : List Element} {next : ℕ}
    (hk : s.sessions[k]? = some session) (hp : session.phase = .looping elements next)
    (hn : s.mLoggers[next]? = none) :
    (FanOut.fanOut Element).Reachable s.toFanOut
      (s.setSession k { session with phase := .pushed }).toFanOut := by
  have hsource : s.toFanOut.sources k = ⟨session.returned, some (elements, next)⟩ := by
    rw [toFanOut_source hk, Session.toSource_looping hp]
  have hlength : s.toFanOut.sinks.length ≤ next := by
    have hle := List.getElem?_eq_none_iff.mp hn
    simpa [toFanOut] using hle
  rw [toFanOut_setSession hk]
  exact .single (FanOut.finish_of_pending hsource hlength)

/-- A step of a logger pushes nothing. -/
theorem toFanOut_logger {j : ℕ} {node : LoggerNode} (hj : s.mLoggers[j]? = some node)
    (logger : Logger) : (s.setLogger j { node with logger }).toFanOut = s.toFanOut := by
  have hsinks : (s.mLoggers.set j { node with logger }).map LoggerNode.pushed =
      s.mLoggers.map LoggerNode.pushed := by
    obtain ⟨hlt, rfl⟩ := List.getElem?_eq_some_iff.mp hj
    have hlt' : j < (s.mLoggers.map LoggerNode.pushed).length := by simpa using hlt
    rw [List.map_set]
    simpa using List.set_getElem_self hlt'
  show FanOut.State.mk s.toFanOut.sources
    ((s.mLoggers.set j { node with logger }).map LoggerNode.pushed) = _
  rw [hsinks]
  rfl

/-- Every step of the server is a run of the fan-out. -/
theorem projects_fanOut (P : Platform) :
    Lts.Projects (lts P) (FanOut.fanOut Element) toFanOut := by
  intro s a t h
  cases Step.of_step h with
  | @accepted ok i acceptor hi hrun hp =>
    have hsame := toFanOut_accepted (s := s) (t := { s with
      mAcceptors := s.mAcceptors.set i { acceptor with pending := acceptor.pending - 1 }
      sessions := if ok then s.sessions ++ [{}] else s.sessions
      accepting := s.accepting ++ [0] }) rfl (by cases ok <;> simp)
    rw [hsame]
    exact .refl _ _
  | acceptNext hh hi => exact .refl _ _
  | acceptEnd hh hi => exact .refl _ _
  | readDone data clock hk hrun hp hl => exact toFanOut_readDone hk hp data clock
  | @readFailed k session hk hrun hp =>
    have hsame : ({ session with phase := .closed } : Session).toSource = session.toSource := by
      simp [Session.toSource, hp]
    rw [toFanOut_setSession_same hk hsame]
    exact .refl _ _
  | pushMove hk hp hl => exact toFanOut_pushMove hk hp hl
  | @enterLoop k session elements hk hp hl =>
    have hsame : ({ session with phase := .looping elements 0 } : Session).toSource =
      session.toSource := by
      simp [Session.toSource, hp]
    rw [toFanOut_setSession_same hk hsame]
    exact .refl _ _
  | pushCopy hk hp hn => exact toFanOut_pushCopy hk hp hn
  | leaveLoop hk hp hn => exact toFanOut_leaveLoop hk hp hn
  | @read k session hk hp =>
    have hsame : ({ session with phase := .reading } : Session).toSource = session.toSource := by
      simp [Session.toSource, hp]
    rw [toFanOut_setSession_same hk hsame]
    exact .refl _ _
  | stop hrun => exact .refl _ _
  | join hrun hj hq => exact .refl _ _
  | logger hj ha hd hl =>
    rw [toFanOut_logger hj]
    exact .refl _ _

theorem toFanOut_init (acceptors : List AcceptorKind) (levels : List ℤ) :
    (init acceptors levels).toFanOut = FanOut.init levels.length := by
  have hsinks : (levels.map fun level => ({ logger := .init level } : LoggerNode)).map
      LoggerNode.pushed = List.replicate levels.length [] := by
    rw [List.map_map, List.eq_replicate_iff]
    simp
  show FanOut.State.mk (fun _ => {}) ((levels.map fun level =>
    ({ logger := .init level } : LoggerNode)).map LoggerNode.pushed) = _
  rw [hsinks]
  rfl

theorem run_fanOutInv (h : (lts P).run (init acceptors levels) ls = some s) :
    FanOut.Inv s.toFanOut := by
  have hreach := (projects_fanOut P).reachable ⟨ls, h⟩
  rw [toFanOut_init] at hreach
  exact FanOut.reachable_inv hreach

/-- Without a running handler no batch is on its way. -/
theorem quiescent_toFanOut (h : ∀ session ∈ s.sessions, session.idle = true) :
    FanOut.Quiescent s.toFanOut := by
  intro k
  cases hk : s.sessions[k]? with
  | none => simp [toFanOut, hk]
  | some session =>
    rw [toFanOut_source hk]
    exact Session.pending_of_idle (h session (List.mem_of_getElem? hk))

section

variable {node : LoggerNode} {session : Session}

theorem mem_sinks (hnode : node ∈ s.mLoggers) : node.pushed ∈ s.toFanOut.sinks :=
  List.mem_map_of_mem hnode

theorem pushedBy_isPrefix (hs : FanOut.Inv s.toFanOut) (hnode : node ∈ s.mLoggers)
    (hk : s.sessions[k]? = some session) : node.pushedBy k <+: session.returned := by
  have hpart := hs.isPrefix k (mem_sinks hnode)
  rw [toFanOut_source hk] at hpart
  exact hpart

theorem pushedBy_of_idle (hs : FanOut.Inv s.toFanOut) (hnode : node ∈ s.mLoggers)
    (hk : s.sessions[k]? = some session) (hidle : session.idle = true) :
    node.pushedBy k = session.returned := by
  have hpending : (s.toFanOut.sources k).pending = none := by
    rw [toFanOut_source hk]
    exact Session.pending_of_idle hidle
  have hall := hs.eq_emitted (mem_sinks hnode) hpending
  rw [toFanOut_source hk] at hall
  exact hall

/-- Nothing is pushed but by a session. -/
theorem lt_of_mem_pushed (hs : FanOut.Inv s.toFanOut) (hnode : node ∈ s.mLoggers)
    {p : ℕ × Element} (hp : p ∈ node.pushed) : p.1 < s.sessions.length := by
  obtain ⟨k, e⟩ := p
  by_contra hlt
  have hnone : s.sessions[k]? = none := List.getElem?_eq_none (by simpa using hlt)
  have hpart := hs.isPrefix k (mem_sinks hnode)
  have hnil : FanOut.ofSource k node.pushed = [] := by
    simpa [toFanOut, hnone] using hpart
  have hmem := FanOut.mem_ofSource.mpr hp
  rw [hnil] at hmem
  exact List.not_mem_nil hmem

end

/-- In every reachable state: what each logger was pushed by a session is, from its beginning on,
what the processor makes of the bytes the session has read, and all of it when no handler of the
session runs; it is what the logger took in, in the order it took it in, and every element is from a
session; and when no handler runs, all loggers were pushed the same elements up to order. Elements
are compared up to the times read from the clock. -/
theorem fan_out_keeps_order (h : (lts P).run (init acceptors levels) ls = some s) :
    (∀ node ∈ s.mLoggers,
      (∀ k session, s.sessions[k]? = some session → ∀ clock : Clock,
        ((node.pushedBy k).map Element.forgetClock <+:
            (({} : Processor).call P session.received clock).elements.map Element.forgetClock) ∧
          (session.idle = true → (node.pushedBy k).map Element.forgetClock =
            (({} : Processor).call P session.received clock).elements.map Element.forgetClock)) ∧
      node.pushed.map Prod.snd = node.logger.batches.flatten ++ node.logger.mElements ∧
      ∀ p ∈ node.pushed, p.1 < s.sessions.length) ∧
    ((∀ session ∈ s.sessions, session.idle = true) →
      ∀ node ∈ s.mLoggers, ∀ node' ∈ s.mLoggers,
        (node.pushed.map Prod.snd).Perm (node'.pushed.map Prod.snd)) := by
  have hfan := run_fanOutInv h
  refine ⟨?_, ?_⟩
  · intro node hnode
    refine ⟨?_, run_queueInv h node hnode, fun p hp => lt_of_mem_pushed hfan hnode hp⟩
    intro k session hk clock
    have hstream := run_streamInv h session (List.mem_of_getElem? hk)
    rw [← hstream.returned_eq_call clock]
    refine ⟨(pushedBy_isPrefix hfan hnode hk).map Element.forgetClock, ?_⟩
    intro hidle
    rw [pushedBy_of_idle hfan hnode hk hidle]
  · intro hidle node hnode node' hnode'
    have hperm := hfan.perm_of_quiescent (quiescent_toFanOut hidle) (mem_sinks hnode)
      (mem_sinks hnode')
    exact hperm.map Prod.snd

/-- Two sessions with one log each, pushed to the two loggers in opposite orders. -/
def oppositeOrders : List Action :=
  [.accepted 0 true, .acceptNext 0, .acceptNext 0, .accepted 0 true, .acceptNext 0, .acceptNext 0,
    .readDone 0 (ascii "\x7b\x7d") fun _ => 0, .readDone 1 (ascii "\x7b\x7d") fun _ => 1,
    .push 0, .push 1, .push 0, .push 1, .push 1, .push 0, .push 0, .push 1, .read 0, .read 1]

theorem fan_out_keeps_order_opposite :
    ∃ s : Server, (lts referencePlatform).run (init [.unix] [0, 0]) oppositeOrders = some s ∧
      s.mLoggers.map (·.pushed.map Prod.fst) = [[0, 1], [1, 0]] ∧
      ∀ node ∈ s.mLoggers, ∀ node' ∈ s.mLoggers,
        (node.pushed.map Prod.snd).Perm (node'.pushed.map Prod.snd) := by
  have hrun : ((lts referencePlatform).run (init [.unix] [0, 0]) oppositeOrders).map
      (fun s => (s.mLoggers.map (·.pushed.map Prod.fst), s.quiescent)) =
        some ([[0, 1], [1, 0]], true) := by decide +kernel
  obtain ⟨s, hs, hout⟩ := Option.map_eq_some_iff.mp hrun
  obtain ⟨hsources, hquiet⟩ := Prod.mk.inj hout
  have hidle : ∀ session ∈ s.sessions, session.idle = true := by
    simp only [quiescent, decide_eq_true_eq] at hquiet
    exact hquiet.2
  exact ⟨s, hs, hsources, (fan_out_keeps_order hs).2 hidle⟩

end Server

end Scriptor
