import Scriptor.Pool
import Scriptor.Proofs.AcceptProofs

/-!
# The io threads: handlers

`Step` says once what each step of the server and its threads does. What the io threads do for the
server is `HandlerInv`: each handler in progress is in a thread of its own, in which it stays from its
start to its end.
-/

namespace Scriptor

namespace Pool

variable {P : Platform} {s s' : Pool} {a : Action} {ls : List Action}

/-! ## One step -/

/-- What a step of a handler does with the thread it is in. -/
inductive Moves (s r : Server) : Server.Action → IoThread → IoThread → Prop where
  | accepted (i : ℕ) (ok : Bool) : Moves s r (.accepted i ok) .free .accepting
  | acceptNext (h : ℕ) (hlen : s.accepting.length ≤ r.accepting.length) :
      Moves s r (.acceptNext h) .accepting .accepting
  | acceptEnd (h : ℕ) (hlen : r.accepting.length < s.accepting.length) :
      Moves s r (.acceptNext h) .accepting .free
  | readDone (k : ℕ) (data : Bytes) (clock : Clock) :
      Moves s r (.readDone k data clock) .free (.reading k)
  | readFailed (k : ℕ) : Moves s r (.readFailed k) .free .free
  | push (k : ℕ) : Moves s r (.push k) (.reading k) (.reading k)
  | read (k : ℕ) : Moves s r (.read k) (.reading k) .free

/-- What each step requires and what it does. -/
inductive Step (P : Platform) (s : Pool) : Action → Pool → Prop where
  | started (hc : s.control = .starting) (hn : s.mIocThreads.length < s.nThreads) :
      Step P s (.start true) { s with
        threads := s.threads ++ [.free]
        thread := some s.threads.length
        control := .storing }
  | notStarted (hc : s.control = .starting) (hn : s.mIocThreads.length < s.nThreads) :
      Step P s (.start false) { s with control := .stopping .notStarted }
  | stored (hc : s.control = .storing) :
      Step P s (.store true) { s with
        mIocThreads := s.mIocThreads ++ [s.thread]
        thread := none
        control := .starting }
  | notStored (hc : s.control = .storing) :
      Step P s (.store false) { s with control := .stopping .notStored }
  | constructed (hc : s.control = .starting) (hn : s.nThreads ≤ s.mIocThreads.length) :
      Step P s .constructed { s with control := .serving }
  | signal (signal : ℤ) : Step P s (.signal signal) { s with gSignal := signal }
  | leave (hc : s.control = .serving) (hg : s.gSignal ≠ 0) :
      Step P s .leave { s with control := .stopping .destructor }
  | stop {caller : Caller} (hc : s.control = .stopping caller) :
      Step P s .stop { s with server.stopped := true, control := .joining caller 0 }
  | joined {caller : Caller} {next t : ℕ} (hc : s.control = .joining caller next)
      (ho : s.mIocThreads[next]? = some (some t)) (ht : s.threads[t]? = some .ended) :
      Step P s .joinNext { s with
        mIocThreads := s.mIocThreads.set next none
        control := .joining caller (next + 1) }
  | notJoinable {caller : Caller} {next : ℕ} (hc : s.control = .joining caller next)
      (ho : s.mIocThreads[next]? = some none) :
      Step P s .joinNext { s with control := .joining caller (next + 1) }
  | returned {caller : Caller} {next : ℕ} (hc : s.control = .joining caller next)
      (ho : s.mIocThreads[next]? = none) : Step P s .joinNext (s.returned caller)
  | joinThread {t : ℕ} (hc : s.control = .joiningThread) (ho : s.thread = some t)
      (ht : s.threads[t]? = some .ended) :
      Step P s .joinThread { s with thread := none, control := .unwinding }
  | unwind (hc : s.control = .unwinding) (ho : s.thread = none) :
      Step P s .unwind { s with server.joined := true, control := .clearing }
  | unwindJoinable (hc : s.control = .unwinding) (ho : s.thread ≠ none) :
      Step P s .unwind { s with control := .terminated }
  | destroyed (hc : s.control = .clearing)
      (hd : ∀ node ∈ s.server.mLoggers, node.logger.destructor = .returned)
      (ho : ∀ object ∈ s.mIocThreads, object = none) :
      Step P s .destroyed { s with control := .gone }
  | destroyedJoinable (hc : s.control = .clearing)
      (ho : ¬ ∀ object ∈ s.mIocThreads, object = none) :
      Step P s .destroyed { s with control := .terminated }
  | handle {t : ℕ} {b : Server.Action} {here next : IoThread} {r : Server}
      (ht : s.threads[t]? = some here) (hb : (Server.lts P).step s.server b = some r)
      (hm : Moves s.server r b here next) :
      Step P s (.handle t b) { s with server := r, threads := s.threads.set t next }
  | finish {t : ℕ} (ht : s.threads[t]? = some .free)
      (hf : s.server.stopped = true ∨ s.server.outOfWork = true) :
      Step P s (.finish t) { s with threads := s.threads.set t .ended }
  | logger {j : ℕ} {b : Logger.Action} {r : Server}
      (hb : (Server.lts P).step s.server (.logger j b) = some r) :
      Step P s (.logger j b) { s with server := r }

theorem inThread_eq_some {t : ℕ} {here : IoThread} {next : Server → IoThread}
    {server : Option Server} (h : s.inThread t here next server = some s') :
    s.threads[t]? = some here ∧ ∃ r, server = some r ∧
      s' = { s with server := r, threads := s.threads.set t (next r) } := by
  simp only [inThread] at h
  split_ifs at h with ht
  obtain ⟨r, hr, rfl⟩ := Option.map_eq_some_iff.mp h
  exact ⟨ht, r, hr, rfl⟩

/-- A step of a handler is a step of the server, and of one thread. -/
theorem handle_eq_some {t : ℕ} {b : Server.Action} (hrun : s.server.terminated = false)
    (h : s.handle P t b = some s') : ∃ here next r, s.threads[t]? = some here ∧
      (Server.lts P).step s.server b = some r ∧ Moves s.server r b here next ∧
      s' = { s with server := r, threads := s.threads.set t next } := by
  have hlts : (Server.lts P).step s.server b = s.server.act P b := by simp [Server.lts, hrun]
  rw [hlts]
  cases b with
  | accepted i ok =>
    obtain ⟨ht, r, hr, rfl⟩ := inThread_eq_some h
    exact ⟨_, _, r, ht, hr, .accepted i ok, rfl⟩
  | acceptNext n =>
    obtain ⟨ht, r, hr, rfl⟩ := inThread_eq_some h
    refine ⟨_, s.stillAccepting r, r, ht, hr, ?_, rfl⟩
    unfold stillAccepting
    split_ifs with hlen
    · exact .acceptEnd n hlen
    · exact .acceptNext n (Nat.le_of_not_lt hlen)
  | readDone k data clock =>
    obtain ⟨ht, r, hr, rfl⟩ := inThread_eq_some h
    exact ⟨_, _, r, ht, hr, .readDone k data clock, rfl⟩
  | readFailed k =>
    obtain ⟨ht, r, hr, rfl⟩ := inThread_eq_some h
    exact ⟨_, _, r, ht, hr, .readFailed k, rfl⟩
  | push k =>
    obtain ⟨ht, r, hr, rfl⟩ := inThread_eq_some h
    exact ⟨_, _, r, ht, hr, .push k, rfl⟩
  | read k =>
    obtain ⟨ht, r, hr, rfl⟩ := inThread_eq_some h
    exact ⟨_, _, r, ht, hr, .read k, rfl⟩
  | stop => simp [handle] at h
  | join => simp [handle] at h
  | logger j a => simp [handle] at h

theorem Step.of_step (h : (lts P).step s a = some s') : Step P s a s' := by
  simp only [lts] at h
  split_ifs at h with hend
  have hrun : s.server.terminated = false := by
    rw [not_or] at hend
    simpa using hend.1
  cases a with
  | start ok =>
    simp only [act, Pool.start] at h
    split_ifs at h with hc hok
    · obtain rfl := Option.some.inj h
      rw [hok]
      exact .started hc.1 hc.2
    · obtain rfl := Option.some.inj h
      rw [Bool.not_eq_true] at hok
      rw [hok]
      exact .notStarted hc.1 hc.2
  | store ok =>
    simp only [act, Pool.store] at h
    split_ifs at h with hc hok
    · obtain rfl := Option.some.inj h
      rw [hok]
      exact .stored hc
    · obtain rfl := Option.some.inj h
      rw [Bool.not_eq_true] at hok
      rw [hok]
      exact .notStored hc
  | constructed =>
    simp only [act, Pool.constructed] at h
    split_ifs at h with hc
    obtain rfl := Option.some.inj h
    exact .constructed hc.1 hc.2
  | signal n =>
    obtain rfl := Option.some.inj h
    exact .signal n
  | leave =>
    simp only [act, Pool.leave] at h
    split_ifs at h with hc
    obtain rfl := Option.some.inj h
    exact .leave hc.1 hc.2
  | stop =>
    simp only [act, Pool.stop] at h
    split at h
    · rename_i caller hc
      obtain rfl := Option.some.inj h
      exact .stop hc
    · simp at h
  | joinNext =>
    simp only [act, Pool.joinNext] at h
    split at h
    · rename_i caller next hc
      split at h
      · rename_i t ho
        split_ifs at h with ht
        obtain rfl := Option.some.inj h
        exact .joined hc ho ht
      · rename_i ho
        obtain rfl := Option.some.inj h
        exact .notJoinable hc ho
      · rename_i ho
        obtain rfl := Option.some.inj h
        exact .returned hc ho
    · simp at h
  | joinThread =>
    simp only [act, Pool.joinThread] at h
    split at h
    · rename_i t hc ho
      split_ifs at h with ht
      obtain rfl := Option.some.inj h
      exact .joinThread hc ho ht
    · simp at h
  | unwind =>
    simp only [act, Pool.unwind] at h
    split_ifs at h with hc ho
    · obtain rfl := Option.some.inj h
      exact .unwind hc ho
    · obtain rfl := Option.some.inj h
      exact .unwindJoinable hc ho
  | destroyed =>
    simp only [act, Pool.destroyed] at h
    split_ifs at h with hc ho
    · obtain rfl := Option.some.inj h
      exact .destroyed hc.1 hc.2 ho
    · obtain rfl := Option.some.inj h
      exact .destroyedJoinable hc.1 ho
  | handle t b =>
    obtain ⟨here, next, r, ht, hb, hm, rfl⟩ := handle_eq_some hrun h
    exact .handle ht hb hm
  | finish t =>
    simp only [act, Pool.finish] at h
    split_ifs at h with hc
    obtain rfl := Option.some.inj h
    exact .finish hc.1 hc.2
  | logger j b =>
    simp only [act, Pool.loggerStep] at h
    obtain ⟨r, hr, rfl⟩ := Option.map_eq_some_iff.mp h
    exact .logger (by simpa [Server.lts, Server.act, hrun] using hr)

end Pool

/-! ## Handlers and threads -/

namespace Server

variable {P : Platform} {s t : Server} {a : Action} {k : ℕ}

/-- A handler of session `k` is in progress. -/
def busy (s : Server) (k : ℕ) : Bool := s.sessions[k]?.any fun session => !session.idle

theorem busy_of_getElem? {session : Session} (hk : s.sessions[k]? = some session) :
    s.busy k = !session.idle := by
  unfold busy
  rw [hk]
  rfl

theorem busy_setSession {session : Session} (hk : s.sessions[k]? = some session)
    (session' : Session) (i : ℕ) :
    (s.setSession k session').busy i = if i = k then !session'.idle else s.busy i := by
  unfold busy
  rw [getElem?_setSession hk]
  split_ifs <;> rfl

/-- A new session waits for its first bytes. -/
theorem busy_append (sessions : List Session) (i : ℕ) :
    (sessions ++ [({} : Session)])[i]?.any (fun session => !session.idle) =
      sessions[i]?.any fun session => !session.idle := by
  by_cases hi : i < sessions.length
  · rw [List.getElem?_append_left hi]
  · rw [List.getElem?_append_right (Nat.le_of_not_lt hi),
      List.getElem?_eq_none (Nat.le_of_not_lt hi)]
    cases i - sessions.length with
    | zero => rfl
    | succ n => rfl

/-- Only the owner of the server stops it and joins its threads. -/
theorem step_flags (h : (lts P).step s a = some t) (hstop : a ≠ .stop) (hjoin : a ≠ .join) :
    t.stopped = s.stopped ∧ t.joined = s.joined := by
  cases Step.of_step h with
  | stop hs => exact absurd rfl hstop
  | join hs hj hq => exact absurd rfl hjoin
  | _ => exact ⟨rfl, rfl⟩

end Server

namespace Pool

variable {P : Platform} {s s' : Pool} {a : Action} {ls : List Action}

theorem count_set_add {threads : List IoThread} {t : ℕ} {here : IoThread}
    (ht : threads[t]? = some here) (next z : IoThread) :
    (threads.set t next).count z + (if here = z then 1 else 0) =
      threads.count z + if next = z then 1 else 0 := by
  have hcount := countP_set_add (p := (· == z)) ht next
  simpa [List.count] using hcount

/-- Each handler in progress is in a thread of its own. -/
structure HandlerInv (threads : List IoThread) (server : Server) : Prop where
  accepting : threads.count .accepting = server.accepting.length
  reading : ∀ k, threads.count (.reading k) = (server.busy k).toNat

section

variable {threads : List IoThread} {server r : Server} {t : ℕ} {b : Server.Action}
  {here next : IoThread}

/-- A thread that is not in a handler changes. -/
theorem HandlerInv.set (hs : HandlerInv threads server) (ht : threads[t]? = some .free)
    (hnext : next = .free ∨ next = .ended) : HandlerInv (threads.set t next) server := by
  obtain ⟨haccepting, hreading⟩ := hs
  refine ⟨?_, ?_⟩
  · have hcount := count_set_add ht next .accepting
    rcases hnext with rfl | rfl <;> simp at hcount <;> omega
  · intro k
    have hcount := count_set_add ht next (.reading k)
    rw [← hreading k]
    rcases hnext with rfl | rfl <;> simpa using hcount

theorem HandlerInv.append_free (hs : HandlerInv threads server) :
    HandlerInv (threads ++ [.free]) server := by
  obtain ⟨haccepting, hreading⟩ := hs
  refine ⟨?_, ?_⟩
  · simpa [List.count_append] using haccepting
  · intro k
    simpa [List.count_append] using hreading k

/-- A handler of session `k` starts, goes on or ends. -/
theorem HandlerInv.session {k : ℕ} {session session' : Session} (hs : HandlerInv threads server)
    (ht : threads[t]? = some here) (hk : server.sessions[k]? = some session)
    (hhere : here = if session.idle then .free else .reading k)
    (hnext : next = if session'.idle then .free else .reading k) :
    HandlerInv (threads.set t next) (server.setSession k session') := by
  obtain ⟨haccepting, hreading⟩ := hs
  have hother : ∀ z, z ≠ .free → z ≠ .reading k → (threads.set t next).count z = threads.count z := by
    intro z hfree hreads
    have hcount := count_set_add ht next z
    have hne : here ≠ z := by
      rw [hhere]
      split_ifs
      · exact hfree.symm
      · exact hreads.symm
    have hne' : next ≠ z := by
      rw [hnext]
      split_ifs
      · exact hfree.symm
      · exact hreads.symm
    rwa [if_neg hne, if_neg hne'] at hcount
  refine ⟨?_, ?_⟩
  · rw [hother .accepting (by simp) (by simp)]
    exact haccepting
  · intro i
    rw [Server.busy_setSession hk]
    by_cases heq : i = k
    · subst heq
      have hcount := count_set_add ht next (.reading i)
      rw [if_pos rfl]
      rw [hreading i, Server.busy_of_getElem? hk, hhere, hnext] at hcount
      rw [hnext]
      cases hidle : session.idle <;> cases hidle' : session'.idle <;>
        simpa [hidle, hidle'] using hcount
    · rw [if_neg heq, hother (.reading i) (by simp) (by simpa using heq)]
      exact hreading i

theorem HandlerInv.congr (hs : HandlerInv threads server) (haccepting : r.accepting = server.accepting)
    (hsessions : r.sessions = server.sessions) : HandlerInv threads r := by
  refine ⟨by rw [haccepting]; exact hs.accepting, ?_⟩
  intro k
  rw [Server.busy, hsessions]
  exact hs.reading k

/-- The sessions are as busy as before, and the thread goes in or out of the handler of an accept. -/
theorem HandlerInv.accept (hs : HandlerInv threads server) (ht : threads[t]? = some here)
    (hhere : here = .free ∨ here = .accepting) (hnext : next = .free ∨ next = .accepting)
    (hlength : r.accepting.length + (if here = .accepting then 1 else 0) =
      server.accepting.length + if next = .accepting then 1 else 0)
    (hbusy : ∀ k, r.busy k = server.busy k) : HandlerInv (threads.set t next) r := by
  obtain ⟨haccepting, hreading⟩ := hs
  refine ⟨?_, ?_⟩
  · have hcount := count_set_add ht next .accepting
    omega
  · intro k
    have hcount := count_set_add ht next (.reading k)
    have hne : here ≠ .reading k := by rcases hhere with rfl | rfl <;> simp
    have hne' : next ≠ .reading k := by rcases hnext with rfl | rfl <;> simp
    rw [if_neg hne, if_neg hne', Nat.add_zero, Nat.add_zero] at hcount
    rw [hcount, hbusy k]
    exact hreading k

theorem idle_of_reading {session : Session} (hp : session.phase = .reading) :
    session.idle = true := by
  simp [Session.idle, hp]

/-- Every step of a handler is made in the thread it started in. -/
theorem HandlerInv.handle (hs : HandlerInv threads server) (ht : threads[t]? = some here)
    (hb : (Server.lts P).step server b = some r) (hm : Moves server r b here next) :
    HandlerInv (threads.set t next) r := by
  have hstep := Server.Step.of_step hb
  cases hm with
  | accepted i ok =>
    cases hstep with
    | accepted _ hi hrun hp =>
      refine hs.accept ht (.inl rfl) (.inr rfl) (by simp) ?_
      intro k
      cases ok with
      | true => exact Server.busy_append server.sessions k
      | false => rfl
  | acceptNext n hlen =>
    cases hstep with
    | acceptNext hh hi => exact hs.accept ht (.inr rfl) (.inr rfl) (by simp) fun _ => rfl
    | acceptEnd hh hi =>
      have hlt := (List.getElem?_eq_some_iff.mp hh).1
      have herase := List.length_eraseIdx_of_lt hlt
      rw [herase] at hlen
      omega
  | acceptEnd n hlen =>
    cases hstep with
    | acceptNext hh hi => simp at hlen
    | acceptEnd hh hi =>
      have hlt := (List.getElem?_eq_some_iff.mp hh).1
      have herase := List.length_eraseIdx_of_lt hlt
      refine hs.accept ht (.inr rfl) (.inl rfl) ?_ fun _ => rfl
      simp only [herase, reduceIte, reduceCtorEq]
      omega
  | readDone k data clock =>
    cases hstep with
    | @readDone _ _ _ session hk hrun hp hl =>
      have hbusy : (session.onRead P data clock).idle = false := by
        simp only [Session.idle, Session.onRead]
        split_ifs <;> simp
      exact hs.session ht hk (by rw [idle_of_reading hp]; rfl) (by rw [hbusy]; rfl)
  | readFailed k =>
    cases hstep with
    | readFailed hk hrun hp =>
      exact hs.session ht hk (by rw [idle_of_reading hp]; rfl) rfl
  | push k =>
    cases hstep with
    | pushMove hk hp hl =>
      refine HandlerInv.congr (hs.session ht hk ?_ ?_) rfl rfl
      · simp [Session.idle, hp]
      · rfl
    | enterLoop hk hp hl => exact hs.session ht hk (by simp [Session.idle, hp]) rfl
    | pushCopy hk hp hn =>
      refine HandlerInv.congr (hs.session ht hk ?_ ?_) rfl rfl
      · simp [Session.idle, hp]
      · rfl
    | leaveLoop hk hp hn => exact hs.session ht hk (by simp [Session.idle, hp]) rfl
  | read k =>
    cases hstep with
    | read hk hp => exact hs.session ht hk (by simp [Session.idle, hp]) rfl

/-- When all threads have ended, no handler is in progress. -/
theorem HandlerInv.quiescent (hs : HandlerInv threads server)
    (hended : ∀ thread ∈ threads, thread = .ended) : server.quiescent = true := by
  have hnone : ∀ z, z ≠ .ended → threads.count z = 0 := by
    intro z hz
    rw [List.count_eq_zero]
    intro hmem
    exact hz (hended z hmem)
  rw [Server.quiescent_iff]
  refine ⟨?_, ?_⟩
  · have haccepting := hs.accepting
    rw [hnone .accepting (by simp)] at haccepting
    exact List.length_eq_zero_iff.mp haccepting.symm
  · intro session hsession
    obtain ⟨k, hk⟩ := List.mem_iff_getElem?.mp hsession
    have hreading := hs.reading k
    rw [hnone (.reading k) (by simp), Server.busy_of_getElem? hk] at hreading
    cases hidle : session.idle with
    | true => rfl
    | false => simp [hidle] at hreading

end

theorem Moves.here_ne_ended {server r : Server} {b : Server.Action} {here next : IoThread}
    (hm : Moves server r b here next) : here ≠ .ended := by
  cases hm <;> simp

theorem Moves.next_ne_ended {server r : Server} {b : Server.Action} {here next : IoThread}
    (hm : Moves server r b here next) : next ≠ .ended := by
  cases hm <;> simp

/-- A handler neither stops the server nor joins its threads. -/
theorem Moves.flags {server r : Server} {b : Server.Action} {here next : IoThread}
    (hm : Moves server r b here next) (hb : (Server.lts P).step server b = some r) :
    r.stopped = server.stopped ∧ r.joined = server.joined := by
  refine Server.step_flags hb ?_ ?_
  · cases hm <;> simp
  · cases hm <;> simp

theorem step_handlerInv (hs : HandlerInv s.threads s.server) (h : Step P s a s') :
    HandlerInv s'.threads s'.server := by
  cases h with
  | started hc hn => exact hs.append_free
  | stop hc => exact hs.congr rfl rfl
  | @returned caller next hc ho =>
    cases caller with
    | destructor => exact hs.congr rfl rfl
    | notStarted => exact hs
    | notStored => exact hs
  | unwind hc ho => exact hs.congr rfl rfl
  | handle ht hb hm => exact hs.handle ht hb hm
  | finish ht hf => exact hs.set ht (.inr rfl)
  | logger hb =>
    cases Server.Step.of_step hb with
    | logger hj ha hd hl => exact hs.congr rfl rfl
  | _ => exact hs

end Pool

end Scriptor
