import Scriptor.Proofs.SettleProofs
import Scriptor.Proofs.ShutdownProofs

/-!
# The server: what its sinks have logged

The parts of the server put together, from the bytes on the sockets to the calls of the sinks: in
every state, before, during and after the shutdown, a sink has logged a first part of what was pushed
to its logger, and that consists of first parts of what the sessions' streams decode to
(`sinks_follow_streams`).
-/

namespace Scriptor

namespace Server

variable {P : Platform} {s : Server} {ls : List Action} {acceptors : List AcceptorKind}
  {levels : List ℤ} {j : ℕ} {node : LoggerNode}

/-- A first part of the elements, with the sessions they come from. -/
theorem exists_tagged {pushed : List (ℕ × Element)} {es : List Element}
    (h : es <+: pushed.map Prod.snd) :
    ∃ tagged, tagged <+: pushed ∧ tagged.map Prod.snd = es := by
  refine ⟨pushed.take es.length, List.take_prefix _ _, ?_⟩
  rw [List.map_take, ← List.prefix_iff_eq_take.mp h]

/-- In every reachable state of a server whose sinks do not throw, for the sink of every logger: its
level is the one of its option, and what it has logged is what it wants of a first part of what was
pushed; of every session that is a first part of what the bytes received so far decode to. When its
logger is destroyed, that part ends with the last batch taken, and nothing is left to flush. -/
theorem sinks_follow_streams (h : (quiet P).run (init acceptors levels) ls = some s)
    (hj : s.mLoggers[j]? = some node) :
    levels[j]? = some node.logger.sink.level ∧
      ∃ handled, handled <+: node.pushed ∧
        node.logger.sink.logged = (handled.map Prod.snd).filter node.logger.shouldLog ∧
        (∀ k session, s.sessions[k]? = some session → ∀ clock : Clock,
          (FanOut.ofSource k handled).map Element.forgetClock <+:
            (({} : Processor).call P session.received clock).elements.map Element.forgetClock) ∧
        (node.logger.destructor = .returned →
          handled.map Prod.snd = node.logger.batches.flatten ∧
            node.logger.sink.unflushed = []) := by
  have hlts := Lts.run_of_restrict h
  have hnode := List.mem_of_getElem? hj
  obtain ⟨level, bs, hlevel, hbs⟩ := exists_quiet_run h hj
  have hinv := Logger.SinkInv.run hbs
  have htaken := Logger.taken_of_quiet hbs
  have hfirst : node.logger.handled <+: node.pushed.map Prod.snd := by
    rw [run_queueInv hlts node hnode, ← htaken, List.append_assoc]
    exact List.prefix_append _ _
  obtain ⟨handled, hprefix, hhandled⟩ := exists_tagged hfirst
  refine ⟨by rw [hlevel, Logger.run_level (Lts.run_of_restrict hbs)], handled, hprefix, ?_, ?_, ?_⟩
  · rw [hhandled, hinv.logged]
  · intro k session hk clock
    have hstream := run_streamInv hlts session (List.mem_of_getElem? hk)
    have hpushed := pushedBy_isPrefix (run_fanOutInv hlts) hnode hk
    rw [← hstream.returned_eq_call clock]
    exact ((FanOut.ofSource_isPrefix hprefix k).trans hpushed).map Element.forgetClock
  · intro hd
    have hworker := Logger.worker_returned (Lts.run_of_restrict hbs) hd
    have hheld : node.logger.held = [] := by rw [Logger.held, hworker]
    have hcount := hinv.unflushed
    rw [Logger.count, hworker] at hcount
    rw [hheld, List.append_nil] at htaken
    exact ⟨hhandled.trans htaken, List.length_eq_zero_iff.mp hcount⟩

/-- One log of one session, taken by the worker before the server is destroyed. -/
theorem sinks_follow_streams_one :
    ∃ s node, (quiet referencePlatform).run (init [.unix] [0])
        [.accepted 0 true, .readDone 0 (ascii "\x7b\x7d") (fun _ => 0), .push 0, .read 0,
          .logger 0 .swap, .logger 0 (.log true), .logger 0 (.flush true)] = some s ∧
      s.mLoggers[0]? = some node ∧ node.logger.sink.logged.length = 1 ∧
      ∃ handled, handled <+: node.pushed ∧
        node.logger.sink.logged = (handled.map Prod.snd).filter node.logger.shouldLog := by
  have hrun : ((quiet referencePlatform).run (init [.unix] [0])
      [.accepted 0 true, .readDone 0 (ascii "\x7b\x7d") (fun _ => 0), .push 0, .read 0,
        .logger 0 .swap, .logger 0 (.log true), .logger 0 (.flush true)]).map
          (fun s => s.mLoggers.map fun node => node.logger.sink.logged.length) = some [1] := by
    decide +kernel
  obtain ⟨s, hs, hout⟩ := Option.map_eq_some_iff.mp hrun
  obtain ⟨node, hl, hone⟩ := List.map_eq_singleton_iff.mp hout
  have hj : s.mLoggers[0]? = some node := by rw [hl]; rfl
  obtain ⟨-, handled, hprefix, hlogged, -, -⟩ := sinks_follow_streams hs hj
  exact ⟨s, node, hs, hj, hone, handled, hprefix, hlogged⟩

end Server

end Scriptor
