import Scriptor.Proofs.LoggerProofs

/-!
# The logger: the calls its sink receives

Whatever the sink throws and whenever it is destroyed, a logger calls its sink batch by batch: the
wanted elements of a batch one after the other, then `flush` if there were any; a failing `log` ends
the batch. After the last batch comes one more `flush`, and nothing after that
(`calls_batch_by_batch`).
-/

namespace Scriptor

/-- The calls of the sink for a batch that the worker is through with. -/
inductive BatchCalls (wanted : Element → Bool) (batch : List Element) : List SinkCall → Prop where
  /-- Nothing to log, and no flush. -/
  | nothing (h : batch.filter wanted = []) : BatchCalls wanted batch []
  | flushed (ok : Bool) (h : batch.filter wanted ≠ []) :
      BatchCalls wanted batch ((batch.filter wanted).map (SinkCall.log · true) ++ [.flush ok])
  /-- The call for `e` fails, so the elements after it are skipped, and the flush too. -/
  | failed (xs : List Element) (e : Element) (ys : List Element)
      (h : batch.filter wanted = xs ++ e :: ys) :
      BatchCalls wanted batch (xs.map (SinkCall.log · true) ++ [.log e false])

namespace Logger

variable {s t : Logger} {a : Action} {ls : List Action} {level : ℤ}

/-- The calls after those for the batches `through` that the worker is through with. -/
inductive LastCalls (s : Logger) (through : List (List Element)) : List SinkCall → Prop where
  | wait (hw : s.atWait = true) (hb : s.batches = through) : LastCalls s through []
  | batch (es xs batch : List Element) (hw : s.worker = .batch es xs.length)
      (hb : s.batches = through ++ [batch])
      (h : batch.filter s.shouldLog = xs ++ es.filter s.shouldLog) :
      LastCalls s through (xs.map (SinkCall.log · true))
  | ended (ok : Bool) (hw : s.worker = if ok then .returned else .terminated)
      (hb : s.batches = through) : LastCalls s through [.flush ok]

/-- The sink was called for one batch after the other. -/
def CallsInv (s : Logger) : Prop :=
  ∃ through blocks last, List.Forall₂ (BatchCalls s.shouldLog) through blocks ∧
    LastCalls s through last ∧ s.sink.calls = blocks.flatten ++ last

/-- At its wait the worker is through with all batches. -/
theorem CallsInv.of_wait (hs : CallsInv s) (hw : s.atWait = true) :
    ∃ blocks, List.Forall₂ (BatchCalls s.shouldLog) s.batches blocks ∧
      s.sink.calls = blocks.flatten := by
  obtain ⟨through, blocks, last, hblocks, hlast, hcalls⟩ := hs
  cases hlast with
  | wait _ hb => exact ⟨blocks, hb ▸ hblocks, by simpa using hcalls⟩
  | batch _ _ _ hb _ _ => simp [atWait, awake, hb] at hw
  | ended ok hb _ => cases ok <;> simp [atWait, awake, hb] at hw

/-- In a batch, it is through with the others. -/
theorem CallsInv.of_batch {es : List Element} {n : ℕ} (hs : CallsInv s)
    (hw : s.worker = .batch es n) :
    ∃ through batch blocks xs, List.Forall₂ (BatchCalls s.shouldLog) through blocks ∧
      xs.length = n ∧ s.batches = through ++ [batch] ∧
      batch.filter s.shouldLog = xs ++ es.filter s.shouldLog ∧
      s.sink.calls = blocks.flatten ++ xs.map (SinkCall.log · true) := by
  obtain ⟨through, blocks, last, hblocks, hlast, hcalls⟩ := hs
  cases hlast with
  | wait hwait _ => simp [atWait, awake, hw] at hwait
  | batch es' xs batch hw' hb h =>
    rw [hw] at hw'
    obtain ⟨rfl, hlen⟩ := Worker.batch.inj hw'
    exact ⟨through, batch, blocks, xs, hblocks, hlen.symm, hb, h, hcalls⟩
  | ended ok hw' _ => cases ok <;> simp [hw] at hw'

/-- The end of a batch: its calls are complete. -/
theorem CallsInv.endBatch {es : List Element} {n : ℕ} (hs : CallsInv s)
    (hw : s.worker = .batch es n) (hwait : t.atWait = true) (hbatches : t.batches = s.batches)
    (hwanted : t.shouldLog = s.shouldLog) (calls : List SinkCall)
    (hcalls : t.sink.calls = s.sink.calls ++ calls)
    (hdone : ∀ (batch xs : List Element), xs.length = n →
      batch.filter s.shouldLog = xs ++ es.filter s.shouldLog →
        BatchCalls s.shouldLog batch (xs.map (SinkCall.log · true) ++ calls)) : CallsInv t := by
  obtain ⟨through, batch, blocks, xs, hblocks, hlen, hb, h, hold⟩ := hs.of_batch hw
  refine ⟨through ++ [batch], blocks ++ [xs.map (SinkCall.log · true) ++ calls], [], ?_, ?_, ?_⟩
  · rw [hwanted]
    exact List.rel_append hblocks (.cons (hdone batch xs hlen h) .nil)
  · exact .wait hwait (hbatches.trans hb)
  · rw [hcalls, hold]
    simp

/-- A step that does not call the sink, at the wait before and after it. -/
theorem CallsInv.stay (hs : CallsInv s) (hw : s.atWait = true) (ht : t.atWait = true)
    (hbatches : t.batches = s.batches) (hsink : t.sink = s.sink) : CallsInv t := by
  obtain ⟨blocks, hblocks, hcalls⟩ := hs.of_wait hw
  have hwanted : t.shouldLog = s.shouldLog := by
    funext e
    simp only [shouldLog, hsink]
  refine ⟨s.batches, blocks, [], ?_, .wait ht hbatches, ?_⟩
  · rw [hwanted]
    exact hblocks
  · rw [hsink, hcalls, List.append_nil]

/-- The same worker, or one that is notified: pushes and the destructor do not call the sink. -/
theorem CallsInv.congr (hs : CallsInv s) (hbatches : t.batches = s.batches) (hsink : t.sink = s.sink)
    (hw : t.worker = s.worker ∨ s.worker = .asleep ∧ t.worker = .notified) : CallsInv t := by
  have hwanted : t.shouldLog = s.shouldLog := by
    funext e
    simp only [shouldLog, hsink]
  rcases hw with hw | ⟨hasleep, hnotified⟩
  · obtain ⟨through, blocks, last, hblocks, hlast, hcalls⟩ := hs
    refine ⟨through, blocks, last, hwanted ▸ hblocks, ?_, by rw [hsink]; exact hcalls⟩
    cases hlast with
    | wait h hb =>
      refine .wait ?_ (hbatches.trans hb)
      rw [atWait_iff] at h ⊢
      rw [hw]
      exact h
    | batch es xs batch h hb hfilter =>
      exact .batch es xs batch (hw.trans h) (hbatches.trans hb) (hwanted ▸ hfilter)
    | ended ok h hb => exact .ended ok (hw.trans h) (hbatches.trans hb)
  · exact hs.stay (atWait_iff.mpr (.inr (.inr hasleep))) (atWait_iff.mpr (.inr (.inl hnotified)))
      hbatches hsink

theorem notifyOne_worker (s : Logger) :
    s.notifyOne.worker = s.worker ∨ s.worker = .asleep ∧ s.notifyOne.worker = .notified := by
  by_cases hw : s.worker = .asleep
  · exact .inr ⟨hw, by simp [notifyOne, hw]⟩
  · exact .inl (by simp [notifyOne, hw])

theorem atWait_of_awake (hw : s.awake = true) : s.atWait = true := by
  rcases awake_iff.mp hw with hw | hw <;> simp [atWait, awake, hw]

theorem CallsInv.step (hs : CallsInv s) (h : lts.step s a = some t) : CallsInv t := by
  have hwanted : t.shouldLog = s.shouldLog := by
    funext e
    simp only [shouldLog, Sink.shouldLog, step_level h]
  cases Step.of_step h with
  | pushCopy es => exact hs.congr rfl rfl (notifyOne_worker _)
  | pushMove es => exact hs.congr rfl rfl (notifyOne_worker _)
  | sleep hw hd he =>
    exact hs.stay (atWait_of_awake hw) (atWait_iff.mpr (.inr (.inr rfl))) rfl rfl
  | wake hw =>
    exact hs.stay (atWait_iff.mpr (.inr (.inr hw))) (atWait_iff.mpr (.inr (.inl rfl))) rfl rfl
  | finish ok hw hd =>
    obtain ⟨blocks, hblocks, hcalls⟩ := hs.of_wait (atWait_of_awake hw)
    refine ⟨s.batches, blocks, [.flush ok], hblocks, .ended ok rfl rfl, ?_⟩
    show s.sink.calls ++ [.flush ok] = _
    rw [hcalls]
  | swap hw hd he =>
    obtain ⟨blocks, hblocks, hcalls⟩ := hs.of_wait (atWait_of_awake hw)
    refine ⟨s.batches, blocks, [], hblocks, ?_, by rw [List.append_nil]; exact hcalls⟩
    exact .batch s.mElements [] s.mElements rfl rfl rfl
  | @skip e es n hw hl =>
    obtain ⟨through, batch, blocks, xs, hblocks, rfl, hb, hfilter, hcalls⟩ := hs.of_batch hw
    refine ⟨through, blocks, _, hblocks, .batch es xs batch rfl hb ?_, hcalls⟩
    show batch.filter s.shouldLog = xs ++ es.filter s.shouldLog
    simpa [hl] using hfilter
  | @log ok e es n hw hl =>
    obtain ⟨through, batch, blocks, xs, hblocks, rfl, hb, hfilter, hcalls⟩ := hs.of_batch hw
    have hnext : batch.filter s.shouldLog = xs ++ e :: es.filter s.shouldLog := by
      simpa [hl] using hfilter
    cases ok with
    | true =>
      refine ⟨through, blocks, _, hblocks, .batch es (xs ++ [e]) batch ?_ hb ?_, ?_⟩
      · simp
      · rw [hwanted, hnext]
        simp
      · show s.sink.calls ++ [.log e true] = _
        rw [hcalls]
        simp
    | false =>
      refine hs.endBatch hw rfl rfl hwanted [.log e false] rfl ?_
      intro batch' xs' hlen hfilter'
      exact .failed xs' e (es.filter s.shouldLog) (by simpa [hl] using hfilter')
  | @flush ok n hw =>
    refine hs.endBatch hw rfl rfl hwanted [.flush ok] rfl ?_
    intro batch xs hlen hfilter
    have hall : batch.filter s.shouldLog = xs := by simpa using hfilter
    have hne : batch.filter s.shouldLog ≠ [] := by
      rw [hall]
      exact List.ne_nil_of_length_eq_add_one hlen
    have hflushed := BatchCalls.flushed ok hne
    rw [hall] at hflushed
    exact hflushed
  | endBatch hw =>
    refine hs.endBatch hw rfl rfl hwanted [] (List.append_nil _).symm ?_
    intro batch xs hlen hfilter
    obtain rfl := List.length_eq_zero_iff.mp hlen
    exact .nothing (by simpa using hfilter)
  | setDone hd => exact hs.congr rfl rfl (.inl rfl)
  | notifyDone hd => exact hs.congr rfl rfl (notifyOne_worker s)
  | join hd hw => exact hs.congr rfl rfl (.inl rfl)

/-- In every run, with a sink that may fail in any of its calls: the calls of the sink are, for one
batch after the other, those of a batch that is through, then those for the first part of the batch
in progress, or the one flush with which the worker ends. -/
theorem calls_batch_by_batch (h : lts.run (init level) ls = some s) :
    ∃ through blocks last, List.Forall₂ (BatchCalls (init level).shouldLog) through blocks ∧
      LastCalls s through last ∧ s.sink.calls = blocks.flatten ++ last := by
  have hinit : CallsInv (init level) := ⟨[], [], [], .nil, .wait rfl rfl, rfl⟩
  obtain ⟨through, blocks, last, hblocks, hlast, hcalls⟩ :=
    Lts.run_preserves (fun _ _ _ hs ha => hs.step ha) hinit h
  rw [run_shouldLog h] at hblocks
  exact ⟨through, blocks, last, hblocks, hlast, hcalls⟩

/-- A batch of two elements in which the first call fails, and then the end of the logger. -/
theorem calls_batch_by_batch_failing :
    ∃ s : Logger,
      lts.run (init 0) [.pushCopy [infoElement "a", infoElement "b"], .swap, .log false, .setDone,
        .finish true] = some s ∧
      ∃ through blocks last, List.Forall₂ (BatchCalls (init 0).shouldLog) through blocks ∧
        LastCalls s through last ∧
        [.log (infoElement "a") false, .flush true] = blocks.flatten ++ last := by
  refine ⟨_, rfl, ?_⟩
  exact @calls_batch_by_batch _ [.pushCopy [infoElement "a", infoElement "b"], .swap, .log false,
    .setDone, .finish true] 0 rfl

end Logger

end Scriptor
