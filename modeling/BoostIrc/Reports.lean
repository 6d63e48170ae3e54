import BoostIrc.SendQueue
import Mathlib.Data.List.Induction

/-!
# Which Sends Are Reported

Every `send` may come with a callback. The send queue calls it when the frame has been written,
or when one of its two writes has failed; in the second case it also clears the queue, and with
it the frames that wait behind the failing one, whose callbacks are never called.

Here the runs of `BoostIrc.SendQueue` are followed through failures. A frame has been written
when the write of its payload, which follows that of its header, has completed; `wholeFrames`
collects these from the steps of a run, by the place of the frame in the order of posting.

## Main results

* `Phase`, `Tracked`: the invariant, with the fate of every frame so far (`Fate`).
* `Tracked.step`: what one step makes of it.
* `reported_iff`: **when every send is reported**.
-/

open Transition

namespace BoostIrc

namespace Connection

/-- The place of the first element of the queue, in the order of posting. -/
def current (c : Connection) : ℕ :=
  c.sent.length - c.posted.length - c.sendQueue.length

/-- The frame, by its place, that a step completes: the write of a payload ends well. -/
def wholeFrame (c : Connection) : Event → List ℕ
  | .complete i =>
      match c.writes[i]? with
      | some ⟨.message, []⟩ => [c.current]
      | _ => []
  | _ => []

/-- The frames that have been written completely in a run. -/
def wholeFrames (es : List Event) : List ℕ :=
  observe step wholeFrame {} es

/-- **Every send is reported**: the callbacks have been called once each, in the order in which
the sends were posted, and with success exactly if the whole frame was written. -/
def Reported (es : List Event) (c : Connection) : Prop :=
  c.called.map (fun x => (some x.1, x.2)) =
    c.sent.zipIdx.map fun x => (x.1.callback, decide (x.2 ∈ wholeFrames es))

instance decidableReported (es : List Event) (c : Connection) : Decidable (Reported es c) :=
  inferInstanceAs (Decidable (_ = _))

/-- A step handles a failure **alone** if the queue holds no frame behind the failing one. -/
def Alone (c : Connection) : Event → Prop
  | .runTask i => ∀ t ∈ c.tasks[i]?, ∀ stage, t = .written stage false → c.sendQueue.length ≤ 1
  | _ => True

/-! ### The fate of a frame -/

/-- What has become of a frame that left the queue: whether its callback was called, and with
which result; and the part of the frame that was written. -/
structure Fate where
  data : SendData
  result : Option Bool
  part : Bytes

/-- The callback that was called, if one was. -/
def Fate.called (x : Fate) : Option (ℕ × Bool) :=
  x.result.bind fun ok => x.data.callback.map fun f => (f, ok)

/-- The places of the frames that were written completely. -/
def wholes (done : List Fate) : List ℕ :=
  (done.zipIdx.filter fun x => x.1.result = some true).map Prod.snd

/-- No frame was dropped. -/
def NoneDropped (done : List Fate) : Prop :=
  ∀ x ∈ done, x.result ≠ none

/-- One more frame whose fate is known is counted among the whole ones if it has been written. -/
theorem wholes_concat (done : List Fate) (x : Fate) :
    wholes (done ++ [x]) =
      wholes done ++ if x.result = some true then [done.length] else [] := by
  rw [wholes, List.zipIdx_append, List.filter_append, List.map_append, wholes]
  by_cases h : x.result = some true <;> simp [h]

/-- The frames dropped with the queue have not been written. -/
theorem wholes_append_dropped (done : List Fate) (queue : List SendData) :
    wholes (done ++ queue.map fun d => ⟨d, none, []⟩) = wholes done := by
  induction queue using List.reverseRecOn with
  | nil => simp
  | append_singleton queue d ih =>
      rw [List.map_append, List.map_singleton, ← List.append_assoc, wholes_concat, ih]
      simp

/-- The frames that are whole are those that have been written, and not those that failed or were
dropped. -/
theorem mem_wholes_iff (done : List Fate) (k : ℕ) :
    k ∈ wholes done ↔ ∃ x, done[k]? = some x ∧ x.result = some true := by
  rw [wholes, List.mem_map]
  constructor
  · rintro ⟨⟨x, k'⟩, hx, rfl⟩
    obtain ⟨hmem, hresult⟩ := List.mem_filter.mp hx
    exact ⟨x, List.mem_zipIdx_iff_getElem?.mp hmem, by simpa using hresult⟩
  · rintro ⟨x, hx, hresult⟩
    refine ⟨(x, k), List.mem_filter.mpr ⟨List.mem_zipIdx_iff_getElem?.mpr hx, ?_⟩, rfl⟩
    simpa using hresult

/-- None is dropped of two lists of fates if none is dropped of either. -/
theorem noneDropped_append (done fates : List Fate) :
    NoneDropped (done ++ fates) ↔ NoneDropped done ∧ NoneDropped fates := by
  simp [NoneDropped, or_imp, forall_and]

/-! ### The invariant -/

/-- **The phases of a chain**, with its failures: its tasks, its writes, the part of the frame
that is on the wire, and whether that is the whole frame, successfully written. -/
inductive Phase (d : SendData) : List Task → List Write → Bytes → Bool → Prop
  | start : Phase d [.sendFromQueue] [] [] false
  | header {p r : Bytes} (h : p ++ r = d.headerStream) : Phase d [] [⟨.header, r⟩] p false
  | headerDone : Phase d [.written .header true] [] d.headerStream false
  | headerFailed {p r : Bytes} (h : p ++ r = d.headerStream) :
      Phase d [.written .header false] [] p false
  | message {p r : Bytes} (h : p ++ r = d.messageStream) :
      Phase d [] [⟨.message, r⟩] (d.headerStream ++ p) false
  | messageDone : Phase d [.written .message true] [] d.frame true
  | messageFailed {p r : Bytes} (h : p ++ r = d.messageStream) :
      Phase d [.written .message false] [] (d.headerStream ++ p) false

/-- A write of a stage is under way, and nothing has been reported. -/
theorem Phase.of_stage {d : SendData} (stage : Stage) {p r : Bytes}
    (h : p ++ r = d.stageBytes stage) :
    Phase d [] [⟨stage, r⟩] (d.bytesBefore stage ++ p) false := by
  cases stage with
  | header => exact .header h
  | message => exact .message h

/-- A write of a stage has failed, and its handler has yet to run. -/
theorem Phase.of_failed {d : SendData} (stage : Stage) {p r : Bytes}
    (h : p ++ r = d.stageBytes stage) :
    Phase d [.written stage false] [] (d.bytesBefore stage ++ p) false := by
  cases stage with
  | header => exact .headerFailed h
  | message => exact .messageFailed h

/-- **The invariant**, for the fates `done` of the frames that have left the queue and the
places `whole` of the frames written completely. -/
inductive Tracked (c : Connection) (done : List Fate) (whole : List ℕ) : Prop
  | idle (hsent : c.sent = done.map Fate.data ++ c.posted) (hqueue : c.sendQueue = [])
      (htasks : c.tasks = []) (hwrites : c.writes = [])
      (hwire : c.wire = done.flatMap Fate.part) (hcalled : c.called = done.filterMap Fate.called)
      (hwhole : whole = wholes done)
  | busy (d : SendData) (queue : List SendData) (part : Bytes) (ok : Bool)
      (hsent : c.sent = done.map Fate.data ++ d :: queue ++ c.posted)
      (hqueue : c.sendQueue = d :: queue) (hphase : Phase d c.tasks c.writes part ok)
      (hwire : c.wire = done.flatMap Fate.part ++ part)
      (hcalled : c.called = done.filterMap Fate.called)
      (hwhole : whole = wholes done ++ if ok then [done.length] else [])

/-- At the start there is no frame whose fate is known. -/
theorem tracked_init : Tracked {} [] [] :=
  .idle rfl rfl rfl rfl rfl rfl rfl

/-- A send is posted: its fate is not known yet, and that of the others stays what it is. -/
theorem Tracked.send {c : Connection} {done : List Fate} {whole : List ℕ}
    (h : Tracked c done whole) (d : SendData) :
    Tracked { c with sent := c.sent ++ [d], posted := c.posted ++ [d] } done whole := by
  cases h with
  | idle hsent hqueue htasks hwrites hwire hcalled hwhole =>
      refine .idle ?_ hqueue htasks hwrites hwire hcalled hwhole
      simp only [hsent, List.append_assoc]
  | busy e queue part ok hsent hqueue hphase hwire hcalled hwhole =>
      refine .busy e queue part ok ?_ hqueue hphase hwire hcalled hwhole
      simp only [hsent, List.append_assoc]

/-- A send comes to the queue, which changes the fate of none. -/
theorem Tracked.runPosted {c : Connection} {done : List Fate} {whole : List ℕ}
    (h : Tracked c done whole) {d : SendData} {ds : List SendData}
    (hposted : c.posted = d :: ds) : Tracked ({ c with posted := ds }.enqueue d) done whole := by
  cases h with
  | idle hsent hqueue htasks hwrites hwire hcalled hwhole =>
      have hstart : { c with posted := ds }.enqueue d =
          { c with posted := ds, sendQueue := [d], tasks := [.sendFromQueue] } := by
        simp [enqueue, sendFromQueue, hqueue, htasks]
      rw [hstart]
      refine .busy d [] [] false ?_ rfl ?_ ?_ hcalled ?_
      · simp only [hsent, hposted, List.append_assoc, List.singleton_append]
      · simp only [hwrites]
        exact .start
      · simp only [hwire, List.append_nil]
      · simpa using hwhole
  | busy e queue part ok hsent hqueue hphase hwire hcalled hwhole =>
      have hwait : { c with posted := ds }.enqueue d =
          { c with posted := ds, sendQueue := e :: (queue ++ [d]) } := by
        simp [enqueue, hqueue]
      rw [hwait]
      refine .busy e (queue ++ [d]) part ok ?_ rfl hphase hwire hcalled hwhole
      simp only [hsent, hposted, List.append_assoc, List.cons_append, List.nil_append]

/-- A task runs with no other send in the queue: this says something only of the handler of a write
that has failed. -/
theorem alone_runTask_iff {c : Connection} {i : ℕ} {t : Task} (ht : c.tasks[i]? = some t) :
    c.Alone (.runTask i) ↔ ∀ stage, t = .written stage false → c.sendQueue.length ≤ 1 := by
  simp [Alone, ht]

/-- The frames that left the queue, after the first of it was reported as failed: it and, without
a report, all the others. -/
def failed (done : List Fate) (d : SendData) (queue : List SendData) (part : Bytes) :
    List Fate :=
  (done ++ [⟨d, some false, part⟩]) ++ queue.map fun e => ⟨e, none, []⟩

/-- When a write fails, the sends behind it in the queue are dropped, so that none is dropped
exactly if there are none. -/
theorem noneDropped_failed (done : List Fate) (d : SendData) (queue : List SendData)
    (part : Bytes) : NoneDropped (failed done d queue part) ↔ NoneDropped done ∧ queue = [] := by
  rw [failed, noneDropped_append, noneDropped_append]
  cases queue <;> simp [NoneDropped]

/-- A failure is handled: the callback is called and the queue cleared. -/
theorem tracked_failed {c : Connection} {done : List Fate} {d : SendData}
    {queue : List SendData} {part : Bytes}
    (hsent : c.sent = done.map Fate.data ++ d :: queue ++ c.posted) (htasks : c.tasks = [])
    (hwrites : c.writes = []) (hwire : c.wire = done.flatMap Fate.part ++ part)
    (hcalled : c.called = done.filterMap Fate.called) :
    Tracked { c.notify d false with sendQueue := [] } (failed done d queue part)
      (wholes done) := by
  refine .idle ?_ rfl htasks hwrites ?_ ?_ ?_
  · simp [notify, failed, hsent, Function.comp_def]
  · simp [notify, failed, hwire, List.flatMap_map]
  · cases hcallback : d.callback <;>
      simp [notify, failed, hcalled, Fate.called, hcallback, List.filterMap_map,
        Function.comp_def]
  · rw [failed, wholes_append_dropped, wholes_concat]
    simp

/-- The frames that left the queue, after the first of it was written and reported. -/
def written (done : List Fate) (d : SendData) : List Fate :=
  done ++ [⟨d, some true, d.frame⟩]

/-- A frame that is written drops none. -/
theorem noneDropped_written (done : List Fate) (d : SendData) :
    NoneDropped (written done d) ↔ NoneDropped done := by
  rw [written, noneDropped_append]
  simp [NoneDropped]

/-- A frame that is written is one more that is whole. -/
theorem wholes_written (done : List Fate) (d : SendData) :
    wholes (written done d) = wholes done ++ [done.length] :=
  wholes_concat done _

/-- A frame has been written: its callback is called, and the next one has its turn. -/
theorem tracked_written {c : Connection} {done : List Fate} {d : SendData}
    {queue : List SendData} (hsent : c.sent = done.map Fate.data ++ d :: queue ++ c.posted)
    (hqueue : c.sendQueue = d :: queue) (htasks : c.tasks = []) (hwrites : c.writes = [])
    (hwire : c.wire = done.flatMap Fate.part ++ d.frame)
    (hcalled : c.called = done.filterMap Fate.called) :
    Tracked (c.runTask (.written .message true)) (written done d) (wholes (written done d)) := by
  obtain ⟨sent, posted, sendQueue, tasks, writes, wire, called, undefined⟩ := c
  simp only at hsent hqueue htasks hwrites hwire hcalled
  subst hqueue htasks hwrites
  have hcalled' : called ++ (d.callback.map fun f => (f, true)).toList =
      (written done d).filterMap Fate.called := by
    cases hcallback : d.callback <;> simp [written, hcalled, Fate.called, hcallback]
  have hwire' : wire = (written done d).flatMap Fate.part := by
    rw [hwire, written, List.flatMap_append, List.flatMap_singleton]
  cases queue with
  | nil =>
      refine .idle ?_ rfl rfl rfl hwire' hcalled' rfl
      simpa [Connection.runTask, withBegin, notify, written] using hsent
  | cons e queue =>
      refine .busy e queue [] false ?_ rfl .start ?_ hcalled' (by simp)
      · simpa [Connection.runTask, withBegin, notify, sendFromQueue, written] using hsent
      · rw [List.append_nil]
        exact hwire'

/-- A strand task advances the chain, or ends it. -/
theorem Tracked.runTask {c : Connection} {done : List Fate} {whole : List ℕ}
    (h : Tracked c done whole) {i : ℕ} {t : Task} (ht : c.tasks[i]? = some t) :
    ∃ done', Tracked ({ c with tasks := c.tasks.eraseIdx i }.runTask t) done' whole ∧
      (NoneDropped done' ↔ NoneDropped done ∧ c.Alone (.runTask i)) := by
  rw [alone_runTask_iff ht]
  cases h with
  | idle hsent hqueue htasks hwrites hwire hcalled hwhole =>
      rw [htasks] at ht
      exact absurd ht (by simp)
  | busy d queue part ok hsent hqueue hphase hwire hcalled hwhole =>
      obtain ⟨sent, posted, sendQueue, tasks, writes, wire, called, undefined⟩ := c
      simp only at hsent hqueue hphase hwire hcalled ht ⊢
      subst hqueue
      cases hphase with
      | header hp => exact absurd ht (by simp)
      | message hp => exact absurd ht (by simp)
      | start =>
          obtain ⟨rfl, rfl⟩ := eq_of_getElem?_singleton ht
          exact ⟨done, .busy d queue [] false hsent rfl (.header (List.nil_append _)) hwire hcalled
            hwhole, by simp⟩
      | headerDone =>
          obtain ⟨rfl, rfl⟩ := eq_of_getElem?_singleton ht
          refine ⟨done, .busy d queue (d.headerStream ++ []) false hsent rfl
            (.message (List.nil_append _)) ?_ hcalled hwhole, by simp⟩
          rw [List.append_nil]
          exact hwire
      | messageDone =>
          obtain ⟨rfl, rfl⟩ := eq_of_getElem?_singleton ht
          refine ⟨written done d, ?_, by simp [noneDropped_written]⟩
          obtain rfl : whole = wholes (written done d) := hwhole.trans (wholes_written done d).symm
          exact tracked_written (c := ⟨sent, posted, d :: queue, [], [], wire, called, undefined⟩)
            hsent rfl rfl rfl hwire hcalled
      | headerFailed hp =>
          obtain ⟨rfl, rfl⟩ := eq_of_getElem?_singleton ht
          obtain rfl : whole = wholes done := by simpa using hwhole
          refine ⟨failed done d queue part, ?_, by simp [noneDropped_failed]⟩
          exact tracked_failed (c := ⟨sent, posted, d :: queue, [], [], wire, called, undefined⟩)
            hsent rfl rfl hwire hcalled
      | @messageFailed p r hp =>
          obtain ⟨rfl, rfl⟩ := eq_of_getElem?_singleton ht
          obtain rfl : whole = wholes done := by simpa using hwhole
          refine ⟨failed done d queue (d.headerStream ++ p), ?_, by simp [noneDropped_failed]⟩
          exact tracked_failed (c := ⟨sent, posted, d :: queue, [], [], wire, called, undefined⟩)
            hsent rfl rfl hwire hcalled

/-- With a write under way there is a chain, which has come to the stage of the write. -/
theorem Phase.of_write {d : SendData} {tasks : List Task} {writes : List Write} {part : Bytes}
    {ok : Bool} (h : Phase d tasks writes part ok) {i : ℕ} {w : Write}
    (hw : writes[i]? = some w) :
    i = 0 ∧ tasks = [] ∧ writes = [w] ∧ ok = false ∧
      ∃ p, p ++ w.remaining = d.stageBytes w.stage ∧ part = d.bytesBefore w.stage ++ p := by
  cases h with
  | start | headerDone | headerFailed | messageDone | messageFailed =>
      exact absurd hw (by simp)
  | @header p r hp =>
      obtain ⟨rfl, rfl⟩ := eq_of_getElem?_singleton hw
      exact ⟨rfl, rfl, rfl, rfl, _, hp, rfl⟩
  | @message p r hp =>
      obtain ⟨rfl, rfl⟩ := eq_of_getElem?_singleton hw
      exact ⟨rfl, rfl, rfl, rfl, p, hp, rfl⟩

/-- Where a write is under way, it is the only operation, and it writes a stage of the frame at the
head of the queue, the first whose fate is not known. -/
theorem Tracked.of_write {c : Connection} {done : List Fate} {whole : List ℕ}
    (h : Tracked c done whole) {i : ℕ} {w : Write} (hw : c.writes[i]? = some w) :
    ∃ d queue p, c.sent = done.map Fate.data ++ d :: queue ++ c.posted ∧
      c.sendQueue = d :: queue ∧ i = 0 ∧ c.tasks = [] ∧ c.writes = [w] ∧
        p ++ w.remaining = d.stageBytes w.stage ∧
          c.wire = done.flatMap Fate.part ++ (d.bytesBefore w.stage ++ p) ∧
            c.called = done.filterMap Fate.called ∧ whole = wholes done := by
  cases h with
  | idle hsent hqueue htasks hwrites hwire hcalled hwhole =>
      rw [hwrites] at hw
      exact absurd hw (by simp)
  | busy d queue part ok hsent hqueue hphase hwire hcalled hwhole =>
      obtain ⟨hi, htasks, hwrites, rfl, p, hp, rfl⟩ := hphase.of_write hw
      exact ⟨d, queue, p, hsent, hqueue, hi, htasks, hwrites, hp, hwire, hcalled,
        by simpa using hwhole⟩

/-- Some bytes of the write under way reach the wire. -/
theorem Tracked.transfer {c : Connection} {done : List Fate} {whole : List ℕ}
    (h : Tracked c done whole) {i : ℕ} (n : ℕ) {w : Write} (hw : c.writes[i]? = some w) :
    Tracked
      { c with
        writes := c.writes.set i { w with remaining := w.remaining.drop n }
        wire := c.wire ++ w.remaining.take n } done whole := by
  obtain ⟨d, queue, p, hsent, hqueue, rfl, htasks, hwrites, hp, hwire, hcalled, hwhole⟩ :=
    h.of_write hw
  refine .busy d queue (d.bytesBefore w.stage ++ (p ++ w.remaining.take n)) false hsent hqueue ?_
    ?_ hcalled (by simpa using hwhole)
  · simp only [htasks, hwrites, List.set_cons_zero]
    refine .of_stage w.stage ?_
    rw [List.append_assoc, List.take_append_drop, hp]
  · simp only [hwire, List.append_assoc]

/-- The place of the first element of the queue is the number of those that left it. -/
theorem current_eq {c : Connection} {done : List Fate} {queue : List SendData}
    (hsent : c.sent = done.map Fate.data ++ queue ++ c.posted) (hqueue : c.sendQueue = queue) :
    c.current = done.length := by
  rw [current, hsent, hqueue, List.length_append, List.length_append, List.length_map]
  omega

/-- The write under way completes: the handler is the next task, and nothing has been reported
yet. -/
theorem Tracked.complete {c : Connection} {done : List Fate} {whole : List ℕ}
    (h : Tracked c done whole) {i : ℕ} {w : Write} (hw : c.writes[i]? = some w)
    (hrem : w.remaining = []) :
    Tracked
      { c with
        writes := c.writes.eraseIdx i
        tasks := c.tasks ++ [.written w.stage true] }
      done (whole ++ c.wholeFrame (.complete i)) := by
  obtain ⟨d, queue, p, hsent, hqueue, rfl, htasks, hwrites, hp, hwire, hcalled, hwhole⟩ :=
    h.of_write hw
  have hcurrent := current_eq hsent hqueue
  rw [hrem, List.append_nil] at hp
  obtain ⟨stage, remaining⟩ := w
  obtain rfl : remaining = [] := hrem
  cases stage with
  | header =>
      refine .busy d queue d.headerStream false hsent hqueue ?_ ?_ hcalled ?_
      · simp only [htasks, hwrites]
        exact .headerDone
      · rw [hwire, hp]
        rfl
      · simp [wholeFrame, hwrites, hwhole]
  | message =>
      refine .busy d queue d.frame true hsent hqueue ?_ ?_ hcalled ?_
      · simp only [htasks, hwrites]
        exact .messageDone
      · rw [hwire, hp]
        rfl
      · simp [wholeFrame, hwrites, hwhole, hcurrent]

/-- The write under way fails: the handler will report the error, and clear the queue. -/
theorem Tracked.fail {c : Connection} {done : List Fate} {whole : List ℕ}
    (h : Tracked c done whole) {i : ℕ} {w : Write} (hw : c.writes[i]? = some w) :
    Tracked
      { c with
        writes := c.writes.eraseIdx i
        tasks := c.tasks ++ [.written w.stage false] } done whole := by
  obtain ⟨d, queue, p, hsent, hqueue, rfl, htasks, hwrites, hp, hwire, hcalled, hwhole⟩ :=
    h.of_write hw
  refine .busy d queue _ false hsent hqueue ?_ hwire hcalled (by simpa using hwhole)
  simp only [htasks, hwrites, List.eraseIdx_cons_zero, List.nil_append]
  exact .of_failed w.stage hp

/-- **One step**: the frames that have left the queue stay what they are, and one is dropped
exactly if a failure is not handled alone. -/
theorem Tracked.step {c c' : Connection} {done : List Fate} {whole : List ℕ}
    (h : Tracked c done whole) {e : Event} (hstep : Connection.step c e = some c') :
    ∃ done', Tracked c' done' (whole ++ c.wholeFrame e) ∧
      (NoneDropped done' ↔ NoneDropped done ∧ c.Alone e) := by
  cases e with
  | send d =>
      obtain rfl := Option.some.inj hstep
      exact ⟨done, by simpa [wholeFrame] using h.send d, by simp [Alone]⟩
  | runPosted =>
      obtain ⟨d, ds, hposted, rfl⟩ := eq_of_step_runPosted hstep
      exact ⟨done, by simpa [wholeFrame] using h.runPosted hposted, by simp [Alone]⟩
  | runTask i =>
      obtain ⟨t, ht, rfl⟩ := eq_of_step_runTask hstep
      simpa [wholeFrame] using h.runTask ht
  | transfer i n =>
      obtain ⟨w, hw, -, rfl⟩ := eq_of_step_transfer hstep
      exact ⟨done, by simpa [wholeFrame] using h.transfer n hw, by simp [Alone]⟩
  | complete i =>
      obtain ⟨w, hw, hrem, rfl⟩ := eq_of_step_complete hstep
      exact ⟨done, h.complete hw hrem, by simp [Alone]⟩
  | fail i =>
      obtain ⟨w, hw, rfl⟩ := eq_of_step_fail hstep
      exact ⟨done, by simpa [wholeFrame] using h.fail hw, by simp [Alone]⟩

/-- **What has become of the frames after any run.** Each has been written, or has failed, or was
dropped when another failed; and none has been dropped exactly if every failure hit a frame that was
alone in the queue. -/
theorem tracked_run {es : List Event} {c : Connection} (hrun : run step {} es = some c) :
    ∃ done, Tracked c done (wholeFrames es) ∧ (NoneDropped done ↔ Along step Alone {} es) := by
  have hstep : ∀ c whole (P : Prop) e c',
      (∃ done, Tracked c done whole ∧ (NoneDropped done ↔ P)) → step c e = some c' →
        ∃ done, Tracked c' done (whole ++ c.wholeFrame e) ∧ (NoneDropped done ↔ P ∧ c.Alone e) := by
    rintro c whole P e c' ⟨done, h, hP⟩ hstep
    obtain ⟨done', h', hiff⟩ := h.step hstep
    exact ⟨done', h', by rw [hiff, hP]⟩
  have hinit : ∃ done, Tracked {} done [] ∧ (NoneDropped done ↔ True) :=
    ⟨[], tracked_init, by simp [NoneDropped]⟩
  have hinv := run_invariant_iff (O := wholeFrame) hstep hinit hrun
  simpa only [List.nil_append, true_and, wholeFrames] using hinv

/-! ### What the invariant says -/

/-- While a frame is sent there is one operation: either a task of the strand or a write. -/
theorem Phase.tasks_add_writes {d : SendData} {tasks : List Task} {writes : List Write}
    {part : Bytes} {ok : Bool} (h : Phase d tasks writes part ok) :
    tasks.length + writes.length = 1 := by
  cases h <;> rfl

/-- When nothing is left to do, every send has its fate. -/
theorem Tracked.of_quiescent {c : Connection} {done : List Fate} {whole : List ℕ}
    (h : Tracked c done whole) (hq : c.Quiescent) :
    c.sent = done.map Fate.data ∧ c.wire = done.flatMap Fate.part ∧
      c.called = done.filterMap Fate.called ∧ whole = wholes done := by
  cases h with
  | idle hsent hqueue htasks hwrites hwire hcalled hwhole =>
      rw [hq.posted, List.append_nil] at hsent
      exact ⟨hsent, hwire, hcalled, hwhole⟩
  | busy d queue part ok hsent hqueue hphase hwire hcalled hwhole =>
      have hone := hphase.tasks_add_writes
      rw [hq.tasks, hq.writes] at hone
      exact absurd hone (by simp)

/-- What the callbacks were called with, if all were. -/
theorem map_called_eq {done : List Fate} (hcallback : ∀ x ∈ done, x.data.callback.isSome)
    (hnone : NoneDropped done) :
    (done.filterMap Fate.called).map (fun x => (some x.1, x.2)) =
      done.map fun x => (x.data.callback, decide (x.result = some true)) := by
  induction done with
  | nil => rfl
  | cons x done ih =>
      obtain ⟨f, hf⟩ := Option.isSome_iff_exists.mp (hcallback x List.mem_cons_self)
      obtain ⟨ok, hok⟩ := Option.ne_none_iff_exists'.mp (hnone x List.mem_cons_self)
      have hx : x.called = some (f, ok) := by simp [Fate.called, hf, hok]
      rw [List.filterMap_cons_some hx, List.map_cons, List.map_cons,
        ih (fun y hy => hcallback y (List.mem_cons_of_mem x hy))
          (fun y hy => hnone y (List.mem_cons_of_mem x hy)), hf, hok]
      cases ok <;> rfl

/-- The places of the frames written are those with a good result. -/
theorem map_zipIdx_eq (done : List Fate) :
    ((done.map Fate.data).zipIdx.map fun x => (x.1.callback, decide (x.2 ∈ wholes done))) =
      done.map fun x => (x.data.callback, decide (x.result = some true)) := by
  refine List.ext_getElem? fun k => ?_
  rw [List.getElem?_map, List.getElem?_map, List.getElem?_zipIdx, List.getElem?_map]
  cases hk : done[k]? with
  | none => rfl
  | some x =>
      have hmem : k ∈ wholes done ↔ x.result = some true := by
        rw [mem_wholes_iff, hk]
        simp
      simp [hmem]

/-- If as many callbacks were called as there were sends, none was dropped. -/
theorem noneDropped_of_length {done : List Fate}
    (h : (done.filterMap Fate.called).length = done.length) : NoneDropped done := by
  intro x hx hnone
  have hsome := List.filterMap_length_eq_length.mp h x hx
  rw [Fate.called, hnone] at hsome
  exact absurd hsome (by simp)

/-- **When every send is reported**: in the runs in which every failure is handled while no frame
waits behind the failing one. -/
theorem reported_iff {es : List Event} {c : Connection} (hrun : run step {} es = some c)
    (hcallback : ∀ d ∈ c.sent, d.callback.isSome) (hq : c.Quiescent) :
    Reported es c ↔ Along step Alone {} es := by
  obtain ⟨done, h, hiff⟩ := tracked_run hrun
  obtain ⟨hsent, -, hcalled, hwhole⟩ := h.of_quiescent hq
  rw [← hiff, Reported, hsent, hcalled, hwhole, map_zipIdx_eq]
  constructor
  · intro heq
    have hlen := congrArg List.length heq
    rw [List.length_map, List.length_map] at hlen
    exact noneDropped_of_length hlen
  · intro hnone
    rw [hsent] at hcallback
    exact map_called_eq (fun x hx => hcallback x.data (List.mem_map_of_mem hx)) hnone

/-- Two sends, the first of which fails at its header while the second waits. -/
def failing : List Event :=
  [.send (SocketServerBase.send (ascii "hi") (some 0)),
    .send (SocketServerBase.send (ascii "yo") (some 1)), .runPosted, .runPosted, .runTask 0,
    .fail 0, .runTask 0]

/-- One send, which fails at its payload. -/
def failingAlone : List Event :=
  [.send (SocketServerBase.send (ascii "hi") (some 0)), .runPosted, .runTask 0, .transfer 0 2,
    .complete 0, .runTask 0, .transfer 0 1, .fail 0, .runTask 0]

/-- A write fails while no other send is in the queue: every send is reported once. -/
theorem reported_failingAlone :
    ∃ c, run step {} failingAlone = some c ∧
      (Reported failingAlone c ↔ Along step Alone {} failingAlone) :=
  ⟨_, rfl, reported_iff rfl (by decide) ⟨rfl, rfl, rfl⟩⟩

/-- The callback of the second send is never called. -/
theorem not_reported_failing :
    ∃ c, run step {} failing = some c ∧ (∀ d ∈ c.sent, d.callback.isSome) ∧ c.Quiescent ∧
      ¬ Reported failing c :=
  ⟨_, rfl, by decide, ⟨rfl, rfl, rfl⟩, by decide⟩

end Connection

end BoostIrc
