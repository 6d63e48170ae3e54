import BoostIrc.Bytes
import BoostIrc.Transition

/-!
# The Send Queue of a WebSocket Connection

`SocketServerBase::send` builds the header of a frame and posts the frame to the strand of the
connection. There it joins `send_queue`, and if it is the only one in it, a chain of writes is
started (`Connection.sendFromQueue`): the header, then the payload of the first element, then
the same for the next.

The model keeps apart what the source keeps apart: the sends that are posted but have not run;
the queue; the strand tasks that are ready to run (`Task`), in any order; and the
`async_write`s under way, which transfer their bytes piece by piece. An access to the first
element of an empty queue is recorded as such (`undefined`).

## Main results

* `Busy`, `Sound`: the invariant, with the phases of a chain.
* `eq_of_step_runTask`, `eq_of_step_transfer` and the like: what each event can do.
* `Sound.step`: every step without an error keeps it.
* `sound_run`: **so it holds after every run without errors.**
* `safe_run`: what it says about writes, chains, accesses and bytes.
-/

open Transition

namespace BoostIrc

/-- An element of the send queue. Callbacks are named by numbers. -/
structure SendData where
  headerStream : Bytes
  messageStream : Bytes
  callback : Option ℕ := none
  deriving DecidableEq, Repr

/-- The bytes of the whole frame. -/
def SendData.frame (d : SendData) : Bytes :=
  d.headerStream ++ d.messageStream

namespace SocketServerBase

/-- The lowest `n` bytes of a length, the highest first. -/
def lengthBytes (n length : ℕ) : Bytes :=
  (List.range n).reverse.map fun c => UInt8.ofNat ((length >>> (8 * c)) % 256)

/-- The header of a frame: the opcode, then the length in one, three or nine bytes. -/
def header (finRsvOpcode : Byte) (length : ℕ) : Bytes :=
  finRsvOpcode ::
    if 126 ≤ length then
      if 0xffff < length then 127 :: lengthBytes 8 length else 126 :: lengthBytes 2 length
    else
      [UInt8.ofNat length]

/-- What `send` posts to the strand. The default opcode is that of a text frame. -/
def send (messageStream : Bytes) (callback : Option ℕ := none) (finRsvOpcode : Byte := 129) :
    SendData where
  headerStream := header finRsvOpcode messageStream.length
  messageStream := messageStream
  callback := callback

end SocketServerBase

/-- The two writes of a frame. -/
inductive Stage where
  | header
  | message
  deriving DecidableEq, Repr

/-- The bytes that the write of a stage has. -/
def SendData.stageBytes (d : SendData) : Stage → Bytes
  | .header => d.headerStream
  | .message => d.messageStream

/-- The bytes of the frame before them. -/
def SendData.bytesBefore (d : SendData) : Stage → Bytes
  | .header => []
  | .message => d.headerStream

/-- A task of the strand: the one that `send_from_queue` posts, or the completion handler of a
write, with whether it succeeded. -/
inductive Task where
  | sendFromQueue
  | written (stage : Stage) (ok : Bool)
  deriving DecidableEq, Repr

/-- An `async_write` under way, with what remains of it. -/
structure Write where
  stage : Stage
  remaining : Bytes
  deriving DecidableEq, Repr

/-- The state of a connection, as far as sending goes. `sent` records the sends in the order
of their posting, `called` the callbacks invoked and with which result. -/
structure Connection where
  sent : List SendData := []
  posted : List SendData := []
  sendQueue : List SendData := []
  tasks : List Task := []
  writes : List Write := []
  wire : Bytes := []
  called : List (ℕ × Bool) := []
  undefined : Bool := false
  deriving DecidableEq, Repr

namespace Connection

/-- `send_from_queue`. -/
def sendFromQueue (c : Connection) : Connection :=
  { c with tasks := c.tasks ++ [.sendFromQueue] }

/-- `async_write` of a stage. -/
def asyncWrite (c : Connection) (stage : Stage) (bytes : Bytes) : Connection :=
  { c with writes := c.writes ++ [⟨stage, bytes⟩] }

/-- Call the callback of an element, if it has one. -/
def notify (c : Connection) (d : SendData) (ok : Bool) : Connection :=
  { c with called := c.called ++ (d.callback.map fun f => (f, ok)).toList }

/-- An access to `*send_queue.begin()`. -/
def withBegin (c : Connection) (f : SendData → Connection) : Connection :=
  match c.sendQueue with
  | [] => { c with undefined := true }
  | d :: _ => f d

/-- **The strand tasks.** -/
def runTask (c : Connection) : Task → Connection
  | .sendFromQueue => c.withBegin fun d => c.asyncWrite .header d.headerStream
  | .written .header true => c.withBegin fun d => c.asyncWrite .message d.messageStream
  | .written .header false => c.withBegin fun d => { c.notify d false with sendQueue := [] }
  | .written .message true =>
      c.withBegin fun d =>
        let c' := { c.notify d true with sendQueue := c.sendQueue.tail }
        if 0 < c'.sendQueue.length then c'.sendFromQueue else c'
  | .written .message false => c.withBegin fun d => { c.notify d false with sendQueue := [] }

/-- The task that `send` posts, for the send `d`. -/
def enqueue (c : Connection) (d : SendData) : Connection :=
  let c' := { c with sendQueue := c.sendQueue ++ [d] }
  if c'.sendQueue.length = 1 then c'.sendFromQueue else c'

/-- What can happen: a call of `send`; the strand runs the oldest posted send, or one of the
other tasks; a write transfers some bytes, completes, or fails. -/
inductive Event where
  | send (d : SendData)
  | runPosted
  | runTask (i : ℕ)
  | transfer (i n : ℕ)
  | complete (i : ℕ)
  | fail (i : ℕ)
  deriving DecidableEq, Repr

/-- One step. -/
def step (c : Connection) : Event → Option Connection
  | .send d => some { c with sent := c.sent ++ [d], posted := c.posted ++ [d] }
  | .runPosted =>
      match c.posted with
      | [] => none
      | d :: ds => some ({ c with posted := ds }.enqueue d)
  | .runTask i =>
      match c.tasks[i]? with
      | none => none
      | some t => some ({ c with tasks := c.tasks.eraseIdx i }.runTask t)
  | .transfer i n =>
      match c.writes[i]? with
      | none => none
      | some w =>
          if 0 < n ∧ n ≤ w.remaining.length then
            some
              { c with
                writes := c.writes.set i { w with remaining := w.remaining.drop n }
                wire := c.wire ++ w.remaining.take n }
          else
            none
  | .complete i =>
      match c.writes[i]? with
      | none => none
      | some w =>
          if w.remaining = [] then
            some
              { c with
                writes := c.writes.eraseIdx i
                tasks := c.tasks ++ [.written w.stage true] }
          else
            none
  | .fail i =>
      match c.writes[i]? with
      | none => none
      | some w =>
          some
            { c with
              writes := c.writes.eraseIdx i
              tasks := c.tasks ++ [.written w.stage false] }

/-! ### What a step can do -/

/-- What the strand does with a send that was posted: the oldest one is put into the queue. -/
theorem eq_of_step_runPosted {c c' : Connection} (h : step c .runPosted = some c') :
    ∃ d ds, c.posted = d :: ds ∧ c' = { c with posted := ds }.enqueue d := by
  rw [step] at h
  cases hposted : c.posted with
  | nil => simp [hposted] at h
  | cons d ds =>
      simp only [hposted] at h
      exact ⟨d, ds, rfl, (Option.some.inj h).symm⟩

/-- What the strand does with a task: it runs it, and the task is gone. -/
theorem eq_of_step_runTask {c c' : Connection} {i : ℕ} (h : step c (.runTask i) = some c') :
    ∃ t, c.tasks[i]? = some t ∧ c' = { c with tasks := c.tasks.eraseIdx i }.runTask t := by
  rw [step] at h
  cases ht : c.tasks[i]? with
  | none => simp [ht] at h
  | some t =>
      simp only [ht] at h
      exact ⟨t, rfl, (Option.some.inj h).symm⟩

/-- What the transfer of some bytes does: they go out on the wire, and the write has as many left to
do. -/
theorem eq_of_step_transfer {c c' : Connection} {i n : ℕ}
    (h : step c (.transfer i n) = some c') :
    ∃ w, c.writes[i]? = some w ∧ (0 < n ∧ n ≤ w.remaining.length) ∧
      c' = { c with
        writes := c.writes.set i { w with remaining := w.remaining.drop n }
        wire := c.wire ++ w.remaining.take n } := by
  rw [step] at h
  cases hw : c.writes[i]? with
  | none => simp [hw] at h
  | some w =>
      simp only [hw] at h
      obtain ⟨hn, hc'⟩ := Option.ite_none_right_eq_some.mp h
      exact ⟨w, rfl, hn, (Option.some.inj hc').symm⟩

/-- What the end of a write does: a task for its handler is posted to the strand. -/
theorem eq_of_step_complete {c c' : Connection} {i : ℕ} (h : step c (.complete i) = some c') :
    ∃ w, c.writes[i]? = some w ∧ w.remaining = [] ∧
      c' = { c with
        writes := c.writes.eraseIdx i
        tasks := c.tasks ++ [.written w.stage true] } := by
  rw [step] at h
  cases hw : c.writes[i]? with
  | none => simp [hw] at h
  | some w =>
      simp only [hw] at h
      obtain ⟨hrem, hc'⟩ := Option.ite_none_right_eq_some.mp h
      exact ⟨w, rfl, hrem, (Option.some.inj hc').symm⟩

/-- What the failure of a write does: a task for its handler, with the error, is posted to the
strand. -/
theorem eq_of_step_fail {c c' : Connection} {i : ℕ} (h : step c (.fail i) = some c') :
    ∃ w, c.writes[i]? = some w ∧
      c' = { c with
        writes := c.writes.eraseIdx i
        tasks := c.tasks ++ [.written w.stage false] } := by
  rw [step] at h
  cases hw : c.writes[i]? with
  | none => simp [hw] at h
  | some w =>
      simp only [hw] at h
      exact ⟨w, rfl, (Option.some.inj h).symm⟩

/-! ### The invariant -/

/-- **The phases of a chain** that writes the frame of `d`: its tasks, its writes, and the part
of the frame that is on the wire. -/
inductive Busy (d : SendData) : List Task → List Write → Bytes → Prop
  | start : Busy d [.sendFromQueue] [] []
  | header {p r : Bytes} (h : p ++ r = d.headerStream) : Busy d [] [⟨.header, r⟩] p
  | headerDone : Busy d [.written .header true] [] d.headerStream
  | message {p r : Bytes} (h : p ++ r = d.messageStream) :
      Busy d [] [⟨.message, r⟩] (d.headerStream ++ p)
  | messageDone : Busy d [.written .message true] [] d.frame

/-- A write of a stage is under way, and a part of its bytes is on the wire. -/
theorem Busy.of_stage {d : SendData} (stage : Stage) {p r : Bytes}
    (h : p ++ r = d.stageBytes stage) : Busy d [] [⟨stage, r⟩] (d.bytesBefore stage ++ p) := by
  cases stage with
  | header => exact .header h
  | message => exact .message h

/-- The bytes of a stage are on the wire, and the handler of the write has yet to run. -/
theorem Busy.of_written (d : SendData) (stage : Stage) :
    Busy d [.written stage true] [] (d.bytesBefore stage ++ d.stageBytes stage) := by
  cases stage with
  | header => exact .headerDone
  | message => exact .messageDone

/-- **The invariant**: either nothing is queued and nothing under way, or one chain is, for
the first element of the queue. What was sent is what was written, what is queued and what is
still posted, in this order. -/
inductive Sound (c : Connection) : Prop
  | idle (done : List SendData) (hsent : c.sent = done ++ c.posted) (hqueue : c.sendQueue = [])
      (htasks : c.tasks = []) (hwrites : c.writes = [])
      (hwire : c.wire = done.flatMap SendData.frame) (hdefined : c.undefined = false)
  | busy (done : List SendData) (d : SendData) (queue : List SendData) (part : Bytes)
      (hsent : c.sent = done ++ d :: queue ++ c.posted) (hqueue : c.sendQueue = d :: queue)
      (hbusy : Busy d c.tasks c.writes part)
      (hwire : c.wire = done.flatMap SendData.frame ++ part) (hdefined : c.undefined = false)

/-- At the start nothing has been sent, and the queue is empty. -/
theorem sound_init : Sound {} :=
  .idle [] rfl rfl rfl rfl rfl rfl

/-- Sends are posted: they wait behind everything that was sent before. -/
theorem Sound.send {c : Connection} (h : Sound c) (ds : List SendData) :
    Sound { c with sent := c.sent ++ ds, posted := c.posted ++ ds } := by
  cases h with
  | idle done hsent hqueue htasks hwrites hwire hdefined =>
      refine .idle done ?_ hqueue htasks hwrites hwire hdefined
      simp only [hsent, List.append_assoc]
  | busy done e queue part hsent hqueue hbusy hwire hdefined =>
      refine .busy done e queue part ?_ hqueue hbusy hwire hdefined
      simp only [hsent, List.append_assoc]

/-- A posted send joins the queue, and starts a chain if there is none. -/
theorem Sound.runPosted {c : Connection} (h : Sound c) {d : SendData} {ds : List SendData}
    (hposted : c.posted = d :: ds) : Sound ({ c with posted := ds }.enqueue d) := by
  cases h with
  | idle done hsent hqueue htasks hwrites hwire hdefined =>
      have hstart : { c with posted := ds }.enqueue d =
          { c with posted := ds, sendQueue := [d], tasks := [.sendFromQueue] } := by
        simp [enqueue, sendFromQueue, hqueue, htasks]
      rw [hstart]
      refine .busy done d [] [] ?_ rfl ?_ ?_ hdefined
      · simp only [hsent, hposted, List.append_assoc, List.singleton_append]
      · simp only [hwrites]
        exact .start
      · simp only [hwire, List.append_nil]
  | busy done e queue part hsent hqueue hbusy hwire hdefined =>
      have hwait : { c with posted := ds }.enqueue d =
          { c with posted := ds, sendQueue := e :: (queue ++ [d]) } := by
        simp [enqueue, hqueue]
      rw [hwait]
      refine .busy done e (queue ++ [d]) part ?_ rfl hbusy hwire hdefined
      simp only [hsent, hposted, List.append_assoc, List.cons_append, List.nil_append]

/-- A strand task advances the chain: it starts the write of the first stage, or of the second, or
it takes the frame off the queue and starts the next one. -/
theorem Sound.runTask {c : Connection} (h : Sound c) {i : ℕ} {t : Task}
    (ht : c.tasks[i]? = some t) : Sound ({ c with tasks := c.tasks.eraseIdx i }.runTask t) := by
  cases h with
  | idle done hsent hqueue htasks hwrites hwire hdefined =>
      rw [htasks] at ht
      exact absurd ht (by simp)
  | busy done d queue part hsent hqueue hbusy hwire hdefined =>
      obtain ⟨sent, posted, sendQueue, tasks, writes, wire, called, undefined⟩ := c
      simp only at hsent hqueue hbusy hwire hdefined ht ⊢
      subst hqueue
      cases hbusy with
      | header hp => exact absurd ht (by simp)
      | message hp => exact absurd ht (by simp)
      | start =>
          obtain ⟨rfl, rfl⟩ := eq_of_getElem?_singleton ht
          exact .busy done d queue [] hsent rfl (.header (List.nil_append _)) hwire hdefined
      | headerDone =>
          obtain ⟨rfl, rfl⟩ := eq_of_getElem?_singleton ht
          refine .busy done d queue (d.headerStream ++ []) hsent rfl
            (.message (List.nil_append _)) ?_ hdefined
          rw [List.append_nil]
          exact hwire
      | messageDone =>
          obtain ⟨rfl, rfl⟩ := eq_of_getElem?_singleton ht
          have hdone : wire = (done ++ [d]).flatMap SendData.frame := by
            rw [hwire, List.flatMap_append, List.flatMap_singleton]
          cases queue with
          | nil =>
              refine .idle (done ++ [d]) ?_ rfl rfl rfl hdone hdefined
              simpa [Connection.runTask, withBegin, notify] using hsent
          | cons e queue =>
              refine .busy (done ++ [d]) e queue [] ?_ rfl .start ?_ hdefined
              · simpa [Connection.runTask, withBegin, notify, sendFromQueue] using hsent
              · rw [List.append_nil]
                exact hdone

/-- With a write under way there is a chain, which has come to the stage of the write. -/
theorem Busy.of_write {d : SendData} {tasks : List Task} {writes : List Write} {part : Bytes}
    (h : Busy d tasks writes part) {i : ℕ} {w : Write} (hw : writes[i]? = some w) :
    i = 0 ∧ tasks = [] ∧ writes = [w] ∧
      ∃ p, p ++ w.remaining = d.stageBytes w.stage ∧ part = d.bytesBefore w.stage ++ p := by
  cases h with
  | start | headerDone | messageDone => exact absurd hw (by simp)
  | @header p r hp =>
      obtain ⟨rfl, rfl⟩ := eq_of_getElem?_singleton hw
      exact ⟨rfl, rfl, rfl, _, hp, rfl⟩
  | @message p r hp =>
      obtain ⟨rfl, rfl⟩ := eq_of_getElem?_singleton hw
      exact ⟨rfl, rfl, rfl, p, hp, rfl⟩

/-- Where a write is under way, it is the only operation, and it writes a stage of the frame at the
head of the queue: what was written before it are whole frames and the beginning of this one. -/
theorem Sound.of_write {c : Connection} (h : Sound c) {i : ℕ} {w : Write}
    (hw : c.writes[i]? = some w) :
    ∃ done d queue p, c.sent = done ++ d :: queue ++ c.posted ∧ c.sendQueue = d :: queue ∧
      i = 0 ∧ c.tasks = [] ∧ c.writes = [w] ∧ p ++ w.remaining = d.stageBytes w.stage ∧
        c.wire = done.flatMap SendData.frame ++ (d.bytesBefore w.stage ++ p) ∧
          c.undefined = false := by
  cases h with
  | idle done hsent hqueue htasks hwrites hwire hdefined =>
      rw [hwrites] at hw
      exact absurd hw (by simp)
  | busy done d queue part hsent hqueue hbusy hwire hdefined =>
      obtain ⟨hi, htasks, hwrites, p, hp, rfl⟩ := hbusy.of_write hw
      exact ⟨done, d, queue, p, hsent, hqueue, hi, htasks, hwrites, hp, hwire, hdefined⟩

/-- Some bytes of the write under way reach the wire. -/
theorem Sound.transfer {c : Connection} (h : Sound c) {i : ℕ} (n : ℕ) {w : Write}
    (hw : c.writes[i]? = some w) :
    Sound
      { c with
        writes := c.writes.set i { w with remaining := w.remaining.drop n }
        wire := c.wire ++ w.remaining.take n } := by
  obtain ⟨done, d, queue, p, hsent, hqueue, rfl, htasks, hwrites, hp, hwire, hdefined⟩ :=
    h.of_write hw
  refine .busy done d queue (d.bytesBefore w.stage ++ (p ++ w.remaining.take n)) hsent hqueue ?_ ?_
    hdefined
  · simp only [htasks, hwrites, List.set_cons_zero]
    refine .of_stage w.stage ?_
    rw [List.append_assoc, List.take_append_drop, hp]
  · simp only [hwire, List.append_assoc]

/-- The write under way completes, with all of its bytes on the wire: its handler is the next
task. -/
theorem Sound.complete {c : Connection} (h : Sound c) {i : ℕ} {w : Write}
    (hw : c.writes[i]? = some w) (hrem : w.remaining = []) :
    Sound
      { c with
        writes := c.writes.eraseIdx i
        tasks := c.tasks ++ [.written w.stage true] } := by
  obtain ⟨done, d, queue, p, hsent, hqueue, rfl, htasks, hwrites, hp, hwire, hdefined⟩ :=
    h.of_write hw
  rw [hrem, List.append_nil] at hp
  refine .busy done d queue (d.bytesBefore w.stage ++ p) hsent hqueue ?_ hwire hdefined
  simp only [htasks, hwrites, List.eraseIdx_cons_zero, List.nil_append, hp]
  exact .of_written d w.stage

/-- An event that reports no error. -/
def Event.IsOk : Event → Prop
  | .fail _ => False
  | _ => True

instance (e : Event) : Decidable e.IsOk := by
  cases e <;> simp only [Event.IsOk] <;> infer_instance

/-- **One step without an error** keeps the queue sound, whichever event it is. There is one clause
for each: a send, a task of the strand, and the end of the write of a header or of a message. -/
theorem Sound.step {c c' : Connection} (h : Sound c) {e : Event} (hok : e.IsOk)
    (hstep : Connection.step c e = some c') : Sound c' := by
  cases e with
  | fail i => exact absurd hok id
  | send d =>
      obtain rfl := Option.some.inj hstep
      exact h.send [d]
  | runPosted =>
      obtain ⟨d, ds, hposted, rfl⟩ := eq_of_step_runPosted hstep
      exact h.runPosted hposted
  | runTask i =>
      obtain ⟨t, ht, rfl⟩ := eq_of_step_runTask hstep
      exact h.runTask ht
  | transfer i n =>
      obtain ⟨w, hw, -, rfl⟩ := eq_of_step_transfer hstep
      exact h.transfer n hw
  | complete i =>
      obtain ⟨w, hw, hrem, rfl⟩ := eq_of_step_complete hstep
      exact h.complete hw hrem

/-- **The invariant holds after every run without errors.** Sends may come at any moment of it, also
while a frame is written. -/
theorem sound_run {es : List Event} {c : Connection} (hok : ∀ e ∈ es, e.IsOk)
    (hrun : run step {} es = some c) : Sound c :=
  run_invariant (I := Sound) (fun _ _ _ h hok hstep => h.step hok hstep) sound_init
    (along_of_forall hok _) hrun

/-! ### What the invariant says -/

/-- A chain of writes is active: one of its tasks is ready, or one of its writes under way. -/
def Active (c : Connection) : Prop :=
  c.tasks ≠ [] ∨ c.writes ≠ []

/-- Nothing is left to do. -/
structure Quiescent (c : Connection) : Prop where
  posted : c.posted = []
  tasks : c.tasks = []
  writes : c.writes = []

/-- While a frame is sent there is one operation: either a task of the strand or a write. -/
theorem Busy.tasks_add_writes {d : SendData} {tasks : List Task} {writes : List Write}
    {part : Bytes} (h : Busy d tasks writes part) : tasks.length + writes.length = 1 := by
  cases h <;> rfl

/-- What is on the wire of a frame is the beginning of this frame. -/
theorem Busy.isPrefix {d : SendData} {tasks : List Task} {writes : List Write}
    {part : Bytes} (h : Busy d tasks writes part) : part <+: d.frame := by
  cases h with
  | start => exact List.nil_prefix
  | @header p r hp => exact ⟨r ++ d.messageStream, by rw [← List.append_assoc, hp, SendData.frame]⟩
  | headerDone => exact List.prefix_append _ _
  | @message p r hp => exact ⟨r, by rw [List.append_assoc, hp, SendData.frame]⟩
  | messageDone => exact List.prefix_rfl

/-- There is at most one chain, and one is active exactly if the queue is not empty. -/
theorem Sound.chain {c : Connection} (h : Sound c) :
    c.tasks.length + c.writes.length ≤ 1 ∧ (c.Active ↔ c.sendQueue ≠ []) := by
  cases h with
  | idle done hsent hqueue htasks hwrites hwire hdefined =>
      refine ⟨by simp [htasks, hwrites], ?_⟩
      simp [Active, htasks, hwrites, hqueue]
  | busy done d queue part hsent hqueue hbusy hwire hdefined =>
      have hone := hbusy.tasks_add_writes
      refine ⟨hone.le, iff_of_true ?_ (by simp [hqueue])⟩
      by_contra hnone
      simp only [Active, not_or, not_not] at hnone
      rw [hnone.1, hnone.2] at hone
      exact absurd hone (by simp)

/-- A sound queue never goes to the head of an empty list. -/
theorem Sound.defined {c : Connection} (h : Sound c) : c.undefined = false := by
  cases h with
  | idle => assumption
  | busy => assumption

/-- The wire holds whole frames, and a part of the next. -/
theorem Sound.wire_isPrefix {c : Connection} (h : Sound c) :
    c.wire <+: c.sent.flatMap SendData.frame := by
  cases h with
  | idle done hsent hqueue htasks hwrites hwire hdefined =>
      rw [hsent, hwire, List.flatMap_append]
      exact List.prefix_append _ _
  | busy done d queue part hsent hqueue hbusy hwire hdefined =>
      obtain ⟨t, ht⟩ := hbusy.isPrefix
      rw [hsent, hwire, List.append_assoc, List.flatMap_append, List.cons_append,
        List.flatMap_cons, ← ht]
      exact ⟨t ++ (queue ++ c.posted).flatMap SendData.frame, by simp only [List.append_assoc]⟩

/-- When nothing is left to do, the wire holds the frames of all sends. -/
theorem Sound.wire_eq {c : Connection} (h : Sound c) (hq : c.Quiescent) :
    c.wire = c.sent.flatMap SendData.frame := by
  cases h with
  | idle done hsent hqueue htasks hwrites hwire hdefined =>
      rw [hsent, hwire, hq.posted, List.append_nil]
  | busy done d queue part hsent hqueue hbusy hwire hdefined =>
      have hone := hbusy.tasks_add_writes
      rw [hq.tasks, hq.writes] at hone
      exact absurd hone (by simp)

/-! ### Emptying the queue -/

/-- An access to the first element of the queue adds no send, where what is done with it adds
none. -/
theorem sent_withBegin {c : Connection} {f : SendData → Connection}
    (h : ∀ d, (f d).sent = c.sent) : (c.withBegin f).sent = c.sent := by
  rw [withBegin]
  cases c.sendQueue with
  | nil => rfl
  | cons d queue => exact h d

/-- A strand task sends nothing: what it writes has been sent before. -/
theorem sent_runTask (c : Connection) (t : Task) : (c.runTask t).sent = c.sent := by
  match t with
  | .sendFromQueue => exact sent_withBegin fun _ => rfl
  | .written .header true => exact sent_withBegin fun _ => rfl
  | .written .header false => exact sent_withBegin fun _ => rfl
  | .written .message false => exact sent_withBegin fun _ => rfl
  | .written .message true =>
      refine sent_withBegin fun d => ?_
      simp only
      split_ifs <;> rfl

/-- Only a call of `send` adds to the sends. -/
theorem sent_of_step {c c' : Connection} {e : Event} (he : ∀ d, e ≠ .send d)
    (hstep : step c e = some c') : c'.sent = c.sent := by
  cases e with
  | send d => exact absurd rfl (he d)
  | runPosted =>
      obtain ⟨d, ds, -, rfl⟩ := eq_of_step_runPosted hstep
      simp only [enqueue]
      split_ifs <;> rfl
  | runTask i =>
      obtain ⟨t, -, rfl⟩ := eq_of_step_runTask hstep
      exact sent_runTask _ t
  | transfer i n =>
      obtain ⟨w, -, -, rfl⟩ := eq_of_step_transfer hstep
      rfl
  | complete i =>
      obtain ⟨w, -, -, rfl⟩ := eq_of_step_complete hstep
      rfl
  | fail i =>
      obtain ⟨w, -, rfl⟩ := eq_of_step_fail hstep
      rfl

/-- The frame that an event sends, if it is a call of `send`. -/
def Event.frames : Event → List SendData
  | .send d => [d]
  | _ => []

/-- **The sends recorded are the calls of `send`**, in the order in which they were made. This
connects the record of the state with the events of the run, of which the statements about the wire
speak. -/
theorem sent_of_run {es : List Event} {c c' : Connection} (hrun : run step c es = some c') :
    c'.sent = c.sent ++ es.flatMap Event.frames := by
  refine eq_append_of_run (f := sent) (fun c e c' hstep => ?_) hrun
  cases e with
  | send d =>
      obtain rfl := Option.some.inj hstep
      rfl
  | _ => simpa [Event.frames] using sent_of_step (by simp) hstep

/-- The steps that write one frame. -/
def drain (d : SendData) : List Event :=
  [.runPosted, .runTask 0, .transfer 0 d.headerStream.length, .complete 0,
    .runTask 0, .transfer 0 d.messageStream.length, .complete 0, .runTask 0]

/-- **One frame can always be written**: from a queue that holds nothing else, the strand and the
socket bring its two parts to the wire, and the queue is quiescent. -/
theorem run_drain {c : Connection} {d : SendData} (hposted : c.posted = [d])
    (hqueue : c.sendQueue = []) (htasks : c.tasks = []) (hwrites : c.writes = [])
    (hheader : d.headerStream ≠ []) (hmessage : d.messageStream ≠ []) :
    ∃ c', run step c (drain d) = some c' ∧ c'.Quiescent := by
  obtain ⟨sent, posted, sendQueue, tasks, writes, wire, called, undefined⟩ := c
  simp only at hposted hqueue htasks hwrites
  subst hposted hqueue htasks hwrites
  have hheader' : 0 < d.headerStream.length := List.length_pos_iff.mpr hheader
  have hmessage' : 0 < d.messageStream.length := List.length_pos_iff.mpr hmessage
  let c' : Connection :=
    { sent := sent
      wire := wire ++ d.headerStream ++ d.messageStream
      called := called ++ (d.callback.map fun f => (f, true)).toList
      undefined := undefined }
  refine ⟨c', ?_, ⟨rfl, rfl, rfl⟩⟩
  simp [c', drain, run_cons, step, enqueue, sendFromQueue, runTask, withBegin, asyncWrite, notify,
    hheader', hmessage']

/-- **What holds after every run without errors**: at most one write is under way, and at most
one chain; a chain is active exactly if the queue is not empty; no access to the first element
found none; the wire holds a prefix of the frames of the sends, in the order in which they were
posted, and all of them when nothing is left to do. -/
theorem safe_run {es : List Event} {c : Connection} (hok : ∀ e ∈ es, e.IsOk)
    (hrun : run step {} es = some c) :
    c.writes.length ≤ 1 ∧
      c.tasks.length + c.writes.length ≤ 1 ∧
      (c.Active ↔ c.sendQueue ≠ []) ∧
      c.undefined = false ∧
      c.wire <+: (es.flatMap Event.frames).flatMap SendData.frame ∧
      (c.Quiescent → c.wire = (es.flatMap Event.frames).flatMap SendData.frame) := by
  have h := sound_run hok hrun
  have hsent : c.sent = es.flatMap Event.frames := sent_of_run hrun
  obtain ⟨hone, hactive⟩ := h.chain
  exact ⟨by omega, hone, hactive, h.defined, hsent ▸ h.wire_isPrefix, hsent ▸ h.wire_eq⟩

/-- A run in which the second frame is posted while the first is being written. -/
def overlap : List Event :=
  [.send (SocketServerBase.send (ascii "hi")), .runPosted, .runTask 0, .transfer 0 1,
    .send (SocketServerBase.send (ascii "yo")), .runPosted, .transfer 0 1, .complete 0, .runTask 0,
    .transfer 0 2, .complete 0, .runTask 0, .runTask 0, .transfer 0 2, .complete 0, .runTask 0,
    .transfer 0 2, .complete 0, .runTask 0]

/-- Both frames are on the wire in the end, one behind the other. -/
theorem safe_overlap :
    ∃ c, run step {} overlap = some c ∧ c.Quiescent ∧
      c.wire = [129, 2] ++ ascii "hi" ++ [129, 2] ++ ascii "yo" := by
  refine ⟨_, rfl, ⟨rfl, rfl, rfl⟩, ?_⟩
  exact (safe_run (by decide : ∀ e ∈ overlap, e.IsOk) rfl).2.2.2.2.2 ⟨rfl, rfl, rfl⟩

end Connection

end BoostIrc
