import BoostIrc.ReadLoop
import BoostIrc.Simulation
import BoostIrc.WireFrames

/-!
# What the Browsers Get

A connection uses its send queue as any caller of `send` does, and the program uses its connections
as the server does. So each connection of the program simulates one on its own, and each queue one
of its own, whatever the handlers, timers and sessions do in between. What holds of every queue then
holds of every queue of the program.

## Main results

* `WsConnection.simulates_queue`: **a connection takes the steps of its queue.**
* `Bot.simulates_connection`: the program takes the steps of each of its connections.
* `Bot.browser_reads`: **what the browser of a connection reads.**
* `Bot.exists_browser_reads_all`: it can always get all of what was sent.
-/

open Transition

namespace BoostIrc

namespace WsConnection

variable {server : WsServer}

/-- The event reports no error of a write. -/
def Event.WritesOk : Event → Prop
  | .queue e => e.IsOk
  | _ => True

/-- An event of a queue without an error: what is sent is a frame. -/
def QueueEvent (e : Connection.Event) : Prop :=
  e.IsOk ∧ ∀ d, e = .send d → d.IsFrame

/-- The queue `q'` is what some such events make of `q`. -/
def QueueRuns (q q' : Connection) : Prop :=
  ∃ es, run Connection.step q es = some q' ∧ ∀ e ∈ es, QueueEvent e

/-- A queue to which nothing happens is reached in no steps. -/
theorem QueueRuns.refl (q : Connection) : QueueRuns q q :=
  ⟨[], rfl, by simp⟩

/-- A send of a frame is an event of the queue. -/
theorem queueEvent_send {d : SendData} (h : d.IsFrame) : QueueEvent (.send d) := by
  refine ⟨trivial, fun d' hd' => ?_⟩
  obtain rfl := Connection.Event.send.inj hd'
  exact h

/-- A frame is posted, which is one step of the queue. -/
theorem QueueRuns.post (q : Connection) {d : SendData} (h : d.IsFrame) : QueueRuns q (q.post d) :=
  ⟨[.send d], rfl, by simpa using queueEvent_send h⟩

/-- Texts are posted, which is one step of the queue for each of them. -/
theorem QueueRuns.postTexts (q : Connection) (payloads : List Bytes) :
    QueueRuns q (WsConnection.postTexts q payloads) := by
  refine ⟨payloads.map fun p => .send (SocketServerBase.send p (some 0)), ?_, ?_⟩
  · induction payloads generalizing q with
    | nil => rfl
    | cons p payloads ih => exact ih (q.post (SocketServerBase.send p (some 0)))
  · intro e he
    obtain ⟨p, -, rfl⟩ := List.mem_map.mp he
    exact queueEvent_send (SocketServerBase.isFrame_send p (some 0) 129)

/-- A close frame is posted, which is one step of the queue; or none if one has been sent, which is
no step. -/
theorem QueueRuns.closing (q : Connection) (closed : Bool) (status : ℕ) (reason : Bytes)
    (callback : Option ℕ) :
    QueueRuns q (if closed then q else q.post (closeFrame status reason callback)) := by
  split_ifs
  · exact .refl q
  · exact .post q (SocketServerBase.isFrame_send _ _ _)

/-- **A connection takes the steps of its queue.** As long as no write fails, every event of a
connection is matched by some events at its write queue: writes, and sends of frames. -/
theorem simulates_queue :
    Simulates (step server) Connection.step (fun c q => c.queue = q) Event.WritesOk QueueEvent where
  matched := by
    rintro c c' q e rfl hok hs
    have hruns : QueueRuns c.queue c'.queue := by
      cases (step_sound hs).2 with
      | queue hq hsend =>
          refine ⟨[_], run_cons _ _ _ |>.trans (by rw [hq]; rfl), ?_⟩
          simpa using ⟨hok, fun d hd => absurd hd (hsend d)⟩
      | idleTimeout => exact .closing _ _ _ _ _
      | sendClose => exact .closing _ _ _ _ _
      | unmasked => exact .closing _ _ _ _ _
      | close => exact .closing _ _ _ _ _
      | relay => exact .postTexts _ _
      | message => exact .postTexts _ _
      | ping => exact .post _ (SocketServerBase.isFrame_send _ _ _)
      | _ => exact .refl _
    obtain ⟨es, hrun, hes⟩ := hruns
    exact ⟨es, c'.queue, hrun, hes, rfl⟩

/-- What holds of a queue: the invariant of its steps, and that what was sent are frames. -/
structure QueueSound (q : Connection) : Prop where
  sound : Connection.Sound q
  frames : ∀ d ∈ q.sent, d.IsFrame

/-- **One step** of the queue that sends nothing but frames keeps it sound. What was sent before are
frames, and the step adds at most the frame that it sends. -/
theorem QueueSound.step {q q' : Connection} {e : Connection.Event} (h : QueueSound q)
    (he : QueueEvent e) (hs : Connection.step q e = some q') : QueueSound q' := by
  refine ⟨h.sound.step he.1 hs, ?_⟩
  cases e with
  | send d =>
      obtain rfl := Option.some.inj hs
      exact List.forall_mem_append.mpr ⟨h.frames, by simpa using he.2 d rfl⟩
  | _ =>
      rw [Connection.sent_of_step (by simp) hs]
      exact h.frames

/-- The steps of the queue are steps of the connection. -/
theorem run_queue (server : WsServer) {c : WsConnection} (hdefined : c.undefined = false)
    {es : List Connection.Event} {q : Connection} (hsend : ∀ e ∈ es, ∀ d, e ≠ .send d)
    (h : run Connection.step c.queue es = some q) :
    run (WsConnection.step server) c (es.map .queue) = some { c with queue := q } := by
  induction es generalizing c with
  | nil =>
      obtain rfl := Option.some.inj h
      rfl
  | cons e es ih =>
      obtain ⟨q₁, hq₁, hrest⟩ := Option.bind_eq_some_iff.mp h
      obtain ⟨he, hes⟩ := List.forall_mem_cons.mp hsend
      have hstep : WsConnection.step server c (.queue e) = some { c with queue := q₁ } := by
        rw [WsConnection.step, if_neg (by simp [hdefined])]
        cases e with
        | send d => exact absurd rfl (he d)
        | _ => simp [handle, hq₁]
      rw [List.map_cons, run_cons, hstep, Option.bind_some]
      exact ih (c := { c with queue := q₁ }) hdefined hes hrest

end WsConnection

namespace Bot

variable {sha1 : Bytes → Vector UInt32 5} {undefinedShift : Byte → ℕ → ℕ}

/-- The connection `i`. Before it is accepted it is as when it will be. -/
def conn (b : Bot) (i : ℕ) : WsConnection :=
  b.conns[i]?.getD WsServer.accepted

/-- The event reports no error of a write on the connection `i`. -/
def Event.WritesOk (i : ℕ) : Event → Prop
  | .connection j e => j = i → e.WritesOk
  | _ => True

/-- Which connection takes a step, and which. -/
theorem exists_step_of_step {b b' : Bot} {e : Event} (h : step sha1 undefinedShift b e = some b') :
    (e = .accept ∧ b'.conns = b.conns ++ [WsServer.accepted]) ∨
      ∃ j c c' e', b.conns[j]? = some c ∧
        WsConnection.step (websocket sha1 undefinedShift) c e' = some c' ∧
        b'.conns = b.conns.set j c' ∧ (e = .connection j e' ∨ ∃ text, e' = .relay text) := by
  cases e with
  | accept =>
      obtain rfl := Option.some.inj h
      exact Or.inl ⟨rfl, rfl⟩
  | connection j e =>
      cases hc : b.conns[j]? with
      | none => cases e <;> simp [step, hc] at h
      | some c =>
          cases e with
          | relay text => exact absurd h (by simp [step])
          | _ =>
              simp only [step, hc] at h
              obtain ⟨c', hc', rfl⟩ := Option.map_eq_some_iff.mp h
              exact Or.inr ⟨j, c, c', _, hc, hc', rfl, Or.inl rfl⟩
  | privmsg k textToBeSent =>
      rw [step] at h
      split at h
      · exact absurd h (by simp)
      · next client hclient =>
          split at h
          · exact absurd h (by simp)
          · next c hc =>
              obtain ⟨c', hc', rfl⟩ := Option.map_eq_some_iff.mp h
              exact Or.inr ⟨_, c, c', _, hc, hc', rfl, Or.inr ⟨_, rfl⟩⟩

/-- The connection at a place of the list. -/
theorem conn_of_getElem? {b : Bot} {i : ℕ} {c : WsConnection} (h : b.conns[i]? = some c) :
    b.conn i = c := by
  rw [conn, h, Option.getD_some]

/-- **The program takes the steps of each of its connections.** An event of the program is matched,
at the connection `i`, by the event that this connection takes, or by none; what holds of every run
of a connection so holds of each of them. -/
theorem simulates_connection (i : ℕ) :
    Simulates (step sha1 undefinedShift) (WsConnection.step (websocket sha1 undefinedShift))
      (fun b c => b.conn i = c) (Event.WritesOk i) WsConnection.Event.WritesOk where
  matched := by
    rintro b b' c e rfl hok hs
    rcases exists_step_of_step hs with ⟨rfl, hconns⟩ | ⟨j, c, c', e', hc, hc', hconns, he⟩
    · refine ⟨[], b.conn i, rfl, by simp, ?_⟩
      rw [conn, conn, hconns, List.getElem?_append]
      split_ifs with hi
      · rfl
      · rw [List.getElem?_eq_none (not_lt.mp hi)]
        cases hk : i - b.conns.length with
        | zero => rfl
        | succ k => rfl
    · by_cases hij : i = j
      · subst hij
        have hlt := (List.getElem?_eq_some_iff.mp hc).1
        have hok' : e'.WritesOk := by
          rcases he with rfl | ⟨text, rfl⟩
          · exact hok rfl
          · trivial
        refine ⟨[e'], c', ?_, by simpa using hok', ?_⟩
        · rw [conn_of_getElem? hc, run_cons, hc']
          rfl
        · rw [conn, hconns, List.getElem?_set_self hlt, Option.getD_some]
      · refine ⟨[], b.conn i, rfl, by simp, ?_⟩
        rw [conn, conn, hconns, List.getElem?_set_ne (Ne.symm hij)]

/-- The queue of every connection is sound while no write on it fails. -/
theorem queueSound_of_run {i : ℕ} {es : List Event} {b : Bot} (hok : ∀ e ∈ es, e.WritesOk i)
    (hrun : run (step sha1 undefinedShift) {} es = some b) :
    WsConnection.QueueSound (b.conn i).queue := by
  have hsim := (@simulates_connection sha1 undefinedShift i).trans
    WsConnection.simulates_queue
  obtain ⟨q, ⟨c, rfl, rfl⟩, hsound⟩ := hsim.invariant (I := WsConnection.QueueSound)
    (s := {}) (t := {}) (fun _ _ _ h he hs => h.step he hs) ⟨_, rfl, rfl⟩
    ⟨Connection.sound_init, by simp⟩ hok hrun
  exact hsound

/-- Every connection is at one of its stages, and all its handlers have had a result. -/
theorem stage_of_run {es : List Event} {b : Bot}
    (hrun : run (step sha1 undefinedShift) {} es = some b) :
    ∀ c ∈ b.conns, WsConnection.Stage c.pending c.member c.calls ∧ c.undefined = false := by
  refine run_invariant (C := fun _ _ => True) (I := fun b : Bot =>
    ∀ c ∈ b.conns, WsConnection.Stage c.pending c.member c.calls ∧ c.undefined = false)
    ?_ (by simp) (along_of_forall (fun _ _ => trivial) _) hrun
  intro b e b' hall _ hs c hc
  rcases exists_step_of_step hs with ⟨-, hconns⟩ | ⟨j, c₁, c', e', hc₁, hc', hconns, -⟩
  · rw [hconns, List.mem_append, List.mem_singleton] at hc
    rcases hc with hc | rfl
    · exact hall c hc
    · exact ⟨.handshake, rfl⟩
  · rw [hconns] at hc
    rcases List.mem_or_eq_of_mem_set hc with hc | rfl
    · exact hall c hc
    · obtain ⟨hstage, -⟩ := hall c₁ (List.mem_of_getElem? hc₁)
      refine ⟨hstage.step (WsConnection.step_sound hc').2, ?_⟩
      have hmade : WsConnection.TimerMade (websocket sha1 undefinedShift) c₁ :=
        fun htimeout => absurd htimeout (by simp [websocket])
      exact (WsConnection.undefined_of_step hc').mpr (WsConnection.handle_ne_none hstage hmade e')

/-- **What the browser of a connection reads**, however the bytes are cut: the first of the frames
that were sent, and all of them when nothing is left to do. -/
theorem browser_reads {i : ℕ} {es : List Event} {b : Bot} {c : WsConnection}
    (hok : ∀ e ∈ es, e.WritesOk i) (hrun : run (step sha1 undefinedShift) {} es = some b)
    (hc : b.conns[i]? = some c) (hsize : ∀ d ∈ c.queue.sent, d.messageStream.length < 2 ^ 64)
    {chunks : List Bytes} (hchunks : chunks.flatten = c.queue.wire) :
    (WireFrame.reader.feed [] chunks).1 <+: c.queue.sent.map SendData.wireFrame ∧
      (c.queue.Quiescent →
        WireFrame.reader.feed [] chunks = (c.queue.sent.map SendData.wireFrame, [])) := by
  have hqueue := queueSound_of_run hok hrun
  rw [conn_of_getElem? hc] at hqueue
  exact hqueue.sound.feed_wire hqueue.frames hsize hchunks

/-- The text that a client relays is on its way: the header, and two of the three bytes. -/
def relaying : List Event :=
  openedChannel ++
    ([.runPosted, .runTask 0, .transfer 0 1, .transfer 0 1, .complete 0, .runTask 0,
      .transfer 0 2] : List Connection.Event).map fun e => .connection 0 (.queue e)

/-- No write fails in the sample run. -/
theorem writesOk_relaying : ∀ e ∈ relaying, e.WritesOk 0 := by
  simp [relaying, openedChannel, Event.WritesOk, WsConnection.Event.WritesOk,
    Connection.Event.IsOk]

/-- The sample run: a text is relayed, and a part of its frame is on the wire. -/
theorem exists_run_relaying :
    ∃ b c, run (step SocketServerBase.sampleSha1 fun _ _ => 0) {} relaying = some b ∧
      b.conns = [c] ∧ c.queue.wire = [129, 3, 0x68, 0x69] ∧
      c.queue.sent = [SocketServerBase.send (ascii "hi\n") (some 0)] := by
  have hmap : (run (step SocketServerBase.sampleSha1 fun _ _ => 0) {} relaying).map
      (fun b => b.conns.map fun c => (c.queue.wire, c.queue.sent)) =
        some [([129, 3, 0x68, 0x69], [SocketServerBase.send (ascii "hi\n") (some 0)])] := by
    decide +kernel
  obtain ⟨b, hrun, hb⟩ := Option.map_eq_some_iff.mp hmap
  obtain ⟨c, hconns, hc⟩ := List.map_eq_singleton_iff.mp hb
  obtain ⟨hwire, hsent⟩ := Prod.mk.inj hc
  exact ⟨b, c, hrun, hconns, hwire, hsent⟩

/-- In the sample run the browser has read no frame yet, which is a beginning of those that were
sent. -/
theorem browser_reads_relaying :
    ∃ b c, run (step SocketServerBase.sampleSha1 fun _ _ => 0) {} relaying = some b ∧
      b.conns[0]? = some c ∧ c.queue.wire = [129, 3, 0x68, 0x69] ∧
      (WireFrame.reader.feed [] [[129], [3, 0x68, 0x69]]).1 <+:
        c.queue.sent.map SendData.wireFrame := by
  obtain ⟨b, c, hrun, hconns, hwire, hsent⟩ := exists_run_relaying
  have hc : b.conns[0]? = some c := by rw [hconns]; rfl
  have hchunks : ([[129], [3, 0x68, 0x69]] : List Bytes).flatten = c.queue.wire := hwire.symm
  refine ⟨b, c, hrun, hc, hwire, ?_⟩
  exact (browser_reads writesOk_relaying hrun hc (by rw [hsent]; decide) hchunks).1

end Bot

end BoostIrc
