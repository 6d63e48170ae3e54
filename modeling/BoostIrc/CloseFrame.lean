import BoostIrc.Lifecycle

/-!
# Nothing Follows a Close Frame

`send_close` sets the flag `closed` and sends a close frame, and does nothing once the flag is
set. `send` itself does not look at the flag, so whoever holds the connection can still send:
the read loop, which answers pings and messages until the client closes the connection, and the
sessions that relay a chat.

## Main results

* `Closed`: the invariant, with whether every step so far was quiet.
* `Closed.step`: what one step makes of it.
* `nothingAfterClose_iff`: **when nothing follows a close frame**.
-/

open Transition

namespace BoostIrc

/-- The frame is a close frame. -/
def SendData.IsClose (d : SendData) : Prop :=
  d.headerStream.headD 0 &&& 0x0f = 8

instance (d : SendData) : Decidable d.IsClose :=
  inferInstanceAs (Decidable (_ = _))

/-- **Nothing follows a close frame** in the frames sent, so there is at most one. -/
def NothingAfterClose (sent : List SendData) : Prop :=
  ∀ u d v, sent = u ++ d :: v → d.IsClose → v = []

/-! ### Frames that join others -/

/-- Without a close frame there is nothing to follow. -/
theorem nothingAfterClose_of_forall {sent : List SendData} (h : ∀ d ∈ sent, ¬ d.IsClose) :
    NothingAfterClose sent := by
  rintro u d v rfl hd
  exact absurd hd (h d (by simp))

/-- The first close frame may come last: behind frames that are none, any frame may follow. -/
theorem nothingAfterClose_concat {sent : List SendData} (h : ∀ d ∈ sent, ¬ d.IsClose)
    (d : SendData) : NothingAfterClose (sent ++ [d]) := by
  intro u d' v heq hd'
  cases v using List.reverseRecOn with
  | nil => rfl
  | append_singleton v x =>
      rw [← List.cons_append, ← List.append_assoc] at heq
      obtain ⟨rfl, -⟩ := List.append_inj' heq rfl
      exact absurd hd' (h d' (by simp))

/-- Behind a close frame nothing may come. -/
theorem nothingAfterClose_append_iff {sent : List SendData} (h : ∃ d ∈ sent, d.IsClose)
    (more : List SendData) :
    NothingAfterClose (sent ++ more) ↔ NothingAfterClose sent ∧ more = [] := by
  constructor
  · intro hnothing
    obtain ⟨d, hd, hclose⟩ := h
    obtain ⟨u, v, rfl⟩ := List.append_of_mem hd
    have hmore : v ++ more = [] := hnothing u d (v ++ more) (by simp) hclose
    obtain ⟨-, rfl⟩ := List.append_eq_nil_iff.mp hmore
    rw [List.append_nil] at hnothing
    exact ⟨hnothing, rfl⟩
  · rintro ⟨hnothing, rfl⟩
    rwa [List.append_nil]

/-! ### The frames of a step -/

/-- The lower four bits of a byte are its remainder modulo 16. -/
theorem toNat_and_fifteen (b : Byte) : (b &&& 0x0f).toNat = b.toNat % 16 := by
  rw [UInt8.toNat_and]
  exact Nat.and_two_pow_sub_one_eq_mod b.toNat 4

/-- The answer to a ping has the opcode of a pong, and is no close frame. -/
theorem opcode_pong {finRsvOpcode : Byte} (h : finRsvOpcode &&& 0x0f = 9) :
    (finRsvOpcode + 1) &&& 0x0f = 10 := by
  rw [← UInt8.toNat_inj, toNat_and_fifteen] at h ⊢
  rw [UInt8.toNat_add]
  simp only [UInt8.reduceToNat] at h ⊢
  omega

/-- The opcode of a frame is the one that it is sent with. -/
theorem isClose_send_iff (payload : Bytes) (callback : Option ℕ) (finRsvOpcode : Byte) :
    (SocketServerBase.send payload callback finRsvOpcode).IsClose ↔ finRsvOpcode &&& 0x0f = 8 :=
  Iff.rfl

namespace WsConnection

/-- What `send_close` posts is a close frame. -/
theorem isClose_closeFrame (status : ℕ) (reason : Bytes) (callback : Option ℕ) :
    (closeFrame status reason callback).IsClose :=
  (by decide : (136 : Byte) &&& 0x0f = 8)

/-- A text is no close frame. -/
theorem not_isClose_text (text : Bytes) : ¬ (SocketServerBase.send text (some 0)).IsClose :=
  (by decide : ¬ (129 : Byte) &&& 0x0f = 8)

/-- Texts are sent one after the other, behind what was sent before. -/
theorem sent_postTexts (q : Connection) (payloads : List Bytes) :
    (postTexts q payloads).sent =
      q.sent ++ payloads.map fun p => SocketServerBase.send p (some 0) := by
  induction payloads generalizing q with
  | nil => simp [postTexts]
  | cons p payloads ih =>
      rw [postTexts, List.foldl_cons, ← postTexts, ih]
      simp [Connection.post]

/-- The event makes the server send a frame that is no close frame: a text is relayed, a ping has
arrived, or a message that the endpoint answers. -/
def Answers (c : WsConnection) : Event → Prop
  | .relay _ => True
  | .received i chunk => ∃ length finRsvOpcode endpoint,
      c.pending[i]? = some (.readContent length finRsvOpcode endpoint) ∧
        (finRsvOpcode &&& 0x0f = 9 ∨
          finRsvOpcode &&& 0x0f ≠ 8 ∧ ∃ onmessage, endpoint.onmessage = some onmessage ∧
            onmessage (takeMessage (c.readBuffer ++ chunk) length finRsvOpcode) ≠ [])
  | _ => False

/-- The event sends no such frame behind a close frame. -/
def Quiet (c : WsConnection) (e : Event) : Prop :=
  c.closed = true → ¬ c.Answers e

/-- **The invariant**: the flag tells whether a close frame has been sent, and `P` whether nothing
has followed it. -/
structure Closed (server : WsServer) (c : WsConnection) (P : Prop) : Prop where
  stage : Stage c.pending c.member c.calls
  made : TimerKept server c
  closed_iff : c.closed = true ↔ ∃ d ∈ c.queue.sent, d.IsClose
  nothing : NothingAfterClose c.queue.sent ↔ P

variable {server : WsServer}

/-! ### What a step sends -/

/-- Frames are sent that are no close frames. -/
theorem Closed.answer {c c' : WsConnection} {P Q : Prop} (h : Closed server c P)
    (frames : List SendData) (hstage : Stage c'.pending c'.member c'.calls)
    (hmade : TimerKept server c') (hclosed : c'.closed = c.closed)
    (hsent : c'.queue.sent = c.queue.sent ++ frames) (hframes : ∀ d ∈ frames, ¬ d.IsClose)
    (hQ : Q ↔ (c.closed = true → frames = [])) : Closed server c' (P ∧ Q) := by
  refine ⟨hstage, hmade, ?_, ?_⟩
  · rw [hclosed, h.closed_iff, hsent]
    constructor
    · rintro ⟨d, hd, hclose⟩
      exact ⟨d, List.mem_append_left _ hd, hclose⟩
    · rintro ⟨d, hd, hclose⟩
      rcases List.mem_append.mp hd with hd | hd
      · exact ⟨d, hd, hclose⟩
      · exact absurd hclose (hframes d hd)
  · rw [hsent, hQ, ← h.nothing]
    by_cases hc : c.closed = true
    · rw [nothingAfterClose_append_iff (h.closed_iff.mp hc), imp_iff_right hc]
    · have hnone : ∀ d ∈ c.queue.sent, ¬ d.IsClose := by
        intro d hd hclose
        exact hc (h.closed_iff.mpr ⟨d, hd, hclose⟩)
      have hnone' : ∀ d ∈ c.queue.sent ++ frames, ¬ d.IsClose := by
        intro d hd
        rcases List.mem_append.mp hd with hd | hd
        · exact hnone d hd
        · exact hframes d hd
      exact iff_of_true (nothingAfterClose_of_forall hnone')
        ⟨nothingAfterClose_of_forall hnone, fun h => absurd h hc⟩

/-- A step that sends nothing keeps the record: what has been sent is what it was, and the condition
on the step holds. -/
theorem Closed.silent {c c' : WsConnection} {P Q : Prop} (h : Closed server c P)
    (hstage : Stage c'.pending c'.member c'.calls)
    (hmade : TimerKept server c') (hclosed : c'.closed = c.closed)
    (hsent : c'.queue.sent = c.queue.sent) (hQ : Q) : Closed server c' (P ∧ Q) :=
  h.answer [] hstage hmade hclosed (by rw [hsent, List.append_nil]) (by simp)
    (iff_of_true hQ fun _ => rfl)

/-- A close frame is sent, if none has been. -/
theorem Closed.closing {c c' : WsConnection} {P Q : Prop} (h : Closed server c P)
    {status : ℕ} {reason : Bytes} {callback : Option ℕ}
    (hstage : Stage c'.pending c'.member c'.calls) (hmade : TimerKept server c')
    (hclosed : c'.closed = true)
    (hqueue : c'.queue =
      if c.closed then c.queue else c.queue.post (closeFrame status reason callback))
    (hQ : Q) : Closed server c' (P ∧ Q) := by
  by_cases hc : c.closed = true
  · rw [if_pos hc] at hqueue
    exact h.silent hstage hmade (hclosed.trans hc.symm) (by rw [hqueue]) hQ
  · rw [if_neg hc] at hqueue
    have hnone : ∀ d ∈ c.queue.sent, ¬ d.IsClose := fun d hd hclose =>
      hc (h.closed_iff.mpr ⟨d, hd, hclose⟩)
    have hsent : c'.queue.sent = c.queue.sent ++ [closeFrame status reason callback] := by
      rw [hqueue]
      rfl
    refine ⟨hstage, hmade, ?_, ?_⟩
    · rw [hsent]
      exact iff_of_true hclosed ⟨_, by simp, isClose_closeFrame status reason callback⟩
    · rw [hsent, ← h.nothing]
      exact iff_of_true (nothingAfterClose_concat hnone _)
        ⟨nothingAfterClose_of_forall hnone, hQ⟩

/-- An event for which the server answers has a result, as the timer is there. -/
theorem Closed.not_answers {c : WsConnection} {P : Prop} (h : Closed server c P) {e : Event}
    (hnone : handle server c e = some none) : ¬ c.Answers e := by
  intro hanswers
  cases e with
  | relay text =>
      obtain ⟨hopen, hsend⟩ := Option.ite_none_right_eq_some.mp hnone
      have hmade := h.made (h.stage.connectionOpen_of_onopen hopen)
      have hsome := isSome_send hmade text (some 0) 129
      rw [Option.some.inj hsend] at hsome
      exact absurd hsome (by simp)
  | received i chunk =>
      obtain ⟨length, finRsvOpcode, endpoint, hop, -⟩ := hanswers
      have hmade := h.made (h.stage.connectionOpen_of_reads hop (.content length finRsvOpcode))
      rw [handle, hop] at hnone
      obtain ⟨-, hread⟩ := Option.ite_none_right_eq_some.mp hnone
      have hsome := isSome_contentRead (c := c.finish i chunk) hmade length finRsvOpcode endpoint
      rw [← complete, Option.some.inj hread] at hsome
      exact absurd hsome (by simp)
  | written i => exact hanswers
  | failed i => exact hanswers
  | timerExpires => exact hanswers
  | idleTimeout => exact hanswers
  | sendClose status reason => exact hanswers
  | queue e => exact hanswers

/-- Which messages are answered: a ping, and a message for which the handler of the endpoint has a
text. A close frame is answered by `send_close`, which is sent once at most. -/
theorem answers_received_iff {c : WsConnection} {i length : ℕ} {chunk : Bytes}
    {finRsvOpcode : Byte} {endpoint : WsEndpoint}
    (hop : c.pending[i]? = some (.readContent length finRsvOpcode endpoint)) :
    c.Answers (.received i chunk) ↔
      finRsvOpcode &&& 0x0f = 9 ∨
        finRsvOpcode &&& 0x0f ≠ 8 ∧ ∃ onmessage, endpoint.onmessage = some onmessage ∧
          onmessage (takeMessage (c.readBuffer ++ chunk) length finRsvOpcode) ≠ [] := by
  constructor
  · rintro ⟨length', finRsvOpcode', endpoint', hop', h⟩
    cases hop.symm.trans hop'
    exact h
  · exact fun h => ⟨length, finRsvOpcode, endpoint, hop, h⟩

/-- **One step** keeps the record: nothing has followed the close frame exactly if no step since
then has sent anything. -/
theorem Closed.step {c c' : WsConnection} {e : Event} {P : Prop} (h : Closed server c P)
    (hstep : Step server c e c') : Closed server c' (P ∧ c.Quiet e) := by
  have hstage := h.stage.step hstep
  have hmade := h.made.step hstep
  -- a read other than that of a payload answers nothing
  have hother : ∀ {i : ℕ} {chunk : Bytes} {op : Pending}, c.pending[i]? = some op →
      (∀ length finRsvOpcode endpoint, op ≠ .readContent length finRsvOpcode endpoint) →
        c.Quiet (.received i chunk) := by
    rintro i chunk op hop hne - ⟨length, finRsvOpcode, endpoint, hop', -⟩
    exact hne _ _ _ (Option.some.inj (hop.symm.trans hop'))
  cases hstep with
  | undefined hnone => exact h.silent hstage hmade rfl rfl fun _ => h.not_answers hnone
  | queue hq hsend =>
      exact h.silent hstage hmade rfl (Connection.sent_of_step hsend hq) fun _ => id
  | timerExpires ht => exact h.silent hstage hmade rfl rfl fun _ => id
  | idleTimeout ht => exact h.closing hstage hmade rfl rfl fun _ => id
  | sendClose hopen => exact h.closing hstage hmade rfl rfl fun _ => id
  | @relay text hopen t ht =>
      refine h.answer [SocketServerBase.send text (some 0)] hstage hmade rfl
        (sent_postTexts c.queue [text]) ?_ ?_
      · intro d hd
        rw [List.mem_singleton.mp hd]
        exact not_isClose_text text
      · exact forall_congr' fun _ => ⟨fun h => absurd trivial h, fun h => absurd h (by simp)⟩
  | handshakeFailed hop => exact h.silent hstage hmade rfl rfl fun _ => id
  | handshakeDropped hop rest =>
      exact h.silent hstage hmade rfl rfl (hother hop nofun)
  | handshakeRead hop rest endpoint =>
      exact h.silent hstage hmade rfl rfl (hother hop nofun)
  | opened hop ht => exact h.silent hstage hmade rfl rfl fun _ => id
  | error hop hendpoint ht => exact h.silent hstage hmade rfl rfl fun _ => id
  | again hop => exact h.silent hstage hmade rfl rfl (hother hop nofun)
  | unmasked hop hlen hmask ht =>
      exact h.closing hstage hmade rfl rfl (hother hop nofun)
  | head hop hlen hmask => exact h.silent hstage hmade rfl rfl (hother hop nofun)
  | length hop hlen => exact h.silent hstage hmade rfl rfl (hother hop nofun)
  | close hop hlen hclose ht hmessage =>
      refine h.closing hstage hmade rfl rfl fun _ => ?_
      simp [answers_received_iff hop, hclose]
  | @ping i length chunk finRsvOpcode endpoint hop hlen hping t ht =>
      refine h.answer [SocketServerBase.send [] none (finRsvOpcode + 1)] hstage hmade
        rfl rfl ?_ ?_
      · intro d hd
        rw [List.mem_singleton.mp hd, isClose_send_iff, opcode_pong hping]
        decide
      · simp [Quiet, answers_received_iff hop, hping]
  | @message i length chunk finRsvOpcode endpoint hop hlen hclose hping t ht onmessage hset
      message hmessage =>
      refine h.answer
        ((onmessage message).map fun p => SocketServerBase.send p (some 0)) hstage hmade
          rfl (sent_postTexts c.queue _) ?_ ?_
      · intro d hd
        obtain ⟨p, -, rfl⟩ := List.mem_map.mp hd
        exact not_isClose_text p
      · simp [Quiet, answers_received_iff hop, hping, hclose, hset, hmessage]
  | ignored hop hlen hclose hping hset =>
      refine h.silent hstage hmade rfl rfl fun _ => ?_
      simp [answers_received_iff hop, hping, hset]

/-- The invariant holds of every connection that can be reached. -/
theorem closed_of_run {es : List Event} {c : WsConnection}
    (h : run (step server) WsServer.accepted es = some c) :
    Closed server c (Along (step server) Quiet WsServer.accepted es) := by
  have hinit : Closed server WsServer.accepted True :=
    ⟨.handshake, fun hopen => absurd hopen (by simp [WsServer.accepted]),
      by simp [WsServer.accepted], iff_of_true (nothingAfterClose_of_forall (by simp
        [WsServer.accepted])) trivial⟩
  have hrun := run_invariant_along (I := Closed server) (C := Quiet)
    (fun c P e c' hc _ hs => hc.step (step_sound hs).2) hinit
    (along_of_forall (fun _ _ => trivial) _) h
  rwa [true_and] at hrun

/-- **When nothing follows a close frame**: in the runs in which nothing is answered or relayed
once the flag is set. -/
theorem nothingAfterClose_iff {es : List Event} {c : WsConnection}
    (h : run (step server) WsServer.accepted es = some c) :
    NothingAfterClose c.queue.sent ↔ Along (step server) Quiet WsServer.accepted es :=
  (closed_of_run h).nothing

/-- The connection of a channel is opened and closed by the client. -/
def closedByClient : List Event :=
  [.received 0 (ascii "GET /channel/abc HTTP/1.1\r\nsec-websocket-key: x\r\n\r\n"), .written 0,
    .received 0 [0x88, 0x80], .received 0 [0, 0, 0, 0]]

/-- The session goes on relaying. -/
def relayedAfterClose : List Event :=
  closedByClient ++ [.relay (ascii "hi")]

/-- A client closes the connection: nothing follows the close frame that answers it. -/
theorem nothingAfterClose_closedByClient :
    ∃ c,
      run (step (Bot.websocket SocketServerBase.sampleSha1 fun _ _ => 0)) WsServer.accepted
          closedByClient = some c ∧
        (NothingAfterClose c.queue.sent ↔
          Along (step (Bot.websocket SocketServerBase.sampleSha1 fun _ _ => 0)) Quiet
            WsServer.accepted closedByClient) := by
  have hrun : (run (step (Bot.websocket SocketServerBase.sampleSha1 fun _ _ => 0))
      WsServer.accepted closedByClient).isSome = true := by
    decide +kernel
  obtain ⟨c, h⟩ := Option.isSome_iff_exists.mp hrun
  exact ⟨c, h, nothingAfterClose_iff h⟩

/-- A text is relayed behind the close frame, and follows it on the wire. -/
theorem not_nothingAfterClose_relayed :
    ∃ c,
      run (step (Bot.websocket SocketServerBase.sampleSha1 fun _ _ => 0)) WsServer.accepted
          relayedAfterClose = some c ∧
        ¬ NothingAfterClose c.queue.sent := by
  have hsent : (run (step (Bot.websocket SocketServerBase.sampleSha1 fun _ _ => 0))
      WsServer.accepted relayedAfterClose).map (fun c => c.queue.sent) =
        some [closeFrame 0 [] (some 0), SocketServerBase.send (ascii "hi") (some 0)] := by
    decide +kernel
  obtain ⟨c, h, hc⟩ := Option.map_eq_some_iff.mp hsent
  refine ⟨c, h, fun hnothing => ?_⟩
  exact absurd (hnothing [] _ _ hc (isClose_closeFrame 0 [] (some 0))) (by simp)

end WsConnection

end BoostIrc
