import BoostIrc.Assembly

/-!
# The Answer to a Close Frame

A close frame of a client has an empty body, or a body with a status in two bytes and a reason.
The handler takes the status and the reason out of it, `send_close` puts them into a body again,
and `onclose` gets them as well.

A frame without a status is taken for one with the status zero, so the answer to it has a body of
two bytes.

## Main results

* `closeStatus_encode`, `closePayload_encode`: taking a body apart and putting it together.
* `echoes_iff`: **when the answer has the body of the frame**.
-/

open Transition

namespace BoostIrc

/-- A status and a reason, as far as they fit into a close frame. -/
structure CloseBody where
  status : ℕ
  reason : Bytes
  status_lt : status < 2 ^ 16
  length_le : reason.length ≤ 123

namespace CloseBody

/-- The status, the upper byte first, and the reason. -/
def encode (b : CloseBody) : Bytes :=
  UInt8.ofNat (b.status / 256) :: UInt8.ofNat (b.status % 256) :: b.reason

/-- The bodies that the protocol allows: the empty one, and those with a status. -/
def legal (b : Option CloseBody) : Bytes :=
  b.elim [] encode

/-- A legal body of a close frame has at most 125 bytes. -/
theorem length_legal_le (b : Option CloseBody) : (legal b).length ≤ 125 := by
  cases b with
  | none => simp [legal]
  | some b =>
      have hreason := b.length_le
      simp only [legal, encode, Option.elim_some, List.length_cons]
      omega

/-- A legal body fits into a frame of at most 65535 bytes. -/
theorem length_legal_le_extended (b : Option CloseBody) : (legal b).length ≤ 65535 :=
  (length_legal_le b).trans (by decide)

/-- The status is taken out of the first two bytes of the body. -/
theorem closeStatus_encode (b : CloseBody) (finRsvOpcode : Byte) :
    WsConnection.closeStatus ⟨finRsvOpcode, b.encode.length, b.encode⟩ = b.status := by
  have hlt := b.status_lt
  have hhigh : (UInt8.ofNat (b.status / 256)).toNat = b.status / 256 := toNat_ofNat (by omega)
  have hlow : (UInt8.ofNat (b.status % 256)).toNat = b.status % 256 := toNat_ofNat (by omega)
  have hlen : 2 ≤ b.encode.length := by simp [encode]
  have hbytes : WsConnection.closeStatus ⟨finRsvOpcode, b.encode.length, b.encode⟩ =
      ((UInt8.ofNat (b.status / 256)).toNat <<< 8) + (UInt8.ofNat (b.status % 256)).toNat :=
    if_pos hlen
  rw [hbytes, hhigh, hlow, Nat.shiftLeft_eq]
  omega

/-- The reason is what is left of the body behind the status. -/
theorem closeReason_encode (b : CloseBody) (finRsvOpcode : Byte) :
    WsConnection.closeReason ⟨finRsvOpcode, b.encode.length, b.encode⟩ = b.reason := by
  have hlen : 2 ≤ b.encode.length := by simp [encode]
  exact if_pos hlen

/-- The status and the reason are put together again. -/
theorem closePayload_encode (b : CloseBody) :
    WsConnection.closePayload b.status b.reason = b.encode := by
  rw [WsConnection.closePayload, encode, Nat.shiftRight_eq_div_pow]

end CloseBody

namespace WsConnection

/-- From `c` to `c'` the close frame with the body `b` **is echoed**: one frame is sent, a close
frame with the same body, and `onclose`, if it is set, gets the status and the reason. -/
def Echoes (b : Option CloseBody) (endpoint : WsEndpoint) (c c' : WsConnection) : Prop :=
  c'.queue.sent = c.queue.sent ++ [SocketServerBase.send (CloseBody.legal b) (some 0) 136] ∧
    ∀ body ∈ b, endpoint.onclose = true →
      c'.calls = c.calls ++ [.connectionClose, .onclose body.status body.reason]

variable {server : WsServer}

/-- What the handler does with a close frame, on a connection that has not sent one. -/
theorem step_close {c : WsConnection} (hdefined : c.undefined = false) (hclosed : c.closed = false)
    (hmade : TimerMade server c) {i length : ℕ} {finRsvOpcode : Byte} {endpoint : WsEndpoint}
    (hop : c.pending[i]? = some (.readContent length finRsvOpcode endpoint))
    (hclose : finRsvOpcode &&& 0x0f = 8) {chunk : Bytes}
    (hlen : chunk.length = (4 + length) % 2 ^ 64) :
    let message := takeMessage (c.readBuffer ++ chunk) length finRsvOpcode
    ∃ c', step server c (.received i chunk) = some c' ∧
      c'.queue.sent =
        c.queue.sent ++ [closeFrame (closeStatus message) (closeReason message) (some 0)] ∧
      c'.calls =
        c.calls ++ closeCalls endpoint (closeStatus message) (closeReason message) := by
  intro message
  have hcancel : ∃ t, timerIdleCancel server
      ({ c.finish i chunk with readBuffer := (c.readBuffer ++ chunk).drop (4 + length) }.closing
        (closeStatus message) (closeReason message) (some 0)) = some t :=
    Option.isSome_iff_exists.mp (isSome_timerIdleCancel hmade)
  obtain ⟨c₁, hc₁⟩ := hcancel
  obtain ⟨t, -, rfl⟩ := eq_of_timerIdleCancel hc₁
  have hread : contentRead server (c.finish i chunk) length finRsvOpcode endpoint = some
      { ({ c.finish i chunk with readBuffer := (c.readBuffer ++ chunk).drop (4 + length) }.closing
          (closeStatus message) (closeReason message) (some 0)) with
        timerIdle := t
        member := false
        calls := c.calls ++ closeCalls endpoint (closeStatus message) (closeReason message) } := by
    rw [contentRead, if_pos hclose]
    simp only [sendClose_eq, Option.bind_eq_bind, Option.bind_some]
    rw [connectionClose]
    exact congrArg (Option.bind · _) hc₁
  have hhandle : handle server c (.received i chunk) =
      some (contentRead server (c.finish i chunk) length finRsvOpcode endpoint) := by
    simp [handle, hop, Pending.completes, hlen, complete]
  have hstep : step server c (.received i chunk) =
      contentRead server (c.finish i chunk) length finRsvOpcode endpoint := by
    rw [step, if_neg (by simp [hdefined]), hhandle, hread]
    rfl
  refine ⟨_, hstep.trans hread, ?_, rfl⟩
  simp [closing, WsConnection.finish, hclosed, Connection.post]

/-- **When the answer has the body of the frame**: exactly if the frame has a status. The frame
arrives on any connection that can be reached and has sent no close frame. -/
theorem echoes_iff {es : List Event} {c : WsConnection}
    (h : run (step server) WsServer.accepted es = some c) (hdefined : c.undefined = false)
    (hnone : ∀ d ∈ c.queue.sent, ¬ d.IsClose) {f : ClientFrame} (hclose : f.first &&& 0x0f = 8)
    {b : Option CloseBody} (hbody : f.payload = CloseBody.legal b) {i : ℕ} {endpoint : WsEndpoint}
    (hop : c.pending[i]? = some (afterHead (f.head.getD 0 0) (f.head.getD 1 0) endpoint))
    {chunk rest : Bytes} (hbuffer : c.readBuffer ++ chunk = f.content ++ rest)
    (hlen : chunk.length = f.content.length) :
    ∃ c', step server c (.received i chunk) = some c' ∧ (Echoes b endpoint c c' ↔ b.isSome) := by
  have hclosedOf := closed_of_run h
  have hclosed : c.closed = false := by
    rw [Bool.eq_false_iff]
    intro htrue
    obtain ⟨d, hd, hd'⟩ := hclosedOf.closed_iff.mp htrue
    exact hnone d hd hd'
  have hle : f.payload.length ≤ 125 := hbody ▸ CloseBody.length_legal_le b
  have hread : c.pending[i]? = some (.readContent f.payload.length f.first endpoint) := by
    refine hop.trans (congrArg some ((f.afterHead_head endpoint).trans ?_))
    exact if_pos (by omega)
  have hmade : TimerMade server c :=
    hclosedOf.made (hclosedOf.stage.connectionOpen_of_reads hread (.content _ _))
  have hbytes : chunk.length = (4 + f.payload.length) % 2 ^ 64 := by
    rw [hlen, f.length_content]
    omega
  obtain ⟨c', hs, hsent, hcalls⟩ :=
    step_close hdefined hclosed hmade hread hclose hbytes
  rw [hbuffer, f.takeMessage_append, hbody] at hsent hcalls
  refine ⟨c', hs, ?_⟩
  cases b with
  | none =>
      -- the answer to the empty body has the status zero
      have hne : ¬ Echoes none endpoint c c' := by
        rintro ⟨hecho, -⟩
        rw [hsent, List.append_cancel_left_eq] at hecho
        have hpayload := congrArg (List.map SendData.messageStream) hecho
        simp [closeFrame, SocketServerBase.send, closePayload, CloseBody.legal] at hpayload
      exact iff_of_false hne (by simp)
  | some body =>
      have hlegal : CloseBody.legal (some body) = body.encode := rfl
      rw [hlegal, body.closeStatus_encode, body.closeReason_encode] at hsent hcalls
      refine iff_of_true ⟨?_, ?_⟩ rfl
      · rw [hsent, closeFrame, body.closePayload_encode, hlegal]
      · intro body' hbody' honclose
        obtain rfl := Option.some.inj hbody'
        rw [hcalls, closeCalls, if_pos honclose]

/-- The status 1000 and the reason `bye`. -/
def byeBody : CloseBody where
  status := 1000
  reason := ascii "bye"
  status_lt := by decide
  length_le := by decide

/-- The mask of the two close frames below. -/
def closeMask : Bytes := [1, 2, 3, 4]

/-- The mask has four bytes. -/
theorem length_closeMask : closeMask.length = 4 := rfl

/-- A close frame of the client, with a legal body. -/
def clientClose (body : Option CloseBody) : ClientFrame where
  first := 0x88
  mask := closeMask
  payload := CloseBody.legal body
  mask_length := length_closeMask
  payload_length := CloseBody.length_legal_le_extended body

/-- A close frame with the body above. -/
def byeFrame : ClientFrame :=
  clientClose (some byeBody)

/-- The connection is opened, and the first two bytes of the frame are read. -/
def byeHead : List Event :=
  openedByClient ++ [.received 0 byeFrame.head]

/-- A close frame with a status and a reason is answered with the same ones. -/
theorem echoes_bye :
    ∃ c, run (step (Bot.websocket SocketServerBase.sampleSha1 fun _ _ => 0)) WsServer.accepted
        byeHead = some c ∧
      ∃ c', step (Bot.websocket SocketServerBase.sampleSha1 fun _ _ => 0) c
          (.received 0 byeFrame.content) = some c' ∧
        (Echoes (some byeBody) Bot.echo c c' ↔ (some byeBody).isSome) :=
  ⟨_, rfl, @echoes_iff (Bot.websocket SocketServerBase.sampleSha1 fun _ _ => 0) byeHead _ rfl rfl
    (List.forall_mem_nil _) byeFrame rfl (some byeBody) rfl 0 Bot.echo rfl byeFrame.content [] rfl
    rfl⟩

/-- A close frame without a body. -/
def bareFrame : ClientFrame :=
  clientClose none

/-- **A close frame without a body is not echoed**: the answer has a body of two zeros. The handler
leaves its status at zero when there are no two bytes to read it from, and writes this status into
the answer. -/
theorem not_echoes_bare :
    ∃ c c', run (step (Bot.websocket SocketServerBase.sampleSha1 fun _ _ => 0)) WsServer.accepted
        (openedByClient ++ [.received 0 bareFrame.head]) = some c ∧
      c.queue.sent = [] ∧
      step (Bot.websocket SocketServerBase.sampleSha1 fun _ _ => 0) c
          (.received 0 bareFrame.content) = some c' ∧
        c'.queue.sent.map SendData.messageStream = [[0, 0]] ∧
        ¬ Echoes none Bot.echo c c' := by
  refine ⟨_, _, rfl, rfl, rfl, rfl, ?_⟩
  rintro ⟨hecho, -⟩
  have hpayload := congrArg (List.map SendData.messageStream) hecho
  exact absurd hpayload (by decide)

end WsConnection

end BoostIrc
