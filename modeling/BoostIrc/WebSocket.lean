import BoostIrc.Handshake
import BoostIrc.SendQueue

/-!
# A Connection of the WebSocket Server

After the handshake a connection is a chain of reads: the first two bytes of a frame, the bytes
of a longer length, if there is one, then the mask and the payload. The handler of each read
starts the next one or ends the chain with `connection_close` or `connection_error`. The idle
timer and the sessions that relay a chat use the connection as well.

The state (`WsConnection`) has the reads and writes under way (`pending`), the buffer of the
reads, and what was called on the way (`calls`); the frames go out through the send queue
(`BoostIrc.SendQueue`). Handlers run one at a time, as the server has one thread. A handler that
does not return, or goes through the pointer to a timer that was never made, has no result, and
the connection takes no further step (`undefined`).

Of the handlers of an endpoint the model has what they send back on the connection; those other
than `onmessage` send nothing.

## Main results

* `WsConnection.Step`: **what a step can do**, one clause for each way through a handler.
* `WsConnection.step_sound`: every step of the model is one of these.
-/

open Transition

namespace BoostIrc

/-- A message of a client: the first byte of its frame and its payload. -/
structure WsMessage where
  finRsvOpcode : Byte
  length : ℕ
  streambuf : Bytes
  deriving DecidableEq, Repr

/-- The handlers of an endpoint: which of them are set, whether `onopen` makes a client that holds
the connection, and the texts that `onmessage` sends. -/
structure WsEndpoint where
  onopen : Bool
  makesClient : Bool := false
  onmessage : Option (WsMessage → List Bytes)
  onerror : Bool
  onclose : Bool

/-- What the server is given: the endpoints with their expressions, the timeout, SHA-1, and what
a left shift gives, as a `size_t`, when the language does not define it. -/
structure WsServer where
  sha1 : Bytes → Vector UInt32 5
  optEndpoint : List ((Bytes → Option (List Bytes)) × WsEndpoint)
  timeoutIdle : ℕ
  undefinedShift : Byte → ℕ → ℕ

/-- A read or a write of a connection that is under way, with what its handler has captured. -/
inductive Pending where
  | readHandshake
  | writeHandshake (endpoint : WsEndpoint)
  | readHead (endpoint : WsEndpoint)
  | readLength (numBytes : ℕ) (finRsvOpcode : Byte) (endpoint : WsEndpoint)
  | readContent (length : ℕ) (finRsvOpcode : Byte) (endpoint : WsEndpoint)

/-- The chunk completes the read: it has the number of bytes that the read waits for. The read of
the handshake waits for a delimiter instead, and that of the first two bytes of a frame may end
with none. -/
def Pending.completes (chunk : Bytes) : Pending → Bool
  | .readHandshake => crlf ++ crlf <:+: chunk
  | .writeHandshake _ => false
  | .readHead _ => chunk.length = 0 ∨ chunk.length = 2
  | .readLength numBytes _ _ => chunk.length = numBytes
  | .readContent length _ _ => chunk.length = (4 + length) % 2 ^ 64

/-- The endpoint of an operation, once it is known. -/
def Pending.endpoint : Pending → Option WsEndpoint
  | .readHandshake => none
  | .writeHandshake endpoint => some endpoint
  | .readHead endpoint => some endpoint
  | .readLength _ _ endpoint => some endpoint
  | .readContent _ _ endpoint => some endpoint

/-- A call of one of the three functions between which a connection is open, or of a handler of
the endpoint. The status of `onclose` is an `int` in the source: it is 1002, or read from the two
bytes of a close frame, so that it is never negative. -/
inductive WsCall where
  | connectionOpen
  | connectionClose
  | connectionError
  | onopen
  | onmessage (message : WsMessage)
  | onclose (status : ℕ) (reason : Bytes)
  | onerror
  deriving DecidableEq, Repr

/-- A `deadline_timer`: the waits that are under way, and those that have expired but whose
handlers have yet to run. -/
structure TimerIdle where
  waiting : ℕ
  expired : ℕ
  deriving DecidableEq, Repr

/-- The send `d` is posted to the strand. -/
def Connection.post (c : Connection) (d : SendData) : Connection :=
  { c with sent := c.sent ++ [d], posted := c.posted ++ [d] }

/-- The state of a connection. `member` tells whether it is in the set of its endpoint. -/
structure WsConnection where
  pending : List Pending := []
  readBuffer : Bytes := []
  closed : Bool := false
  timerIdle : Option TimerIdle := none
  member : Bool := false
  calls : List WsCall := []
  queue : Connection := {}
  undefined : Bool := false

namespace WsConnection

variable (server : WsServer)

/-! ### The idle timer -/

/-- `timer_idle_init`. -/
def timerIdleInit (c : WsConnection) : WsConnection :=
  if 0 < server.timeoutIdle then { c with timerIdle := some ⟨1, 0⟩ } else c

/-- `timer_idle_reset`: the waits under way are cancelled, and if there were any, a new one is
started. -/
def timerIdleReset (c : WsConnection) : Option WsConnection :=
  if 0 < server.timeoutIdle then
    c.timerIdle.map fun t =>
      if 0 < t.waiting then { c with timerIdle := some { t with waiting := 1 } } else c
  else
    some c

/-- `timer_idle_cancel`. -/
def timerIdleCancel (c : WsConnection) : Option WsConnection :=
  if 0 < server.timeoutIdle then
    c.timerIdle.map fun t => { c with timerIdle := some { t with waiting := 0 } }
  else
    some c

/-! ### Sending -/

/-- `SocketServerBase::send`. -/
def send (c : WsConnection) (messageStream : Bytes) (callback : Option ℕ)
    (finRsvOpcode : Byte := 129) : Option WsConnection :=
  (if finRsvOpcode ≠ 136 then timerIdleReset server c else some c).map fun c =>
    { c with queue := c.queue.post (SocketServerBase.send messageStream callback finRsvOpcode) }

/-- The payload of a close frame. The status is an `int` in the source: what the server passes is
1000, 1002, or the status of a close frame, and none of them is negative, so that `status>>8` and
`status%256` are those of a natural number. -/
def closePayload (status : ℕ) (reason : Bytes) : Bytes :=
  UInt8.ofNat (status >>> 8) :: UInt8.ofNat (status % 256) :: reason

/-- `SocketServerBase::send_close`, with a status that is not negative. -/
def sendClose (c : WsConnection) (status : ℕ) (reason : Bytes) (callback : Option ℕ) :
    Option WsConnection :=
  if c.closed then
    some c
  else
    send server { c with closed := true } (closePayload status reason) callback 136

/-- The sends of a handler, one after the other. -/
def sendAll (c : WsConnection) (payloads : List Bytes) : Option WsConnection :=
  payloads.foldlM (fun c p => send server c p (some 0)) c

/-! ### Opening and closing -/

/-- What `connection_open` calls. -/
def openCalls (endpoint : WsEndpoint) : List WsCall :=
  .connectionOpen :: if endpoint.onopen then [.onopen] else []

/-- What `connection_close` calls. -/
def closeCalls (endpoint : WsEndpoint) (status : ℕ) (reason : Bytes) : List WsCall :=
  .connectionClose :: if endpoint.onclose then [.onclose status reason] else []

/-- What `connection_error` calls. -/
def errorCalls (endpoint : WsEndpoint) : List WsCall :=
  .connectionError :: if endpoint.onerror then [.onerror] else []

/-- `connection_open`. -/
def connectionOpen (c : WsConnection) (endpoint : WsEndpoint) : WsConnection :=
  { timerIdleInit server c with member := true, calls := c.calls ++ openCalls endpoint }

/-- `connection_close`. -/
def connectionClose (c : WsConnection) (endpoint : WsEndpoint) (status : ℕ) (reason : Bytes) :
    Option WsConnection := do
  let c ← timerIdleCancel server c
  pure { c with member := false, calls := c.calls ++ closeCalls endpoint status reason }

/-- `connection_error`. -/
def connectionError (c : WsConnection) (endpoint : WsEndpoint) : Option WsConnection := do
  let c ← timerIdleCancel server c
  pure { c with member := false, calls := c.calls ++ errorCalls endpoint }

/-! ### Reading -/

/-- An operation is started. -/
def start (c : WsConnection) (op : Pending) : WsConnection :=
  { c with pending := c.pending ++ [op] }

/-- `length_bytes[c]<<n`: the byte is promoted to `int`, which has 32 bits. -/
def shiftLeft (b : Byte) (n : ℕ) : ℕ :=
  if n < 32 ∧ b.toNat * 2 ^ n < 2 ^ 31 then b.toNat <<< n else server.undefinedShift b n

/-- The length in the bytes that follow the first two. -/
def decodeLength (lengthBytes : Bytes) : ℕ :=
  (lengthBytes.zipIdx.map fun x =>
    shiftLeft server x.1 (8 * (lengthBytes.length - 1 - x.2))).sum % 2 ^ 64

/-- `stream.read(p, n)` into a vector of zeros. -/
def readBytes (buffer : Bytes) (n : ℕ) : Bytes :=
  (List.range n).map fun c => buffer.getD c 0

/-- The payload without its mask. What cannot be read any more is read as the end of the stream,
all of whose bits are set. -/
def unmask (raw mask : Bytes) (length : ℕ) : Bytes :=
  (List.range length).map fun c => raw.getD c 0xFF ^^^ mask.getD (c % 4) 0

/-- The read that follows the first two bytes of a masked frame. -/
def afterHead (finRsvOpcode second : Byte) (endpoint : WsEndpoint) : Pending :=
  let length := (second &&& 127).toNat
  if length = 126 then
    .readLength 2 finRsvOpcode endpoint
  else if length = 127 then
    .readLength 8 finRsvOpcode endpoint
  else
    .readContent length finRsvOpcode endpoint

/-- The handler in `read_message`. -/
def headRead (c : WsConnection) (endpoint : WsEndpoint) (bytesTransferred : ℕ) :
    Option WsConnection :=
  if bytesTransferred = 0 then
    some (c.start (.readHead endpoint))
  else
    let firstBytes := readBytes c.readBuffer 2
    let c := { c with readBuffer := c.readBuffer.drop 2 }
    if firstBytes.getD 1 0 < 128 then do
      let reason := ascii "message from client not masked"
      let c ← sendClose server c 1002 reason (some 0)
      connectionClose server c endpoint 1002 reason
    else
      some (c.start (afterHead (firstBytes.getD 0 0) (firstBytes.getD 1 0) endpoint))

/-- The handlers in `read_message` of the reads of a longer length. -/
def lengthRead (c : WsConnection) (numBytes : ℕ) (finRsvOpcode : Byte) (endpoint : WsEndpoint) :
    WsConnection :=
  let length := decodeLength server (readBytes c.readBuffer numBytes)
  { c with readBuffer := c.readBuffer.drop numBytes }.start
    (.readContent length finRsvOpcode endpoint)

/-- The message that the handler of `read_message_content` takes from the buffer. -/
def takeMessage (buffer : Bytes) (length : ℕ) (finRsvOpcode : Byte) : WsMessage where
  finRsvOpcode := finRsvOpcode
  length := length
  streambuf := unmask (buffer.drop 4) (readBytes buffer 4) length

/-- The status in a close frame. -/
def closeStatus (message : WsMessage) : ℕ :=
  if 2 ≤ message.length then
    ((message.streambuf.getD 0 0).toNat <<< 8) + (message.streambuf.getD 1 0).toNat
  else
    0

/-- The reason in a close frame: what is left of the message. -/
def closeReason (message : WsMessage) : Bytes :=
  if 2 ≤ message.length then message.streambuf.drop 2 else message.streambuf

/-- The handler in `read_message_content`. -/
def contentRead (c : WsConnection) (length : ℕ) (finRsvOpcode : Byte) (endpoint : WsEndpoint) :
    Option WsConnection :=
  let message := takeMessage c.readBuffer length finRsvOpcode
  let c := { c with readBuffer := c.readBuffer.drop (4 + length) }
  if finRsvOpcode &&& 0x0f = 8 then do
    let c ← sendClose server c (closeStatus message) (closeReason message) (some 0)
    connectionClose server c endpoint (closeStatus message) (closeReason message)
  else if finRsvOpcode &&& 0x0f = 9 then do
    let c ← send server c [] none (finRsvOpcode + 1)
    pure (c.start (.readHead endpoint))
  else
    match endpoint.onmessage with
    | none => some (c.start (.readHead endpoint))
    | some onmessage => do
        let c ← timerIdleReset server c
        let c ← sendAll server { c with calls := c.calls ++ [.onmessage message] }
          (onmessage message)
        pure (c.start (.readHead endpoint))

/-- The handler in `read_handshake`. -/
def handshakeRead (c : WsConnection) : Option WsConnection :=
  match SocketServerBase.readHandshake server.sha1 server.optEndpoint c.readBuffer with
  | some (.ok (none, rest)) => some { c with readBuffer := rest }
  | some (.ok (some (_, _, endpoint), rest)) =>
      some ({ c with readBuffer := rest }.start (.writeHandshake endpoint))
  | _ => none

/-- The handler in `write_handshake`. -/
def handshakeWritten (c : WsConnection) (endpoint : WsEndpoint) : WsConnection :=
  (connectionOpen server c endpoint).start (.readHead endpoint)

/-- The handler of a read that has succeeded. -/
def complete (c : WsConnection) (bytesTransferred : ℕ) : Pending → Option WsConnection
  | .readHandshake => handshakeRead server c
  | .writeHandshake _ => none
  | .readHead endpoint => headRead server c endpoint bytesTransferred
  | .readLength numBytes finRsvOpcode endpoint =>
      some (lengthRead server c numBytes finRsvOpcode endpoint)
  | .readContent length finRsvOpcode endpoint => contentRead server c length finRsvOpcode endpoint

/-- The handler of a read or a write that has failed. -/
def fail (c : WsConnection) (op : Pending) : Option WsConnection :=
  match op.endpoint with
  | none => some c
  | some endpoint => connectionError server c endpoint

/-! ### The events -/

/-- What can happen: a read completes, having transferred the chunk; the answer to the handshake
has been written; an operation fails; the idle timer expires; its handler runs; a session that
holds the connection relays a text; something that holds it calls `send_close`; the send queue
takes a step. -/
inductive Event where
  | received (i : ℕ) (chunk : Bytes)
  | written (i : ℕ)
  | failed (i : ℕ)
  | timerExpires
  | idleTimeout
  | relay (text : Bytes)
  | sendClose (status : ℕ) (reason : Bytes)
  | queue (e : Connection.Event)

/-- The operation `i` is over. -/
def finish (c : WsConnection) (i : ℕ) (chunk : Bytes) : WsConnection :=
  { c with pending := c.pending.eraseIdx i, readBuffer := c.readBuffer ++ chunk }

/-- The result of an event, if it can happen: the state that the handler leaves, if it leaves
any. -/
def handle (c : WsConnection) : Event → Option (Option WsConnection)
  | .received i chunk =>
      match c.pending[i]? with
      | none => none
      | some op =>
          if op.completes chunk then
            some (complete server (c.finish i chunk) chunk.length op)
          else
            none
  | .written i =>
      match c.pending[i]? with
      | some (.writeHandshake endpoint) =>
          some (some (handshakeWritten server (c.finish i []) endpoint))
      | _ => none
  | .failed i =>
      match c.pending[i]? with
      | none => none
      | some op => some (fail server (c.finish i []) op)
  | .timerExpires =>
      match c.timerIdle with
      | some ⟨n + 1, expired⟩ =>
          some (some { c with timerIdle := some ⟨0, expired + (n + 1)⟩ })
      | _ => none
  | .idleTimeout =>
      match c.timerIdle with
      | some ⟨waiting, n + 1⟩ =>
          some (sendClose server { c with timerIdle := some ⟨waiting, n⟩ } 1000
            (ascii "idle timeout") none)
      | _ => none
  | .relay text => if .onopen ∈ c.calls then some (send server c text (some 0)) else none
  | .sendClose status reason =>
      if .onopen ∈ c.calls then some (sendClose server c status reason none) else none
  | .queue (.send _) => none
  | .queue e => (Connection.step c.queue e).map fun q => some { c with queue := q }

/-- One step. -/
def step (c : WsConnection) (e : Event) : Option WsConnection :=
  if c.undefined then
    none
  else
    (handle server c e).map fun r => r.getD { c with undefined := true }

/-! ### What a step can do -/

/-- The frame that `send` posts. -/
def closeFrame (status : ℕ) (reason : Bytes) (callback : Option ℕ) : SendData :=
  SocketServerBase.send (closePayload status reason) callback 136

/-- What `send_close` does. -/
def closing (c : WsConnection) (status : ℕ) (reason : Bytes) (callback : Option ℕ) :
    WsConnection :=
  { c with
    closed := true
    queue := if c.closed then c.queue else c.queue.post (closeFrame status reason callback) }

/-- The payloads are sent as texts. -/
def postTexts (q : Connection) (payloads : List Bytes) : Connection :=
  payloads.foldl (fun q p => q.post (SocketServerBase.send p (some 0))) q

/-- **What a step can do**, up to the waits of the idle timer, which is made only when the
connection is opened. -/
inductive Step (c : WsConnection) : Event → WsConnection → Prop
  | undefined {e : Event} (h : handle server c e = some none) :
      Step c e { c with undefined := true }
  | queue {e : Connection.Event} {q : Connection} (h : Connection.step c.queue e = some q)
      (hsend : ∀ d, e ≠ .send d) : Step c (.queue e) { c with queue := q }
  | timerExpires {t : Option TimerIdle} (ht : t.isSome = c.timerIdle.isSome) :
      Step c .timerExpires { c with timerIdle := t }
  | idleTimeout {t : Option TimerIdle} (ht : t.isSome = c.timerIdle.isSome) :
      Step c .idleTimeout
        ({ c with timerIdle := t }.closing 1000 (ascii "idle timeout") none)
  | sendClose {status : ℕ} {reason : Bytes} (h : .onopen ∈ c.calls) :
      Step c (.sendClose status reason) (c.closing status reason none)
  | relay {text : Bytes} (h : .onopen ∈ c.calls) {t : Option TimerIdle}
      (ht : t.isSome = c.timerIdle.isSome) :
      Step c (.relay text)
        { c with timerIdle := t, queue := postTexts c.queue [text] }
  | handshakeFailed {i : ℕ} (hop : c.pending[i]? = some .readHandshake) :
      Step c (.failed i) (c.finish i [])
  | handshakeDropped {i : ℕ} {chunk : Bytes} (hop : c.pending[i]? = some .readHandshake)
      (rest : Bytes) : Step c (.received i chunk) { c.finish i chunk with readBuffer := rest }
  | handshakeRead {i : ℕ} {chunk : Bytes} (hop : c.pending[i]? = some .readHandshake)
      (rest : Bytes) (endpoint : WsEndpoint) :
      Step c (.received i chunk)
        ({ c.finish i chunk with readBuffer := rest }.start (.writeHandshake endpoint))
  | opened {i : ℕ} {endpoint : WsEndpoint}
      (hop : c.pending[i]? = some (.writeHandshake endpoint)) {t : Option TimerIdle}
      (ht : 0 < server.timeoutIdle → t.isSome) :
      Step c (.written i)
        ({ c.finish i [] with
          timerIdle := t
          member := true
          calls := c.calls ++ openCalls endpoint }.start (.readHead endpoint))
  | error {i : ℕ} {op : Pending} {endpoint : WsEndpoint} (hop : c.pending[i]? = some op)
      (hendpoint : op.endpoint = some endpoint) {t : Option TimerIdle}
      (ht : t.isSome = c.timerIdle.isSome) :
      Step c (.failed i)
        { c.finish i [] with
          timerIdle := t
          member := false
          calls := c.calls ++ errorCalls endpoint }
  | again {i : ℕ} {endpoint : WsEndpoint} (hop : c.pending[i]? = some (.readHead endpoint)) :
      Step c (.received i []) ((c.finish i []).start (.readHead endpoint))
  | unmasked {i : ℕ} {chunk : Bytes} {endpoint : WsEndpoint}
      (hop : c.pending[i]? = some (.readHead endpoint)) (hlen : chunk.length = 2)
      (hmask : (readBytes (c.readBuffer ++ chunk) 2).getD 1 0 < 128) {t : Option TimerIdle}
      (ht : t.isSome = c.timerIdle.isSome) :
      Step c (.received i chunk)
        ({ c.finish i chunk with
          readBuffer := (c.readBuffer ++ chunk).drop 2
          timerIdle := t
          member := false
          calls := c.calls ++
            closeCalls endpoint 1002 (ascii "message from client not masked") }.closing
              1002 (ascii "message from client not masked") (some 0))
  | head {i : ℕ} {chunk : Bytes} {endpoint : WsEndpoint}
      (hop : c.pending[i]? = some (.readHead endpoint)) (hlen : chunk.length = 2)
      (hmask : ¬ (readBytes (c.readBuffer ++ chunk) 2).getD 1 0 < 128) :
      Step c (.received i chunk)
        ({ c.finish i chunk with readBuffer := (c.readBuffer ++ chunk).drop 2 }.start
          (afterHead ((readBytes (c.readBuffer ++ chunk) 2).getD 0 0)
            ((readBytes (c.readBuffer ++ chunk) 2).getD 1 0) endpoint))
  | length {i numBytes : ℕ} {chunk : Bytes} {finRsvOpcode : Byte} {endpoint : WsEndpoint}
      (hop : c.pending[i]? = some (.readLength numBytes finRsvOpcode endpoint))
      (hlen : chunk.length = numBytes) :
      Step c (.received i chunk)
        (lengthRead server (c.finish i chunk) numBytes finRsvOpcode endpoint)
  | close {i length : ℕ} {chunk : Bytes} {finRsvOpcode : Byte} {endpoint : WsEndpoint}
      (hop : c.pending[i]? = some (.readContent length finRsvOpcode endpoint))
      (hlen : chunk.length = (4 + length) % 2 ^ 64) (hclose : finRsvOpcode &&& 0x0f = 8)
      {t : Option TimerIdle} (ht : t.isSome = c.timerIdle.isSome) {message : WsMessage}
      (hmessage : message = takeMessage (c.readBuffer ++ chunk) length finRsvOpcode) :
      Step c (.received i chunk)
        ({ c.finish i chunk with
          readBuffer := (c.readBuffer ++ chunk).drop (4 + length)
          timerIdle := t
          member := false
          calls := c.calls ++
            closeCalls endpoint (closeStatus message) (closeReason message) }.closing
              (closeStatus message) (closeReason message) (some 0))
  | ping {i length : ℕ} {chunk : Bytes} {finRsvOpcode : Byte} {endpoint : WsEndpoint}
      (hop : c.pending[i]? = some (.readContent length finRsvOpcode endpoint))
      (hlen : chunk.length = (4 + length) % 2 ^ 64) (hping : finRsvOpcode &&& 0x0f = 9)
      {t : Option TimerIdle} (ht : t.isSome = c.timerIdle.isSome) :
      Step c (.received i chunk)
        ({ c.finish i chunk with
          readBuffer := (c.readBuffer ++ chunk).drop (4 + length)
          timerIdle := t
          queue := c.queue.post
            (SocketServerBase.send [] none (finRsvOpcode + 1)) }.start (.readHead endpoint))
  | message {i length : ℕ} {chunk : Bytes} {finRsvOpcode : Byte} {endpoint : WsEndpoint}
      (hop : c.pending[i]? = some (.readContent length finRsvOpcode endpoint))
      (hlen : chunk.length = (4 + length) % 2 ^ 64) (hclose : finRsvOpcode &&& 0x0f ≠ 8)
      (hping : finRsvOpcode &&& 0x0f ≠ 9) {t : Option TimerIdle}
      (ht : t.isSome = c.timerIdle.isSome)
      {onmessage : WsMessage → List Bytes} (hset : endpoint.onmessage = some onmessage)
      {message : WsMessage}
      (hmessage : message = takeMessage (c.readBuffer ++ chunk) length finRsvOpcode) :
      Step c (.received i chunk)
        ({ c.finish i chunk with
          readBuffer := (c.readBuffer ++ chunk).drop (4 + length)
          timerIdle := t
          calls := c.calls ++ [WsCall.onmessage message]
          queue := postTexts c.queue (onmessage message) }.start (.readHead endpoint))
  | ignored {i length : ℕ} {chunk : Bytes} {finRsvOpcode : Byte} {endpoint : WsEndpoint}
      (hop : c.pending[i]? = some (.readContent length finRsvOpcode endpoint))
      (hlen : chunk.length = (4 + length) % 2 ^ 64) (hclose : finRsvOpcode &&& 0x0f ≠ 8)
      (hping : finRsvOpcode &&& 0x0f ≠ 9) (hset : endpoint.onmessage = none) :
      Step c (.received i chunk)
        ({ c.finish i chunk with
          readBuffer := (c.readBuffer ++ chunk).drop (4 + length) }.start (.readHead endpoint))

variable {server}

/-- The waits of the timer change, but there is none made. -/
theorem eq_of_timerIdleReset {c c' : WsConnection} (h : timerIdleReset server c = some c') :
    ∃ t, t.isSome = c.timerIdle.isSome ∧ c' = { c with timerIdle := t } := by
  rw [timerIdleReset] at h
  split_ifs at h
  · obtain ⟨t, ht, rfl⟩ := Option.map_eq_some_iff.mp h
    split_ifs
    · exact ⟨_, by rw [ht]; rfl, rfl⟩
    · exact ⟨_, rfl, rfl⟩
  · obtain rfl := Option.some.inj h
    exact ⟨_, rfl, rfl⟩

/-- A cancel changes the waits of the timer at most, and makes or drops no timer. -/
theorem eq_of_timerIdleCancel {c c' : WsConnection} (h : timerIdleCancel server c = some c') :
    ∃ t, t.isSome = c.timerIdle.isSome ∧ c' = { c with timerIdle := t } := by
  rw [timerIdleCancel] at h
  split_ifs at h
  · obtain ⟨t, ht, rfl⟩ := Option.map_eq_some_iff.mp h
    exact ⟨_, by rw [ht]; rfl, rfl⟩
  · obtain rfl := Option.some.inj h
    exact ⟨_, rfl, rfl⟩

/-- A send posts its frame, and changes nothing else but the waits of the timer. -/
theorem eq_of_send {c c' : WsConnection} {messageStream : Bytes} {callback : Option ℕ}
    {finRsvOpcode : Byte} (h : send server c messageStream callback finRsvOpcode = some c') :
    ∃ t, t.isSome = c.timerIdle.isSome ∧ c' = { c with
      timerIdle := t
      queue := c.queue.post (SocketServerBase.send messageStream callback finRsvOpcode) } := by
  rw [send] at h
  obtain ⟨c₁, hreset, rfl⟩ := Option.map_eq_some_iff.mp h
  split_ifs at hreset
  · obtain ⟨t, ht, rfl⟩ := eq_of_timerIdleReset hreset
    exact ⟨t, ht, rfl⟩
  · obtain rfl := Option.some.inj hreset
    exact ⟨_, rfl, rfl⟩

/-- A close frame is posted unless one has been. The idle timer is left alone. -/
theorem sendClose_eq (c : WsConnection) (status : ℕ) (reason : Bytes) (callback : Option ℕ) :
    sendClose server c status reason callback = some (c.closing status reason callback) := by
  obtain ⟨pending, readBuffer, closed, timerIdle, member, calls, queue, undefined⟩ := c
  cases closed <;> rfl

/-- The sends of a handler post their frames one after the other, and change nothing else but the
waits of the timer. -/
theorem eq_of_sendAll {c c' : WsConnection} {payloads : List Bytes}
    (h : sendAll server c payloads = some c') :
    ∃ t, t.isSome = c.timerIdle.isSome ∧
      c' = { c with timerIdle := t, queue := postTexts c.queue payloads } := by
  induction payloads generalizing c with
  | nil =>
      obtain rfl := Option.some.inj h
      exact ⟨_, rfl, rfl⟩
  | cons p payloads ih =>
      rw [sendAll, List.foldlM_cons] at h
      obtain ⟨c₁, hsend, h⟩ := Option.bind_eq_some_iff.mp h
      obtain ⟨t, ht, rfl⟩ := eq_of_send hsend
      obtain ⟨t', ht', rfl⟩ := ih h
      exact ⟨t', ht'.trans ht, rfl⟩

/-- `connection_close` takes the connection out of the set, and makes its calls. -/
theorem eq_of_connectionClose {c c' : WsConnection} {endpoint : WsEndpoint} {status : ℕ}
    {reason : Bytes} (h : connectionClose server c endpoint status reason = some c') :
    ∃ t, t.isSome = c.timerIdle.isSome ∧ c' = { c with
      timerIdle := t
      member := false
      calls := c.calls ++ closeCalls endpoint status reason } := by
  rw [connectionClose] at h
  obtain ⟨c₁, hcancel, h⟩ := Option.bind_eq_some_iff.mp h
  obtain rfl := Option.some.inj h
  obtain ⟨t, ht, rfl⟩ := eq_of_timerIdleCancel hcancel
  exact ⟨t, ht, rfl⟩

/-- `connection_error` takes the connection out of the set, and makes its calls. -/
theorem eq_of_connectionError {c c' : WsConnection} {endpoint : WsEndpoint}
    (h : connectionError server c endpoint = some c') :
    ∃ t, t.isSome = c.timerIdle.isSome ∧ c' = { c with
      timerIdle := t
      member := false
      calls := c.calls ++ errorCalls endpoint } := by
  rw [connectionError] at h
  obtain ⟨c₁, hcancel, h⟩ := Option.bind_eq_some_iff.mp h
  obtain rfl := Option.some.inj h
  obtain ⟨t, ht, rfl⟩ := eq_of_timerIdleCancel hcancel
  exact ⟨t, ht, rfl⟩

/-- `connection_open` puts the connection into the set, makes its calls, and makes the timer if
there is a timeout. -/
theorem connectionOpen_eq (server : WsServer) (c : WsConnection) (endpoint : WsEndpoint) :
    ∃ t, (0 < server.timeoutIdle → t.isSome) ∧ connectionOpen server c endpoint = { c with
      timerIdle := t
      member := true
      calls := c.calls ++ openCalls endpoint } := by
  rw [connectionOpen, timerIdleInit]
  split_ifs with htimeout
  · exact ⟨_, fun _ => rfl, rfl⟩
  · exact ⟨_, fun h => absurd h htimeout, rfl⟩

/-- What the handler of the first two bytes can do. -/
theorem step_of_headRead {c c' : WsConnection} {i : ℕ} {chunk : Bytes} {endpoint : WsEndpoint}
    (hop : c.pending[i]? = some (.readHead endpoint))
    (hlen : chunk.length = 0 ∨ chunk.length = 2)
    (h : headRead server (c.finish i chunk) endpoint chunk.length = some c') :
    Step server c (.received i chunk) c' := by
  rw [headRead] at h
  rcases hlen with hlen | hlen
  · obtain rfl := List.length_eq_zero_iff.mp hlen
    obtain rfl := Option.some.inj h
    exact .again hop
  · rw [if_neg (by omega)] at h
    dsimp only at h
    split_ifs at h with hmask
    · rw [sendClose_eq] at h
      obtain ⟨t, ht, rfl⟩ := eq_of_connectionClose h
      exact .unmasked hop hlen hmask ht
    · obtain rfl := Option.some.inj h
      exact .head hop hlen hmask

/-- What the handler of the mask and the payload can do. -/
theorem step_of_contentRead {c c' : WsConnection} {i length : ℕ} {chunk : Bytes}
    {finRsvOpcode : Byte} {endpoint : WsEndpoint}
    (hop : c.pending[i]? = some (.readContent length finRsvOpcode endpoint))
    (hlen : chunk.length = (4 + length) % 2 ^ 64)
    (h : contentRead server (c.finish i chunk) length finRsvOpcode endpoint = some c') :
    Step server c (.received i chunk) c' := by
  rw [contentRead] at h
  split_ifs at h with hclose hping
  · rw [sendClose_eq] at h
    obtain ⟨t, ht, rfl⟩ := eq_of_connectionClose h
    exact .close hop hlen hclose ht rfl
  · obtain ⟨c₁, hsend, h⟩ := Option.bind_eq_some_iff.mp h
    obtain ⟨t, ht, rfl⟩ := eq_of_send hsend
    obtain rfl := Option.some.inj h
    exact .ping hop hlen hping ht
  · cases hset : endpoint.onmessage with
    | none =>
        rw [hset] at h
        obtain rfl := Option.some.inj h
        exact .ignored hop hlen hclose hping hset
    | some onmessage =>
        rw [hset] at h
        obtain ⟨c₁, hreset, h⟩ := Option.bind_eq_some_iff.mp h
        obtain ⟨t₁, ht₁, rfl⟩ := eq_of_timerIdleReset hreset
        obtain ⟨c₂, hsend, h⟩ := Option.bind_eq_some_iff.mp h
        obtain ⟨t, ht, rfl⟩ := eq_of_sendAll hsend
        obtain rfl := Option.some.inj h
        exact .message hop hlen hclose hping (ht.trans ht₁) hset rfl

/-- What the handler of the handshake can do. -/
theorem step_of_handshakeRead {c c' : WsConnection} {i : ℕ} {chunk : Bytes}
    (hop : c.pending[i]? = some .readHandshake)
    (h : handshakeRead server (c.finish i chunk) = some c') :
    Step server c (.received i chunk) c' := by
  rw [handshakeRead] at h
  split at h
  · obtain rfl := Option.some.inj h
    exact .handshakeDropped hop _
  · obtain rfl := Option.some.inj h
    exact .handshakeRead hop _ _
  · exact absurd h (by simp)

/-- What a handler can do when it returns: one clause of `Step` for each way through it. -/
theorem step_of_handle {c c' : WsConnection} {e : Event} (h : handle server c e = some (some c')) :
    Step server c e c' := by
  cases e with
  | received i chunk =>
      rw [handle] at h
      cases hop : c.pending[i]? with
      | none => simp [hop] at h
      | some op =>
          simp only [hop] at h
          obtain ⟨hcompletes, h⟩ := Option.ite_none_right_eq_some.mp h
          replace h := Option.some.inj h
          cases op with
          | readHandshake => exact step_of_handshakeRead hop h
          | writeHandshake endpoint => exact absurd h (by simp [complete])
          | readHead endpoint =>
              exact step_of_headRead hop (by simpa [Pending.completes] using hcompletes) h
          | readLength numBytes finRsvOpcode endpoint =>
              obtain rfl := Option.some.inj h
              exact .length hop (by simpa [Pending.completes] using hcompletes)
          | readContent length finRsvOpcode endpoint =>
              exact step_of_contentRead hop (by simpa [Pending.completes] using hcompletes) h
  | written i =>
      rw [handle] at h
      split at h
      · next endpoint hop =>
          obtain rfl := Option.some.inj (Option.some.inj h)
          obtain ⟨t, ht, heq⟩ := connectionOpen_eq server (c.finish i []) endpoint
          rw [handshakeWritten, heq]
          exact .opened hop ht
      · exact absurd h (by simp)
  | failed i =>
      rw [handle] at h
      cases hop : c.pending[i]? with
      | none => simp [hop] at h
      | some op =>
          simp only [hop] at h
          replace h := Option.some.inj h
          rw [fail] at h
          cases hendpoint : op.endpoint with
          | none =>
              rw [hendpoint] at h
              obtain rfl := Option.some.inj h
              cases op with
              | readHandshake => exact .handshakeFailed hop
              | _ => exact absurd hendpoint (by simp [Pending.endpoint])
          | some endpoint =>
              rw [hendpoint] at h
              obtain ⟨t, ht, rfl⟩ := eq_of_connectionError h
              exact .error hop hendpoint ht
  | timerExpires =>
      rw [handle] at h
      split at h
      · next ht =>
          obtain rfl := Option.some.inj (Option.some.inj h)
          exact .timerExpires (by rw [ht]; rfl)
      · exact absurd h (by simp)
  | idleTimeout =>
      rw [handle] at h
      split at h
      · next ht =>
          rw [sendClose_eq] at h
          obtain rfl := Option.some.inj (Option.some.inj h)
          exact .idleTimeout (by rw [ht]; rfl)
      · exact absurd h (by simp)
  | relay text =>
      obtain ⟨hopen, h⟩ := Option.ite_none_right_eq_some.mp h
      obtain ⟨t, ht, rfl⟩ := eq_of_send (Option.some.inj h)
      exact .relay hopen ht
  | sendClose status reason =>
      obtain ⟨hopen, h⟩ := Option.ite_none_right_eq_some.mp h
      rw [sendClose_eq] at h
      obtain rfl := Option.some.inj (Option.some.inj h)
      exact .sendClose hopen
  | queue e =>
      have hsend : ∀ d, e ≠ .send d := by
        rintro d rfl
        exact absurd h (by simp [handle])
      have hqueue : handle server c (.queue e) =
          (Connection.step c.queue e).map fun q => some { c with queue := q } := by
        cases e with
        | send d => exact absurd rfl (hsend d)
        | _ => rfl
      rw [hqueue] at h
      obtain ⟨q, hq, heq⟩ := Option.map_eq_some_iff.mp h
      obtain rfl := Option.some.inj heq
      exact .queue hq hsend

/-- **Every step is one of these**, and none is taken once the connection is undefined. Proofs about
a step go through these clauses, and not through the handlers. -/
theorem step_sound {c c' : WsConnection} {e : Event} (h : step server c e = some c') :
    c.undefined = false ∧ Step server c e c' := by
  obtain ⟨hdefined, h⟩ := Option.ite_none_left_eq_some.mp h
  refine ⟨by simpa using hdefined, ?_⟩
  obtain ⟨r, hr, rfl⟩ := Option.map_eq_some_iff.mp h
  cases r with
  | none => exact .undefined hr
  | some c₁ => exact step_of_handle hr

/-! ### The timer of an open connection -/

/-- The idle timer has been made, if there is a timeout. -/
def TimerMade (server : WsServer) (c : WsConnection) : Prop :=
  0 < server.timeoutIdle → c.timerIdle.isSome

/-- With a timer, or without a timeout, a reset goes through no null pointer. -/
theorem isSome_timerIdleReset {c : WsConnection} (h : TimerMade server c) :
    (timerIdleReset server c).isSome := by
  rw [timerIdleReset]
  split_ifs with htimeout
  · simpa using h htimeout
  · rfl

/-- With a timer, or without a timeout, a cancel goes through no null pointer. -/
theorem isSome_timerIdleCancel {c : WsConnection} (h : TimerMade server c) :
    (timerIdleCancel server c).isSome := by
  rw [timerIdleCancel]
  split_ifs with htimeout
  · simpa using h htimeout
  · rfl

/-- With a timer, or without a timeout, `connection_close` returns. -/
theorem isSome_connectionClose {c : WsConnection} (h : TimerMade server c)
    (endpoint : WsEndpoint) (status : ℕ) (reason : Bytes) :
    (connectionClose server c endpoint status reason).isSome := by
  obtain ⟨c₁, hc₁⟩ := Option.isSome_iff_exists.mp (isSome_timerIdleCancel h)
  rw [connectionClose, hc₁]
  rfl

/-- With a timer, or without a timeout, `connection_error` returns. -/
theorem isSome_connectionError {c : WsConnection} (h : TimerMade server c)
    (endpoint : WsEndpoint) : (connectionError server c endpoint).isSome := by
  obtain ⟨c₁, hc₁⟩ := Option.isSome_iff_exists.mp (isSome_timerIdleCancel h)
  rw [connectionError, hc₁]
  rfl

/-- With a timer, or without a timeout, a send returns. -/
theorem isSome_send {c : WsConnection} (h : TimerMade server c) (messageStream : Bytes)
    (callback : Option ℕ) (finRsvOpcode : Byte) :
    (send server c messageStream callback finRsvOpcode).isSome := by
  rw [send, Option.isSome_map]
  split_ifs
  · exact isSome_timerIdleReset h
  · rfl

/-- With a timer, or without a timeout, the sends of a handler return. -/
theorem isSome_sendAll {c : WsConnection} (h : TimerMade server c) (payloads : List Bytes) :
    (sendAll server c payloads).isSome := by
  induction payloads generalizing c with
  | nil => rfl
  | cons p payloads ih =>
      obtain ⟨c₁, hc₁⟩ := Option.isSome_iff_exists.mp (isSome_send h p (some 0) 129)
      obtain ⟨t, ht, rfl⟩ := eq_of_send hc₁
      rw [sendAll, List.foldlM_cons, hc₁]
      exact ih fun htimeout => by rw [ht]; exact h htimeout

/-- **The handlers of an open connection have a result**: that of the first two bytes. They reset
the timer, and that goes through no null pointer once it has been made. -/
theorem isSome_headRead {c : WsConnection} (h : TimerMade server c) (endpoint : WsEndpoint)
    (bytesTransferred : ℕ) : (headRead server c endpoint bytesTransferred).isSome := by
  rw [headRead]
  split_ifs
  · rfl
  · dsimp only
    split_ifs
    · simp only [sendClose_eq, Option.bind_eq_bind, Option.bind_some]
      refine isSome_connectionClose ?_ endpoint _ _
      exact h
    · rfl

/-- The handler of the mask and the payload has a result. -/
theorem isSome_contentRead {c : WsConnection} (h : TimerMade server c) (length : ℕ)
    (finRsvOpcode : Byte) (endpoint : WsEndpoint) :
    (contentRead server c length finRsvOpcode endpoint).isSome := by
  rw [contentRead]
  split_ifs
  · simp only [sendClose_eq, Option.bind_eq_bind, Option.bind_some]
    refine isSome_connectionClose ?_ endpoint _ _
    exact h
  · obtain ⟨c₁, hc₁⟩ := Option.isSome_iff_exists.mp
      (isSome_send (c := { c with readBuffer := c.readBuffer.drop (4 + length) }) h [] none
        (finRsvOpcode + 1))
    rw [hc₁]
    rfl
  · cases endpoint.onmessage with
    | none => rfl
    | some onmessage =>
        obtain ⟨c₁, hc₁⟩ := Option.isSome_iff_exists.mp
          (isSome_timerIdleReset (c := { c with readBuffer := c.readBuffer.drop (4 + length) }) h)
        obtain ⟨t, ht, rfl⟩ := eq_of_timerIdleReset hc₁
        rw [hc₁]
        obtain ⟨c₂, hc₂⟩ := Option.isSome_iff_exists.mp
          (isSome_sendAll
            (c := { c with
              readBuffer := c.readBuffer.drop (4 + length)
              timerIdle := t
              calls := c.calls ++
                [.onmessage (takeMessage c.readBuffer length finRsvOpcode)] })
            (fun htimeout => by rw [ht]; exact h htimeout)
            (onmessage (takeMessage c.readBuffer length finRsvOpcode)))
        simp only [Option.bind_eq_bind, Option.bind_some]
        rw [hc₂]
        rfl

end WsConnection

/-! ### The endpoints of the program -/

namespace Bot

/-- The expression `^/echo/?$`. -/
def echoPath (path : Bytes) : Option (List Bytes) :=
  if path = ascii "/echo" ∨ path = ascii "/echo/" then some [path] else none

/-- The expression `^/channel/([a-z0-9]+)/?$`. -/
def channelPath (path : Bytes) : Option (List Bytes) :=
  let rest := path.drop (ascii "/channel/").length
  let name := rest.takeWhile fun b => isDigit b || (0x61 ≤ b && b ≤ 0x7A)
  if ascii "/channel/" <+: path ∧ name ≠ [] ∧
      (rest.drop name.length = [] ∨ rest.drop name.length = ascii "/") then
    some [path, name]
  else
    none

/-- The endpoint that sends every message back. -/
def echo : WsEndpoint where
  onopen := true
  onmessage := some fun message => [message.streambuf]
  onerror := true
  onclose := true

/-- The endpoint of a channel: `onopen` makes a `twitch_client`. Messages are not answered. -/
def channel : WsEndpoint where
  onopen := true
  makesClient := true
  onmessage := some fun _ => []
  onerror := true
  onclose := true

/-- The server of the program, with its endpoints in the order of a `std::map`. -/
def websocket (sha1 : Bytes → Vector UInt32 5) (undefinedShift : Byte → ℕ → ℕ) : WsServer where
  sha1 := sha1
  optEndpoint := [(channelPath, channel), (echoPath, echo)]
  timeoutIdle := 0
  undefinedShift := undefinedShift

end Bot

end BoostIrc
