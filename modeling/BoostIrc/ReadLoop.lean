import BoostIrc.Framing
import BoostIrc.IdleTimer
import BoostIrc.PayloadBounds
import BoostIrc.Sessions

/-!
# The Read Loop and the Stream of a Client

The handlers of `read_message` and `read_message_content` hand the connection from one to the next:
each waits for a number of bytes, and takes as many from the front of the buffer. Read as one
function, they are a reader of the stream of the client (`ClientInput.reader`), which takes one
frame after the other, or a frame without a mask, at which the reading ends.

The buffer may hold bytes from the start, those that came behind the handshake in the same read. The
loop waits for new bytes all the same, so it is always behind by as many.

## Main results

* `ClientInput.reader`: what the read loop takes from the stream.
* `WsConnection.Follows.step`: what one step makes of it.
* `WsConnection.follows_stream`: **the read loop agrees with the reader**, for every stream of bytes
  and however it is cut.
-/

open Transition Framing

namespace BoostIrc

/-- What the read loop takes from the stream at once: the first two bytes of a frame without a mask,
or a frame, as a message. -/
inductive ClientInput where
  | unmasked
  | message (m : WsMessage)
  deriving DecidableEq, Repr

namespace ClientInput

open WsConnection

variable (server : WsServer)

/-- The mask and a payload of `length` bytes, if they are there. -/
def nextContent (finRsvOpcode : Byte) (length : ℕ) (bytes : Bytes) :
    Option (ClientInput × Bytes) :=
  if 4 + length ≤ bytes.length then
    some (.message (takeMessage (bytes.take (4 + length)) length finRsvOpcode),
      bytes.drop (4 + length))
  else
    none

/-- The bytes of a longer length, and the frame behind them. -/
def nextLength (finRsvOpcode : Byte) (numBytes : ℕ) (bytes : Bytes) :
    Option (ClientInput × Bytes) :=
  if numBytes ≤ bytes.length then
    nextContent finRsvOpcode (decodeLength server (bytes.take numBytes)) (bytes.drop numBytes)
  else
    none

/-- What follows the first two bytes of a frame with a mask. -/
def afterHead (finRsvOpcode second : Byte) (bytes : Bytes) : Option (ClientInput × Bytes) :=
  if (second &&& 127).toNat = 126 then
    nextLength server finRsvOpcode 2 bytes
  else if (second &&& 127).toNat = 127 then
    nextLength server finRsvOpcode 8 bytes
  else
    nextContent finRsvOpcode (second &&& 127).toNat bytes

/-- **What is at the front of the stream**, if it has come as a whole. -/
def next : Bytes → Option (ClientInput × Bytes)
  | finRsvOpcode :: second :: bytes =>
      if second < 128 then
        some (.unmasked, bytes)
      else
        afterHead server finRsvOpcode second bytes
  | _ => none

variable {server} {finRsvOpcode second : Byte} {length numBytes : ℕ} {bytes rest : Bytes}
  {x : ClientInput}

/-- The read of the mask and the payload gives back no byte that was not there. -/
theorem length_le_of_nextContent (h : nextContent finRsvOpcode length bytes = some (x, rest)) :
    rest.length ≤ bytes.length := by
  obtain ⟨-, h⟩ := Option.ite_none_right_eq_some.mp h
  obtain ⟨-, rfl⟩ := Prod.mk.inj (Option.some.inj h)
  rw [List.length_drop]
  omega

/-- The message that is read does not depend on what comes behind the frame. -/
theorem nextContent_append (h : nextContent finRsvOpcode length bytes = some (x, rest))
    (more : Bytes) : nextContent finRsvOpcode length (bytes ++ more) = some (x, rest ++ more) := by
  obtain ⟨hle, h⟩ := Option.ite_none_right_eq_some.mp h
  obtain ⟨rfl, rfl⟩ := Prod.mk.inj (Option.some.inj h)
  rw [nextContent, if_pos (by rw [List.length_append]; omega), List.take_append_of_le_length hle,
    List.drop_append_of_le_length hle]

/-- The read of a longer length, and of what follows it, gives back no byte that was not there. -/
theorem length_le_of_nextLength
    (h : nextLength server finRsvOpcode numBytes bytes = some (x, rest)) :
    rest.length ≤ bytes.length := by
  obtain ⟨-, h⟩ := Option.ite_none_right_eq_some.mp h
  have hle := length_le_of_nextContent h
  rw [List.length_drop] at hle
  omega

/-- A frame with a longer length is read without regard to what comes behind it. -/
theorem nextLength_append (h : nextLength server finRsvOpcode numBytes bytes = some (x, rest))
    (more : Bytes) :
    nextLength server finRsvOpcode numBytes (bytes ++ more) = some (x, rest ++ more) := by
  obtain ⟨hle, h⟩ := Option.ite_none_right_eq_some.mp h
  rw [nextLength, if_pos (by rw [List.length_append]; omega), List.take_append_of_le_length hle,
    List.drop_append_of_le_length hle]
  exact nextContent_append h more

/-- The reads behind the first two bytes give back no byte that was not there. -/
theorem length_le_of_afterHead (h : afterHead server finRsvOpcode second bytes = some (x, rest)) :
    rest.length ≤ bytes.length := by
  rw [afterHead] at h
  split_ifs at h
  · exact length_le_of_nextLength h
  · exact length_le_of_nextLength h
  · exact length_le_of_nextContent h

/-- What is read behind the first two bytes of a frame does not depend on what comes behind the
frame. -/
theorem afterHead_append (h : afterHead server finRsvOpcode second bytes = some (x, rest))
    (more : Bytes) :
    afterHead server finRsvOpcode second (bytes ++ more) = some (x, rest ++ more) := by
  rw [afterHead] at h ⊢
  split_ifs at h ⊢
  · exact nextLength_append h more
  · exact nextLength_append h more
  · exact nextContent_append h more

/-- The first two bytes are always taken, so that the rest is shorter than the text. -/
theorem shorter_next (server : WsServer) (bytes : Bytes) (x : ClientInput) (rest : Bytes)
    (h : next server bytes = some (x, rest)) : rest.length < bytes.length := by
  match bytes with
  | [] => exact absurd h (by simp [next])
  | [_] => exact absurd h (by simp [next])
  | finRsvOpcode :: second :: bytes =>
      rw [next] at h
      simp only [List.length_cons]
      split_ifs at h
      · obtain ⟨-, rfl⟩ := Prod.mk.inj (Option.some.inj h)
        omega
      · have hle := length_le_of_afterHead h
        omega

/-- What comes behind a frame has no influence on how it is read. -/
theorem stable_next (server : WsServer) (bytes : Bytes) (x : ClientInput) (rest more : Bytes)
    (h : next server bytes = some (x, rest)) :
    next server (bytes ++ more) = some (x, rest ++ more) := by
  match bytes with
  | [] => exact absurd h (by simp [next])
  | [_] => exact absurd h (by simp [next])
  | finRsvOpcode :: second :: bytes =>
      rw [List.cons_append, List.cons_append, next]
      rw [next] at h
      split_ifs at h ⊢
      · obtain ⟨rfl, rfl⟩ := Prod.mk.inj (Option.some.inj h)
        rfl
      · exact afterHead_append h more

/-- **The reader of the stream of a client.** -/
def reader (server : WsServer) : Reader ClientInput Byte where
  next := next server
  shorter := shorter_next server
  stable := stable_next server

/-- What is called for it. -/
def calls (endpoint : WsEndpoint) : ClientInput → List WsCall
  | unmasked => closeCalls endpoint 1002 (ascii "message from client not masked")
  | message m =>
      if m.finRsvOpcode &&& 0x0f = 8 then
        closeCalls endpoint (closeStatus m) (closeReason m)
      else if m.finRsvOpcode &&& 0x0f = 9 then
        []
      else
        if endpoint.onmessage.isSome then [.onmessage m] else []

/-- What is sent for it, if nothing else has been sent that closes the connection. -/
def answers (endpoint : WsEndpoint) : ClientInput → List SendData
  | unmasked => [closeFrame 1002 (ascii "message from client not masked") (some 0)]
  | message m =>
      if m.finRsvOpcode &&& 0x0f = 8 then
        [closeFrame (closeStatus m) (closeReason m) (some 0)]
      else if m.finRsvOpcode &&& 0x0f = 9 then
        [SocketServerBase.send [] none (m.finRsvOpcode + 1)]
      else
        (endpoint.onmessage.elim [] fun onmessage => onmessage m).map fun p =>
          SocketServerBase.send p (some 0)

end ClientInput

namespace WsConnection

/-! ### Where the read loop is -/

section Position

variable (server : WsServer) (c₀ : WsConnection) (w : Bytes)

/-- The bytes that have been taken from the stream since `c₀`, when `w` has come since: as many,
from the front of the buffer. -/
def consumed : Bytes :=
  (c₀.readBuffer ++ w).take w.length

/-- The bytes that have come and have not been taken. -/
def ahead : Bytes :=
  (c₀.readBuffer ++ w).drop w.length

/-- What has been taken as a whole. -/
def inputs : List ClientInput :=
  ((ClientInput.reader server).readAll (consumed c₀ w)).1

/-- What has been taken of the next frame. -/
def begun : Bytes :=
  ((ClientInput.reader server).readAll (consumed c₀ w)).2

variable {server c₀ w}

/-- The bytes that are taken when more of them come: those in front of the buffer. -/
theorem consumed_append (chunk : Bytes) :
    consumed c₀ (w ++ chunk) = consumed c₀ w ++ (ahead c₀ w ++ chunk).take chunk.length := by
  have hle : w.length ≤ (c₀.readBuffer ++ w).length := by
    rw [List.length_append]
    omega
  rw [consumed, ← List.append_assoc, List.length_append, List.take_add,
    List.take_append_of_le_length hle, List.drop_append_of_le_length hle]
  rfl

/-- The bytes in front of the buffer when more of them come: as many as before. -/
theorem ahead_append (chunk : Bytes) :
    ahead c₀ (w ++ chunk) = (ahead c₀ w ++ chunk).drop chunk.length := by
  have hle : w.length ≤ (c₀.readBuffer ++ w).length := by
    rw [List.length_append]
    omega
  rw [ahead, ← List.append_assoc, List.length_append, ← List.drop_drop,
    List.drop_append_of_le_length hle]
  rfl

/-- **What a chunk adds**: what is read from the part of a frame that had been taken, and as many
bytes as have come. -/
theorem readAll_consumed {chunk left : Bytes} {news : List ClientInput}
    (h : (ClientInput.reader server).readAll
      (begun server c₀ w ++ (ahead c₀ w ++ chunk).take chunk.length) = (news, left)) :
    inputs server c₀ (w ++ chunk) = inputs server c₀ w ++ news ∧
      begun server c₀ (w ++ chunk) = left := by
  have hall := Reader.readAll_append (r := ClientInput.reader server) (consumed c₀ w)
    ((ahead c₀ w ++ chunk).take chunk.length)
  rw [← consumed_append] at hall
  rw [begun] at h
  rw [h] at hall
  exact ⟨congrArg Prod.fst hall, congrArg Prod.snd hall⟩

end Position

/-- **The operation under way** against what has been taken of the next frame. -/
inductive Phase (server : WsServer) (endpoint : WsEndpoint) : Pending → Bytes → Prop
  | head : Phase server endpoint (.readHead endpoint) []
  | length {numBytes : ℕ} {finRsvOpcode second : Byte}
      (hcode : (second &&& 127).toNat = 126 ∧ numBytes = 2 ∨
        (second &&& 127).toNat = 127 ∧ numBytes = 8)
      (h : ∀ rest, ClientInput.next server ([finRsvOpcode, second] ++ rest) =
        ClientInput.nextLength server finRsvOpcode numBytes rest) :
      Phase server endpoint (.readLength numBytes finRsvOpcode endpoint) [finRsvOpcode, second]
  | content {length : ℕ} {finRsvOpcode : Byte} {left : Bytes}
      (h : ∀ rest, ClientInput.next server (left ++ rest) =
        ClientInput.nextContent finRsvOpcode length rest) :
      Phase server endpoint (.readContent length finRsvOpcode endpoint) left

variable {server : WsServer} {endpoint endpoint' : WsEndpoint}

/-- The read that follows the first two bytes. -/
theorem Phase.of_afterHead {finRsvOpcode second : Byte} (h : ¬ second < 128) :
    Phase server endpoint (afterHead finRsvOpcode second endpoint) [finRsvOpcode, second] := by
  have hnext : ∀ rest, ClientInput.next server ([finRsvOpcode, second] ++ rest) =
      ClientInput.afterHead server finRsvOpcode second rest := fun rest => if_neg h
  rw [afterHead]
  split_ifs with hmedium hlong
  · refine .length (Or.inl ⟨hmedium, rfl⟩) fun rest => ?_
    rw [hnext, ClientInput.afterHead, if_pos hmedium]
  · refine .length (Or.inr ⟨hlong, rfl⟩) fun rest => ?_
    rw [hnext, ClientInput.afterHead, if_neg hmedium, if_pos hlong]
  · refine .content fun rest => ?_
    rw [hnext, ClientInput.afterHead, if_neg hmedium, if_neg hlong]

/-- In every phase of the reading, the operation under way is a read of a frame. -/
theorem Phase.readsFrame {op : Pending} {left : Bytes} (h : Phase server endpoint op left) :
    op.ReadsFrame endpoint := by
  cases h with
  | head => exact .head
  | length hcode h => exact .length _ _
  | content => exact .content _ _

/-- The event sends nothing on its own: it is no text that is relayed, and no close frame that the
server sends first. -/
def Event.Reads : Event → Prop
  | .relay _ => False
  | .sendClose _ _ => False
  | .idleTimeout => False
  | _ => True

/-- **The read loop follows the stream**: it waits for the rest of the frame that it has begun, or
it is over. `P` says that nothing else has sent anything. -/
inductive Follows (server : WsServer) (endpoint : WsEndpoint) (c₀ c : WsConnection) (w : Bytes)
    (P : Prop) : Prop
  | reading {op : Pending} (hpending : c.pending = [op])
      (hphase : Phase server endpoint op (begun server c₀ w)) (hbuffer : c.readBuffer = ahead c₀ w)
      (hcalls : c.calls = c₀.calls ++ (inputs server c₀ w).flatMap (ClientInput.calls endpoint))
      (hsent : P → c.closed = false ∧ c.queue.sent =
        c₀.queue.sent ++ (inputs server c₀ w).flatMap (ClientInput.answers endpoint))
  | ended (hpending : c.pending = [])
      {last : List WsCall} (hlast : last = [] ∨ last = errorCalls endpoint)
      (hcalls : c.calls =
        c₀.calls ++ (inputs server c₀ w).flatMap (ClientInput.calls endpoint) ++ last)
      (hsent : P → c.queue.sent =
        c₀.queue.sent ++ (inputs server c₀ w).flatMap (ClientInput.answers endpoint))

section Follows

variable {c₀ c c' : WsConnection} {w chunk : Bytes} {P Q : Prop} {i : ℕ} {op : Pending}

/-- What is under way, where something is. -/
theorem Follows.of_pending (h : Follows server endpoint c₀ c w P) (hop : c.pending[i]? = some op) :
    c.pending.eraseIdx i = [] ∧ Phase server endpoint op (begun server c₀ w) ∧
      c.readBuffer = ahead c₀ w ∧
      c.calls = c₀.calls ++ (inputs server c₀ w).flatMap (ClientInput.calls endpoint) ∧
      (P → c.closed = false ∧ c.queue.sent =
        c₀.queue.sent ++ (inputs server c₀ w).flatMap (ClientInput.answers endpoint)) := by
  cases h with
  | reading hpending hphase hbuffer hcalls hsent =>
      rw [hpending] at hop ⊢
      obtain ⟨rfl, rfl⟩ := eq_of_getElem?_singleton hop
      exact ⟨rfl, hphase, hbuffer, hcalls, hsent⟩
  | ended hpending =>
      rw [hpending] at hop
      exact absurd hop (by simp)

/-- Nothing is received, called or, by a quiet event, sent. -/
theorem Follows.keep (h : Follows server endpoint c₀ c w P) (hpending : c'.pending = c.pending)
    (hbuffer : c'.readBuffer = c.readBuffer) (hcalls : c'.calls = c.calls)
    (hquiet : Q → c'.closed = c.closed ∧ c'.queue.sent = c.queue.sent) :
    Follows server endpoint c₀ c' (w ++ []) (P ∧ Q) := by
  rw [List.append_nil]
  cases h with
  | reading hpending' hphase hbuffer' hcalls' hsent =>
      refine .reading (hpending.trans hpending') hphase (hbuffer.trans hbuffer')
        (hcalls.trans hcalls') ?_
      rintro ⟨hP, hQ⟩
      obtain ⟨hclosed, hqueue⟩ := hquiet hQ
      rw [hclosed, hqueue]
      exact hsent hP
  | ended hpending' hlast hcalls' hsent =>
      refine .ended (hpending.trans hpending') hlast (hcalls.trans hcalls') ?_
      rintro ⟨hP, hQ⟩
      rw [(hquiet hQ).2]
      exact hsent hP

/-- The operation under way fails: `connection_error` is called, and the chain of reads ends. -/
theorem Follows.fail (h : Follows server endpoint c₀ c w P) (hop : c.pending[i]? = some op)
    (hendpoint : op.endpoint = some endpoint') (hpending : c'.pending = c.pending.eraseIdx i)
    (hcalls : c'.calls = c.calls ++ errorCalls endpoint') (hsent : c'.queue.sent = c.queue.sent) :
    Follows server endpoint c₀ c' (w ++ []) (P ∧ Q) := by
  obtain ⟨herase, hphase, -, hcalls', hsent'⟩ := h.of_pending hop
  have hsame : endpoint' = endpoint := by
    rw [endpoint_of_readsFrame hphase.readsFrame] at hendpoint
    exact (Option.some.inj hendpoint).symm
  rw [List.append_nil]
  refine .ended (hpending.trans herase) (Or.inr rfl) ?_ fun hP => ?_
  · rw [hcalls, hcalls', hsame]
  · rw [hsent]
    exact (hsent' hP.1).2

/-- **A chunk is read**, and the reading goes on. What the handler has called and sent are the
calls and answers of the inputs that the chunk completes, and the next read is that of the phase
reached. -/
theorem Follows.next (h : Follows server endpoint c₀ c w P) (hop : c.pending[i]? = some op)
    (chunk : Bytes) {n : ℕ} (hlen : chunk.length = n) {news : List ClientInput} {left : Bytes}
    {op' : Pending}
    (hread : (ClientInput.reader server).readAll
      (begun server c₀ w ++ (ahead c₀ w ++ chunk).take chunk.length) = (news, left))
    (hphase : Phase server endpoint op' left)
    (hpending : c'.pending = c.pending.eraseIdx i ++ [op'])
    (hbuffer : c'.readBuffer = (c.readBuffer ++ chunk).drop n)
    (hcalls : c'.calls = c.calls ++ news.flatMap (ClientInput.calls endpoint))
    (hclosed : c'.closed = c.closed)
    (hsent : c'.queue.sent = c.queue.sent ++ news.flatMap (ClientInput.answers endpoint)) :
    Follows server endpoint c₀ c' (w ++ chunk) (P ∧ Q) := by
  obtain ⟨herase, -, hbuffer', hcalls', hsent'⟩ := h.of_pending hop
  obtain ⟨hinputs, hbegun⟩ := readAll_consumed hread
  rw [herase, List.nil_append] at hpending
  refine .reading hpending ?_ ?_ ?_ fun hP => ⟨?_, ?_⟩
  · rw [hbegun]
    exact hphase
  · rw [hbuffer, hbuffer', ahead_append, hlen]
  · rw [hcalls, hcalls', hinputs, List.flatMap_append, List.append_assoc]
  · rw [hclosed]
    exact (hsent' hP.1).1
  · rw [hsent, (hsent' hP.1).2, hinputs, List.flatMap_append, List.append_assoc]

/-- **The last chunk is read**: the reader takes it as well, its calls are made, and no other read
is started. -/
theorem Follows.last (h : Follows server endpoint c₀ c w P) (hop : c.pending[i]? = some op)
    {news : List ClientInput} {left : Bytes}
    (hread : (ClientInput.reader server).readAll
      (begun server c₀ w ++ (ahead c₀ w ++ chunk).take chunk.length) = (news, left))
    (hpending : c'.pending = c.pending.eraseIdx i)
    (hcalls : c'.calls = c.calls ++ news.flatMap (ClientInput.calls endpoint))
    (hsent : c.closed = false →
      c'.queue.sent = c.queue.sent ++ news.flatMap (ClientInput.answers endpoint)) :
    Follows server endpoint c₀ c' (w ++ chunk) (P ∧ Q) := by
  obtain ⟨herase, -, -, hcalls', hsent'⟩ := h.of_pending hop
  obtain ⟨hinputs, -⟩ := readAll_consumed hread
  refine .ended (hpending.trans herase) (Or.inl rfl) ?_ fun hP => ?_
  · rw [hcalls, hcalls', hinputs, List.flatMap_append, List.append_assoc, List.append_nil]
  · obtain ⟨hclosed, hqueue⟩ := hsent' hP.1
    rw [hsent hclosed, hqueue, hinputs, List.flatMap_append, List.append_assoc]

/-! ### What the handlers take -/

/-- Where there are enough bytes, those that are read are the first ones. -/
theorem readBytes_eq_take {buffer : Bytes} {n : ℕ} (h : n ≤ buffer.length) :
    readBytes buffer n = buffer.take n := by
  refine List.ext_getElem (by simp [readBytes, h]) fun k hk hk' => ?_
  have hlt : k < buffer.length := by
    rw [List.length_take] at hk'
    omega
  simp [readBytes, hlt]

/-- The message is made of the bytes that the read waits for. -/
theorem takeMessage_take (buffer : Bytes) (length : ℕ) (finRsvOpcode : Byte) :
    takeMessage (buffer.take (4 + length)) length finRsvOpcode =
      takeMessage buffer length finRsvOpcode := by
  have hget : ∀ k, k < 4 + length → (buffer.take (4 + length))[k]? = buffer[k]? :=
    fun k hk => List.getElem?_take_of_lt hk
  have hmask : readBytes (buffer.take (4 + length)) 4 = readBytes buffer 4 := by
    refine List.map_congr_left fun k hk => ?_
    rw [List.getD_eq_getElem?_getD, List.getD_eq_getElem?_getD,
      hget k (by have := List.mem_range.mp hk; omega)]
  rw [takeMessage, takeMessage, hmask, WsMessage.mk.injEq]
  refine ⟨rfl, rfl, List.map_congr_left fun k hk => ?_⟩
  have hlt := List.mem_range.mp hk
  simp only [List.getD_eq_getElem?_getD, List.getElem?_drop, hget (4 + k) (by omega)]

/-- The first two bytes of a frame without a mask. -/
theorem readAll_unmasked (server : WsServer) (finRsvOpcode : Byte) {second : Byte}
    (h : second < 128) :
    (ClientInput.reader server).readAll [finRsvOpcode, second] = ([.unmasked], []) := by
  have hnext : (ClientInput.reader server).next [finRsvOpcode, second] = some (.unmasked, []) :=
    if_pos h
  rw [Reader.readAll_of_some hnext, Reader.readAll_nil]

/-- The first two bytes of a frame with a mask. -/
theorem readAll_masked (server : WsServer) (finRsvOpcode : Byte) {second : Byte}
    (h : ¬ second < 128) :
    (ClientInput.reader server).readAll [finRsvOpcode, second] =
      ([], [finRsvOpcode, second]) := by
  refine Reader.readAll_of_none (if_neg h |>.trans ?_)
  simp [ClientInput.afterHead, ClientInput.nextLength, ClientInput.nextContent]

/-- With the bytes of a longer length, the reader has still no frame, and the mask and the payload
are awaited. -/
theorem readAll_length (endpoint : WsEndpoint) {numBytes : ℕ} {finRsvOpcode : Byte}
    {left x : Bytes}
    (h : ∀ rest, ClientInput.next server (left ++ rest) =
      ClientInput.nextLength server finRsvOpcode numBytes rest) (hx : x.length = numBytes) :
    (ClientInput.reader server).readAll (left ++ x) = ([], left ++ x) ∧
      Phase server endpoint
        (.readContent (decodeLength server x) finRsvOpcode endpoint) (left ++ x) := by
  subst hx
  have hnext : ∀ rest, ClientInput.next server (left ++ x ++ rest) =
      ClientInput.nextContent finRsvOpcode (decodeLength server x) rest := by
    intro rest
    rw [List.append_assoc, h, ClientInput.nextLength, if_pos (by rw [List.length_append]; omega),
      List.take_left, List.drop_left]
  refine ⟨Reader.readAll_of_none ?_, .content hnext⟩
  rw [← List.append_nil (left ++ x)]
  exact (hnext []).trans (if_neg (by rw [List.length_nil]; omega))

/-- With the mask and the payload, the reader has one message, and nothing is left. -/
theorem readAll_content {length : ℕ} {finRsvOpcode : Byte} {left x : Bytes}
    (h : ∀ rest, ClientInput.next server (left ++ rest) =
      ClientInput.nextContent finRsvOpcode length rest) (hx : x.length = 4 + length) :
    (ClientInput.reader server).readAll (left ++ x) =
      ([.message (takeMessage x length finRsvOpcode)], []) := by
  have hnext : (ClientInput.reader server).next (left ++ x) =
      some (.message (takeMessage x length finRsvOpcode), []) := by
    refine (h x).trans ?_
    rw [ClientInput.nextContent, if_pos hx.ge, List.take_of_length_le hx.le,
      List.drop_eq_nil_of_le hx.le]
  rw [Reader.readAll_of_some hnext, Reader.readAll_nil]

/-! ### One step -/

/-- The bytes that a read takes from the front of the buffer. -/
def taken (c : WsConnection) (chunk : Bytes) : Bytes :=
  (c.readBuffer ++ chunk).take chunk.length

/-- A chunk takes as many bytes from the front of the buffer as it brings to its end. -/
theorem length_taken (c : WsConnection) (chunk : Bytes) :
    (taken c chunk).length = chunk.length := by
  rw [taken, List.length_take, List.length_append]
  omega

/-- The bytes that the handlers read are those that are taken. -/
theorem readBytes_append {n : ℕ} (h : chunk.length = n) :
    readBytes (c.readBuffer ++ chunk) n = taken c chunk := by
  rw [readBytes_eq_take (by rw [List.length_append]; omega), taken, h]

/-- The first two bytes that the handler reads are those in front of the buffer. -/
theorem exists_taken_head (c : WsConnection) (h : chunk.length = 2) :
    ∃ finRsvOpcode second, taken c chunk = [finRsvOpcode, second] ∧
      (readBytes (c.readBuffer ++ chunk) 2).getD 0 0 = finRsvOpcode ∧
      (readBytes (c.readBuffer ++ chunk) 2).getD 1 0 = second := by
  obtain ⟨a, b, hab⟩ := List.length_eq_two.mp ((length_taken c chunk).trans h)
  rw [readBytes_append h, hab]
  exact ⟨a, b, rfl, rfl, rfl⟩

/-- The message that the handler takes is made of the bytes in front of the buffer. -/
theorem takeMessage_append {length : ℕ} (h : chunk.length = 4 + length) (finRsvOpcode : Byte) :
    takeMessage (c.readBuffer ++ chunk) length finRsvOpcode =
      takeMessage (taken c chunk) length finRsvOpcode := by
  rw [taken, h, takeMessage_take]

/-- A read of a mask and a payload completes a frame. -/
theorem Follows.content (h : Follows server endpoint c₀ c w P) {length : ℕ} {finRsvOpcode : Byte}
    (hop : c.pending[i]? = some (.readContent length finRsvOpcode endpoint'))
    (hlen : chunk.length = 4 + length) :
    endpoint' = endpoint ∧
      (ClientInput.reader server).readAll
        (begun server c₀ w ++ (ahead c₀ w ++ chunk).take chunk.length) =
          ([.message (takeMessage (c.readBuffer ++ chunk) length finRsvOpcode)], []) := by
  obtain ⟨-, hphase, hbuffer, -⟩ := h.of_pending hop
  cases hphase with
  | content hnext =>
      refine ⟨rfl, ?_⟩
      rw [← hbuffer, takeMessage_append hlen]
      exact readAll_content hnext ((length_taken c chunk).trans hlen)

/-- A read of the first two bytes is one at the beginning of a frame. -/
theorem Follows.head (h : Follows server endpoint c₀ c w P)
    (hop : c.pending[i]? = some (.readHead endpoint')) (chunk : Bytes) :
    endpoint' = endpoint ∧
      begun server c₀ w ++ (ahead c₀ w ++ chunk).take chunk.length = taken c chunk := by
  obtain ⟨-, hphase, hbuffer, -⟩ := h.of_pending hop
  generalize hleft : begun server c₀ w = left at hphase
  cases hphase with
  | head => exact ⟨rfl, by rw [← hbuffer]; rfl⟩

/-- **One step**: a read that is over brings the reader as far as the connection, and any other
event changes neither. -/
theorem Follows.step (h : Follows server endpoint c₀ c w P)
    (hbounded : ∀ op ∈ c.pending, Bounded op) {e : Event}
    (hnone : handle server c e ≠ some none) (hs : Step server c e c') :
    Follows server endpoint c₀ c' (w ++ bytesReceived c e) (P ∧ e.Reads) := by
  have hlength : ∀ {i length : ℕ} {finRsvOpcode : Byte} {endpoint : WsEndpoint} {chunk : Bytes},
      c.pending[i]? = some (.readContent length finRsvOpcode endpoint) →
        chunk.length = (4 + length) % 2 ^ 64 → chunk.length = 4 + length := by
    intro i length finRsvOpcode endpoint chunk hop hlen
    have hlt : 4 + length < 2 ^ 64 := hbounded _ (List.mem_of_getElem? hop)
    rw [hlen, Nat.mod_eq_of_lt hlt]
  cases hs with
  | undefined hundefined => exact absurd hundefined hnone
  | queue hq hsend =>
      exact h.keep rfl rfl rfl fun _ => ⟨rfl, Connection.sent_of_step hsend hq⟩
  | timerExpires => exact h.keep rfl rfl rfl fun _ => ⟨rfl, rfl⟩
  | idleTimeout => exact h.keep rfl rfl rfl fun hreads => absurd hreads id
  | sendClose => exact h.keep rfl rfl rfl fun hreads => absurd hreads id
  | relay => exact h.keep rfl rfl rfl fun hreads => absurd hreads id
  | handshakeFailed hop => exact absurd (h.of_pending hop).2.1 nofun
  | handshakeDropped hop => exact absurd (h.of_pending hop).2.1 nofun
  | handshakeRead hop => exact absurd (h.of_pending hop).2.1 nofun
  | opened hop => exact absurd (h.of_pending hop).2.1 nofun
  | error hop hendpoint ht => exact h.fail hop hendpoint rfl rfl rfl
  | @again i endpoint' hop =>
      obtain ⟨rfl, hhead⟩ := h.head hop []
      have hread : (ClientInput.reader server).readAll
          (begun server c₀ w ++ (ahead c₀ w ++ []).take ([] : Bytes).length) = ([], []) := by
        rw [hhead]
        exact Reader.readAll_nil
      exact h.next hop [] rfl hread .head rfl rfl (by simp [start, finish]) rfl
        (by simp [start, finish])
  | @unmasked i chunk endpoint' hop hlen hmask t ht =>
      obtain ⟨rfl, hhead⟩ := h.head hop chunk
      obtain ⟨a, b, htaken, -, hb⟩ := exists_taken_head c hlen
      rw [hb] at hmask
      have hread := readAll_unmasked server a hmask
      rw [← htaken, ← hhead] at hread
      refine h.last hop hread rfl ?_ fun hclosed => ?_
      · simp [closing, ClientInput.calls]
      · simp [closing, finish, hclosed, ClientInput.answers, Connection.post]
  | @head i chunk endpoint' hop hlen hmask =>
      obtain ⟨rfl, hhead⟩ := h.head hop chunk
      obtain ⟨a, b, htaken, ha, hb⟩ := exists_taken_head c hlen
      rw [hb] at hmask
      have hread := readAll_masked server a hmask
      rw [← htaken, ← hhead] at hread
      rw [ha, hb]
      refine h.next hop chunk hlen hread ?_ rfl rfl (by simp [start, finish]) rfl
        (by simp [start, finish])
      rw [hhead, htaken]
      exact .of_afterHead hmask
  | @length i numBytes chunk finRsvOpcode endpoint' hop hlen =>
      obtain ⟨-, hphase, hbuffer, -⟩ := h.of_pending hop
      generalize hleft : begun server c₀ w = left at hphase
      cases hphase with
      | length hcode hnext =>
          obtain ⟨hread, hphase'⟩ := readAll_length endpoint hnext
            ((length_taken c chunk).trans hlen)
          refine h.next hop chunk hlen (by rw [hleft, ← hbuffer]; exact hread) hphase' ?_ rfl
            (by simp [lengthRead, start, finish]) rfl (by simp [lengthRead, start, finish])
          simp only [lengthRead, start, finish, readBytes_append hlen]
  | @close i length chunk finRsvOpcode endpoint' hop hlen hclose t ht message hmessage =>
      obtain ⟨rfl, hread⟩ := h.content hop (hlength hop hlen)
      rw [← hmessage] at hread
      have hopcode : message.finRsvOpcode = finRsvOpcode := by rw [hmessage]; rfl
      refine h.last hop hread rfl ?_ fun hclosed => ?_
      · simp [closing, ClientInput.calls, hopcode, hclose]
      · simp [closing, finish, hclosed, ClientInput.answers, Connection.post, hopcode, hclose]
  | @ping i length chunk finRsvOpcode endpoint' hop hlen hping t ht =>
      obtain ⟨rfl, hread⟩ := h.content hop (hlength hop hlen)
      refine h.next hop chunk (hlength hop hlen) hread .head rfl rfl ?_ rfl ?_
      · simp [start, finish, ClientInput.calls, takeMessage, hping]
      · simp [start, finish, ClientInput.answers, Connection.post, takeMessage, hping]
  | @message i length chunk finRsvOpcode endpoint' hop hlen hclose hping t ht onmessage hset
      message hmessage =>
      obtain ⟨rfl, hread⟩ := h.content hop (hlength hop hlen)
      rw [← hmessage] at hread
      have hopcode : message.finRsvOpcode = finRsvOpcode := by rw [hmessage]; rfl
      refine h.next hop chunk (hlength hop hlen) hread .head rfl rfl ?_ rfl ?_
      · simp [start, finish, ClientInput.calls, hopcode, hclose, hping, hset]
      · simp [start, finish, ClientInput.answers, hopcode, hclose, hping, hset, sent_postTexts]
  | @ignored i length chunk finRsvOpcode endpoint' hop hlen hclose hping hnot =>
      obtain ⟨rfl, hread⟩ := h.content hop (hlength hop hlen)
      refine h.next hop chunk (hlength hop hlen) hread .head rfl rfl ?_ rfl ?_
      · simp [start, finish, ClientInput.calls, takeMessage, hclose, hping, hnot]
      · simp [start, finish, ClientInput.answers, takeMessage, hclose, hping, hnot]

end Follows

/-! ### Every run -/

/-- While its timer is there every handler has a result. -/
theorem handle_ne_none {c : WsConnection} (hstage : Stage c.pending c.member c.calls)
    (hmade : TimerMade server c) (e : Event) : handle server c e ≠ some none := by
  intro h
  cases e with
  | received i chunk => exact handle_received_ne_none hstage (fun _ => hmade) i chunk h
  | failed i => exact handle_failed_ne hmade i h
  | relay text =>
      obtain ⟨-, hresult⟩ := Option.ite_none_right_eq_some.mp h
      have hsome := isSome_send hmade text (some 0) 129
      rw [Option.some.inj hresult] at hsome
      exact absurd hsome (by simp)
  | sendClose status reason =>
      obtain ⟨-, hresult⟩ := Option.ite_none_right_eq_some.mp h
      exact absurd hresult (by simp [sendClose_eq])
  | written i =>
      rw [handle] at h
      split at h <;> exact absurd h (by simp)
  | timerExpires =>
      rw [handle] at h
      split at h <;> exact absurd h (by simp)
  | idleTimeout =>
      rw [handle] at h
      split at h
      · exact absurd h (by simp [sendClose_eq])
      · exact absurd h (by simp)
  | queue e => cases e <;> exact absurd h (by simp [handle])

/-- What holds while the stream is read. -/
structure ReadingStream (server : WsServer) (endpoint : WsEndpoint) (c₀ c : WsConnection)
    (w : Bytes) (P : Prop) : Prop where
  stage : Stage c.pending c.member c.calls
  kept : TimerKept server c
  opened : .connectionOpen ∈ c.calls
  bounded : ∀ op ∈ c.pending, Bounded op
  follows : Follows server endpoint c₀ c w P

/-- **One step** in which no length wraps keeps the invariant, with the bytes that it has brought.
-/
theorem ReadingStream.step {c₀ c c' : WsConnection} {w : Bytes} {P : Prop} {e : Event}
    (h : ReadingStream server endpoint c₀ c w P) (hcond : LengthHolds server c e)
    (hs : WsConnection.step server c e = some c') :
    ReadingStream server endpoint c₀ c' (w ++ bytesReceived c e) (P ∧ e.Reads) := by
  have hstep := (step_sound hs).2
  have hnone := handle_ne_none h.stage (h.kept h.opened) e
  exact ⟨h.stage.step hstep, h.kept.step hstep, hstep.calls_isPrefix.subset h.opened,
    bounded_step h.bounded hcond hstep, h.follows.step h.bounded hnone hstep⟩

/-- The reading starts where the first frame is awaited. -/
theorem readingStream_init {es : List Event} {c₀ : WsConnection}
    (hreach : run (WsConnection.step server) WsServer.accepted es = some c₀)
    (hpending : c₀.pending = [.readHead endpoint]) :
    ReadingStream server endpoint c₀ c₀ [] (c₀.closed = false) := by
  obtain ⟨hstage, hkept⟩ := stage_of_run hreach
  have hopen : .connectionOpen ∈ c₀.calls :=
    hstage.connectionOpen_of_reads (i := 0) (by rw [hpending]; rfl)
      (show (Pending.readHead endpoint).ReadsFrame endpoint from .head)
  have hbounded : ∀ op ∈ c₀.pending, Bounded op := by
    intro op hop
    rw [hpending, List.mem_singleton] at hop
    rw [hop]
    trivial
  refine ⟨hstage, hkept, hopen, hbounded, .reading hpending .head ?_ ?_ fun hclosed => ?_⟩
  · rw [ahead, List.append_nil]
    rfl
  · exact (List.append_nil _).symm
  · exact ⟨hclosed, (List.append_nil _).symm⟩

section Stream

variable {es₀ es : List Event} {c₀ c : WsConnection} {w : Bytes}

/-- The invariant holds at the end of every run in which no length wraps, for all the bytes that
came in it. -/
theorem readingStream_of_run
    (hreach : run (WsConnection.step server) WsServer.accepted es₀ = some c₀)
    (hpending : c₀.pending = [.readHead endpoint])
    (hrun : run (WsConnection.step server) c₀ es = some c)
    (hcond : Along (WsConnection.step server) (LengthHolds server) c₀ es)
    (hw : observe (WsConnection.step server) bytesReceived c₀ es = w) :
    ReadingStream server endpoint c₀ c w
      (c₀.closed = false ∧ Along (WsConnection.step server) (fun _ e => Event.Reads e) c₀ es) := by
  have hstream := run_invariant_observe
    (I := fun c w P => ReadingStream server endpoint c₀ c w P) (E := LengthHolds server)
    (C := fun _ e => e.Reads) (O := bytesReceived)
    (fun _ _ _ _ _ h hE hs => h.step hE hs) (readingStream_init hreach hpending) hcond hrun
  rwa [List.nil_append, hw] at hstream

/-- While the chain of reads goes on, the bytes that came before it are in front of the buffer. -/
theorem readBuffer_of_stream
    (hreach : run (WsConnection.step server) WsServer.accepted es₀ = some c₀)
    (hpending : c₀.pending = [.readHead endpoint])
    (hrun : run (WsConnection.step server) c₀ es = some c)
    (hcond : Along (WsConnection.step server) (LengthHolds server) c₀ es)
    (hw : observe (WsConnection.step server) bytesReceived c₀ es = w) (hne : c.pending ≠ []) :
    c.readBuffer = ahead c₀ w := by
  cases (readingStream_of_run hreach hpending hrun hcond hw).follows with
  | reading hop hphase hbuffer hcalls hsent => exact hbuffer
  | ended hnone hlast hcalls hsent => exact absurd hnone hne

/-- What has been called is called for what the reader takes from the stream, but for an error at
the end. -/
theorem calls_of_stream
    (hreach : run (WsConnection.step server) WsServer.accepted es₀ = some c₀)
    (hpending : c₀.pending = [.readHead endpoint])
    (hrun : run (WsConnection.step server) c₀ es = some c)
    (hcond : Along (WsConnection.step server) (LengthHolds server) c₀ es)
    (hw : observe (WsConnection.step server) bytesReceived c₀ es = w) :
    ∃ last, (last = [] ∨ c.pending = [] ∧ last = errorCalls endpoint) ∧
      c.calls = c₀.calls ++ (inputs server c₀ w).flatMap (ClientInput.calls endpoint) ++ last := by
  cases (readingStream_of_run hreach hpending hrun hcond hw).follows with
  | reading hop hphase hbuffer hcalls hsent =>
      exact ⟨[], Or.inl rfl, by rw [hcalls, List.append_nil]⟩
  | @ended hnone last hlast hcalls hsent =>
      exact ⟨last, hlast.imp id fun h => ⟨hnone, h⟩, hcalls⟩

/-- Where nothing else is sent, what has been sent are the answers to what the reader takes from
the stream. -/
theorem sent_of_stream
    (hreach : run (WsConnection.step server) WsServer.accepted es₀ = some c₀)
    (hpending : c₀.pending = [.readHead endpoint])
    (hrun : run (WsConnection.step server) c₀ es = some c)
    (hcond : Along (WsConnection.step server) (LengthHolds server) c₀ es)
    (hw : observe (WsConnection.step server) bytesReceived c₀ es = w)
    (hclosed : c₀.closed = false) (hreads : ∀ e ∈ es, e.Reads) :
    c.queue.sent =
      c₀.queue.sent ++ (inputs server c₀ w).flatMap (ClientInput.answers endpoint) := by
  have halong : Along (WsConnection.step server) (fun _ e => Event.Reads e) c₀ es :=
    along_of_forall hreads c₀
  cases (readingStream_of_run hreach hpending hrun hcond hw).follows with
  | reading hop hphase hbuffer hcalls hsent => exact (hsent ⟨hclosed, halong⟩).2
  | ended hnone hlast hcalls hsent => exact hsent ⟨hclosed, halong⟩

/-- **The read loop agrees with the reader**: from any state in which the first bytes of a frame are
awaited, for every stream of bytes and however it is cut, whatever else happens. What has been
called since, but for an error at the end, is called for what has been taken; and if nothing else is
sent, what has been sent are the answers to it. The bytes that came before are always in front of
the buffer. -/
theorem follows_stream
    (hreach : run (WsConnection.step server) WsServer.accepted es₀ = some c₀)
    (hpending : c₀.pending = [.readHead endpoint])
    (hrun : run (WsConnection.step server) c₀ es = some c)
    (hcond : Along (WsConnection.step server) (LengthHolds server) c₀ es)
    (hw : observe (WsConnection.step server) bytesReceived c₀ es = w) :
    (c.pending ≠ [] → c.readBuffer = ahead c₀ w) ∧
      (∃ last, (last = [] ∨ c.pending = [] ∧ last = errorCalls endpoint) ∧
        c.calls =
          c₀.calls ++ (inputs server c₀ w).flatMap (ClientInput.calls endpoint) ++ last) ∧
      (c₀.closed = false → (∀ e ∈ es, e.Reads) →
        c.queue.sent =
          c₀.queue.sent ++ (inputs server c₀ w).flatMap (ClientInput.answers endpoint)) :=
  ⟨readBuffer_of_stream hreach hpending hrun hcond hw,
    calls_of_stream hreach hpending hrun hcond hw, sent_of_stream hreach hpending hrun hcond hw⟩

end Stream

/-- A frame without a mask is read. -/
def unmaskedRead : List Event :=
  [.received 0 [0x81, 0x00]]

/-- A frame without a mask is read on an open connection, and ends it. -/
theorem follows_stream_unmasked :
    ∃ c₀ c, run (WsConnection.step (Bot.websocket SocketServerBase.sampleSha1 fun _ _ => 0))
        WsServer.accepted openedByClient = some c₀ ∧
      run (WsConnection.step (Bot.websocket SocketServerBase.sampleSha1 fun _ _ => 0)) c₀
        unmaskedRead = some c ∧
      (c.pending ≠ [] → c.readBuffer = ahead c₀ [0x81, 0x00]) ∧
      (∃ last, (last = [] ∨ c.pending = [] ∧ last = errorCalls Bot.echo) ∧
        c.calls = c₀.calls ++
          (inputs (Bot.websocket SocketServerBase.sampleSha1 fun _ _ => 0) c₀
            [0x81, 0x00]).flatMap (ClientInput.calls Bot.echo) ++ last) ∧
      (c₀.closed = false → (∀ e ∈ unmaskedRead, e.Reads) →
        c.queue.sent = c₀.queue.sent ++
          (inputs (Bot.websocket SocketServerBase.sampleSha1 fun _ _ => 0) c₀
            [0x81, 0x00]).flatMap (ClientInput.answers Bot.echo)) := by
  refine ⟨_, _, rfl, rfl, ?_⟩
  refine @follows_stream (Bot.websocket SocketServerBase.sampleSha1 fun _ _ => 0) Bot.echo
    openedByClient unmaskedRead _ _ _ rfl rfl rfl ⟨?_, fun _ _ => trivial⟩ rfl
  rintro i chunk finRsvOpcode endpoint - hop
  exact absurd (eq_of_getElem?_singleton hop).2 (by simp)

end WsConnection

end BoostIrc
