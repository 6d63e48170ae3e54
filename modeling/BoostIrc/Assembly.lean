import BoostIrc.ClientFrames
import BoostIrc.CloseFrame

/-!
# The Messages of a Client

The read loop hands over every frame as a message of its own: it looks at the opcode for close
frames and pings only, and at no point for `FIN`. So the fragments of a message arrive as several
messages, and so do pongs. A ping is answered with an empty pong.

The reads wait for exact numbers of bytes, so how the socket delivers the bytes of the frames
does not matter. What else happens on the connection in the meantime does not matter, either.

## Main results

* `Reading`: the operation under way against the part of the next frame that has been read.
* `Progress.received`: what one read makes of the frames read so far.
* `messages_of_frames`: **what is handed over and which pongs are sent**, for any frames.
* `ClientFrame.map_streambuf_eq_assembleFrom_iff`: when these are the messages of the client.
* `exists_run_of_frames`: any frames can be read.
-/

open Transition

namespace BoostIrc

namespace ClientFrame

/-- The message handed over for a frame, unless it is a ping. -/
def delivered (f : ClientFrame) : Option WsMessage :=
  if f.first &&& 0x0f = 9 then
    none
  else
    some { finRsvOpcode := f.first, length := f.payload.length, streambuf := f.payload }

/-- The pong sent for a ping. -/
def pong (f : ClientFrame) : Option SendData :=
  if f.first &&& 0x0f = 9 then some (SocketServerBase.send [] none (f.first + 1)) else none

/-- There are no more messages than frames that are handed over. -/
theorem length_assembleFrom_le (part : Bytes) (frames : List ClientFrame) :
    (assembleFrom part frames).length ≤ (frames.filterMap delivered).length := by
  induction frames generalizing part with
  | nil => exact Nat.zero_le _
  | cons f frames ih =>
      have hle := ih part
      have hle' := ih (part ++ f.payload)
      have hle'' := ih []
      rw [assembleFrom, List.filterMap_cons]
      by_cases hping : f.first &&& 0x0f = 9
      · have hnone : f.delivered = none := if_pos hping
        rw [hnone, hping, if_pos (by decide)]
        exact hle
      · have hsome : f.delivered = some ⟨f.first, f.payload.length, f.payload⟩ := if_neg hping
        rw [hsome]
        split_ifs <;> simp only [List.length_cons] <;> omega

/-- There are as many only where each of these frames is a message. -/
theorem whole_of_length_eq {part : Bytes} {frames : List ClientFrame}
    (h : (assembleFrom part frames).length = (frames.filterMap delivered).length) :
    ∀ f ∈ frames, f.first &&& 0x0f ≠ 9 → ¬ 8 ≤ f.first &&& 0x0f ∧ 0x80 ≤ f.first := by
  induction frames generalizing part with
  | nil => simp
  | cons f frames ih =>
      rw [assembleFrom, List.filterMap_cons] at h
      by_cases hping : f.first &&& 0x0f = 9
      · have hnone : f.delivered = none := if_pos hping
        rw [hnone, hping, if_pos (by decide)] at h
        exact List.forall_mem_cons.mpr ⟨fun hnot => absurd hping hnot, ih h⟩
      · have hsome : f.delivered = some ⟨f.first, f.payload.length, f.payload⟩ := if_neg hping
        rw [hsome] at h
        simp only [List.length_cons] at h
        split_ifs at h with hcontrol hfin
        · have hle := length_assembleFrom_le part frames
          omega
        · have hrest : (assembleFrom [] frames).length = (frames.filterMap delivered).length := by
            simpa using h
          exact List.forall_mem_cons.mpr ⟨fun _ => ⟨hcontrol, hfin⟩, ih hrest⟩
        · have hle := length_assembleFrom_le (part ++ f.payload) frames
          omega

/-- **What is handed over are the messages** exactly if every frame but a ping is a text or binary
message with `FIN`. -/
theorem map_streambuf_eq_assembleFrom_iff (frames : List ClientFrame) :
    (frames.filterMap delivered).map (·.streambuf) = assembleFrom [] frames ↔
      ∀ f ∈ frames, f.first &&& 0x0f ≠ 9 → ¬ 8 ≤ f.first &&& 0x0f ∧ 0x80 ≤ f.first := by
  constructor
  · intro h
    have hlen := congrArg List.length h
    rw [List.length_map] at hlen
    exact whole_of_length_eq hlen.symm
  · intro h
    induction frames with
    | nil => rfl
    | cons f frames ih =>
        obtain ⟨hf, hrest⟩ := List.forall_mem_cons.mp h
        rw [assembleFrom, List.filterMap_cons]
        by_cases hping : f.first &&& 0x0f = 9
        · have hnone : f.delivered = none := if_pos hping
          rw [hnone, hping, if_pos (by decide)]
          exact ih hrest
        · have hsome : f.delivered = some ⟨f.first, f.payload.length, f.payload⟩ := if_neg hping
          obtain ⟨hcontrol, hfin⟩ := hf hping
          rw [hsome, if_neg hcontrol, if_pos hfin, List.map_cons, ih hrest, List.nil_append]

end ClientFrame

/-- The frame is a pong. -/
def SendData.isPong (d : SendData) : Bool :=
  d.headerStream.headD 0 &&& 0x0f = 10

/-- The messages handed over. -/
def WsCall.messages (calls : List WsCall) : List WsMessage :=
  calls.filterMap fun x => match x with
    | .onmessage m => some m
    | _ => none

namespace WsConnection

variable {server : WsServer}

/-- The bytes that an event takes from the socket. -/
def bytesReceived (_ : WsConnection) : Event → Bytes
  | .received _ chunk => chunk
  | _ => []

/-- **The operation under way**, the buffer, the frames still to be read and the part of the first
of them that has been read. -/
inductive Reading (endpoint : WsEndpoint) :
    List Pending → Bytes → List ClientFrame → Bytes → Prop
  | head (todo : List ClientFrame) : Reading endpoint [.readHead endpoint] [] todo []
  | length (f : ClientFrame) (todo : List ClientFrame) (h : ¬ f.payload.length < 126) :
      Reading endpoint [.readLength 2 f.first endpoint] [] (f :: todo) f.head
  | content (f : ClientFrame) (todo : List ClientFrame) :
      Reading endpoint [.readContent f.payload.length f.first endpoint] [] (f :: todo)
        (f.head ++ f.extended)
  | failed (buffer : Bytes) {todo : List ClientFrame} {part : Bytes}
      (h : ∀ f ∈ todo.head?, part.length < f.encode.length) : Reading endpoint [] buffer todo part

/-- The messages handed over and the pongs sent for the frames `done`, since the state `c₀`. -/
structure HandedOver (c₀ c : WsConnection) (done : List ClientFrame) : Prop where
  messages : WsCall.messages c.calls =
    WsCall.messages c₀.calls ++ done.filterMap ClientFrame.delivered
  pongs : c.queue.sent.filter SendData.isPong =
    c₀.queue.sent.filter SendData.isPong ++ done.filterMap ClientFrame.pong

/-- **The frames read so far**, of those that the client sends: `w` is what has been received. -/
def Progress (frames : List ClientFrame) (endpoint : WsEndpoint) (c₀ c : WsConnection)
    (w : Bytes) : Prop :=
  ∃ done todo part, frames = done ++ todo ∧ w = done.flatMap ClientFrame.encode ++ part ∧
    Reading endpoint c.pending c.readBuffer todo part ∧ HandedOver c₀ c done

/-! ### The operation under way -/

section Reading

variable {endpoint endpoint' : WsEndpoint} {pending : List Pending} {buffer part : Bytes}
  {todo : List ClientFrame}

/-- There is one operation at most, and it reads a frame. -/
theorem Reading.eq_singleton (h : Reading endpoint pending buffer todo part) {i : ℕ}
    {op : Pending} (hop : pending[i]? = some op) :
    pending = [op] ∧ pending.eraseIdx i = [] ∧ op.ReadsFrame endpoint := by
  cases h with
  | head todo =>
      obtain ⟨rfl, rfl⟩ := eq_of_getElem?_singleton hop
      exact ⟨rfl, rfl, .head⟩
  | length f todo h =>
      obtain ⟨rfl, rfl⟩ := eq_of_getElem?_singleton hop
      exact ⟨rfl, rfl, .length 2 f.first⟩
  | content f todo =>
      obtain ⟨rfl, rfl⟩ := eq_of_getElem?_singleton hop
      exact ⟨rfl, rfl, .content f.payload.length f.first⟩
  | failed buffer h => exact absurd hop (by simp)

/-- While the first two bytes of a frame are awaited, nothing of a frame has come, and the buffer is
empty. -/
theorem Reading.of_head (h : Reading endpoint [.readHead endpoint'] buffer todo part) :
    endpoint' = endpoint ∧ buffer = [] ∧ part = [] := by
  cases h with
  | head todo => exact ⟨rfl, rfl, rfl⟩

/-- While a longer length is awaited, the first part of a frame has come, and the frame has such a
length. -/
theorem Reading.of_length {numBytes : ℕ} {finRsvOpcode : Byte}
    (h : Reading endpoint [.readLength numBytes finRsvOpcode endpoint'] buffer todo part) :
    ∃ f todo', todo = f :: todo' ∧ ¬ f.payload.length < 126 ∧ endpoint' = endpoint ∧
      numBytes = 2 ∧ finRsvOpcode = f.first ∧ buffer = [] ∧ part = f.head := by
  cases h with
  | length f todo' hlong => exact ⟨f, todo', rfl, hlong, rfl, rfl, rfl, rfl, rfl⟩

/-- While the mask and the payload are awaited, all the rest of a frame has come. -/
theorem Reading.of_content {length : ℕ} {finRsvOpcode : Byte}
    (h : Reading endpoint [.readContent length finRsvOpcode endpoint'] buffer todo part) :
    ∃ f todo', todo = f :: todo' ∧ endpoint' = endpoint ∧ length = f.payload.length ∧
      finRsvOpcode = f.first ∧ buffer = [] ∧ part = f.head ++ f.extended := by
  cases h with
  | content f todo' => exact ⟨f, todo', rfl, rfl, rfl, rfl, rfl, rfl⟩

/-- Less than a frame has been read of the frames still to be read. -/
theorem Reading.length_lt (h : Reading endpoint pending buffer todo part) :
    ∀ f ∈ todo.head?, part.length < f.encode.length := by
  have hencode : ∀ f : ClientFrame, f.encode.length =
      f.head.length + f.extended.length + (4 + f.payload.length) := by
    intro f
    rw [ClientFrame.encode, List.length_append, List.length_append, f.length_content]
  cases h with
  | head todo =>
      intro f hf
      rw [hencode, List.length_nil]
      omega
  | length f todo h =>
      intro f' hf'
      obtain rfl := Option.some.inj hf'
      rw [hencode]
      omega
  | content f todo =>
      intro f' hf'
      obtain rfl := Option.some.inj hf'
      rw [hencode, List.length_append]
      omega
  | failed buffer h => exact h

end Reading

/-- A read of the length of a part of the next frame gets this part. -/
theorem chunk_eq {frames done todo : List ClientFrame} {f : ClientFrame}
    {w chunk a v : Bytes} (part : Bytes) (hframes : frames = done ++ f :: todo)
    (hw : w = done.flatMap ClientFrame.encode ++ part)
    (hencode : f.encode = part ++ (a ++ v))
    (h : w ++ chunk <+: frames.flatMap ClientFrame.encode) (hlen : chunk.length = a.length) :
    chunk = a := by
  rw [hframes, hw, List.flatMap_append, List.flatMap_cons, hencode, List.append_assoc,
    List.append_assoc, List.prefix_append_right_inj, List.prefix_append_right_inj,
    List.append_assoc] at h
  have hpart := List.prefix_of_prefix_length_le h (List.prefix_append a _) hlen.le
  exact hpart.eq_of_length hlen

/-- Bytes that are read are those of a frame. -/
theorem exists_cons_of_read {frames done todo : List ClientFrame} {w chunk : Bytes}
    (hframes : frames = done ++ todo) (hw : w = done.flatMap ClientFrame.encode)
    (h : w ++ chunk <+: frames.flatMap ClientFrame.encode) (hlen : chunk.length ≠ 0) :
    ∃ f todo', todo = f :: todo' := by
  cases todo with
  | cons f todo' => exact ⟨f, todo', rfl⟩
  | nil =>
      rw [hframes, hw, List.append_nil] at h
      have hle := h.length_le
      rw [List.length_append] at hle
      omega

/-! ### The steps -/

/-- The calls at the end hand nothing over. -/
theorem messages_append_end {calls last : List WsCall} {endpoint : WsEndpoint}
    (hlast : EndCalls endpoint last) :
    WsCall.messages (calls ++ last) = WsCall.messages calls := by
  have hnone : WsCall.messages last = [] := by
    refine List.filterMap_eq_nil_iff.mpr fun x hx => ?_
    have hplace := hlast.spec.2.2.2 x hx
    cases x with
    | onmessage m => exact absurd hplace (by simp [WsCall.place])
    | _ => rfl
  rw [WsCall.messages, List.filterMap_append, ← WsCall.messages, ← WsCall.messages, hnone,
    List.append_nil]

/-- A step that hands no message over and sends no pong changes neither of the two lists. -/
theorem HandedOver.of_sent {c₀ c c' : WsConnection} {done : List ClientFrame}
    (h : HandedOver c₀ c done) (frames : List SendData)
    (hmessages : WsCall.messages c'.calls = WsCall.messages c.calls)
    (hsent : c'.queue.sent = c.queue.sent ++ frames) (hframes : ∀ d ∈ frames, ¬ d.isPong) :
    HandedOver c₀ c' done := by
  refine ⟨hmessages.trans h.messages, ?_⟩
  rw [hsent, List.filter_append, List.filter_eq_nil_iff.mpr hframes, List.append_nil]
  exact h.pongs

/-- A text is no pong. -/
theorem not_isPong_text (text : Bytes) : ¬ (SocketServerBase.send text (some 0)).isPong :=
  (by decide : ¬ (decide ((129 : Byte) &&& 0x0f = 10)) = true)

/-- A close frame is no pong. -/
theorem not_isPong_closeFrame (status : ℕ) (reason : Bytes) (callback : Option ℕ) :
    ¬ (closeFrame status reason callback).isPong :=
  (by decide : ¬ (decide ((136 : Byte) &&& 0x0f = 10)) = true)

/-- The answer to a ping is a pong. -/
theorem isPong_pong {finRsvOpcode : Byte} (h : finRsvOpcode &&& 0x0f = 9) :
    (SocketServerBase.send [] none (finRsvOpcode + 1)).isPong = true := by
  exact decide_eq_true (opcode_pong h)

/-- A close frame, or none if one has been sent, changes neither of the two lists. -/
theorem HandedOver.closing {c₀ c c' : WsConnection} {done : List ClientFrame}
    (h : HandedOver c₀ c done) {status : ℕ} {reason : Bytes} {callback : Option ℕ}
    (hmessages : WsCall.messages c'.calls = WsCall.messages c.calls)
    (hqueue : c'.queue =
      if c.closed then c.queue else c.queue.post (closeFrame status reason callback)) :
    HandedOver c₀ c' done := by
  split_ifs at hqueue
  · exact h.of_sent [] hmessages (by rw [hqueue, List.append_nil]) (by simp)
  · refine h.of_sent [closeFrame status reason callback] hmessages
      (by rw [hqueue]; rfl) ?_
    intro d hd
    rw [List.mem_singleton.mp hd]
    exact not_isPong_closeFrame status reason callback

/-- Nothing is received, and the reads under way stay what they are. -/
theorem Progress.keep {frames : List ClientFrame} {endpoint : WsEndpoint}
    {c₀ c c' : WsConnection} {w : Bytes} (h : Progress frames endpoint c₀ c w)
    (hpending : c'.pending = c.pending) (hbuffer : c'.readBuffer = c.readBuffer)
    (hhanded : ∀ done, HandedOver c₀ c done → HandedOver c₀ c' done) :
    Progress frames endpoint c₀ c' (w ++ []) := by
  obtain ⟨done, todo, part, hframes, hw, hreading, hdone⟩ := h
  refine ⟨done, todo, part, hframes, by rw [List.append_nil, hw], ?_, hhanded done hdone⟩
  rw [hpending, hbuffer]
  exact hreading

/-- The operation under way fails, and with it the chain of reads ends. -/
theorem Progress.fail {frames : List ClientFrame} {endpoint : WsEndpoint}
    {c₀ c c' : WsConnection} {w : Bytes} (h : Progress frames endpoint c₀ c w)
    (hpending : c'.pending = [])
    (hhanded : ∀ done, HandedOver c₀ c done → HandedOver c₀ c' done) :
    Progress frames endpoint c₀ c' (w ++ []) := by
  obtain ⟨done, todo, part, hframes, hw, hreading, hdone⟩ := h
  refine ⟨done, todo, part, hframes, by rw [List.append_nil, hw], ?_, hhanded done hdone⟩
  rw [hpending]
  exact .failed _ hreading.length_lt

section Step

variable {frames : List ClientFrame} {endpoint endpoint' : WsEndpoint} {c₀ c c' : WsConnection}
  {w chunk : Bytes} {i : ℕ}

/-- **The first two bytes of a frame are read.** What has been received ends with a whole frame
before this read, so the two bytes are the head of the next one, and no other read is under way. -/
theorem Progress.head (h : Progress frames endpoint c₀ c w)
    (hop : c.pending[i]? = some (.readHead endpoint')) (hlen : chunk.length = 2)
    (hpart : w ++ chunk <+: frames.flatMap ClientFrame.encode) :
    ∃ done f todo, frames = done ++ f :: todo ∧ w = done.flatMap ClientFrame.encode ∧
      chunk = f.head ∧ endpoint' = endpoint ∧ c.readBuffer = [] ∧ c.pending.eraseIdx i = [] ∧
        HandedOver c₀ c done := by
  obtain ⟨done, todo, part, hframes, hw, hreading, hdone⟩ := h
  obtain ⟨hsingle, herase, -⟩ := hreading.eq_singleton hop
  rw [hsingle] at hreading
  obtain ⟨rfl, hbuffer, rfl⟩ := hreading.of_head
  rw [List.append_nil] at hw
  obtain ⟨f, todo', rfl⟩ := exists_cons_of_read hframes hw hpart (by omega)
  have hchunk : chunk = f.head := by
    refine chunk_eq [] (v := f.extended ++ f.content) hframes (by rw [hw]; simp) ?_
      hpart hlen
    rw [ClientFrame.encode, List.append_assoc, List.nil_append]
  exact ⟨done, f, todo', hframes, hw, hchunk, rfl, hbuffer, herase, hdone⟩

/-- **The mask and the payload of a frame are read.** The read asks for as many bytes as the head
has announced; with them the frame is complete, and the length and the first byte that the handler
was given are those of this frame. -/
theorem Progress.content (h : Progress frames endpoint c₀ c w) {length : ℕ} {finRsvOpcode : Byte}
    (hop : c.pending[i]? = some (.readContent length finRsvOpcode endpoint'))
    (hlen : chunk.length = (4 + length) % 2 ^ 64)
    (hpart : w ++ chunk <+: frames.flatMap ClientFrame.encode) :
    ∃ done f todo, frames = done ++ f :: todo ∧
      w ++ chunk = (done ++ [f]).flatMap ClientFrame.encode ∧ chunk = f.content ∧
        endpoint' = endpoint ∧ length = f.payload.length ∧ finRsvOpcode = f.first ∧
          c.readBuffer = [] ∧ c.pending.eraseIdx i = [] ∧ HandedOver c₀ c done := by
  obtain ⟨done, todo, part, hframes, hw, hreading, hdone⟩ := h
  obtain ⟨hsingle, herase, -⟩ := hreading.eq_singleton hop
  rw [hsingle] at hreading
  obtain ⟨f, todo', rfl, rfl, rfl, rfl, hbuffer, rfl⟩ := hreading.of_content
  have hle := f.payload_length
  have hchunk : chunk = f.content := by
    refine chunk_eq _ (v := []) hframes hw ?_ hpart ?_
    · rw [ClientFrame.encode, List.append_nil]
    · rw [hlen, f.length_content]
      exact Nat.mod_eq_of_lt (by omega)
  refine ⟨done, f, todo', hframes, ?_, hchunk, rfl, rfl, rfl, hbuffer, herase, hdone⟩
  rw [hw, hchunk, List.flatMap_append, List.flatMap_singleton, ClientFrame.encode]
  simp only [List.append_assoc]

/-- The bytes of a longer length are read. -/
theorem Progress.length (h : Progress frames endpoint c₀ c w) {numBytes : ℕ} {finRsvOpcode : Byte}
    (hop : c.pending[i]? = some (.readLength numBytes finRsvOpcode endpoint'))
    (hlen : chunk.length = numBytes)
    (hpart : w ++ chunk <+: frames.flatMap ClientFrame.encode) :
    ∃ done f todo, frames = done ++ f :: todo ∧
      w ++ chunk = done.flatMap ClientFrame.encode ++ (f.head ++ f.extended) ∧
        chunk = f.extended ∧ ¬ f.payload.length < 126 ∧ endpoint' = endpoint ∧ numBytes = 2 ∧
          finRsvOpcode = f.first ∧ c.readBuffer = [] ∧ c.pending.eraseIdx i = [] ∧
            HandedOver c₀ c done := by
  obtain ⟨done, todo, part, hframes, hw, hreading, hdone⟩ := h
  obtain ⟨hsingle, herase, -⟩ := hreading.eq_singleton hop
  rw [hsingle] at hreading
  obtain ⟨f, todo', rfl, hlong, rfl, rfl, rfl, hbuffer, rfl⟩ := hreading.of_length
  have hchunk : chunk = f.extended := by
    refine chunk_eq _ (v := f.content) hframes hw ?_ hpart ?_
    · rw [ClientFrame.encode, List.append_assoc]
    · rw [hlen, ClientFrame.extended, if_neg hlong]
      rfl
  refine ⟨done, f, todo', hframes, ?_, hchunk, hlong, rfl, rfl, rfl, hbuffer, herase, hdone⟩
  rw [hw, hchunk, List.append_assoc]

/-- The operation under way reads a frame. -/
theorem Progress.readsFrame (h : Progress frames endpoint c₀ c w) {op : Pending}
    (hop : c.pending[i]? = some op) : op.ReadsFrame endpoint ∧ c.pending.eraseIdx i = [] := by
  obtain ⟨done, todo, part, -, -, hreading, -⟩ := h
  obtain ⟨-, herase, hread⟩ := hreading.eq_singleton hop
  exact ⟨hread, herase⟩

/-- The content of a frame has been read, and the next frame is awaited. -/
theorem Progress.next {f : ClientFrame} {done todo : List ClientFrame}
    (hframes : frames = done ++ f :: todo) (hw : w = (done ++ [f]).flatMap ClientFrame.encode)
    (hpending : c'.pending = [.readHead endpoint]) (hbuffer : c'.readBuffer = [])
    (hmessages : WsCall.messages c'.calls =
      WsCall.messages c₀.calls ++ (done ++ [f]).filterMap ClientFrame.delivered)
    (hpongs : c'.queue.sent.filter SendData.isPong =
      c₀.queue.sent.filter SendData.isPong ++ (done ++ [f]).filterMap ClientFrame.pong) :
    Progress frames endpoint c₀ c' w := by
  refine ⟨done ++ [f], todo, [], ?_, ?_, ?_, ⟨hmessages, hpongs⟩⟩
  · rw [hframes, List.append_assoc, List.singleton_append]
  · rw [hw, List.append_nil]
  · rw [hpending, hbuffer]
    exact .head todo

/-- **One step**: what has been handed over are the messages in the frames that have come whole, and
the rest of the bytes is what has come of the next one. -/
theorem Progress.step {onmessage : WsMessage → List Bytes}
    (hset : endpoint.onmessage = some onmessage)
    (hlegal : ∀ f ∈ frames, f.first &&& 0x0f ≠ 8) (h : Progress frames endpoint c₀ c w)
    {e : Event} (hnone : ∀ i chunk, e = .received i chunk → handle server c e ≠ some none)
    (hs : Step server c e c')
    (hpart : w ++ bytesReceived c e <+: frames.flatMap ClientFrame.encode) :
    Progress frames endpoint c₀ c' (w ++ bytesReceived c e) := by
  cases hs with
  | undefined hundefined =>
      cases e with
      | received i chunk => exact absurd hundefined (hnone i chunk rfl)
      | _ => exact h.keep rfl rfl fun _ hd => ⟨hd.messages, hd.pongs⟩
  | queue hq hsend =>
      refine h.keep rfl rfl fun _ hd => hd.of_sent [] rfl ?_ (by simp)
      rw [List.append_nil]
      exact Connection.sent_of_step hsend hq
  | timerExpires ht => exact h.keep rfl rfl fun _ hd => ⟨hd.messages, hd.pongs⟩
  | idleTimeout ht => exact h.keep rfl rfl fun _ hd => hd.closing rfl rfl
  | sendClose hopen => exact h.keep rfl rfl fun _ hd => hd.closing rfl rfl
  | @relay text hopen t ht =>
      refine h.keep rfl rfl fun _ hd => hd.of_sent _ rfl (sent_postTexts c.queue [text]) ?_
      intro d hd'
      rw [List.mem_singleton.mp hd']
      exact not_isPong_text text
  | handshakeFailed hop => exact absurd (h.readsFrame hop).1 nofun
  | handshakeDropped hop rest => exact absurd (h.readsFrame hop).1 nofun
  | handshakeRead hop rest endpoint => exact absurd (h.readsFrame hop).1 nofun
  | opened hop ht => exact absurd (h.readsFrame hop).1 nofun
  | error hop hendpoint ht =>
      refine h.fail (h.readsFrame hop).2 fun _ hd => hd.of_sent [] ?_ ?_ (by simp)
      · exact messages_append_end .error
      · rw [List.append_nil]
        rfl
  | @again i endpoint' hop =>
      obtain ⟨done, todo, part, hframes, hw, hreading, hdone⟩ := h
      obtain ⟨hsingle, herase, -⟩ := hreading.eq_singleton hop
      rw [hsingle] at hreading
      obtain ⟨rfl, hbuffer, rfl⟩ := hreading.of_head
      refine ⟨done, todo, [], hframes, by rw [hw]; simp [bytesReceived], ?_,
        ⟨hdone.messages, hdone.pongs⟩⟩
      simp only [start, finish, herase, hbuffer, List.append_nil, List.nil_append]
      exact .head todo
  | @unmasked i chunk endpoint' hop hlen hmask t ht =>
      obtain ⟨done, f, todo, -, -, rfl, rfl, hbuffer, -, -⟩ := h.head hop hlen hpart
      rw [hbuffer] at hmask
      exact absurd hmask f.not_second_lt
  | @head i chunk endpoint' hop hlen hmask =>
      obtain ⟨done, f, todo, hframes, hw, rfl, rfl, hbuffer, herase, hdone⟩ :=
        h.head hop hlen hpart
      have hnext : afterHead f.first (UInt8.ofNat (128 + f.lengthCode)) endpoint' =
          if f.payload.length < 126 then .readContent f.payload.length f.first endpoint'
          else .readLength 2 f.first endpoint' := f.afterHead_head endpoint'
      refine ⟨done, f :: todo, f.head, hframes, by rw [hw]; rfl, ?_,
        ⟨hdone.messages, hdone.pongs⟩⟩
      simp only [start, finish, herase, hbuffer, List.nil_append]
      change Reading endpoint' [afterHead f.first (UInt8.ofNat (128 + f.lengthCode)) endpoint'] []
        (f :: todo) f.head
      rw [hnext]
      split_ifs with hshort
      · have hextended : f.head = f.head ++ f.extended := by
          rw [ClientFrame.extended, if_pos hshort, List.append_nil]
        rw [hextended]
        exact .content f todo
      · exact .length f todo hshort
  | @length i numBytes chunk finRsvOpcode endpoint' hop hlen =>
      obtain ⟨done, f, todo, hframes, hw, rfl, hlong, rfl, rfl, rfl, hbuffer, herase, hdone⟩ :=
        h.length hop hlen hpart
      refine ⟨done, f :: todo, f.head ++ f.extended, hframes, hw, ?_,
        ⟨hdone.messages, hdone.pongs⟩⟩
      have hdrop : f.extended.drop 2 = [] := List.drop_eq_nil_of_le hlen.le
      simp only [lengthRead, start, finish, herase, hbuffer, List.nil_append,
        f.decodeLength_extended server hlong, hdrop]
      exact .content f todo
  | @close i length chunk finRsvOpcode endpoint' hop hlen hclose t ht message hmessage =>
      obtain ⟨done, f, todo, hframes, -, -, -, -, rfl, -, -, -⟩ := h.content hop hlen hpart
      exact absurd hclose (hlegal f (by simp [hframes]))
  | @ping i length chunk finRsvOpcode endpoint' hop hlen hping t ht =>
      obtain ⟨done, f, todo, hframes, hw, rfl, rfl, rfl, rfl, hbuffer, herase, hdone⟩ :=
        h.content hop hlen hpart
      refine .next hframes hw ?_ ?_ ?_ ?_
      · simp only [start, finish, herase, List.nil_append]
      · simp only [start, finish, hbuffer, List.nil_append, f.drop_content]
      · rw [List.filterMap_append, ← List.append_assoc, ← hdone.messages]
        simp [ClientFrame.delivered, hping, start, finish]
      · rw [List.filterMap_append, ← List.append_assoc, ← hdone.pongs]
        simp [ClientFrame.pong, hping, start, Connection.post, List.filter_append,
          isPong_pong hping]
  | @message i length chunk finRsvOpcode endpoint' hop hlen hclose hping t ht onmessage hset
      message hmessage =>
      obtain ⟨done, f, todo, hframes, hw, rfl, rfl, rfl, rfl, hbuffer, herase, hdone⟩ :=
        h.content hop hlen hpart
      rw [hbuffer, List.nil_append, f.takeMessage_content] at hmessage
      refine .next hframes hw ?_ ?_ ?_ ?_
      · simp only [start, finish, herase, List.nil_append]
      · simp only [start, finish, hbuffer, List.nil_append, f.drop_content]
      · rw [List.filterMap_append, ← List.append_assoc, ← hdone.messages]
        simp [ClientFrame.delivered, hping, start, hmessage, WsCall.messages]
      · rw [List.filterMap_append, ← List.append_assoc, ← hdone.pongs]
        simp [ClientFrame.pong, hping, start, sent_postTexts, List.filter_append,
          List.filter_eq_nil_iff, not_isPong_text]
  | @ignored i length chunk finRsvOpcode endpoint' hop hlen hclose hping hnot =>
      obtain ⟨done, f, todo, -, -, -, rfl, -, -, -, -, -⟩ := h.content hop hlen hpart
      exact absurd hset (by simp [hnot])

end Step

/-- The handlers of the reads have a result while the timer is there. -/
theorem handle_received_ne {c : WsConnection} (hmade : TimerMade server c) {i : ℕ} {chunk : Bytes}
    {endpoint : WsEndpoint} (hread : ∀ op, c.pending[i]? = some op → op.ReadsFrame endpoint) :
    handle server c (.received i chunk) ≠ some none := by
  intro hnone
  rw [handle] at hnone
  cases hop : c.pending[i]? with
  | none => simp [hop] at hnone
  | some op =>
      simp only [hop] at hnone
      obtain ⟨-, hresult⟩ := Option.ite_none_right_eq_some.mp hnone
      have hsome : (complete server (c.finish i chunk) chunk.length op).isSome := by
        cases hread op hop with
        | head => exact isSome_headRead (c := c.finish i chunk) hmade endpoint chunk.length
        | length numBytes finRsvOpcode => rfl
        | content length finRsvOpcode =>
            exact isSome_contentRead (c := c.finish i chunk) hmade length finRsvOpcode endpoint
      rw [Option.some.inj hresult] at hsome
      exact absurd hsome (by simp)

/-- **What holds while the frames are read**, in any run that receives nothing else. -/
def ReadingFrames (server : WsServer) (frames : List ClientFrame) (endpoint : WsEndpoint)
    (c₀ c : WsConnection) (w : Bytes) : Prop :=
  TimerKept server c ∧ .connectionOpen ∈ c.calls ∧
    (w <+: frames.flatMap ClientFrame.encode → Progress frames endpoint c₀ c w)

/-- **One step** of a connection that reads frames, with the stage and the timer that it needs for
its handlers to return. -/
theorem ReadingFrames.step {frames : List ClientFrame} {endpoint : WsEndpoint}
    {onmessage : WsMessage → List Bytes} (hset : endpoint.onmessage = some onmessage)
    (hlegal : ∀ f ∈ frames, f.first &&& 0x0f ≠ 8) {c₀ c c' : WsConnection} {w : Bytes} {e : Event}
    (h : ReadingFrames server frames endpoint c₀ c w)
    (hs : WsConnection.step server c e = some c') :
    ReadingFrames server frames endpoint c₀ c' (w ++ bytesReceived c e) := by
  obtain ⟨hkept, hopen, hprogress⟩ := h
  have hstep := (step_sound hs).2
  refine ⟨hkept.step hstep, hstep.calls_isPrefix.subset hopen, fun hpart => ?_⟩
  have hbefore := hprogress ((List.prefix_append _ _).trans hpart)
  refine hbefore.step hset hlegal ?_ hstep hpart
  rintro i chunk rfl
  exact handle_received_ne (hkept hopen) fun op hop => (hbefore.readsFrame hop).1

/-- Every reachable connection is at one of the stages, and its timer is there. -/
theorem stage_of_run {es : List Event} {c : WsConnection}
    (h : run (step server) WsServer.accepted es = some c) :
    Stage c.pending c.member c.calls ∧ TimerKept server c := by
  refine run_invariant (C := fun _ _ => True)
    (I := fun c => Stage c.pending c.member c.calls ∧ TimerKept server c) ?_ ?_
    (along_of_forall (fun _ _ => trivial) _) h
  · rintro c e c' ⟨hstage, hkept⟩ - hs
    exact ⟨hstage.step (step_sound hs).2, hkept.step (step_sound hs).2⟩
  · exact ⟨.handshake, fun hopen => absurd hopen (by simp [WsServer.accepted])⟩

/-! ### A run that reads the frames -/

/-- The next frame is awaited, and its handlers have a result. -/
structure Awaits (server : WsServer) (endpoint : WsEndpoint) (c : WsConnection) : Prop where
  defined : c.undefined = false
  pending : c.pending = [.readHead endpoint]
  readBuffer : c.readBuffer = []
  timerMade : TimerMade server c

section Awaits

variable {endpoint : WsEndpoint} {c : WsConnection}

/-- A read that has got its bytes is completed. -/
theorem step_received {c' : WsConnection} {op : Pending} {chunk : Bytes}
    (hdefined : c.undefined = false) (hpending : c.pending = [op])
    (hcompletes : op.completes chunk)
    (h : complete server (c.finish 0 chunk) chunk.length op = some c') :
    WsConnection.step server c (.received 0 chunk) = some c' := by
  have hop : c.pending[0]? = some op := by
    rw [hpending]
    rfl
  simp only [WsConnection.step, hdefined, handle, hop, hcompletes, h]
  rfl

/-- The first two bytes of a frame can be read. -/
theorem step_head (h : Awaits server endpoint c) (f : ClientFrame) :
    WsConnection.step server c (.received 0 f.head) = some { c with
      pending := [if f.payload.length < 126 then .readContent f.payload.length f.first endpoint
        else .readLength 2 f.first endpoint] } := by
  refine step_received h.defined h.pending (by simp [Pending.completes, f.length_head]) ?_
  rw [← f.afterHead_head endpoint]
  have hlen : f.head.length ≠ 0 := by simp [f.length_head]
  rw [complete, headRead, if_neg hlen]
  simp only [finish, h.readBuffer, h.pending]
  exact if_neg f.not_second_lt

/-- The bytes of a longer length can be read. -/
theorem step_extended (server : WsServer) (endpoint : WsEndpoint)
    (hdefined : c.undefined = false) (hbuffer : c.readBuffer = []) {f : ClientFrame}
    (hlong : ¬ f.payload.length < 126)
    (hpending : c.pending = [.readLength 2 f.first endpoint]) :
    WsConnection.step server c (.received 0 f.extended) = some { c with
      pending := [.readContent f.payload.length f.first endpoint] } := by
  have hlen : f.extended.length = 2 := by
    rw [ClientFrame.extended, if_neg hlong]
    rfl
  have hdrop : f.extended.drop 2 = [] := List.drop_eq_nil_of_le hlen.le
  refine step_received hdefined hpending (by simp [Pending.completes, hlen]) ?_
  simp [complete, lengthRead, finish, start, hpending, hdrop,
    f.decodeLength_extended server hlong, hbuffer]

/-- The mask and the payload can be read, and then the next frame is awaited. -/
theorem exists_step_content (hdefined : c.undefined = false) (hbuffer : c.readBuffer = [])
    (hmade : TimerMade server c) {f : ClientFrame} (hlegal : f.first &&& 0x0f ≠ 8)
    (hpending : c.pending = [.readContent f.payload.length f.first endpoint]) :
    ∃ c', WsConnection.step server c (.received 0 f.content) = some c' ∧
      Awaits server endpoint c' := by
  have hle := f.payload_length
  have hlen : f.content.length = (4 + f.payload.length) % 2 ^ 64 := by
    rw [f.length_content, Nat.mod_eq_of_lt (by omega)]
  obtain ⟨c', hc'⟩ := Option.isSome_iff_exists.mp
    (isSome_contentRead (c := c.finish 0 f.content) hmade f.payload.length f.first endpoint)
  have hstep : WsConnection.step server c (.received 0 f.content) = some c' :=
    step_received hdefined hpending (decide_eq_true hlen) hc'
  refine ⟨c', hstep, ?_⟩
  have hdrop : (c.readBuffer ++ f.content).drop (4 + f.payload.length) = [] := by
    rw [hbuffer, List.nil_append, f.drop_content]
  have herase : c.pending.eraseIdx 0 = [] := by
    rw [hpending]
    rfl
  rw [contentRead, if_neg hlegal] at hc'
  split_ifs at hc' with hping
  · obtain ⟨c₁, hsend, hc'⟩ := Option.bind_eq_some_iff.mp hc'
    obtain ⟨t, ht, rfl⟩ := eq_of_send hsend
    obtain rfl := Option.some.inj hc'
    refine ⟨hdefined, by simp [start, finish, herase], hdrop, fun htimeout => ?_⟩
    exact ht.trans (hmade htimeout)
  · cases hset : endpoint.onmessage with
    | none =>
        rw [hset] at hc'
        obtain rfl := Option.some.inj hc'
        exact ⟨hdefined, by simp [start, finish, herase], hdrop, hmade⟩
    | some onmessage =>
        rw [hset] at hc'
        obtain ⟨c₁, hreset, hc'⟩ := Option.bind_eq_some_iff.mp hc'
        obtain ⟨t₁, ht₁, rfl⟩ := eq_of_timerIdleReset hreset
        obtain ⟨c₂, hsend, hc'⟩ := Option.bind_eq_some_iff.mp hc'
        obtain ⟨t, ht, rfl⟩ := eq_of_sendAll hsend
        obtain rfl := Option.some.inj hc'
        refine ⟨hdefined, by simp [start, finish, herase], hdrop, fun htimeout => ?_⟩
        exact (ht.trans ht₁).trans (hmade htimeout)

/-- A frame can be read, in two or three reads, and then the next one is awaited. -/
theorem exists_run_of_frame (h : Awaits server endpoint c) {f : ClientFrame}
    (hlegal : f.first &&& 0x0f ≠ 8) :
    ∃ es c', run (WsConnection.step server) c es = some c' ∧
      observe (WsConnection.step server) bytesReceived c es = f.encode ∧
        Awaits server endpoint c' := by
  have hhead := step_head h f
  split_ifs at hhead with hshort
  · obtain ⟨c', hcontent, hawaits⟩ := exists_step_content
      (c := { c with pending := [.readContent f.payload.length f.first endpoint] }) h.defined
      h.readBuffer h.timerMade hlegal rfl
    refine ⟨[.received 0 f.head, .received 0 f.content], c', ?_, ?_, hawaits⟩
    · simp [run, hhead, hcontent]
    · simp [observe, hhead, hcontent, bytesReceived, ClientFrame.encode, ClientFrame.extended,
        hshort]
  · have hextended := step_extended server endpoint
      (c := { c with pending := [.readLength 2 f.first endpoint] }) h.defined h.readBuffer hshort
      rfl
    obtain ⟨c', hcontent, hawaits⟩ := exists_step_content
      (c := { c with pending := [.readContent f.payload.length f.first endpoint] }) h.defined
      h.readBuffer h.timerMade hlegal rfl
    refine ⟨[.received 0 f.head, .received 0 f.extended, .received 0 f.content], c', ?_, ?_,
      hawaits⟩
    · simp [run, hhead, hextended, hcontent]
    · simp [observe, hhead, hextended, hcontent, bytesReceived, ClientFrame.encode]

/-- **There is a run that reads the frames**, and the next one is awaited after it. So the frames of
a message can arrive in every state in which a frame is awaited: what is said of all such runs is
not said of none. -/
theorem exists_run_of_frames (h : Awaits server endpoint c) {frames : List ClientFrame}
    (hlegal : ∀ f ∈ frames, f.first &&& 0x0f ≠ 8) :
    ∃ es c', run (WsConnection.step server) c es = some c' ∧
      observe (WsConnection.step server) bytesReceived c es =
        frames.flatMap ClientFrame.encode ∧ Awaits server endpoint c' := by
  induction frames generalizing c with
  | nil => exact ⟨[], c, rfl, rfl, h⟩
  | cons f frames ih =>
      obtain ⟨es, c₁, hrun, hbytes, hawaits⟩ := exists_run_of_frame h (hlegal f List.mem_cons_self)
      obtain ⟨fs, c', hrest, hbytes', hawaits'⟩ :=
        ih hawaits fun g hg => hlegal g (List.mem_cons_of_mem f hg)
      refine ⟨es ++ fs, c', ?_, ?_, hawaits'⟩
      · rw [run_append_of_some hrun, hrest]
      · rw [observe_append_of_some hrun, hbytes, hbytes', List.flatMap_cons]

end Awaits

/-- **What is handed over**, for any frames that are no close frames, read from any state in which
the next frame is awaited and the buffer is empty: a message for each frame that is no ping, and an
empty pong for each ping. -/
theorem messages_of_frames {es₀ es : List Event} {c₀ c : WsConnection} {endpoint : WsEndpoint}
    {onmessage : WsMessage → List Bytes} {frames : List ClientFrame}
    (hreach : run (step server) WsServer.accepted es₀ = some c₀)
    (hpending : c₀.pending = [.readHead endpoint]) (hbuffer : c₀.readBuffer = [])
    (hset : endpoint.onmessage = some onmessage) (hlegal : ∀ f ∈ frames, f.first &&& 0x0f ≠ 8)
    (hrun : run (step server) c₀ es = some c)
    (hbytes : observe (step server) bytesReceived c₀ es = frames.flatMap ClientFrame.encode) :
    WsCall.messages c.calls =
        WsCall.messages c₀.calls ++ frames.filterMap ClientFrame.delivered ∧
      c.queue.sent.filter SendData.isPong =
        c₀.queue.sent.filter SendData.isPong ++ frames.filterMap ClientFrame.pong := by
  obtain ⟨hstage, hkept⟩ := stage_of_run hreach
  have hopen : .connectionOpen ∈ c₀.calls :=
    hstage.connectionOpen_of_reads (i := 0) (by rw [hpending]; rfl)
      (show (Pending.readHead endpoint).ReadsFrame endpoint from .head)
  have hstart : ReadingFrames server frames endpoint c₀ c₀ [] := by
    refine ⟨hkept, hopen, fun _ => ⟨[], frames, [], rfl, rfl, ?_, by simp, by simp⟩⟩
    rw [hpending, hbuffer]
    exact .head frames
  obtain ⟨-, -, hprogress⟩ := run_invariant_iff (C := fun _ _ => True) (P := True)
    (I := fun c w _ => ReadingFrames server frames endpoint c₀ c w)
    (fun _ _ _ _ _ h hs => h.step hset hlegal hs) hstart hrun
  rw [List.nil_append, hbytes] at hprogress
  obtain ⟨done, todo, part, hframes, hw, hreading, hdone⟩ := hprogress (List.prefix_refl _)
  cases todo with
  | nil =>
      rw [hframes, List.append_nil]
      exact ⟨hdone.messages, hdone.pongs⟩
  | cons f todo =>
      -- less than the frame `f` has been read, but all bytes have been received
      have hlt := hreading.length_lt f rfl
      rw [hframes, List.flatMap_append, List.append_cancel_left_eq] at hw
      have hle := congrArg List.length hw
      rw [List.flatMap_cons, List.length_append] at hle
      omega

/-- The connection to the echo endpoint is opened. -/
def openedByClient : List Event :=
  [.received 0 (ascii "GET /echo HTTP/1.1\r\nsec-websocket-key: x\r\n\r\n"), .written 0]

/-- The texts `a` and `b` are the two fragments of a message, and a ping with the payload `c` comes
between them. -/
def fragments : List ClientFrame :=
  [{ first := 0x01, mask := [1, 2, 3, 4], payload := [0x61], mask_length := rfl,
     payload_length := by decide },
   { first := 0x89, mask := [0, 0, 0, 0], payload := [0x63], mask_length := rfl,
     payload_length := by decide },
   { first := 0x80, mask := [5, 6, 7, 8], payload := [0x62], mask_length := rfl,
     payload_length := by decide }]

/-- The protocol allows the sample frames: a text in two fragments, with a ping between them. -/
theorem legalFrom_fragments : ClientFrame.LegalFrom false fragments :=
  .first (Or.inl rfl) (.control (Or.inl rfl) (by decide) (.last rfl .nil))

/-- They are read. -/
def fragmentsRead : List Event :=
  fragments.flatMap fun f => [.received 0 f.head, .received 0 f.content]

/-- The sample frames are read: each fragment is handed over as a message of its own, and the ping
is answered. -/
theorem messages_of_frames_fragments :
    ∃ c₀ c, run (step (Bot.websocket SocketServerBase.sampleSha1 fun _ _ => 0))
        WsServer.accepted openedByClient = some c₀ ∧
      run (step (Bot.websocket SocketServerBase.sampleSha1 fun _ _ => 0)) c₀ fragmentsRead =
        some c ∧
      WsCall.messages c.calls =
          WsCall.messages c₀.calls ++ fragments.filterMap ClientFrame.delivered ∧
        c.queue.sent.filter SendData.isPong =
          c₀.queue.sent.filter SendData.isPong ++ fragments.filterMap ClientFrame.pong := by
  refine ⟨_, _, rfl, rfl, ?_⟩
  exact @messages_of_frames (Bot.websocket SocketServerBase.sampleSha1 fun _ _ => 0)
    openedByClient fragmentsRead _ _ Bot.echo _ _ rfl rfl rfl rfl legalFrom_fragments.not_close rfl
    rfl

/-- **The message does not arrive**: its fragments do, and the pong is empty. The client sends a
message in two fragments with a ping of one byte between them; the handler is called with each
fragment alone, and the pong does not repeat the byte. -/
theorem messages_fragments_ne :
    ∃ c₀ c, run (step (Bot.websocket SocketServerBase.sampleSha1 fun _ _ => 0))
        WsServer.accepted openedByClient = some c₀ ∧
      c₀.pending = [.readHead Bot.echo] ∧ c₀.readBuffer = [] ∧ c₀.queue.sent = [] ∧
      ClientFrame.LegalFrom false fragments ∧
      run (step (Bot.websocket SocketServerBase.sampleSha1 fun _ _ => 0)) c₀ fragmentsRead =
        some c ∧
      observe (step (Bot.websocket SocketServerBase.sampleSha1 fun _ _ => 0)) bytesReceived c₀
        fragmentsRead = fragments.flatMap ClientFrame.encode ∧
      (WsCall.messages c.calls).map (·.streambuf) = [ascii "a", ascii "b"] ∧
      (WsCall.messages c.calls).map (·.streambuf) ≠ ClientFrame.assembleFrom [] fragments ∧
      c.queue.sent.filter SendData.isPong = [SocketServerBase.send [] none 0x8A] ∧
      c.queue.sent.filter SendData.isPong ≠
        [SocketServerBase.send (ascii "c") none 0x8A] := by
  refine ⟨_, _, rfl, rfl, rfl, rfl, legalFrom_fragments, rfl, rfl, rfl, ?_, rfl, ?_⟩
  · decide +kernel
  · decide +kernel

end WsConnection

end BoostIrc
