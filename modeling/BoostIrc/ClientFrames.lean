import BoostIrc.WebSocket

/-!
# The Frames of a Client

A frame as a client sends it (`ClientFrame`): the first byte with the opcode, the length in one
byte or in three, the mask, and the payload under the mask. The read loop takes such a frame from
its buffer in two or three reads. Here is what each of them makes of its part of the frame.

Frames with a payload of more than 65535 bytes have a longer length and are left out.

## Main results

* `afterHead_head`, `decodeLength_extended`: the read that follows the first two bytes, and the
  length that is read.
* `takeMessage_content`: **the message is the payload**, whatever the mask.
* `LegalFrom`, `assembleFrom`: the frames that the protocol allows, and the messages they make up.
-/

namespace BoostIrc

/-- A number of eight bits is what it was as a byte. -/
theorem toNat_ofNat {n : ℕ} (h : n < 256) : (UInt8.ofNat n).toNat = n :=
  UInt8.toNat_ofNat_of_lt h

/-- A masked frame of a client. -/
structure ClientFrame where
  first : Byte
  mask : Bytes
  payload : Bytes
  mask_length : mask.length = 4
  payload_length : payload.length ≤ 65535

namespace ClientFrame

/-- The length in the second byte. -/
def lengthCode (f : ClientFrame) : ℕ :=
  if f.payload.length < 126 then f.payload.length else 126

/-- The first two bytes. The upper bit of the second one says that there is a mask. -/
def head (f : ClientFrame) : Bytes :=
  [f.first, UInt8.ofNat (128 + f.lengthCode)]

/-- The bytes of a longer length. -/
def extended (f : ClientFrame) : Bytes :=
  if f.payload.length < 126 then
    []
  else
    [UInt8.ofNat (f.payload.length / 256), UInt8.ofNat (f.payload.length % 256)]

/-- The payload under the mask. -/
def masked (f : ClientFrame) : Bytes :=
  (List.range f.payload.length).map fun c => f.payload.getD c 0 ^^^ f.mask.getD (c % 4) 0

/-- The mask and the payload. -/
def content (f : ClientFrame) : Bytes :=
  f.mask ++ f.masked

/-- The bytes of the frame. -/
def encode (f : ClientFrame) : Bytes :=
  f.head ++ f.extended ++ f.content

/-- The first part of a frame has two bytes. -/
theorem length_head (f : ClientFrame) : f.head.length = 2 := rfl

/-- The mask does not change the length of the payload. -/
theorem length_masked (f : ClientFrame) : f.masked.length = f.payload.length := by
  simp [masked]

/-- The last part of a frame is its mask and its payload. -/
theorem length_content (f : ClientFrame) : f.content.length = 4 + f.payload.length := by
  simp [content, f.mask_length, length_masked]

/-- The buffer is empty when the frame has been taken from it. -/
theorem drop_content (f : ClientFrame) : f.content.drop (4 + f.payload.length) = [] :=
  List.drop_eq_nil_of_le f.length_content.le

/-- The length code of a frame is at most 126, as the longest frames are left out. -/
theorem lengthCode_le (f : ClientFrame) : f.lengthCode ≤ 126 := by
  rw [lengthCode]
  split_ifs <;> omega

/-- The second byte of a masked frame is its length code with the highest bit set. -/
theorem toNat_second (f : ClientFrame) :
    (UInt8.ofNat (128 + f.lengthCode)).toNat = 128 + f.lengthCode := by
  have hle := f.lengthCode_le
  exact toNat_ofNat (by omega)

/-- The frame is recognised as masked by the highest bit of its second byte. -/
theorem not_second_lt (f : ClientFrame) : ¬ UInt8.ofNat (128 + f.lengthCode) < 128 := by
  rw [UInt8.lt_iff_toNat_lt, f.toNat_second]
  simp

/-- **The read that follows the first two bytes**: that of a longer length, or that of the mask and
the payload. -/
theorem afterHead_head (f : ClientFrame) (endpoint : WsEndpoint) :
    WsConnection.afterHead f.first (UInt8.ofNat (128 + f.lengthCode)) endpoint =
      if f.payload.length < 126 then
        .readContent f.payload.length f.first endpoint
      else
        .readLength 2 f.first endpoint := by
  have hcode : (UInt8.ofNat (128 + f.lengthCode) &&& 127).toNat = f.lengthCode := by
    have hle := f.lengthCode_le
    rw [UInt8.toNat_and, f.toNat_second]
    refine (Nat.and_two_pow_sub_one_eq_mod _ 7).trans ?_
    omega
  simp only [WsConnection.afterHead, hcode]
  by_cases h : f.payload.length < 126
  · have hshort : f.lengthCode = f.payload.length := if_pos h
    rw [if_neg (by omega), if_neg (by omega), if_pos h, hshort]
  · have hlong : f.lengthCode = 126 := if_neg h
    rw [if_pos hlong, if_neg h]

/-- **The longer length is read as it was written.** A payload of 126 bytes or more has its length
in two bytes of its own, the higher first; both shifts of the reader are defined, and their sum is
that length. -/
theorem decodeLength_extended (server : WsServer) (f : ClientFrame)
    (h : ¬ f.payload.length < 126) :
    WsConnection.decodeLength server (WsConnection.readBytes f.extended 2) = f.payload.length := by
  have hle := f.payload_length
  have hhigh : (UInt8.ofNat (f.payload.length / 256)).toNat = f.payload.length / 256 :=
    toNat_ofNat (by omega)
  have hlow : (UInt8.ofNat (f.payload.length % 256)).toNat = f.payload.length % 256 :=
    toNat_ofNat (by omega)
  have hread : WsConnection.readBytes f.extended 2 =
      [UInt8.ofNat (f.payload.length / 256), UInt8.ofNat (f.payload.length % 256)] := by
    rw [extended, if_neg h]
    rfl
  rw [hread]
  have hshiftHigh : WsConnection.shiftLeft server (UInt8.ofNat (f.payload.length / 256)) 8 =
      f.payload.length / 256 * 256 := by
    rw [WsConnection.shiftLeft, hhigh, if_pos (by omega), Nat.shiftLeft_eq]
  have hshiftLow : WsConnection.shiftLeft server (UInt8.ofNat (f.payload.length % 256)) 0 =
      f.payload.length % 256 := by
    rw [WsConnection.shiftLeft, hlow, if_pos (by omega), Nat.shiftLeft_zero]
  have hsum : WsConnection.decodeLength server
      [UInt8.ofNat (f.payload.length / 256), UInt8.ofNat (f.payload.length % 256)] =
        (WsConnection.shiftLeft server (UInt8.ofNat (f.payload.length / 256)) 8 +
          (WsConnection.shiftLeft server (UInt8.ofNat (f.payload.length % 256)) 0 + 0)) % 2 ^ 64 :=
    rfl
  rw [hsum, hshiftHigh, hshiftLow]
  omega

/-- The mask is taken off by putting it on again, whatever follows in the buffer. -/
theorem unmask_masked (f : ClientFrame) (rest : Bytes) :
    WsConnection.unmask (f.masked ++ rest) f.mask f.payload.length = f.payload := by
  refine List.ext_getElem (by simp [WsConnection.unmask]) ?_
  intro c hc hpayload
  have hmasked : c < f.masked.length := by rwa [f.length_masked]
  simp only [WsConnection.unmask, List.getElem_map, List.getElem_range, List.getD_eq_getElem?_getD,
    List.getElem?_append_left hmasked]
  have hbyte : f.masked[c]?.getD 255 = f.payload[c] ^^^ f.mask[c % 4]?.getD 0 := by
    simp [masked, hpayload]
  rw [hbyte, UInt8.xor_assoc, UInt8.xor_self, UInt8.xor_zero]

/-- **The message is the payload**, whatever follows in the buffer. The handler takes the mask,
then as many bytes as the head has announced; the bytes that have arrived behind the frame are
left out. -/
theorem takeMessage_append (f : ClientFrame) (rest : Bytes) :
    WsConnection.takeMessage (f.content ++ rest) f.payload.length f.first =
      { finRsvOpcode := f.first, length := f.payload.length, streambuf := f.payload } := by
  have hmask : WsConnection.readBytes (f.content ++ rest) 4 = f.mask := by
    refine List.ext_getElem (by simp [WsConnection.readBytes, f.mask_length]) ?_
    intro c hc hmask
    simp [WsConnection.readBytes, content, List.getElem?_append_left hmask, hmask]
  have hraw : (f.content ++ rest).drop 4 = f.masked ++ rest := by
    rw [content, ← f.mask_length, List.append_assoc, List.drop_left]
  rw [WsConnection.takeMessage, hmask, hraw, f.unmask_masked]

/-- **The message is the payload** of the frame, with the first byte and the length of the frame,
when the buffer holds the mask and the masked payload. -/
theorem takeMessage_content (f : ClientFrame) :
    WsConnection.takeMessage f.content f.payload.length f.first =
      { finRsvOpcode := f.first, length := f.payload.length, streambuf := f.payload } := by
  rw [← f.takeMessage_append [], List.append_nil]

/-! ### Messages in fragments -/

/-- **The frames that the protocol allows a client**, apart from close frames. Texts and binary
messages come in one frame or in several, the last of which has `FIN`; pings and pongs may come
between them. The flag tells whether a message has been begun. -/
inductive LegalFrom : Bool → List ClientFrame → Prop
  | nil : LegalFrom false []
  | control {begun : Bool} {f : ClientFrame} {frames : List ClientFrame}
      (hfirst : f.first = 0x89 ∨ f.first = 0x8A) (hlen : f.payload.length ≤ 125)
      (h : LegalFrom begun frames) : LegalFrom begun (f :: frames)
  | whole {f : ClientFrame} {frames : List ClientFrame}
      (hfirst : f.first = 0x81 ∨ f.first = 0x82) (h : LegalFrom false frames) :
      LegalFrom false (f :: frames)
  | first {f : ClientFrame} {frames : List ClientFrame}
      (hfirst : f.first = 0x01 ∨ f.first = 0x02) (h : LegalFrom true frames) :
      LegalFrom false (f :: frames)
  | next {f : ClientFrame} {frames : List ClientFrame} (hfirst : f.first = 0x00)
      (h : LegalFrom true frames) : LegalFrom true (f :: frames)
  | last {f : ClientFrame} {frames : List ClientFrame} (hfirst : f.first = 0x80)
      (h : LegalFrom false frames) : LegalFrom true (f :: frames)

/-- The payloads of the messages that the frames make up, after the fragments in `part`. -/
def assembleFrom (part : Bytes) : List ClientFrame → List Bytes
  | [] => []
  | f :: frames =>
      if 8 ≤ f.first &&& 0x0f then
        assembleFrom part frames
      else if 0x80 ≤ f.first then
        (part ++ f.payload) :: assembleFrom [] frames
      else
        assembleFrom (part ++ f.payload) frames

/-- The first bytes that there can be in a legal stream: a text or binary frame or a continuation,
with or without `FIN`, a ping and a pong. -/
theorem LegalFrom.first_mem {begun : Bool} {frames : List ClientFrame}
    (h : LegalFrom begun frames) : ∀ f ∈ frames,
      f.first ∈ ([0x00, 0x01, 0x02, 0x80, 0x81, 0x82, 0x89, 0x8A] : List Byte) := by
  induction h with
  | nil => simp
  | control hfirst hlen h ih =>
      refine List.forall_mem_cons.mpr ⟨?_, ih⟩
      rcases hfirst with hfirst | hfirst <;> simp [hfirst]
  | whole hfirst h ih =>
      refine List.forall_mem_cons.mpr ⟨?_, ih⟩
      rcases hfirst with hfirst | hfirst <;> simp [hfirst]
  | first hfirst h ih =>
      refine List.forall_mem_cons.mpr ⟨?_, ih⟩
      rcases hfirst with hfirst | hfirst <;> simp [hfirst]
  | next hfirst h ih => exact List.forall_mem_cons.mpr ⟨by simp [hfirst], ih⟩
  | last hfirst h ih => exact List.forall_mem_cons.mpr ⟨by simp [hfirst], ih⟩

/-- There is no close frame among the frames of a legal stream. -/
theorem LegalFrom.not_close {begun : Bool} {frames : List ClientFrame}
    (h : LegalFrom begun frames) : ∀ f ∈ frames, f.first &&& 0x0f ≠ 8 := by
  intro f hf
  have hfirst := h.first_mem f hf
  generalize f.first = b at hfirst
  revert b
  simp only [List.mem_cons, List.not_mem_nil, or_false]
  rintro b (rfl | rfl | rfl | rfl | rfl | rfl | rfl | rfl) <;> decide

end ClientFrame

end BoostIrc
