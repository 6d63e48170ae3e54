import BoostIrc.Assembly
import BoostIrc.BigEndian

/-!
# The Length of a Frame

`send` writes the length of a payload in one byte, in three, or in nine; `read_message` reads it in
all three forms. The one shifts a `size_t`, the other an `unsigned char` that has been promoted to
`int`, and in the longest form by more bits than an `int` has.

## Main results

* `decodeLength_eq`: what the reader adds up, as long as the language defines it.
* `shortest_lengthField`: the writer takes the shortest form.
* `lengthRoundTrips_iff`: **which lengths are read as they were written**.
-/

open Transition BigEndian

namespace BoostIrc

namespace SocketServerBase

/-- The writer's bytes of a length are the number, the highest byte first. -/
theorem lengthBytes_eq (k length : ℕ) : lengthBytes k length = encode k length := by
  induction k generalizing length with
  | zero => rfl
  | succ k ih =>
      have hshift : ∀ c, length >>> (8 * (c + 1)) = (length / 256) >>> (8 * c) := by
        intro c
        rw [mul_add, mul_one, add_comm, Nat.shiftRight_add, Nat.shiftRight_eq_div_pow length]
      rw [encode, ← ih, lengthBytes, List.range_succ_eq_map, List.reverse_cons, List.map_append,
        ← List.map_reverse, List.map_map, lengthBytes]
      simp only [Function.comp_def, Nat.succ_eq_add_one, hshift]
      rfl

/-- The bytes of the length, as `send` writes them behind the opcode. -/
def lengthField (finRsvOpcode : Byte) (length : ℕ) : Bytes :=
  (header finRsvOpcode length).tail

/-- The bytes of a length: one byte up to 125, else a code and the length in two bytes, or in eight
if these do not suffice. -/
theorem lengthField_eq (finRsvOpcode : Byte) (length : ℕ) :
    lengthField finRsvOpcode length =
      if 126 ≤ length then
        if 0xffff < length then 127 :: encode 8 length else 126 :: encode 2 length
      else
        [UInt8.ofNat length] := by
  simp only [lengthField, header, lengthBytes_eq, List.tail_cons]

end SocketServerBase

/-! ### The forms of a length -/

/-- **The forms of a length** that the protocol has. A greater form may hold a small length, but is
not to be used for it. -/
inductive LengthForm (n : ℕ) : Bytes → Prop
  | short (h : n ≤ 125) : LengthForm n [UInt8.ofNat n]
  | medium (h : n < 2 ^ 16) : LengthForm n (126 :: encode 2 n)
  | long (h : n < 2 ^ 63) : LengthForm n (127 :: encode 8 n)

/-- The shortest form of a length. -/
structure ShortestForm (n : ℕ) (field : Bytes) : Prop where
  form : LengthForm n field
  shortest : ∀ other, LengthForm n other → field.length ≤ other.length

/-- **The writer takes the shortest form.** A length below 126 has no bytes of its own, one up to
65535 has two, and any other has eight. -/
theorem shortest_lengthField (finRsvOpcode : Byte) {n : ℕ} (h : n < 2 ^ 63) :
    ShortestForm n (SocketServerBase.lengthField finRsvOpcode n) := by
  rw [SocketServerBase.lengthField_eq]
  split_ifs with hshort hmedium
  · refine ⟨.long h, fun other hother => ?_⟩
    cases hother with
    | short hn => omega
    | medium hn => omega
    | long => exact le_rfl
  · refine ⟨.medium (by omega), fun other hother => ?_⟩
    cases hother with
    | short hn => omega
    | medium => exact le_rfl
    | long => simp
  · refine ⟨.short (by omega), fun other hother => ?_⟩
    cases hother with
    | short => exact le_rfl
    | medium => simp
    | long => simp

namespace WsConnection

/-! ### The shifts of the reader -/

/-- The language defines the shift of a byte by `n` bits: an `int` has more than `n` bits, and the
result is one. -/
def ShiftDefined (b : Byte) (n : ℕ) : Prop :=
  n < 32 ∧ b.toNat * 2 ^ n < 2 ^ 31

/-- All shifts of the reader are defined. -/
def ShiftsDefined (lengthBytes : Bytes) : Prop :=
  ∀ x ∈ lengthBytes.zipIdx, ShiftDefined x.1 (8 * (lengthBytes.length - 1 - x.2))

variable {server : WsServer}

/-- **What the reader adds up**, if all its shifts are defined: the number in the bytes. A defined
shift is by less than 32 bits, so there are at most four bytes, and the sum of 64 bits does not
wrap. -/
theorem decodeLength_eq {lengthBytes : Bytes} (h : ShiftsDefined lengthBytes) :
    decodeLength server lengthBytes = value lengthBytes % 2 ^ 64 := by
  have hweight : ∀ x ∈ lengthBytes.zipIdx,
      shiftLeft server x.1 (8 * (lengthBytes.length - 1 - x.2)) =
        x.1.toNat * 256 ^ (lengthBytes.length - 1 - x.2) := by
    intro x hx
    have hshift : shiftLeft server x.1 (8 * (lengthBytes.length - 1 - x.2)) =
        x.1.toNat <<< (8 * (lengthBytes.length - 1 - x.2)) := if_pos (h x hx)
    rw [hshift, Nat.shiftLeft_eq, pow_mul]
    rfl
  rw [decodeLength, List.map_congr_left hweight, value_eq_sum]

/-- The shifts of two bytes are defined, as the greatest result is below `2 ^ 16`. -/
theorem shiftsDefined_pair (b b' : Byte) : ShiftsDefined [b, b'] := by
  have hb := b.toNat_lt
  have hb' := b'.toNat_lt
  intro x hx
  rcases List.mem_pair.mp hx with rfl | rfl
  · exact ⟨by simp, by simp; omega⟩
  · exact ⟨by simp, by simp; omega⟩

/-- The first of eight shifts never is: it shifts an `int` of 32 bits by 56. -/
theorem not_shiftsDefined_of_length {lengthBytes : Bytes} (h : lengthBytes.length = 8) :
    ¬ ShiftsDefined lengthBytes := by
  intro hdefined
  obtain ⟨b, bs, rfl⟩ := List.exists_cons_of_length_eq_add_one h
  have hfirst := (hdefined (b, 0) (by simp [List.zipIdx_cons])).1
  simp [h] at hfirst

/-! ### Reading what was written -/

/-- The mask bit is set in the first byte. -/
def setMaskBit : Bytes → Bytes
  | [] => []
  | b :: bs => (b ||| 128) :: bs

/-- The reads of the first two bytes of a frame and of a longer length, if there is one. -/
def lengthReads (finRsvOpcode : Byte) (field : Bytes) : List Event :=
  .received 0 (finRsvOpcode :: field.take 1) ::
    if field.drop 1 = [] then [] else [.received 0 (field.drop 1)]

/-- With the mask bit a byte is not taken for one without a mask. -/
theorem not_maskBit_lt (b : Byte) : ¬ b ||| 128 < 128 := by
  rw [UInt8.lt_iff_toNat_lt, UInt8.toNat_or]
  exact not_lt.mpr Nat.right_le_or

/-- The mask bit is not a part of the length. -/
theorem toNat_maskBit_and (b : Byte) : ((b ||| 128) &&& 127).toNat = b.toNat % 128 := by
  rw [UInt8.toNat_and, UInt8.toNat_or]
  refine (Nat.and_two_pow_sub_one_eq_mod _ 7).trans ?_
  rw [Nat.or_mod_two_pow]
  exact Nat.or_zero _

/-- **The length `n` makes the round trip** from `send` to `read_message`: it is written in its
shortest form, the reader shifts and adds as the language defines it, and the content of `n` bytes
is read next. -/
structure RoundTrips (server : WsServer) (finRsvOpcode : Byte) (endpoint : WsEndpoint)
    (c : WsConnection) (n : ℕ) : Prop where
  shortest : ShortestForm n (SocketServerBase.lengthField finRsvOpcode n)
  shifts : ShiftsDefined ((SocketServerBase.lengthField finRsvOpcode n).drop 1)
  read : ∃ c',
    run (step server) c
        (lengthReads finRsvOpcode (setMaskBit (SocketServerBase.lengthField finRsvOpcode n))) =
      some c' ∧
    c'.pending = [.readContent n finRsvOpcode endpoint]

/-- The first two bytes of a frame can be read. -/
theorem step_lengthHead {endpoint : WsEndpoint} {c : WsConnection} (h : Awaits server endpoint c)
    (finRsvOpcode second : Byte) (hmask : ¬ second < 128) :
    step server c (.received 0 [finRsvOpcode, second]) =
      some { c with pending := [afterHead finRsvOpcode second endpoint] } := by
  refine step_received h.defined h.pending (by simp [Pending.completes]) ?_
  simp only [complete, headRead, WsConnection.finish, h.readBuffer, h.pending]
  exact if_neg hmask

/-- The bytes of a longer length can be read. -/
theorem step_lengthBytes {endpoint : WsEndpoint} {c : WsConnection} (hdefined : c.undefined = false)
    (hbuffer : c.readBuffer = []) {finRsvOpcode : Byte} {lengthBytes : Bytes}
    (hpending : c.pending = [.readLength lengthBytes.length finRsvOpcode endpoint]) :
    step server c (.received 0 lengthBytes) = some { c with
      pending := [.readContent (decodeLength server lengthBytes) finRsvOpcode endpoint] } := by
  have hread : readBytes lengthBytes lengthBytes.length = lengthBytes := by
    refine List.ext_getElem (by simp [readBytes]) ?_
    intro k hk hk'
    simp [readBytes, hk']
  refine step_received hdefined hpending (by simp [Pending.completes]) ?_
  simp [complete, lengthRead, WsConnection.finish, start, hpending, hbuffer, hread]

/-- The read that follows the first two bytes, if the second is `b` with the mask bit. -/
theorem afterHead_maskBit (finRsvOpcode b : Byte) (endpoint : WsEndpoint) (hb : b.toNat < 128) :
    afterHead finRsvOpcode (b ||| 128) endpoint =
      if b.toNat = 126 then
        .readLength 2 finRsvOpcode endpoint
      else if b.toNat = 127 then
        .readLength 8 finRsvOpcode endpoint
      else
        .readContent b.toNat finRsvOpcode endpoint := by
  simp only [afterHead, toNat_maskBit_and, Nat.mod_eq_of_lt hb]

/-- **A length in the second byte is read.** After the first read the connection waits for a content
of this length, with nothing in its buffer. -/
theorem run_shortLength {endpoint : WsEndpoint} {c : WsConnection} (hc : Awaits server endpoint c)
    (finRsvOpcode : Byte) {n : ℕ} (hn : n < 126) :
    run (step server) c (lengthReads finRsvOpcode (setMaskBit [UInt8.ofNat n])) =
      some { c with pending := [.readContent n finRsvOpcode endpoint] } := by
  have hsmall : (UInt8.ofNat n).toNat = n := toNat_ofNat (by omega)
  have hhead := step_lengthHead hc finRsvOpcode (UInt8.ofNat n ||| 128) (not_maskBit_lt _)
  rw [afterHead_maskBit finRsvOpcode _ endpoint (by omega), hsmall, if_neg (by omega),
    if_neg (by omega)] at hhead
  have hreads : lengthReads finRsvOpcode (setMaskBit [UInt8.ofNat n]) =
      [.received 0 [finRsvOpcode, UInt8.ofNat n ||| 128]] := rfl
  rw [hreads, run_cons, hhead]
  rfl

/-- **A length in two more bytes is read.** One more read takes the two bytes, and both shifts are
defined, so the content that the connection waits for has this length. -/
theorem run_mediumLength {endpoint : WsEndpoint} {c : WsConnection} (hc : Awaits server endpoint c)
    (finRsvOpcode : Byte) {n : ℕ} (hn : n ≤ 65535) :
    run (step server) c (lengthReads finRsvOpcode (setMaskBit (126 :: encode 2 n))) =
      some { c with pending := [.readContent n finRsvOpcode endpoint] } := by
  have hshifts : ShiftsDefined (encode 2 n) := shiftsDefined_pair _ _
  have hvalue : decodeLength server (encode 2 n) = n := by
    rw [decodeLength_eq hshifts, value_encode (by omega)]
    omega
  have hhead := step_lengthHead hc finRsvOpcode (126 ||| 128) (not_maskBit_lt 126)
  rw [afterHead_maskBit finRsvOpcode 126 endpoint (by decide), if_pos (by decide)] at hhead
  have hbytes := @step_lengthBytes server endpoint
    { c with pending := [.readLength 2 finRsvOpcode endpoint] } hc.defined hc.readBuffer
    finRsvOpcode (encode 2 n) rfl
  rw [hvalue] at hbytes
  have hreads : lengthReads finRsvOpcode (setMaskBit (126 :: encode 2 n)) =
      [.received 0 [finRsvOpcode, 126 ||| 128], .received 0 (encode 2 n)] := rfl
  rw [hreads, run_cons, hhead, Option.bind_some, run_cons, hbytes]
  rfl

/-- **Which lengths make the round trip**: those that fit into two bytes. A longer one is written in
eight bytes, and the reader shifts the higher of them by 32 bits and more. -/
theorem lengthRoundTrips_iff {endpoint : WsEndpoint} {c : WsConnection}
    (hc : Awaits server endpoint c) (finRsvOpcode : Byte) {n : ℕ} (hn : n < 2 ^ 63) :
    RoundTrips server finRsvOpcode endpoint c n ↔ n ≤ 65535 := by
  have hfield := SocketServerBase.lengthField_eq finRsvOpcode n
  constructor
  · intro h
    by_contra hlong
    have hshifts := h.shifts
    rw [hfield, if_pos (by omega), if_pos (by omega), List.drop_one, List.tail_cons] at hshifts
    exact not_shiftsDefined_of_length (length_encode 8 n) hshifts
  · intro hle
    by_cases hmedium : 126 ≤ n
    · rw [if_pos hmedium, if_neg (by omega)] at hfield
      have hshifts : ShiftsDefined (encode 2 n) := shiftsDefined_pair _ _
      refine ⟨shortest_lengthField finRsvOpcode hn, by rwa [hfield], ?_⟩
      rw [hfield]
      exact ⟨_, run_mediumLength hc finRsvOpcode hle, rfl⟩
    · rw [if_neg hmedium] at hfield
      refine ⟨shortest_lengthField finRsvOpcode hn, ?_, ?_⟩
      · rw [hfield]
        intro x hx
        exact absurd hx (by simp)
      · rw [hfield]
        exact ⟨_, run_shortLength hc finRsvOpcode (by omega), rfl⟩

/-- The greatest length in two bytes is read back on an open connection. -/
theorem roundTrips_opened :
    ∃ c, run (step (Bot.websocket SocketServerBase.sampleSha1 fun _ _ => 0)) WsServer.accepted
        openedByClient = some c ∧
      (RoundTrips (Bot.websocket SocketServerBase.sampleSha1 fun _ _ => 0) 0x82 Bot.echo c 65535 ↔
        65535 ≤ 65535) :=
  ⟨_, rfl, lengthRoundTrips_iff ⟨rfl, rfl, rfl, fun h => absurd h (by decide)⟩ 0x82 (by decide)⟩

/-- A payload of 65536 bytes: the length has one bit, and none of the shifts of its first four
bytes is defined. -/
theorem not_roundTrips_opened :
    ∃ c, run (step (Bot.websocket SocketServerBase.sampleSha1 fun _ _ => 0)) WsServer.accepted
        openedByClient = some c ∧ c.pending = [.readHead Bot.echo] ∧
      SocketServerBase.lengthField 0x82 65536 = [127, 0, 0, 0, 0, 0, 1, 0, 0] ∧
      ¬ RoundTrips (Bot.websocket SocketServerBase.sampleSha1 fun _ _ => 0) 0x82 Bot.echo c
        65536 := by
  refine ⟨_, rfl, rfl, by decide, fun h => ?_⟩
  exact not_shiftsDefined_of_length rfl h.shifts

end WsConnection

end BoostIrc
