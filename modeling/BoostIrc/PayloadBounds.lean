import BoostIrc.LengthField

/-!
# What is Read of a Payload

The read of the mask and the payload waits for `4 + length` bytes, and its handler takes as many
from the buffer. The length is what eight bytes of the client add up to, and where it is one of the
four greatest numbers of a `size_t`, the sum `4 + length` wraps around: the read waits for less than
four bytes, and the handler reads on behind them.

What a shift gives that the language does not define is left to the server. On a machine that takes
the number of bits modulo 32 (`x86Shift`), the length is the sum of two signed numbers of 32 bits.

## Main results

* `bounded_step`: what one step makes of the lengths of the reads under way.
* `exists_overrun`: such a length makes a read leave the buffer.
* `wraps_x86_iff`: which lengths these are on that machine.
* `along_readInside`: **the reads stay inside the buffer** in runs without such a length.
-/

open Transition BigEndian

namespace BoostIrc

namespace WsConnection

/-! ### The lengths that wrap -/

/-- The shifted bytes add up to −1, −2, −3 or −4, as a number of 64 bits. -/
def Wraps (server : WsServer) (lengthBytes : Bytes) : Prop :=
  ∃ k, 1 ≤ k ∧ k ≤ 4 ∧
    2 ^ 64 ∣ (lengthBytes.zipIdx.map fun x =>
      shiftLeft server x.1 (8 * (lengthBytes.length - 1 - x.2))).sum + k

variable {server : WsServer}

/-- Any other length leaves room for the mask. -/
theorem not_wraps_iff (lengthBytes : Bytes) :
    ¬ Wraps server lengthBytes ↔ 4 + decodeLength server lengthBytes < 2 ^ 64 := by
  rw [Wraps, decodeLength]
  generalize (lengthBytes.zipIdx.map fun x =>
    shiftLeft server x.1 (8 * (lengthBytes.length - 1 - x.2))).sum = sum
  constructor
  · intro h
    by_contra hlt
    refine h ⟨2 ^ 64 - sum % 2 ^ 64, by omega, by omega, ?_⟩
    omega
  · rintro hlt ⟨k, hk, hk', hdvd⟩
    omega

/-- Two bytes are too few for such a length. -/
theorem not_wraps_pair (b b' : Byte) : ¬ Wraps server [b, b'] := by
  have hlt := value_lt [b, b']
  simp only [List.length_cons, List.length_nil] at hlt
  rw [not_wraps_iff, decodeLength_eq (shiftsDefined_pair b b')]
  omega

/-! ### The reads under way -/

/-- The event is no read of a longer length that wraps. -/
def LengthHolds (server : WsServer) (c : WsConnection) (e : Event) : Prop :=
  ∀ i chunk finRsvOpcode endpoint, e = .received i chunk →
    c.pending[i]? = some (.readLength 8 finRsvOpcode endpoint) →
      ¬ Wraps server (readBytes (c.readBuffer ++ chunk) 8)

/-- When the mask and the payload have been read, the number of bytes to wait for did not wrap,
and **the buffer holds them all**. -/
def ReadInside (c : WsConnection) (e : Event) : Prop :=
  ∀ i chunk length finRsvOpcode endpoint, e = .received i chunk →
    c.pending[i]? = some (.readContent length finRsvOpcode endpoint) →
      (Pending.readContent length finRsvOpcode endpoint).completes chunk →
        4 + length < 2 ^ 64 ∧ 4 + length ≤ (c.readBuffer ++ chunk).length

/-- The lengths that a read can wait for. -/
def Bounded : Pending → Prop
  | .readLength numBytes _ _ => numBytes = 2 ∨ numBytes = 8
  | .readContent length _ _ => 4 + length < 2 ^ 64
  | _ => True

/-- The read that follows the first two bytes of a frame is bounded. -/
theorem bounded_afterHead (finRsvOpcode second : Byte) (endpoint : WsEndpoint) :
    Bounded (afterHead finRsvOpcode second endpoint) := by
  have hle : (second &&& 127).toNat ≤ 127 := by
    rw [UInt8.toNat_and]
    exact Nat.and_le_right
  rw [afterHead]
  split_ifs
  · exact Or.inl rfl
  · exact Or.inr rfl
  · show 4 + (second &&& 127).toNat < 2 ^ 64
    omega

/-- One operation is over, and another is started. -/
theorem forall_bounded_next {pending : List Pending} (h : ∀ op ∈ pending, Bounded op) (i : ℕ)
    {op : Pending} (hop : Bounded op) : ∀ op' ∈ pending.eraseIdx i ++ [op], Bounded op' := by
  intro op' hop'
  rcases List.mem_append.mp hop' with hmem | hmem
  · exact h op' (List.mem_of_mem_eraseIdx hmem)
  · rw [List.mem_singleton.mp hmem]
    exact hop

/-- **What one step makes of the reads under way.** They stay bounded, unless the step is the read
of a longer length whose sum wraps. -/
theorem bounded_step {c c' : WsConnection} {e : Event} (h : ∀ op ∈ c.pending, Bounded op)
    (hcond : LengthHolds server c e) (hstep : Step server c e c') :
    ∀ op ∈ c'.pending, Bounded op := by
  have hfinish : ∀ i, ∀ op ∈ c.pending.eraseIdx i, Bounded op := fun i op hop =>
    h op (List.mem_of_mem_eraseIdx hop)
  cases hstep with
  | undefined => exact h
  | queue => exact h
  | timerExpires => exact h
  | idleTimeout => exact h
  | sendClose => exact h
  | relay => exact h
  | handshakeFailed => exact hfinish _
  | handshakeDropped => exact hfinish _
  | handshakeRead hop rest endpoint => exact forall_bounded_next h _ trivial
  | opened hop ht => exact forall_bounded_next h _ trivial
  | error => exact hfinish _
  | again hop => exact forall_bounded_next h _ trivial
  | unmasked => exact hfinish _
  | head hop hlen hmask => exact forall_bounded_next h _ (bounded_afterHead _ _ _)
  | @length i numBytes chunk finRsvOpcode endpoint hop hlen =>
      refine forall_bounded_next h i ?_
      show 4 + decodeLength server (readBytes (c.readBuffer ++ chunk) numBytes) < 2 ^ 64
      rw [← not_wraps_iff]
      rcases h _ (List.mem_of_getElem? hop) with rfl | rfl
      · exact not_wraps_pair _ _
      · exact hcond i chunk finRsvOpcode endpoint rfl hop
  | close => exact hfinish _
  | ping hop hlen hping ht => exact forall_bounded_next h _ trivial
  | message hop hlen hclose hping ht hset hmessage => exact forall_bounded_next h _ trivial
  | ignored hop hlen hclose hping hset => exact forall_bounded_next h _ trivial

/-- A read of a mask and a payload that is bounded gets them all. -/
theorem readInside_of_bounded {c : WsConnection} (h : ∀ op ∈ c.pending, Bounded op) (e : Event) :
    ReadInside c e := by
  rintro i chunk length finRsvOpcode endpoint rfl hop hcompletes
  have hlt : 4 + length < 2 ^ 64 := h _ (List.mem_of_getElem? hop)
  have hlen : chunk.length = (4 + length) % 2 ^ 64 := of_decide_eq_true hcompletes
  refine ⟨hlt, ?_⟩
  rw [List.length_append, hlen, Nat.mod_eq_of_lt hlt]
  omega

/-- In a run in which no length wraps the reads stay inside the buffer: the reads under way are
bounded from `accept` on, whatever else happens. -/
theorem along_readInside_of_lengthHolds {es : List Event} {c : WsConnection}
    (h : run (step server) WsServer.accepted es = some c)
    (hcond : Along (step server) (LengthHolds server) WsServer.accepted es) :
    Along (step server) ReadInside WsServer.accepted es := by
  have hrun := run_invariant_along
    (I := fun c P => (∀ op ∈ c.pending, Bounded op) ∧ P) (E := LengthHolds server)
    (C := ReadInside) (P := True) ?_ ⟨?_, trivial⟩ hcond h
  · exact hrun.2.2
  · rintro c P e c' ⟨hbounded, hP⟩ hE hs
    exact ⟨bounded_step hbounded hE (step_sound hs).2, hP, readInside_of_bounded hbounded e⟩
  · intro op hop
    rw [List.mem_singleton.mp hop]
    trivial

/-! ### The reads that leave the buffer -/

/-- **A length that wraps makes a read leave the buffer**: it is over when at most three bytes have
come, and its handler runs. -/
theorem exists_overrun {endpoint : WsEndpoint} {c : WsConnection} (hc : Awaits server endpoint c)
    (finRsvOpcode : Byte) {lengthBytes : Bytes} (hlen : lengthBytes.length = 8)
    (hwraps : Wraps server lengthBytes) :
    ∃ c₁ chunk, run (step server) c
          [.received 0 [finRsvOpcode, 0xff], .received 0 lengthBytes] = some c₁ ∧
      chunk.length ≤ 3 ∧ (step server c₁ (.received 0 chunk)).isSome ∧
        ¬ ReadInside c₁ (.received 0 chunk) := by
  have hlength : ¬ 4 + decodeLength server lengthBytes < 2 ^ 64 := by
    rw [← not_wraps_iff, not_not]
    exact hwraps
  have hlt : decodeLength server lengthBytes < 2 ^ 64 := Nat.mod_lt _ (Nat.two_pow_pos 64)
  generalize hn : decodeLength server lengthBytes = n at hlength hlt
  have hhead := step_lengthHead hc finRsvOpcode 0xff (by decide)
  have hbytes := @step_lengthBytes server endpoint
    { c with pending := [.readLength lengthBytes.length finRsvOpcode endpoint] } hc.defined
    hc.readBuffer finRsvOpcode lengthBytes rfl
  rw [hn] at hbytes
  have hafter : afterHead finRsvOpcode 0xff endpoint =
      .readLength lengthBytes.length finRsvOpcode endpoint := by
    rw [hlen]
    rfl
  rw [hafter] at hhead
  have hchunk : (List.replicate ((4 + n) % 2 ^ 64) (0 : Byte)).length = (4 + n) % 2 ^ 64 :=
    List.length_replicate
  refine ⟨{ c with pending := [.readContent n finRsvOpcode endpoint] },
    List.replicate ((4 + n) % 2 ^ 64) 0, ?_, ?_, ?_, fun hinside => ?_⟩
  · rw [run_cons, hhead, Option.bind_some, run_cons, hbytes]
    rfl
  · rw [hchunk]
    omega
  · obtain ⟨c₂, hc₂⟩ := Option.isSome_iff_exists.mp (isSome_contentRead
      (c := { c with pending := [.readContent n finRsvOpcode endpoint] }.finish 0
        (List.replicate ((4 + n) % 2 ^ 64) 0)) hc.timerMade n finRsvOpcode endpoint)
    refine Option.isSome_iff_exists.mpr ⟨c₂, ?_⟩
    refine step_received hc.defined rfl ?_ hc₂
    exact decide_eq_true hchunk
  · exact hlength (hinside 0 _ n finRsvOpcode endpoint rfl rfl (decide_eq_true hchunk)).1

/-! ### A machine -/

/-- The number of 64 bits for a signed one of 32 bits. -/
def signExtend (n : ℕ) : ℕ :=
  if n < 2 ^ 31 then n else n + (2 ^ 64 - 2 ^ 32)

/-- A shift of an `int` on a machine that takes the number of bits modulo 32, made a `size_t`. -/
def x86Shift (b : Byte) (n : ℕ) : ℕ :=
  signExtend (b.toNat * 2 ^ (n % 32) % 2 ^ 32)

/-- A number of 32 bits as a signed one. -/
def signed (n : ℕ) : ℤ :=
  if n < 2 ^ 31 then n else (n : ℤ) - 2 ^ 32

/-- The machine agrees with the language where that defines the shift. -/
theorem shiftLeft_x86 (h : server.undefinedShift = x86Shift) (b : Byte) (n : ℕ) :
    shiftLeft server b n = x86Shift b n := by
  rw [shiftLeft, h]
  split_ifs with hdefined
  · obtain ⟨hn, hlt⟩ := hdefined
    rw [x86Shift, Nat.mod_eq_of_lt hn, Nat.mod_eq_of_lt (by omega), signExtend, if_pos hlt,
      Nat.shiftLeft_eq]
  · rfl

/-- Four bytes, one by one. -/
theorem exists_eq_of_length_four {bs : Bytes} (h : bs.length = 4) :
    ∃ b₀ b₁ b₂ b₃, bs = [b₀, b₁, b₂, b₃] := by
  obtain ⟨b₀, bs, rfl⟩ := List.exists_cons_of_length_eq_add_one h
  obtain ⟨b₁, b₂, b₃, rfl⟩ := List.length_eq_three.mp (Nat.succ.inj h)
  exact ⟨b₀, b₁, b₂, b₃, rfl⟩

/-- A number below `2 ^ 31` has no sign, so that the shift gives the product. -/
theorem x86Shift_of_lt {b : Byte} {n : ℕ} (h : b.toNat * 2 ^ (n % 32) < 2 ^ 31) :
    x86Shift b n = b.toNat * 2 ^ (n % 32) := by
  rw [x86Shift, Nat.mod_eq_of_lt (by omega), signExtend, if_pos h]

/-- Four bytes add up to a signed number, whose sign is in the first of them. -/
theorem dvd_sum_x86Shift (b₀ b₁ b₂ b₃ : Byte) {k : ℕ} (hk : k % 32 = 0) :
    (2 ^ 64 : ℤ) ∣ (x86Shift b₀ (k + 24) + (x86Shift b₁ (k + 16) + (x86Shift b₂ (k + 8) +
      x86Shift b₃ k)) : ℕ) - signed (value [b₀, b₁, b₂, b₃]) := by
  have h₀ := b₀.toNat_lt
  have h₁ := b₁.toNat_lt
  have h₂ := b₂.toNat_lt
  have h₃ := b₃.toNat_lt
  have hvalue : value [b₀, b₁, b₂, b₃] =
      256 * (256 * (256 * b₀.toNat + b₁.toNat) + b₂.toNat) + b₃.toNat := by
    simp [value]
  have hp₀ : (k + 24) % 32 = 24 := by omega
  have hp₁ : (k + 16) % 32 = 16 := by omega
  have hp₂ : (k + 8) % 32 = 8 := by omega
  rw [x86Shift_of_lt (b := b₁) (by rw [hp₁]; omega), x86Shift_of_lt (b := b₂) (by rw [hp₂]; omega),
    x86Shift_of_lt (b := b₃) (by rw [hk]; omega), hp₁, hp₂, hk, x86Shift, hp₀, hvalue,
    signExtend, signed]
  split_ifs <;> omega

/-- The bytes of a length with their places. -/
theorem sum_zipIdx (shift : Byte → ℕ → ℕ) (b₀ b₁ b₂ b₃ b₄ b₅ b₆ b₇ : Byte) :
    ([b₀, b₁, b₂, b₃, b₄, b₅, b₆, b₇].zipIdx.map fun x =>
        shift x.1 (8 * ([b₀, b₁, b₂, b₃, b₄, b₅, b₆, b₇].length - 1 - x.2))).sum =
      (shift b₀ 56 + (shift b₁ 48 + (shift b₂ 40 + shift b₃ 32))) +
        (shift b₄ 24 + (shift b₅ 16 + (shift b₆ 8 + shift b₇ 0))) := by
  simp [List.zipIdx_cons, add_assoc]

/-- A sum that is a number between −4 and −1 modulo `2 ^ 64`. -/
theorem exists_dvd_add_iff {n : ℕ} {a : ℤ} (h : (2 ^ 64 : ℤ) ∣ n - a) (hge : -2 ^ 32 ≤ a)
    (hle : a < 2 ^ 32) :
    (∃ k, 1 ≤ k ∧ k ≤ 4 ∧ 2 ^ 64 ∣ n + k) ↔ -4 ≤ a ∧ a ≤ -1 := by
  constructor
  · rintro ⟨k, hk, hk', hdvd⟩
    omega
  · rintro ⟨hfrom, hto⟩
    exact ⟨(-a).toNat, by omega, by omega, by omega⟩

/-- Four bytes have a signed number of 32 bits. -/
theorem signed_value_bounds {bs : Bytes} (h : bs.length = 4) :
    -2 ^ 31 ≤ signed (value bs) ∧ signed (value bs) < 2 ^ 31 := by
  have hlt := value_lt bs
  rw [h, show 256 ^ 4 = 2 ^ 32 by rfl] at hlt
  generalize value bs = n at hlt
  rw [signed]
  split_ifs <;> omega

/-- **Which lengths wrap on that machine**: those whose halves, as signed numbers, add up to −1, −2,
−3 or −4. -/
theorem wraps_x86_iff (h : server.undefinedShift = x86Shift) {high low : Bytes}
    (hhigh : high.length = 4) (hlow : low.length = 4) :
    Wraps server (high ++ low) ↔
      -4 ≤ signed (value high) + signed (value low) ∧
        signed (value high) + signed (value low) ≤ -1 := by
  obtain ⟨hhighGe, hhighLe⟩ := signed_value_bounds hhigh
  obtain ⟨hlowGe, hlowLe⟩ := signed_value_bounds hlow
  obtain ⟨b₀, b₁, b₂, b₃, rfl⟩ := exists_eq_of_length_four hhigh
  obtain ⟨b₄, b₅, b₆, b₇, rfl⟩ := exists_eq_of_length_four hlow
  have hfirst := @dvd_sum_x86Shift b₀ b₁ b₂ b₃ 32 (by decide)
  have hlast := @dvd_sum_x86Shift b₄ b₅ b₆ b₇ 0 (by decide)
  have hsum := sum_zipIdx (shiftLeft server) b₀ b₁ b₂ b₃ b₄ b₅ b₆ b₇
  simp only [shiftLeft_x86 h] at hsum
  simp only [Wraps, shiftLeft_x86 h, List.cons_append, List.nil_append, hsum]
  refine exists_dvd_add_iff ?_ (by omega) (by omega)
  rw [Nat.cast_add, add_sub_add_comm]
  exact Int.dvd_add hfirst hlast

/-- The event is no read of a longer length whose halves, as signed numbers, add up to −1, −2, −3
or −4. -/
def HalvesHold (c : WsConnection) (e : Event) : Prop :=
  ∀ i chunk finRsvOpcode endpoint, e = .received i chunk →
    c.pending[i]? = some (.readLength 8 finRsvOpcode endpoint) →
      let lengthBytes := readBytes (c.readBuffer ++ chunk) 8
      let sum := signed (value (lengthBytes.take 4)) + signed (value (lengthBytes.drop 4))
      ¬ (-4 ≤ sum ∧ sum ≤ -1)

/-- On that machine no length wraps exactly when the halves of none add up to such a number. -/
theorem lengthHolds_x86_iff (h : server.undefinedShift = x86Shift) (c : WsConnection) (e : Event) :
    LengthHolds server c e ↔ HalvesHold c e := by
  have hwraps : ∀ lengthBytes : Bytes, lengthBytes.length = 8 → (Wraps server lengthBytes ↔
      -4 ≤ signed (value (lengthBytes.take 4)) + signed (value (lengthBytes.drop 4)) ∧
        signed (value (lengthBytes.take 4)) + signed (value (lengthBytes.drop 4)) ≤ -1) := by
    intro lengthBytes hlen
    have hhigh : (lengthBytes.take 4).length = 4 := List.length_take_of_le (by omega)
    have hlow : (lengthBytes.drop 4).length = 4 := by
      rw [List.length_drop, hlen]
    have hiff := wraps_x86_iff h hhigh hlow
    rwa [List.take_append_drop] at hiff
  have hread : ∀ buffer, (readBytes buffer 8).length = 8 := by simp [readBytes]
  simp only [LengthHolds, HalvesHold, hwraps _ (hread _)]

/-- **The reads stay inside the buffer**, in every run in which no length wraps, whatever a shift
gives that the language does not define. Where it takes the number of bits modulo 32, these are the
runs in which the halves of no length add up to a number from −4 to −1. -/
theorem along_readInside {es : List Event} {c : WsConnection}
    (h : run (step server) WsServer.accepted es = some c) :
    (Along (step server) (LengthHolds server) WsServer.accepted es →
        Along (step server) ReadInside WsServer.accepted es) ∧
      (server.undefinedShift = x86Shift →
        Along (step server) HalvesHold WsServer.accepted es →
          Along (step server) ReadInside WsServer.accepted es) := by
  refine ⟨along_readInside_of_lengthHolds h, fun hshift hcond => ?_⟩
  have hlengths := hcond.mono fun c e => (lengthHolds_x86_iff hshift c e).mpr
  exact along_readInside_of_lengthHolds h hlengths

/-- A frame with one byte, whose length is written in eight bytes. -/
def longLength : List Event :=
  openedByClient ++ [.received 0 [0x82, 0xff], .received 0 [0, 0, 0, 0, 0, 0, 0, 1],
    .received 0 [0, 0, 0, 0, 7]]

/-- While something else is read, no length wraps. -/
theorem lengthHolds_of_pending {c : WsConnection} {op : Pending} (hpending : c.pending = [op])
    (hop : ∀ finRsvOpcode endpoint, op ≠ .readLength 8 finRsvOpcode endpoint) (e : Event) :
    LengthHolds server c e := by
  rintro i chunk finRsvOpcode endpoint rfl hread
  rw [hpending] at hread
  obtain ⟨-, heq⟩ := eq_of_getElem?_singleton hread
  exact absurd heq (hop finRsvOpcode endpoint)

/-- In the sample run the one length of eight bytes is 1, and does not wrap. -/
theorem lengthHolds_longLength :
    Along (step (Bot.websocket SocketServerBase.sampleSha1 x86Shift))
      (LengthHolds (Bot.websocket SocketServerBase.sampleSha1 x86Shift)) WsServer.accepted
      longLength := by
  refine ⟨lengthHolds_of_pending rfl (by simp) _, fun c₁ h₁ => ?_⟩
  obtain rfl := Option.some.inj h₁
  refine ⟨lengthHolds_of_pending rfl (by simp) _, fun c₂ h₂ => ?_⟩
  obtain rfl := Option.some.inj h₂
  refine ⟨lengthHolds_of_pending rfl (by simp) _, fun c₃ h₃ => ?_⟩
  have hbuffer : [] = c₃.readBuffer := Option.some.inj (congrArg (Option.map readBuffer) h₃)
  refine ⟨?_, fun c₄ h₄ => ?_⟩
  · rintro i chunk finRsvOpcode endpoint heq hread
    obtain ⟨rfl, rfl⟩ := Event.received.inj heq
    have hbytes : readBytes [0, 0, 0, 0, 0, 0, 0, 1] 8 = [0, 0, 0, 0] ++ [0, 0, 0, 1] := rfl
    rw [← hbuffer, List.nil_append, hbytes, wraps_x86_iff rfl rfl rfl]
    decide
  · obtain rfl := Option.some.inj h₃
    obtain rfl := Option.some.inj h₄
    exact ⟨lengthHolds_of_pending rfl (by simp) _, fun _ _ => trivial⟩

/-- In the sample run the reads stay inside the buffer. -/
theorem along_readInside_longLength :
    ∃ c, run (step (Bot.websocket SocketServerBase.sampleSha1 x86Shift)) WsServer.accepted
        longLength = some c ∧
      Along (step (Bot.websocket SocketServerBase.sampleSha1 x86Shift)) ReadInside
        WsServer.accepted longLength :=
  ⟨_, rfl, (@along_readInside (Bot.websocket SocketServerBase.sampleSha1 x86Shift) longLength _
    rfl).1 lengthHolds_longLength⟩

/-- **Eight bytes with all bits set**: both halves are −1, and the handler runs when two bytes have
come. -/
theorem exists_overrun_opened :
    ∃ c, run (step (Bot.websocket SocketServerBase.sampleSha1 x86Shift)) WsServer.accepted
        openedByClient = some c ∧
      ∃ c₁ chunk,
        run (step (Bot.websocket SocketServerBase.sampleSha1 x86Shift)) c
            [.received 0 [0x82, 0xff], .received 0 (List.replicate 8 0xff)] = some c₁ ∧
        chunk.length ≤ 3 ∧
        (step (Bot.websocket SocketServerBase.sampleSha1 x86Shift) c₁
          (.received 0 chunk)).isSome ∧
        ¬ ReadInside c₁ (.received 0 chunk) := by
  have hwraps : Wraps (Bot.websocket SocketServerBase.sampleSha1 x86Shift)
      (List.replicate 4 0xff ++ List.replicate 4 0xff) := by
    rw [wraps_x86_iff rfl rfl rfl]
    decide
  exact ⟨_, rfl, @exists_overrun (Bot.websocket SocketServerBase.sampleSha1 x86Shift)
    Bot.echo _ ⟨rfl, rfl, rfl, fun h => absurd h (by decide)⟩ 0x82 _ rfl hwraps⟩

end WsConnection

end BoostIrc
