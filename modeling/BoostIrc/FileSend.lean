import BoostIrc.StaticFiles
import BoostIrc.Stream
import BoostIrc.Transition

/-!
# Sending a File

A file is sent in parts. `default_resource_send` reads the next part into the buffer of the
response. If the part has the full size it is sent, and the handler of the send calls
`default_resource_send` again; otherwise nothing holds the response any more, and its deleter sends
what is in the buffer.

A write takes the contents of the buffer when it is started, the socket takes them in pieces, and
they leave the buffer when the write is over.

## Main results

* `Sending.step`: what one step makes of a response, one clause for each way through a handler.
* `sends_file`: **the header and the file are sent**, and then nothing is left to do.
-/

open Transition

namespace BoostIrc

/-- An `async_write` of the buffer of a response: that of the deleter or one that holds the
response, what it has been given, and how much of that the socket has taken. -/
structure ResponseWrite where
  last : Bool
  bytes : Bytes
  transferred : ℕ := 0
  deriving DecidableEq, Repr

/-- A response with a file: the stream of the file, the buffer, the writes under way, and what has
been sent on the socket. -/
structure FileResponse where
  ifs : IStream
  streambuf : Bytes
  pending : List ResponseWrite := []
  sent : Bytes := []
  deriving DecidableEq, Repr

namespace FileResponse

/-- `buffer_size`. -/
def bufferSize : ℕ := 131072

/-- `ServerBase::send`. -/
def send (r : FileResponse) (last : Bool) : FileResponse :=
  { r with pending := r.pending ++ [{ last, bytes := r.streambuf }] }

/-- `default_resource_send`. -/
def defaultResourceSend (r : FileResponse) : FileResponse :=
  let (buffer, ifs) := r.ifs.read bufferSize
  let r := { r with ifs }
  if 0 < buffer.length then
    let r := { r with streambuf := r.streambuf ++ buffer }
    if buffer.length = bufferSize then r.send false else r
  else
    r

/-- A function or a handler that holds the response is over. If no write holds it either, the
deleter runs. -/
def release (r : FileResponse) : FileResponse :=
  if r.pending.any fun w => !w.last then r else r.send true

/-- The header of the answer. -/
def okHeader (length : ℕ) : Bytes :=
  ascii "HTTP/1.1 200 OK\r\nContent-Length: " ++ ascii (toString length) ++ ascii "\r\n\r\n"

/-- The answer with a file is its header and the file. -/
theorem okReply_text (path : List PathName) (content : Bytes) :
    (Bot.okReply path content).text = okHeader content.length ++ content := rfl

/-- The resource function has opened a file. It holds the response until it is over. -/
def start (content : Bytes) : FileResponse :=
  let r : FileResponse := { ifs := ⟨content, false, false⟩, streambuf := okHeader content.length }
  r.defaultResourceSend.release

/-- What can happen: the socket takes the next `n` bytes of a write, a write is over, or it
fails. -/
inductive Event where
  | transfer (i n : ℕ)
  | complete (i : ℕ)
  | fail (i : ℕ)
  deriving DecidableEq, Repr

/-- A write is over, and what has been transferred leaves the buffer. -/
def finish (r : FileResponse) (i : ℕ) (w : ResponseWrite) : FileResponse :=
  { r with pending := r.pending.eraseIdx i, streambuf := r.streambuf.drop w.transferred }

/-- One step. The handler of a write that has failed reports this, and lets the response go. -/
def step (r : FileResponse) : Event → Option FileResponse
  | .transfer i n =>
      match r.pending[i]? with
      | none => none
      | some w =>
          if 0 < n ∧ w.transferred + n ≤ w.bytes.length then
            some { r with
              pending := r.pending.set i { w with transferred := w.transferred + n }
              sent := r.sent ++ (w.bytes.drop w.transferred).take n }
          else
            none
  | .complete i =>
      match r.pending[i]? with
      | none => none
      | some w =>
          if w.transferred = w.bytes.length then
            let r := r.finish i w
            some (if w.last then r else r.defaultResourceSend.release)
          else
            none
  | .fail i =>
      match r.pending[i]? with
      | none => none
      | some w =>
          let r := r.finish i w
          some (if w.last then r else r.release)

/-- The write does not fail. -/
def Event.IsOk : Event → Prop
  | .fail _ => False
  | _ => True

/-! ### What a step can do -/

/-- What a transfer does: the socket takes the next bytes of a write. -/
theorem eq_of_step_transfer {r r' : FileResponse} {i n : ℕ} (h : r.step (.transfer i n) = some r') :
    ∃ w, r.pending[i]? = some w ∧ 0 < n ∧ w.transferred + n ≤ w.bytes.length ∧
      r' = { r with
        pending := r.pending.set i { w with transferred := w.transferred + n }
        sent := r.sent ++ (w.bytes.drop w.transferred).take n } := by
  rw [step] at h
  cases hw : r.pending[i]? with
  | none => simp [hw] at h
  | some w =>
      simp only [hw] at h
      obtain ⟨⟨hn, hle⟩, hr⟩ := Option.ite_none_right_eq_some.mp h
      exact ⟨w, rfl, hn, hle, (Option.some.inj hr).symm⟩

/-- What the end of a write does: its bytes leave the buffer, and the handler of a write that holds
the response goes on with the next part. -/
theorem eq_of_step_complete {r r' : FileResponse} {i : ℕ} (h : r.step (.complete i) = some r') :
    ∃ w, r.pending[i]? = some w ∧ w.transferred = w.bytes.length ∧
      r' = if w.last then r.finish i w else (r.finish i w).defaultResourceSend.release := by
  rw [step] at h
  cases hw : r.pending[i]? with
  | none => simp [hw] at h
  | some w =>
      simp only [hw] at h
      obtain ⟨hall, hr⟩ := Option.ite_none_right_eq_some.mp h
      exact ⟨w, rfl, hall, (Option.some.inj hr).symm⟩

/-! ### The parts of a file -/

/-- **What a response looks like** while `text` is sent and no write fails: a part is being sent,
with the rest of the file to follow; or the last part is; or all is over. -/
inductive Sending (text : Bytes) : FileResponse → Prop
  | part {sent bytes rest : Bytes} {t : ℕ} (ht : t ≤ bytes.length)
      (htext : text = sent ++ bytes ++ rest) :
      Sending text ⟨⟨rest, false, false⟩, bytes, [⟨false, bytes, t⟩], sent ++ bytes.take t⟩
  | last {ifs : IStream} {sent bytes : Bytes} {t : ℕ} (ht : t ≤ bytes.length)
      (htext : text = sent ++ bytes) :
      Sending text ⟨ifs, bytes, [⟨true, bytes, t⟩], sent ++ bytes.take t⟩
  | ended (ifs : IStream) : Sending text ⟨ifs, [], [], text⟩

/-- What is left to do: the bytes of the file, which are read and sent, those of the writes, and
the ends of the writes. -/
def measure (r : FileResponse) : ℕ :=
  2 * r.ifs.buffer.length +
    (r.pending.map fun w => w.bytes.length - w.transferred + if w.last then 1 else 2).sum

/-- The buffer is not empty. -/
theorem bufferSize_pos : 0 < bufferSize := by decide

/-- A write of a part that has just been started: none of its bytes have been sent. -/
theorem Sending.of_start {text sent bytes rest : Bytes} (htext : text = sent ++ bytes ++ rest) :
    Sending text ⟨⟨rest, false, false⟩, bytes, [⟨false, bytes, 0⟩], sent⟩ := by
  have h := Sending.part (Nat.zero_le bytes.length) htext
  rwa [List.take_zero, List.append_nil] at h

/-- The write of the deleter has just been started: none of its bytes have been sent. -/
theorem Sending.of_start_last (ifs : IStream) {text sent bytes : Bytes}
    (htext : text = sent ++ bytes) : Sending text ⟨ifs, bytes, [⟨true, bytes, 0⟩], sent⟩ := by
  have h := @Sending.last text ifs sent bytes 0 (Nat.zero_le bytes.length) htext
  rwa [List.take_zero, List.append_nil] at h

/-- What is left of the file is less than the buffer: it is the last part, which may be empty. No
write holds the response any more, so the deleter sends it. -/
theorem release_defaultResourceSend_of_lt {rest : Bytes} (h : rest.length < bufferSize)
    (front sent : Bytes) :
    (defaultResourceSend ⟨⟨rest, false, false⟩, front, [], sent⟩).release =
      ⟨⟨[], true, true⟩, front ++ rest, [⟨true, front ++ rest, 0⟩], sent⟩ := by
  have hread : IStream.read ⟨rest, false, false⟩ bufferSize = (rest, ⟨[], true, true⟩) := if_pos h
  rw [defaultResourceSend, hread]
  by_cases hempty : 0 < rest.length
  · simp only [if_pos hempty, if_neg h.ne]
    rfl
  · obtain rfl : rest = [] := List.length_eq_zero_iff.mp (by omega)
    rw [List.append_nil]
    rfl

/-- What is left of the file fills the buffer: a part of the full size is sent by a write that
holds the response, and the rest of the file is left for the handler. -/
theorem release_defaultResourceSend_of_le {rest : Bytes} (h : bufferSize ≤ rest.length)
    (front sent : Bytes) :
    (defaultResourceSend ⟨⟨rest, false, false⟩, front, [], sent⟩).release =
      ⟨⟨rest.drop bufferSize, false, false⟩, front ++ rest.take bufferSize,
        [⟨false, front ++ rest.take bufferSize, 0⟩], sent⟩ := by
  have hread : IStream.read ⟨rest, false, false⟩ bufferSize =
      (rest.take bufferSize, ⟨rest.drop bufferSize, false, false⟩) := if_neg (not_lt.mpr h)
  have hlen : (rest.take bufferSize).length = bufferSize := List.length_take_of_le h
  rw [defaultResourceSend, hread]
  simp only [hlen, if_pos bufferSize_pos]
  rfl

/-- **The next part**: `default_resource_send` and what follows it. A part of the full size holds
the response; the last part, which may be empty, is sent by the deleter. -/
theorem Sending.next {text sent front rest : Bytes} (htext : text = sent ++ front ++ rest) :
    Sending text (defaultResourceSend ⟨⟨rest, false, false⟩, front, [], sent⟩).release ∧
      measure (defaultResourceSend ⟨⟨rest, false, false⟩, front, [], sent⟩).release <
        2 * rest.length + front.length + 2 := by
  have hpos := bufferSize_pos
  rcases lt_or_ge rest.length bufferSize with hshort | hfull
  · rw [release_defaultResourceSend_of_lt hshort]
    refine ⟨.of_start_last _ (htext.trans (List.append_assoc _ _ _)), ?_⟩
    simp [measure]
    omega
  · have htext' : text = sent ++ (front ++ rest.take bufferSize) ++ rest.drop bufferSize := by
      rw [htext, List.append_assoc, List.append_assoc, List.append_assoc, List.take_append_drop]
    rw [release_defaultResourceSend_of_le hfull]
    refine ⟨.of_start htext', ?_⟩
    simp [measure]
    omega

/-- The socket takes some more bytes of a write. -/
theorem take_append_take (sent bytes : Bytes) (t n : ℕ) :
    sent ++ bytes.take t ++ (bytes.drop t).take n = sent ++ bytes.take (t + n) := by
  rw [List.append_assoc, List.take_add]

/-- **What one step makes of a response**: what is left to do becomes less. The text that it has to
send stays the same, so a run without errors ends with all of it sent. -/
theorem Sending.step {text : Bytes} {r r' : FileResponse} {e : Event} (h : Sending text r)
    (hok : e.IsOk) (hs : r.step e = some r') : Sending text r' ∧ measure r' < measure r := by
  cases e with
  | fail i => exact absurd hok id
  | transfer i n =>
      obtain ⟨w, hw, hn, hle, rfl⟩ := eq_of_step_transfer hs
      cases h with
      | @part sent bytes rest t ht htext =>
          obtain ⟨rfl, rfl⟩ := eq_of_getElem?_singleton hw
          have hmore : t + n ≤ bytes.length := hle
          rw [take_append_take]
          refine ⟨.part hmore htext, ?_⟩
          simp [measure]
          omega
      | @last ifs sent bytes t ht htext =>
          obtain ⟨rfl, rfl⟩ := eq_of_getElem?_singleton hw
          have hmore : t + n ≤ bytes.length := hle
          rw [take_append_take]
          refine ⟨.last hmore htext, ?_⟩
          simp [measure]
          omega
      | ended ifs => exact absurd hw (by simp)
  | complete i =>
      obtain ⟨w, hw, hall, rfl⟩ := eq_of_step_complete hs
      cases h with
      | @part sent bytes rest t ht htext =>
          obtain ⟨rfl, rfl⟩ := eq_of_getElem?_singleton hw
          obtain rfl : t = bytes.length := hall
          have hfinish : finish ⟨⟨rest, false, false⟩, bytes, [⟨false, bytes, bytes.length⟩],
              sent ++ bytes.take bytes.length⟩ 0 ⟨false, bytes, bytes.length⟩ =
                ⟨⟨rest, false, false⟩, [], [], sent ++ bytes⟩ := by
            simp [finish]
          have hnext := @Sending.next text (sent ++ bytes) [] rest (by rwa [List.append_nil])
          rw [if_neg (by simp), hfinish]
          refine ⟨hnext.1, hnext.2.trans_le ?_⟩
          simp [measure]
      | @last ifs sent bytes t ht htext =>
          obtain ⟨rfl, rfl⟩ := eq_of_getElem?_singleton hw
          obtain rfl : t = bytes.length := hall
          have hfinish : finish ⟨ifs, bytes, [⟨true, bytes, bytes.length⟩],
              sent ++ bytes.take bytes.length⟩ 0 ⟨true, bytes, bytes.length⟩ =
                ⟨ifs, [], [], text⟩ := by
            simp [finish, htext]
          rw [if_pos rfl, hfinish]
          exact ⟨.ended ifs, by simp [measure]⟩
      | ended ifs => exact absurd hw (by simp)

/-- A write goes on until the socket has taken all of it, and then it is over. -/
theorem exists_step {r : FileResponse} {w : ResponseWrite} (hw : r.pending[0]? = some w)
    (ht : w.transferred ≤ w.bytes.length) : ∃ e : Event, e.IsOk ∧ r.step e ≠ none := by
  by_cases hall : w.transferred = w.bytes.length
  · exact ⟨.complete 0, trivial, by simp [FileResponse.step, hw, hall]⟩
  · have hmore : w.transferred + 1 ≤ w.bytes.length := by omega
    exact ⟨.transfer 0 1, trivial, by simp [FileResponse.step, hw, hmore]⟩

/-- **When nothing can happen any more**, all has been sent. As long as a byte of the text is
missing, there is a write that can end or a buffer of the file that can be read. -/
theorem Sending.sent_eq {text : Bytes} {r : FileResponse} (h : Sending text r)
    (hidle : ∀ e : Event, e.IsOk → r.step e = none) : r.sent = text := by
  cases h with
  | @part sent bytes rest t ht htext =>
      obtain ⟨e, hok, hne⟩ := @exists_step
        ⟨⟨rest, false, false⟩, bytes, [⟨false, bytes, t⟩], sent ++ bytes.take t⟩ _ rfl ht
      exact absurd (hidle e hok) hne
  | @last ifs sent bytes t ht htext =>
      obtain ⟨e, hok, hne⟩ := @exists_step
        ⟨ifs, bytes, [⟨true, bytes, t⟩], sent ++ bytes.take t⟩ _ rfl ht
      exact absurd (hidle e hok) hne
  | ended ifs => rfl

/-- What has been sent is the beginning of the text. -/
theorem Sending.sent_isPrefix {text : Bytes} {r : FileResponse} (h : Sending text r) :
    r.sent <+: text := by
  cases h with
  | @part sent bytes rest t ht htext =>
      rw [htext, List.append_assoc]
      exact List.prefix_append_right_inj sent |>.mpr
        ((List.take_prefix t bytes).trans (List.prefix_append bytes rest))
  | @last ifs sent bytes t ht htext =>
      rw [htext]
      exact (List.prefix_append_right_inj sent).mpr (List.take_prefix t bytes)
  | ended ifs => exact List.prefix_refl text

/-! ### The header -/

/-- The bytes are digits, and **write the number `n` in decimal**. -/
structure Writes (digits : Bytes) (n : ℕ) : Prop where
  ne_nil : digits ≠ []
  isDigit : ∀ d ∈ digits, isDigit d = true
  decimal_eq : decimal digits = n

/-- A digit that has been written is one, and is read as its value. -/
theorem writes_digitChar {d : ℕ} (h : d < 10) : Writes [(Nat.digitChar d).toUInt8] d := by
  have hdigits : ∀ d < 10, BoostIrc.isDigit (Nat.digitChar d).toUInt8 = true ∧
      decimal [(Nat.digitChar d).toUInt8] = d := by decide
  obtain ⟨hdigit, hdecimal⟩ := hdigits d h
  exact ⟨List.cons_ne_nil _ _, by simpa using hdigit, hdecimal⟩

/-- One more digit makes the number ten times what it was, and adds the digit. -/
theorem Writes.concat {digits : Bytes} {n d : ℕ} {a : Byte} (h : Writes digits n)
    (ha : Writes [a] d) : Writes (digits ++ [a]) (10 * n + d) := by
  refine ⟨List.append_ne_nil_of_left_ne_nil h.ne_nil _, ?_, ?_⟩
  · intro b hb
    rcases List.mem_append.mp hb with hb | hb
    · exact h.isDigit b hb
    · exact ha.isDigit b hb
  · have hlast : a.toNat - 0x30 = d := by simpa [decimal] using ha.decimal_eq
    have hrest := h.decimal_eq
    rw [decimal] at hrest ⊢
    rw [List.foldl_append, hrest, List.foldl_cons, List.foldl_nil, hlast]

/-- **A number that is written in decimal is read back.** The length of the content stands in the
header in this form, and it is the number of the bytes that follow the header. -/
theorem writes_toString (n : ℕ) : Writes (ascii (toString n)) n := by
  have htext : ascii (toString n) = (Nat.toDigits 10 n).map Char.toUInt8 := by
    rw [ascii, show toString n = n.repr from rfl, Nat.toList_repr]
  rw [htext]
  clear htext
  induction n using Nat.strongRecOn with
  | ind n ih =>
      rw [Nat.toDigits_eq_if (by decide)]
      by_cases hn : n < 10
      · rw [if_pos hn]
        exact writes_digitChar hn
      · have hlast := writes_digitChar (Nat.mod_lt n (by decide : 0 < 10))
        have hwrites := (ih (n / 10) (by omega)).concat hlast
        rw [if_neg hn, List.map_append]
        rwa [Nat.div_add_mod] at hwrites

/-! ### The runs -/

/-- Every response that can be reached is one of these, and the number of steps is bounded. -/
theorem sending_of_run {content : Bytes} {es : List Event} {r : FileResponse}
    (h : run step (start content) es = some r) (hok : ∀ e ∈ es, e.IsOk) :
    Sending (okHeader content.length ++ content) r ∧
      es.length < 2 * content.length + (okHeader content.length).length + 2 := by
  obtain ⟨hstart, hlt⟩ :=
    @Sending.next (okHeader content.length ++ content) [] (okHeader content.length) content rfl
  have hsteps : ∀ r e r', Sending (okHeader content.length ++ content) r → Event.IsOk e →
      step r e = some r' →
        Sending (okHeader content.length ++ content) r' ∧ measure r' < measure r :=
    fun r e r' hr he hs => hr.step he hs
  have halong : Along step (fun _ e => Event.IsOk e) (start content) es := along_of_forall hok _
  refine ⟨run_invariant (fun r e r' hr he hs => (hsteps r e r' hr he hs).1) hstart halong h, ?_⟩
  have hle := length_add_le measure hsteps hstart halong h
  have hlt' : measure (start content) <
      2 * content.length + (okHeader content.length).length + 2 := hlt
  omega

/-- **A file is sent as it is**, behind a header with its length: in every run in which no write
fails, what has been sent is the beginning of the answer, and all of it when nothing is left to do.
The number of steps is bounded, and any run can be continued until nothing is left. -/
theorem sends_file {content : Bytes} {es : List Event} {r : FileResponse}
    (h : run step (start content) es = some r) (hok : ∀ e ∈ es, e.IsOk) :
    ∃ digits, Writes digits content.length ∧
      let answer := ascii "HTTP/1.1 200 OK\r\nContent-Length: " ++ digits ++ ascii "\r\n\r\n" ++
        content
      r.sent <+: answer ∧
      ((∀ e : Event, e.IsOk → step r e = none) → r.sent = answer) ∧
      es.length < 2 * content.length + (okHeader content.length).length + 2 ∧
      ∃ more r', run step r more = some r' ∧ (∀ e ∈ more, e.IsOk) ∧
        (∀ e : Event, e.IsOk → step r' e = none) ∧ r'.sent = answer := by
  refine ⟨ascii (toString content.length), writes_toString content.length, ?_⟩
  obtain ⟨hsending, hlen⟩ := sending_of_run h hok
  refine ⟨hsending.sent_isPrefix, hsending.sent_eq, hlen, ?_⟩
  obtain ⟨more, r', hmore, hsending', hok', hidle⟩ := exists_run_to_idle_of_invariant
    (I := Sending (okHeader content.length ++ content)) (E := Event.IsOk) measure
    (fun r e r' hr he hs => hr.step he hs) hsending
  exact ⟨more, r', hmore, hok', hidle, hsending'.sent_eq hidle⟩

/-- The socket takes the whole of a write at once, and the write is over. -/
theorem run_whole (ifs : IStream) (last : Bool) (sent : Bytes) {bytes : Bytes}
    (h : 0 < bytes.length) :
    run step ⟨ifs, bytes, [⟨last, bytes, 0⟩], sent⟩ [.transfer 0 bytes.length, .complete 0] =
      some (if last then ⟨ifs, [], [], sent ++ bytes⟩
        else (defaultResourceSend ⟨ifs, [], [], sent ++ bytes⟩).release) := by
  simp [run, step, finish, h]

/-- The steps that send a file of one byte more than the buffer: its first part, with the header,
is sent by a write that holds the response, and its last byte by the deleter. -/
def twoPartsRun : List Event :=
  [.transfer 0 131115, .complete 0] ++ [.transfer 0 1, .complete 0]

/-- The two writes, and what is left to do behind them. -/
theorem run_twoPartsRun {content : Bytes} (h : content.length = bufferSize + 1) :
    run step (start content) twoPartsRun =
      some ⟨⟨[], true, true⟩, [], [], okHeader content.length ++ content⟩ := by
  have hheader : (okHeader content.length).length = 43 := by
    rw [h]
    decide
  have hfull : bufferSize ≤ content.length := by omega
  have hstart := release_defaultResourceSend_of_le hfull (okHeader content.length) []
  have hrest : (content.drop bufferSize).length = 1 := by
    rw [List.length_drop]
    omega
  have hshort : (content.drop bufferSize).length < bufferSize := by
    rw [hrest]
    decide
  have hnext := release_defaultResourceSend_of_lt hshort []
    (okHeader content.length ++ content.take bufferSize)
  have hpart : (okHeader content.length ++ content.take bufferSize).length = 131115 := by
    rw [List.length_append, hheader, List.length_take_of_le hfull]
    rfl
  have hfirst := run_whole ⟨content.drop bufferSize, false, false⟩ false []
    (show 0 < (okHeader content.length ++ content.take bufferSize).length by omega)
  have hsecond := run_whole ⟨[], true, true⟩ true
    (okHeader content.length ++ content.take bufferSize)
    (show 0 < (content.drop bufferSize).length by omega)
  rw [hpart] at hfirst
  rw [hrest] at hsecond
  simp only [List.nil_append] at hfirst hnext hsecond
  rw [twoPartsRun, run_append, start, hstart, hfirst]
  simp only [Bool.false_eq_true, if_false, Option.bind_some, hnext, hsecond, if_true]
  rw [List.append_assoc, List.take_append_drop]

/-- A file of one byte more than the buffer: after two writes nothing is left to do, and all of the
answer has been sent. -/
theorem sends_file_twoParts :
    let content : Bytes := List.replicate 131073 0x61
    ∃ r, run step (start content) twoPartsRun = some r ∧
      (∀ e : Event, e.IsOk → step r e = none) ∧
        ∃ digits, Writes digits content.length ∧
          r.sent = ascii "HTTP/1.1 200 OK\r\nContent-Length: " ++ digits ++ ascii "\r\n\r\n" ++
            content := by
  intro content
  have h : content.length = bufferSize + 1 := List.length_replicate
  have hok : ∀ e ∈ twoPartsRun, e.IsOk := by simp [twoPartsRun, Event.IsOk]
  have hrun := run_twoPartsRun h
  obtain ⟨digits, hdigits, -, hsent, -⟩ := sends_file hrun hok
  have hidle : ∀ e : Event, e.IsOk →
      step ⟨⟨[], true, true⟩, [], [], okHeader content.length ++ content⟩ e = none := by
    intro e _
    cases e <;> rfl
  exact ⟨_, hrun, hidle, digits, hdigits, hsent hidle⟩

end FileResponse

end BoostIrc
