import BoostIrc.Stream
import BoostIrc.Transition

/-!
# The HTTP Client

`http_client` fetches a document: it resolves the host, tries the endpoints one after the other,
writes its request to the first that accepts, and reads the answer until the server closes the
connection. The status line, the header lines and the content are read by three handlers over one
buffer. `async_read_until` completes as soon as the buffer holds the delimiter, so a handler may
find more in the buffer than it has waited for.

## Main results

* `HttpClient.step_received`: what a read makes of an answer, wherever it is cut.
* `HttpClient.delivers_iff`: **when the callback gets the body**.
-/

open Delimiter Transition

namespace BoostIrc

universe u

/-- What the client waits for. -/
inductive HttpClient.Phase (α : Type u) where
  | resolve
  | connect (next : List α)
  | writeRequest
  | readStatusLine
  | readHeaders
  | readContent
  | done
  deriving DecidableEq, Repr

/-- The state of the client. `attempted` has the endpoints tried, `written` what has been written
to the socket, and `called` the contents of the stream with which the callback has been called. -/
structure HttpClient (α : Type u) where
  request : Bytes
  phase : HttpClient.Phase α := .resolve
  attempted : List α := []
  written : List Bytes := []
  response : Bytes := []
  res : Bytes := []
  called : List Bytes := []
  deriving DecidableEq, Repr

namespace HttpClient

/-- The request of the client. -/
def requestText (server path : Bytes) : Bytes :=
  ascii "GET " ++ path ++ ascii " HTTP/1.0\r\n" ++ ascii "Host: " ++ server ++ crlf ++
    ascii "Accept: */*\r\n" ++ ascii "Connection: close\r\n\r\n"

/-- `http_client::create`. -/
def create (α : Type u) (server path : Bytes) : HttpClient α where
  request := requestText server path

variable {α : Type u}

/-- `async_connect` to the first of the endpoints. -/
def connect (c : HttpClient α) : List α → Option (HttpClient α)
  | [] => none
  | endpoint :: next =>
      some { c with phase := .connect next, attempted := c.attempted ++ [endpoint] }

/-- `handle_resolve`. The iterator is read in any case; a resolution that has succeeded has found
an endpoint. -/
def handleResolve (c : HttpClient α) : Option (List α) → Option (HttpClient α)
  | none => some { c with phase := .done }
  | some endpoints => c.connect endpoints

/-- `handle_connect`. -/
def handleConnect (c : HttpClient α) (ok : Bool) (next : List α) : Option (HttpClient α) :=
  if ok then
    some { c with phase := .writeRequest, written := c.written ++ [c.request] }
  else if next ≠ [] then
    c.connect next
  else
    some { c with phase := .done }

/-- The loop over the header lines in `handle_read_headers`, with fuel: what is left of the stream
at a blank line, or when there is no line. -/
def skipHeaders : ℕ → IStream → Bytes → IStream
  | 0, stream, _ => stream
  | fuel + 1, stream, header =>
      let (header, stream) := stream.getline header
      if !stream.fail && header ≠ [CR] then skipHeaders fuel stream header else stream

/-- `handle_read_headers`. Every line takes at least a byte from the buffer. -/
def handleReadHeaders (c : HttpClient α) : HttpClient α :=
  let stream := skipHeaders (c.response.length + 1) ⟨c.response, false, false⟩ []
  let c := { c with response := stream.buffer, phase := .readContent }
  if 0 < c.response.length then { c with res := c.res ++ c.response, response := [] } else c

/-- `async_read_until` the blank line. -/
def readHeaders (c : HttpClient α) : HttpClient α :=
  if (firstEnd (crlf ++ crlf) c.response).isSome then
    handleReadHeaders c
  else
    { c with phase := .readHeaders }

/-- `handle_read_status_line`. -/
def handleReadStatusLine (c : HttpClient α) : HttpClient α :=
  let (httpVersion, stream) := IStream.extractWord ⟨c.response, false, false⟩ []
  let (statusCode, stream) := stream.extractUnsigned
  let (_, stream) := stream.getline []
  let c := { c with response := stream.buffer }
  if stream.fail ∨ httpVersion.take 5 ≠ ascii "HTTP/" then
    { c with phase := .done }
  else if statusCode ≠ some 200 then
    { c with phase := .done }
  else
    readHeaders c

/-- `async_read_until` the end of the first line. -/
def readStatusLine (c : HttpClient α) : HttpClient α :=
  if (firstEnd crlf c.response).isSome then
    handleReadStatusLine c
  else
    { c with phase := .readStatusLine }

/-- `handle_read_content`. -/
def handleReadContent (c : HttpClient α) : HttpClient α :=
  { c with res := c.res ++ c.response, response := [] }

/-- What can happen: the host is resolved, or not; the endpoint accepts, or not; the request has
been written, or not; bytes arrive; a read fails, at the end of the stream or for another
reason. -/
inductive Event (α : Type u) where
  | resolved (result : Option (List α))
  | connected (ok : Bool)
  | written (ok : Bool)
  | received (chunk : Bytes)
  | failed (eof : Bool)
  deriving DecidableEq, Repr

/-- One step. -/
def step (c : HttpClient α) : Event α → Option (HttpClient α)
  | .resolved result => if c.phase matches .resolve then c.handleResolve result else none
  | .connected ok =>
      match c.phase with
      | .connect next => c.handleConnect ok next
      | _ => none
  | .written ok =>
      match c.phase with
      | .writeRequest => some (if ok then c.readStatusLine else { c with phase := .done })
      | _ => none
  | .received chunk =>
      if chunk = [] then
        none
      else
        let c := { c with response := c.response ++ chunk }
        match c.phase with
        | .readStatusLine => some c.readStatusLine
        | .readHeaders => some c.readHeaders
        | .readContent => some c.handleReadContent
        | _ => none
  | .failed eof =>
      match c.phase with
      | .readStatusLine => some { c with phase := .done }
      | .readHeaders => some { c with phase := .done }
      | .readContent =>
          some { c with phase := .done, called := c.called ++ if eof then [c.res] else [] }
      | _ => none

end HttpClient

/-! ### The answers of servers -/

/-- The answer of a server: the version behind `HTTP/`, the reason, if there is one, the header
lines, and the body. -/
structure HttpResponse where
  version : Bytes
  reason : Option Bytes
  headers : List Bytes
  body : Bytes
  version_legal : ∀ b ∈ version, ¬ isSpace b
  reason_legal : ∀ t ∈ reason, LF ∉ t
  headers_legal : ∀ l ∈ headers, IsLine l

namespace HttpResponse

/-- The reason, with the space before it. -/
def reasonPhrase (r : HttpResponse) : Bytes :=
  r.reason.elim [] fun t => SP :: t

/-- The first line. -/
def statusLine (r : HttpResponse) : Bytes :=
  ascii "HTTP/" ++ r.version ++ ascii " 200" ++ r.reasonPhrase

/-- What follows the first line. -/
def afterStatusLine (r : HttpResponse) : Bytes :=
  renderLines r.headers ++ crlf ++ r.body

/-- The answer as it is sent. -/
def render (r : HttpResponse) : Bytes :=
  r.statusLine ++ crlf ++ r.afterStatusLine

/-- There is no line feed in the reason phrase. -/
theorem lf_notMem_reasonPhrase (r : HttpResponse) : LF ∉ r.reasonPhrase := by
  rw [reasonPhrase]
  cases hreason : r.reason with
  | none => simp
  | some t =>
      rw [Option.elim_some, List.mem_cons, not_or]
      exact ⟨by decide, r.reason_legal t (by rw [hreason]; rfl)⟩

/-- There is no line feed in the status line. -/
theorem lf_notMem_statusLine (r : HttpResponse) : LF ∉ r.statusLine := by
  have hversion : LF ∉ r.version := fun h => r.version_legal LF h (by decide)
  have hhttp : LF ∉ ascii "HTTP/" := by decide
  have hcode : LF ∉ ascii " 200" := by decide
  simp [statusLine, hversion, hhttp, hcode, r.lf_notMem_reasonPhrase]

/-- The end of the first line is found where it is. -/
theorem firstEnd_render (r : HttpResponse) :
    firstEnd crlf r.render = some (r.statusLine ++ crlf).length := by
  rw [render, firstEnd_crlf r.lf_notMem_statusLine, List.length_append]
  rfl

end HttpResponse

namespace HttpClient

variable {α : Type u}

/-- What follows the code is no digit: the extraction of the number ends there. -/
theorem exists_cons_reasonPhrase (r : HttpResponse) (rest : Bytes) :
    ∃ b text, r.reasonPhrase ++ crlf ++ rest = b :: text ∧ isDigit b = false := by
  rw [HttpResponse.reasonPhrase]
  cases r.reason with
  | none => exact ⟨CR, LF :: rest, rfl, by decide⟩
  | some t => exact ⟨SP, t ++ crlf ++ rest, rfl, by decide⟩

/-- The code is read as a number, and what follows it is left. -/
theorem extractUnsigned_code {b : Byte} (hb : isDigit b = false) (text : Bytes) :
    IStream.extractUnsigned ⟨ascii " 200" ++ b :: text, false, false⟩ =
      (some 200, ⟨b :: text, false, false⟩) := by
  have htwo : isDigit 0x32 = true := by decide
  have hzero : isDigit 0x30 = true := by decide
  have hdigits : leadingDigits (0x32 :: 0x30 :: 0x30 :: b :: text) = [0x32, 0x30, 0x30] := by
    simp [leadingDigits, htwo, hzero, hb]
  have hrest : (0x32 :: 0x30 :: 0x30 :: b :: text).dropWhile isDigit = b :: text := by
    simp [htwo, hzero, hb]
  have htext : (ascii " 200" ++ b :: text).dropWhile isSpace =
      0x32 :: 0x30 :: 0x30 :: b :: text := rfl
  have hsign : takeSign (0x32 :: 0x30 :: 0x30 :: b :: text) =
      (false, 0x32 :: 0x30 :: 0x30 :: b :: text) := rfl
  simp only [IStream.extractUnsigned, htext, hsign, hdigits, hrest]
  rfl

/-- **The first line is read**, whatever has arrived behind it. The line and its terminator are
taken out of the buffer, and the header is looked for in what is left. -/
theorem handleReadStatusLine_eq (r : HttpResponse) (c : HttpClient α) (rest : Bytes)
    (hresponse : c.response = r.statusLine ++ crlf ++ rest) :
    c.handleReadStatusLine = readHeaders { c with response := rest } := by
  obtain ⟨b, text, htext, hb⟩ := exists_cons_reasonPhrase r rest
  have hword : IStream.extractWord ⟨c.response, false, false⟩ [] =
      (ascii "HTTP/" ++ r.version, ⟨ascii " 200" ++ b :: text, false, false⟩) := by
    have hsplit : c.response =
        (ascii "HTTP/" ++ r.version) ++ SP :: (ascii "200" ++ b :: text) := by
      rw [hresponse, HttpResponse.statusLine, ← htext]
      simp only [List.append_assoc]
      rfl
    have hspace : ∀ a ∈ ascii "HTTP/", ¬ isSpace a := by
      simpa using List.all_eq_true.mp (show (ascii "HTTP/").all (fun a => !isSpace a) from rfl)
    rw [hsplit, IStream.extractWord_append (by simp [ascii]) ?_ (by decide)]
    · rfl
    · exact List.forall_mem_append.mpr ⟨hspace, r.version_legal⟩
  have hline : IStream.getline ⟨b :: text, false, false⟩ [] =
      (r.reasonPhrase ++ [CR], ⟨rest, false, false⟩) := by
    have hlf : LF ∉ r.reasonPhrase ++ [CR] := by
      rw [List.mem_append, not_or]
      exact ⟨r.lf_notMem_reasonPhrase, by decide⟩
    have hsplit : b :: text = r.reasonPhrase ++ [CR] ++ LF :: rest := by
      rw [← htext]
      simp [crlf]
    rw [hsplit, IStream.getline_append_lf hlf]
  have hhttp : (ascii "HTTP/" ++ r.version).take 5 = ascii "HTTP/" := rfl
  simp only [handleReadStatusLine, hword, extractUnsigned_code hb, hline, hhttp]
  simp

/-- The loop over the header lines stops behind the blank line. -/
theorem skipHeaders_renderLines {headers : List Bytes} (h : ∀ l ∈ headers, IsLine l) (rest : Bytes)
    {fuel : ℕ} (hfuel : headers.length < fuel) (header : Bytes) :
    skipHeaders fuel ⟨renderLines headers ++ crlf ++ rest, false, false⟩ header =
      ⟨rest, false, false⟩ := by
  induction headers generalizing fuel header with
  | nil =>
      obtain ⟨k, rfl⟩ : ∃ k, fuel = k + 1 := ⟨fuel - 1, by omega⟩
      have hline : IStream.getline ⟨renderLines [] ++ crlf ++ rest, false, false⟩ header =
          ([CR], ⟨rest, false, false⟩) :=
        IStream.getline_append_lf (show LF ∉ [CR] by decide) rest header
      rw [skipHeaders, hline]
      rfl
  | cons l headers ih =>
      obtain ⟨k, rfl⟩ : ∃ k, fuel = k + 1 := ⟨fuel - 1, by simp at hfuel; omega⟩
      obtain ⟨hne, hlf⟩ := h l List.mem_cons_self
      have hrender : renderLines (l :: headers) ++ crlf ++ rest =
          l ++ [CR] ++ LF :: (renderLines headers ++ crlf ++ rest) := by
        simp [renderLines, crlf]
      have hlf' : LF ∉ l ++ [CR] := by
        rw [List.mem_append, not_or]
        exact ⟨hlf, by decide⟩
      have hnot : l ++ [CR] ≠ [CR] := by simp [hne]
      rw [hrender, skipHeaders, IStream.getline_append_lf hlf']
      simp only [hnot, ne_eq, not_false_eq_true, decide_true, Bool.not_false, Bool.and_self,
        if_true]
      exact ih (fun m hm => h m (List.mem_cons_of_mem l hm)) (by simp at hfuel; omega) _

/-- How many bytes the header lines and the blank line have. -/
def headLength (r : HttpResponse) : ℕ :=
  (renderLines r.headers).length + 2

/-- **What a client makes of the part `w` of an answer**, wherever the reads have cut it. -/
def reading (c : HttpClient α) (r : HttpResponse) (w : Bytes) : HttpClient α :=
  if w.length < (r.statusLine ++ crlf).length then
    { c with phase := .readStatusLine, response := w }
  else
    let text := w.drop (r.statusLine ++ crlf).length
    if (firstEnd (crlf ++ crlf) text).isSome then
      { c with phase := .readContent, response := [], res := text.drop (headLength r) }
    else
      { c with phase := .readHeaders, response := text }

/-- As long as the status line has not come whole, all that has come is in the buffer. -/
theorem reading_of_lt (c : HttpClient α) {r : HttpResponse} {w : Bytes}
    (h : w.length < (r.statusLine ++ crlf).length) :
    reading c r w = { c with phase := .readStatusLine, response := w } :=
  if_pos h

/-- When the status line has come, the client is done with it, and waits for the end of the headers
if that has not come as well. -/
theorem reading_of_not_lt (c : HttpClient α) {r : HttpResponse} {w text : Bytes}
    (h : ¬ w.length < (r.statusLine ++ crlf).length)
    (htext : w.drop (r.statusLine ++ crlf).length = text) :
    reading c r w =
      if (firstEnd (crlf ++ crlf) text).isSome then
        { c with phase := .readContent, response := [], res := text.drop (headLength r) }
      else
        { c with phase := .readHeaders, response := text } := by
  subst htext
  exact if_neg h

/-- Where a blank line has been found, the head is there. -/
theorem headLength_le {r : HttpResponse} {text : Bytes} (h : text <+: r.afterStatusLine)
    (hfound : (firstEnd (crlf ++ crlf) text).isSome) : headLength r ≤ text.length := by
  cases hheaders : r.headers with
  | nil =>
      have hle := (isSome_firstEnd_iff.mp hfound).length_le
      simp only [headLength, hheaders, renderLines, List.flatMap_nil, List.length_nil]
      simp only [List.length_append, crlf, List.length_cons, List.length_nil] at hle
      omega
  | cons l headers =>
      obtain ⟨q, hq⟩ := h
      have hend := firstEnd_renderLines (by simp [hheaders]) r.headers_legal r.body
      rw [← HttpResponse.afterStatusLine, ← hq] at hend
      have hpart := firstEnd_of_append hend
      rw [hpart] at hfound
      by_contra hlt
      rw [if_neg (by rw [headLength] at hlt; omega)] at hfound
      exact absurd hfound (by simp)

/-- The header lines are read up to the blank one, and what has come behind them is the beginning of
the content. -/
theorem handleReadHeaders_eq {r : HttpResponse} {c : HttpClient α}
    (h : c.response <+: r.afterStatusLine) (hle : headLength r ≤ c.response.length)
    (hres : c.res = []) :
    c.handleReadHeaders =
      { c with phase := .readContent, response := [], res := c.response.drop (headLength r) } := by
  have hhead : renderLines r.headers ++ crlf <+: c.response := by
    refine List.prefix_of_prefix_length_le (List.prefix_append _ r.body) h ?_
    rw [List.length_append]
    exact hle
  obtain ⟨rest, hrest⟩ := hhead
  have hdrop : c.response.drop (headLength r) = rest := by
    rw [← hrest]
    exact List.drop_left' (by rw [headLength, List.length_append]; rfl)
  have hlen : r.headers.length ≤ (renderLines r.headers).length := by
    induction r.headers with
    | nil => simp
    | cons l headers ih =>
        simp only [renderLines, List.flatMap_cons, List.length_append, List.length_cons, crlf]
          at ih ⊢
        omega
  have hfuel : r.headers.length < c.response.length + 1 := by
    rw [headLength] at hle
    omega
  have hskip := skipHeaders_renderLines r.headers_legal rest hfuel []
  rw [hrest] at hskip
  simp only [handleReadHeaders, hskip, hdrop, hres, List.nil_append]
  split_ifs with hpos
  · rfl
  · have hnil : rest = [] := List.length_eq_zero_iff.mp (by omega)
    rw [hnil]

/-- The header lines are read when the blank line is there. -/
theorem readHeaders_eq {r : HttpResponse} (c : HttpClient α) {text : Bytes}
    (h : text <+: r.afterStatusLine) (hres : c.res = []) :
    readHeaders { c with response := text } =
      if (firstEnd (crlf ++ crlf) text).isSome then
        { c with phase := .readContent, response := [], res := text.drop (headLength r) }
      else
        { c with phase := .readHeaders, response := text } := by
  rw [readHeaders]
  refine if_ctx_congr Iff.rfl (fun hfound => ?_) fun _ => rfl
  exact handleReadHeaders_eq (c := { c with response := text }) h (headLength_le h hfound) hres

/-- A part of an answer with the first line. -/
theorem prefix_split {r : HttpResponse} {w : Bytes} (h : w <+: r.render)
    (hlen : ¬ w.length < (r.statusLine ++ crlf).length) :
    w = r.statusLine ++ crlf ++ w.drop (r.statusLine ++ crlf).length ∧
      w.drop (r.statusLine ++ crlf).length <+: r.afterStatusLine := by
  have hline : r.statusLine ++ crlf <+: w :=
    List.prefix_of_prefix_length_le (List.prefix_append _ _) h (by omega)
  obtain ⟨text, rfl⟩ := hline
  rw [List.drop_left]
  exact ⟨rfl, (List.prefix_append_right_inj _).mp h⟩

/-- **One more read**: where the answer has been cut makes no difference. The state is a function of
the part of the answer that has arrived, and a read adds its chunk to that part. -/
theorem step_received {c : HttpClient α} {r : HttpResponse} {w chunk : Bytes} (hchunk : chunk ≠ [])
    (h : w ++ chunk <+: r.render) (hres : c.res = []) :
    step (reading c r w) (.received chunk) = some (reading c r (w ++ chunk)) := by
  obtain ⟨q, hq⟩ := h
  have hend := r.firstEnd_render
  rw [← hq] at hend
  have hpart := firstEnd_of_append hend
  by_cases hw : w.length < (r.statusLine ++ crlf).length
  · -- the first line is being read
    have hstep : step (reading c r w) (.received chunk) =
        some (readStatusLine { c with phase := .readStatusLine, response := w ++ chunk }) := by
      rw [reading_of_lt c hw, step, if_neg hchunk]
    rw [hstep, readStatusLine, hpart]
    by_cases hnew : (w ++ chunk).length < (r.statusLine ++ crlf).length
    · rw [if_neg (not_le.mpr hnew), reading_of_lt c hnew]
      rfl
    · obtain ⟨hsplit, htext⟩ := prefix_split ⟨q, hq⟩ hnew
      rw [if_pos (not_lt.mp hnew), Option.isSome_some, if_pos rfl, reading_of_not_lt c hnew rfl,
        handleReadStatusLine_eq r _ _ hsplit]
      exact congrArg some (readHeaders_eq { c with phase := .readStatusLine } htext hres)
  · have hnew : ¬ (w ++ chunk).length < (r.statusLine ++ crlf).length := by
      rw [List.length_append]
      omega
    obtain ⟨-, htext⟩ := prefix_split ⟨q, hq⟩ hnew
    have hdrop : (w ++ chunk).drop (r.statusLine ++ crlf).length =
        w.drop (r.statusLine ++ crlf).length ++ chunk :=
      List.drop_append_of_le_length (not_lt.mp hw)
    rw [hdrop] at htext
    rw [reading_of_not_lt c hw rfl, reading_of_not_lt c hnew hdrop]
    generalize w.drop (r.statusLine ++ crlf).length = text at htext
    cases hfound : firstEnd (crlf ++ crlf) text with
    | some n =>
        -- the content is being read
        have hle := headLength_le ((List.prefix_append _ chunk).trans htext) (by simp [hfound])
        rw [firstEnd_append_of_some hfound, List.drop_append_of_le_length hle]
        simp only [Option.isSome_some, if_true, step, if_neg hchunk, List.nil_append,
          handleReadContent]
    | none =>
        -- the header lines are being read
        rw [Option.isSome_none, if_neg Bool.false_ne_true, step, if_neg hchunk]
        exact congrArg some (readHeaders_eq { c with phase := .readHeaders } htext hres)

/-- **The whole answer**, in any reads: the state of the client depends on the bytes that have come,
and not on how they were cut. -/
theorem run_received {c : HttpClient α} {r : HttpResponse} {chunks : List Bytes}
    (hchunks : ∀ chunk ∈ chunks, chunk ≠ []) {w : Bytes} (h : w ++ chunks.flatten <+: r.render)
    (hres : c.res = []) :
    run step (reading c r w) (chunks.map .received) =
      some (reading c r (w ++ chunks.flatten)) := by
  induction chunks generalizing w with
  | nil => simp
  | cons chunk chunks ih =>
      rw [List.flatten_cons, ← List.append_assoc] at h
      have hstep := step_received (hchunks chunk List.mem_cons_self)
        ((List.prefix_append _ _).trans h) hres
      rw [List.map_cons, run_cons, hstep, Option.bind_some,
        ih (fun x hx => hchunks x (List.mem_cons_of_mem chunk hx)) h, List.flatten_cons,
        List.append_assoc]

/-- **The end of the answer**: the callback gets the body if a blank line has been found. It is
looked for behind the status line only, and without it the end of the stream is the end of the
exchange. -/
theorem run_received_failed {c : HttpClient α} {r : HttpResponse} {chunks : List Bytes}
    (hchunks : ∀ chunk ∈ chunks, chunk ≠ []) (hflatten : chunks.flatten = r.render)
    (hres : c.res = []) :
    ∃ c', run step (reading c r []) (chunks.map .received ++ [.failed true]) = some c' ∧
      c'.attempted = c.attempted ∧ c'.written = c.written ∧
      c'.called = c.called ++
        if (firstEnd (crlf ++ crlf) r.afterStatusLine).isSome then [r.body] else [] := by
  have hrun := run_received hchunks (w := []) (by rw [hflatten, List.nil_append]) hres
  rw [hflatten, List.nil_append] at hrun
  have hlen : ¬ r.render.length < (r.statusLine ++ crlf).length := by
    rw [HttpResponse.render, List.length_append]
    omega
  have hdrop : r.render.drop (r.statusLine ++ crlf).length = r.afterStatusLine := List.drop_left
  have hbody : r.afterStatusLine.drop (headLength r) = r.body :=
    List.drop_left' (by rw [headLength, List.length_append]; rfl)
  rw [run_append_of_some hrun, reading_of_not_lt c hlen hdrop, hbody]
  split_ifs
  · exact ⟨_, rfl, rfl, rfl, rfl⟩
  · exact ⟨_, rfl, rfl, rfl, (List.append_nil _).symm⟩

/-- A blank line is found if there are header lines, or if the body makes one of its own. -/
theorem isSome_firstEnd_afterStatusLine (r : HttpResponse) :
    (firstEnd (crlf ++ crlf) r.afterStatusLine).isSome ↔
      r.headers ≠ [] ∨ crlf ++ crlf <:+: crlf ++ r.body := by
  by_cases hheaders : r.headers = []
  · rw [isSome_firstEnd_iff, HttpResponse.afterStatusLine, hheaders]
    simp [renderLines]
  · rw [HttpResponse.afterStatusLine, firstEnd_renderLines hheaders r.headers_legal]
    simp [hheaders]

/-! ### The whole exchange -/

/-- The endpoints that are tried: up to the first that accepts. -/
def tried : List (α × Bool) → List (α × Bool)
  | [] => []
  | x :: outcomes => x :: if x.2 then [] else tried outcomes

/-- **What happens**, when the host has these endpoints, of which some accept, and the answer
arrives in these reads. -/
def exchange (outcomes : List (α × Bool)) (chunks : List Bytes) : List (Event α) :=
  .resolved (some (outcomes.map Prod.fst)) :: (tried outcomes).map (fun x => .connected x.2) ++
    if outcomes.any Prod.snd then
      .written true :: chunks.map .received ++ [.failed true]
    else
      []

/-- **The body is delivered once**: the endpoints are tried in order until one accepts, this one
gets the request, and the callback is called with the body. -/
structure Delivers (request : Bytes) (outcomes : List (α × Bool)) (body : Bytes)
    (c : HttpClient α) : Prop where
  attempted : c.attempted = (tried outcomes).map Prod.fst
  written : c.written = if outcomes.any Prod.snd then [request] else []
  called : c.called = if outcomes.any Prod.snd then [body] else []

/-- What trying the endpoints leaves: the request has been written to one, or none has accepted. -/
structure Connected (c c' : HttpClient α) (outcomes : List (α × Bool)) : Prop where
  attempted : c'.attempted = c.attempted ++ (tried outcomes).map Prod.fst
  called : c'.called = c.called
  response : c'.response = c.response
  res : c'.res = c.res
  phase : c'.phase = if outcomes.any Prod.snd then .writeRequest else .done
  written : c'.written = c.written ++ if outcomes.any Prod.snd then [c.request] else []

/-- **The endpoints are tried** in order, up to the first one that takes the connection. The
behaviour is a function of the list of outcomes: those behind the first success are not tried. -/
theorem run_connected (c : HttpClient α) {outcomes : List (α × Bool)} (hne : outcomes ≠ []) :
    ∃ c₀ c', c.connect (outcomes.map Prod.fst) = some c₀ ∧
      run step c₀ ((tried outcomes).map fun x => .connected x.2) = some c' ∧
      Connected c c' outcomes := by
  induction outcomes generalizing c with
  | nil => exact absurd rfl hne
  | cons x outcomes ih =>
      obtain ⟨endpoint, ok⟩ := x
      cases ok with
      | true =>
          refine ⟨_, _, rfl, rfl, ⟨rfl, rfl, rfl, rfl, ?_, ?_⟩⟩
          · simp
          · simp
      | false =>
          cases outcomes with
          | nil =>
              refine ⟨_, _, rfl, rfl, ⟨rfl, rfl, rfl, rfl, rfl, ?_⟩⟩
              simp
          | cons y outcomes =>
              obtain ⟨c₁, c', hconnect, hrun, h⟩ := ih
                { c with
                  phase := .connect ((y :: outcomes).map Prod.fst)
                  attempted := c.attempted ++ [endpoint] } (by simp)
              have htried : tried ((endpoint, false) :: y :: outcomes) =
                  (endpoint, false) :: tried (y :: outcomes) := rfl
              have hany : ((endpoint, false) :: y :: outcomes).any Prod.snd =
                  (y :: outcomes).any Prod.snd := by simp
              refine ⟨_, c', rfl, ?_, ⟨?_, h.called, h.response, h.res, ?_, ?_⟩⟩
              · rw [htried]
                exact (congrArg (Option.bind · _) hconnect).trans hrun
              · rw [h.attempted, htried]
                simp
              · rw [hany]
                exact h.phase
              · rw [hany]
                exact h.written

/-- **When the callback gets the body**: always, if the answer has header lines. Without one, the
search for a blank line starts behind the only one there is, and the body has to make another. -/
theorem delivers_iff (server path : Bytes) {outcomes : List (α × Bool)} (hne : outcomes ≠ [])
    (r : HttpResponse) {chunks : List Bytes} (hchunks : ∀ chunk ∈ chunks, chunk ≠ [])
    (hflatten : chunks.flatten = r.render) :
    ∃ c, run step (create α server path) (exchange outcomes chunks) = some c ∧
      (Delivers (requestText server path) outcomes r.body c ↔
        (∀ x ∈ outcomes, x.2 = false) ∨ r.headers ≠ [] ∨ crlf ++ crlf <:+: crlf ++ r.body) := by
  obtain ⟨c₀, c₁, hconnect, hrun, h⟩ := run_connected (create α server path) hne
  have hstart : run step (create α server path)
      (.resolved (some (outcomes.map Prod.fst)) ::
        (tried outcomes).map (fun x => .connected x.2)) = some c₁ := by
    exact (congrArg (Option.bind · _) hconnect).trans hrun
  rw [exchange, run_append_of_some hstart]
  have hany : outcomes.any Prod.snd = false ↔ ∀ x ∈ outcomes, x.2 = false := by
    simp [List.any_eq_false]
  by_cases haccept : outcomes.any Prod.snd = true
  · have hphase : c₁.phase = .writeRequest := by rw [h.phase, if_pos haccept]
    have hwritten : step c₁ (.written true) = some (reading c₁ r []) := by
      have hresponse : c₁.response = [] := h.response
      have hlen : ([] : Bytes).length < (r.statusLine ++ crlf).length := by simp [crlf]
      have hnone : firstEnd crlf ([] : Bytes) = none := rfl
      rw [reading_of_lt c₁ hlen, step, hphase, ← hresponse]
      simp [readStatusLine, hresponse, hnone]
    obtain ⟨c, hrest, hattempted, hwrote, hcalled⟩ :=
      run_received_failed (c := c₁) hchunks hflatten (by rw [h.res]; rfl)
    refine ⟨c, ?_, ?_⟩
    · rw [if_pos haccept, List.cons_append, run_cons, hwritten]
      exact hrest
    · have hcall : c.called =
          if (firstEnd (crlf ++ crlf) r.afterStatusLine).isSome then [r.body] else [] := by
        rw [hcalled, h.called]
        rfl
      have hsome : ¬ ∀ x ∈ outcomes, x.2 = false := by
        rw [← hany, haccept]
        simp
      rw [or_iff_right hsome, ← isSome_firstEnd_afterStatusLine]
      constructor
      · intro hdelivers
        by_contra hnot
        have hbody := hdelivers.called
        rw [hcall, if_neg hnot, if_pos haccept] at hbody
        exact absurd hbody (by simp)
      · intro hfound
        refine ⟨hattempted.trans h.attempted, ?_, ?_⟩
        · rw [hwrote, h.written]
          rfl
        · rw [hcall, if_pos hfound, if_pos haccept]
  · refine ⟨c₁, by rw [if_neg haccept]; rfl, iff_of_true ?_ (Or.inl ?_)⟩
    · refine ⟨h.attempted, ?_, ?_⟩
      · rw [h.written, if_neg haccept, if_neg haccept]
        rfl
      · rw [h.called, if_neg haccept]
        rfl
    · exact hany.mp (by simpa using haccept)

/-- An answer with the header lines `headers` and the body `hello`. -/
def helloResponse (headers : List Bytes) (h : ∀ l ∈ headers, IsLine l) : HttpResponse where
  version := ascii "1.1"
  reason := some (ascii "OK")
  headers := headers
  body := ascii "hello"
  version_legal := by
    simpa using List.all_eq_true.mp (show (ascii "1.1").all (fun a => !isSpace a) from rfl)
  reason_legal := by decide
  headers_legal := h

/-- One with a header line, of which the first endpoint knows nothing. -/
def typedResponse : HttpResponse :=
  helloResponse [ascii "Content-Type: text/plain"] (by simp [IsLine]; decide)

/-- A response with a header line comes back at the second endpoint, after the first one has
refused. -/
theorem delivers_iff_typedResponse :
    ∃ c, run step (create ℕ (ascii "tmi.twitch.tv") (ascii "/"))
        (exchange [(0, false), (1, true)] [typedResponse.render]) = some c ∧
      (Delivers (requestText (ascii "tmi.twitch.tv") (ascii "/")) [(0, false), (1, true)]
          typedResponse.body c ↔
        (∀ x ∈ [(0, false), (1, true)], x.2 = false) ∨ typedResponse.headers ≠ [] ∨
          crlf ++ crlf <:+: crlf ++ typedResponse.body) :=
  delivers_iff (ascii "tmi.twitch.tv") (ascii "/") (by simp) typedResponse (by decide) (by simp)

/-- **Without a header line the body does not arrive**: the callback is not called. The status line
is followed by a blank line at once; its two bytes, behind those that end the status line, are not
the four for which the client waits. -/
theorem not_delivers_helloResponse :
    ∃ c, run step (create ℕ (ascii "tmi.twitch.tv") (ascii "/"))
        (exchange [(0, true)] [(helloResponse [] (by simp)).render]) = some c ∧
      c.called = [] ∧
      ¬ Delivers (requestText (ascii "tmi.twitch.tv") (ascii "/")) [(0, true)]
        (helloResponse [] (by simp)).body c := by
  have hcalled : (run step (create ℕ (ascii "tmi.twitch.tv") (ascii "/"))
      (exchange [(0, true)] [(helloResponse [] (by simp)).render])).map (·.called) = some [] := by
    decide +kernel
  obtain ⟨c, hrun, hc⟩ := Option.map_eq_some_iff.mp hcalled
  refine ⟨c, hrun, hc, fun hdelivers => ?_⟩
  have hbody := hdelivers.called
  rw [hc] at hbody
  exact absurd hbody (by simp)

end HttpClient

end BoostIrc
