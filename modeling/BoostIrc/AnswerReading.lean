import BoostIrc.HttpClient
import BoostIrc.WebSession

/-!
# The Answers of the Web Server at a Client

What `http_client` makes of the answers of the web server. One with a file is an answer with the
code 200 and a header line, and its body is the file. At any other the client gives up when it has
read the first line, and does not call the callback. An answer that is empty ends before the first
line.

## Main results

* `HttpClient.step_received_bad`: a part of an answer without a file.
* `HttpClient.Hears.step`: **what one event makes of a client** that reads an answer.
-/

open Delimiter FileTree Transition

namespace BoostIrc

universe u

/-! ### The answers -/

namespace Bot

variable {fs : FileSystem} {fuel : ℕ} {requestPath content : Bytes}

/-- The content of the file that is opened for a path. -/
def file (fs : FileSystem) (fuel : ℕ) (requestPath : Bytes) : Option Bytes :=
  (defaultResource fs fuel requestPath).bind fun reply =>
    reply.opened.bind fun path => fs.read (names path)

/-- Where there is a file, the answer is its header and the file. -/
theorem answer_of_file (h : file fs fuel requestPath = some content) :
    answer fs fuel requestPath = FileResponse.okHeader content.length ++ content := by
  obtain ⟨reply, hreply, hopened⟩ := Option.bind_eq_some_iff.mp h
  obtain ⟨path, hpath, hread⟩ := Option.bind_eq_some_iff.mp hopened
  obtain ⟨content', hread', rfl⟩ := eq_okReply_of_opened hreply hpath
  obtain rfl := Option.some.inj (hread.symm.trans hread')
  rw [answer, hreply]
  rfl

/-- Without a file the request was a bad one, or there is no answer. -/
theorem answer_of_no_file (h : file fs fuel requestPath = none) :
    answer fs fuel requestPath = [] ∨
      answer fs fuel requestPath = (badRequestReply requestPath).text := by
  cases hreply : defaultResource fs fuel requestPath with
  | none => exact .inl (by rw [answer, hreply]; rfl)
  | some reply =>
      have hclosed : reply.opened = none := by
        cases hopened : reply.opened with
        | none => rfl
        | some path =>
            obtain ⟨content, hread, -⟩ := eq_okReply_of_opened hreply hopened
            simp [file, hreply, hopened, hread] at h
      rw [answer, hreply, Option.elim_some]
      rw [defaultResource] at hreply
      obtain ⟨root, -, hreply⟩ := Option.bind_eq_some_iff.mp hreply
      obtain ⟨there, -, hreply⟩ := Option.bind_eq_some_iff.mp hreply
      split_ifs at hreply
      · obtain ⟨path, -, hreply⟩ := Option.bind_eq_some_iff.mp hreply
        split_ifs at hreply
        · obtain ⟨file, -, rfl⟩ := Option.map_eq_some_iff.mp hreply
          cases file with
          | none => exact .inr rfl
          | some x => exact absurd hclosed (by simp [okReply])
        · exact .inr (by rw [← Option.some.inj hreply])
      · exact .inr (by rw [← Option.some.inj hreply])

end Bot

namespace HttpResponse

/-- There is no space in the version of a request. -/
theorem isSpace_version {b : Byte} (h : b ∈ ascii "1.1") : ¬ isSpace b := by
  have hall : (ascii "1.1").all (fun b => !isSpace b) = true := rfl
  simpa using List.all_eq_true.mp hall b h

theorem lf_notMem_reason : ∀ t ∈ some (ascii "OK"), LF ∉ t := by decide

/-- The header field with the length is a line, as it has no line feed. -/
theorem isLine_contentLength (n : ℕ) :
    IsLine (ascii "Content-Length: " ++ ascii (toString n)) := by
  refine ⟨by simp [ascii], fun hlf => ?_⟩
  rcases List.mem_append.mp hlf with hlf | hlf
  · exact absurd hlf (by decide)
  · exact absurd ((FileResponse.writes_toString n).isDigit LF hlf) (by decide)

/-- The answer with a file, as a client sees it. -/
def ofFile (content : Bytes) : HttpResponse where
  version := ascii "1.1"
  reason := some (ascii "OK")
  headers := [ascii "Content-Length: " ++ ascii (toString content.length)]
  body := content
  version_legal _ := isSpace_version
  reason_legal := lf_notMem_reason
  headers_legal := List.forall_mem_singleton.mpr (isLine_contentLength _)

/-- The answer with a file is a response as the client expects it. -/
theorem render_ofFile (content : Bytes) :
    (ofFile content).render = FileResponse.okHeader content.length ++ content := by
  have hfirst : ascii "HTTP/1.1 200 OK\r\nContent-Length: " =
      ascii "HTTP/" ++ ascii "1.1" ++ ascii " 200" ++ (SP :: ascii "OK") ++ crlf ++
        ascii "Content-Length: " := rfl
  have hblank : ascii "\r\n\r\n" = crlf ++ crlf := rfl
  rw [FileResponse.okHeader, hfirst, hblank]
  simp [render, statusLine, reasonPhrase, ofFile, afterStatusLine, renderLines]

end HttpResponse

/-! ### The client -/

namespace HttpClient

variable {α : Type u} {c : HttpClient α}

/-- The request has been written, and the status line is awaited. -/
theorem step_written (hphase : c.phase = .writeRequest) (hresponse : c.response = []) :
    step c (.written true) = some { c with phase := .readStatusLine } := by
  have hnone : firstEnd crlf ([] : Bytes) = none := rfl
  rw [step, hphase]
  simp [readStatusLine, hresponse, hnone]

/-- A code other than 200 ends the fetch, and the callback is not called. -/
theorem handleReadStatusLine_of_code {httpVersion : Bytes} {stream : IStream}
    (hversion : IStream.extractWord ⟨c.response, false, false⟩ [] = (httpVersion, stream))
    (hcode : stream.extractUnsigned.1 ≠ some 200) :
    ∃ response, c.handleReadStatusLine = { c with phase := .done, response } := by
  simp only [handleReadStatusLine, hversion]
  split_ifs
  · exact ⟨_, rfl⟩
  · exact ⟨_, rfl⟩

/-- The first line of the answer without a file. -/
def badStatusLine : Bytes :=
  ascii "HTTP/1.1 400 Bad Request"

theorem lf_notMem_badStatusLine : LF ∉ badStatusLine := by decide

/-- There is no space in the name and version of the protocol. -/
theorem isSpace_http {b : Byte} (h : b ∈ ascii "HTTP/1.1") : ¬ isSpace b := by
  have hall : (ascii "HTTP/1.1").all (fun b => !isSpace b) = true := rfl
  simpa using List.all_eq_true.mp hall b h

/-- The client gives up when it has read the first line. -/
theorem handleReadStatusLine_bad {rest : Bytes}
    (hresponse : c.response = badStatusLine ++ crlf ++ rest) :
    ∃ response, c.handleReadStatusLine = { c with phase := .done, response } := by
  have hsplit : c.response =
      ascii "HTTP/1.1" ++ SP :: (ascii "400" ++ SP :: (ascii "Bad Request" ++ crlf ++ rest)) := by
    rw [hresponse, show badStatusLine =
      ascii "HTTP/1.1" ++ SP :: (ascii "400" ++ SP :: ascii "Bad Request") from rfl]
    simp only [List.append_assoc, List.cons_append]
  have hword := IStream.extractWord_append (w := ascii "HTTP/1.1") (b := SP)
    (List.cons_ne_nil _ _) (fun _ => isSpace_http) (by decide)
    (ascii "400" ++ SP :: (ascii "Bad Request" ++ crlf ++ rest)) []
  rw [← hsplit] at hword
  refine handleReadStatusLine_of_code hword ?_
  generalize ascii "Bad Request" ++ crlf ++ rest = text
  have htext : (SP :: (ascii "400" ++ SP :: text)).dropWhile isSpace =
      0x34 :: 0x30 :: 0x30 :: SP :: text := rfl
  have hsign : takeSign (0x34 :: 0x30 :: 0x30 :: SP :: text) =
      (false, 0x34 :: 0x30 :: 0x30 :: SP :: text) := rfl
  have hdigits : leadingDigits (0x34 :: 0x30 :: 0x30 :: SP :: text) = [0x34, 0x30, 0x30] := rfl
  have hcode : decimal [0x34, 0x30, 0x30] = 400 := by decide
  simp [IStream.extractUnsigned, htext, hsign, hdigits, hcode]

/-- With the end of a line, the first line of such an answer is there. -/
theorem exists_badStatusLine {text w : Bytes}
    (htext : text = [] ∨ ∃ rest, text = badStatusLine ++ crlf ++ rest) (h : w <+: text)
    (hfound : (firstEnd crlf w).isSome) : ∃ rest, w = badStatusLine ++ crlf ++ rest := by
  rcases htext with rfl | ⟨rest, rfl⟩
  · rw [List.prefix_nil.mp h] at hfound
    exact absurd hfound (by decide)
  · obtain ⟨q, hq⟩ := h
    have hend := firstEnd_crlf lf_notMem_badStatusLine rest
    rw [← hq] at hend
    rw [firstEnd_of_append hend] at hfound
    have hle : badStatusLine.length + 2 ≤ w.length := by
      by_contra hlt
      rw [if_neg hlt] at hfound
      exact absurd hfound (by simp)
    have hline : badStatusLine ++ crlf <+: w :=
      List.prefix_of_prefix_length_le (List.prefix_append _ rest) ⟨q, hq⟩
        (by rw [List.length_append]; exact hle)
    obtain ⟨rest', rfl⟩ := hline
    exact ⟨rest', rfl⟩

/-- **What a client makes of a part of an answer without a file**: it waits for the first line, and
gives up when it is there. -/
theorem step_received_bad {text w chunk : Bytes}
    (htext : text = [] ∨ ∃ rest, text = badStatusLine ++ crlf ++ rest)
    (hphase : c.phase = .readStatusLine) (hresponse : c.response = w) (hchunk : chunk ≠ [])
    (h : w ++ chunk <+: text) :
    step c (.received chunk) = some { c with response := w ++ chunk } ∨
      ∃ response, step c (.received chunk) = some { c with phase := .done, response } := by
  have hstep : step c (.received chunk) =
      some (readStatusLine { c with response := w ++ chunk }) := by
    simp only [step, if_neg hchunk, hphase, hresponse]
  rw [hstep, readStatusLine]
  split_ifs with hfound
  · obtain ⟨rest, hrest⟩ := exists_badStatusLine htext h hfound
    obtain ⟨response, hdone⟩ :=
      handleReadStatusLine_bad (c := { c with response := w ++ chunk }) hrest
    exact .inr ⟨response, by rw [hdone]⟩
  · left
    rw [← hphase]

/-- The event is an error for which the client gives up. -/
def GivesUp (c : HttpClient α) : Event α → Prop
  | .resolved result => result = none
  | .connected ok => ok = false ∧ c.phase = .connect []
  | .written ok => ok = false
  | .received _ => False
  | .failed eof => eof = false

/-- What the event brings. -/
def Event.bytes : Event α → Bytes
  | .received chunk => chunk
  | _ => []

/-- The client reads, and has called nobody. -/
theorem reading_fields (c : HttpClient α) (r : HttpResponse) (w : Bytes) :
    (reading c r w).called = c.called ∧
      ((reading c r w).phase = .readStatusLine ∨ (reading c r w).phase = .readHeaders ∨
        (reading c r w).phase = .readContent) := by
  by_cases hlen : w.length < (r.statusLine ++ crlf).length
  · rw [reading_of_lt c hlen]
    exact ⟨rfl, .inl rfl⟩
  · rw [reading_of_not_lt c hlen rfl]
    split_ifs
    · exact ⟨rfl, .inr (.inr rfl)⟩
    · exact ⟨rfl, .inr (.inl rfl)⟩

/-- The whole answer with a file has been read. -/
theorem reading_ofFile (c : HttpClient α) (content : Bytes) :
    reading c (.ofFile content) (HttpResponse.ofFile content).render =
      { c with phase := .readContent, response := [], res := content } := by
  have hlen : ¬ (HttpResponse.ofFile content).render.length <
      ((HttpResponse.ofFile content).statusLine ++ crlf).length := by
    rw [HttpResponse.render, List.length_append]
    omega
  have hfound : (firstEnd (crlf ++ crlf) (HttpResponse.ofFile content).afterStatusLine).isSome :=
    (isSome_firstEnd_afterStatusLine _).mpr (.inl (List.cons_ne_nil _ _))
  have hbody : (HttpResponse.ofFile content).afterStatusLine.drop (headLength (.ofFile content)) =
      content :=
    List.drop_left' (by rw [headLength, List.length_append]; rfl)
  rw [reading_of_not_lt c hlen List.drop_left, if_pos hfound, hbody]

variable {fs : FileSystem} {fuel : ℕ} {path w : Bytes} {c' : HttpClient α} {e : Event α}

/-- **What the client has made of the part `w` of an answer**: it is still writing its request; or
it reads the answer with a file; or it waits for the first line of one without a file; or it is
done, and the callback has got the file, if there is one. -/
inductive Hears (fs : FileSystem) (fuel : ℕ) (path : Bytes) (c : HttpClient α) (w : Bytes) : Prop
  | writing (hphase : c.phase = .writeRequest) (hw : w = []) (hresponse : c.response = [])
      (hres : c.res = []) (hcalled : c.called = [])
  | file (content : Bytes) (c₀ : HttpClient α) (hfile : Bot.file fs fuel path = some content)
      (hc : c = reading c₀ (.ofFile content) w) (hres : c₀.res = []) (hcalled : c₀.called = [])
  | noFile (hfile : Bot.file fs fuel path = none) (hphase : c.phase = .readStatusLine)
      (hresponse : c.response = w) (hcalled : c.called = [])
  | finished (hphase : c.phase = .done) (hcalled : c.called = (Bot.file fs fuel path).toList)

/-- A client that has been accepted connects no more. -/
theorem Hears.step_connected (h : Hears fs fuel path c w) (ok : Bool) :
    HttpClient.step c (.connected ok) = none := by
  cases h with
  | writing hphase => simp [HttpClient.step, hphase]
  | file content c₀ hfile hc =>
      obtain ⟨-, hphase⟩ := reading_fields c₀ (.ofFile content) w
      rw [← hc] at hphase
      rcases hphase with hphase | hphase | hphase <;> simp [HttpClient.step, hphase]
  | noFile hfile hphase => simp [HttpClient.step, hphase]
  | finished hphase => simp [HttpClient.step, hphase]

/-- The request has been written, and nothing has been read. -/
theorem Hears.written (hphase : c.phase = .readStatusLine) (hresponse : c.response = [])
    (hres : c.res = []) (hcalled : c.called = []) : Hears fs fuel path c [] := by
  cases hfile : Bot.file fs fuel path with
  | none => exact .noFile hfile hphase hresponse hcalled
  | some content =>
      refine .file content c hfile ?_ hres hcalled
      have hlen : ([] : Bytes).length < ((HttpResponse.ofFile content).statusLine ++ crlf).length :=
        by simp [crlf]
      rw [reading_of_lt c hlen, ← hphase, ← hresponse]

/-- A client that reads gets bytes, or the end of them. -/
theorem received_or_failed_of_step
    (hphase : c.phase = .readStatusLine ∨ c.phase = .readHeaders ∨ c.phase = .readContent)
    (hs : HttpClient.step c e = some c') :
    (∃ chunk, e = .received chunk ∧ chunk ≠ []) ∨ ∃ eof, e = .failed eof := by
  cases e with
  | received chunk =>
      refine .inl ⟨chunk, rfl, ?_⟩
      rintro rfl
      simp [HttpClient.step] at hs
  | failed eof => exact .inr ⟨eof, rfl⟩
  | resolved result => rcases hphase with h | h | h <;> simp [HttpClient.step, h] at hs
  | connected ok => rcases hphase with h | h | h <;> simp [HttpClient.step, h] at hs
  | written ok => rcases hphase with h | h | h <;> simp [HttpClient.step, h] at hs

/-- A read that fails ends the fetch, and what has been called stays so. -/
theorem eq_of_lost
    (hphase : c.phase = .readStatusLine ∨ c.phase = .readHeaders ∨ c.phase = .readContent)
    (hs : HttpClient.step c (.failed false) = some c') :
    c'.phase = .done ∧ c'.called = c.called := by
  rcases hphase with h | h | h
  · simp only [HttpClient.step, h, Option.some.injEq] at hs
    subst hs
    exact ⟨rfl, rfl⟩
  · simp only [HttpClient.step, h, Option.some.injEq] at hs
    subst hs
    exact ⟨rfl, rfl⟩
  · simp only [HttpClient.step, h, Option.some.injEq] at hs
    subst hs
    exact ⟨rfl, by simp⟩

/-- **One event at the client's end**: it makes the client give up, or all is well. The bytes that
come with the event have to be the next ones of the answer, and the stream may end only behind it; a
client that gives up is done and has called nobody. -/
theorem Hears.step (h : Hears fs fuel path c w) (hs : HttpClient.step c e = some c')
    (hreceived : w ++ e.bytes <+: Bot.answer fs fuel path)
    (hend : e = .failed true → w = Bot.answer fs fuel path) :
    c.GivesUp e ∧ c'.phase = .done ∧ c'.called = [] ∨ Hears fs fuel path c' (w ++ e.bytes) := by
  cases h with
  | writing hphase hw hresponse hres hcalled =>
      subst hw
      cases e with
      | resolved result => simp [HttpClient.step, hphase] at hs
      | connected ok => simp [HttpClient.step, hphase] at hs
      | received chunk => simp [HttpClient.step, hphase] at hs
      | failed eof => simp [HttpClient.step, hphase] at hs
      | written ok =>
          cases ok with
          | false =>
              simp only [HttpClient.step, hphase, Bool.false_eq_true, if_false] at hs
              obtain rfl := Option.some.inj hs
              exact .inl ⟨rfl, rfl, hcalled⟩
          | true =>
              rw [step_written hphase hresponse] at hs
              obtain rfl := Option.some.inj hs
              exact .inr (.written rfl hresponse hres hcalled)
  | file content c₀ hfile hc hres hcalled =>
      obtain ⟨hsame, hphase⟩ := reading_fields c₀ (.ofFile content) w
      have hanswer := Bot.answer_of_file hfile
      rw [← HttpResponse.render_ofFile] at hanswer
      rw [hanswer] at hreceived hend
      subst hc
      rcases received_or_failed_of_step hphase hs with ⟨chunk, rfl, hchunk⟩ | ⟨eof, rfl⟩
      · rw [step_received hchunk hreceived hres] at hs
        obtain rfl := Option.some.inj hs
        exact .inr (.file content c₀ hfile rfl hres hcalled)
      · cases eof with
        | false =>
            obtain ⟨hdone, hcalled'⟩ := eq_of_lost hphase hs
            exact .inl ⟨rfl, hdone, by rw [hcalled', hsame, hcalled]⟩
        | true =>
            rw [hend rfl, reading_ofFile] at hs
            obtain rfl := Option.some.inj hs
            exact .inr (.finished rfl (by rw [hfile, hcalled]; rfl))
  | noFile hfile hphase hresponse hcalled =>
      have hbad : Bot.answer fs fuel path = [] ∨
          ∃ rest, Bot.answer fs fuel path = badStatusLine ++ crlf ++ rest := by
        refine (Bot.answer_of_no_file hfile).imp_right fun hanswer => ?_
        have hfirst : ascii "HTTP/1.1 400 Bad Request\r\nContent-Length: " =
            badStatusLine ++ crlf ++ ascii "Content-Length: " := rfl
        rw [hanswer, Bot.badRequestReply, hfirst]
        simp only [List.append_assoc]
        exact ⟨_, rfl⟩
      rcases received_or_failed_of_step (.inl hphase) hs with ⟨chunk, rfl, hchunk⟩ | ⟨eof, rfl⟩
      · rcases step_received_bad hbad hphase hresponse hchunk hreceived with hmore | ⟨_, hdone⟩
        · rw [hmore] at hs
          obtain rfl := Option.some.inj hs
          exact .inr (.noFile hfile hphase rfl hcalled)
        · rw [hdone] at hs
          obtain rfl := Option.some.inj hs
          exact .inr (.finished rfl (by rw [hfile]; exact hcalled))
      · cases eof with
        | false =>
            obtain ⟨hdone, hcalled'⟩ := eq_of_lost (.inl hphase) hs
            exact .inl ⟨rfl, hdone, by rw [hcalled', hcalled]⟩
        | true =>
            simp only [HttpClient.step, hphase] at hs
            obtain rfl := Option.some.inj hs
            exact .inr (.finished rfl (by rw [hfile]; exact hcalled))
  | finished hphase hcalled => cases e <;> simp [HttpClient.step, hphase] at hs

end HttpClient

end BoostIrc
