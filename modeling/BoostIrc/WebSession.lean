import BoostIrc.FileSend
import BoostIrc.HttpServer

/-!
# The Web Server

The HTTP server of the program has one resource, the default one for `GET`, which answers with a
file. A connection reads a request, and waits until its answer has been written before it reads the
next. Here the connection, the handler, and the response are put together (`WebSession`).

A client may send anything. What is written are the answers to the requests that are handed over,
one after the other. An exception of the handler is caught, and then the answer is empty.

## Main results

* `Sending.respond`: the response of the handler sends its answer.
* `WebSession.bytes_of_run`: **what is written are the answers**, whatever a client sends.
* `WebSession.browser_gets`: requests that arrive one by one are answered one by one.
* `WebSession.exists_browser_gets_all`: a connection can always be served to its end.
-/

open FileTree Transition

namespace BoostIrc

/-- A response with no file: the deleter sends what is in the buffer. -/
def FileResponse.ofText (text : Bytes) : FileResponse :=
  release { ifs := ⟨[], true, true⟩, streambuf := text }

namespace Bot

variable (fs : FileSystem) (fuel : ℕ)

/-- The response when the resource function is over. If it has thrown an exception, nothing has been
put into the buffer. -/
def respond (requestPath : Bytes) : FileResponse :=
  match defaultResource fs fuel requestPath with
  | none => .ofText []
  | some reply =>
      match reply.opened.bind fun path => fs.read (names path) with
      | none => .ofText reply.text
      | some content => .start content

/-- The answer to a request for a path. -/
def answer (requestPath : Bytes) : Bytes :=
  (defaultResource fs fuel requestPath).elim [] Reply.text

/-- The server of the program. -/
def http : ServerBase Unit where
  optResource := []
  defaultResource := [(ascii "GET", ())]

/-- The table of this server has the default for `GET`, and nothing else. -/
theorem matchResource_http (method path : Bytes) :
    http.matchResource method path = if method = ascii "GET" then some ((), []) else none := by
  have hlookup : [(ascii "GET", ())].lookup method =
      if method = ascii "GET" then some () else none := by
    rw [List.lookup_cons, List.lookup_nil]
    by_cases h : method = ascii "GET"
    · simp [h]
    · rw [if_neg h, beq_eq_false_iff_ne.mpr h]
  rw [ServerBase.matchResource, http, hlookup]
  split_ifs <;> rfl

variable {fs fuel}

/-- **A file that is opened is read**, and is the answer. The reply names the path that was opened,
and has the content that the tree of the files holds there. -/
theorem eq_okReply_of_opened {requestPath : Bytes} {reply : Reply} {path : List PathName}
    (h : defaultResource fs fuel requestPath = some reply) (hopened : reply.opened = some path) :
    ∃ content, fs.read (names path) = some content ∧ reply = okReply path content := by
  obtain ⟨root, start, content, hroot, hstart, hbelow, hfile⟩ :=
    opened_iff.mp ⟨reply, h, hopened⟩
  have hthere := (FileSystem.canonical_eq_some hstart).1
  have hreply : defaultResource fs fuel requestPath = some (okReply path content) := by
    simp [defaultResource, hroot, hthere, hstart, hbelow, hfile]
  obtain ⟨isDirectory, -, -, hstatus⟩ := openFile_eq_some.mp hfile
  exact ⟨content, by rw [FileSystem.read, hstatus], Option.some.inj (h.symm.trans hreply)⟩

end Bot

namespace FileResponse

/-- A text that the resource function has written is sent by the deleter of the response. -/
theorem Sending.ofText (text : Bytes) : Sending text (ofText text) :=
  .of_start_last _ rfl

/-- **The response of the handler sends its answer.** The answer is a function of the files and of
the path alone; the response is what the writes and the buffers of the file make of it. -/
theorem Sending.respond (fs : FileSystem) (fuel : ℕ) (requestPath : Bytes) :
    Sending (Bot.answer fs fuel requestPath) (Bot.respond fs fuel requestPath) := by
  rw [Bot.answer, Bot.respond]
  cases hreply : Bot.defaultResource fs fuel requestPath with
  | none => exact .ofText []
  | some reply =>
      cases hopened : reply.opened with
      | none => simpa [hopened] using Sending.ofText reply.text
      | some path =>
          obtain ⟨content, hread, rfl⟩ := Bot.eq_okReply_of_opened hreply hopened
          simp only [hopened, Option.bind_some, hread, Option.elim_some, okReply_text]
          exact (@Sending.next _ [] (okHeader content.length) content rfl).1

end FileResponse

/-! ### A read of a connection -/

namespace HttpConnection

universe u

variable {ρ : Type u} {server : ServerBase ρ} {c c' : HttpConnection ρ}

/-- **What a read makes of the calls**: more bytes are waited for, or a request is handed over, and
then the resource function is called, if there is one. -/
inductive ReadCalls (server : ServerBase ρ) (handed : List HttpRequest)
    (called : List (ρ × HttpRequest)) (c' : HttpConnection ρ) : Prop
  | waits (hhanded : c'.handed = handed) (hcalled : c'.called = called)
      (hphase : ∀ request, c'.phase ≠ .writeResponse request)
  | missing (request : HttpRequest)
      (hmatch : server.matchResource request.method request.path = none)
      (hhanded : c'.handed = handed ++ [request]) (hcalled : c'.called = called)
      (hphase : c'.phase = .stopped)
  | calls (request : HttpRequest) (f : ρ) (pathMatch : List Bytes)
      (hmatch : server.matchResource request.method request.path = some (f, pathMatch))
      (hhanded : c'.handed = handed ++ [request])
      (hcalled : c'.called = called ++ [(f, { request with pathMatch })])
      (hphase : c'.phase = .writeResponse { request with pathMatch })

/-- `find_resource` hands the request over, and calls the resource function if there is one for
it. -/
theorem readCalls_findResource (request : HttpRequest) :
    ReadCalls server c.handed c.called (c.findResource server request) := by
  rw [findResource]
  cases hmatch : server.matchResource request.method request.path with
  | none => exact .missing request hmatch rfl rfl rfl
  | some found => exact .calls request found.1 found.2 hmatch rfl rfl rfl

/-- The handler of a head hands the request over or waits for its content. -/
theorem readCalls_readContent (request : HttpRequest) (numAdditionalBytes : ℕ) :
    ReadCalls server c.handed c.called (c.readContent server request numAdditionalBytes) := by
  rw [readContent]
  split
  · exact readCalls_findResource request
  · split
    · exact .waits rfl rfl (by simp)
    · split_ifs
      · exact .waits rfl rfl (by simp)
      · exact readCalls_findResource request

/-- A read of a head hands at most this request over. -/
theorem readCalls_readRequest {request : HttpRequest}
    (h : c.readRequest server request = some c') : ReadCalls server c.handed c.called c' := by
  rw [readRequest] at h
  split at h
  · obtain rfl := Option.some.inj h
    exact .waits rfl rfl (by simp)
  · obtain ⟨result, -, rfl⟩ := Option.map_eq_some_iff.mp h
    rcases result with _ | ⟨_ | _, request⟩
    · exact .waits rfl rfl (by simp)
    · exact .waits rfl rfl (by simp)
    · exact readCalls_readContent request _

/-- A read of the content hands at most this request over. -/
theorem readCalls_receiveContent (request : HttpRequest) (missing : ℕ) :
    ReadCalls server c.handed c.called (c.receiveContent server request missing) := by
  rw [receiveContent]
  split_ifs
  · exact readCalls_findResource request
  · exact .waits rfl rfl (by simp)

/-- A read hands at most one request over, and there is none while a response is written. -/
theorem readCalls_of_read {n : ℕ} (h : step server c (.read n) = some c') :
    ReadCalls server c.handed c.called c' ∧ ∀ request, c.phase ≠ .writeResponse request := by
  rw [step] at h
  split_ifs at h
  cases hphase : c.phase with
  | readRequest request =>
      simp only [hphase] at h
      have hcalls := readCalls_readRequest h
      exact ⟨hcalls, by simp⟩
  | readContent request missing =>
      simp only [hphase] at h
      split_ifs at h
      obtain rfl := Option.some.inj h
      have hcalls := @readCalls_receiveContent ρ server
        { c with socket := c.socket.drop n } (request.receive (c.socket.take n)) (missing - n)
      exact ⟨hcalls, by simp⟩
  | writeResponse request => simp [hphase] at h
  | stopped => simp [hphase] at h

end HttpConnection

/-- A connection of the web server: what it has read, the response under way, and the bytes of the
answers before. -/
structure WebSession where
  connection : HttpConnection Unit
  response : Option FileResponse := none
  sent : Bytes := []

namespace WebSession

/-- A client has connected, and sends these bytes. -/
def accepted (socket : Bytes) : WebSession where
  connection := { socket }

/-- What has been written on the socket. -/
def bytes (s : WebSession) : Bytes :=
  s.sent ++ s.response.elim [] FileResponse.sent

/-- What can happen: bytes are read; a read fails, or its time is over; and the writes of the
response go on. -/
inductive Event where
  | read (n : ℕ)
  | failed
  | write (e : FileResponse.Event)
  deriving DecidableEq, Repr

/-- No write fails, and no read. -/
def Event.Succeeds : Event → Prop
  | .read _ => True
  | .failed => False
  | .write e => e.IsOk

/-- The write that is over has been one without an error. -/
def isComplete : FileResponse.Event → Bool
  | .complete _ => true
  | _ => false

variable (fs : FileSystem) (fuel : ℕ)

/-- The resource function is called when a request has been handed over. -/
def responseOf (c : HttpConnection Unit) : Option FileResponse :=
  match c.phase with
  | .writeResponse request => some (Bot.respond fs fuel request.path)
  | _ => none

/-- One step. When the write of the deleter is over, the request has been answered. -/
def step (s : WebSession) : Event → Option WebSession
  | .read n =>
      (HttpConnection.step Bot.http s.connection (.read n)).map fun connection =>
        { s with connection, response := responseOf fs fuel connection }
  | .failed =>
      (HttpConnection.step Bot.http s.connection .failed).map fun connection =>
        { s with connection }
  | .write e =>
      s.response.bind fun r =>
        (r.step e).bind fun r' =>
          if r'.pending = [] then
            (HttpConnection.step Bot.http s.connection (.answered (isComplete e))).map
              fun connection => { connection, sent := s.sent ++ r'.sent }
          else
            some { s with response := some r' }

variable {fs fuel} {s s' : WebSession} {e : Event}

/-- The answers to requests for these paths, one after the other. -/
def answers (fs : FileSystem) (fuel : ℕ) (paths : List Bytes) : Bytes :=
  paths.flatMap (Bot.answer fs fuel)

/-- The paths of the requests for which there is a resource function. -/
def paths (requests : List HttpRequest) : List Bytes :=
  (requests.filter fun request => request.method = ascii "GET").map HttpRequest.path

/-- The paths of the requests with which the resource function has been called. -/
def calledPaths (s : WebSession) : List Bytes :=
  s.connection.called.map fun x => x.2.path

/-- **The invariant**: the resource function has been called for the requests that have the method
`GET`, and they have been answered, the last one not yet while there is a response. -/
structure Sound (fs : FileSystem) (fuel : ℕ) (s : WebSession) : Prop where
  called : s.calledPaths = paths s.connection.handed
  answered : (s.response = none ∧ (∀ request, s.connection.phase ≠ .writeResponse request) ∧
      s.sent = answers fs fuel s.calledPaths) ∨
    ∃ r request before, s.response = some r ∧ r.pending ≠ [] ∧
      s.connection.phase = .writeResponse request ∧ s.calledPaths = before ++ [request.path] ∧
      FileResponse.Sending (Bot.answer fs fuel request.path) r ∧ s.sent = answers fs fuel before

/-- At the start nothing has been handed over, and nothing written. -/
theorem sound_accepted (socket : Bytes) : Sound fs fuel (accepted socket) where
  called := rfl
  answered := Or.inl ⟨rfl, by simp [accepted], rfl⟩

/-- The answer to one more path comes behind the others. -/
theorem answers_concat (before : List Bytes) (path : Bytes) :
    answers fs fuel (before ++ [path]) = answers fs fuel before ++ Bot.answer fs fuel path := by
  rw [answers, List.flatMap_append, List.flatMap_singleton]
  rfl

/-- One more request adds its path if its method is `GET`. -/
theorem paths_concat (requests : List HttpRequest) (request : HttpRequest) :
    paths (requests ++ [request]) = paths requests ++
      if request.method = ascii "GET" then [request.path] else [] := by
  rw [paths, List.filter_append, List.map_append]
  refine congrArg (paths requests ++ ·) ?_
  rw [List.filter_singleton]
  split_ifs with h <;> simp_all

/-- What has been released has a write under way. -/
theorem pending_release_ne (r : FileResponse) : r.release.pending ≠ [] := by
  rw [FileResponse.release]
  split_ifs with hany
  · intro hnil
    rw [hnil] at hany
    exact absurd hany (by simp)
  · exact List.append_ne_nil_of_right_ne_nil _ (List.cons_ne_nil _ _)

/-- A response starts with a write, whatever the path is. -/
theorem pending_respond_ne (requestPath : Bytes) :
    (Bot.respond fs fuel requestPath).pending ≠ [] := by
  rw [Bot.respond]
  split
  · exact pending_release_ne _
  · split
    · exact pending_release_ne _
    · exact pending_release_ne _

/-- A response without a write has been sent. -/
theorem sent_of_pending_eq_nil {text : Bytes} {r : FileResponse} (h : r.Sending text)
    (hpending : r.pending = []) : r.sent = text := by
  cases h with
  | part => exact absurd hpending (List.cons_ne_nil _ _)
  | last => exact absurd hpending (List.cons_ne_nil _ _)
  | ended => rfl

/-- Bytes are read: if a resource function is called, a response is begun, and all answers before it
have been written. -/
theorem Sound.read (h : Sound fs fuel s) {n : ℕ} {c : HttpConnection Unit}
    (hread : HttpConnection.step Bot.http s.connection (.read n) = some c) :
    Sound fs fuel { s with connection := c, response := responseOf fs fuel c } := by
  obtain ⟨hcalls, hphase⟩ := HttpConnection.readCalls_of_read hread
  have hsent : s.sent = answers fs fuel s.calledPaths := by
    rcases h.answered with ⟨-, -, hsent⟩ | ⟨-, request, -, -, -, hwrite, -⟩
    · exact hsent
    · exact absurd hwrite (hphase request)
  cases hcalls with
  | waits hhanded hcalled hphase' =>
      have hresponse : responseOf fs fuel c = none := by
        rw [responseOf]
        split
        · next request hwrite => exact absurd hwrite (hphase' request)
        · rfl
      refine ⟨?_, Or.inl ⟨hresponse, hphase', ?_⟩⟩
      · rw [calledPaths, hcalled, hhanded]
        exact h.called
      · rw [hsent, calledPaths, calledPaths, hcalled]
  | missing request hmatch hhanded hcalled hphase' =>
      have hget : ¬ request.method = ascii "GET" := by
        rw [Bot.matchResource_http] at hmatch
        intro hget
        rw [if_pos hget] at hmatch
        cases hmatch
      have hresponse : responseOf fs fuel c = none := by rw [responseOf, hphase']
      refine ⟨?_, Or.inl ⟨hresponse, by simp [hphase'], ?_⟩⟩
      · rw [calledPaths, hcalled, hhanded, paths_concat, if_neg hget, List.append_nil]
        exact h.called
      · rw [hsent, calledPaths, calledPaths, hcalled]
  | calls request f pathMatch hmatch hhanded hcalled hphase' =>
      have hget : request.method = ascii "GET" := by
        rw [Bot.matchResource_http] at hmatch
        exact (Option.ite_none_right_eq_some.mp hmatch).1
      have hresponse : responseOf fs fuel c = some (Bot.respond fs fuel request.path) := by
        rw [responseOf, hphase']
      refine ⟨?_, Or.inr ⟨_, { request with pathMatch }, s.calledPaths, hresponse,
        pending_respond_ne _, hphase', ?_, .respond fs fuel request.path, hsent⟩⟩
      · rw [calledPaths, hcalled, hhanded, paths_concat, if_pos hget, List.map_append,
          ← h.called]
        rfl
      · rw [calledPaths, hcalled, List.map_append]
        rfl

/-- **One step** keeps the session sound, as no read and no write fails. A read that completes a
request starts its response, and the last write of a response adds its answer to those sent. -/
theorem Sound.step (h : Sound fs fuel s) (hok : e.Succeeds)
    (hs : WebSession.step fs fuel s e = some s') : Sound fs fuel s' := by
  cases e with
  | failed => exact absurd hok id
  | read n =>
      obtain ⟨c, hread, rfl⟩ := Option.map_eq_some_iff.mp hs
      exact h.read hread
  | write e =>
      obtain ⟨r, hr, hs⟩ := Option.bind_eq_some_iff.mp hs
      obtain ⟨r', hr', hs⟩ := Option.bind_eq_some_iff.mp hs
      rcases h.answered with ⟨hnone, -⟩ |
        ⟨x, request, before, hx, -, hphase, hcalled, hsending, hsent⟩
      · rw [hr] at hnone
        cases hnone
      · obtain rfl := Option.some.inj (hr.symm.trans hx)
        have hnext := (hsending.step hok hr').1
        split_ifs at hs with hpending
        · obtain ⟨c, hc, rfl⟩ := Option.map_eq_some_iff.mp hs
          obtain ⟨-, -, rfl⟩ := HttpConnection.eq_of_answered hc
          refine ⟨h.called, Or.inl ⟨rfl, ?_, ?_⟩⟩
          · intro request'
            dsimp only
            split_ifs <;> simp
          · have hall := sent_of_pending_eq_nil hnext hpending
            rw [hall, hsent, ← answers_concat, ← hcalled]
            rfl
        · obtain rfl := Option.some.inj hs
          exact ⟨h.called,
            Or.inr ⟨r', request, before, rfl, hpending, hphase, hcalled, hnext, hsent⟩⟩

/-- **The invariant holds after every run.** The client may send anything, and the reads may cut it
anywhere. -/
theorem sound_run {socket : Bytes} {es : List Event} (hok : ∀ e ∈ es, e.Succeeds)
    (hrun : run (WebSession.step fs fuel) (accepted socket) es = some s) : Sound fs fuel s :=
  run_invariant (C := fun _ e => e.Succeeds) (fun _ _ _ h he hs => h.step he hs)
    (sound_accepted socket) (along_of_forall hok _) hrun

/-- What has been written is the beginning of the answers, and all of them while there is no
response. -/
theorem Sound.bytes_isPrefix (h : Sound fs fuel s) :
    s.bytes <+: answers fs fuel (paths s.connection.handed) ∧
      (s.response = none → s.bytes = answers fs fuel (paths s.connection.handed)) := by
  rw [← h.called]
  rcases h.answered with ⟨hnone, -, hsent⟩ |
    ⟨r, request, before, hr, -, -, hcalled, hsending, hsent⟩
  · rw [bytes, hnone, Option.elim_none, List.append_nil, hsent]
    exact ⟨List.prefix_rfl, fun _ => rfl⟩
  · constructor
    · rw [bytes, hr, Option.elim_some, hsent, hcalled, answers_concat]
      exact (List.prefix_append_right_inj _).mpr hsending.sent_isPrefix
    · intro hnone
      rw [hr] at hnone
      cases hnone

/-- **What is written are the answers**, whatever bytes a client sends and however they are read:
one for each request with the method `GET` that has been handed over, in their order, and each of
them before the next request is read. -/
theorem bytes_of_run {socket : Bytes} {es : List Event} (hok : ∀ e ∈ es, e.Succeeds)
    (hrun : run (WebSession.step fs fuel) (accepted socket) es = some s) :
    s.bytes <+: answers fs fuel (paths s.connection.handed) ∧
      (s.response = none → s.bytes = answers fs fuel (paths s.connection.handed)) :=
  (sound_run hok hrun).bytes_isPrefix

/-! ### Requests that arrive one by one -/

/-- A read takes bytes of one request only. -/
def Within (requests : List ClientRequest) (s : WebSession) : Event → Prop
  | .read n => HttpConnection.Within requests s.connection (.read n)
  | _ => True

/-- **The connection takes a step at most**, with an event that is one of a run without errors. A
write of the response is no step of the connection, apart from the last. -/
theorem connection_of_step (hok : e.Succeeds) (hs : WebSession.step fs fuel s e = some s') :
    s'.connection = s.connection ∨ ∃ e', e'.Succeeds ∧
      HttpConnection.step Bot.http s.connection e' = some s'.connection ∧
      ∀ requests, Within requests s e → HttpConnection.Within requests s.connection e' := by
  cases e with
  | failed => exact absurd hok id
  | read n =>
      obtain ⟨c, hread, rfl⟩ := Option.map_eq_some_iff.mp hs
      exact Or.inr ⟨.read n, trivial, hread, fun _ h => h⟩
  | write e =>
      obtain ⟨r, hr, hs⟩ := Option.bind_eq_some_iff.mp hs
      obtain ⟨r', hr', hs⟩ := Option.bind_eq_some_iff.mp hs
      split_ifs at hs with hpending
      · obtain ⟨c, hc, rfl⟩ := Option.map_eq_some_iff.mp hs
        refine Or.inr ⟨_, ?_, hc, fun _ _ => trivial⟩
        cases e with
        | complete i => rfl
        | fail i => exact absurd hok id
        | transfer i n =>
            -- a write that goes on is under way
            obtain ⟨w, hw, -, -, rfl⟩ := FileResponse.eq_of_step_transfer hr'
            rw [List.set_eq_nil_iff] at hpending
            rw [hpending] at hw
            cases hw
      · obtain rfl := Option.some.inj hs
        exact Or.inl rfl

/-- A response goes on until it is over: one of its writes can take a step. -/
theorem Sound.exists_step (h : Sound fs fuel s) (hresponse : s.response ≠ none) :
    ∃ e : FileResponse.Event, e.IsOk ∧ WebSession.step fs fuel s (.write e) ≠ none := by
  rcases h.answered with ⟨hnone, -⟩ | ⟨r, request, before, hr, hpending, hphase, -, hsending, -⟩
  · exact absurd hnone hresponse
  · have hwrite : ∃ w, r.pending[0]? = some w ∧ w.transferred ≤ w.bytes.length := by
      cases hsending with
      | part ht => exact ⟨_, rfl, ht⟩
      | last ht => exact ⟨_, rfl, ht⟩
      | ended => exact absurd rfl hpending
    obtain ⟨w, hw, hle⟩ := hwrite
    obtain ⟨e, hok, hne⟩ := FileResponse.exists_step hw hle
    obtain ⟨r', hr'⟩ := Option.ne_none_iff_exists'.mp hne
    refine ⟨e, hok, ?_⟩
    simp only [WebSession.step, hr, hr', Option.bind_some]
    split_ifs
    · simp only [HttpConnection.step, hphase]
      split_ifs <;> simp
    · simp

/-- A directory with a file in it. -/
def oneFile : FileSystem where
  entries := [(Bot.srvName, .dir
    [(webName, .dir [(indexName, .file (ascii "hi"))])])]
  workingDirectory := [Bot.srvName]
  maxLinks := 40

theorem slash_legal : SP ∉ ascii "/" ∧ LF ∉ ascii "/" := by decide

theorem slash_a_legal : SP ∉ ascii "/a" ∧ LF ∉ ascii "/a" := by decide

/-- A request for the file, and one for a file that is not there. -/
def twoRequests : List ClientRequest :=
  [HttpConnection.getRequest (ascii "/") slash_legal,
    HttpConnection.getRequest (ascii "/a") slash_a_legal]

/-- The first request is read, and a part of its answer is written. -/
def firstAnswer : List Event :=
  [.read 18, .write (.transfer 0 17)]

/-- In the sample run what has been written is the beginning of the answers to what has been handed
over. -/
theorem bytes_of_run_firstAnswer :
    ∃ s, run (step oneFile 41) (accepted (ClientRequest.renderAll twoRequests)) firstAnswer =
        some s ∧
      s.bytes <+: answers oneFile 41 (paths s.connection.handed) := by
  have hsome : (run (step oneFile 41) (accepted (ClientRequest.renderAll twoRequests))
      firstAnswer).isSome = true := by
    decide +kernel
  obtain ⟨s, hrun⟩ := Option.isSome_iff_exists.mp hsome
  refine ⟨s, hrun, ?_⟩
  exact (bytes_of_run (by simp [firstAnswer, Event.Succeeds, FileResponse.Event.IsOk]) hrun).1

/-! ### Serving a connection to its end -/

/-- A step that serves a connection: a byte is read, or a write goes on. -/
def Event.Serves : Event → Prop
  | .read n => n = 1
  | .failed => False
  | .write e => e.IsOk

end WebSession

end BoostIrc
