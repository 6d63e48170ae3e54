import BoostIrc.RequestHead
import BoostIrc.Transition

/-!
# The HTTP Server

A connection of the server carries one request after the other. For each of them
`read_request_and_content` makes a `Request` with a buffer of its own, waits with
`async_read_until` for the blank line, and reads what is missing of the content. The resource
function answers, and when the answer has been written the next request is read.

`async_read_until` takes from the socket what a read yields, and this may be more than the request.
What is too much stays in the buffer of the request: it becomes a part of its content, and the
next request does not get it.

## Main results

* `HttpRequest.parseRequest_render`: what becomes of the head of a request.
* `HttpConnection.State.step`: what one read, or one answer, makes of a connection.
* `HttpConnection.framing_iff`: **when every request arrives as it was sent**.
* `HttpConnection.exists_run_to_idle`: a connection can always be served to its end.
-/

open Delimiter Transition

namespace BoostIrc

universe u

/-- A `Request`. Its stream `content` reads from its own buffer. The header is a multimap, kept in
the order of insertion. -/
structure HttpRequest where
  method : Bytes := []
  path : Bytes := []
  httpVersion : Bytes := []
  header : List (Bytes × Bytes) := []
  pathMatch : List Bytes := []
  content : IStream := ⟨[], false, false⟩
  deriving DecidableEq, Repr

namespace HttpRequest

/-- The first line, cut at its two spaces and at the slash behind them. It is refused, with the
method and the path already set, if there is no slash, or if what stands before the slash is not
`HTTP`. -/
def parseRequestLine (line : Bytes) (methodEnd pathEnd : ℕ) : Except Fault (Bool × HttpRequest) :=
  do
    let method ← substr line 0 methodEnd
    let path ← substr line (methodEnd + 1) ((pathEnd : ℤ) - methodEnd - 1)
    match find line 0x2F (pathEnd + 1) with
    | none => pure (false, { method, path })
    | some protocolEnd =>
        let protocol ← substr line (pathEnd + 1) ((protocolEnd : ℤ) - pathEnd - 1)
        if protocol ≠ ascii "HTTP" then
          pure (false, { method, path })
        else
          let httpVersion ← substr line (protocolEnd + 1) ((line.length : ℤ) - protocolEnd - 2)
          pure (true, { method, path, httpVersion })

/-- `parse_request`, on a request of which only the buffer is filled: what it returns, and the
request as it leaves it, whose `content` is the stream that it has read from. There is no result if
the loop over the header lines does not end. -/
def parseRequest (stream : IStream) : Option (Except Fault (Bool × HttpRequest)) :=
  let (line, stream) := stream.getline []
  match find line SP 0 with
  | none => some (.ok (false, { content := stream }))
  | some methodEnd =>
      match find line SP (methodEnd + 1) with
      | none => some (.ok (false, { content := stream }))
      | some pathEnd =>
          match parseRequestLine line methodEnd pathEnd with
          | .error e => some (.error e)
          | .ok (false, request) => some (.ok (false, { request with content := stream }))
          | .ok (true, request) =>
              (readFields (fun h name value => h ++ [(name, value)]) stream line
                request.header).map
                  (Except.map fun r => (true, { request with header := r.1, content := r.2 }))

/-- `header.find`: names that differ only in their case are the same. Which field of several of a
name is found is not specified; here it is the first. -/
def findHeader (request : HttpRequest) (name : Bytes) : Option Bytes :=
  (request.header.find? fun x => iequals x.1 name).map Prod.snd

/-- The connection is kept when the request has been answered. -/
def keepsAlive (request : HttpRequest) : Bool :=
  stofExceeds request.httpVersion &&
    !request.header.any fun x =>
      iequals x.1 (ascii "Connection") && iequals x.2 (ascii "close")

/-- Bytes that have arrived are appended to the buffer. -/
def receive (request : HttpRequest) (chunk : Bytes) : HttpRequest :=
  { request with content := { request.content with buffer := request.content.buffer ++ chunk } }

end HttpRequest

/-- The resources of a server: for a method the expressions of the paths, which return the
captures, with their resource functions; and for a method the default. -/
structure ServerBase (ρ : Type u) where
  optResource : List (Bytes × List ((Bytes → Option (List Bytes)) × ρ))
  defaultResource : List (Bytes × ρ)

/-- The search in `find_resource`: the resource function, and the captures of the path. -/
def ServerBase.matchResource {ρ : Type u} (server : ServerBase ρ) (method path : Bytes) :
    Option (ρ × List Bytes) :=
  let matched := server.optResource.findSome? fun res =>
    if method = res.1 then
      res.2.findSome? fun resPath => (resPath.1 path).map fun m => (resPath.2, m)
    else
      none
  matched.or ((server.defaultResource.lookup method).map fun f => (f, []))

/-- What a connection waits for. -/
inductive HttpConnection.Phase where
  | readRequest (request : HttpRequest)
  | readContent (request : HttpRequest) (missing : ℕ)
  | writeResponse (request : HttpRequest)
  | stopped
  deriving DecidableEq, Repr

/-- The state of a connection. `socket` has what the client has sent and the server has not read,
`handed` the requests given to `find_resource`, and `called` the calls of resource functions. -/
structure HttpConnection (ρ : Type u) where
  socket : Bytes
  phase : HttpConnection.Phase := .readRequest {}
  handed : List HttpRequest := []
  called : List (ρ × HttpRequest) := []
  deriving DecidableEq, Repr

namespace HttpConnection

variable {ρ : Type u} (server : ServerBase ρ)

/-- `find_resource`, with the call of the resource function in `write_response`. -/
def findResource (c : HttpConnection ρ) (request : HttpRequest) : HttpConnection ρ :=
  let c := { c with handed := c.handed ++ [request] }
  match server.matchResource request.method request.path with
  | none => { c with phase := .stopped }
  | some (f, pathMatch) =>
      let request := { request with pathMatch }
      { c with phase := .writeResponse request, called := c.called ++ [(f, request)] }

/-- What the handler of `async_read_until` does with a request that it has parsed. -/
def readContent (c : HttpConnection ρ) (request : HttpRequest) (numAdditionalBytes : ℕ) :
    HttpConnection ρ :=
  match request.findHeader (ascii "Content-Length") with
  | none => c.findResource server request
  | some value =>
      match stoull value with
      | .error _ => { c with phase := .stopped }
      | .ok contentLength =>
          if numAdditionalBytes < contentLength then
            { c with phase := .readContent request (contentLength - numAdditionalBytes) }
          else
            c.findResource server request

/-- The handler of `async_read_until`. An exception ends the program. -/
def handleRequest (c : HttpConnection ρ) (request : HttpRequest) (bytesTransferred : ℕ) :
    Option (HttpConnection ρ) :=
  let numAdditionalBytes := request.content.buffer.length - bytesTransferred
  (HttpRequest.parseRequest request.content).map fun
    | .error _ => { c with phase := .stopped }
    | .ok (false, _) => { c with phase := .stopped }
    | .ok (true, request) => c.readContent server request numAdditionalBytes

/-- `async_read_until` the blank line. -/
def readRequest (c : HttpConnection ρ) (request : HttpRequest) : Option (HttpConnection ρ) :=
  match firstEnd (crlf ++ crlf) request.content.buffer with
  | none => some { c with phase := .readRequest request }
  | some bytesTransferred => c.handleRequest server request bytesTransferred

/-- The part of the content that is missing is read with `transfer_exactly`. -/
def receiveContent (c : HttpConnection ρ) (request : HttpRequest) (missing : ℕ) :
    HttpConnection ρ :=
  if missing = 0 then
    c.findResource server request
  else
    { c with phase := .readContent request missing }

/-- What can happen: bytes are read from the socket, as many as there are at most, and as
are asked for; a read fails, or its time is over; and the resource function has answered, where the
answer has been written, or not. -/
inductive Event where
  | read (n : ℕ)
  | failed
  | answered (ok : Bool)
  deriving DecidableEq, Repr

/-- One step. -/
def step (c : HttpConnection ρ) : Event → Option (HttpConnection ρ)
  | .read n =>
      if n = 0 ∨ c.socket.length < n then
        none
      else
        let chunk := c.socket.take n
        let c := { c with socket := c.socket.drop n }
        match c.phase with
        | .readRequest request => c.readRequest server (request.receive chunk)
        | .readContent request missing =>
            if missing < n then
              none
            else
              some (c.receiveContent server (request.receive chunk) (missing - n))
        | _ => none
  | .failed =>
      match c.phase with
      | .readRequest _ => some { c with phase := .stopped }
      | .readContent _ _ => some { c with phase := .stopped }
      | _ => none
  | .answered ok =>
      match c.phase with
      | .writeResponse request =>
          if ok && request.keepsAlive then
            some { c with phase := .readRequest {} }
          else
            some { c with phase := .stopped }
      | _ => none

end HttpConnection

/-! ### The requests of clients -/

/-- A request that a client sends, with its body: the version is 1.1, no field asks for the
connection to be closed, and the length of the body is in the field `Content-Length`. Without such
a field there is no body. -/
structure ClientRequest where
  head : RequestHead
  body : Bytes
  version_eq : head.version = ascii "1.1"
  keepsAlive : ∀ f ∈ head.fields, f.lowerName = ascii "connection" →
    f.value.map toLower ≠ ascii "close"
  framed : ∀ f ∈ head.fields, f.lowerName = ascii "content-length" →
    f.value ≠ [] ∧ (∀ b ∈ f.value, isDigit b) ∧ decimal f.value = body.length
  body_eq_nil : (∀ f ∈ head.fields, f.lowerName ≠ ascii "content-length") → body = []

namespace ClientRequest

/-- The request as it is sent. -/
def render (r : ClientRequest) : Bytes :=
  r.head.render ++ r.body

/-- The requests, sent back to back. -/
def renderAll (requests : List ClientRequest) : Bytes :=
  requests.flatMap render

/-- The request as it should be handed over, with what its stream should hold. -/
def received (r : ClientRequest) (content : Bytes) : HttpRequest where
  method := r.head.method
  path := r.head.path
  httpVersion := r.head.version
  header := r.head.fields.map fun f => (f.name, f.value)
  content := ⟨content, false, false⟩

/-- The request as it should be handed over. -/
def sent (r : ClientRequest) : HttpRequest :=
  r.received r.body

end ClientRequest

/-! ### What is parsed of a head -/

namespace HttpRequest

/-- The slash of the first line is found behind `HTTP`. -/
theorem find_slash (h : RequestHead) :
    find (h.requestLine ++ [CR]) 0x2F (h.method.length + 1 + h.path.length + 1) =
      some (h.method.length + 1 + h.path.length + 5) := by
  have hrest : (h.requestLine ++ [CR]).drop (h.method.length + 1 + h.path.length + 1) =
      ascii "HTTP" ++ 0x2F :: (h.version ++ [CR]) := by
    rw [show h.requestLine ++ [CR] =
      (h.method ++ SP :: (h.path ++ [SP])) ++ (ascii "HTTP" ++ 0x2F :: (h.version ++ [CR])) by
        simp [RequestHead.requestLine, show ascii "HTTP/" = ascii "HTTP" ++ [0x2F] from rfl]]
    exact List.drop_left' (by simp; omega)
  rw [find_eq_some hrest (by decide), show (ascii "HTTP").length = 4 from rfl]

/-- The first line of a head that was written as it should be is cut into its parts. -/
theorem parseRequestLine_requestLine (h : RequestHead) :
    parseRequestLine (h.requestLine ++ [CR]) h.method.length
        (h.method.length + 1 + h.path.length) =
      .ok (true, { method := h.method, path := h.path, httpVersion := h.version }) := by
  have hprotocol : substr (h.requestLine ++ [CR]) (h.method.length + 1 + h.path.length + 1)
      (((h.method.length + 1 + h.path.length + 5 : ℕ) : ℤ) -
        (h.method.length + 1 + h.path.length : ℕ) - 1) = .ok (ascii "HTTP") :=
    substr_append (u := h.method ++ SP :: (h.path ++ [SP])) (w := 0x2F :: (h.version ++ [CR]))
      (by simp [RequestHead.requestLine, show ascii "HTTP/" = ascii "HTTP" ++ [0x2F] from rfl])
      (by simp; omega) (by rw [show (ascii "HTTP").length = 4 from rfl]; omega)
  have hversion : substr (h.requestLine ++ [CR]) (h.method.length + 1 + h.path.length + 5 + 1)
      (((h.requestLine ++ [CR]).length : ℤ) -
        (h.method.length + 1 + h.path.length + 5 : ℕ) - 2) = .ok h.version :=
    h.substr_version (by rw [h.length_requestLine]; omega)
  simp only [parseRequestLine, h.substr_method, h.substr_path, find_slash]
  dsimp only [bind, Except.bind]
  rw [hprotocol, hversion]
  rfl

/-- Every field is put into the multimap, behind those that came before. -/
theorem foldl_insert (fields : List Field) (header : List (Bytes × Bytes)) :
    fields.foldl (fun h f => h ++ [(f.name, f.value)]) header =
      header ++ fields.map fun f => (f.name, f.value) := by
  induction fields generalizing header with
  | nil => simp
  | cons f fields ih => simp [ih]

/-- **What becomes of the head of a request**: its parts, and all its fields. What has arrived
behind it is left in the stream. -/
theorem parseRequest_render (h : RequestHead) (rest : Bytes) :
    parseRequest ⟨h.render ++ rest, false, false⟩ =
      some (.ok (true,
        { method := h.method
          path := h.path
          httpVersion := h.version
          header := h.fields.map fun f => (f.name, f.value)
          content := ⟨rest, false, false⟩ })) := by
  obtain ⟨hmethod, hpath⟩ := h.find_requestLine
  rw [parseRequest, h.getline_render]
  simp only [hmethod, hpath, parseRequestLine_requestLine, readFields_render, foldl_insert,
    List.nil_append]
  rfl

end HttpRequest

/-! ### The fields that matter -/

namespace ClientRequest

/-- Names are compared without their case. -/
theorem iequals_name (f : Field) (name : Bytes) :
    iequals f.name name = true ↔ f.lowerName = name.map toLower := by
  simp [iequals, Field.lowerName]

/-- The connection is kept for the next request. -/
theorem keepsAlive_received (r : ClientRequest) (content : Bytes) (pathMatch : List Bytes) :
    HttpRequest.keepsAlive { r.received content with pathMatch } = true := by
  have hversion : stofExceeds r.head.version = true := by
    rw [r.version_eq]
    decide
  have hclose : ∀ f ∈ r.head.fields,
      ¬ (iequals f.name (ascii "Connection") && iequals f.value (ascii "close")) = true := by
    intro f hf h
    obtain ⟨hname, hvalue⟩ := Bool.and_eq_true_iff.mp h
    have hclose : f.value.map toLower = (ascii "close").map toLower := by
      simpa [iequals] using hvalue
    exact r.keepsAlive f hf ((iequals_name f _).mp hname) hclose
  simpa [HttpRequest.keepsAlive, received, hversion] using hclose

/-- There is no field with a length, and no body, or the fields have the length of the body. -/
theorem findHeader_received (r : ClientRequest) (content : Bytes) :
    (r.received content).findHeader (ascii "Content-Length") = none ∧ r.body = [] ∨
      ∃ value, (r.received content).findHeader (ascii "Content-Length") = some value ∧
        stoull value = if r.body.length < 2 ^ 64 then .ok r.body.length
          else .error .outOfRange := by
  have hheader : (r.received content).findHeader (ascii "Content-Length") =
      (r.head.fields.find? fun f => iequals f.name (ascii "Content-Length")).map Field.value := by
    simp only [HttpRequest.findHeader, received, List.find?_map, Option.map_map]
    rfl
  rw [hheader]
  cases hfind : r.head.fields.find? fun f => iequals f.name (ascii "Content-Length") with
  | none =>
      left
      refine ⟨rfl, ?_⟩
      refine r.body_eq_nil fun f hf hname => ?_
      exact List.find?_eq_none.mp hfind f hf ((iequals_name f _).mpr hname)
  | some f =>
      right
      have hfound := List.find?_some hfind
      have hname : f.lowerName = ascii "content-length" := (iequals_name f _).mp hfound
      obtain ⟨hne, hdigits, hlength⟩ := r.framed f (List.mem_of_find?_eq_some hfind) hname
      refine ⟨f.value, rfl, ?_⟩
      rw [stoull_of_digits hne hdigits, hlength]

/-- The last ones of some requests have at most as many bytes as all of them. -/
theorem length_renderAll_le {requests requests' : List ClientRequest}
    (h : requests <:+ requests') : (renderAll requests).length ≤ (renderAll requests').length := by
  obtain ⟨before, rfl⟩ := h
  simp [renderAll]

/-- The bytes of some requests: the head of the first, its body, and the bytes of the others. -/
theorem renderAll_cons (r : ClientRequest) (later : List ClientRequest) :
    renderAll (r :: later) = r.head.render ++ (r.body ++ renderAll later) := by
  simp [renderAll, render]

/-- A head has at least its blank line. -/
theorem length_render_pos (r : ClientRequest) : 0 < r.head.render.length := by
  rw [RequestHead.render, List.length_append]
  exact Nat.add_pos_right _ (by decide)

end ClientRequest

/-- There is a resource for the request. -/
def ServerBase.Finds {ρ : Type u} (server : ServerBase ρ) (r : ClientRequest) : Prop :=
  (server.matchResource r.head.method r.head.path).isSome

namespace HttpConnection

open ClientRequest

variable {ρ : Type u} {server : ServerBase ρ} {c c' : HttpConnection ρ}
  {requests done later : List ClientRequest} {r : ClientRequest}

/-! ### One read -/

/-- While the head of a request has not come whole, the connection waits for its end, with all that
has come in the buffer of the request. -/
theorem readRequest_of_length_lt {p s : Bytes} (h : p ++ s = renderAll (r :: later))
    (hp : p.length < r.head.render.length) :
    c.readRequest server { content := ⟨p, false, false⟩ } =
      some { c with phase := .readRequest { content := ⟨p, false, false⟩ } } := by
  have hend := r.head.firstEnd_render (r.body ++ renderAll later)
  rw [← renderAll_cons, ← h] at hend
  have hnone : firstEnd (crlf ++ crlf) p = none := by
    rw [firstEnd_of_append hend, if_neg (by omega)]
  simp only [readRequest, hnone]

/-- With the whole head in the buffer, what there is behind it is left for the content. -/
theorem readRequest_append (extra : Bytes) :
    c.readRequest server { content := ⟨r.head.render ++ extra, false, false⟩ } =
      some (c.readContent server (r.received extra) extra.length) := by
  simp only [readRequest, r.head.firstEnd_render, handleRequest,
    HttpRequest.parseRequest_render, Option.map_some, List.length_append, Nat.add_sub_cancel_left]
  rfl

/-- What the handler does with the number of bytes behind the head. -/
theorem readContent_received (extra : Bytes) :
    c.readContent server (r.received extra) extra.length =
      if r.body.length < 2 ^ 64 then
        if extra.length < r.body.length then
          { c with phase := .readContent (r.received extra) (r.body.length - extra.length) }
        else
          c.findResource server (r.received extra)
      else
        { c with phase := .stopped } := by
  rcases r.findHeader_received extra with ⟨hnone, hbody⟩ | ⟨value, hvalue, hlength⟩
  · simp [readContent, hnone, hbody]
  · by_cases hshort : r.body.length < 2 ^ 64
    · rw [if_pos hshort] at hlength
      simp only [readContent, hvalue, hlength, if_pos hshort]
    · rw [if_neg hshort] at hlength
      simp only [readContent, hvalue, hlength, if_neg hshort]

/-- The handlers leave the socket alone, and what has been handed over stays so. -/
structure Extends (c c' : HttpConnection ρ) : Prop where
  socket : c'.socket = c.socket
  handed : c.handed <+: c'.handed

/-- `find_resource` hands the request over, and leaves the socket alone. -/
theorem extends_findResource (request : HttpRequest) :
    Extends c (c.findResource server request) := by
  rw [findResource]
  split <;> exact ⟨rfl, List.prefix_append _ _⟩

/-- The handler of a head hands the request over or waits for its content, and leaves the socket
alone. -/
theorem extends_readContent (request : HttpRequest) (numAdditionalBytes : ℕ) :
    Extends c (c.readContent server request numAdditionalBytes) := by
  rw [readContent]
  split
  · exact extends_findResource request
  · split
    · exact ⟨rfl, List.prefix_refl _⟩
    · split_ifs
      · exact ⟨rfl, List.prefix_refl _⟩
      · exact extends_findResource request

/-- A read of a head hands at most this request over, and takes nothing more from the socket. -/
theorem extends_readRequest {request : HttpRequest} (h : c.readRequest server request = some c') :
    Extends c c' := by
  rw [readRequest] at h
  split at h
  · obtain rfl := Option.some.inj h
    exact ⟨rfl, List.prefix_refl _⟩
  · obtain ⟨result, -, rfl⟩ := Option.map_eq_some_iff.mp h
    rcases result with _ | ⟨_ | _, request⟩
    · exact ⟨rfl, List.prefix_refl _⟩
    · exact ⟨rfl, List.prefix_refl _⟩
    · exact extends_readContent request _

/-- A read of the content hands at most this request over, and takes nothing more from the socket.
-/
theorem extends_receiveContent (request : HttpRequest) (missing : ℕ) :
    Extends c (c.receiveContent server request missing) := by
  rw [receiveContent]
  split_ifs
  · exact extends_findResource request
  · exact ⟨rfl, List.prefix_refl _⟩

/-- **What a read does to the connection**: it takes some bytes from the socket. A read can deliver
at least one byte and at most those that have arrived; the requests handed over before it stay
handed over. -/
theorem extends_of_read {n : ℕ} (h : step server c (.read n) = some c') :
    n ≠ 0 ∧ n ≤ c.socket.length ∧ Extends { c with socket := c.socket.drop n } c' := by
  rw [step] at h
  split_ifs at h with hn
  refine ⟨by omega, by omega, ?_⟩
  cases hphase : c.phase with
  | readRequest request =>
      simp only [hphase] at h
      exact extends_readRequest h
  | readContent request missing =>
      simp only [hphase] at h
      split_ifs at h
      obtain rfl := Option.some.inj h
      exact extends_receiveContent _ _
  | writeResponse request => simp [hphase] at h
  | stopped => simp [hphase] at h

/-- A read that fails ends the connection, and nothing more is handed over. -/
theorem eq_of_failed (h : step server c .failed = some c') : c' = { c with phase := .stopped } := by
  cases hphase : c.phase <;> simp [step, hphase] at h <;> exact h.symm

/-- An answer lets the connection read the next request, or ends it. -/
theorem eq_of_answered {ok : Bool} (h : step server c (.answered ok) = some c') :
    ∃ request, c.phase = .writeResponse request ∧
      c' = { c with phase := if ok && request.keepsAlive then .readRequest {} else .stopped } := by
  cases hphase : c.phase with
  | writeResponse request =>
      refine ⟨request, rfl, ?_⟩
      simp only [step, hphase] at h
      split_ifs at h ⊢ <;> exact (Option.some.inj h).symm
  | readRequest request => simp [step, hphase] at h
  | readContent request missing => simp [step, hphase] at h
  | stopped => simp [step, hphase] at h

/-- What has been handed over stays so. -/
theorem handed_of_step {e : Event} (h : step server c e = some c') : c.handed <+: c'.handed := by
  cases e with
  | read n => exact (extends_of_read h).2.2.handed
  | failed => rw [eq_of_failed h]
  | answered ok =>
      obtain ⟨request, -, rfl⟩ := eq_of_answered h
      exact List.prefix_refl _

/-- Nothing can happen on a connection that has ended. -/
theorem step_eq_none_of_stopped (h : c.phase = .stopped) (e : Event) : step server c e = none := by
  cases e <;> simp [step, h]

/-! ### Runs -/

/-- A client has connected, and sends these requests. -/
def accepted (ρ : Type u) (requests : List ClientRequest) : HttpConnection ρ where
  socket := renderAll requests

/-- Nothing fails, and every answer is written. -/
def Event.Succeeds : Event → Prop
  | .read _ => True
  | .failed => False
  | .answered ok => ok = true

/-- Nothing can happen any more. -/
def Idle (server : ServerBase ρ) (c : HttpConnection ρ) : Prop :=
  ∀ e : Event, e.Succeeds → step server c e = none

/-- A read takes bytes of one request only: if it begins before one of the later requests, it ends
before it, too. -/
def Within (requests : List ClientRequest) (c : HttpConnection ρ) : Event → Prop
  | .read n => ∀ later, later <:+ requests → (renderAll later).length < c.socket.length →
      (renderAll later).length + n ≤ c.socket.length
  | _ => True

/-- There is a resource for every request that another one follows, and the lengths of the bodies
are numbers of 64 bits. -/
structure ServesAll (server : ServerBase ρ) (requests : List ClientRequest) : Prop where
  finds : ∀ r ∈ requests.dropLast, server.Finds r
  short : ∀ r ∈ requests, r.body.length < 2 ^ 64

/-- The requests in `done` have been handed over as they were sent, and they have been answered, or
are being answered. -/
structure Answered (server : ServerBase ρ) (requests done rest : List ClientRequest)
    (c : HttpConnection ρ) : Prop where
  requests_eq : requests = done ++ rest
  finds : ∀ x ∈ done, server.Finds x
  short : ∀ x ∈ done, x.body.length < 2 ^ 64
  handed : c.handed = done.map sent

/-- All is well so far: the next request is on its way, and a part `p` of its head, or of its body,
is in the buffer; or a request is being answered; or the last one has no resource. -/
inductive At (server : ServerBase ρ) (requests : List ClientRequest) (c : HttpConnection ρ) : Prop
  | head (done rest : List ClientRequest) (p : Bytes) (hdone : Answered server requests done rest c)
      (hphase : c.phase = .readRequest { content := ⟨p, false, false⟩ })
      (hsocket : p ++ c.socket = renderAll rest)
      (hp : ∀ r ∈ rest.head?, p.length < r.head.render.length)
  | content (done later : List ClientRequest) (r : ClientRequest) (p q : Bytes)
      (hdone : Answered server requests done (r :: later) c) (hshort : r.body.length < 2 ^ 64)
      (hphase : c.phase = .readContent (r.received p) q.length)
      (hsocket : c.socket = q ++ renderAll later) (hbody : p ++ q = r.body) (hq : q ≠ [])
  | answering (done later : List ClientRequest) (r : ClientRequest) (pathMatch : List Bytes)
      (hdone : Answered server requests (done ++ [r]) later c)
      (hphase : c.phase = .writeResponse { r.sent with pathMatch })
      (hsocket : c.socket = renderAll later)
  | finished (hall : ServesAll server requests) (hphase : c.phase = .stopped)
      (hhanded : c.handed = requests.map sent)

/-- What has been handed over is not what was sent, or nothing more will be handed over. -/
def Failed (requests : List ClientRequest) (c : HttpConnection ρ) : Prop :=
  ¬ c.handed <+: requests.map sent ∨ c.phase = .stopped ∧ c.handed.length < requests.length

/-- **The invariant**, with whether every read so far was one within a request. -/
def Tracked (server : ServerBase ρ) (requests : List ClientRequest) (c : HttpConnection ρ)
    (P : Prop) : Prop :=
  P ∧ At server requests c ∨ Failed requests c ∧ ¬ (P ∧ ServesAll server requests)

/-- How far the requests have been answered is seen from what has been handed over alone. -/
theorem Answered.of_handed {rest : List ClientRequest} (h : Answered server requests done rest c)
    (hhanded : c'.handed = c.handed) : Answered server requests done rest c' :=
  ⟨h.requests_eq, h.finds, h.short, hhanded.trans h.handed⟩

/-- A request is handed over: with its body, or with more. -/
theorem tracked_findResource {content : Bytes} {P : Prop}
    (hdone : Answered server requests done (r :: later) c) (hshort : r.body.length < 2 ^ 64)
    (hP : P ↔ content = r.body) (hsocket : content = r.body → c.socket = renderAll later) :
    Tracked server requests (c.findResource server (r.received content)) P := by
  have hlog : (c.findResource server (r.received content)).handed =
      done.map sent ++ [r.received content] := by
    rw [← hdone.handed, findResource]
    split <;> rfl
  by_cases hcontent : content = r.body
  · subst hcontent
    have hlog' : (c.findResource server r.sent).handed = (done ++ [r]).map sent := by
      rw [List.map_append]
      exact hlog
    have hrequests : requests = (done ++ [r]) ++ later := by
      rw [hdone.requests_eq, List.append_assoc, List.singleton_append]
    have hshort' : ∀ x ∈ done ++ [r], x.body.length < 2 ^ 64 :=
      List.forall_mem_append.mpr ⟨hdone.short, List.forall_mem_singleton.mpr hshort⟩
    cases hmatch : server.matchResource r.head.method r.head.path with
    | some x =>
        left
        have hfinds : server.Finds r := by rw [ServerBase.Finds, hmatch, Option.isSome_some]
        have hfinds' : ∀ x ∈ done ++ [r], server.Finds x :=
          List.forall_mem_append.mpr ⟨hdone.finds, List.forall_mem_singleton.mpr hfinds⟩
        refine ⟨hP.mpr rfl, .answering done later r x.2 ⟨hrequests, hfinds', hshort', hlog'⟩ ?_ ?_⟩
        · simp [findResource, received, sent, hmatch]
        · simp [findResource, received, hmatch, hsocket]
    | none =>
        have hstopped : (c.findResource server r.sent).phase = .stopped := by
          simp [findResource, received, sent, hmatch]
        cases later with
        | nil =>
            left
            rw [List.append_nil] at hrequests
            refine ⟨hP.mpr rfl, .finished ⟨?_, ?_⟩ hstopped ?_⟩
            · rw [hrequests, List.dropLast_concat]
              exact hdone.finds
            · rwa [hrequests]
            · rw [hrequests]
              exact hlog'
        | cons r' later =>
            right
            refine ⟨Or.inr ⟨hstopped, ?_⟩, fun ⟨_, hall⟩ => ?_⟩
            · refine (congrArg List.length hlog').trans_lt ?_
              simp [hrequests]
            · have hr := hall.finds r (by simp [hrequests])
              simp [ServerBase.Finds, hmatch] at hr
  · right
    refine ⟨Or.inl fun hpart => hcontent ?_, fun ⟨h, _⟩ => hcontent (hP.mp h)⟩
    rw [hlog, hdone.requests_eq, List.map_append, List.prefix_append_right_inj] at hpart
    have hsent : r.received content = r.sent := (List.cons_prefix_cons.mp hpart).1
    exact congrArg (fun x => x.content.buffer) hsent

/-- The head has arrived, and some bytes behind it. -/
theorem tracked_readContent {extra : Bytes} {P : Prop}
    (hdone : Answered server requests done (r :: later) c)
    (hP : P ↔ extra.length ≤ r.body.length)
    (hsocket : extra ++ c.socket = r.body ++ renderAll later) :
    Tracked server requests (c.readContent server (r.received extra) extra.length) P := by
  rw [readContent_received]
  by_cases hr : r.body.length < 2 ^ 64
  · rw [if_pos hr]
    by_cases hlt : extra.length < r.body.length
    · -- a part of the body is missing
      rw [if_pos hlt]
      have hbody : extra <+: r.body :=
        List.prefix_of_prefix_length_le ⟨_, hsocket⟩ (List.prefix_append _ _) hlt.le
      obtain ⟨q, hq⟩ := hbody
      have hlength : extra.length + q.length = r.body.length := by
        rw [← List.length_append, hq]
      refine Or.inl
        ⟨hP.mpr hlt.le, .content done later r extra q (hdone.of_handed rfl) hr ?_ ?_ hq ?_⟩
      · simp only [← hlength, Nat.add_sub_cancel_left]
      · rw [← hq, List.append_assoc] at hsocket
        exact List.append_cancel_left hsocket
      · rintro rfl
        simp at hlength
        omega
    · rw [if_neg hlt]
      have hbody : r.body <+: extra :=
        List.prefix_of_prefix_length_le (List.prefix_append _ _) ⟨_, hsocket⟩ (not_lt.mp hlt)
      refine tracked_findResource hdone hr ?_ ?_
      · rw [hP]
        exact ⟨fun hle => (hbody.eq_of_length_le hle).symm, fun h => by rw [h]⟩
      · rintro rfl
        exact List.append_cancel_left hsocket
  · rw [if_neg hr]
    have hmem : r ∈ requests := by simp [hdone.requests_eq]
    refine Or.inr ⟨Or.inr ⟨rfl, ?_⟩, fun ⟨_, hall⟩ => hr (hall.short r hmem)⟩
    simp [hdone.handed, hdone.requests_eq]

/-- A read that begins in a request stays within it exactly if it takes no more than what is left
of it. -/
theorem within_read_iff {q : Bytes} {n : ℕ} (hrequests : requests = done ++ r :: later)
    (hsocket : c.socket = q ++ renderAll later) (hq : q ≠ [])
    (hle : q.length ≤ r.render.length) : Within requests c (.read n) ↔ n ≤ q.length := by
  have hpos : 0 < q.length := List.length_pos_iff.mpr hq
  have hlength : c.socket.length = q.length + (renderAll later).length := by
    rw [hsocket, List.length_append]
  constructor
  · intro h
    have hlater : later <:+ requests := by
      rw [hrequests]
      exact (List.suffix_cons r later).trans (List.suffix_append done _)
    have := h later hlater (by omega)
    omega
  · intro hn later' hlater' hlt
    have hall : (renderAll (r :: later)).length = r.render.length + (renderAll later).length := by
      simp [renderAll]
    have hinner : later' <:+ later := by
      have hr : r :: later <:+ requests := ⟨done, hrequests.symm⟩
      rcases List.suffix_or_suffix_of_suffix hlater' hr with h | h
      · rcases List.suffix_cons_iff.mp h with rfl | h
        · omega
        · exact h
      · have := length_renderAll_le h
        omega
    have := length_renderAll_le hinner
    omega

/-- **A read in the head of a request**: it ends in the head, in the body, or behind both, and only
in the last case can it have taken a part of the next request. -/
theorem tracked_readHead {p : Bytes} {n : ℕ}
    (hdone : Answered server requests done (r :: later) c)
    (hphase : c.phase = .readRequest { content := ⟨p, false, false⟩ })
    (hsocket : p ++ c.socket = renderAll (r :: later)) (hp : p.length < r.head.render.length)
    (hn : n ≠ 0 ∧ n ≤ c.socket.length) :
    ∃ c', step server c (.read n) = some c' ∧
      Tracked server requests c' (Within requests c (.read n)) := by
  have hstep : step server c (.read n) =
      readRequest server { c with socket := c.socket.drop n }
        { content := ⟨p ++ c.socket.take n, false, false⟩ } := by
    rw [step, if_neg (by omega)]
    simp only [hphase, HttpRequest.receive]
  have hsplit : p ++ c.socket.take n ++ c.socket.drop n = renderAll (r :: later) := by
    rw [List.append_assoc, List.take_append_drop, hsocket]
  have hlength : (p ++ c.socket.take n).length = p.length + n := by
    simp [hn.2]
  -- what is left of the request
  obtain ⟨q, hq⟩ : p <+: r.head.render := by
    refine List.prefix_of_prefix_length_le ⟨_, hsocket⟩ ?_ hp.le
    rw [renderAll_cons]
    exact List.prefix_append _ _
  have hrest : c.socket = q ++ r.body ++ renderAll later := by
    rw [renderAll_cons, ← hq, List.append_assoc] at hsocket
    rw [List.append_assoc]
    exact List.append_cancel_left hsocket
  have hqlength : p.length + q.length = r.head.render.length := by
    rw [← List.length_append, hq]
  have hwithin : Within requests c (.read n) ↔ n ≤ (q ++ r.body).length := by
    refine within_read_iff hdone.requests_eq hrest ?_ ?_
    · intro hnil
      simp at hnil
      simp [hnil.1] at hqlength
      omega
    · simp only [render, List.length_append]
      omega
  rw [hstep]
  by_cases hlt : p.length + n < r.head.render.length
  · rw [readRequest_of_length_lt hsplit (by omega)]
    refine ⟨_, rfl, Or.inl ⟨hwithin.mpr ?_, ?_⟩⟩
    · rw [List.length_append]
      omega
    · refine .head done (r :: later) (p ++ c.socket.take n) (hdone.of_handed rfl) rfl hsplit ?_
      simpa [hlength] using hlt
  · obtain ⟨extra, hextra⟩ : r.head.render <+: p ++ c.socket.take n := by
      refine List.prefix_of_prefix_length_le ?_ ⟨_, hsplit⟩ (by omega)
      rw [renderAll_cons]
      exact List.prefix_append _ _
    have hextraLength : r.head.render.length + extra.length = p.length + n := by
      rw [← List.length_append, hextra, hlength]
    rw [← hextra, readRequest_append]
    refine ⟨_, rfl, tracked_readContent (hdone.of_handed rfl) ?_ ?_⟩
    · rw [hwithin, List.length_append]
      omega
    · rw [← hextra, renderAll_cons, List.append_assoc] at hsplit
      exact List.append_cancel_left hsplit

/-- **A read in the body of a request**: it takes no more than what is missing of the body, so that
the next request is left in the socket. -/
theorem tracked_readBody {p q : Bytes} {n : ℕ}
    (hdone : Answered server requests done (r :: later) c) (hshort : r.body.length < 2 ^ 64)
    (hphase : c.phase = .readContent (r.received p) q.length)
    (hsocket : c.socket = q ++ renderAll later) (hbody : p ++ q = r.body) (hq : q ≠ [])
    (hn : n ≠ 0 ∧ n ≤ q.length) :
    ∃ c', step server c (.read n) = some c' ∧
      Tracked server requests c' (Within requests c (.read n)) := by
  have hlength : c.socket.length = q.length + (renderAll later).length := by
    rw [hsocket, List.length_append]
  have htake : c.socket.take n = q.take n := by
    rw [hsocket, List.take_append_of_le_length hn.2]
  have hdrop : c.socket.drop n = q.drop n ++ renderAll later := by
    rw [hsocket, List.drop_append_of_le_length hn.2]
  have hstep : step server c (.read n) =
      some (receiveContent server { c with socket := c.socket.drop n }
        (r.received (p ++ q.take n)) (q.length - n)) := by
    rw [step, if_neg (by omega)]
    simp only [hphase, if_neg (not_lt.mpr hn.2), HttpRequest.receive, htake]
    rfl
  have hcontent : p ++ q.take n ++ q.drop n = r.body := by
    rw [List.append_assoc, List.take_append_drop, hbody]
  have hwithin : Within requests c (.read n) := by
    refine (within_read_iff hdone.requests_eq hsocket hq ?_).mpr hn.2
    have := congrArg List.length hbody
    simp only [render, List.length_append] at this ⊢
    omega
  rw [hstep]
  refine ⟨_, rfl, ?_⟩
  by_cases hall : q.length - n = 0
  · have hnil : q.drop n = [] := List.drop_eq_nil_iff.mpr (by omega)
    rw [hnil, List.append_nil] at hcontent
    rw [receiveContent, if_pos hall]
    refine tracked_findResource (hdone.of_handed rfl) hshort (iff_of_true hwithin hcontent)
      fun _ => ?_
    simp only [hdrop, hnil, List.nil_append]
  · rw [receiveContent, if_neg hall]
    refine Or.inl ⟨hwithin, .content done later r (p ++ q.take n) (q.drop n)
      (hdone.of_handed rfl) hshort ?_ hdrop hcontent ?_⟩
    · rw [List.length_drop]
    · rw [ne_eq, List.drop_eq_nil_iff]
      omega

/-- **One step**, when all is well: the connection is at the next place, or has gone wrong exactly
if the read took a part of the next request. -/
theorem At.step {e : Event} (h : At server requests c) (he : e.Succeeds)
    (hs : step server c e = some c') : Tracked server requests c' (Within requests c e) := by
  cases e with
  | failed => exact he.elim
  | read n =>
      obtain ⟨hn, hle, -⟩ := extends_of_read hs
      cases h with
      | head done rest p hdone hphase hsocket hp =>
          cases rest with
          | nil =>
              have hnil : c.socket = [] := (List.append_eq_nil_iff.mp hsocket).2
              simp only [hnil, List.length_nil] at hle
              omega
          | cons r later =>
              obtain ⟨c₁, hs₁, ht⟩ := tracked_readHead hdone hphase hsocket (hp r rfl) ⟨hn, hle⟩
              obtain rfl := Option.some.inj (hs₁.symm.trans hs)
              exact ht
      | content done later r p q hdone hshort hphase hsocket hbody hq =>
          have hmissing : n ≤ q.length := by
            by_contra hlt
            simp [HttpConnection.step, hphase, not_le.mp hlt] at hs
          obtain ⟨c₁, hs₁, ht⟩ :=
            tracked_readBody hdone hshort hphase hsocket hbody hq ⟨hn, hmissing⟩
          obtain rfl := Option.some.inj (hs₁.symm.trans hs)
          exact ht
      | answering done later r pathMatch hdone hphase hsocket =>
          simp [HttpConnection.step, hphase] at hs
      | finished hall hphase hhanded =>
          rw [step_eq_none_of_stopped hphase] at hs
          cases hs
  | answered ok =>
      obtain rfl : ok = true := he
      obtain ⟨request, hwrite, rfl⟩ := eq_of_answered hs
      cases h with
      | answering done later r pathMatch hdone hphase hsocket =>
          obtain rfl : { r.sent with pathMatch } = request := by
            simpa [hphase] using hwrite
          have hkeeps : HttpRequest.keepsAlive { r.sent with pathMatch } = true :=
            r.keepsAlive_received r.body pathMatch
          refine Or.inl
            ⟨trivial, .head (done ++ [r]) later [] (hdone.of_handed rfl) ?_ hsocket ?_⟩
          · simp [hkeeps]
          · exact fun r _ => r.length_render_pos
      | head done rest p hdone hphase hsocket hp => simp [hphase] at hwrite
      | content done later r p q hdone hshort hphase hsocket hbody hq => simp [hphase] at hwrite
      | finished hall hphase hhanded => simp [hphase] at hwrite

/-- What went wrong stays wrong, whatever happens then. -/
theorem Failed.step {e : Event} (h : Failed requests c) (hs : step server c e = some c') :
    Failed requests c' := by
  rcases h with h | ⟨h, -⟩
  · exact Or.inl fun hpart => h ((handed_of_step hs).trans hpart)
  · rw [step_eq_none_of_stopped h] at hs
    cases hs

/-- **One step**, whether all has been well so far or not. All stays well as long as the reads are
within one request; from the first that is not on, what is handed over is not what was sent, or the
connection stops too early. -/
theorem Tracked.step {e : Event} {P : Prop} (h : Tracked server requests c P) (he : e.Succeeds)
    (hs : step server c e = some c') : Tracked server requests c' (P ∧ Within requests c e) := by
  rcases h with ⟨hP, h⟩ | ⟨h, hnot⟩
  · rcases h.step he hs with ⟨hC, h'⟩ | ⟨h', hnot⟩
    · exact Or.inl ⟨⟨hP, hC⟩, h'⟩
    · exact Or.inr ⟨h', fun ⟨hPC, hall⟩ => hnot ⟨hPC.2, hall⟩⟩
  · exact Or.inr ⟨h.step hs, fun ⟨hPC, hall⟩ => hnot ⟨hPC.1, hall⟩⟩

/-- At the start all is well, and the first request is awaited. -/
theorem tracked_accepted : Tracked server requests (accepted ρ requests) True := by
  refine Or.inl ⟨trivial, .head [] requests [] ⟨rfl, by simp, by simp, rfl⟩ rfl rfl ?_⟩
  exact fun r _ => r.length_render_pos

/-! ### What the invariant says -/

/-- In the end, when all is well, all requests have been handed over. -/
theorem At.of_idle (h : At server requests c) (hidle : Idle server c) :
    c.handed = requests.map sent ∧ ServesAll server requests := by
  cases h with
  | head done rest p hdone hphase hsocket hp =>
      cases rest with
      | nil =>
          obtain ⟨hrequests, hfinds, hshort, hhanded⟩ := hdone
          rw [List.append_nil] at hrequests
          subst hrequests
          exact ⟨hhanded, fun r hr => hfinds r (List.mem_of_mem_dropLast hr), hshort⟩
      | cons r later =>
          exfalso
          have hlength := congrArg List.length hsocket
          have hpr := hp r rfl
          simp only [renderAll_cons, List.length_append] at hlength
          obtain ⟨c', hs, -⟩ := tracked_readHead (n := 1) hdone hphase hsocket hpr
            ⟨by omega, by omega⟩
          rw [hidle (.read 1) trivial] at hs
          cases hs
  | content done later r p q hdone hshort hphase hsocket hbody hq =>
      exfalso
      have hpos : 0 < q.length := List.length_pos_iff.mpr hq
      obtain ⟨c', hs, -⟩ := tracked_readBody (n := 1) hdone hshort hphase hsocket hbody hq
        ⟨by omega, by omega⟩
      rw [hidle (.read 1) trivial] at hs
      cases hs
  | answering done later r pathMatch hdone hphase hsocket =>
      exfalso
      have hnone := hidle (.answered true) rfl
      simp only [HttpConnection.step, hphase] at hnone
      split_ifs at hnone
  | finished hall hphase hhanded => exact ⟨hhanded, hall⟩

/-- When something went wrong, what has been handed over is not what was sent. -/
theorem Failed.handed_ne (h : Failed requests c) : c.handed ≠ requests.map sent := by
  rintro heq
  rcases h with h | ⟨-, h⟩
  · exact h (by rw [heq])
  · simp [heq] at h

/-- **When every request arrives as it was sent**: for every list of requests, and every way in
which they are read and answered until nothing can happen any more. -/
theorem framing_iff (server : ServerBase ρ) (requests : List ClientRequest) {es : List Event}
    {c : HttpConnection ρ} (hes : ∀ e ∈ es, e.Succeeds)
    (hrun : run (step server) (accepted ρ requests) es = some c) (hidle : Idle server c) :
    c.handed = requests.map sent ↔
      Along (step server) (Within requests) (accepted ρ requests) es ∧
        ServesAll server requests := by
  have hinv := run_invariant_along (I := Tracked server requests) (C := Within requests)
    (fun c P e c' h he hs => h.step he hs) tracked_accepted (along_of_forall hes _) hrun
  rw [true_and] at hinv
  rcases hinv with ⟨hwithin, hat⟩ | ⟨hfailed, hnot⟩
  · obtain ⟨hhanded, hall⟩ := hat.of_idle hidle
    exact iff_of_true hhanded ⟨hwithin, hall⟩
  · exact iff_of_false hfailed.handed_ne hnot

/-- Every read takes bytes from the socket, and every answer is written once: a connection can
always be served to its end. -/
theorem exists_run_to_idle (server : ServerBase ρ) (c : HttpConnection ρ) :
    ∃ es c', run (step server) c es = some c' ∧ (∀ e ∈ es, e.Succeeds) ∧ Idle server c' := by
  refine Transition.exists_run_to_idle
    (fun c => 2 * c.socket.length + if c.phase matches .writeResponse _ then 1 else 0) ?_ c
  intro c e c' he hs
  cases e with
  | failed => exact he.elim
  | read n =>
      obtain ⟨hn, hle, hextends⟩ := extends_of_read hs
      have hlength : c'.socket.length = c.socket.length - n := by
        rw [hextends.socket, List.length_drop]
      simp only [hlength]
      split_ifs <;> omega
  | answered ok =>
      obtain ⟨request, hphase, rfl⟩ := eq_of_answered hs
      simp only [hphase]
      split_ifs <;> simp_all

/-- With nothing left to read, a connection that waits for a request waits for ever. -/
theorem idle_of_readRequest {request : HttpRequest} (hphase : c.phase = .readRequest request)
    (hsocket : c.socket = []) : Idle server c := by
  intro e he
  cases e with
  | read n =>
      rw [step, if_pos]
      simp only [hsocket, List.length_nil]
      omega
  | failed => exact he.elim
  | answered ok => simp [step, hphase]

/-- There is no line feed in the version of a request. -/
theorem lf_notMem_version : LF ∉ ascii "1.1" := by decide

/-- The method `GET` is a legal one. -/
theorem get_legal : SP ∉ ascii "GET" ∧ LF ∉ ascii "GET" := by decide

/-- A request without fields and without a body. -/
def getRequest (path : Bytes) (h : SP ∉ path ∧ LF ∉ path) : ClientRequest where
  head :=
    { method := ascii "GET"
      path := path
      version := ascii "1.1"
      fields := []
      method_legal := get_legal
      path_legal := h
      version_legal := lf_notMem_version }
  body := []
  version_eq := rfl
  keepsAlive := by simp
  framed := by simp
  body_eq_nil := fun _ => rfl

/-- Two requests for different paths. -/
def requestA : ClientRequest :=
  getRequest (ascii "/a") (by decide)

@[inherit_doc requestA]
def requestB : ClientRequest :=
  getRequest (ascii "/b") (by decide)

/-- The field `Content-Length: 2`. -/
def lengthTwo : Field where
  name := ascii "Content-Length"
  after := ascii " 2"
  name_legal := by decide
  after_legal := by decide

/-- A request with a body. -/
def postRequest : ClientRequest where
  head :=
    { method := ascii "POST"
      path := ascii "/a"
      version := ascii "1.1"
      fields := [lengthTwo]
      method_legal := by decide
      path_legal := by decide
      version_legal := lf_notMem_version }
  body := ascii "hi"
  version_eq := rfl
  keepsAlive := by simp; decide
  framed := by
    intro f hf _
    obtain rfl := List.mem_singleton.mp hf
    exact ⟨by decide, List.all_eq_true.mp rfl, by decide⟩
  body_eq_nil := by simp; decide

/-- A server with a default resource for each of the two methods. -/
def defaultServer : ServerBase ℕ where
  optResource := []
  defaultResource := [(ascii "GET", 0), (ascii "POST", 1)]

/-- The reads of the two requests of `[postRequest, requestB]`, none of them across the end of the
first one. -/
def separateReads : List Event :=
  [.read 30, .read 10, .read 1, .answered true, .read 19, .answered true]

/-- Two requests, the first of which has a body, arrive in reads that keep them apart. -/
theorem framing_iff_separateReads :
    ∃ c, run (step defaultServer) (accepted ℕ [postRequest, requestB]) separateReads = some c ∧
      (c.handed = [postRequest, requestB].map sent ↔
        Along (step defaultServer) (Within [postRequest, requestB])
            (accepted ℕ [postRequest, requestB]) separateReads ∧
          ServesAll defaultServer [postRequest, requestB]) := by
  have hend : (run (step defaultServer) (accepted ℕ [postRequest, requestB]) separateReads).map
      (fun c => (c.phase, c.socket)) = some (.readRequest {}, []) := by
    decide +kernel
  obtain ⟨c, hrun, hc⟩ := Option.map_eq_some_iff.mp hend
  obtain ⟨hphase, hsocket⟩ := Prod.mk.inj hc
  exact ⟨c, hrun, framing_iff defaultServer _ (by simp [separateReads, Event.Succeeds]) hrun
    (idle_of_readRequest hphase hsocket)⟩

/-- **Of two requests in one read the second is lost**: it has become the content of the first. The
first is handed over with the bytes of the second as its content, and the connection is idle: the
second is not read later either. -/
theorem handed_ne_of_oneRead :
    ∃ c, run (step defaultServer) (accepted ℕ [requestA, requestB])
        [.read 38, .answered true] = some c ∧ Idle defaultServer c ∧
      c.handed = [requestA.received (ascii "GET /b HTTP/1.1\r\n\r\n")] ∧
      c.handed ≠ [requestA, requestB].map sent := by
  have hend : (run (step defaultServer) (accepted ℕ [requestA, requestB])
      [.read 38, .answered true]).map (fun c => (c.phase, c.socket, c.handed)) =
        some (.readRequest {}, [],
          [requestA.received (ascii "GET /b HTTP/1.1\r\n\r\n")]) := by
    decide +kernel
  obtain ⟨c, hrun, hc⟩ := Option.map_eq_some_iff.mp hend
  obtain ⟨hphase, hrest⟩ := Prod.mk.inj hc
  obtain ⟨hsocket, hhanded⟩ := Prod.mk.inj hrest
  refine ⟨c, hrun, idle_of_readRequest hphase hsocket, hhanded, fun h => ?_⟩
  have hlength := congrArg List.length (hhanded.symm.trans h)
  exact absurd hlength (by simp)

end HttpConnection

end BoostIrc
