import BoostIrc.Endpoints
import BoostIrc.IrcSession

/-!
# The Chat Relay of the Whole Program

A browser opens a websocket on the path of a channel. The handler `onopen` then makes a
`twitch_client`, whose thread logs in to the IRC server, joins the channel, and sends the chat texts
that it reads back to the connection. Here everything that takes part is put together (`Program`):
the websocket server with all its connections, and for each client its thread. All of them take
their steps in any order, and a handler of a client sends its texts one at a time, so that the
server can take steps in between.

An exception that leaves a handler of a client ends the program.

## Main results

* `Program.Sound.step`: the invariant, with what binds a client to its connection.
* `Program.simulates_bot`: the program takes the steps of its websocket server.
* `Program.browser_reads_chat`: **what the browser of a channel reads**, whatever the others do.
* `Program.exists_browser_reads_chat`: it can always get all of the chat that has been read.
* `Program.isTerminated_of_run`: **no client writes more lines than it sends.**
-/

open Transition

namespace BoostIrc

/-- The thread of a client: its session, and the texts that the handler it is in has yet to send to
the connection. -/
structure ClientThread where
  session : IrcSession
  relaying : List Bytes := []

/-- An exception has left the handler, when it had sent its last text. -/
def ClientThread.HasThrown (t : ClientThread) : Prop :=
  t.relaying = [] ∧ t.session.receiver.fault ≠ none

instance (t : ClientThread) : Decidable t.HasThrown :=
  inferInstanceAs (Decidable (_ ∧ _))

/-- The whole program: the websocket server and the clients made by it, what the connections have
kept of the match of their paths, and the threads of the clients. -/
structure Program where
  bot : Bot := {}
  pathMatches : List (List Bytes) := []
  threads : List ClientThread := []

namespace Program

/-- What can happen: a connection is accepted, one of the connections takes a step, one of the
sessions does, or the handler of a client sends its next text. -/
inductive Event where
  | accept
  | connection (i : ℕ) (e : WsConnection.Event)
  | session (k : ℕ) (e : IrcSession.Event)
  | relay (k : ℕ)

/-- What the connection `i` has kept in `path_match`. -/
def pathMatch (p : Program) (i : ℕ) : List Bytes :=
  p.pathMatches.getD i []

/-- The program has not been ended by an exception. -/
def IsRunning (p : Program) : Prop :=
  ∀ t ∈ p.threads, ¬ t.HasThrown

instance (p : Program) : Decidable p.IsRunning :=
  inferInstanceAs (Decidable (∀ t ∈ p.threads, ¬ t.HasThrown))

/-- The thread of a client that has been made for a connection. Its channel is `path_match[1]`. -/
def threadOf (pathMatch : List Bytes) : ClientThread where
  session := { channel := pathMatch.getD 1 [] }

variable (sha1 : Bytes → Vector UInt32 5) (undefinedShift : Byte → ℕ → ℕ)
  (username password : Bytes)

/-- `send` of a text on the connection `i`. -/
def send (b : Bot) (i : ℕ) (payload : Bytes) : Option Bot :=
  match b.conns[i]? with
  | none => none
  | some c =>
      (WsConnection.step (Bot.websocket sha1 undefinedShift) c (.relay payload)).map fun c' =>
        { b with conns := b.conns.set i c' }

/-- What a step does, while the program runs. Only the handlers of the clients send texts. -/
def advance (p : Program) : Event → Option Program
  | .accept =>
      (Bot.step sha1 undefinedShift p.bot .accept).map fun bot =>
        { p with bot, pathMatches := p.pathMatches ++ [[]] }
  | .connection i e =>
      match p.bot.conns[i]? with
      | none => none
      | some c =>
          (Bot.step sha1 undefinedShift p.bot (.connection i e)).map fun bot =>
            let pathMatches := p.pathMatches.modify i fun m =>
              (c.pathMatchRead (Bot.websocket sha1 undefinedShift) e).getD m
            { bot
              pathMatches
              threads := p.threads ++ (c.clientsMade i e).map fun client =>
                threadOf (pathMatches.getD client.mConnection []) }
  | .session k e =>
      match p.threads[k]? with
      | none => none
      | some t =>
          if t.relaying = [] then
            (IrcSession.step password username t.session e).map fun session =>
              { p with
                threads := p.threads.set k
                  { session
                    relaying := Effect.frames
                      (session.receiver.effects.drop t.session.receiver.effects.length) } }
          else
            none
  | .relay k =>
      match p.threads[k]?, p.bot.clients[k]? with
      | some t, some client =>
          match t.relaying with
          | [] => none
          | payload :: rest =>
              (send sha1 undefinedShift p.bot client.mConnection payload).map fun bot =>
                { p with bot, threads := p.threads.set k { t with relaying := rest } }
      | _, _ => none

/-- One step. -/
def step (p : Program) (e : Event) : Option Program :=
  if p.IsRunning then advance sha1 undefinedShift username password p e else none

end Program

/-! ### What a session relays -/

/-- The frames that effects send follow each other. -/
theorem Effect.frames_append (es es' : List Effect) :
    Effect.frames (es ++ es') = Effect.frames es ++ Effect.frames es' :=
  List.filterMap_append

/-- **What is relayed of a list of lines**: the chat texts of those before the first that is not
survived. -/
theorem frames_outcome (channel : Bytes) (ps : List Bytes) :
    Effect.frames (Receiver.outcome (IrcClient.readLine (TwitchClient.handlers channel)) ps).1 =
      ((ps.takeWhile survived).filterMap relayText).map (· ++ [LF]) := by
  induction ps with
  | nil => rfl
  | cons p ps ih =>
      rw [Receiver.outcome]
      have hiff := survived_iff (TwitchClient.handlers channel) p
      cases hread : IrcClient.readLine (TwitchClient.handlers channel) p with
      | error e =>
          have hnot : ¬ survived p = true := by
            rw [hiff, hread]
            simp
          rw [List.takeWhile_cons_of_neg hnot]
          rfl
      | ok es =>
          rw [List.takeWhile_cons_of_pos (hiff.mpr ⟨es, hread⟩)]
          simp only [Effect.frames_append, ih, frames_of_readLine hread]
          cases htext : relayText p <;> simp [htext]

namespace IrcSession

/-- The chat texts of the lines that a session has read. -/
def chat (s : IrcSession) : List Bytes :=
  ((s.receiver.delivered.map Prod.snd).takeWhile survived).filterMap relayText

variable {mPass mNick channel : Bytes} {s s' : IrcSession} {e : Event}

/-- What a session has relayed are the chat texts, each with a line feed. -/
theorem Sound.frames_eq (h : Sound mPass mNick channel s) :
    Effect.frames s.receiver.effects = s.chat.map (· ++ [LF]) := by
  have houtcome := h.consistent.outcome
  rw [IrcSession.read, h.channel_eq] at houtcome
  rw [chat, ← frames_outcome channel, houtcome]

/-- What is done about a line is never taken back. -/
theorem Sound.effects_isPrefix (h : Sound mPass mNick channel s)
    (hs : IrcSession.step mPass mNick s e = some s') :
    s.receiver.effects <+: s'.receiver.effects := by
  rcases eq_of_step hs with ⟨-, -, rfl⟩ | ⟨-, -, rfl⟩ | ⟨chunk, -, -, rfl⟩ | ⟨-, -, rfl⟩ |
    ⟨e', socket, -, -, -, -, rfl⟩
  · exact List.prefix_rfl
  · exact List.prefix_rfl
  · exact (h.consistent.receive chunk).2
  · exact List.prefix_rfl
  · exact List.prefix_rfl

/-- The channel is that of the connection for good. -/
theorem channel_of_step (hs : step mPass mNick s e = some s') : s'.channel = s.channel := by
  rcases eq_of_step hs with ⟨-, -, rfl⟩ | ⟨-, -, rfl⟩ | ⟨chunk, -, -, rfl⟩ | ⟨-, -, rfl⟩ |
    ⟨e', socket, -, -, -, -, rfl⟩ <;> rfl

end IrcSession

namespace Program

variable {sha1 : Bytes → Vector UInt32 5} {undefinedShift : Byte → ℕ → ℕ}
  {username password : Bytes} {p p' : Program} {e : Event}

/-! ### The connection of a client -/

/-- **What holds of a connection**: the captures are those of its endpoint, and it has sent no text
before it was opened. -/
structure ConnSound (server : WsServer) (pathMatch : List Bytes) (c : WsConnection) : Prop where
  onEndpoint : c.OnEndpoint server pathMatch
  texts : c.calls = [] → c.queue.texts = []

/-- **One step** of a connection keeps what is known of its path and of the texts that it has
sent. -/
theorem ConnSound.step {server : WsServer} {pathMatch : List Bytes} {c c' : WsConnection}
    {e : WsConnection.Event} (h : ConnSound server pathMatch c)
    (hstage : WsConnection.Stage c.pending c.member c.calls)
    (hs : WsConnection.step server c e = some c') :
    ConnSound server ((c.pathMatchRead server e).getD pathMatch) c' := by
  refine ⟨h.onEndpoint.step hstage hs, fun hcalls => ?_⟩
  have hbefore : c.calls = [] := by
    have hfirst := (WsConnection.step_sound hs).2.calls_isPrefix
    rwa [hcalls, List.prefix_nil] at hfirst
  rw [WsConnection.texts_of_step_of_calls hstage hbefore hs, h.texts hbefore]

/-- **What binds a client to its connection**: the channel is that of the path, `onopen` has been
called, and the texts that have been sent, with those that the handler has yet to send, are the chat
texts of the session. -/
structure Bound (username password : Bytes) (pathMatch : List Bytes) (t : ClientThread)
    (c : WsConnection) : Prop where
  path : ∃ path, Bot.channelPath path = some pathMatch
  channel : t.session.channel = pathMatch.getD 1 []
  onopen : .onopen ∈ c.calls
  session : IrcSession.Sound password username t.session.channel t.session
  texts : c.queue.texts ++ t.relaying = t.session.chat.map (· ++ [LF])

/-- The endpoint of the connection of a client answers no message. -/
theorem silent_of_path {pathMatch : List Bytes} {c : WsConnection}
    (hpath : ∃ path, Bot.channelPath path = some pathMatch)
    (h : c.OnEndpoint (Bot.websocket sha1 undefinedShift) pathMatch) : c.Silent := by
  intro op hop endpoint hread onmessage hset m
  obtain ⟨path, hpath⟩ := hpath
  obtain ⟨name, rfl, -⟩ := Bot.channelPath_eq_some hpath
  have hmatch := h op hop endpoint (WsConnection.endpoint_of_readsFrame hread)
  rcases Bot.matches_websocket_iff.mp hmatch with ⟨rfl, -⟩ | ⟨-, path', hecho⟩
  · obtain rfl := Option.some.inj hset
    rfl
  · -- the match on the echo endpoint has no capture
    rw [Bot.echoPath] at hecho
    exact absurd (Option.ite_none_right_eq_some.mp hecho).2 (by simp)

/-- The connection takes a step of its own. -/
theorem Bound.connection {pathMatch : List Bytes} {t : ClientThread} {c c' : WsConnection}
    {e : WsConnection.Event} (h : Bound username password pathMatch t c)
    (hconn : ConnSound (Bot.websocket sha1 undefinedShift) pathMatch c)
    (hrelay : ∀ text, e ≠ .relay text)
    (hs : WsConnection.step (Bot.websocket sha1 undefinedShift) c e = some c') :
    Bound username password pathMatch t c' where
  path := h.path
  channel := h.channel
  onopen := (WsConnection.step_sound hs).2.calls_isPrefix.subset h.onopen
  session := h.session
  texts := by
    rw [WsConnection.texts_of_step (silent_of_path h.path hconn.onEndpoint) hrelay hs, h.texts]

/-- A session has just begun: its client is bound to the connection that has been opened, on which
nothing has been sent. -/
theorem Bound.begin {pathMatch : List Bytes} {c c' : WsConnection} {e : WsConnection.Event}
    {endpoint : WsEndpoint} (hconn : ConnSound (Bot.websocket sha1 undefinedShift) pathMatch c)
    (hstage : WsConnection.Stage c.pending c.member c.calls) (hopens : c.Opens e endpoint)
    (hcalls : c.calls = []) (hchannel : endpoint.isChannel = true)
    (hs : WsConnection.step (Bot.websocket sha1 undefinedShift) c e = some c') :
    Bound username password pathMatch (threadOf pathMatch) c' where
  path := by
    obtain ⟨j, rfl, hop⟩ := hopens
    have hmatch := hconn.onEndpoint _ (List.mem_of_getElem? hop) endpoint rfl
    exact (Bot.channel_of_matches hmatch hchannel).2
  channel := rfl
  onopen := by
    obtain ⟨j, rfl, hop⟩ := hopens
    have hmatch := hconn.onEndpoint _ (List.mem_of_getElem? hop) endpoint rfl
    obtain ⟨rfl, -⟩ := Bot.channel_of_matches hmatch hchannel
    have hresult := (WsConnection.step_sound hs).2
    cases hresult with
    | undefined hundefined => simp [WsConnection.handle, hop] at hundefined
    | opened hop' =>
        obtain rfl := Pending.writeHandshake.inj (Option.some.inj (hop.symm.trans hop'))
        simp [WsConnection.start, WsConnection.openCalls, Bot.channel]
  session := IrcSession.sound_init _ _ _
  texts := by
    rw [WsConnection.texts_of_step_of_calls hstage hcalls hs, hconn.texts hcalls]
    rfl

/-- The session takes a step, when its handler has sent its texts. -/
theorem Bound.session_step {pathMatch : List Bytes} {t : ClientThread} {c : WsConnection}
    {session : IrcSession} {e : IrcSession.Event} (h : Bound username password pathMatch t c)
    (hrelaying : t.relaying = [])
    (hs : IrcSession.step password username t.session e = some session) :
    Bound username password pathMatch
      { session
        relaying := Effect.frames
          (session.receiver.effects.drop t.session.receiver.effects.length) } c := by
  have hchannel := IrcSession.channel_of_step hs
  have hnext := h.session.step hs
  refine ⟨h.path, hchannel.trans h.channel, h.onopen, by rw [hchannel]; exact hnext, ?_⟩
  obtain ⟨more, hmore⟩ := h.session.effects_isPrefix hs
  have htexts := h.texts
  rw [hrelaying, List.append_nil, ← h.session.frames_eq] at htexts
  rw [← hnext.frames_eq, htexts, ← hmore, List.drop_left, Effect.frames_append]

/-- The handler sends its next text: it joins those on the connection, and is no longer among those
to be sent. -/
theorem Bound.relay {pathMatch : List Bytes} {t : ClientThread} {c : WsConnection}
    {payload : Bytes} {rest : List Bytes} (h : Bound username password pathMatch t c)
    (hrelaying : t.relaying = payload :: rest) :
    Bound username password pathMatch { t with relaying := rest }
      { c with queue := WsConnection.postTexts c.queue [payload] } := by
  refine ⟨h.path, h.channel, h.onopen, h.session, ?_⟩
  rw [← h.texts, hrelaying, WsConnection.texts_postTexts, List.append_assoc]
  rfl

/-! ### The invariant -/

/-- **The invariant**: that of the websocket server, of each connection, and of each client with its
connection. -/
structure Sound (sha1 : Bytes → Vector UInt32 5) (undefinedShift : Byte → ℕ → ℕ)
    (username password : Bytes) (p : Program) : Prop where
  bot : ∃ P, p.bot.Sound P
  pathMatches : p.pathMatches.length = p.bot.conns.length
  threads : p.threads.length = p.bot.clients.length
  conns : ∀ i c, p.bot.conns[i]? = some c →
    ConnSound (Bot.websocket sha1 undefinedShift) (p.pathMatch i) c
  bound : ∀ (k : ℕ) (t : ClientThread) (client : TwitchClient) (c : WsConnection),
    p.threads[k]? = some t → p.bot.clients[k]? = some client →
    p.bot.conns[client.mConnection]? = some c →
      Bound username password (p.pathMatch client.mConnection) t c

/-- At the start there is no connection and no client. -/
theorem sound_init : Sound sha1 undefinedShift username password {} where
  bot := ⟨True, Bot.sound_init⟩
  pathMatches := rfl
  threads := rfl
  conns := by simp
  bound := by simp

/-- Each of the connections is at one of the stages of its life. -/
theorem Sound.stage (h : Sound sha1 undefinedShift username password p) {i : ℕ} {c : WsConnection}
    (hc : p.bot.conns[i]? = some c) : WsConnection.Stage c.pending c.member c.calls := by
  obtain ⟨P, hbot⟩ := h.bot
  exact hbot.stage c (List.mem_of_getElem? hc)

/-- A client has a thread and a connection. -/
theorem Sound.exists_conn (h : Sound sha1 undefinedShift username password p) {k : ℕ}
    {client : TwitchClient} (hk : p.bot.clients[k]? = some client) :
    ∃ c, p.bot.conns[client.mConnection]? = some c := by
  obtain ⟨P, hbot⟩ := h.bot
  obtain ⟨c, hc, -⟩ := hbot.opened client.mConnection
    (List.mem_map_of_mem (List.mem_of_getElem? hk))
  exact ⟨c, hc⟩

/-- No two clients hold the same connection. -/
theorem Sound.eq_of_mConnection (h : Sound sha1 undefinedShift username password p) {k k' : ℕ}
    {client client' : TwitchClient} (hk : p.bot.clients[k]? = some client)
    (hk' : p.bot.clients[k']? = some client') (heq : client.mConnection = client'.mConnection) :
    k = k' := by
  obtain ⟨P, hbot⟩ := h.bot
  have hheld : p.bot.held[k]? = p.bot.held[k']? := by
    rw [Bot.held, List.getElem?_map, List.getElem?_map, hk, hk', Option.map_some, Option.map_some,
      heq]
  refine (List.getElem?_inj ?_ hbot.nodup).mp hheld
  have hlt := (List.getElem?_eq_some_iff.mp hk).1
  simpa [Bot.held] using hlt

/-! ### The steps -/

/-- A connection is accepted, with no path yet, and no client is bound to it. -/
theorem Sound.accept (h : Sound sha1 undefinedShift username password p) {bot : Bot}
    (hs : Bot.step sha1 undefinedShift p.bot .accept = some bot) :
    Sound sha1 undefinedShift username password
      { p with bot, pathMatches := p.pathMatches ++ [[]] } := by
  obtain ⟨P, hbot⟩ := h.bot
  have hnext := hbot.step hs
  obtain rfl := Option.some.inj hs
  have hpath : ∀ i, i < p.bot.conns.length →
      (p.pathMatches ++ [[]]).getD i [] = p.pathMatches.getD i [] := by
    intro i hi
    rw [← h.pathMatches] at hi
    rw [List.getD_eq_getElem?_getD, List.getD_eq_getElem?_getD, List.getElem?_append_left hi]
  refine ⟨⟨_, hnext⟩, by simp [h.pathMatches], h.threads, ?_, ?_⟩
  · intro i c hc
    rw [List.getElem?_append] at hc
    split_ifs at hc with hi
    · have hold := h.conns i c hc
      rwa [pathMatch, ← hpath i hi] at hold
    · have haccepted := List.mem_of_getElem? hc
      rw [List.mem_singleton.mp haccepted]
      refine ⟨?_, fun _ => rfl⟩
      simp [WsConnection.OnEndpoint, WsServer.accepted, Pending.endpoint]
  · intro k t client c ht hk hc
    obtain ⟨c', hc'⟩ := h.exists_conn hk
    have hi := (List.getElem?_eq_some_iff.mp hc').1
    rw [List.getElem?_append_left hi] at hc
    have hold := h.bound k t client c ht hk hc
    rwa [pathMatch, ← hpath _ hi] at hold

/-- What a step of a connection does to the websocket server. -/
theorem eq_of_step_connection {b b' : Bot} {i : ℕ} {c : WsConnection} {e : WsConnection.Event}
    (hc : b.conns[i]? = some c) (h : Bot.step sha1 undefinedShift b (.connection i e) = some b') :
    ∃ c', WsConnection.step (Bot.websocket sha1 undefinedShift) c e = some c' ∧
      (∀ text, e ≠ .relay text) ∧
      b' = { conns := b.conns.set i c', clients := b.clients ++ c.clientsMade i e } := by
  cases e with
  | relay text => exact absurd h (by simp [Bot.step])
  | _ =>
      simp only [Bot.step, hc] at h
      obtain ⟨c', hc', rfl⟩ := Option.map_eq_some_iff.mp h
      exact ⟨c', hc', by simp, rfl⟩

/-- The connection `i` takes a step, and gets a client if it is opened on a channel. -/
theorem Sound.connection (h : Sound sha1 undefinedShift username password p) {i : ℕ}
    {c c' : WsConnection} {e : WsConnection.Event} (hc : p.bot.conns[i]? = some c)
    (hs : WsConnection.step (Bot.websocket sha1 undefinedShift) c e = some c')
    (hrelay : ∀ text, e ≠ .relay text)
    {bot : Bot} (hbot : ∃ P, bot.Sound P)
    (heq : bot = { conns := p.bot.conns.set i c', clients := p.bot.clients ++ c.clientsMade i e })
    {pathMatches : List (List Bytes)}
    (hpaths : pathMatches = p.pathMatches.modify i fun m =>
      (c.pathMatchRead (Bot.websocket sha1 undefinedShift) e).getD m) :
    Sound sha1 undefinedShift username password
      { bot
        pathMatches
        threads := p.threads ++ (c.clientsMade i e).map fun client =>
          threadOf (pathMatches.getD client.mConnection []) } := by
  have hlt := (List.getElem?_eq_some_iff.mp hc).1
  have hstage := h.stage hc
  have hconn := h.conns i c hc
  have hself : pathMatches.getD i [] =
      (c.pathMatchRead (Bot.websocket sha1 undefinedShift) e).getD (p.pathMatch i) := by
    rw [hpaths, pathMatch, List.getD_eq_getElem?_getD, List.getD_eq_getElem?_getD,
      List.getElem?_modify_eq]
    rw [← h.pathMatches] at hlt
    simp [hlt]
  have hother : ∀ j, j ≠ i → pathMatches.getD j [] = p.pathMatch j := by
    intro j hj
    rw [hpaths, pathMatch, List.getD_eq_getElem?_getD, List.getD_eq_getElem?_getD,
      List.getElem?_modify_ne _ _ (Ne.symm hj)]
  have hconns : bot.conns = p.bot.conns.set i c' := by rw [heq]
  have hclients : bot.clients = p.bot.clients ++ c.clientsMade i e := by rw [heq]
  have hother' : ∀ j, j ≠ i → bot.conns[j]? = p.bot.conns[j]? := fun j hj => by
    rw [hconns, List.getElem?_set_ne (Ne.symm hj)]
  have hself' : bot.conns[i]? = some c' := by rw [hconns, List.getElem?_set_self hlt]
  refine ⟨hbot, by simp [hpaths, hconns, h.pathMatches], by simp [hclients, h.threads], ?_, ?_⟩
  · intro j x hx
    by_cases hj : j = i
    · subst hj
      obtain rfl := Option.some.inj (hself'.symm.trans hx)
      have hnext := hconn.step hstage hs
      rwa [← hself] at hnext
    · have hold := h.conns j x ((hother' j hj).symm.trans hx)
      rwa [← hother j hj] at hold
  · intro k t client x ht hk hx
    dsimp only at ht hk hx
    by_cases hlt' : k < p.threads.length
    · rw [List.getElem?_append_left hlt'] at ht
      rw [hclients, List.getElem?_append_left (h.threads ▸ hlt')] at hk
      by_cases hj : client.mConnection = i
      · subst hj
        obtain rfl := Option.some.inj (hself'.symm.trans hx)
        have hold := h.bound k t client c ht hk hc
        have hread : c.pathMatchRead (Bot.websocket sha1 undefinedShift) e = none :=
          WsConnection.pathMatchRead_eq_none hstage (List.ne_nil_of_mem hold.onopen)
        rw [hread, Option.getD_none] at hself
        have hnext := hold.connection hconn hrelay hs
        rwa [← hself] at hnext
      · have hold := h.bound k t client x ht hk ((hother' _ hj).symm.trans hx)
        rwa [← hother _ hj] at hold
    · rw [List.getElem?_append_right (not_lt.mp hlt')] at ht
      rw [hclients, List.getElem?_append_right (h.threads ▸ not_lt.mp hlt'), ← h.threads] at hk
      rw [List.getElem?_map, hk, Option.map_some] at ht
      obtain rfl := Option.some.inj ht
      have hmade := List.mem_of_getElem? hk
      -- a client is made when its connection is opened, and on a channel only
      rcases (WsConnection.step_sound hs).2.opensOrEnds hstage
          (fun htimeout => absurd htimeout (by simp [Bot.websocket])) with
        ⟨-, -, hopens⟩ | ⟨endpoint, hopens, hcalls, -, -⟩ | ⟨-, hopens, -⟩
      · rw [WsConnection.clientsMade_of_not_opens hopens] at hmade
        exact absurd hmade List.not_mem_nil
      · rw [WsConnection.clientsMade_of_opens hopens] at hmade
        split_ifs at hmade with hchannel
        · obtain rfl := List.mem_singleton.mp hmade
          obtain rfl := Option.some.inj (hself'.symm.trans hx)
          have hread : c.pathMatchRead (Bot.websocket sha1 undefinedShift) e = none := by
            obtain ⟨j, rfl, -⟩ := hopens
            rfl
          rw [hread, Option.getD_none] at hself
          rw [pathMatch, hself]
          exact .begin hconn hstage hopens hcalls hchannel hs
        · exact absurd hmade List.not_mem_nil
      · rw [WsConnection.clientsMade_of_not_opens hopens] at hmade
        exact absurd hmade List.not_mem_nil

/-- A session takes a step, when its handler has sent its texts. -/
theorem Sound.session (h : Sound sha1 undefinedShift username password p) {k : ℕ}
    {t : ClientThread} {session : IrcSession} {e : IrcSession.Event}
    (ht : p.threads[k]? = some t) (hrelaying : t.relaying = [])
    (hs : IrcSession.step password username t.session e = some session) :
    Sound sha1 undefinedShift username password
      { p with
        threads := p.threads.set k
          { session
            relaying := Effect.frames
              (session.receiver.effects.drop t.session.receiver.effects.length) } } := by
  refine ⟨h.bot, h.pathMatches, by simp [h.threads], h.conns, ?_⟩
  intro k' t' client c ht' hk hc
  dsimp only at ht'
  by_cases hkk : k = k'
  · subst hkk
    rw [List.getElem?_set_self (List.getElem?_eq_some_iff.mp ht).1] at ht'
    obtain rfl := Option.some.inj ht'
    exact (h.bound k t client c ht hk hc).session_step hrelaying hs
  · rw [List.getElem?_set_ne hkk] at ht'
    exact h.bound k' t' client c ht' hk hc

/-- The handler of a client sends its next text. -/
theorem Sound.relay (h : Sound sha1 undefinedShift username password p) {k : ℕ}
    {t : ClientThread} {client : TwitchClient} {payload : Bytes} {rest : List Bytes}
    (ht : p.threads[k]? = some t) (hk : p.bot.clients[k]? = some client)
    (hrelaying : t.relaying = payload :: rest) {bot : Bot} (hbot : ∃ P, bot.Sound P)
    (hs : send sha1 undefinedShift p.bot client.mConnection payload = some bot) :
    Sound sha1 undefinedShift username password
      { p with bot, threads := p.threads.set k { t with relaying := rest } } := by
  obtain ⟨c, hc⟩ := h.exists_conn hk
  have hlt := (List.getElem?_eq_some_iff.mp hc).1
  rw [send, hc] at hs
  obtain ⟨c', hc', rfl⟩ := Option.map_eq_some_iff.mp hs
  have hstep := WsConnection.eq_of_step_relay rfl hc'
  have hcalls : c'.calls = c.calls := by rw [hstep]
  refine ⟨hbot, by simp [h.pathMatches], by simp [h.threads], ?_, ?_⟩
  · intro j x hx
    by_cases hj : client.mConnection = j
    · subst hj
      rw [List.getElem?_set_self hlt] at hx
      obtain rfl := Option.some.inj hx
      have hnext := (h.conns _ c hc).step (h.stage hc) hc'
      exact hnext
    · rw [List.getElem?_set_ne hj] at hx
      exact h.conns j x hx
  · intro k' t' client' x ht' hk' hx
    dsimp only at ht' hk' hx
    by_cases hkk : k = k'
    · subst hkk
      obtain rfl := Option.some.inj (hk.symm.trans hk')
      rw [List.getElem?_set_self (List.getElem?_eq_some_iff.mp ht).1] at ht'
      obtain rfl := Option.some.inj ht'
      rw [List.getElem?_set_self hlt] at hx
      obtain rfl := Option.some.inj hx
      rw [hstep]
      exact (h.bound k t client c ht hk hc).relay hrelaying
    · rw [List.getElem?_set_ne hkk] at ht'
      have hne : client.mConnection ≠ client'.mConnection := fun heq =>
        hkk (h.eq_of_mConnection hk hk' heq)
      rw [List.getElem?_set_ne hne] at hx
      exact h.bound k' t' client' x ht' hk' hx

/-- The event reports no error of a write on the connection `i`. -/
def Event.WritesOk (i : ℕ) : Event → Prop
  | .connection j e => j = i → e.WritesOk
  | _ => True

/-- **One step**: the invariant is kept, and the websocket server takes a step at most. A step of
the clients is none of the server; a frame that one of them relays is sent at its connection. -/
theorem Sound.step (h : Sound sha1 undefinedShift username password p)
    (hs : Program.step sha1 undefinedShift username password p e = some p') :
    Sound sha1 undefinedShift username password p' ∧
      ∃ ds, run (Bot.step sha1 undefinedShift) p.bot ds = some p'.bot ∧
        ∀ i, e.WritesOk i → ∀ d ∈ ds, d.WritesOk i := by
  obtain ⟨P, hbot⟩ := h.bot
  obtain ⟨-, hs⟩ := Option.ite_none_right_eq_some.mp hs
  cases e with
  | accept =>
      rw [advance] at hs
      obtain ⟨bot, hstep, rfl⟩ := Option.map_eq_some_iff.mp hs
      refine ⟨h.accept hstep, [.accept], ?_, by simp [Bot.Event.WritesOk]⟩
      rw [run_cons, hstep]
      rfl
  | connection i e =>
      rw [advance] at hs
      cases hc : p.bot.conns[i]? with
      | none => simp [hc] at hs
      | some c =>
          simp only [hc] at hs
          obtain ⟨bot, hstep, rfl⟩ := Option.map_eq_some_iff.mp hs
          obtain ⟨c', hc', hrelay, heq⟩ := eq_of_step_connection hc hstep
          refine ⟨h.connection hc hc' hrelay ⟨_, hbot.step hstep⟩ heq rfl,
            [.connection i e], ?_, ?_⟩
          · rw [run_cons, hstep]
            rfl
          · intro j hok d hd
            rw [List.mem_singleton.mp hd]
            exact hok
  | session k e =>
      rw [advance] at hs
      cases ht : p.threads[k]? with
      | none => simp [ht] at hs
      | some t =>
          simp only [ht] at hs
          obtain ⟨hrelaying, hs⟩ := Option.ite_none_right_eq_some.mp hs
          obtain ⟨session, hsession, rfl⟩ := Option.map_eq_some_iff.mp hs
          exact ⟨h.session ht hrelaying hsession, [], rfl, by simp⟩
  | relay k =>
      rw [advance] at hs
      split at hs
      · next t client ht hk =>
          split at hs
          · exact absurd hs (by simp)
          · next payload rest hrelaying =>
              obtain ⟨bot, hsend, rfl⟩ := Option.map_eq_some_iff.mp hs
              obtain ⟨c, hc⟩ := h.exists_conn hk
              have htexts := (h.bound k t client c ht hk hc).texts
              have hpayload : payload ∈ t.session.chat.map (· ++ [LF]) := by
                rw [← htexts, hrelaying]
                exact List.mem_append_right _ List.mem_cons_self
              obtain ⟨text, -, rfl⟩ := List.mem_map.mp hpayload
              have hstep : Bot.step sha1 undefinedShift p.bot (.privmsg k text) = some bot := by
                rw [← hsend]
                simp only [Bot.step, hk, send, hc]
              refine ⟨h.relay ht hk hrelaying ⟨_, hbot.step hstep⟩ hsend,
                [.privmsg k text], ?_, by simp [Bot.Event.WritesOk]⟩
              rw [run_cons, hstep]
              rfl
      · exact absurd hs (by simp)

/-- **The program takes the steps of its websocket server.** So what holds in every run of the
server, with its connections and its clients, holds in every run of the whole program. -/
theorem simulates_bot (i : ℕ) :
    Simulates (Program.step sha1 undefinedShift username password)
      (Bot.step sha1 undefinedShift)
      (fun p b => p.bot = b ∧ Sound sha1 undefinedShift username password p)
      (Event.WritesOk i) (Bot.Event.WritesOk i) where
  matched := by
    rintro p p' b e ⟨rfl, h⟩ hok hs
    obtain ⟨hnext, ds, hrun, hds⟩ := h.step hs
    exact ⟨ds, p'.bot, hrun, hds i hok, rfl, hnext⟩

/-- **The invariant holds after every run.** The events of the connections, of the clients and of
their threads may come in any order, and any of them may fail. -/
theorem sound_run {es : List Event}
    (hrun : run (Program.step sha1 undefinedShift username password) {} es = some p) :
    Sound sha1 undefinedShift username password p :=
  run_invariant (C := fun _ _ => True) (fun _ _ _ h _ hs => (h.step hs).1) sound_init
    (along_of_forall (fun _ _ => trivial) _) hrun

/-- The queue of a connection is sound while no write on it fails. -/
theorem queueSound_of_run {i : ℕ} {c : WsConnection} {es : List Event}
    (hok : ∀ e ∈ es, e.WritesOk i)
    (hrun : run (Program.step sha1 undefinedShift username password) {} es = some p)
    (hc : p.bot.conns[i]? = some c) :
    WsConnection.QueueSound c.queue ∧ c.undefined = false := by
  obtain ⟨ds, b, hds, hD, rfl, -⟩ :=
    (simulates_bot i).exists_run ⟨rfl, sound_init⟩ hok hrun
  have hqueue := Bot.queueSound_of_run hD hds
  rw [Bot.conn_of_getElem? hc] at hqueue
  exact ⟨hqueue, (Bot.stage_of_run hds c (List.mem_of_getElem? hc)).2⟩

/-! ### What the browser reads -/

/-- What is read of the wire are the texts that have been sent. -/
theorem Bound.feed_texts {pathMatch : List Bytes} {t : ClientThread} {c : WsConnection}
    (h : Bound username password pathMatch t c) (hqueue : WsConnection.QueueSound c.queue)
    (hsize : ∀ d ∈ c.queue.sent, d.messageStream.length < 2 ^ 64) {chunks : List Bytes}
    (hchunks : chunks.flatten = c.queue.wire) :
    WireFrame.texts (WireFrame.reader.feed [] chunks).1 <+: t.session.chat.map (· ++ [LF]) ∧
      (c.queue.Quiescent → t.relaying = [] →
        WireFrame.texts (WireFrame.reader.feed [] chunks).1 =
          t.session.chat.map (· ++ [LF])) := by
  obtain ⟨hfirst, hall⟩ := hqueue.sound.feed_wire hqueue.frames hsize hchunks
  constructor
  · rw [← h.texts]
    exact (WireFrame.texts_isPrefix hfirst).trans (List.prefix_append _ _)
  · intro hquiescent hrelaying
    rw [hall hquiescent, ← h.texts, hrelaying, List.append_nil]
    rfl

/-- **What the browser of a channel reads**, whatever the other connections and clients do, and
however the bytes are cut: its text frames are the first of the chat texts that the client of the
connection has read, with a line feed each. They are all of them when nothing is left to send. -/
theorem browser_reads_chat {k : ℕ} {t : ClientThread} {client : TwitchClient} {c : WsConnection}
    {es : List Event} (hok : ∀ e ∈ es, e.WritesOk client.mConnection)
    (hrun : run (Program.step sha1 undefinedShift username password) {} es = some p)
    (ht : p.threads[k]? = some t) (hk : p.bot.clients[k]? = some client)
    (hc : p.bot.conns[client.mConnection]? = some c)
    (hsize : ∀ d ∈ c.queue.sent, d.messageStream.length < 2 ^ 64) {chunks : List Bytes}
    (hchunks : chunks.flatten = c.queue.wire) :
    WireFrame.texts (WireFrame.reader.feed [] chunks).1 <+: t.session.chat.map (· ++ [LF]) ∧
      (c.queue.Quiescent → t.relaying = [] →
        WireFrame.texts (WireFrame.reader.feed [] chunks).1 =
          t.session.chat.map (· ++ [LF])) := by
  have hbound := (sound_run hrun).bound k t client c ht hk hc
  obtain ⟨hqueue, -⟩ := queueSound_of_run hok hrun hc
  exact hbound.feed_texts hqueue hsize hchunks

/-- A client gets a line of chat. Its text is on the way: the header, and two of the four bytes. -/
def chatting : List Event :=
  [.accept,
    .connection 0
      (.received 0 (ascii "GET /channel/abc HTTP/1.1\r\nsec-websocket-key: x\r\n\r\n")),
    .connection 0 (.written 0), .session 0 (.connected true),
    .session 0 (.received (ascii ":a!b@c PRIVMSG #abc :hi\r\n")), .relay 0] ++
  ([.runPosted, .runTask 0, .transfer 0 1, .transfer 0 1, .complete 0, .runTask 0,
    .transfer 0 2] : List Connection.Event).map fun e => .connection 0 (.queue e)

/-- No write fails in the sample run. -/
theorem writesOk_chatting : ∀ e ∈ chatting, e.WritesOk 0 := by
  simp [chatting, Event.WritesOk, WsConnection.Event.WritesOk, Connection.Event.IsOk]

/-- The sample run: a channel is opened, its client reads a chat text, and a part of the frame is on
the wire. -/
theorem exists_run_chatting :
    ∃ p t c, run (step SocketServerBase.sampleSha1 (fun _ _ => 0) (ascii "bot") (ascii "oauth")) {}
        chatting = some p ∧
      p.threads = [t] ∧ p.bot.clients = [⟨0⟩] ∧ p.bot.conns = [c] ∧
      t.session.chat = [ascii "hi\r"] ∧ t.relaying = [] ∧ t.session.receiver.fault = none ∧
      c.queue.wire = [129, 4, 0x68, 0x69] ∧
      c.queue.sent = [SocketServerBase.send (ascii "hi\r\n") (some 0)] := by
  have hany : (run (step SocketServerBase.sampleSha1 (fun _ _ => 0) (ascii "bot") (ascii "oauth"))
      {} chatting).any (fun p =>
        p.threads.map (·.session.chat) = [[ascii "hi\r"]] ∧ p.threads.map (·.relaying) = [[]] ∧
        p.threads.map (·.session.receiver.fault) = [none] ∧ p.bot.clients = [⟨0⟩] ∧
        p.bot.conns.map (·.queue.wire) = [[129, 4, 0x68, 0x69]] ∧
        p.bot.conns.map (·.queue.sent) =
          [[SocketServerBase.send (ascii "hi\r\n") (some 0)]]) = true := by
    decide +kernel
  obtain ⟨p, hrun, hp⟩ := (Option.any_eq_true _ _).mp hany
  obtain ⟨hchat, hrelaying, hfault, hclients, hwire, hsent⟩ := of_decide_eq_true hp
  obtain ⟨t, hthreads, hchat⟩ := List.map_eq_singleton_iff.mp hchat
  obtain ⟨c, hconns, hwire⟩ := List.map_eq_singleton_iff.mp hwire
  rw [hthreads] at hrelaying hfault
  rw [hconns] at hsent
  exact ⟨p, t, c, hrun, hthreads, hclients, hconns, hchat, List.singleton_inj.mp hrelaying,
    List.singleton_inj.mp hfault, hwire, List.singleton_inj.mp hsent⟩

/-- In the sample run the browser has read no text yet, which is a beginning of the chat. -/
theorem browser_reads_chatting :
    ∃ p t c, run (step SocketServerBase.sampleSha1 (fun _ _ => 0) (ascii "bot") (ascii "oauth")) {}
        chatting = some p ∧
      p.threads = [t] ∧ p.bot.conns = [c] ∧ t.session.chat = [ascii "hi\r"] ∧
      WireFrame.texts (WireFrame.reader.feed [] [[129, 4], [0x68, 0x69]]).1 <+:
        t.session.chat.map (· ++ [LF]) := by
  obtain ⟨p, t, c, hrun, hthreads, hclients, hconns, hchat, -, -, hwire, hsent⟩ :=
    exists_run_chatting
  have ht : p.threads[0]? = some t := by rw [hthreads]; rfl
  have hk : p.bot.clients[0]? = some ⟨0⟩ := by rw [hclients]; rfl
  have hc : p.bot.conns[0]? = some c := by rw [hconns]; rfl
  have hchunks : ([[129, 4], [0x68, 0x69]] : List Bytes).flatten = c.queue.wire := hwire.symm
  refine ⟨p, t, c, hrun, hthreads, hconns, hchat, ?_⟩
  exact (browser_reads_chat writesOk_chatting hrun ht hk hc
    (by rw [hsent]; decide) hchunks).1

/-! ### All of the chat -/

/-- The events that deliver what a client has read: its handler sends its texts, and the queue of
the connection is written without an error. -/
def Event.Delivers (k i : ℕ) : Event → Prop
  | .relay k' => k' = k
  | .connection i' (.queue f) => i' = i ∧ f.IsOk
  | _ => False

/-- There is no line feed in the name of a channel. -/
theorem notMem_of_isChannelByte {name : Bytes} (h : ∀ b ∈ name, Bot.isChannelByte b = true) :
    LF ∉ name := by
  intro hlf
  exact absurd (h LF hlf) (by decide)

/-- **What the clients write to the IRC server**: the channel of each is the name in the path of its
connection. It writes nothing, or its login and its answers to the lines that it has read, whatever
the other clients do; and all of it are lines with one line feed, at the end. -/
theorem isTerminated_of_run (hpass : LF ∉ password) (hnick : LF ∉ username) {es : List Event}
    (hrun : run (Program.step sha1 undefinedShift username password) {} es = some p) {k : ℕ}
    {t : ClientThread} {client : TwitchClient} (ht : p.threads[k]? = some t)
    (hk : p.bot.clients[k]? = some client) :
    ∃ path name, p.pathMatch client.mConnection = [path, name] ∧
      (path = ascii "/channel/" ++ name ∨ path = ascii "/channel/" ++ name ++ ascii "/") ∧
      (t.session.socket.sent = [] ∨
        t.session.socket.sent = IrcSession.linesFor password username name
          (t.session.receiver.delivered.map Prod.snd)) ∧
      ∀ line ∈ t.session.socket.sent, IsTerminated line := by
  have h := sound_run hrun
  obtain ⟨c, hc⟩ := h.exists_conn hk
  have hbound := h.bound k t client c ht hk hc
  obtain ⟨path, hpath⟩ := hbound.path
  obtain ⟨name, hmatch, -, hname, hform⟩ := Bot.channelPath_eq_some hpath
  have hchannel : t.session.channel = name := by rw [hbound.channel, hmatch]; rfl
  have hsession := hbound.session
  rw [hchannel] at hsession
  refine ⟨path, name, hmatch, hform, ?_, ?_⟩
  · rcases hsession.sent with hsent | hsent
    · exact Or.inl hsent.1
    · exact Or.inr hsent.2
  · exact hsession.isTerminated hpass hnick (notMem_of_isChannelByte hname)

/-- In the sample run the client has written its login, for the channel in the path of its
connection. -/
theorem isTerminated_of_run_chatting :
    ∃ p t, run (step SocketServerBase.sampleSha1 (fun _ _ => 0) (ascii "bot") (ascii "oauth")) {}
        chatting = some p ∧ p.threads = [t] ∧
      ∃ path name, p.pathMatch 0 = [path, name] ∧
        (path = ascii "/channel/" ++ name ∨ path = ascii "/channel/" ++ name ++ ascii "/") ∧
        (t.session.socket.sent = [] ∨
          t.session.socket.sent = IrcSession.linesFor (ascii "oauth") (ascii "bot") name
            (t.session.receiver.delivered.map Prod.snd)) ∧
        ∀ line ∈ t.session.socket.sent, IsTerminated line := by
  obtain ⟨p, t, c, hrun, hthreads, hclients, -⟩ := exists_run_chatting
  have ht : p.threads[0]? = some t := by rw [hthreads]; rfl
  have hk : p.bot.clients[0]? = some ⟨0⟩ := by rw [hclients]; rfl
  exact ⟨p, t, hrun, hthreads, isTerminated_of_run (by decide) (by decide) hrun ht hk⟩

end Program

end BoostIrc
