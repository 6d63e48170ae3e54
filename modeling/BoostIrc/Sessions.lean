import BoostIrc.Assembly

/-!
# The Sessions of the Bot

The handler `onopen` of the channel endpoint makes a `twitch_client`, which holds the connection
and relays the chat of the channel to it. The program keeps no pointer to the client, and nothing
deletes it: `onclose` and `onerror` of the endpoint are empty. So the client outlives the
connection.

The constructor resolves the host of the IRC server. Where that fails, its exception ends the
program, and there is no step.

## Main results

* `WsConnection.Step.opensOrEnds`: what a step of a connection has to do with its sessions.
* `Bot.Sound`: the invariant of the bot, with whether no connection to a channel has ended.
* `Bot.onePerChannel_iff`: **when there is one session for each open connection**.
-/

open Transition

namespace BoostIrc

/-- A connection to the endpoint gets a client when it is opened. -/
def WsEndpoint.isChannel (endpoint : WsEndpoint) : Bool :=
  endpoint.onopen && endpoint.makesClient

/-- The read is one of the last frame of a connection, with this buffer: one without a mask, or a
close frame. -/
def Pending.ReadsLast (readBuffer : Bytes) (bytesTransferred : ℕ) : Pending → Prop
  | .readHead _ =>
      bytesTransferred = 2 ∧ (WsConnection.readBytes readBuffer 2).getD 1 0 < 128
  | .readContent _ finRsvOpcode _ => finRsvOpcode &&& 0x0f = 8
  | _ => False

/-- A `twitch_client`, with the connection that it relays to. -/
structure TwitchClient where
  mConnection : ℕ
  deriving DecidableEq, Repr

namespace WsConnection

/-- The connection has been opened, and neither closed nor errored. -/
def IsOpen (c : WsConnection) : Prop :=
  .connectionOpen ∈ c.calls ∧ ∀ x ∈ c.calls, ¬ x.isEnd

/-- The operation under way is one on a channel endpoint. -/
def onChannel (c : WsConnection) : Bool :=
  c.pending.any fun op => op.endpoint.any WsEndpoint.isChannel

/-- The answer to the handshake has been written, and the connection is opened. -/
def Opens (c : WsConnection) (e : Event) (endpoint : WsEndpoint) : Prop :=
  ∃ i, e = .written i ∧ c.pending[i]? = some (.writeHandshake endpoint)

/-- The event ends the connection: an operation fails, or the last frame has arrived. -/
def Ends (c : WsConnection) : Event → Prop
  | .failed i => ∃ op endpoint, c.pending[i]? = some op ∧ op.endpoint = some endpoint
  | .received i chunk =>
      ∃ op, c.pending[i]? = some op ∧ op.ReadsLast (c.readBuffer ++ chunk) chunk.length
  | _ => False

/-- The clients that the handler of an event makes. -/
def clientsMade (c : WsConnection) (i : ℕ) : Event → List TwitchClient
  | .written j =>
      match c.pending[j]? with
      | some (.writeHandshake endpoint) => if endpoint.isChannel then [⟨i⟩] else []
      | _ => []
  | _ => []

/-- A step that neither opens nor ends the connection. -/
structure Keeps (c c' : WsConnection) : Prop where
  opened : .connectionOpen ∈ c'.calls ↔ .connectionOpen ∈ c.calls
  ended : (∀ x ∈ c'.calls, ¬ x.isEnd) ↔ ∀ x ∈ c.calls, ¬ x.isEnd
  onChannel : c.IsOpen → c'.onChannel = c.onChannel

variable {server : WsServer} {c c' : WsConnection} {e : Event}

/-- A step that keeps the connection leaves it open if it was, and only then. -/
theorem Keeps.isOpen_iff (h : Keeps c c') : c'.IsOpen ↔ c.IsOpen :=
  and_congr h.opened h.ended

/-- A step that calls nothing and leaves the operations under way keeps the connection. -/
theorem Keeps.of_calls (hcalls : c'.calls = c.calls) (hpending : c'.pending = c.pending) :
    Keeps c c' := by
  refine ⟨by rw [hcalls], by rw [hcalls], fun _ => ?_⟩
  rw [WsConnection.onChannel, hpending, WsConnection.onChannel]

/-- During the handshake the connection is not open. -/
theorem not_isOpen_of_calls (h : c.calls = []) : ¬ c.IsOpen := by
  rintro ⟨hopen, -⟩
  rw [h] at hopen
  exact absurd hopen (by simp)

/-- A read of a frame is one on the endpoint on which the connection was opened. -/
theorem endpoint_of_readsFrame {op : Pending} {endpoint : WsEndpoint}
    (h : op.ReadsFrame endpoint) : op.endpoint = some endpoint := by
  cases h <;> rfl

/-- While a frame is read, the connection is on the channel endpoint exactly if its endpoint is that
one. -/
theorem onChannel_of_readsFrame {op : Pending} {endpoint : WsEndpoint}
    (hpending : c.pending = [op]) (h : op.ReadsFrame endpoint) :
    c.onChannel = endpoint.isChannel := by
  simp [WsConnection.onChannel, hpending, endpoint_of_readsFrame h]

/-- The next read is one of the same endpoint. -/
theorem Keeps.next (hstage : Stage c.pending c.member c.calls) {i : ℕ} {op op' : Pending}
    {endpoint : WsEndpoint} (hop : c.pending[i]? = some op) (hread : op.ReadsFrame endpoint)
    (hread' : op'.ReadsFrame endpoint) (hpending : c'.pending = c.pending.eraseIdx i ++ [op'])
    (hcalls : c'.calls = c.calls ∨ ∃ m, c'.calls = c.calls ++ [.onmessage m]) : Keeps c c' := by
  obtain ⟨hsingle, herase⟩ := hstage.eq_singleton hop
  rw [herase, List.nil_append] at hpending
  have honChannel : c'.onChannel = c.onChannel := by
    rw [onChannel_of_readsFrame hpending hread', onChannel_of_readsFrame hsingle hread]
  rcases hcalls with hcalls | ⟨m, hcalls⟩
  · exact ⟨by rw [hcalls], by rw [hcalls], fun _ => honChannel⟩
  · refine ⟨by simp [hcalls], ?_, fun _ => honChannel⟩
    rw [hcalls, List.forall_mem_append]
    simp [WsCall.isEnd]

/-- The handlers of an open connection have a result when an operation fails, too. -/
theorem handle_failed_ne (hmade : TimerMade server c) (i : ℕ) :
    handle server c (.failed i) ≠ some none := by
  intro hnone
  rw [handle] at hnone
  cases hop : c.pending[i]? with
  | none => simp [hop] at hnone
  | some op =>
      simp only [hop, Option.some.injEq, fail] at hnone
      cases hendpoint : op.endpoint with
      | none => simp [hendpoint] at hnone
      | some endpoint =>
          simp only [hendpoint] at hnone
          have hsome := isSome_connectionError (c := c.finish i []) hmade endpoint
          rw [hnone] at hsome
          exact absurd hsome (by simp)

/-- A connection is opened by the event that its answer has been written, and by no other. -/
theorem not_opens (h : ∀ i, e ≠ .written i) (endpoint : WsEndpoint) : ¬ c.Opens e endpoint := by
  rintro ⟨i, he, -⟩
  exact h i he

/-- A step that opens no connection makes no client. -/
theorem clientsMade_of_not_opens (h : ∀ endpoint, ¬ c.Opens e endpoint) (i : ℕ) :
    c.clientsMade i e = [] := by
  cases e with
  | written j =>
      rw [clientsMade]
      split
      · next endpoint hop => exact absurd ⟨j, rfl, hop⟩ (h endpoint)
      · rfl
  | _ => rfl

/-- A step that opens a connection makes a client if it is on the channel endpoint. -/
theorem clientsMade_of_opens {endpoint : WsEndpoint} (h : c.Opens e endpoint) (i : ℕ) :
    c.clientsMade i e = if endpoint.isChannel then [⟨i⟩] else [] := by
  obtain ⟨j, rfl, hop⟩ := h
  rw [clientsMade, hop]

/-- An event that ends a connection has a result. -/
theorem not_ends_of_undefined (hmade : TimerMade server c) (h : handle server c e = some none) :
    ¬ c.Ends e := by
  intro hends
  cases e with
  | failed i => exact handle_failed_ne hmade i h
  | received i chunk =>
      obtain ⟨op, hop, hlast⟩ := hends
      have hread : ∃ endpoint, op.ReadsFrame endpoint := by
        cases op with
        | readHead endpoint => exact ⟨endpoint, .head⟩
        | readContent length finRsvOpcode endpoint => exact ⟨endpoint, .content _ _⟩
        | _ => exact absurd hlast id
      obtain ⟨endpoint, hread⟩ := hread
      have hreads : ∀ op', c.pending[i]? = some op' → op'.ReadsFrame endpoint := by
        intro op' hop'
        obtain rfl := Option.some.inj (hop.symm.trans hop')
        exact hread
      exact handle_received_ne hmade hreads h
  | _ => exact hends

/-- A step during the handshake neither opens nor ends the connection. -/
theorem Keeps.of_handshake (hstage : Stage c.pending c.member c.calls) {i : ℕ}
    (hop : c.pending[i]? = some .readHandshake) (hcalls : c'.calls = c.calls) :
    Keeps c c' := by
  obtain ⟨hsingle, -⟩ := hstage.eq_singleton hop
  rw [hsingle] at hstage
  have hnot := not_isOpen_of_calls (hstage.of_handshake not_readsFrame_readHandshake).2
  exact ⟨by rw [hcalls], by rw [hcalls], fun hopen => absurd hopen hnot⟩

/-- **What a step has to do with the sessions** of a connection. It neither opens nor ends the
connection, or it opens it, or it ends it. -/
theorem Step.opensOrEnds (hstage : Stage c.pending c.member c.calls) (hmade : TimerMade server c)
    (h : Step server c e c') :
    (Keeps c c' ∧ ¬ c.Ends e ∧ ∀ endpoint, ¬ c.Opens e endpoint) ∨
      (∃ endpoint, c.Opens e endpoint ∧ c.calls = [] ∧ c'.IsOpen ∧
        c'.onChannel = endpoint.isChannel) ∨
      (c.Ends e ∧ (∀ endpoint, ¬ c.Opens e endpoint) ∧
        (.connectionOpen ∈ c'.calls ↔ .connectionOpen ∈ c.calls) ∧ ∃ x ∈ c'.calls, x.isEnd) := by
  have hend : ∀ {endpoint : WsEndpoint} {last : List WsCall}, EndCalls endpoint last →
      (.connectionOpen ∈ c.calls ++ last ↔ .connectionOpen ∈ c.calls) ∧
        ∃ x ∈ c.calls ++ last, x.isEnd := by
    intro endpoint last hlast
    obtain ⟨⟨x, hx, hxend⟩, -⟩ := hlast.spec
    exact ⟨mem_append_end_iff hlast, x, List.mem_append_right _ hx, hxend⟩
  cases h with
  | undefined hundefined =>
      refine Or.inl ⟨.of_calls rfl rfl, not_ends_of_undefined hmade hundefined, ?_⟩
      rintro endpoint ⟨i, rfl, hop⟩
      simp [handle, hop] at hundefined
  | queue => exact Or.inl ⟨.of_calls rfl rfl, id, not_opens (by simp)⟩
  | timerExpires => exact Or.inl ⟨.of_calls rfl rfl, id, not_opens (by simp)⟩
  | idleTimeout => exact Or.inl ⟨.of_calls rfl rfl, id, not_opens (by simp)⟩
  | sendClose => exact Or.inl ⟨.of_calls rfl rfl, id, not_opens (by simp)⟩
  | relay => exact Or.inl ⟨.of_calls rfl rfl, id, not_opens (by simp)⟩
  | handshakeFailed hop =>
      refine Or.inl ⟨.of_handshake hstage hop rfl, ?_, not_opens (by simp)⟩
      simp [Ends, hop, Pending.endpoint]
  | handshakeDropped hop rest =>
      refine Or.inl ⟨.of_handshake hstage hop rfl, ?_, not_opens (by simp)⟩
      simp [Ends, hop, Pending.ReadsLast]
  | handshakeRead hop rest endpoint =>
      refine Or.inl ⟨.of_handshake hstage hop rfl, ?_, not_opens (by simp)⟩
      simp [Ends, hop, Pending.ReadsLast]
  | @opened i endpoint hop t ht =>
      obtain ⟨hsingle, herase⟩ := hstage.eq_singleton hop
      rw [hsingle] at hstage
      obtain ⟨-, hcalls⟩ := hstage.of_handshake fun _ => not_readsFrame_writeHandshake _ _
      obtain ⟨hopen, hnone⟩ := mem_openCalls endpoint []
      rw [List.map_nil, List.append_nil] at hopen hnone
      refine Or.inr (Or.inl ⟨endpoint, ⟨i, rfl, hop⟩, hcalls, ?_, ?_⟩)
      · simp only [IsOpen, start, finish, hcalls, List.nil_append]
        exact ⟨hopen, fun x hx => (hnone x hx).1⟩
      · refine onChannel_of_readsFrame ?_ (.head : (Pending.readHead endpoint).ReadsFrame endpoint)
        simp only [start, finish, herase, List.nil_append]
  | error hop hendpoint ht =>
      exact Or.inr (Or.inr ⟨⟨_, _, hop, hendpoint⟩, not_opens (by simp), hend .error⟩)
  | again hop =>
      refine Or.inl ⟨.next hstage hop .head .head rfl (Or.inl rfl), ?_, not_opens (by simp)⟩
      simp [Ends, hop, Pending.ReadsLast]
  | unmasked hop hlen hmask ht =>
      exact Or.inr (Or.inr ⟨⟨_, hop, hlen, hmask⟩, not_opens (by simp), hend (.close _ _)⟩)
  | head hop hlen hmask =>
      refine Or.inl ⟨.next hstage hop .head (readsFrame_afterHead _ _ _) rfl (Or.inl rfl), ?_,
        not_opens (by simp)⟩
      rintro ⟨op, hop', hlast⟩
      obtain rfl := Option.some.inj (hop.symm.trans hop')
      exact hmask hlast.2
  | length hop hlen =>
      refine Or.inl ⟨.next hstage hop (.length _ _) (.content _ _) rfl (Or.inl rfl), ?_,
        not_opens (by simp)⟩
      simp [Ends, hop, Pending.ReadsLast]
  | close hop hlen hclose ht hmessage =>
      exact Or.inr (Or.inr ⟨⟨_, hop, hclose⟩, not_opens (by simp), hend (.close _ _)⟩)
  | ping hop hlen hping ht =>
      refine Or.inl
        ⟨.next hstage hop (.content _ _) .head rfl (Or.inl rfl), ?_, not_opens (by simp)⟩
      simp [Ends, hop, Pending.ReadsLast, hping]
  | message hop hlen hclose hping ht hset hmessage =>
      refine Or.inl ⟨.next hstage hop (.content _ _) .head rfl (Or.inr ⟨_, rfl⟩), ?_,
        not_opens (by simp)⟩
      simp [Ends, hop, Pending.ReadsLast, hclose]
  | ignored hop hlen hclose hping hset =>
      refine Or.inl
        ⟨.next hstage hop (.content _ _) .head rfl (Or.inl rfl), ?_, not_opens (by simp)⟩
      simp [Ends, hop, Pending.ReadsLast, hclose]

end WsConnection

/-- The program: the connections of its websocket server, and the clients that have been made. -/
structure Bot where
  conns : List WsConnection := []
  clients : List TwitchClient := []

namespace Bot

/-- The connections that are held by clients. -/
def held (b : Bot) : List ℕ :=
  b.clients.map (·.mConnection)

/-- What can happen: a connection is accepted, one of the connections takes a step, or a client
reads a `PRIVMSG`. -/
inductive Event where
  | accept
  | connection (i : ℕ) (e : WsConnection.Event)
  | privmsg (k : ℕ) (textToBeSent : Bytes)

variable (sha1 : Bytes → Vector UInt32 5) (undefinedShift : Byte → ℕ → ℕ)

/-- One step. Only the clients relay texts. -/
def step (b : Bot) : Event → Option Bot
  | .accept => some { b with conns := b.conns ++ [WsServer.accepted] }
  | .connection _ (.relay _) => none
  | .connection i e =>
      match b.conns[i]? with
      | none => none
      | some c =>
          (WsConnection.step (websocket sha1 undefinedShift) c e).map fun c' =>
            { conns := b.conns.set i c', clients := b.clients ++ c.clientsMade i e }
  | .privmsg k textToBeSent =>
      match b.clients[k]? with
      | none => none
      | some client =>
          match b.conns[client.mConnection]? with
          | none => none
          | some c =>
              (WsConnection.step (websocket sha1 undefinedShift) c
                (.relay (textToBeSent ++ [LF]))).map fun c' =>
                  { b with conns := b.conns.set client.mConnection c' }

/-- **One session for each open connection**: the clients hold the connections to the channel
endpoint that have been opened and neither closed nor errored, each of them one. -/
structure OnePerChannel (b : Bot) : Prop where
  nodup : b.held.Nodup
  mem_iff : ∀ i, i ∈ b.held ↔
    ∃ c, b.conns[i]? = some c ∧ c.IsOpen ∧ c.onChannel = true

/-- The event does not end an open connection to the channel endpoint. -/
def EndsNone (b : Bot) : Event → Prop
  | .connection i e =>
      ∀ c, b.conns[i]? = some c → c.IsOpen → c.onChannel = true → ¬ c.Ends e
  | _ => True

/-- **The invariant**: `P` says whether no client holds a connection that has ended. -/
structure Sound (b : Bot) (P : Prop) : Prop where
  stage : ∀ c ∈ b.conns, WsConnection.Stage c.pending c.member c.calls
  nodup : b.held.Nodup
  opened : ∀ i ∈ b.held, ∃ c, b.conns[i]? = some c ∧
    .connectionOpen ∈ c.calls
  onChannel_iff : ∀ i c, b.conns[i]? = some c → c.IsOpen →
    (i ∈ b.held ↔ c.onChannel = true)
  isOpen_iff : (∀ i ∈ b.held, ∀ c, b.conns[i]? = some c → c.IsOpen) ↔ P

variable {sha1 : Bytes → Vector UInt32 5} {undefinedShift : Byte → ℕ → ℕ}

/-- What a step can do: a connection is accepted, or one of them takes a step, which may make a
client. A text that a client relays is such a step of the connection that it holds. -/
theorem eq_of_step {b b' : Bot} {e : Event} (h : step sha1 undefinedShift b e = some b') :
    (e = .accept ∧ b' = { b with conns := b.conns ++ [WsServer.accepted] }) ∨
      ∃ i c c' e', b.conns[i]? = some c ∧
        WsConnection.step (websocket sha1 undefinedShift) c e' = some c' ∧
        b' = { conns := b.conns.set i c', clients := b.clients ++ c.clientsMade i e' } ∧
        (b.EndsNone e ↔ (c.IsOpen → c.onChannel = true → ¬ c.Ends e')) := by
  cases e with
  | accept => exact Or.inl ⟨rfl, (Option.some.inj h).symm⟩
  | connection i e =>
      have hconnection : ∃ c c', b.conns[i]? = some c ∧
          WsConnection.step (websocket sha1 undefinedShift) c e = some c' ∧
          b' = { conns := b.conns.set i c', clients := b.clients ++ c.clientsMade i e } := by
        cases hc : b.conns[i]? with
        | none => cases e <;> simp [step, hc] at h
        | some c =>
            cases e with
            | relay text => exact absurd h (by simp [step])
            | _ =>
                simp only [step, hc] at h
                obtain ⟨c', hc', rfl⟩ := Option.map_eq_some_iff.mp h
                exact ⟨c, c', rfl, hc', rfl⟩
      obtain ⟨c, c', hc, hc', rfl⟩ := hconnection
      refine Or.inr ⟨i, c, c', e, hc, hc', rfl, ?_⟩
      simp [EndsNone, hc]
  | privmsg k textToBeSent =>
      rw [step] at h
      split at h
      · exact absurd h (by simp)
      · next client hclient =>
          split at h
          · exact absurd h (by simp)
          · next c hc =>
              obtain ⟨c', hc', rfl⟩ := Option.map_eq_some_iff.mp h
              refine Or.inr ⟨_, c, c', _, hc, hc', ?_, ?_⟩
              · simp [WsConnection.clientsMade]
              · exact iff_of_true trivial fun _ _ => id

/-- The connections that are held: those that the clients before held, and those of the clients that
have been made. -/
theorem held_append (b : Bot) (conns : List WsConnection) (made : List TwitchClient) :
    held { conns := conns, clients := b.clients ++ made } =
      b.held ++ made.map (·.mConnection) :=
  List.map_append

/-- A connection that is held has been opened. -/
theorem Sound.mem_calls {b : Bot} {P : Prop} (h : b.Sound P) {i : ℕ} {c : WsConnection}
    (hc : b.conns[i]? = some c) (hi : i ∈ b.held) : .connectionOpen ∈ c.calls := by
  obtain ⟨x, hx, hopen⟩ := h.opened i hi
  obtain rfl := Option.some.inj (hx.symm.trans hc)
  exact hopen

/-- **The connection `i` takes a step**, and the clients in `made` are made. What the invariant
says of the other connections does not change. -/
theorem Sound.set {b b' : Bot} {P Q : Prop} (h : b.Sound P) {i : ℕ} {c c' : WsConnection}
    (hc : b.conns[i]? = some c) (hconns : b'.conns = b.conns.set i c')
    (hstage : WsConnection.Stage c'.pending c'.member c'.calls) (hnodup : b'.held.Nodup)
    (hheld : ∀ j, j ≠ i → (j ∈ b'.held ↔ j ∈ b.held))
    (hopened : i ∈ b'.held → .connectionOpen ∈ c'.calls)
    (hchannel : c'.IsOpen → (i ∈ b'.held ↔ c'.onChannel = true))
    (hQ : (i ∈ b'.held → c'.IsOpen) ↔ (i ∈ b.held → c.IsOpen) ∧ Q) : b'.Sound (P ∧ Q) := by
  have hself : b'.conns[i]? = some c' := by
    rw [hconns]
    exact List.getElem?_set_self (List.getElem?_eq_some_iff.mp hc).1
  have hother : ∀ j, j ≠ i → b'.conns[j]? = b.conns[j]? := by
    intro j hj
    rw [hconns]
    exact List.getElem?_set_ne hj.symm
  refine ⟨?_, hnodup, ?_, ?_, ?_⟩
  · intro x hx
    rw [hconns] at hx
    rcases List.mem_or_eq_of_mem_set hx with hx | rfl
    · exact h.stage x hx
    · exact hstage
  · intro j hj
    by_cases hji : j = i
    · subst hji
      exact ⟨c', hself, hopened hj⟩
    · rw [hother j hji]
      exact h.opened j ((hheld j hji).mp hj)
  · intro j x hx hopen
    by_cases hji : j = i
    · subst hji
      obtain rfl := Option.some.inj (hself.symm.trans hx)
      exact hchannel hopen
    · rw [hheld j hji]
      exact h.onChannel_iff j x ((hother j hji).symm.trans hx) hopen
  · -- both sides speak of the connection `i` and of the other ones
    have hsplit : ∀ {b₁ : Bot} {c₁ : WsConnection}, b₁.conns[i]? = some c₁ →
        ((∀ j ∈ b₁.held, ∀ x, b₁.conns[j]? = some x → x.IsOpen) ↔
          (i ∈ b₁.held → c₁.IsOpen) ∧
            ∀ j, j ≠ i → j ∈ b₁.held → ∀ x, b₁.conns[j]? = some x → x.IsOpen) := by
      intro b₁ c₁ hc₁
      constructor
      · exact fun hall => ⟨fun hi => hall i hi c₁ hc₁, fun j _ hj x hx => hall j hj x hx⟩
      · rintro ⟨hi, hall⟩ j hj x hx
        by_cases hji : j = i
        · subst hji
          obtain rfl := Option.some.inj (hc₁.symm.trans hx)
          exact hi hj
        · exact hall j hji hj x hx
    have hrest : (∀ j, j ≠ i → j ∈ b'.held → ∀ x, b'.conns[j]? = some x → x.IsOpen) ↔
        ∀ j, j ≠ i → j ∈ b.held → ∀ x, b.conns[j]? = some x → x.IsOpen := by
      refine forall_congr' fun j => forall_congr' fun hj => ?_
      rw [hheld j hj, hother j hj]
    rw [hsplit hself, hrest, hQ, ← h.isOpen_iff, hsplit hc]
    exact and_right_comm

/-- A connection is accepted, which no client holds. -/
theorem Sound.accept {b : Bot} {P : Prop} (h : b.Sound P) :
    Sound { b with conns := b.conns ++ [WsServer.accepted] } P := by
  have hbefore : ∀ i ∈ b.held, (b.conns ++ [WsServer.accepted])[i]? = b.conns[i]? := by
    intro i hi
    obtain ⟨c, hc, -⟩ := h.opened i hi
    exact List.getElem?_append_left (List.getElem?_eq_some_iff.mp hc).1
  refine ⟨?_, h.nodup, ?_, ?_, ?_⟩
  · intro c hc
    rcases List.mem_append.mp hc with hc | hc
    · exact h.stage c hc
    · rw [List.mem_singleton.mp hc]
      exact .handshake
  · intro i hi
    obtain ⟨c, hc, hopen⟩ := h.opened i hi
    exact ⟨c, (hbefore i hi).trans hc, hopen⟩
  · intro i c hc hopen
    rw [List.getElem?_append] at hc
    split_ifs at hc
    · exact h.onChannel_iff i c hc hopen
    · have haccepted := List.mem_of_getElem? hc
      rw [List.mem_singleton.mp haccepted] at hopen
      exact absurd hopen (WsConnection.not_isOpen_of_calls rfl)
  · rw [← h.isOpen_iff]
    refine forall_congr' fun i => forall_congr' fun hi => ?_
    rw [hbefore i hi]

/-- A connection is opened: it gets a client if its endpoint is one of a channel. -/
theorem Sound.open {b : Bot} {P Q : Prop} (h : b.Sound P) {i : ℕ} {c c' : WsConnection}
    (hc : b.conns[i]? = some c) (hstage : WsConnection.Stage c'.pending c'.member c'.calls)
    (hcalls : c.calls = []) (hopen : c'.IsOpen) (hQ : Q) :
    Sound
      { conns := b.conns.set i c'
        clients := b.clients ++ if c'.onChannel then [⟨i⟩] else [] } (P ∧ Q) := by
  have hnew : i ∉ b.held := by
    intro hi
    have hmem := h.mem_calls hc hi
    rw [hcalls] at hmem
    exact absurd hmem (by simp)
  have hheld : held
      { conns := b.conns.set i c'
        clients := b.clients ++ if c'.onChannel then [⟨i⟩] else [] } =
        b.held ++ if c'.onChannel then [i] else [] := by
    rw [held_append]
    split_ifs <;> rfl
  refine h.set hc rfl hstage ?_ ?_ (fun _ => hopen.1) ?_ ?_
  · rw [hheld, List.nodup_append]
    refine ⟨h.nodup, by split_ifs <;> simp, ?_⟩
    intro j hj k hk
    split_ifs at hk
    · rw [List.mem_singleton.mp hk]
      rintro rfl
      exact hnew hj
    · exact absurd hk (by simp)
  · intro j hj
    rw [hheld]
    split_ifs <;> simp [hj]
  · intro _
    rw [hheld]
    split_ifs with hchannel <;> simp [hchannel, hnew]
  · refine iff_of_true (fun _ => hopen) ⟨fun hi => absurd hi hnew, hQ⟩

/-- One step, with the client that it makes. -/
theorem Sound.step {b b' : Bot} {P : Prop} {e : Event} (h : b.Sound P)
    (hs : step sha1 undefinedShift b e = some b') : b'.Sound (P ∧ b.EndsNone e) := by
  rcases eq_of_step hs with ⟨rfl, rfl⟩ | ⟨i, c, c', e', hc, hc', rfl, hends⟩
  · simpa [EndsNone] using h.accept
  · have hstep := (WsConnection.step_sound hc').2
    have hstage := h.stage c (List.mem_of_getElem? hc)
    rw [hends]
    rcases hstep.opensOrEnds hstage (fun htimeout => absurd htimeout (by simp [websocket])) with
      ⟨hkeeps, hnot, hopens⟩ | ⟨endpoint, hopens, hcalls, hopen, hchannel⟩ |
        ⟨hend, hopens, hopened, x, hx, hlast⟩
    · rw [WsConnection.clientsMade_of_not_opens hopens, List.append_nil]
      refine h.set hc rfl (hstage.step hstep) h.nodup (fun _ _ => Iff.rfl) ?_ ?_ ?_
      · exact fun hi => hkeeps.opened.mpr (h.mem_calls hc hi)
      · intro hopen
        rw [hkeeps.onChannel (hkeeps.isOpen_iff.mp hopen)]
        exact h.onChannel_iff i c hc (hkeeps.isOpen_iff.mp hopen)
      · rw [hkeeps.isOpen_iff]
        exact (and_iff_left fun _ _ => hnot).symm
    · rw [WsConnection.clientsMade_of_opens hopens, ← hchannel]
      exact h.open hc (hstage.step hstep) hcalls hopen
        fun hopen' => absurd hopen' (WsConnection.not_isOpen_of_calls hcalls)
    · have hclosed : ¬ c'.IsOpen := fun hopen => hopen.2 x hx hlast
      rw [WsConnection.clientsMade_of_not_opens hopens, List.append_nil]
      refine h.set hc rfl (hstage.step hstep) h.nodup (fun _ _ => Iff.rfl) ?_ ?_ ?_
      · exact fun hi => hopened.mpr (h.mem_calls hc hi)
      · exact fun hopen => absurd hopen hclosed
      · constructor
        · refine fun hall => ⟨fun hi => absurd (hall hi) hclosed, fun hopen hchannel => ?_⟩
          exact absurd (hall ((h.onChannel_iff i c hc hopen).mpr hchannel)) hclosed
        · rintro ⟨hopen, hnot⟩ hi
          have hchannel := (h.onChannel_iff i c hc (hopen hi)).mp hi
          exact absurd hend (hnot (hopen hi) hchannel)

/-- There is one session for each open connection exactly if no client holds one that has ended. -/
theorem Sound.onePerChannel {b : Bot} {P : Prop} (h : b.Sound P) : b.OnePerChannel ↔ P := by
  rw [← h.isOpen_iff]
  constructor
  · intro hone i hi c hc
    obtain ⟨x, hx, hopen, -⟩ := (hone.mem_iff i).mp hi
    obtain rfl := Option.some.inj (hx.symm.trans hc)
    exact hopen
  · intro hall
    refine ⟨h.nodup, fun i => ⟨fun hi => ?_, ?_⟩⟩
    · obtain ⟨c, hc, -⟩ := h.opened i hi
      have hopen := hall i hi c hc
      exact ⟨c, hc, hopen, (h.onChannel_iff i c hc hopen).mp hi⟩
    · rintro ⟨c, hc, hopen, hchannel⟩
      exact (h.onChannel_iff i c hc hopen).mpr hchannel

/-- At the start there is no connection and no client. -/
theorem sound_init : Sound {} True where
  stage := by simp
  nodup := List.nodup_nil
  opened := by simp [held]
  onChannel_iff := by simp
  isOpen_iff := by simp [held]

/-- **When there is one session for each open connection**: in the runs in which no connection to a
channel ends that has been opened. -/
theorem onePerChannel_iff {es : List Event} {b : Bot}
    (h : run (step sha1 undefinedShift) {} es = some b) :
    b.OnePerChannel ↔ Along (step sha1 undefinedShift) EndsNone {} es := by
  have hrun := run_invariant_along (I := Sound) (C := EndsNone)
    (fun b P e b' hb _ hs => hb.step hs) sound_init (along_of_forall (fun _ _ => trivial) _) h
  rw [hrun.onePerChannel, true_and]

/-- A connection to a channel is opened, and its client relays a text. -/
def openedChannel : List Event :=
  [.accept,
    .connection 0
      (.received 0 (ascii "GET /channel/abc HTTP/1.1\r\nsec-websocket-key: x\r\n\r\n")),
    .connection 0 (.written 0), .privmsg 0 (ascii "hi")]

/-- Then it is closed by the other side, and the client goes on. -/
def closedChannel : List Event :=
  openedChannel ++
    [.connection 0 (.received 0 [0x88, 0x80]), .connection 0 (.received 0 [0, 0, 0, 0]),
      .privmsg 0 (ascii "still there")]

/-- A channel is opened: there is one client for the one open connection, as none has ended. -/
theorem onePerChannel_openedChannel :
    ∃ b, run (step SocketServerBase.sampleSha1 fun _ _ => 0) {} openedChannel = some b ∧
      (b.OnePerChannel ↔
        Along (step SocketServerBase.sampleSha1 fun _ _ => 0) EndsNone {} openedChannel) := by
  exact ⟨_, rfl, @onePerChannel_iff _ _ openedChannel _ rfl⟩

/-- **The client is left over** when `onclose` has been called, and relays to the connection.
Nothing in the endpoint of a channel deletes the client that its `onopen` has made. -/
theorem not_onePerChannel_closedChannel :
    ∃ b, run (step SocketServerBase.sampleSha1 fun _ _ => 0) {} closedChannel = some b ∧
      b.conns.map (·.calls) = [[.connectionOpen, .onopen, .connectionClose, .onclose 0 []]] ∧
      b.clients = [⟨0⟩] ∧ ¬ b.OnePerChannel := by
  have hcalls : (run (step SocketServerBase.sampleSha1 fun _ _ => 0) {} closedChannel).map
      (fun b => (b.conns.map (·.calls), b.clients)) =
        some ([[.connectionOpen, .onopen, .connectionClose, .onclose 0 []]], [⟨0⟩]) := by
    decide +kernel
  obtain ⟨b, hrun, hb⟩ := Option.map_eq_some_iff.mp hcalls
  obtain ⟨hcalls, hclients⟩ := Prod.mk.inj hb
  refine ⟨b, hrun, hcalls, hclients, fun hone => ?_⟩
  have hheld : 0 ∈ b.held := by simp [held, hclients]
  obtain ⟨c, hc, hopen, -⟩ := (hone.mem_iff 0).mp hheld
  have hlast : [WsCall.connectionOpen, .onopen, .connectionClose, .onclose 0 []] = c.calls := by
    have hget := congrArg (·[0]?) hcalls
    simpa [hc] using hget.symm
  exact hopen.2 .connectionClose (by simp [← hlast]) rfl

end Bot

end BoostIrc
