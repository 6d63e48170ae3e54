import BoostIrc.Delivery

/-!
# The Endpoint of a Connection

The handshake decides which endpoint a connection is on: the first whose expression matches the
path. The captures of the match are kept in the connection (`path_match`), and every operation that
is started later is one on the same endpoint.

What a connection sends as texts is what is relayed to it, and what `onmessage` of the endpoint
answers. The endpoint of a channel answers nothing.

## Main results

* `WsConnection.OnEndpoint.step`: the endpoint and the captures belong to one match.
* `WsConnection.texts_of_step`: **what a step adds to the texts of a connection.**
* `Bot.channel_of_matches`: the name of a channel has letters and digits only.
-/

open Transition

namespace BoostIrc

/-- The payloads of the text frames. -/
def WireFrame.texts (frames : List WireFrame) : List Bytes :=
  (frames.filter fun f => f.finRsvOpcode = 129).map WireFrame.payload

/-- The texts in two parts of the frames follow each other. -/
theorem WireFrame.texts_append (frames frames' : List WireFrame) :
    WireFrame.texts (frames ++ frames') = WireFrame.texts frames ++ WireFrame.texts frames' := by
  rw [texts, List.filter_append, List.map_append]
  rfl

/-- The first ones of some frames have the first ones of their texts. -/
theorem WireFrame.texts_isPrefix {frames frames' : List WireFrame} (h : frames <+: frames') :
    WireFrame.texts frames <+: WireFrame.texts frames' := by
  obtain ⟨more, rfl⟩ := h
  rw [texts_append]
  exact List.prefix_append _ _

/-- The texts that have been sent on a connection. -/
def Connection.texts (q : Connection) : List Bytes :=
  WireFrame.texts (q.sent.map SendData.wireFrame)

namespace WsConnection

variable {server : WsServer} {c c' : WsConnection} {e : Event}

/-! ### The match of the path -/

/-- The captures that the handshake keeps, when the request has been read and an endpoint found. -/
def pathMatchRead (server : WsServer) (c : WsConnection) : Event → Option (List Bytes)
  | .received i chunk =>
      match c.pending[i]? with
      | some .readHandshake =>
          match SocketServerBase.readHandshake server.sha1 server.optEndpoint
              (c.finish i chunk).readBuffer with
          | some (.ok (some (_, pathMatch, _), _)) => some pathMatch
          | _ => none
      | _ => none
  | _ => none

/-- The captures are those of a path that the expression of the endpoint matches. -/
def Matches (server : WsServer) (pathMatch : List Bytes) (endpoint : WsEndpoint) : Prop :=
  ∃ expr path, (expr, endpoint) ∈ server.optEndpoint ∧ expr path = some pathMatch

/-- The operations under way are on the endpoint of the match. -/
def OnEndpoint (server : WsServer) (pathMatch : List Bytes) (c : WsConnection) : Prop :=
  ∀ op ∈ c.pending, ∀ endpoint, op.endpoint = some endpoint → Matches server pathMatch endpoint

/-- The endpoint that the handshake finds is that of the match. -/
theorem matches_of_readHandshake {buffer response rest : Bytes} {pathMatch : List Bytes}
    {endpoint : WsEndpoint}
    (h : SocketServerBase.readHandshake server.sha1 server.optEndpoint buffer =
      some (.ok (some (response, pathMatch, endpoint), rest))) :
    Matches server pathMatch endpoint := by
  rw [SocketServerBase.readHandshake] at h
  obtain ⟨parsed, -, h⟩ := Option.map_eq_some_iff.mp h
  cases parsed with
  | error e => exact absurd h (by simp [Except.map])
  | ok r =>
      obtain ⟨hwritten, -⟩ := Prod.mk.inj (Except.ok.inj h)
      rw [SocketServerBase.writeHandshake] at hwritten
      split at hwritten
      · exact absurd hwritten (by simp)
      · next m found hfound =>
          obtain ⟨answer, -, heq⟩ := Option.map_eq_some_iff.mp hwritten
          obtain ⟨-, hm⟩ := Prod.mk.inj heq
          obtain ⟨rfl, rfl⟩ := Prod.mk.inj hm
          obtain ⟨x, hx, hmatch⟩ := List.exists_of_findSome?_eq_some hfound
          obtain ⟨m', hm', heq⟩ := Option.map_eq_some_iff.mp hmatch
          obtain ⟨rfl, rfl⟩ := Prod.mk.inj heq
          exact ⟨x.1, r.1.path, hx, hm'⟩

/-- **What the handshake leaves under way**: nothing, or the answer to a request whose path has been
matched. -/
theorem pending_of_handshake (hstage : Stage c.pending c.member c.calls) {i : ℕ} {chunk : Bytes}
    (hop : c.pending[i]? = some .readHandshake) (hs : step server c (.received i chunk) = some c') :
    c'.pending = c.pending ∨ c'.pending = [] ∨
      ∃ pathMatch endpoint, pathMatchRead server c (.received i chunk) = some pathMatch ∧
        c'.pending = [.writeHandshake endpoint] ∧ Matches server pathMatch endpoint := by
  obtain ⟨-, herase⟩ := hstage.eq_singleton hop
  obtain ⟨-, hs⟩ := Option.ite_none_left_eq_some.mp hs
  obtain ⟨result, hresult, rfl⟩ := Option.map_eq_some_iff.mp hs
  rw [handle, hop] at hresult
  obtain ⟨-, hresult⟩ := Option.ite_none_right_eq_some.mp hresult
  obtain rfl := Option.some.inj hresult
  rw [complete, handshakeRead]
  split
  · exact Or.inr (Or.inl herase)
  · next hread =>
      refine Or.inr (Or.inr ⟨_, _, ?_, ?_, matches_of_readHandshake hread⟩)
      · simp only [pathMatchRead, hop, hread]
      · simp [start, finish, herase]
  · exact Or.inl rfl

/-- **The endpoint and the captures belong to one match**, also after a step. A step that reads the
request sets both; every other step leaves them, so a handler never sees the captures of another
endpoint's path. -/
theorem OnEndpoint.step {pathMatch : List Bytes} (h : OnEndpoint server pathMatch c)
    (hstage : Stage c.pending c.member c.calls) (hs : WsConnection.step server c e = some c') :
    OnEndpoint server ((pathMatchRead server c e).getD pathMatch) c' := by
  by_cases hhandshake : ∃ i chunk, e = .received i chunk ∧ c.pending[i]? = some .readHandshake
  · obtain ⟨i, chunk, rfl, hop⟩ := hhandshake
    obtain ⟨hsingle, -⟩ := hstage.eq_singleton hop
    rcases pending_of_handshake hstage hop hs with hsame | hnone |
      ⟨m, endpoint, hm, hpending, hmatch⟩
    · rw [OnEndpoint, hsame, hsingle]
      simp [Pending.endpoint]
    · simp [OnEndpoint, hnone]
    · rw [hm, Option.getD_some, OnEndpoint, hpending]
      simpa [Pending.endpoint] using hmatch
  · have hread : pathMatchRead server c e = none := by
      cases e with
      | received i chunk =>
          rw [pathMatchRead]
          split
          · next hop => exact absurd ⟨i, chunk, rfl, hop⟩ hhandshake
          · rfl
      | _ => rfl
    rw [hread, Option.getD_none]
    -- the next operation is on the endpoint of the one that is over
    have hnext : ∀ {i : ℕ} {op op' : Pending} {endpoint : WsEndpoint}, c.pending[i]? = some op →
        op.endpoint = some endpoint → op'.endpoint = some endpoint →
          c'.pending = c.pending.eraseIdx i ++ [op'] → OnEndpoint server pathMatch c' := by
      intro i op op' endpoint hop hendpoint hendpoint' hpending x hx
      rw [hpending, (hstage.eq_singleton hop).2, List.nil_append, List.mem_singleton] at hx
      obtain rfl := hx
      intro endpoint' h'
      obtain rfl := Option.some.inj (hendpoint'.symm.trans h')
      exact h op (List.mem_of_getElem? hop) endpoint hendpoint
    have herased : ∀ {i : ℕ} {op : Pending}, c.pending[i]? = some op →
        c'.pending = c.pending.eraseIdx i → OnEndpoint server pathMatch c' := by
      intro i op hop hpending x hx
      rw [hpending, (hstage.eq_singleton hop).2] at hx
      exact absurd hx List.not_mem_nil
    cases (step_sound hs).2 with
    | handshakeDropped hop => exact absurd ⟨_, _, rfl, hop⟩ hhandshake
    | handshakeRead hop => exact absurd ⟨_, _, rfl, hop⟩ hhandshake
    | handshakeFailed hop => exact herased hop rfl
    | opened hop => exact hnext hop rfl (endpoint_of_readsFrame .head) rfl
    | error hop => exact herased hop rfl
    | again hop => exact hnext hop rfl (endpoint_of_readsFrame .head) rfl
    | unmasked hop => exact herased hop rfl
    | head hop =>
        exact hnext hop rfl (endpoint_of_readsFrame (readsFrame_afterHead _ _ _)) rfl
    | length hop => exact hnext hop rfl (endpoint_of_readsFrame (.content _ _)) rfl
    | close hop => exact herased hop rfl
    | ping hop => exact hnext hop rfl (endpoint_of_readsFrame .head) rfl
    | message hop => exact hnext hop rfl (endpoint_of_readsFrame .head) rfl
    | ignored hop => exact hnext hop rfl (endpoint_of_readsFrame .head) rfl
    | _ => exact h

/-- Once something has been called, the handshake is over. -/
theorem pathMatchRead_eq_none (hstage : Stage c.pending c.member c.calls) (hcalls : c.calls ≠ []) :
    pathMatchRead server c e = none := by
  cases e with
  | received i chunk =>
      rw [pathMatchRead]
      split
      · next hop =>
          obtain ⟨hsingle, -⟩ := hstage.eq_singleton hop
          rw [hsingle] at hstage
          exact absurd (hstage.of_handshake not_readsFrame_readHandshake).2 hcalls
      · rfl
  | _ => rfl

/-! ### The texts of a connection -/

/-- A frame that is posted adds its payload to the texts if it is a text frame. -/
theorem texts_post (q : Connection) (d : SendData) :
    (q.post d).texts =
      q.texts ++ if d.wireFrame.finRsvOpcode = 129 then [d.messageStream] else [] := by
  rw [Connection.texts, Connection.post, List.map_append, WireFrame.texts_append]
  refine congrArg (q.texts ++ ·) ?_
  rw [List.map_singleton, WireFrame.texts, List.filter_singleton]
  split_ifs with h <;> simp_all [SendData.wireFrame]

/-- Texts that are posted join the texts of the queue. -/
theorem texts_postTexts (q : Connection) (payloads : List Bytes) :
    (postTexts q payloads).texts = q.texts ++ payloads := by
  rw [Connection.texts, sent_postTexts, List.map_append, WireFrame.texts_append]
  refine congrArg (q.texts ++ ·) ?_
  rw [List.map_map, WireFrame.texts, List.filter_eq_self.mpr ?_, List.map_map]
  · exact List.map_id payloads
  · intro f hf
    obtain ⟨p, -, rfl⟩ := List.mem_map.mp hf
    rfl

/-- A close frame adds no text. -/
theorem texts_closing (c : WsConnection) (status : ℕ) (reason : Bytes) (callback : Option ℕ) :
    (c.closing status reason callback).queue.texts = c.queue.texts := by
  rw [closing]
  split_ifs
  · rfl
  · rw [texts_post, if_neg, List.append_nil]
    simp [closeFrame, SendData.wireFrame, SocketServerBase.send, SocketServerBase.header]

/-- The answer to a ping has an opcode other than that of a text. -/
theorem pong_ne {finRsvOpcode : Byte} (h : finRsvOpcode &&& 0x0f = 9) : finRsvOpcode + 1 ≠ 129 := by
  intro hpong
  obtain rfl : finRsvOpcode = 128 := by
    have hsub := congrArg (· - 1) hpong
    simpa using hsub
  exact absurd h (by decide)

/-- No message is being read that the endpoint would answer. -/
def Silent (c : WsConnection) : Prop :=
  ∀ op ∈ c.pending, ∀ endpoint, op.ReadsFrame endpoint →
    ∀ onmessage, endpoint.onmessage = some onmessage → ∀ m, onmessage m = []

/-- **What a step adds to the texts of a connection** whose endpoint answers no message: nothing,
unless it relays one. -/
theorem texts_of_step (hsilent : c.Silent) (hrelay : ∀ text, e ≠ .relay text)
    (hs : step server c e = some c') : c'.queue.texts = c.queue.texts := by
  cases (step_sound hs).2 with
  | relay => exact absurd rfl (hrelay _)
  | queue hq hsend => rw [Connection.texts, Connection.sent_of_step hsend hq]; rfl
  | idleTimeout => exact texts_closing _ _ _ _
  | sendClose => exact texts_closing _ _ _ _
  | unmasked => exact texts_closing _ _ _ _
  | close => exact texts_closing _ _ _ _
  | ping hop hlen hping =>
      refine (texts_post c.queue _).trans ?_
      rw [if_neg, List.append_nil]
      exact pong_ne hping
  | message hop hlen hclose hping ht hset =>
      refine (texts_postTexts c.queue _).trans ?_
      rw [hsilent _ (List.mem_of_getElem? hop) _ (.content _ _) _ hset, List.append_nil]
  | _ => rfl

/-- During the handshake no message is read. -/
theorem silent_of_calls (hstage : Stage c.pending c.member c.calls) (hcalls : c.calls = []) :
    c.Silent := by
  intro op hop endpoint hread
  obtain ⟨i, hi⟩ := List.getElem?_of_mem hop
  have hopen := hstage.connectionOpen_of_reads hi hread
  rw [hcalls] at hopen
  exact absurd hopen List.not_mem_nil

/-- **Nothing is sent before a connection has been opened.** As long as no callback has been called,
a step leaves the texts at the queue as they are: the handshake is not written through the queue. -/
theorem texts_of_step_of_calls (hstage : Stage c.pending c.member c.calls) (hcalls : c.calls = [])
    (hs : step server c e = some c') : c'.queue.texts = c.queue.texts := by
  refine texts_of_step (silent_of_calls hstage hcalls) ?_ hs
  rintro text rfl
  cases (step_sound hs).2 with
  | relay hopen =>
      rw [hcalls] at hopen
      exact absurd hopen List.not_mem_nil
  | undefined hundefined => simp [handle, hcalls] at hundefined

/-- A text is relayed to any connection that has been opened. -/
theorem step_relay (htimeout : server.timeoutIdle = 0) (hdefined : c.undefined = false)
    (hopen : .onopen ∈ c.calls) (text : Bytes) :
    step server c (.relay text) = some { c with queue := postTexts c.queue [text] } := by
  simp [step, hdefined, handle, hopen, send, timerIdleReset, htimeout, postTexts]

/-- Without a timeout, a relay does nothing but post its text. -/
theorem eq_of_step_relay (htimeout : server.timeoutIdle = 0) {text : Bytes}
    (hs : step server c (.relay text) = some c') :
    c' = { c with queue := postTexts c.queue [text] } := by
  obtain ⟨hdefined, hstep⟩ := step_sound hs
  have hopen : .onopen ∈ c.calls := by
    obtain ⟨-, hs⟩ := Option.ite_none_left_eq_some.mp hs
    obtain ⟨result, hresult, -⟩ := Option.map_eq_some_iff.mp hs
    exact (Option.ite_none_right_eq_some.mp hresult).1
  rw [step_relay htimeout hdefined hopen] at hs
  exact (Option.some.inj hs).symm

end WsConnection

namespace Bot

variable {sha1 : Bytes → Vector UInt32 5} {undefinedShift : Byte → ℕ → ℕ}

/-- The match of a path is that of one of the two expressions. -/
theorem matches_websocket_iff {pathMatch : List Bytes} {endpoint : WsEndpoint} :
    WsConnection.Matches (websocket sha1 undefinedShift) pathMatch endpoint ↔
      (endpoint = channel ∧ ∃ path, channelPath path = some pathMatch) ∨
        (endpoint = echo ∧ ∃ path, echoPath path = some pathMatch) := by
  constructor
  · rintro ⟨expr, path, hmem, hmatch⟩
    rcases List.mem_pair.mp hmem with h | h
    · obtain ⟨rfl, rfl⟩ := Prod.mk.inj h
      exact Or.inl ⟨rfl, path, hmatch⟩
    · obtain ⟨rfl, rfl⟩ := Prod.mk.inj h
      exact Or.inr ⟨rfl, path, hmatch⟩
  · rintro (⟨rfl, path, hmatch⟩ | ⟨rfl, path, hmatch⟩)
    · exact ⟨channelPath, path, by simp [websocket], hmatch⟩
    · exact ⟨echoPath, path, by simp [websocket], hmatch⟩

/-- The endpoints that make a client are those of a channel. -/
theorem channel_of_matches {pathMatch : List Bytes} {endpoint : WsEndpoint}
    (h : WsConnection.Matches (websocket sha1 undefinedShift) pathMatch endpoint)
    (hchannel : endpoint.isChannel = true) :
    endpoint = channel ∧ ∃ path, channelPath path = some pathMatch := by
  rcases matches_websocket_iff.mp h with h | ⟨rfl, -⟩
  · exact h
  · exact absurd hchannel (by decide)

/-- A letter or a digit, as in the name of a channel. -/
def isChannelByte (b : Byte) : Bool :=
  isDigit b || (0x61 ≤ b && b ≤ 0x7A)

/-- **The name of a channel** has letters and digits only, and the path is made of it. It is not
empty, and one slash may stand behind it; every other path is not the path of a channel. -/
theorem channelPath_eq_some {path : Bytes} {pathMatch : List Bytes}
    (h : channelPath path = some pathMatch) :
    ∃ name, pathMatch = [path, name] ∧ name ≠ [] ∧ (∀ b ∈ name, isChannelByte b = true) ∧
      (path = ascii "/channel/" ++ name ∨ path = ascii "/channel/" ++ name ++ ascii "/") := by
  rw [channelPath] at h
  obtain ⟨⟨⟨rest, rfl⟩, hne, hrest⟩, hpath⟩ := Option.ite_none_right_eq_some.mp h
  rw [List.drop_left] at hne hrest hpath
  refine ⟨rest.takeWhile isChannelByte, (Option.some.inj hpath).symm, hne,
    fun b hb => List.mem_takeWhile_imp hb, ?_⟩
  have hdrop : ∀ b : Bytes, rest.drop (rest.takeWhile isChannelByte).length = b →
      rest = rest.takeWhile isChannelByte ++ b := by
    rintro b rfl
    have hprefix := List.takeWhile_prefix (l := rest) isChannelByte
    exact List.prefix_append_drop hprefix
  rcases hrest with hrest | hrest
  · left
    have hwhole := hdrop _ hrest
    rw [List.append_nil] at hwhole
    exact congrArg (ascii "/channel/" ++ ·) hwhole
  · right
    rw [List.append_assoc]
    exact congrArg (ascii "/channel/" ++ ·) (hdrop _ hrest)

end Bot

end BoostIrc
