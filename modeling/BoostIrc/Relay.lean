import BoostIrc.Receive
import BoostIrc.SendQueue

/-!
# The Chat Relay

`twitch_client` relays the chat of a channel to a browser: lines come in from the IRC server,
and the text of a `PRIVMSG` goes out as a text frame, through the send queue of the websocket
connection. Here the parts are composed (`Relay.step`): a line arrives, in a read of its own,
and what the handler hands to the websocket server is posted to the strand; the steps of the
send queue come in between in any order.

What the relay is for is stated on the lines alone (`ChatText`, `Chat`, `Relays`): one
frame for each line `PRIVMSG <target> :<text>`, with the text and a line feed, and none for
any other line.

## Main results

* `frames_of_readLine`: what one line makes the client send to the browser.
* `Relay.sound_run`: the wire of the browser after any run.
* `Relay.exists_run`: a run in which the queue is emptied after every line.
* `relays_iff`: **when the relay does what it is for**.
-/

open Transition

namespace BoostIrc

/-! ### What one line is good for -/

/-- `read(line)` returns for this split line: its command is no number outside the range of
`int`, and if it starts like `PRIVMSG`, there is a middle parameter. -/
def Line.survived (l : Line) : Bool :=
  stoi l.command ≠ .error .outOfRange ∧ (ascii "PR" <+: l.command → l.middles ≠ [])

/-- `read(line)` returns for this text. -/
def survived (raw : Bytes) : Bool :=
  ((locate raw).map split).all Line.survived

/-- The text that the handler gets to relay, if the command starts like `PRIVMSG`: the second
parameter. -/
def Line.relayText (l : Line) : Option Bytes :=
  if ascii "PR" <+: l.command then
    match l.middles with
    | [] => none
    | _ :: ms => some (ms.headD (l.trailing.getD []))
  else
    none

/-- The text that is relayed for a text from the server. -/
def relayText (raw : Bytes) : Option Bytes :=
  ((locate raw).map split).bind Line.relayText

/-- The line throws nothing exactly if its command is no number beyond the range of an `int`, and if
it has the parameters that `privmsg` takes. -/
theorem Line.survived_iff (l : Line) :
    l.survived = true ↔
      stoi l.command ≠ .error .outOfRange ∧ (ascii "PR" <+: l.command → l.middles ≠ []) := by
  rw [Line.survived, decide_eq_true_eq]

/-- A line is survived exactly if `read(line)` returns. -/
theorem survived_iff (h : Handlers) (raw : Bytes) :
    survived raw = true ↔ ∃ es, IrcClient.readLine h raw = .ok es := by
  rw [IrcClient.readLine, IrcClient.exists_read_eq_ok_iff, Message.ofRaw_eq, survived]
  cases locate raw with
  | none => simp [IrcClient.dispatch_empty]
  | some l =>
      rw [Option.elim_some, IrcClient.exists_dispatch_eq_ok_iff, ← Line.survived_iff]
      simp

/-- A reply sends no frame to the browser: it writes to the IRC server at most. -/
theorem frames_reply (channel : Bytes) (code : ℤ) :
    Effect.frames (TwitchClient.reply channel code).1 = [] := by
  rw [TwitchClient.reply]
  split_ifs
  · rfl
  · rfl
  · rfl

/-- The frames that a call sends: `privmsg` sends its text with a line feed, and no other call sends
any. -/
theorem frames_invoke (channel : Bytes) (msg : Message) (c : Call) :
    Effect.frames ((TwitchClient.handlers channel).invoke msg c).1 =
      match c with
      | .privmsg _ text => [text ++ [LF]]
      | _ => [] := by
  cases c with
  | reply code => exact frames_reply channel code
  | privmsg msgtarget text => rfl
  | ping server server2 => rfl
  | join channels keys => rfl

/-- The frames that a dispatched message sends. -/
theorem frames_read {channel : Bytes} {msg : Message} {es : List Effect}
    (h : IrcClient.read (TwitchClient.handlers channel) msg = .ok es) {d : Dispatch}
    (hd : IrcClient.dispatch msg = .ok d) :
    Effect.frames es =
      match d with
      | .call (.privmsg _ text) => [text ++ [LF]]
      | _ => [] := by
  rw [IrcClient.read, hd] at h
  cases d with
  | silent => obtain rfl := Except.ok.inj h; rfl
  | unhandled => obtain rfl := Except.ok.inj h; rfl
  | call c =>
      obtain rfl := Except.ok.inj h
      have hlog : Effect.frames (if ((TwitchClient.handlers channel).invoke msg c).2 = true then
          [IrcClient.logRaw msg] else []) = [] := by
        split_ifs <;> rfl
      have hcall := frames_invoke channel msg c
      simp only [Effect.frames, List.filterMap_append] at hlog hcall ⊢
      rw [hlog, hcall, List.append_nil]
      cases c <;> rfl

/-- A message whose command starts like `PRIVMSG` is dispatched with its second parameter. -/
theorem dispatch_of_relayText {l : Line} {text : Bytes} (raw : Bytes)
    (h : l.relayText = some text) :
    ∃ msgtarget,
      IrcClient.dispatch (l.toMessage raw) = .ok (.call (.privmsg msgtarget text)) := by
  rw [Line.relayText] at h
  obtain ⟨hpr, h⟩ := Option.ite_none_right_eq_some.mp h
  have hdispatch : IrcClient.dispatch (l.toMessage raw) =
      IrcClient.message (l.toMessage raw) := by
    rw [IrcClient.dispatch, show (l.toMessage raw).command = l.command from rfl,
      IrcClient.stoi_of_privmsg hpr]
  rw [IrcClient.message_toMessage, if_pos hpr] at hdispatch
  cases hmiddles : l.middles with
  | nil =>
      rw [hmiddles] at h
      exact absurd h (by simp)
  | cons m ms =>
      rw [hmiddles] at h hdispatch
      obtain rfl := Option.some.inj h
      exact ⟨m, hdispatch⟩

/-- No other message is dispatched to `privmsg`. -/
theorem not_dispatch_of_relayText {l : Line} {raw msgtarget text : Bytes}
    (h : l.relayText = none) :
    IrcClient.dispatch (l.toMessage raw) ≠ .ok (.call (.privmsg msgtarget text)) := by
  intro hdispatch
  rw [IrcClient.dispatch, show (l.toMessage raw).command = l.command from rfl] at hdispatch
  rcases stoi_eq_or l.command with ⟨code, hcode⟩ | harg | hrange
  · rw [hcode] at hdispatch
    exact absurd hdispatch (by simp)
  · rw [harg] at hdispatch
    replace hdispatch : IrcClient.message (l.toMessage raw) = _ := hdispatch
    rw [IrcClient.message_toMessage] at hdispatch
    rw [Line.relayText] at h
    by_cases hpr : ascii "PR" <+: l.command
    · rw [if_pos hpr] at h hdispatch
      cases hmiddles : l.middles with
      | nil =>
          rw [hmiddles] at hdispatch
          exact absurd hdispatch (by simp)
      | cons m ms =>
          rw [hmiddles] at h
          exact absurd h (by simp)
    · rw [if_neg hpr] at hdispatch
      cases hmiddles : l.middles with
      | nil =>
          rw [hmiddles] at hdispatch
          split_ifs at hdispatch <;> exact absurd hdispatch (by simp)
      | cons m ms =>
          rw [hmiddles] at hdispatch
          split_ifs at hdispatch <;> exact absurd hdispatch (by simp)
  · rw [hrange] at hdispatch
    exact absurd hdispatch (by simp)

/-- **What one line makes the client send to the browser**: the text it relays and a line feed,
if it relays one. -/
theorem frames_of_readLine {channel raw : Bytes} {es : List Effect}
    (h : IrcClient.readLine (TwitchClient.handlers channel) raw = .ok es) :
    Effect.frames es = (relayText raw).toList.map (· ++ [LF]) := by
  obtain ⟨d, hd⟩ := (IrcClient.exists_read_eq_ok_iff _).mp ⟨es, h⟩
  have hframes := frames_read h hd
  rw [hframes]
  rw [Message.ofRaw_eq] at hd
  rw [relayText]
  cases hlocate : locate raw with
  | none =>
      rw [hlocate, Option.elim_none, IrcClient.dispatch_empty] at hd
      obtain rfl := Except.ok.inj hd
      rfl
  | some l =>
      rw [hlocate, Option.elim_some] at hd
      rw [Option.map_some, Option.bind_some]
      cases htext : (split l).relayText with
      | some text =>
          obtain ⟨msgtarget, hprivmsg⟩ := dispatch_of_relayText raw htext
          rw [hprivmsg] at hd
          obtain rfl := Except.ok.inj hd
          rfl
      | none =>
          match d with
          | .silent => rfl
          | .unhandled => rfl
          | .call (.reply _) => rfl
          | .call (.ping _ _) => rfl
          | .call (.join _ _) => rfl
          | .call (.privmsg a b) => exact absurd hd (not_dispatch_of_relayText htext)

/-! ### The two ends together -/

/-- The state of the relay: the receive loop on the one side, the connection to the browser on
the other. `arrived` records the lines. -/
structure Relay where
  arrived : List Bytes := []
  receiver : Receiver := {}
  connection : Connection := {}
  deriving DecidableEq, Repr

/-- The send of a text frame, with the callback that logs errors. -/
def relayFrame (payload : Bytes) : SendData :=
  SocketServerBase.send payload (some 0)

namespace Relay

/-- What can happen: a complete line arrives in a read of its own, or the send queue takes a
step. -/
inductive Event where
  | arrive (line : Bytes)
  | queue (e : Connection.Event)
  deriving DecidableEq, Repr

/-- The frames are posted to the strand, in order. -/
def post (c : Connection) (payloads : List Bytes) : Connection :=
  { c with
    sent := c.sent ++ payloads.map relayFrame
    posted := c.posted ++ payloads.map relayFrame }

/-- One step. Only the handlers of the IRC client call `send`. -/
def step (channel : Bytes) (s : Relay) : Event → Option Relay
  | .arrive line =>
      let r :=
        s.receiver.receive (IrcClient.readLine (TwitchClient.handlers channel)) (line ++ crlf)
      some
        { arrived := s.arrived ++ [line]
          receiver := r
          connection :=
            post s.connection (Effect.frames (r.effects.drop s.receiver.effects.length)) }
  | .queue (.send _) => none
  | .queue e => (Connection.step s.connection e).map fun c => { s with connection := c }

/-- An event that reports no error. -/
def Event.IsOk : Event → Prop
  | .arrive line => CR ∉ line ∧ LF ∉ line
  | .queue e => e.IsOk

/-- The texts relayed of a list of lines: those of the lines before the first that is not
survived. The carriage return of the terminator is a part of every line. -/
def relayed (lines : List Bytes) : List Bytes :=
  ((lines.map (· ++ [CR])).takeWhile survived).filterMap relayText

/-- **What the state says**: the receive loop has read all the lines that arrived, up to the
first it did not survive, and the frames of the texts relayed have been sent. -/
structure Sound (channel : Bytes) (s : Relay) : Prop where
  effects : Effect.frames s.receiver.effects = (relayed s.arrived).map (· ++ [LF])
  fault : s.receiver.fault = none ↔ ∀ line ∈ s.arrived, survived (line ++ [CR]) = true
  response : s.receiver.fault = none → s.receiver.response = []
  sent : s.connection.sent = (Effect.frames s.receiver.effects).map relayFrame
  connection : s.connection.Sound

/-- At the start no line has arrived, and nothing has been sent. -/
theorem sound_init (channel : Bytes) : Sound channel {} where
  effects := rfl
  fault := by simp
  response _ := rfl
  sent := rfl
  connection := Connection.sound_init

/-- What one line adds to the frames, when it is read. -/
theorem frames_outcome (channel raw : Bytes) :
    Effect.frames (Receiver.outcome (IrcClient.readLine (TwitchClient.handlers channel)) [raw]).1 =
        (([raw].takeWhile survived).filterMap relayText).map (· ++ [LF]) ∧
      ((Receiver.outcome (IrcClient.readLine (TwitchClient.handlers channel)) [raw]).2 = none ↔
        survived raw = true) := by
  have hiff := survived_iff (TwitchClient.handlers channel) raw
  rw [Receiver.outcome]
  cases hread : IrcClient.readLine (TwitchClient.handlers channel) raw with
  | ok es =>
      have hraw : survived raw = true := hiff.mpr ⟨es, hread⟩
      rw [List.takeWhile_cons_of_pos hraw, List.takeWhile_nil]
      refine ⟨?_, by simp [Receiver.outcome, hraw]⟩
      simp only [Receiver.outcome, List.append_nil, frames_of_readLine hread]
      cases htext : relayText raw <;> simp [htext]
  | error e =>
      have hraw : ¬ survived raw = true := by
        rw [hiff, hread]
        simp
      rw [List.takeWhile_cons_of_neg hraw]
      exact ⟨rfl, by simp [hraw]⟩

/-- What one line adds to the texts relayed. -/
theorem relayed_concat (lines : List Bytes) (line : Bytes) :
    relayed (lines ++ [line]) =
      if ∀ b ∈ lines, survived (b ++ [CR]) = true then
        relayed lines ++ ([line ++ [CR]].takeWhile survived).filterMap relayText
      else
        relayed lines := by
  have hall : (∀ b ∈ lines, survived (b ++ [CR]) = true) ↔
      ∀ x ∈ lines.map (· ++ [CR]), survived x = true := by simp
  rw [relayed, relayed, List.map_append, List.map_singleton]
  by_cases h : ∀ b ∈ lines, survived (b ++ [CR]) = true
  · have htake := List.takeWhile_eq_self_iff.mpr (hall.mp h)
    rw [if_pos h, List.takeWhile_append_of_pos (hall.mp h), htake, List.filterMap_append]
  · have htake : ((lines.map (· ++ [CR])).takeWhile survived).length ≠
        (lines.map (· ++ [CR])).length := by
      intro hlen
      refine h (hall.mpr (List.takeWhile_eq_self_iff.mp ?_))
      exact (List.takeWhile_prefix _).eq_of_length hlen
    rw [if_neg h, List.takeWhile_append, if_neg htake]

/-- A line arrives: if it is survived, its frame is sent behind those of the lines before it. -/
theorem Sound.arrive {channel : Bytes} {s s' : Relay} (h : Sound channel s) {line : Bytes}
    (hlf : LF ∉ line) (hstep : step channel s (.arrive line) = some s') : Sound channel s' := by
  obtain rfl := Option.some.inj hstep
  have hmem : ∀ P : Bytes → Prop, (∀ b ∈ s.arrived ++ [line], P b) ↔
      (∀ b ∈ s.arrived, P b) ∧ P line := by
    intro P
    simp [or_imp, forall_and]
  cases hfault : s.receiver.fault with
  | some e =>
      -- The thread is gone: nothing is read any more.
      have hsame : s.receiver.receive (IrcClient.readLine (TwitchClient.handlers channel))
          (line ++ crlf) = s.receiver := by
        simp [Receiver.receive, hfault]
      have hnot : ¬ ∀ b ∈ s.arrived, survived (b ++ [CR]) = true := by
        rw [← h.fault, hfault]
        simp
      simp only [hsame, List.drop_length]
      refine ⟨?_, ?_, h.response, ?_, h.connection.send _⟩
      · rw [relayed_concat, if_neg hnot]
        exact h.effects
      · rw [hmem, hfault]
        exact iff_of_false (by simp) fun hall => hnot hall.1
      · simpa [Effect.frames, post] using h.sent
  | none =>
      have hall := h.fault.mp hfault
      obtain ⟨heffects, hfault', hresponse⟩ :=
        Receiver.receive_line (IrcClient.readLine (TwitchClient.handlers channel)) hfault
          (h.response hfault) hlf
      obtain ⟨hframes, hsurvived⟩ := frames_outcome channel (line ++ [CR])
      have hold := h.effects
      simp only [Effect.frames] at hframes hold
      refine ⟨?_, ?_, ?_, ?_, h.connection.send _⟩
      · simp only [Effect.frames, heffects, List.filterMap_append, hold, hframes]
        rw [relayed_concat, if_pos hall, List.map_append]
      · simp only [hfault', hsurvived]
        rw [hmem]
        exact (and_iff_right hall).symm
      · intro hnone
        exact hresponse (hfault' ▸ hnone)
      · simp only [post, heffects, List.drop_left, h.sent, Effect.frames, List.filterMap_append,
          List.map_append]

/-- A step of the send queue is one of the connection. -/
theorem step_queue {channel : Bytes} {s : Relay} {e : Connection.Event} (he : ∀ d, e ≠ .send d) :
    step channel s (.queue e) =
      (Connection.step s.connection e).map fun c => { s with connection := c } := by
  cases e with
  | send d => exact absurd rfl (he d)
  | _ => rfl

/-- **One step without an error** keeps the relay sound: a line arrives, or the queue of the
connection takes a step. -/
theorem Sound.step {channel : Bytes} {s s' : Relay} (h : Sound channel s) {e : Event}
    (hok : e.IsOk) (hstep : Relay.step channel s e = some s') : Sound channel s' := by
  cases e with
  | arrive line => exact h.arrive hok.2 hstep
  | queue e =>
      by_cases he : ∃ d, e = .send d
      · obtain ⟨d, rfl⟩ := he
        exact absurd hstep (by simp [Relay.step])
      · have hsend : ∀ d, e ≠ .send d := fun d hd => he ⟨d, hd⟩
        rw [step_queue hsend] at hstep
        obtain ⟨c, hc, rfl⟩ := Option.map_eq_some_iff.mp hstep
        exact { h with
          sent := (Connection.sent_of_step hsend hc).trans h.sent
          connection := h.connection.step hok hc }

/-- **The invariant holds after every run without errors.** Lines arrive in any order with the tasks
and the writes of the connection. -/
theorem sound_run {channel : Bytes} {es : List Event} {s : Relay} (hok : ∀ e ∈ es, e.IsOk)
    (hrun : run (step channel) {} es = some s) : Sound channel s :=
  run_invariant (I := Sound channel) (fun _ _ _ h hok hstep => h.step hok hstep)
    (sound_init channel) (along_of_forall hok _) hrun

/-- The sends of a state: one text frame for each line that was relayed, in the order of the
lines. -/
theorem Sound.sent_eq {channel : Bytes} {s : Relay} (h : Sound channel s) :
    s.connection.sent = (relayed s.arrived).map fun text => relayFrame (text ++ [LF]) := by
  rw [h.sent, h.effects, List.map_map]
  rfl

/-- **The wire of the browser**, when nothing is left to write. There is one frame for each text
that is relayed, in the order of the lines, and nothing else. -/
theorem Sound.wire_eq {channel : Bytes} {s : Relay} (h : Sound channel s)
    (hq : s.connection.Quiescent) :
    s.connection.wire =
      (relayed s.arrived).flatMap fun text => (relayFrame (text ++ [LF])).frame := by
  rw [h.connection.wire_eq hq, h.sent_eq, List.flatMap_map]

/-! ### Emptying the queue -/

/-- A run of the connection is one of the relay. -/
theorem run_queue (channel : Bytes) {s : Relay} {es : List Connection.Event} {c : Connection}
    (hes : ∀ e ∈ es, ∀ d, e ≠ .send d) (hrun : run Connection.step s.connection es = some c) :
    run (step channel) s (es.map .queue) = some { s with connection := c } := by
  induction es generalizing s with
  | nil =>
      obtain rfl : s.connection = c := Option.some.inj hrun
      rfl
  | cons e es ih =>
      obtain ⟨c', hc', hrest⟩ := Option.bind_eq_some_iff.mp hrun
      rw [List.map_cons, run_cons, step_queue (hes e List.mem_cons_self), hc']
      exact ih (fun e' he' => hes e' (List.mem_cons_of_mem e he')) hrest

/-- One more line adds at most one text, at the end. -/
theorem exists_relayed_concat (lines : List Bytes) (line : Bytes) :
    ∃ text : Option Bytes, relayed (lines ++ [line]) = relayed lines ++ text.toList := by
  rw [relayed_concat]
  split_ifs with hall
  · by_cases hline : survived (line ++ [CR]) = true
    · refine ⟨relayText (line ++ [CR]), ?_⟩
      rw [List.takeWhile_cons_of_pos hline, List.takeWhile_nil]
      cases htext : relayText (line ++ [CR]) <;> simp [htext]
    · refine ⟨none, ?_⟩
      rw [List.takeWhile_cons_of_neg hline]
      rfl
  · exact ⟨none, (List.append_nil _).symm⟩

/-- Before a line arrives at a connection with nothing left to write, nothing is posted; after
it, at most one frame is. -/
theorem Sound.posted_arrive {channel : Bytes} {s s' : Relay} (h : Sound channel s)
    (hq : s.connection.Quiescent) {line : Bytes} (hlf : LF ∉ line)
    (hstep : Relay.step channel s (.arrive line) = some s') :
    ∃ text : Option Bytes,
      s'.connection.posted = text.toList.map fun text => relayFrame (text ++ [LF]) := by
  have h' := h.arrive hlf hstep
  obtain ⟨text, htext⟩ := exists_relayed_concat s.arrived line
  obtain rfl := Option.some.inj hstep
  refine ⟨text, ?_⟩
  have hsent := h'.sent_eq
  simp only [htext, List.map_append, ← h.sent_eq, post] at hsent ⊢
  rw [hq.posted, List.nil_append]
  exact List.append_cancel_left hsent

/-- An idle relay can write what a line made it post, and is idle again. -/
theorem exists_drain (channel : Bytes) {s : Relay} {text : Option Bytes}
    (hposted : s.connection.posted = text.toList.map fun text => relayFrame (text ++ [LF]))
    (hqueue : s.connection.sendQueue = []) (htasks : s.connection.tasks = [])
    (hwrites : s.connection.writes = []) :
    ∃ es c, (∀ e ∈ es, e.IsOk) ∧
      run (step channel) s es = some { s with connection := c } ∧ c.Quiescent := by
  cases text with
  | none => exact ⟨[], s.connection, by simp, rfl, ⟨hposted, htasks, hwrites⟩⟩
  | some text =>
      obtain ⟨c, hdrain, hc⟩ := Connection.run_drain hposted hqueue htasks hwrites
        (by simp [relayFrame, SocketServerBase.send, SocketServerBase.header])
        (by simp [relayFrame, SocketServerBase.send])
      have hsteps : ∀ e ∈ Connection.drain (relayFrame (text ++ [LF])),
          e.IsOk ∧ ∀ d, e ≠ .send d := by
        simp [Connection.drain, Connection.Event.IsOk]
      refine ⟨(Connection.drain _).map .queue, c, ?_,
        run_queue channel (fun e he => (hsteps e he).2) hdrain, hc⟩
      intro e he
      obtain ⟨e', he', rfl⟩ := List.mem_map.mp he
      exact (hsteps e' he').1

/-- **Every list of lines has a run** that ends with nothing left to write. So what is said of the
wire of a quiescent connection is said of every list. -/
theorem exists_run (channel : Bytes) {lines : List Bytes}
    (hlines : ∀ line ∈ lines, CR ∉ line ∧ LF ∉ line) :
    ∃ es s, (∀ e ∈ es, e.IsOk) ∧ run (step channel) {} es = some s ∧ s.arrived = lines ∧
      s.connection.Quiescent := by
  induction lines using List.reverseRecOn with
  | nil => exact ⟨[], {}, by simp, rfl, rfl, ⟨rfl, rfl, rfl⟩⟩
  | append_singleton lines line ih =>
      obtain ⟨es, s, hok, hrun, harrived, hq⟩ :=
        ih fun b hb => hlines b (List.mem_append_left _ hb)
      have h := sound_run hok hrun
      have hline : CR ∉ line ∧ LF ∉ line := hlines line (by simp)
      have hqueue : s.connection.sendQueue = [] := by
        by_contra hne
        exact (h.connection.chain.2.mpr hne).elim (fun ht => ht hq.tasks) fun hw => hw hq.writes
      obtain ⟨s₁, hs₁⟩ : ∃ s₁, step channel s (.arrive line) = some s₁ := ⟨_, rfl⟩
      obtain ⟨text, hposted⟩ := h.posted_arrive hq hline.2 hs₁
      obtain ⟨harrived₁, hqueue₁, htasks₁, hwrites₁⟩ : s₁.arrived = lines ++ [line] ∧
          s₁.connection.sendQueue = [] ∧ s₁.connection.tasks = [] ∧
          s₁.connection.writes = [] := by
        obtain rfl := Option.some.inj hs₁
        exact ⟨by rw [harrived], hqueue, hq.tasks, hq.writes⟩
      obtain ⟨es', c, hok', hrun', hc⟩ :=
        exists_drain channel hposted hqueue₁ htasks₁ hwrites₁
      refine ⟨es ++ .arrive line :: es', { s₁ with connection := c }, ?_, ?_, harrived₁, hc⟩
      · intro e he
        rcases List.mem_append.mp he with he | he
        · exact hok e he
        · rcases List.mem_cons.mp he with rfl | he
          · exact hline
          · exact hok' e he
      · rw [run_append_of_some hrun, run_cons, hs₁]
        exact hrun'

end Relay

/-! ### What the relay is for -/

/-- A line **carries a chat text**: it is of the form `PRIVMSG <target> :<text>`, with tags and a
prefix or without. -/
def ChatText (line text : Bytes) : Prop :=
  ∃ l : LegalLine, l.command = ascii "PRIVMSG" ∧ l.middles.length = 1 ∧
    l.trailing = some text ∧ l.render = line

/-- The chat texts of a list of lines. -/
inductive Chat : List Bytes → List Bytes → Prop
  | nil : Chat [] []
  | text {line text : Bytes} {lines texts : List Bytes} (h : ChatText line text)
      (hrest : Chat lines texts) : Chat (line :: lines) (text :: texts)
  | other {line : Bytes} {lines texts : List Bytes} (h : ∀ text, ¬ ChatText line text)
      (hrest : Chat lines texts) : Chat (line :: lines) texts

/-- **What the relay is for**: at every moment at which the queue is empty, the browser has got
one text frame for each line that carried a chat text so far, with the text and a line feed,
in the order of the lines, and nothing else. -/
def Relays (channel : Bytes) (lines : List Bytes) : Prop :=
  ∀ es s, (∀ e ∈ es, Relay.Event.IsOk e) → run (Relay.step channel) {} es = some s →
    s.arrived <+: lines → s.connection.Quiescent → ∀ texts, Chat s.arrived texts →
      s.connection.wire = texts.flatMap fun text => (relayFrame (text ++ [LF])).frame

/-- A longer payload makes a longer frame. -/
theorem frame_ne_of_length_lt {x y : Bytes} (h : x.length < y.length) :
    (relayFrame x).frame ≠ (relayFrame y).frame := by
  intro heq
  have hlen := congrArg List.length heq
  simp only [relayFrame, SocketServerBase.send, SendData.frame, SocketServerBase.header,
    SocketServerBase.lengthBytes, List.length_append, List.length_cons, apply_ite List.length,
    List.length_map, List.length_reverse, List.length_range, List.length_nil] at hlen
  split_ifs at hlen <;> omega

/-- A frame is never empty, as it has at least its header. -/
theorem frame_ne_nil (x : Bytes) : (relayFrame x).frame ≠ [] := by
  simp [relayFrame, SocketServerBase.send, SendData.frame, SocketServerBase.header]

/-- **A chat text is relayed with the carriage return of the terminator**, if it is reached. It is
reached if the receive loop has survived all the lines before. -/
theorem relayText_of_chatText {line text : Bytes} (h : ChatText line text) :
    survived (line ++ [CR]) = true ∧ relayText (line ++ [CR]) = some (text ++ [CR]) := by
  obtain ⟨l, hcommand, hlen, htrailing, rfl⟩ := h
  obtain ⟨m, hm⟩ := List.length_eq_one_iff.mp hlen
  let l' := l.withTrailing (text ++ [CR])
  have hsplit : (locate (l.render ++ [CR])).map split = some l'.toLine := by
    rw [l.render_append_of_trailing htrailing, Line.render, l'.locate_header_append,
      Option.map_some, ← Line.render, l'.split_render]
  have hpr : ascii "PR" <+: l'.command := by
    change ascii "PR" <+: l.command
    rw [hcommand]
    decide
  have hmiddles : l'.middles = [m] := hm
  rw [survived, relayText, hsplit]
  refine ⟨?_, ?_⟩
  · rw [Option.all_some, Line.survived_iff, IrcClient.stoi_of_privmsg hpr, hmiddles]
    simp
  · rw [Option.bind_some, Line.relayText, if_pos hpr, hmiddles]
    rfl

/-- For any lines there are the chat texts that they carry. -/
theorem exists_chat (lines : List Bytes) : ∃ texts, Chat lines texts := by
  induction lines with
  | nil => exact ⟨[], .nil⟩
  | cons line lines ih =>
      obtain ⟨texts, hrest⟩ := ih
      by_cases h : ∃ text, ChatText line text
      · obtain ⟨text, htext⟩ := h
        exact ⟨text :: texts, .text htext hrest⟩
      · exact ⟨texts, .other (fun text htext => h ⟨text, htext⟩) hrest⟩

/-- The chat texts of lines and of other lines behind them follow each other. -/
theorem Chat.append {lines texts lines' texts' : List Bytes} (h : Chat lines texts)
    (h' : Chat lines' texts') : Chat (lines ++ lines') (texts ++ texts') := by
  induction h with
  | nil => exact h'
  | text htext _ ih => exact .text htext ih
  | other hnone _ ih => exact .other hnone ih

/-- Where no line carries a chat text there are none. -/
theorem Chat.eq_nil {lines texts : List Bytes} (h : Chat lines texts)
    (hnone : ∀ line ∈ lines, ∀ text, ¬ ChatText line text) : texts = [] := by
  induction h with
  | nil => rfl
  | @text line text lines texts htext _ ih =>
      exact absurd htext (hnone line List.mem_cons_self text)
  | other _ _ ih => exact ih fun line hline => hnone line (List.mem_cons_of_mem _ hline)

/-- Lines that carry no chat text carry none together. -/
theorem chat_nil {lines : List Bytes} (hnone : ∀ line ∈ lines, ∀ text, ¬ ChatText line text) :
    Chat lines [] := by
  obtain ⟨texts, h⟩ := exists_chat lines
  obtain rfl := h.eq_nil hnone
  exact h

/-- More lines relay more texts, and the first ones stay what they were. -/
theorem Relay.relayed_append (lines lines' : List Bytes) :
    relayed lines <+: relayed (lines ++ lines') := by
  induction lines' using List.reverseRecOn with
  | nil => rw [List.append_nil]
  | append_singleton lines' line ih =>
      obtain ⟨text, htext⟩ := exists_relayed_concat (lines ++ lines') line
      rw [← List.append_assoc, htext]
      exact ih.trans (List.prefix_append _ _)

/-- The relay does what it is for as long as there is nothing to relay. -/
theorem relays_of_quiet (channel : Bytes) {lines : List Bytes}
    (hnone : ∀ line ∈ lines, ∀ text, ¬ ChatText line text) (hrelayed : Relay.relayed lines = []) :
    Relays channel lines := by
  rintro es s hok hrun ⟨lines', rfl⟩ hq texts hchat
  have h := Relay.sound_run hok hrun
  have hempty : Relay.relayed s.arrived = [] := by
    have := Relay.relayed_append s.arrived lines'
    rwa [hrelayed, List.prefix_nil] at this
  rw [h.wire_eq hq, hempty,
    hchat.eq_nil fun line hline => hnone line (List.mem_append_left _ hline)]

/-- The first chat text would be relayed with a carriage return behind it. -/
theorem frames_ne_of_chatText {lines : List Bytes} {line text : Bytes}
    (hempty : Relay.relayed lines = []) (htext : ChatText line text) :
    ((Relay.relayed (lines ++ [line])).flatMap fun text => (relayFrame (text ++ [LF])).frame) ≠
      (relayFrame (text ++ [LF])).frame := by
  obtain ⟨hsurvived, hrelay⟩ := relayText_of_chatText htext
  rw [Relay.relayed_concat, hempty]
  by_cases hall : ∀ b ∈ lines, survived (b ++ [CR]) = true
  · rw [if_pos hall, List.takeWhile_cons_of_pos hsurvived, List.takeWhile_nil,
      List.filterMap_cons_some hrelay]
    simp only [List.filterMap_nil, List.nil_append, List.flatMap_singleton]
    refine (frame_ne_of_length_lt ?_).symm
    simp only [List.length_append, List.length_singleton]
    omega
  · rw [if_neg hall]
    exact (frame_ne_nil _).symm

/-- Where nothing is written, nothing is relayed: each text that is relayed makes a frame, and no
frame is empty. -/
theorem relayed_eq_nil_of_frames {lines : List Bytes}
    (hframes : ((Relay.relayed lines).flatMap
      fun text => (relayFrame (text ++ [LF])).frame) = []) : Relay.relayed lines = [] := by
  cases hlines : Relay.relayed lines with
  | nil => rfl
  | cons text texts =>
      rw [hlines, List.flatMap_cons, List.append_eq_nil_iff] at hframes
      exact absurd hframes.1 (frame_ne_nil _)

/-- **Where it does what it is for, there was nothing to relay**: the first chat text would be
relayed with a carriage return behind it, and any other text is relayed that should not be. -/
theorem quiet_of_relays {channel : Bytes} {lines : List Bytes}
    (hlines : ∀ line ∈ lines, CR ∉ line ∧ LF ∉ line) (hrelays : Relays channel lines) :
    (∀ line ∈ lines, ∀ text, ¬ ChatText line text) ∧ Relay.relayed lines = [] := by
  suffices h : ∀ pre, pre <+: lines →
      (∀ line ∈ pre, ∀ text, ¬ ChatText line text) ∧ Relay.relayed pre = [] from
    h lines List.prefix_rfl
  intro pre hpre
  induction pre using List.reverseRecOn with
  | nil => exact ⟨by simp, rfl⟩
  | append_singleton pre line ih =>
      obtain ⟨hnone, hempty⟩ := ih ((List.prefix_append _ _).trans hpre)
      obtain ⟨es, s, hok, hrun, harrived, hq⟩ :=
        Relay.exists_run channel fun b hb => hlines b (hpre.subset hb)
      have hwire := (Relay.sound_run hok hrun).wire_eq hq
      have hexpected := hrelays es s hok hrun (harrived ▸ hpre) hq
      rw [harrived] at hwire hexpected
      have hline : ∀ text, ¬ ChatText line text := by
        intro text htext
        have hchat : Chat (pre ++ [line]) ([] ++ [text]) :=
          (chat_nil hnone).append (.text htext .nil)
        have heq := hwire.symm.trans (hexpected _ hchat)
        rw [List.nil_append, List.flatMap_singleton] at heq
        exact frames_ne_of_chatText hempty htext heq
      have hnone' : ∀ b ∈ pre ++ [line], ∀ text, ¬ ChatText b text := by
        intro b hb
        rcases List.mem_append.mp hb with hb | hb
        · exact hnone b hb
        · rw [List.mem_singleton.mp hb]
          exact hline
      refine ⟨hnone', relayed_eq_nil_of_frames ?_⟩
      exact hwire.symm.trans (hexpected [] (chat_nil hnone'))

/-- A line that is survived relays nothing exactly if its command does not start like
`PRIVMSG`. -/
theorem relayText_eq_none_iff {raw : Bytes} (h : survived raw = true) :
    relayText raw = none ↔ ∀ l ∈ (locate raw).map split, ¬ ascii "PR" <+: l.command := by
  rw [survived] at h
  rw [relayText]
  generalize (locate raw).map split = found at h
  cases found with
  | none => simp
  | some l =>
      rw [Option.all_some, Line.survived_iff] at h
      rw [Option.bind_some, Line.relayText]
      by_cases hpr : ascii "PR" <+: l.command
      · obtain ⟨m, ms, hm⟩ := List.exists_cons_of_ne_nil (h.2 hpr)
        simp [hpr, hm]
      · simp [hpr]

/-- Nothing is relayed exactly if no line up to the first one that throws has a command that starts
with PR. -/
theorem Relay.relayed_eq_nil_iff (lines : List Bytes) :
    relayed lines = [] ↔
      ∀ line ∈ lines.takeWhile fun line => survived (line ++ [CR]),
        ∀ l ∈ (locate (line ++ [CR])).map split, ¬ ascii "PR" <+: l.command := by
  have hmap : (lines.map (· ++ [CR])).takeWhile survived =
      (lines.takeWhile fun line => survived (line ++ [CR])).map (· ++ [CR]) := by
    rw [List.takeWhile_map]
    rfl
  rw [relayed, hmap, List.filterMap_map, List.filterMap_eq_nil_iff]
  refine forall₂_congr fun line hline => ?_
  have hsurvived : survived (line ++ [CR]) = true := by
    simpa using List.mem_takeWhile_imp hline
  exact relayText_eq_none_iff hsurvived

/-- **When the relay does what it is for**: no line carries a chat text, and none of the lines
before the first that is not survived has a command that starts like `PRIVMSG`. -/
theorem relays_iff (channel : Bytes) {lines : List Bytes}
    (hlines : ∀ line ∈ lines, CR ∉ line ∧ LF ∉ line) :
    Relays channel lines ↔
      (∀ line ∈ lines, ∀ text, ¬ ChatText line text) ∧
      ∀ line ∈ lines.takeWhile fun line => survived (line ++ [CR]),
        ∀ l ∈ (locate (line ++ [CR])).map split, ¬ ascii "PR" <+: l.command := by
  rw [← Relay.relayed_eq_nil_iff]
  exact ⟨quiet_of_relays hlines, fun h => relays_of_quiet channel h.1 h.2⟩

/-- A `PING` is relayed as it should be: not at all. -/
theorem relays_ping :
    Relays (ascii "channel") [ascii "PING :tmi.twitch.tv"] ↔
      (∀ line ∈ [ascii "PING :tmi.twitch.tv"], ∀ text, ¬ ChatText line text) ∧
      ∀ line ∈ [ascii "PING :tmi.twitch.tv"].takeWhile fun line => survived (line ++ [CR]),
        ∀ l ∈ (locate (line ++ [CR])).map split, ¬ ascii "PR" <+: l.command :=
  relays_iff (ascii "channel") (by decide)

/-- A line of chat. -/
def hello : LegalLine :=
  .ofLine
    { origin := some
        { nick := ascii "nick", user := some (ascii "user"), host := some (ascii "host") }
      command := ascii "PRIVMSG"
      middles := [ascii "#channel"]
      trailing := some (ascii "hello") } rfl

/-- A line of chat is relayed with a carriage return behind it. -/
theorem not_relays_hello : ¬ Relays (ascii "channel") [hello.render] := by
  intro h
  have hquiet := quiet_of_relays (by decide) h
  exact hquiet.1 hello.render (by simp) (ascii "hello") ⟨hello, rfl, rfl, rfl, rfl⟩

end BoostIrc
