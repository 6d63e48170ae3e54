import BoostIrc.Framing
import BoostIrc.Relay
import BoostIrc.Socket

/-!
# The Session with the IRC Server

The thread of a `twitch_client` connects to the IRC server and logs in. From then on it reads what
the server sends, in chunks, and hands it line by line to `read(line)`. What the handlers write goes
to the same socket. Here these parts are put together (`IrcSession`).

The server chooses every byte that the client reads, and parts of what it reads are written back: a
`PONG` has the parameters of the `PING`. They come from one line, so no line feed is among them, and
what is written is one line for each call of `send`.

## Main results

* `params_subset`: no byte of a parameter is made up.
* `IrcSession.lines_of_run`: **every line written has its line feed at the end, and no other**.
* `IrcSession.server_reads`: **what the IRC server reads**, however it cuts the stream.
-/

open Transition Pieces Framing

namespace BoostIrc

/-! ### No byte is made up -/

/-- A trailing parameter ends the text that it is cut from. -/
theorem cutTrailing_isSuffix {r t : Bytes} (h : cutTrailing r = some t) : t <:+ r := by
  match r with
  | [] => exact absurd h (by simp [cutTrailing])
  | [b] =>
      obtain rfl := Option.some.inj h
      exact List.nil_suffix
  | b :: a :: r =>
      rw [cutTrailing] at h
      obtain rfl := Option.some.inj h
      split_ifs
      · exact (List.suffix_cons a r).trans (List.suffix_cons b _)
      · exact List.suffix_cons b _

/-- The parameters are cut from the text behind the command. -/
theorem subset_of_takeMiddles (n : ℕ) (l : Bytes) :
    (∀ m ∈ (takeMiddles n l).1, m ⊆ l) ∧ (takeMiddles n l).2 ⊆ l := by
  have hall := takeMiddles_append n l
  constructor
  · intro m hm b hb
    rw [← hall]
    exact List.mem_append_left _
      (List.mem_flatMap.mpr ⟨m, hm, List.mem_cons_of_mem SP hb⟩)
  · intro b hb
    rw [← hall]
    exact List.mem_append_right _ hb

/-- **No byte of a parameter is made up**: all of them stand in the text. A text without a line feed
therefore has no parameter with one. -/
theorem params_subset (raw : Bytes) : ∀ p ∈ (Message.ofRaw raw).params, p ⊆ raw := by
  intro p hp
  rw [Message.ofRaw_eq] at hp
  cases hlocate : locate raw with
  | none => rw [hlocate] at hp; exact absurd hp (by simp)
  | some l =>
      rw [hlocate, Option.elim_some] at hp
      have hargs : afterWord (splitOrigin (splitTags l).2).2 <:+ raw :=
        (List.dropWhile_suffix _).trans ((splitOrigin_isSuffix _).trans
          ((splitTags_isSuffix l).trans (locateFrom_isSuffix hlocate)))
      obtain ⟨hmiddles, hrest⟩ :=
        subset_of_takeMiddles 14 (afterWord (splitOrigin (splitTags l).2).2)
      rcases List.mem_append.mp hp with hp | hp
      · exact List.Subset.trans (hmiddles p hp) hargs.subset
      · rw [List.mem_singleton.mp hp]
        cases htrailing : (split l).trailing with
        | none => simp
        | some t =>
            exact List.Subset.trans (cutTrailing_isSuffix htrailing).subset
              (List.Subset.trans hrest hargs.subset)

/-! ### What is written -/

/-- A line with its terminator, and **no line feed before it**. -/
def IsTerminated (line : Bytes) : Prop :=
  ∃ text, line = text ++ crlf ∧ LF ∉ text

/-- The lines that effects write follow each other. -/
theorem Effect.lines_append (es es' : List Effect) :
    Effect.lines (es ++ es') = Effect.lines es ++ Effect.lines es' :=
  List.filterMap_append

/-- A command and arguments without line feeds make one line with one line feed, at its end. -/
theorem isTerminated_send {cmd : Bytes} {vec : List Bytes} (hcmd : LF ∉ cmd)
    (hvec : ∀ arg ∈ vec, LF ∉ arg) : ∀ line ∈ Effect.lines (IrcClient.send cmd vec),
      IsTerminated line := by
  intro line hline
  obtain rfl := List.mem_singleton.mp hline
  refine ⟨_, rfl, ?_⟩
  have hsp : LF ∉ [SP] := by decide
  simp only [List.mem_append, not_or]
  exact ⟨⟨hcmd, hsp⟩, notMem_intercalate hsp hvec⟩

/-- The lines of a login have one line feed each, at their end. -/
theorem isTerminated_connected {mPass mNick : Bytes} (hpass : LF ∉ mPass) (hnick : LF ∉ mNick) :
    ∀ line ∈ Effect.lines (IrcClient.connected mPass mNick), IsTerminated line := by
  intro line hline
  rw [IrcClient.connected, Effect.lines_append, List.mem_append] at hline
  rcases hline with hline | hline
  · exact isTerminated_send (by decide) (by simpa using hpass) line hline
  · exact isTerminated_send (by decide) (by simpa using hnick) line hline

/-- The lines of a reply have one line feed each, at their end. -/
theorem isTerminated_reply {channel : Bytes} (hchannel : LF ∉ channel) (code : ℤ) :
    ∀ line ∈ Effect.lines (TwitchClient.reply channel code).1, IsTerminated line := by
  rw [TwitchClient.reply]
  split_ifs
  · simp [Effect.lines]
  · have hjoin : ∀ line ∈ Effect.lines (IrcClient.join (ascii "#" ++ channel)),
        IsTerminated line := by
      refine isTerminated_send (by decide) ?_
      have hhash : LF ∉ ascii "#" := by decide
      simp [hhash, hchannel]
    have hcap : ∀ raw : Bytes, LF ∉ raw →
        ∀ line ∈ Effect.lines (IrcClient.sendRaw raw), IsTerminated line := by
      intro raw hraw line hline
      exact ⟨raw, List.mem_singleton.mp hline, hraw⟩
    intro line hline
    simp only [Effect.lines_append, List.mem_append] at hline
    rcases hline with (((hline | hline) | hline) | hline) | hline
    · exact hcap _ (by decide) line hline
    · exact hcap _ (by decide) line hline
    · exact hcap _ (by decide) line hline
    · exact absurd hline List.not_mem_nil
    · exact hjoin line hline
  · simp [Effect.lines]

/-- What is written back for a `PING` is cut from its line. -/
theorem subset_of_ping {raw server server2 : Bytes}
    (h : IrcClient.dispatch (Message.ofRaw raw) = .ok (.call (.ping server server2))) :
    server ⊆ raw ∧ server2 ⊆ raw := by
  have hparams := params_subset raw
  rw [Message.ofRaw_eq] at h hparams
  cases hlocate : locate raw with
  | none =>
      rw [hlocate, Option.elim_none, IrcClient.dispatch_empty] at h
      exact absurd h (by simp)
  | some l =>
      rw [hlocate, Option.elim_some] at h hparams
      have hmiddles : ∀ m ∈ (split l).middles, m ⊆ raw := fun m hm =>
        hparams m (List.mem_append_left _ hm)
      have htrailing : (split l).trailing.getD [] ⊆ raw :=
        hparams _ (List.mem_append_right _ (List.mem_singleton_self _))
      rw [IrcClient.dispatch] at h
      split at h
      · exact absurd h (by simp)
      · rw [IrcClient.message_toMessage] at h
        split_ifs at h
        · cases hms : (split l).middles <;> simp [hms] at h
        · cases hms : (split l).middles with
          | nil =>
              obtain ⟨rfl, rfl⟩ : (split l).trailing.getD [] = server ∧ [] = server2 := by
                simpa [hms] using h
              exact ⟨htrailing, List.nil_subset _⟩
          | cons m ms =>
              obtain ⟨rfl, rfl⟩ :
                  m = server ∧ ms.headD ((split l).trailing.getD []) = server2 := by
                simpa [hms] using h
              refine ⟨hmiddles m (by simp [hms]), ?_⟩
              cases ms with
              | nil => exact htrailing
              | cons m' ms => exact hmiddles m' (by simp [hms])
        · cases hms : (split l).middles <;> simp [hms] at h
        · exact absurd h (by simp)
      · exact absurd h (by simp)

/-- **The lines written for one line** from the server. They are made of its parameters and of the
channel, and none of these has a line feed, so the only one is that of the terminator. -/
theorem isTerminated_readLine {channel raw : Bytes} {es : List Effect} (hchannel : LF ∉ channel)
    (hraw : LF ∉ raw)
    (h : IrcClient.readLine (TwitchClient.handlers channel) raw = .ok es) :
    ∀ line ∈ Effect.lines es, IsTerminated line := by
  rw [IrcClient.readLine] at h
  obtain ⟨d, hd⟩ := (IrcClient.exists_read_eq_ok_iff _).mp ⟨es, h⟩
  have hlog : ∀ msg, Effect.lines [IrcClient.logRaw msg] = [] := fun _ => rfl
  rw [IrcClient.read, hd] at h
  cases d with
  | silent => obtain rfl := Except.ok.inj h; simp [Effect.lines]
  | unhandled => obtain rfl := Except.ok.inj h; simp [hlog]
  | call c =>
      obtain rfl := Except.ok.inj h
      have hcall : ∀ line ∈ Effect.lines
          ((TwitchClient.handlers channel).invoke (Message.ofRaw raw) c).1,
            IsTerminated line := by
        cases c with
        | reply code => exact isTerminated_reply hchannel code
        | privmsg msgtarget text =>
            simp [Handlers.invoke, TwitchClient.handlers, IrcClient.handlers, Effect.lines]
        | ping server server2 =>
            obtain ⟨hserver, hserver2⟩ := subset_of_ping hd
            refine isTerminated_send (by decide) ?_
            intro arg harg hlf
            rcases List.mem_pair.mp harg with rfl | rfl
            · exact hraw (hserver hlf)
            · exact hraw (hserver2 hlf)
        | join channels keys =>
            simp [Handlers.invoke, TwitchClient.handlers, IrcClient.handlers, Effect.lines]
      intro line hline
      rw [Effect.lines_append, List.mem_append] at hline
      rcases hline with hline | hline
      · exact hcall line hline
      · split_ifs at hline
        · exact absurd hline (by simp [hlog])
        · exact absurd hline (by simp [Effect.lines])

/-- The lines written for a list of lines. -/
theorem isTerminated_outcome {channel : Bytes} (hchannel : LF ∉ channel) {ps : List Bytes}
    (hps : ∀ p ∈ ps, LF ∉ p) :
    ∀ line ∈ Effect.lines
      (Receiver.outcome (IrcClient.readLine (TwitchClient.handlers channel)) ps).1,
        IsTerminated line := by
  induction ps with
  | nil => simp [Receiver.outcome, Effect.lines]
  | cons p ps ih =>
      obtain ⟨hp, hps⟩ := List.forall_mem_cons.mp hps
      rw [Receiver.outcome]
      cases hread : IrcClient.readLine (TwitchClient.handlers channel) p with
      | error e => simp [Effect.lines]
      | ok es =>
          intro line hline
          simp only [Effect.lines_append, List.mem_append] at hline
          rcases hline with hline | hline
          · exact isTerminated_readLine hchannel hp hread line hline
          · exact ih hps line hline

/-! ### The session -/

/-- `async_write` of a line on the socket. -/
def IrcSocket.write (s : IrcSocket) (line : Bytes) : IrcSocket :=
  { s with
    sent := s.sent ++ [line]
    initiated := s.initiated ++ [⟨s.sent.length, line⟩] }

/-- What `send(raw)` does is such a write. -/
theorem IrcSocket.step_send (s : IrcSocket) (raw : Bytes) :
    IrcSocket.step s (.send raw) = some (s.write (raw ++ crlf)) := rfl

/-- How far the thread of a client is: the socket is being connected, or the server is being read,
or the socket is closed. -/
inductive IrcSession.Phase where
  | connecting
  | connected
  | closed
  deriving DecidableEq, Repr

/-- A `twitch_client` as its thread sees it: the channel of the websocket connection that it holds,
the receive loop, and the socket. -/
structure IrcSession where
  channel : Bytes
  phase : IrcSession.Phase := .connecting
  receiver : Receiver := {}
  socket : IrcSocket := {}
  deriving DecidableEq, Repr

namespace IrcSession

/-- The lines of what a handler does are handed to `async_write`. -/
def perform (s : IrcSession) (effects : List Effect) : IrcSession :=
  { s with socket := (Effect.lines effects).foldl IrcSocket.write s.socket }

/-- `read(line)` of the client. -/
def read (s : IrcSession) : Bytes → Except Fault (List Effect) :=
  IrcClient.readLine (TwitchClient.handlers s.channel)

/-- What the handlers do about a chunk. -/
def effectsOf (s : IrcSession) (chunk : Bytes) : List Effect :=
  (s.receiver.receive s.read chunk).effects.drop s.receiver.effects.length

/-- A chunk arrives. -/
def receive (s : IrcSession) (chunk : Bytes) : IrcSession :=
  { s with receiver := s.receiver.receive s.read chunk }.perform (s.effectsOf chunk)

/-- The thread runs: the socket is connected, and no exception has left a handler. -/
def IsRunning (s : IrcSession) : Prop :=
  s.phase = .connected ∧ s.receiver.fault = none

instance (s : IrcSession) : Decidable s.IsRunning :=
  inferInstanceAs (Decidable (_ ∧ _))

/-- What can happen: one of the endpoints has accepted, or none; a chunk arrives; a read fails; and
the socket goes on writing. -/
inductive Event where
  | connected (ok : Bool)
  | received (chunk : Bytes)
  | failed
  | socket (e : IrcSocket.Event)
  deriving DecidableEq, Repr

variable (mPass mNick : Bytes)

/-- One step. Only the handlers call `send`. -/
def step (s : IrcSession) : Event → Option IrcSession
  | .connected ok =>
      if s.phase = .connecting then
        some (if ok then { s with phase := .connected }.perform (IrcClient.connected mPass mNick)
          else { s with phase := .closed })
      else
        none
  | .received chunk => if s.IsRunning then some (s.receive chunk) else none
  | .failed => if s.IsRunning then some { s with phase := .closed } else none
  | .socket (.send _) => none
  | .socket e =>
      if s.IsRunning then
        (IrcSocket.step s.socket e).map fun socket => { s with socket }
      else
        none

/-- The step writes no bytes of a line while the rest of an earlier one is queued behind it. -/
def InOrder (s : IrcSession) : Event → Prop
  | .socket e => s.socket.InOrder e
  | _ => True

instance (s : IrcSession) (e : Event) : Decidable (InOrder s e) := by
  cases e <;> simp only [InOrder] <;> infer_instance

variable {mPass mNick} {s s' : IrcSession} {e : Event}

/-- The effects of a handler leave the channel alone. -/
@[simp] theorem channel_perform (s : IrcSession) (effects : List Effect) :
    (s.perform effects).channel = s.channel := rfl

/-- The effects of a handler leave the phase alone. -/
@[simp] theorem phase_perform (s : IrcSession) (effects : List Effect) :
    (s.perform effects).phase = s.phase := rfl

/-- The effects of a handler leave the receiver alone. -/
@[simp] theorem receiver_perform (s : IrcSession) (effects : List Effect) :
    (s.perform effects).receiver = s.receiver := rfl

/-- Lines are written one after the other, behind those that were sent before. -/
theorem sent_foldl_write (socket : IrcSocket) (lines : List Bytes) :
    (lines.foldl IrcSocket.write socket).sent = socket.sent ++ lines := by
  induction lines generalizing socket with
  | nil => simp
  | cons line lines ih => simp [ih, IrcSocket.write]

/-- The lines that effects write are sent behind those that were sent before. -/
@[simp] theorem sent_perform (s : IrcSession) (effects : List Effect) :
    (s.perform effects).socket.sent = s.socket.sent ++ Effect.lines effects :=
  sent_foldl_write s.socket _

/-- **What a step can do**: the client is connected or is not, a chunk is received, the read fails,
or the socket serves and ends its writes. -/
theorem eq_of_step (h : step mPass mNick s e = some s') :
    (e = .connected true ∧ s.phase = .connecting ∧
        s' = { s with phase := .connected }.perform (IrcClient.connected mPass mNick)) ∨
      (e = .connected false ∧ s.phase = .connecting ∧ s' = { s with phase := .closed }) ∨
      (∃ chunk, e = .received chunk ∧ s.IsRunning ∧ s' = s.receive chunk) ∨
      (e = .failed ∧ s.IsRunning ∧ s' = { s with phase := .closed }) ∨
      ∃ e' socket, e = .socket e' ∧ s.IsRunning ∧ (∀ raw, e' ≠ .send raw) ∧
        IrcSocket.step s.socket e' = some socket ∧ s' = { s with socket } := by
  cases e with
  | connected ok =>
      rw [step] at h
      obtain ⟨hphase, h⟩ := Option.ite_none_right_eq_some.mp h
      obtain rfl := Option.some.inj h
      cases ok with
      | true => exact Or.inl ⟨rfl, hphase, rfl⟩
      | false => exact Or.inr (Or.inl ⟨rfl, hphase, rfl⟩)
  | received chunk =>
      rw [step] at h
      obtain ⟨hrunning, h⟩ := Option.ite_none_right_eq_some.mp h
      exact Or.inr (Or.inr (Or.inl ⟨chunk, rfl, hrunning, (Option.some.inj h).symm⟩))
  | failed =>
      rw [step] at h
      obtain ⟨hrunning, h⟩ := Option.ite_none_right_eq_some.mp h
      exact Or.inr (Or.inr (Or.inr (Or.inl ⟨rfl, hrunning, (Option.some.inj h).symm⟩)))
  | socket e =>
      have hsend : ∀ raw, e ≠ .send raw := by
        rintro raw rfl
        exact absurd h (by simp [step])
      have hstep : step mPass mNick s (.socket e) =
          if s.IsRunning then (IrcSocket.step s.socket e).map fun socket => { s with socket }
          else none := by
        cases e with
        | send raw => exact absurd rfl (hsend raw)
        | _ => rfl
      rw [hstep] at h
      obtain ⟨hrunning, h⟩ := Option.ite_none_right_eq_some.mp h
      obtain ⟨socket, hsocket, rfl⟩ := Option.map_eq_some_iff.mp h
      exact Or.inr (Or.inr (Or.inr (Or.inr ⟨e, socket, rfl, hrunning, hsend, hsocket, rfl⟩)))

/-- What a chunk makes the handlers do comes behind what they have done before. -/
theorem effects_receive (h : Receiver.Consistent s.read s.receiver) (chunk : Bytes) :
    (s.receive chunk).receiver.effects = s.receiver.effects ++ s.effectsOf chunk := by
  obtain ⟨-, more, hmore⟩ := h.receive chunk
  simp only [receive, receiver_perform, effectsOf, ← hmore, List.drop_left]

/-- What is written when the lines `ps` have been delivered: the login, and the answers. -/
def linesFor (mPass mNick channel : Bytes) (ps : List Bytes) : List Bytes :=
  Effect.lines (IrcClient.connected mPass mNick) ++
    Effect.lines (Receiver.outcome (IrcClient.readLine (TwitchClient.handlers channel)) ps).1

/-- **What the state says**: the lines delivered are answered, and before the socket is connected
nothing has been delivered and nothing written. -/
structure Sound (mPass mNick channel : Bytes) (s : IrcSession) : Prop where
  channel_eq : s.channel = channel
  consistent : Receiver.Consistent s.read s.receiver
  sent : s.socket.sent = [] ∧ s.phase ≠ .connected ∧ s.receiver.effects = [] ∨
    s.phase ≠ .connecting ∧
      s.socket.sent = linesFor mPass mNick channel (s.receiver.delivered.map Prod.snd)

/-- At the start nothing has been received and nothing sent. -/
theorem sound_init (mPass mNick channel : Bytes) : Sound mPass mNick channel { channel } where
  channel_eq := rfl
  consistent := Receiver.consistent_init _
  sent := Or.inl ⟨rfl, by simp, rfl⟩

/-- The lines that are due for what has been delivered are those of the login and those that the
effects so far have written. -/
theorem Sound.linesFor_eq {channel : Bytes} (h : Sound mPass mNick channel s) :
    linesFor mPass mNick channel (s.receiver.delivered.map Prod.snd) =
      Effect.lines (IrcClient.connected mPass mNick) ++ Effect.lines s.receiver.effects := by
  have houtcome := h.consistent.outcome
  rw [IrcSession.read, h.channel_eq] at houtcome
  rw [linesFor, houtcome]

/-- **One step** keeps the session sound: what it sends are the answers to what it delivers. The
lines of the login are sent once, when the connection is made, and every other line is written for a
line of the server. -/
theorem Sound.step {channel : Bytes} (h : Sound mPass mNick channel s)
    (hs : IrcSession.step mPass mNick s e = some s') : Sound mPass mNick channel s' := by
  rcases eq_of_step hs with ⟨-, hphase, rfl⟩ | ⟨-, hphase, rfl⟩ | ⟨chunk, -, hrunning, rfl⟩ |
    ⟨-, hrunning, rfl⟩ | ⟨e', socket, -, hrunning, hsend, hsocket, rfl⟩
  · have hbefore := h.sent.resolve_right fun hsent => hsent.1 hphase
    refine ⟨h.channel_eq, h.consistent, Or.inr ⟨by simp, ?_⟩⟩
    have hlines := h.linesFor_eq
    rw [hbefore.2.2] at hlines
    simp only [sent_perform, hbefore.1, List.nil_append, receiver_perform, hlines]
    exact (List.append_nil _).symm
  · have hbefore := h.sent.resolve_right fun hsent => hsent.1 hphase
    exact ⟨h.channel_eq, h.consistent, Or.inl ⟨hbefore.1, by simp, hbefore.2.2⟩⟩
  · have hsent := (h.sent.resolve_left fun hbefore => hbefore.2.1 hrunning.1).2
    have heffects := effects_receive h.consistent chunk
    have hnext : Receiver.Consistent (s.receive chunk).read (s.receive chunk).receiver :=
      (h.consistent.receive chunk).1
    refine ⟨h.channel_eq, hnext, Or.inr ⟨by simp [receive, hrunning.1], ?_⟩⟩
    have houtcome := hnext.outcome
    rw [IrcSession.read, show (s.receive chunk).channel = channel from h.channel_eq] at houtcome
    have hlines := h.linesFor_eq
    rw [linesFor, houtcome, heffects, Effect.lines_append, ← List.append_assoc, ← hlines, ← hsent]
    exact sent_perform _ _
  · have hsent := h.sent.resolve_left fun hbefore => hbefore.2.1 hrunning.1
    exact ⟨h.channel_eq, h.consistent, Or.inr ⟨by simp, hsent.2⟩⟩
  · have hsent := h.sent.resolve_left fun hbefore => hbefore.2.1 hrunning.1
    refine ⟨h.channel_eq, h.consistent, Or.inr ⟨hsent.1, ?_⟩⟩
    rw [← hsent.2]
    exact IrcSocket.sent_of_step hsend hsocket

/-- **The invariant holds after every run.** The runs begin before the connection is made; reads and
writes may fail, and the reads may cut the stream anywhere. -/
theorem sound_run {channel : Bytes} {es : List Event}
    (hrun : run (step mPass mNick) { channel } es = some s) : Sound mPass mNick channel s :=
  run_invariant (C := fun _ _ => True) (fun _ _ _ h _ hs => h.step hs)
    (sound_init mPass mNick channel) (along_of_forall (fun _ _ => trivial) _) hrun

/-! ### What the server reads -/

/-- What has been written are terminated lines. -/
theorem Sound.isTerminated {channel : Bytes} (h : Sound mPass mNick channel s)
    (hpass : LF ∉ mPass) (hnick : LF ∉ mNick) (hchannel : LF ∉ channel) :
    ∀ line ∈ s.socket.sent, IsTerminated line := by
  rcases h.sent with ⟨hsent, -⟩ | ⟨-, hsent⟩
  · simp [hsent]
  · rw [hsent]
    refine List.forall_mem_append.mpr ⟨isTerminated_connected hpass hnick, ?_⟩
    refine isTerminated_outcome hchannel fun p hp => ?_
    obtain ⟨d, hd, rfl⟩ := List.mem_map.mp hp
    exact h.consistent.lines d hd

/-- **Every line written has its line feed at the end, and no other**, whatever the server sends. So
the server reads as many lines as were sent: no text of a chat message can add a command to them. -/
theorem lines_of_run {channel : Bytes} (hpass : LF ∉ mPass) (hnick : LF ∉ mNick)
    (hchannel : LF ∉ channel) {es : List Event}
    (hrun : run (step mPass mNick) { channel } es = some s) :
    ∀ line ∈ s.socket.sent, IsTerminated line :=
  (sound_run hrun).isTerminated hpass hnick hchannel

/-- A line that has arrived with its line feed. -/
def nextLine (bytes : Bytes) : Option (Bytes × Bytes) :=
  if LF ∈ bytes then some (getline bytes) else none

/-- The next line is the text up to the first line feed, and the rest is what stands behind it. -/
theorem nextLine_eq_some {bytes line rest : Bytes} :
    nextLine bytes = some (line, rest) ↔ bytes = line ++ LF :: rest ∧ LF ∉ line := by
  rw [nextLine]
  split_ifs with hlf
  · obtain ⟨w, r, rfl, hw⟩ := List.eq_append_cons_of_mem hlf
    rw [getline_append_lf hw, Option.some.injEq, Prod.mk.injEq]
    constructor
    · rintro ⟨rfl, rfl⟩
      exact ⟨rfl, hw⟩
    · rintro ⟨h, hline⟩
      have hget := congrArg getline h
      rw [getline_append_lf hw, getline_append_lf hline] at hget
      exact Prod.mk.inj hget
  · refine iff_of_false (by simp) ?_
    rintro ⟨rfl, -⟩
    exact hlf (by simp)

/-- **The reader of lines**, as a server has one. -/
def lineReader : Reader Bytes Byte where
  next := nextLine
  shorter bytes line rest h := by
    obtain ⟨rfl, -⟩ := nextLine_eq_some.mp h
    simp
    omega
  stable bytes line rest more h := by
    obtain ⟨rfl, hline⟩ := nextLine_eq_some.mp h
    exact nextLine_eq_some.mpr ⟨by simp, hline⟩

/-- A terminated line is read without its line feed. -/
theorem reads_of_isTerminated {line : Bytes} (h : IsTerminated line) :
    lineReader.Reads line line.dropLast := by
  obtain ⟨text, rfl, htext⟩ := h
  intro rest
  refine nextLine_eq_some.mpr ⟨by simp [crlf], ?_⟩
  have hcr : LF ≠ CR := by decide
  simpa [crlf, hcr] using htext

/-- The lines are written as `send` would write them. -/
theorem exists_sound_foldl_write {socket : IrcSocket} {left : List Bytes} {k : ℕ}
    (h : IrcSocket.Sound socket left k) {lines : List Bytes}
    (hlines : ∀ line ∈ lines, IsTerminated line) :
    IrcSocket.Sound (lines.foldl IrcSocket.write socket) (left ++ lines) k := by
  induction lines generalizing socket left with
  | nil => rwa [List.append_nil]
  | cons line lines ih =>
      obtain ⟨⟨raw, rfl, -⟩, hrest⟩ := List.forall_mem_cons.mp hlines
      have hnext := ih (h.send raw) hrest
      rwa [List.append_assoc] at hnext

/-- **The bytes on the wire** are those of the lines, as long as every step is in order. A step is
in order if no write overtakes a line that is still being written; this is the condition under which
a socket is sound. -/
theorem exists_wire_eq {channel : Bytes} (hpass : LF ∉ mPass) (hnick : LF ∉ mNick)
    (hchannel : LF ∉ channel) {es : List Event}
    (horder : Along (step mPass mNick) InOrder { channel } es)
    (hrun : run (step mPass mNick) { channel } es = some s) :
    Sound mPass mNick channel s ∧ ∃ left k, IrcSocket.Sound s.socket left k := by
  refine run_invariant (C := InOrder)
    (I := fun s => Sound mPass mNick channel s ∧ ∃ left k, IrcSocket.Sound s.socket left k)
    ?_ ⟨sound_init mPass mNick channel, [], 0, IrcSocket.sound_init⟩ horder hrun
  rintro s e s' ⟨h, left, k, hsocket⟩ horder hs
  have hnext := h.step hs
  refine ⟨hnext, ?_⟩
  have hlines := hnext.isTerminated hpass hnick hchannel
  rcases eq_of_step hs with ⟨-, -, rfl⟩ | ⟨-, -, rfl⟩ | ⟨chunk, -, -, rfl⟩ | ⟨-, -, rfl⟩ |
    ⟨e', socket, rfl, -, -, hstep, rfl⟩
  · rw [sent_perform] at hlines
    exact ⟨_, k, exists_sound_foldl_write hsocket
      fun line hline => hlines line (List.mem_append_right _ hline)⟩
  · exact ⟨left, k, hsocket⟩
  · rw [receive, sent_perform] at hlines
    exact ⟨_, k, exists_sound_foldl_write hsocket
      fun line hline => hlines line (List.mem_append_right _ hline)⟩
  · exact ⟨left, k, hsocket⟩
  · exact hsocket.step horder hstep

/-- **What the IRC server reads**, however it cuts the stream, and whatever it has sent: the login
and the answers to the lines delivered, one line for each, from the first on. It reads all of them
when nothing is left to write. -/
theorem server_reads {channel : Bytes} (hpass : LF ∉ mPass) (hnick : LF ∉ mNick)
    (hchannel : LF ∉ channel) {es : List Event}
    (horder : Along (step mPass mNick) InOrder { channel } es)
    (hrun : run (step mPass mNick) { channel } es = some s) {chunks : List Bytes}
    (hchunks : chunks.flatten = s.socket.wire) :
    (lineReader.feed [] chunks).1 <+:
        (linesFor mPass mNick channel (s.receiver.delivered.map Prod.snd)).map List.dropLast ∧
      (s.phase = .connected → s.socket.unfinished = [] →
        lineReader.feed [] chunks =
          ((linesFor mPass mNick channel (s.receiver.delivered.map Prod.snd)).map List.dropLast,
            [])) := by
  obtain ⟨h, left, k, hsocket⟩ := exists_wire_eq hpass hnick hchannel horder hrun
  have hreads : ∀ line ∈ s.socket.sent, lineReader.Reads (id line) line.dropLast :=
    fun line hline => reads_of_isTerminated (h.isTerminated hpass hnick hchannel line hline)
  rw [Reader.feed_eq [] chunks rfl, List.nil_append, hchunks]
  constructor
  · have hprefix : s.socket.wire <+: s.socket.sent.flatMap id := by
      rw [List.flatMap_id]
      exact ⟨_, hsocket.wire⟩
    refine (Reader.readAll_of_isPrefix hreads hprefix).trans ?_
    rcases h.sent with ⟨hsent, -⟩ | ⟨-, hsent⟩
    · simp [hsent]
    · rw [hsent]
  · intro hconnected hunfinished
    have hsent := (h.sent.resolve_left fun hbefore => hbefore.2.1 hconnected).2
    have hleft : left = [] := by
      have hperm := hsocket.unfinished
      rw [hunfinished, List.nil_perm] at hperm
      cases left with
      | nil => rfl
      | cons x xs => exact absurd hperm (by simp [IrcSocket.numbered])
    have hwire := hsocket.wire
    rw [hleft, List.flatten_nil, List.append_nil] at hwire
    have hall := Reader.readAll_flatMap hreads []
    rw [List.append_nil, List.flatMap_id, ← hwire, Reader.readAll_nil, List.append_nil] at hall
    rw [hall, hsent]

/-- A client logs in and gets a `PING`. Its answer has yet to be written. -/
def pinged : List Event :=
  [.connected true, .socket (.serve 12), .received (ascii "PING :a\r\n"), .socket (.serve 10)]

/-- A server sends a PING, and reads the first line of the login, of which all has been written. -/
theorem server_reads_pinged :
    ∃ s, run (step (ascii "oauth") (ascii "bot")) { channel := ascii "abc" } pinged = some s ∧
      s.receiver.delivered.map Prod.snd = [ascii "PING :a\r"] ∧
      (lineReader.feed [] [ascii "PASS oau", ascii "th\r\nNICK bot\r\n"]).1 <+:
        (linesFor (ascii "oauth") (ascii "bot") (ascii "abc")
          (s.receiver.delivered.map Prod.snd)).map List.dropLast := by
  have hmap : (run (step (ascii "oauth") (ascii "bot")) { channel := ascii "abc" } pinged).map
      (fun s => (s.receiver.delivered.map Prod.snd, s.socket.wire)) =
        some ([ascii "PING :a\r"], ascii "PASS oauth\r\nNICK bot\r\n") := by
    decide +kernel
  obtain ⟨s, hrun, hs⟩ := Option.map_eq_some_iff.mp hmap
  obtain ⟨hdelivered, hwire⟩ := Prod.mk.inj hs
  refine ⟨s, hrun, hdelivered, ?_⟩
  exact (server_reads (by decide) (by decide) (by decide) (by decide +kernel) hrun
    (by rw [hwire]; rfl)).1

end IrcSession

end BoostIrc
