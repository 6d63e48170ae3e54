import BoostIrc.Assembly
import BoostIrc.HeadBounds

/-!
# The Idle Timer and its Pointer

The pointer to the idle timer is set in `connection_open`. Every other function that goes through
it is called on connections that have been opened, but for one: when the answer to the handshake
cannot be written, the handler calls `connection_error`, which cancels the timer of a connection
that never had one.

## Main results

* `handle_eq_none_iff`: **which handlers have no result**, on a connection that can be reached.
* `WsServer.timerIdle_defined_iff`: when no connection of a server goes through a null pointer.
-/

open Delimiter Transition

namespace BoostIrc

namespace WsConnection

variable {server : WsServer}

/-- The timer is there from `connection_open` on, and not before. -/
def TimerExact (c : WsConnection) : Prop :=
  c.timerIdle.isSome ↔ .connectionOpen ∈ c.calls

/-- A step keeps a timer where one has been made, and makes one only when the connection is
opened. -/
theorem TimerExact.step (htimeout : 0 < server.timeoutIdle) {c c' : WsConnection} {e : Event}
    (h : TimerExact c) (hstep : Step server c e c') : TimerExact c' := by
  rcases hstep.timer with ⟨hopen, hmade⟩ | ⟨hopen, htimer⟩
  · exact iff_of_true (hmade htimeout) hopen
  · rw [TimerExact, htimer, hopen]
    exact h

/-- The handler of the handshake has a result, whatever the client has sent: `async_read_until`
has found a blank line. -/
theorem isSome_handshakeRead {c : WsConnection} (h : crlf ++ crlf <:+: c.readBuffer) :
    (handshakeRead server c).isSome := by
  obtain ⟨n, hn⟩ := Option.isSome_iff_exists.mp (isSome_firstEnd_iff.mpr h)
  obtain ⟨l, lines, hbuffer, hlf⟩ := exists_eq_of_firstEnd hn
  obtain ⟨upgrade, left, hparse, -⟩ :=
    SocketServerBase.exists_parseHandshake_eq hlf (c.readBuffer.drop n)
  rw [← hbuffer] at hparse
  rw [handshakeRead, SocketServerBase.readHandshake, hparse]
  cases hwrite : SocketServerBase.writeHandshake server.sha1 server.optEndpoint upgrade with
  | none => simp [Except.map, hwrite]
  | some x => simp [Except.map, hwrite]

/-- The handlers of the reads have a result. -/
theorem handle_received_ne_none {c : WsConnection} (hstage : Stage c.pending c.member c.calls)
    (hkept : TimerKept server c) (i : ℕ) (chunk : Bytes) :
    handle server c (.received i chunk) ≠ some none := by
  cases hop : c.pending[i]? with
  | none => simp [handle, hop]
  | some op =>
      cases hendpoint : op.endpoint with
      | none =>
          cases op with
          | readHandshake =>
              intro hnone
              rw [handle, hop] at hnone
              obtain ⟨hcomplete, hresult⟩ := Option.ite_none_right_eq_some.mp hnone
              have hblank : crlf ++ crlf <:+: chunk := by
                simpa [Pending.completes] using hcomplete
              have hsome : (handshakeRead server (c.finish i chunk)).isSome :=
                isSome_handshakeRead
                  (hblank.trans (List.suffix_append c.readBuffer chunk).isInfix)
              rw [complete] at hresult
              rw [Option.some.inj hresult] at hsome
              exact absurd hsome (by simp)
          | _ => exact absurd hendpoint (by simp [Pending.endpoint])
      | some endpoint =>
          rcases readsFrame_of_endpoint hendpoint with rfl | hread
          · simp [handle, hop, Pending.completes]
          · have hmade : TimerMade server c := hkept (hstage.connectionOpen_of_reads hop hread)
            have honly : ∀ op', c.pending[i]? = some op' → op'.ReadsFrame endpoint := by
              intro op' hop'
              obtain rfl := Option.some.inj (hop.symm.trans hop')
              exact hread
            exact handle_received_ne hmade honly

/-- While the answer to the handshake is written, the timer is not there yet. -/
theorem timerIdle_eq_none_of_answering {c : WsConnection}
    (hstage : Stage c.pending c.member c.calls) (hexact : TimerExact c) {i : ℕ}
    {endpoint : WsEndpoint} (hop : c.pending[i]? = some (.writeHandshake endpoint)) :
    c.timerIdle = none := by
  obtain ⟨hsingle, -⟩ := hstage.eq_singleton hop
  rw [hsingle] at hstage
  obtain ⟨-, hcalls⟩ := hstage.of_handshake fun _ => not_readsFrame_writeHandshake _ _
  rw [← Option.not_isSome_iff_eq_none]
  intro hsome
  exact absurd (hexact.mp hsome) (by simp [hcalls])

/-- **Which handlers have no result**: that of a write of the answer to the handshake that has
failed. -/
theorem handle_eq_none_iff (htimeout : 0 < server.timeoutIdle) {c : WsConnection}
    (hstage : Stage c.pending c.member c.calls) (hexact : TimerExact c) (e : Event) :
    handle server c e = some none ↔
      ∃ i endpoint, e = .failed i ∧ c.pending[i]? = some (.writeHandshake endpoint) := by
  have hkept : TimerKept server c := fun hopen _ => hexact.mpr hopen
  constructor
  · intro h
    cases e with
    | received i chunk => exact absurd h (handle_received_ne_none hstage hkept i chunk)
    | written i =>
        rw [handle] at h
        split at h <;> exact absurd h (by simp)
    | failed i =>
        cases hop : c.pending[i]? with
        | none => exact absurd h (by simp [handle, hop])
        | some op =>
            cases hendpoint : op.endpoint with
            | none => exact absurd h (by simp [handle, hop, fail, hendpoint])
            | some endpoint =>
                rcases readsFrame_of_endpoint hendpoint with rfl | hread
                · exact ⟨i, endpoint, rfl, hop⟩
                · have hmade : TimerMade server c :=
                    hkept (hstage.connectionOpen_of_reads hop hread)
                  have hsome := isSome_connectionError (c := c.finish i []) hmade endpoint
                  have hnone : connectionError server (c.finish i []) endpoint = none := by
                    simpa [handle, hop, fail, hendpoint] using h
                  rw [hnone] at hsome
                  exact absurd hsome (by simp)
    | timerExpires =>
        rw [handle] at h
        split at h <;> exact absurd h (by simp)
    | idleTimeout =>
        rw [handle] at h
        split at h
        · exact absurd h (by simp [sendClose_eq])
        · exact absurd h (by simp)
    | relay text =>
        obtain ⟨hopen, hresult⟩ := Option.ite_none_right_eq_some.mp h
        have hmade : TimerMade server c := hkept (hstage.connectionOpen_of_onopen hopen)
        have hsome := isSome_send hmade text (some 0) 129
        rw [Option.some.inj hresult] at hsome
        exact absurd hsome (by simp)
    | sendClose status reason =>
        obtain ⟨-, hresult⟩ := Option.ite_none_right_eq_some.mp h
        exact absurd hresult (by simp [sendClose_eq])
    | queue e => cases e <;> exact absurd h (by simp [handle])
  · rintro ⟨i, endpoint, rfl, hop⟩
    have htimer := timerIdle_eq_none_of_answering hstage hexact hop
    simp [handle, hop, fail, Pending.endpoint, connectionError, timerIdleCancel, htimeout,
      WsConnection.finish, htimer]

/-- A handler without a result leaves everything else as it was. -/
theorem eq_of_step_of_handle_none {c c' : WsConnection} {e : Event}
    (h : step server c e = some c') (hnone : handle server c e = some none) :
    c' = { c with undefined := true } := by
  obtain ⟨-, h⟩ := Option.ite_none_left_eq_some.mp h
  rw [hnone] at h
  exact (Option.some.inj h).symm

/-- A step leaves a connection defined exactly if its handler has a result. -/
theorem undefined_of_step {c c' : WsConnection} {e : Event} (h : step server c e = some c') :
    c'.undefined = false ↔ handle server c e ≠ some none := by
  obtain ⟨hdefined, -⟩ := step_sound h
  rw [step, if_neg (by simp [hdefined])] at h
  obtain ⟨r, hr, rfl⟩ := Option.map_eq_some_iff.mp h
  cases r with
  | none => simp [hr]
  | some c₁ =>
      have hstep := step_of_handle hr
      have hsame : c₁.undefined = c.undefined := by
        cases hstep with
        | undefined hnone => exact absurd (hr.symm.trans hnone) (by simp)
        | _ => rfl
      simp [hr, hsame, hdefined]

end WsConnection

/-! ### The connections of a server -/

/-- An element that has a property is replaced. -/
theorem forall_mem_set_iff {α : Type*} {p : α → Prop} {l : List α} {i : ℕ} {a : α}
    (h : l[i]? = some a) (ha : p a) (b : α) : (∀ x ∈ l.set i b, p x) ↔ (∀ x ∈ l, p x) ∧ p b := by
  obtain ⟨hi, -⟩ := List.getElem?_eq_some_iff.mp h
  constructor
  · intro hset
    refine ⟨fun x hx => ?_, hset b (List.mem_set hi b)⟩
    obtain ⟨j, hj⟩ := List.mem_iff_getElem?.mp hx
    by_cases hij : i = j
    · subst hij
      obtain rfl := Option.some.inj (h.symm.trans hj)
      exact ha
    · refine hset x (List.mem_iff_getElem?.mpr ⟨j, ?_⟩)
      rw [List.getElem?_set_ne hij, hj]
  · rintro ⟨hl, hb⟩ x hx
    rcases List.mem_or_eq_of_mem_set hx with hx | rfl
    · exact hl x hx
    · exact hb

namespace WsServer

variable {server : WsServer}

/-- The event is not the failure of a write of an answer to a handshake. -/
def AnswerWritten (conns : List WsConnection) (e : Event) : Prop :=
  ∀ i j c endpoint, e = .connection i (.failed j) → conns[i]? = some c →
    c.pending[j]? ≠ some (.writeHandshake endpoint)

/-- What holds of every connection: its stage, its timer, and that it is only the missing timer
that leaves a connection undefined. -/
structure TimerState (c : WsConnection) : Prop where
  stage : WsConnection.Stage c.pending c.member c.calls
  exact : c.TimerExact
  undefined : c.undefined = true → c.timerIdle = none

/-- **One step** of a connection keeps what is known of its timer: there is one exactly if the
connection has been opened. -/
theorem TimerState.step (htimeout : 0 < server.timeoutIdle) {c c' : WsConnection}
    {e : WsConnection.Event} (h : TimerState c) (hs : WsConnection.step server c e = some c') :
    TimerState c' := by
  have hstep := (WsConnection.step_sound hs).2
  refine ⟨h.stage.step hstep, h.exact.step htimeout hstep, fun hundefined => ?_⟩
  have hnone : WsConnection.handle server c e = some none := by
    by_contra hne
    exact absurd ((WsConnection.undefined_of_step hs).mpr hne) (by simp [hundefined])
  obtain ⟨i, endpoint, -, hop⟩ :=
    (WsConnection.handle_eq_none_iff htimeout h.stage h.exact e).mp hnone
  rw [WsConnection.eq_of_step_of_handle_none hs hnone]
  exact WsConnection.timerIdle_eq_none_of_answering h.stage h.exact hop

/-- What one step of the server makes of its connections: they stay defined exactly if it is not
an answer whose write fails. -/
theorem defined_iff_of_step (htimeout : 0 < server.timeoutIdle) {conns conns' : List WsConnection}
    {e : Event} (h : ∀ c ∈ conns, TimerState c) (hs : step server conns e = some conns') :
    (∀ c ∈ conns', c.undefined = false) ↔
      (∀ c ∈ conns, c.undefined = false) ∧ AnswerWritten conns e := by
  rcases eq_of_step hs with ⟨rfl, rfl⟩ | ⟨i, c, c', e', rfl, hget, hc', rfl⟩
  · have hwritten : AnswerWritten conns .accept := by
      intro i j c endpoint heq
      exact absurd heq (by simp)
    simp [hwritten, or_imp, forall_and, accepted]
  · have hstate := h c (List.mem_of_getElem? hget)
    have hwritten : WsConnection.handle server c e' ≠ some none ↔
        AnswerWritten conns (.connection i e') := by
      rw [ne_eq, WsConnection.handle_eq_none_iff htimeout hstate.stage hstate.exact]
      constructor
      · intro hnot i' j c' endpoint heq hget' hop
        obtain ⟨rfl, rfl⟩ := Event.connection.inj heq
        obtain rfl := Option.some.inj (hget.symm.trans hget')
        exact hnot ⟨j, endpoint, rfl, hop⟩
      · rintro hwritten ⟨j, endpoint, rfl, hop⟩
        exact hwritten i j c endpoint rfl hget hop
    rw [forall_mem_set_iff hget (WsConnection.step_sound hc').1,
      WsConnection.undefined_of_step hc', hwritten]

/-- **When no connection goes through a null pointer**, in every run of a server with a timeout:
exactly when no write of an answer to a handshake fails. A connection that does is one whose timer
was never made. -/
theorem timerIdle_defined_iff (htimeout : 0 < server.timeoutIdle) {es : List Event}
    {conns : List WsConnection} (h : run (step server) [] es = some conns) :
    ((∀ c ∈ conns, c.undefined = false) ↔ Along (step server) AnswerWritten [] es) ∧
      ∀ c ∈ conns, c.undefined = true → c.timerIdle = none := by
  have hrun := run_invariant_along
    (I := fun conns P => (∀ c ∈ conns, TimerState c) ∧ ((∀ c ∈ conns, c.undefined = false) ↔ P))
    (E := fun _ _ => True) (C := AnswerWritten) (P := True) ?_ (by simp)
    (along_of_forall (fun _ _ => trivial) _) h
  · obtain ⟨hstate, hdefined⟩ := hrun
    rw [true_and] at hdefined
    exact ⟨hdefined, fun c hc => (hstate c hc).undefined⟩
  · rintro conns P e conns' ⟨hstate, hdefined⟩ - hs
    refine ⟨fun c hc => ?_, ?_⟩
    · rcases eq_of_step hs with ⟨-, rfl⟩ | ⟨i, c₁, c', e', -, hget, hc', rfl⟩
      · rcases List.mem_append.mp hc with hc | hc
        · exact hstate c hc
        · rw [List.mem_singleton.mp hc]
          exact ⟨.handshake, by simp [WsConnection.TimerExact, accepted], by simp [accepted]⟩
      · rcases List.mem_or_eq_of_mem_set hc with hc | rfl
        · exact hstate c hc
        · exact (hstate c₁ (List.mem_of_getElem? hget)).step htimeout hc'
    · rw [defined_iff_of_step htimeout hstate hs, hdefined]

/-- A server with the echo endpoint and a timeout. -/
def idleServer : WsServer :=
  { Bot.websocket SocketServerBase.sampleSha1 fun _ _ => 0 with timeoutIdle := 5 }

/-- The client is gone before the answer has been written. -/
def unansweredRun : List Event :=
  [.accept, .connection 0 (.received 0 SocketServerBase.lowerRequest.render),
    .connection 0 (.failed 0)]

/-- The server does not survive a client that is gone before the answer. -/
theorem undefined_unansweredRun :
    ∃ conns, run (step idleServer) [] unansweredRun = some conns ∧
      ∃ c ∈ conns, c.undefined = true ∧ c.timerIdle = none := by
  have h : (run (step idleServer) [] unansweredRun).map
      (List.map fun c => (c.undefined, c.timerIdle)) = some [(true, none)] := by
    decide +kernel
  obtain ⟨conns, hrun, hconns⟩ := Option.map_eq_some_iff.mp h
  have hmem : (true, none) ∈ conns.map fun c => (c.undefined, c.timerIdle) := by
    rw [hconns]
    exact List.mem_singleton_self _
  obtain ⟨c, hc, heq⟩ := List.mem_map.mp hmem
  exact ⟨conns, hrun, c, hc, congrArg Prod.fst heq, congrArg Prod.snd heq⟩

/-- The run opens a connection, which makes its timer; it echoes a message, which resets the timer,
once for the message and once for the echo; and it is lost, which cancels the timer. -/
theorem timerIdle_defined_echoRun :
    0 < idleServer.timeoutIdle ∧
      ∃ conns, run (step idleServer) [] echoRun = some conns ∧
        conns.map WsConnection.timerIdle = [some ⟨0, 0⟩] ∧
          ((∀ c ∈ conns, c.undefined = false) ↔ Along (step idleServer) AnswerWritten [] echoRun) ∧
            ∀ c ∈ conns, c.undefined = true → c.timerIdle = none := by
  have htimeout : 0 < idleServer.timeoutIdle := by decide
  have hrun : (run (step idleServer) [] echoRun).map (List.map WsConnection.timerIdle) =
      some [some ⟨0, 0⟩] := by
    decide +kernel
  obtain ⟨conns, h, htimer⟩ := Option.map_eq_some_iff.mp hrun
  exact ⟨htimeout, conns, h, htimer, timerIdle_defined_iff htimeout h⟩

end WsServer

end BoostIrc
