import BoostIrc.CloseFrame
import BoostIrc.IdleTimer

/-!
# The Waits of the Idle Timer

With a timeout, a connection is closed when nothing has been sent to it and no message has come for
some time. `timer_idle_reset` cancels the wait that is under way, and starts one only if there was
one. A wait that has expired but whose handler has yet to run is not started again.

A wait could be lost in this way, or be started twice. It is neither: as long as the connection is
open there is one wait, or one that has expired, or a close frame has been sent. And when the
connection has ended no wait is under way.

## Main results

* `WsConnection.TimerStep`, `timerStep_of_step`: what a step can do with the timer.
* `WsConnection.Supervised.step`: the invariant.
* `WsServer.supervised_of_run`: **every open connection is supervised**, in every run of a server.
* `WsServer.exists_idle_close`: **no open connection stays idle**.
-/

open Transition

namespace BoostIrc

namespace WsConnection

variable {server : WsServer} {c c' : WsConnection} {e : Event}

/-- There is no timer, or one with a single wait at most. -/
def WaitsOnce (c : WsConnection) : Prop :=
  ∀ t ∈ c.timerIdle, t.waiting + t.expired ≤ 1

/-! ### Resets -/

/-- With one wait at most, a reset leaves as many. -/
theorem timerIdleReset_eq (hmade : TimerMade server c) (honce : c.WaitsOnce) :
    timerIdleReset server c = some c := by
  rw [timerIdleReset]
  split_ifs with htimeout
  · obtain ⟨t, ht⟩ := Option.isSome_iff_exists.mp (hmade htimeout)
    have hle := honce t ht
    rw [ht, Option.map_some]
    split_ifs with hwaiting
    · have hone : t.waiting = 1 := by omega
      refine congrArg some ?_
      rw [← hone, ← ht]
    · rfl
  · rfl

/-- Where one wait is under way at most, a reset puts it in its own place, so that a send leaves the
timer alone. -/
theorem send_eq (hmade : TimerMade server c) (honce : c.WaitsOnce) (messageStream : Bytes)
    (callback : Option ℕ) (finRsvOpcode : Byte) :
    send server c messageStream callback finRsvOpcode = some { c with
      queue := c.queue.post (SocketServerBase.send messageStream callback finRsvOpcode) } := by
  rw [send, timerIdleReset_eq hmade honce]
  split_ifs <;> rfl

/-- The sends of a handler leave the timer alone as well. -/
theorem sendAll_eq (hmade : TimerMade server c) (honce : c.WaitsOnce) (payloads : List Bytes) :
    sendAll server c payloads = some { c with queue := postTexts c.queue payloads } := by
  induction payloads generalizing c with
  | nil => rfl
  | cons p payloads ih =>
      rw [sendAll, List.foldlM_cons, send_eq hmade honce]
      exact ih (c := { c with queue := c.queue.post (SocketServerBase.send p (some 0)) })
        hmade honce

/-- **What a step can do with the timer** of a connection, which has the timer `timerIdle`, and is
open and closed by the server as the flags say. -/
inductive TimerStep (timerIdle : Option TimerIdle) (member closed : Bool) (c' : WsConnection) : Prop
  | keeps (htimer : c'.timerIdle = timerIdle) (hmember : c'.member = member)
      (hclosed : closed = true → c'.closed = true)
  | opens (htimer : c'.timerIdle = some ⟨1, 0⟩) (hmember : c'.member = true)
  | ends (htimer : c'.timerIdle = timerIdle.map fun t => { t with waiting := 0 })
      (hmember : c'.member = false)
  | expires (t : TimerIdle) (ht : timerIdle = some t)
      (htimer : c'.timerIdle = some ⟨0, t.expired + t.waiting⟩) (hmember : c'.member = member)
      (hclosed : c'.closed = closed)
  | closes (waiting expired : ℕ) (ht : timerIdle = some ⟨waiting, expired + 1⟩)
      (htimer : c'.timerIdle = some ⟨waiting, expired⟩) (hmember : c'.member = member)
      (hclosed : c'.closed = true)

/-! ### The handlers -/

section Handlers

variable (htimeout : 0 < server.timeoutIdle)

include htimeout

/-- `connection_close` cancels the waits under way, and takes the connection out of the set. -/
theorem timer_of_connectionClose {endpoint : WsEndpoint} {status : ℕ} {reason : Bytes}
    (h : connectionClose server c endpoint status reason = some c') :
    c'.timerIdle = (c.timerIdle.map fun t => { t with waiting := 0 }) ∧ c'.member = false := by
  obtain ⟨c₁, hcancel, h⟩ := Option.bind_eq_some_iff.mp h
  obtain rfl := Option.some.inj h
  rw [timerIdleCancel, if_pos htimeout] at hcancel
  obtain ⟨t, ht, rfl⟩ := Option.map_eq_some_iff.mp hcancel
  exact ⟨by rw [ht]; rfl, rfl⟩

/-- `connection_error` cancels the waits under way, and takes the connection out of the set. -/
theorem timer_of_connectionError {endpoint : WsEndpoint}
    (h : connectionError server c endpoint = some c') :
    c'.timerIdle = (c.timerIdle.map fun t => { t with waiting := 0 }) ∧ c'.member = false := by
  obtain ⟨c₁, hcancel, h⟩ := Option.bind_eq_some_iff.mp h
  obtain rfl := Option.some.inj h
  rw [timerIdleCancel, if_pos htimeout] at hcancel
  obtain ⟨t, ht, rfl⟩ := Option.map_eq_some_iff.mp hcancel
  exact ⟨by rw [ht]; rfl, rfl⟩

/-- What the handler of the first two bytes does with the timer: nothing, or a close. -/
theorem timerStep_headRead {endpoint : WsEndpoint} {bytesTransferred : ℕ}
    (h : headRead server c endpoint bytesTransferred = some c') :
    TimerStep c.timerIdle c.member c.closed c' := by
  rw [headRead] at h
  split_ifs at h
  · obtain rfl := Option.some.inj h
    exact .keeps rfl rfl id
  · dsimp only at h
    split_ifs at h
    · rw [sendClose_eq] at h
      obtain ⟨htimer, hmember⟩ := timer_of_connectionClose htimeout h
      exact .ends htimer hmember
    · obtain rfl := Option.some.inj h
      exact .keeps rfl rfl id

/-- What the handler of the mask and the payload does with the timer: nothing but a reset, or a
close. -/
theorem timerStep_contentRead {length : ℕ} {finRsvOpcode : Byte} {endpoint : WsEndpoint}
    (hmade : TimerMade server c) (honce : c.WaitsOnce)
    (h : contentRead server c length finRsvOpcode endpoint = some c') :
    TimerStep c.timerIdle c.member c.closed c' := by
  rw [contentRead] at h
  split_ifs at h
  · rw [sendClose_eq] at h
    obtain ⟨htimer, hmember⟩ := timer_of_connectionClose htimeout h
    exact .ends htimer hmember
  · rw [send_eq (by exact hmade) (by exact honce)] at h
    obtain rfl := Option.some.inj h
    exact .keeps rfl rfl id
  · cases hset : endpoint.onmessage with
    | none =>
        rw [hset] at h
        obtain rfl := Option.some.inj h
        exact .keeps rfl rfl id
    | some onmessage =>
        rw [hset] at h
        obtain ⟨c₁, hreset, h⟩ := Option.bind_eq_some_iff.mp h
        rw [timerIdleReset_eq (by exact hmade) (by exact honce)] at hreset
        obtain rfl := Option.some.inj hreset
        obtain ⟨c₂, hsend, h⟩ := Option.bind_eq_some_iff.mp h
        rw [sendAll_eq (by exact hmade) (by exact honce)] at hsend
        obtain rfl := Option.some.inj hsend
        obtain rfl := Option.some.inj h
        exact .keeps rfl rfl id

/-- What the handler of bytes that have been read does with the timer, by the operation under way
for which they are. -/
theorem timerStep_received (hkept : TimerKept server c)
    (hstage : Stage c.pending c.member c.calls) (honce : c.WaitsOnce) {i : ℕ} {chunk : Bytes}
    {c₁ : WsConnection} (hr : handle server c (.received i chunk) = some (some c₁)) :
    TimerStep c.timerIdle c.member c.closed c₁ := by
  rw [handle] at hr
  cases hop : c.pending[i]? with
  | none => simp [hop] at hr
  | some op =>
      simp only [hop] at hr
      obtain ⟨-, hr⟩ := Option.ite_none_right_eq_some.mp hr
      replace hr := Option.some.inj hr
      have hmade : ∀ {endpoint : WsEndpoint}, op.ReadsFrame endpoint →
          TimerMade server c := fun hread =>
        hkept (hstage.connectionOpen_of_reads hop hread)
      cases op with
      | readHandshake =>
          rw [complete, handshakeRead] at hr
          split at hr
          · obtain rfl := Option.some.inj hr
            exact .keeps rfl rfl id
          · obtain rfl := Option.some.inj hr
            exact .keeps rfl rfl id
          · exact absurd hr (by simp)
      | writeHandshake endpoint => exact absurd hr (by simp [complete])
      | readHead endpoint =>
          exact timerStep_headRead (c := c.finish i chunk) htimeout hr
      | readLength numBytes finRsvOpcode endpoint =>
          obtain rfl := Option.some.inj hr
          exact .keeps rfl rfl id
      | readContent length finRsvOpcode endpoint =>
          exact timerStep_contentRead (c := c.finish i chunk) htimeout
            (hmade (.content _ _)) honce hr

/-- What the handler of a failed operation does with the timer: nothing before the connection is
opened, and then it ends the wait. -/
theorem timerStep_failed {i : ℕ} {c₁ : WsConnection}
    (hr : handle server c (.failed i) = some (some c₁)) :
    TimerStep c.timerIdle c.member c.closed c₁ := by
  rw [handle] at hr
  cases hop : c.pending[i]? with
  | none => simp [hop] at hr
  | some op =>
      simp only [hop] at hr
      replace hr := Option.some.inj hr
      rw [fail] at hr
      split at hr
      · obtain rfl := Option.some.inj hr
        exact .keeps rfl rfl id
      · obtain ⟨htimer, hmember⟩ := timer_of_connectionError htimeout hr
        exact .ends htimer hmember

/-- **What a step can do with the timer.** It keeps it, or opens or ends the connection, or the time
is over, or the handler of an expired wait closes the connection. -/
theorem timerStep_of_step (hkept : TimerKept server c)
    (hstage : Stage c.pending c.member c.calls) (honce : c.WaitsOnce)
    (hs : step server c e = some c') : TimerStep c.timerIdle c.member c.closed c' := by
  obtain ⟨-, h⟩ := Option.ite_none_left_eq_some.mp hs
  obtain ⟨r, hr, rfl⟩ := Option.map_eq_some_iff.mp h
  cases r with
  | none => exact .keeps rfl rfl id
  | some c₁ =>
      change TimerStep c.timerIdle c.member c.closed c₁
      cases e with
      | received i chunk => exact timerStep_received htimeout hkept hstage honce hr
      | written i =>
          rw [handle] at hr
          split at hr
          · obtain rfl := Option.some.inj (Option.some.inj hr)
            refine .opens ?_ rfl
            rw [handshakeWritten, start, connectionOpen, timerIdleInit, if_pos htimeout]
          · exact absurd hr (by simp)
      | failed i => exact timerStep_failed htimeout hr
      | timerExpires =>
          rw [handle] at hr
          split at hr
          · next n expired ht =>
              obtain rfl := Option.some.inj (Option.some.inj hr)
              exact .expires ⟨n + 1, expired⟩ ht rfl rfl rfl
          · exact absurd hr (by simp)
      | idleTimeout =>
          rw [handle] at hr
          split at hr
          · next waiting n ht =>
              rw [sendClose_eq] at hr
              obtain rfl := Option.some.inj (Option.some.inj hr)
              exact .closes waiting n ht rfl rfl rfl
          · exact absurd hr (by simp)
      | relay text =>
          obtain ⟨hopen, hr⟩ := Option.ite_none_right_eq_some.mp hr
          have hmade : TimerMade server c := hkept (hstage.connectionOpen_of_onopen hopen)
          rw [send_eq hmade honce] at hr
          obtain rfl := Option.some.inj (Option.some.inj hr)
          exact .keeps rfl rfl id
      | sendClose status reason =>
          obtain ⟨-, hr⟩ := Option.ite_none_right_eq_some.mp hr
          rw [sendClose_eq] at hr
          obtain rfl := Option.some.inj (Option.some.inj hr)
          exact .keeps rfl rfl fun _ => rfl
      | queue e =>
          have hstep := step_of_handle hr
          cases hstep with
          | undefined hnone => exact absurd (hr.symm.trans hnone) (by simp)
          | queue => exact .keeps rfl rfl id

/-! ### The invariant -/

/-- **The invariant**: while the connection is open there is one wait, under way or expired, unless
the server has closed it; and none is under way when the connection has ended. -/
structure Supervised (server : WsServer) (c : WsConnection) : Prop where
  state : WsServer.TimerState c
  closed : ∃ P, Closed server c P
  once : c.WaitsOnce
  waits : c.member = true →
    ∃ t, c.timerIdle = some t ∧ (t.waiting + t.expired = 1 ∨ c.closed = true)
  ended : c.member = false → ∀ t ∈ c.timerIdle, t.waiting = 0

omit htimeout in
/-- A connection that has just been accepted has no timer, and is not in the set. -/
theorem supervised_accepted : Supervised server WsServer.accepted where
  state := ⟨.handshake, by simp [TimerExact, WsServer.accepted], by simp [WsServer.accepted]⟩
  closed := ⟨_, closed_of_run (run_nil _)⟩
  once := by simp [WaitsOnce, WsServer.accepted]
  waits := by simp [WsServer.accepted]
  ended := by simp [WsServer.accepted]

/-- **One step** keeps an open connection supervised. A reset of the timer takes away one wait and
begins another, and the wait that has expired is used up by the close that it causes. -/
theorem Supervised.step (h : Supervised server c) (hs : step server c e = some c') :
    Supervised server c' := by
  have hkept : TimerKept server c := fun hopen _ => h.state.exact.mpr hopen
  obtain ⟨P, hclosed⟩ := h.closed
  have hstate := h.state.step htimeout hs
  have hclosed' : ∃ P, Closed server c' P := ⟨_, hclosed.step (step_sound hs).2⟩
  have hstep := timerStep_of_step htimeout hkept h.state.stage h.once hs
  cases hstep with
  | keeps htimer hmember hkeeps =>
      refine ⟨hstate, hclosed', ?_, ?_, ?_⟩
      · rw [WaitsOnce, htimer]
        exact h.once
      · rw [hmember, htimer]
        intro hopen
        obtain ⟨t, ht, hwait⟩ := h.waits hopen
        exact ⟨t, ht, hwait.imp_right hkeeps⟩
      · rw [hmember, htimer]
        exact h.ended
  | opens htimer hmember =>
      refine ⟨hstate, hclosed', ?_, fun _ => ⟨_, htimer, .inl rfl⟩, ?_⟩
      · simp [WaitsOnce, htimer]
      · simp [hmember]
  | ends htimer hmember =>
      refine ⟨hstate, hclosed', ?_, ?_, fun _ => ?_⟩
      · intro t ht
        rw [htimer] at ht
        obtain ⟨t₀, ht₀, rfl⟩ := Option.map_eq_some_iff.mp ht
        have hle := h.once t₀ ht₀
        dsimp only
        omega
      · simp [hmember]
      · simp [htimer]
  | expires t ht htimer hmember hsame =>
      have hle := h.once t ht
      refine ⟨hstate, hclosed', ?_, ?_, ?_⟩
      · simp only [WaitsOnce, htimer, Option.mem_some_iff, forall_eq']
        omega
      · rw [hmember, hsame]
        intro hopen
        obtain ⟨t₀, ht₀, hwait⟩ := h.waits hopen
        obtain rfl := Option.some.inj (ht.symm.trans ht₀)
        exact ⟨_, htimer, hwait.imp_left fun hone => by dsimp only; omega⟩
      · simp [htimer]
  | closes waiting expired ht htimer hmember hshut =>
      have hle : waiting + (expired + 1) ≤ 1 := h.once _ ht
      refine ⟨hstate, hclosed', ?_, fun _ => ⟨_, htimer, .inr hshut⟩, ?_⟩
      · simp only [WaitsOnce, htimer, Option.mem_some_iff, forall_eq']
        omega
      · rw [hmember]
        intro hended t ht'
        rw [htimer] at ht'
        obtain rfl := Option.some.inj ht'
        exact h.ended hended ⟨waiting, expired + 1⟩ ht

/-- **The timer alone closes an open connection**: when nothing else happens to it, a close frame
is sent after two steps at most. -/
theorem Supervised.exists_run_closes (h : Supervised server c) (hopen : c.member = true)
    (hdefined : c.undefined = false) :
    ∃ es c', (∀ e ∈ es, e = .timerExpires ∨ e = .idleTimeout) ∧ es.length ≤ 2 ∧
      run (WsConnection.step server) c es = some c' ∧ ∃ d ∈ c'.queue.sent, d.IsClose := by
  -- what the timer leaves is supervised too, and the flag says that a close frame has been sent
  have hsent : ∀ {es c'}, run (WsConnection.step server) c es = some c' → c'.closed = true →
      ∃ d ∈ c'.queue.sent, d.IsClose := by
    intro es c' hrun hshut
    have h' := run_invariant (I := Supervised server) (C := fun _ _ => True)
      (fun c e c' hc _ hs => hc.step htimeout hs) h (along_of_forall (fun _ _ => trivial) _) hrun
    obtain ⟨P, hclosed⟩ := h'.closed
    exact hclosed.closed_iff.mp hshut
  obtain ⟨⟨waiting, expired⟩, ht, hwait⟩ := h.waits hopen
  rcases hwait with hone | hshut
  · cases waiting with
    | zero =>
        obtain rfl : expired = 1 := by simpa using hone
        have hrun : run (WsConnection.step server) c [.idleTimeout] =
            some ({ c with timerIdle := some ⟨0, 0⟩ }.closing 1000 (ascii "idle timeout")
              none) := by
          simp [run, WsConnection.step, handle, hdefined, ht, sendClose_eq]
        exact ⟨_, _, by simp, by simp, hrun, hsent hrun rfl⟩
    | succ n =>
        obtain ⟨rfl, rfl⟩ : n = 0 ∧ expired = 0 := by
          dsimp only at hone
          omega
        have hrun : run (WsConnection.step server) c [.timerExpires, .idleTimeout] =
            some ({ c with timerIdle := some ⟨0, 0⟩ }.closing 1000 (ascii "idle timeout")
              none) := by
          simp [run, WsConnection.step, handle, hdefined, ht, sendClose_eq]
        exact ⟨_, _, by simp, by simp, hrun, hsent hrun rfl⟩
  · exact ⟨[], c, by simp, by simp, run_nil c, hsent (run_nil c) hshut⟩

end Handlers

end WsConnection

namespace WsServer

variable {server : WsServer}

/-- Every connection is supervised, in every run of a server with a timeout. -/
theorem forall_supervised_of_run (htimeout : 0 < server.timeoutIdle) {es : List Event}
    {conns : List WsConnection} (h : run (step server) [] es = some conns) :
    ∀ c ∈ conns, WsConnection.Supervised server c :=
  forall_of_run WsConnection.supervised_accepted (fun _ _ _ hc hs => hc.step htimeout hs) h

/-- **Every open connection is supervised**, in every run of a server with a timeout: there is one
wait, under way or expired, or a close frame has been sent. Once a connection has ended, no wait
is under way. -/
theorem supervised_of_run (htimeout : 0 < server.timeoutIdle) {es : List Event}
    {conns : List WsConnection} (h : run (step server) [] es = some conns) :
    ∀ c ∈ conns,
      (c.member = true → ∃ t, c.timerIdle = some t ∧
        (t.waiting + t.expired = 1 ∨ ∃ d ∈ c.queue.sent, d.IsClose)) ∧
      (c.member = false → ∀ t ∈ c.timerIdle, t.waiting = 0) := by
  intro c hc
  have hsupervised := forall_supervised_of_run htimeout h c hc
  obtain ⟨P, hclosed⟩ := hsupervised.closed
  refine ⟨fun hopen => ?_, hsupervised.ended⟩
  obtain ⟨t, ht, hwait⟩ := hsupervised.waits hopen
  exact ⟨t, ht, hwait.imp_right hclosed.closed_iff.mp⟩

/-- **No open connection stays idle**: from every state that a server with a timeout reaches, the
timer of an open connection alone has a close frame sent, in two steps at most. -/
theorem exists_idle_close (htimeout : 0 < server.timeoutIdle) {es : List Event}
    {conns : List WsConnection} (h : run (step server) [] es = some conns) :
    ∀ c ∈ conns, c.member = true → c.undefined = false →
      ∃ es c', (∀ e ∈ es, e = .timerExpires ∨ e = .idleTimeout) ∧ es.length ≤ 2 ∧
        run (WsConnection.step server) c es = some c' ∧ ∃ d ∈ c'.queue.sent, d.IsClose := by
  intro c hc hopen hdefined
  exact (forall_supervised_of_run htimeout h c hc).exists_run_closes htimeout hopen hdefined

/-- The client opens the connection and sends a message. -/
def messagedRun : List Event :=
  [.accept, .connection 0 (.received 0 SocketServerBase.lowerRequest.render),
    .connection 0 (.written 0), .connection 0 (.received 0 [0x81, 0x81]),
    .connection 0 (.received 0 [1, 2, 3, 4, 0x60])]

/-- In the sample run the open connection has one wait. -/
theorem supervised_messagedRun :
    0 < idleServer.timeoutIdle ∧ ∃ conns, run (step idleServer) [] messagedRun = some conns ∧
      ∀ c ∈ conns,
        (c.member = true → ∃ t, c.timerIdle = some t ∧
          (t.waiting + t.expired = 1 ∨ ∃ d ∈ c.queue.sent, d.IsClose)) ∧
        (c.member = false → ∀ t ∈ c.timerIdle, t.waiting = 0) := by
  have htimeout : 0 < idleServer.timeoutIdle := by decide
  have hrun : (run (step idleServer) [] messagedRun).isSome = true := by decide +kernel
  obtain ⟨conns, h⟩ := Option.isSome_iff_exists.mp hrun
  exact ⟨htimeout, conns, h, supervised_of_run htimeout h⟩

/-- The connection is open then, and the timer closes it. -/
theorem exists_idle_close_messagedRun :
    ∃ conns, run (step idleServer) [] messagedRun = some conns ∧
      ∃ c ∈ conns, c.member = true ∧
        ∃ es c', (∀ e ∈ es, e = .timerExpires ∨ e = .idleTimeout) ∧ es.length ≤ 2 ∧
          run (WsConnection.step idleServer) c es = some c' ∧
            ∃ d ∈ c'.queue.sent, d.IsClose := by
  have h : (run (step idleServer) [] messagedRun).map
      (List.map fun c => (c.member, c.undefined)) = some [(true, false)] := by
    decide +kernel
  obtain ⟨conns, hrun, hconns⟩ := Option.map_eq_some_iff.mp h
  have hmem : (true, false) ∈ conns.map fun c => (c.member, c.undefined) := by
    rw [hconns]
    exact List.mem_singleton_self _
  obtain ⟨c, hc, heq⟩ := List.mem_map.mp hmem
  obtain ⟨hopen, hdefined⟩ := Prod.mk.inj heq
  exact ⟨conns, hrun, c, hc, hopen, exists_idle_close (by decide) hrun c hc hopen hdefined⟩

end WsServer

end BoostIrc
