import BoostIrc.WebSocket

/-!
# The Life of a WebSocket Connection

A connection is in the set of its endpoint from `connection_open` to the one call of
`connection_close` or `connection_error` that ends it, and its handlers are called in this order:
`onopen`, any number of times `onmessage`, and one of `onclose` and `onerror`. It does not matter
in which of the nested handlers it ends.

The server accepts any number of connections (`WsServer.step`), each with a life of its own.

## Main results

* `Stage`: the invariant, which couples the operation under way with the calls so far.
* `Stage.step`: one clause for each way through a handler.
* `WsServer.lifecycle_run`: **the life of every connection in every run**.
-/

open Transition

namespace BoostIrc

/-- The call ends a connection. -/
def WsCall.isEnd : WsCall → Bool
  | .connectionClose => true
  | .connectionError => true
  | _ => false

/-- The call is one of the two handlers that are told of the end. -/
def WsCall.isEndHandler : WsCall → Bool
  | .onclose _ _ => true
  | .onerror => true
  | _ => false

/-- The place of a call in the life of a connection. -/
def WsCall.place : WsCall → ℕ
  | .connectionOpen => 0
  | .onopen => 1
  | .onmessage _ => 2
  | .connectionClose => 3
  | .connectionError => 3
  | .onclose _ _ => 4
  | .onerror => 4

/-- The operation is a read of a frame, on the given endpoint. -/
inductive Pending.ReadsFrame (endpoint : WsEndpoint) : Pending → Prop
  | head : ReadsFrame endpoint (.readHead endpoint)
  | length (numBytes : ℕ) (finRsvOpcode : Byte) :
      ReadsFrame endpoint (.readLength numBytes finRsvOpcode endpoint)
  | content (length : ℕ) (finRsvOpcode : Byte) :
      ReadsFrame endpoint (.readContent length finRsvOpcode endpoint)

namespace WsConnection

/-- **The life of a connection**, as far as it has come. -/
structure Lifecycle (c : WsConnection) : Prop where
  /-- It is in the set of its endpoint from `connection_open` to the call that ends it. -/
  member_iff : c.member = true ↔ .connectionOpen ∈ c.calls ∧ ∀ x ∈ c.calls, ¬ x.isEnd
  /-- At most one of `onclose` and `onerror` is called, and at most once. -/
  endHandler : (c.calls.filter WsCall.isEndHandler).length ≤ 1
  /-- At most one operation is under way, so there is at most one chain of reads. -/
  pending : c.pending.length ≤ 1
  /-- A member of the set has one chain of reads: one read of a frame is under way, and nothing
  else. -/
  reads : c.member = true → ∃ endpoint op, Pending.ReadsFrame endpoint op ∧ c.pending = [op]
  /-- The chain of reads of a connection that has ended is over. -/
  silent : (∃ x ∈ c.calls, x.isEnd = true) → c.pending = []
  /-- A message is handed over when the connection has been opened and `onopen` has been called,
  and before it ends. -/
  onmessage : ∀ u m v, c.calls = u ++ .onmessage m :: v →
    .connectionOpen ∈ u ∧ .onopen ∉ v ∧ ∀ x ∈ u, ¬ x.isEnd ∧ ¬ x.isEndHandler

/-- What `connection_close` and `connection_error` call. -/
inductive EndCalls (endpoint : WsEndpoint) : List WsCall → Prop
  | close (status : ℕ) (reason : Bytes) : EndCalls endpoint (closeCalls endpoint status reason)
  | error : EndCalls endpoint (errorCalls endpoint)

/-- **The stages of a connection**: the operations under way, whether it is in the set of its
endpoint, and the calls so far. -/
inductive Stage : List Pending → Bool → List WsCall → Prop
  | handshake : Stage [.readHandshake] false []
  | answering (endpoint : WsEndpoint) : Stage [.writeHandshake endpoint] false []
  | dropped : Stage [] false []
  | unopened {endpoint : WsEndpoint} : Stage [] false (errorCalls endpoint)
  | opened {endpoint : WsEndpoint} {op : Pending} (hop : op.ReadsFrame endpoint)
      (messages : List WsMessage) :
      Stage [op] true (openCalls endpoint ++ messages.map .onmessage)
  | ended {endpoint : WsEndpoint} (messages : List WsMessage) {last : List WsCall}
      (hlast : EndCalls endpoint last) :
      Stage [] false (openCalls endpoint ++ messages.map .onmessage ++ last)

/-! ### What the stages say -/

/-- The calls of an open connection: it is opened first, and nothing ends it. -/
theorem mem_openCalls (endpoint : WsEndpoint) (messages : List WsMessage) :
    .connectionOpen ∈ openCalls endpoint ++ messages.map .onmessage ∧
      ∀ x ∈ openCalls endpoint ++ messages.map .onmessage, ¬ x.isEnd ∧ ¬ x.isEndHandler := by
  refine ⟨by simp [openCalls], ?_⟩
  intro x hx
  rw [List.mem_append] at hx
  rcases hx with hx | hx
  · rw [openCalls] at hx
    split_ifs at hx
    · rcases List.mem_pair.mp hx with rfl | rfl <;> simp [WsCall.isEnd, WsCall.isEndHandler]
    · rw [List.mem_singleton.mp hx]
      simp [WsCall.isEnd, WsCall.isEndHandler]
  · obtain ⟨m, -, rfl⟩ := List.mem_map.mp hx
    simp [WsCall.isEnd, WsCall.isEndHandler]

/-- The end is one call that ends the connection and at most one handler. -/
theorem EndCalls.spec {endpoint : WsEndpoint} {last : List WsCall} (h : EndCalls endpoint last) :
    (∃ x ∈ last, x.isEnd = true) ∧ (last.filter WsCall.isEndHandler).length ≤ 1 ∧
      last.Pairwise (fun x y => x.place ≤ y.place) ∧ ∀ x ∈ last, 3 ≤ x.place := by
  cases h with
  | close status reason =>
      rw [closeCalls]
      split_ifs <;> simp [WsCall.isEnd, WsCall.isEndHandler, WsCall.place, List.filter_cons]
  | error =>
      rw [errorCalls]
      split_ifs <;> simp [WsCall.isEnd, WsCall.isEndHandler, WsCall.place, List.filter_cons]

/-- The calls of an open connection are in order. -/
theorem pairwise_openCalls (endpoint : WsEndpoint) (messages : List WsMessage) :
    (openCalls endpoint ++ messages.map WsCall.onmessage).Pairwise
        (fun x y => x.place ≤ y.place) ∧
      ∀ x ∈ openCalls endpoint ++ messages.map .onmessage, x.place ≤ 2 := by
  have hopen : (openCalls endpoint).Pairwise (fun x y => x.place ≤ y.place) ∧
      ∀ x ∈ openCalls endpoint, x.place ≤ 2 := by
    rw [openCalls]
    split_ifs <;> simp [WsCall.place]
  have hmessage : ∀ x ∈ messages.map WsCall.onmessage, x.place = 2 := by
    intro x hx
    obtain ⟨m, -, rfl⟩ := List.mem_map.mp hx
    rfl
  refine ⟨List.pairwise_append.mpr ⟨hopen.1, ?_, ?_⟩, ?_⟩
  · refine List.pairwise_of_forall_mem_list ?_
    intro x hx y hy
    rw [hmessage x hx, hmessage y hy]
  · intro x hx y hy
    rw [hmessage y hy]
    exact hopen.2 x hx
  · intro x hx
    rcases List.mem_append.mp hx with hx | hx
    · exact hopen.2 x hx
    · exact (hmessage x hx).le

/-- Calls in order, of a connection that has been opened, hand a message over in its place. -/
theorem onmessage_of_pairwise {calls : List WsCall} (hopen : .connectionOpen ∈ calls)
    (hplace : calls.Pairwise fun x y => x.place ≤ y.place) {u v : List WsCall} {m : WsMessage}
    (h : calls = u ++ .onmessage m :: v) :
    .connectionOpen ∈ u ∧ .onopen ∉ v ∧ ∀ x ∈ u, ¬ x.isEnd ∧ ¬ x.isEndHandler := by
  subst h
  rw [List.pairwise_append, List.pairwise_cons] at hplace
  obtain ⟨-, ⟨hafter, -⟩, hbefore⟩ := hplace
  refine ⟨?_, ?_, ?_⟩
  · rcases List.mem_append.mp hopen with hu | hv
    · exact hu
    · rcases List.mem_cons.mp hv with hv | hv
      · exact absurd hv (by simp)
      · exact absurd (hafter _ hv) (by simp [WsCall.place])
  · intro hv
    exact absurd (hafter _ hv) (by simp [WsCall.place])
  · intro x hx
    have hle := hbefore x hx (.onmessage m) List.mem_cons_self
    cases x <;> simp [WsCall.place] at hle <;> simp [WsCall.isEnd, WsCall.isEndHandler]

/-- A connection that has ended has one call that ends it. -/
theorem not_member_iff {calls : List WsCall} {x : WsCall} (hx : x ∈ calls) (hend : x.isEnd = true) :
    false = true ↔ .connectionOpen ∈ calls ∧ ∀ x ∈ calls, ¬ x.isEnd := by
  simp only [Bool.false_eq_true, false_iff]
  rintro ⟨-, h⟩
  exact h x hx hend

/-- A connection for which nothing has been called, and of which at most one operation is under
way, leads its life: this is so from `accept` until the answer to the handshake is written. -/
theorem lifecycle_of_calls_eq_nil {c : WsConnection} (hmember : c.member = false)
    (hcalls : c.calls = []) (hpending : c.pending.length ≤ 1) : c.Lifecycle where
  member_iff := by simp [hmember, hcalls]
  endHandler := by simp [hcalls]
  pending := hpending
  reads h := absurd (hmember.symm.trans h) (by decide)
  silent := by simp [hcalls]
  onmessage := by simp [hcalls]

/-- **A connection at a stage has led its life so far.** One case for each stage: before
`connection_open` nothing has been called, while the connection is open nothing ends it, and
behind its end no operation is left. -/
theorem Stage.lifecycle {c : WsConnection} (h : Stage c.pending c.member c.calls) :
    c.Lifecycle := by
  generalize hpending : c.pending = pending at h
  generalize hmember : c.member = member at h
  generalize hcalls : c.calls = calls at h
  cases h with
  | handshake => exact lifecycle_of_calls_eq_nil hmember hcalls (by simp [hpending])
  | answering endpoint => exact lifecycle_of_calls_eq_nil hmember hcalls (by simp [hpending])
  | dropped => exact lifecycle_of_calls_eq_nil hmember hcalls (by simp [hpending])
  | @unopened endpoint =>
      obtain ⟨⟨x, hx, hend⟩, hhandler, -, hplace⟩ := (EndCalls.error : EndCalls endpoint _).spec
      refine ⟨?_, by rwa [hcalls], by simp [hpending], ?_, fun _ => hpending, ?_⟩
      · rw [hmember, hcalls]
        exact not_member_iff hx hend
      · intro h
        exact absurd (hmember.symm.trans h) (by decide)
      · intro u m v h
        rw [hcalls] at h
        exact absurd (hplace (.onmessage m) (by simp [h])) (by simp [WsCall.place])
  | @opened endpoint op hop messages =>
      obtain ⟨hopen, hend⟩ := mem_openCalls endpoint messages
      refine ⟨?_, ?_, by simp [hpending], fun _ => ⟨endpoint, op, hop, hpending⟩, ?_, ?_⟩
      · rw [hmember, hcalls]
        exact iff_of_true rfl ⟨hopen, fun x hx => (hend x hx).1⟩
      · rw [hcalls, List.filter_eq_nil_iff.mpr fun x hx => (hend x hx).2]
        exact Nat.zero_le 1
      · rintro ⟨x, hx, hxend⟩
        rw [hcalls] at hx
        exact absurd hxend (hend x hx).1
      · intro u m v h
        rw [hcalls] at h
        exact onmessage_of_pairwise hopen (pairwise_openCalls endpoint messages).1 h
  | @ended endpoint messages last hlast =>
      obtain ⟨hopen, hend⟩ := mem_openCalls endpoint messages
      obtain ⟨hsorted, hle⟩ := pairwise_openCalls endpoint messages
      obtain ⟨⟨x, hx, hxend⟩, hhandler, hlastSorted, hge⟩ := hlast.spec
      refine ⟨?_, ?_, by simp [hpending], ?_, fun _ => hpending, ?_⟩
      · rw [hmember, hcalls]
        exact not_member_iff (List.mem_append_right _ hx) hxend
      · rwa [hcalls, List.filter_append, List.filter_eq_nil_iff.mpr fun x hx => (hend x hx).2,
          List.nil_append]
      · intro h
        exact absurd (hmember.symm.trans h) (by decide)
      · intro u m v h
        rw [hcalls] at h
        refine onmessage_of_pairwise (List.mem_append_left _ hopen) ?_ h
        refine List.pairwise_append.mpr ⟨hsorted, hlastSorted, fun x hx y hy => ?_⟩
        exact (hle x hx).trans ((by decide : 2 ≤ 3).trans (hge y hy))

/-! ### The steps -/

/-- There is one operation at most: the one that is over is the only one, and none is left. -/
theorem Stage.eq_singleton {pending : List Pending} {member : Bool} {calls : List WsCall}
    (h : Stage pending member calls) {i : ℕ} {op : Pending} (hop : pending[i]? = some op) :
    pending = [op] ∧ pending.eraseIdx i = [] := by
  have hsingle : ∀ op' : Pending, [op'][i]? = some op → [op'] = [op] ∧ [op'].eraseIdx i = [] := by
    intro op' h
    obtain ⟨rfl, rfl⟩ := eq_of_getElem?_singleton h
    exact ⟨rfl, rfl⟩
  cases h with
  | handshake => exact hsingle _ hop
  | answering endpoint => exact hsingle _ hop
  | dropped => exact absurd hop (by simp)
  | unopened => exact absurd hop (by simp)
  | opened hread messages => exact hsingle _ hop
  | ended messages hlast => exact absurd hop (by simp)

/-- During the handshake nothing has been called. -/
theorem Stage.of_handshake {op : Pending} {member : Bool} {calls : List WsCall}
    (h : Stage [op] member calls) (hop : ∀ endpoint, ¬ op.ReadsFrame endpoint) :
    member = false ∧ calls = [] := by
  cases h with
  | handshake => exact ⟨rfl, rfl⟩
  | answering endpoint => exact ⟨rfl, rfl⟩
  | opened hread messages => exact absurd hread (hop _)

/-- While a frame is read, the connection is open. -/
theorem Stage.of_readsFrame {op : Pending} {member : Bool} {calls : List WsCall}
    {endpoint : WsEndpoint} (h : Stage [op] member calls) (hop : op.ReadsFrame endpoint) :
    member = true ∧ ∃ messages : List WsMessage,
      calls = openCalls endpoint ++ messages.map .onmessage := by
  cases h with
  | handshake => cases hop
  | answering endpoint => cases hop
  | opened hread messages =>
      cases hop with
      | head => cases hread; exact ⟨rfl, messages, rfl⟩
      | length => cases hread; exact ⟨rfl, messages, rfl⟩
      | content => cases hread; exact ⟨rfl, messages, rfl⟩

/-- The read that follows the first two bytes is one of the same frame. -/
theorem readsFrame_afterHead (finRsvOpcode second : Byte) (endpoint : WsEndpoint) :
    (afterHead finRsvOpcode second endpoint).ReadsFrame endpoint := by
  rw [afterHead]
  split_ifs
  · exact .length 2 finRsvOpcode
  · exact .length 8 finRsvOpcode
  · exact .content _ finRsvOpcode

/-- The read of the handshake reads no frame. -/
theorem not_readsFrame_readHandshake (endpoint : WsEndpoint) :
    ¬ Pending.readHandshake.ReadsFrame endpoint := nofun

/-- The write of the answer to the handshake reads no frame. -/
theorem not_readsFrame_writeHandshake (endpoint endpoint' : WsEndpoint) :
    ¬ (Pending.writeHandshake endpoint').ReadsFrame endpoint := nofun

/-- `onopen` is called by `connection_open`. -/
theorem Stage.connectionOpen_of_onopen {pending : List Pending} {member : Bool}
    {calls : List WsCall} (h : Stage pending member calls) (hcalls : .onopen ∈ calls) :
    .connectionOpen ∈ calls := by
  cases h with
  | handshake => exact absurd hcalls (by simp)
  | answering endpoint => exact absurd hcalls (by simp)
  | dropped => exact absurd hcalls (by simp)
  | @unopened endpoint =>
      have hplace := (EndCalls.error : EndCalls endpoint _).spec.2.2.2 _ hcalls
      exact absurd hplace (by simp [WsCall.place])
  | opened hread messages => exact (mem_openCalls _ messages).1
  | ended messages hlast => exact List.mem_append_left _ (mem_openCalls _ messages).1

section Frames

variable {pending : List Pending} {member : Bool} {calls : List WsCall} {i : ℕ} {op op' : Pending}
  {endpoint : WsEndpoint}

/-- While a frame is read, `connection_open` has been called. -/
theorem Stage.connectionOpen_of_reads (h : Stage pending member calls)
    (hop : pending[i]? = some op) (hread : op.ReadsFrame endpoint) :
    .connectionOpen ∈ calls := by
  obtain ⟨hsingle, -⟩ := h.eq_singleton hop
  rw [hsingle] at h
  obtain ⟨-, messages, rfl⟩ := h.of_readsFrame hread
  exact (mem_openCalls _ messages).1

/-- The chain of reads goes on: one read of a frame is over, the next one is started, and nothing is
called. -/
theorem Stage.next (h : Stage pending member calls) (hop : pending[i]? = some op)
    (hread : op.ReadsFrame endpoint) (hread' : op'.ReadsFrame endpoint) :
    Stage (pending.eraseIdx i ++ [op']) member calls := by
  obtain ⟨hsingle, herase⟩ := h.eq_singleton hop
  rw [hsingle] at h
  obtain ⟨rfl, messages, rfl⟩ := h.of_readsFrame hread
  rw [herase]
  exact .opened hread' messages

/-- A message is handed over, and the chain of reads goes on. -/
theorem Stage.handOver (h : Stage pending member calls) (hop : pending[i]? = some op)
    (hread : op.ReadsFrame endpoint) (hread' : op'.ReadsFrame endpoint) (m : WsMessage) :
    Stage (pending.eraseIdx i ++ [op']) member (calls ++ [.onmessage m]) := by
  obtain ⟨hsingle, herase⟩ := h.eq_singleton hop
  rw [hsingle] at h
  obtain ⟨rfl, messages, rfl⟩ := h.of_readsFrame hread
  rw [herase, List.append_assoc, ← List.map_singleton, ← List.map_append]
  exact .opened hread' (messages ++ [m])

/-- The chain of reads ends: no operation is left, and the calls of the end are the last ones. -/
theorem Stage.finish (h : Stage pending member calls) (hop : pending[i]? = some op)
    (hread : op.ReadsFrame endpoint) {last : List WsCall} (hlast : EndCalls endpoint last) :
    Stage (pending.eraseIdx i) false (calls ++ last) := by
  obtain ⟨hsingle, herase⟩ := h.eq_singleton hop
  rw [hsingle] at h
  obtain ⟨rfl, messages, rfl⟩ := h.of_readsFrame hread
  rw [herase]
  exact .ended messages hlast

end Frames

/-- An operation on an endpoint writes the answer to the handshake or reads a frame. -/
theorem readsFrame_of_endpoint {op : Pending} {endpoint : WsEndpoint}
    (h : op.endpoint = some endpoint) :
    op = .writeHandshake endpoint ∨ op.ReadsFrame endpoint := by
  cases op with
  | readHandshake => exact absurd h (by simp [Pending.endpoint])
  | writeHandshake endpoint' =>
      obtain rfl := Option.some.inj h
      exact Or.inl rfl
  | readHead endpoint' =>
      obtain rfl := Option.some.inj h
      exact Or.inr .head
  | readLength numBytes finRsvOpcode endpoint' =>
      obtain rfl := Option.some.inj h
      exact Or.inr (.length numBytes finRsvOpcode)
  | readContent length finRsvOpcode endpoint' =>
      obtain rfl := Option.some.inj h
      exact Or.inr (.content length finRsvOpcode)

variable {server : WsServer}

/-- **What a step makes of a stage**: one clause for each way through a handler. A handler leaves at
most one operation under way, and one that ends the connection has made the calls of its end. -/
theorem Stage.step {c c' : WsConnection} {e : Event} (h : Stage c.pending c.member c.calls)
    (hstep : Step server c e c') : Stage c'.pending c'.member c'.calls := by
  cases hstep with
  | undefined => exact h
  | queue => exact h
  | timerExpires => exact h
  | idleTimeout => exact h
  | sendClose => exact h
  | relay => exact h
  | handshakeFailed hop =>
      obtain ⟨hsingle, herase⟩ := h.eq_singleton hop
      rw [hsingle] at h
      obtain ⟨hmember, hcalls⟩ := h.of_handshake not_readsFrame_readHandshake
      simp only [WsConnection.finish, herase, hmember, hcalls]
      exact .dropped
  | handshakeDropped hop rest =>
      obtain ⟨hsingle, herase⟩ := h.eq_singleton hop
      rw [hsingle] at h
      obtain ⟨hmember, hcalls⟩ := h.of_handshake not_readsFrame_readHandshake
      simp only [WsConnection.finish, herase, hmember, hcalls]
      exact .dropped
  | handshakeRead hop rest endpoint =>
      obtain ⟨hsingle, herase⟩ := h.eq_singleton hop
      rw [hsingle] at h
      obtain ⟨hmember, hcalls⟩ := h.of_handshake not_readsFrame_readHandshake
      simp only [WsConnection.finish, start, herase, hmember, hcalls]
      exact .answering endpoint
  | @opened i endpoint hop t ht =>
      obtain ⟨hsingle, herase⟩ := h.eq_singleton hop
      rw [hsingle] at h
      obtain ⟨-, hcalls⟩ := h.of_handshake fun _ => not_readsFrame_writeHandshake _ _
      simp only [WsConnection.finish, start, herase, hcalls, List.nil_append]
      simpa using Stage.opened (.head : (Pending.readHead endpoint).ReadsFrame endpoint) []
  | @error i op endpoint hop hendpoint t ht =>
      rcases readsFrame_of_endpoint hendpoint with rfl | hread
      · obtain ⟨hsingle, herase⟩ := h.eq_singleton hop
        rw [hsingle] at h
        obtain ⟨-, hcalls⟩ := h.of_handshake fun _ => not_readsFrame_writeHandshake _ _
        simp only [WsConnection.finish, herase, hcalls, List.nil_append]
        exact .unopened
      · exact h.finish hop hread .error
  | again hop => exact h.next hop .head .head
  | unmasked hop hlen hmask ht => exact h.finish hop .head (.close _ _)
  | head hop hlen hmask => exact h.next hop .head (readsFrame_afterHead _ _ _)
  | length hop hlen => exact h.next hop (.length _ _) (.content _ _)
  | close hop hlen hclose ht hmessage => exact h.finish hop (.content _ _) (.close _ _)
  | ping hop hlen hping ht => exact h.next hop (.content _ _) .head
  | message hop hlen hclose hping ht hset hmessage =>
      exact h.handOver hop (.content _ _) .head _
  | ignored hop hlen hclose hping hset => exact h.next hop (.content _ _) .head

/-- The calls are never taken back: a step adds to their end. -/
theorem Step.calls_isPrefix {c c' : WsConnection} {e : Event} (h : Step server c e c') :
    c.calls <+: c'.calls := by
  cases h with
  | opened hop ht => exact List.prefix_append _ _
  | error hop hendpoint ht => exact List.prefix_append _ _
  | unmasked hop hlen hmask ht => exact List.prefix_append _ _
  | close hop hlen hclose ht hmessage => exact List.prefix_append _ _
  | message hop hlen hclose hping ht hset hmessage => exact List.prefix_append _ _
  | _ => exact List.prefix_refl _

/-! ### The timer of an open connection -/

/-- Once the connection has been opened, its timer is there, if there is a timeout. -/
def TimerKept (server : WsServer) (c : WsConnection) : Prop :=
  .connectionOpen ∈ c.calls → TimerMade server c

/-- The calls at the end do not open a connection. -/
theorem mem_append_end_iff {calls last : List WsCall} {endpoint : WsEndpoint}
    (hlast : EndCalls endpoint last) :
    .connectionOpen ∈ calls ++ last ↔ .connectionOpen ∈ calls := by
  rw [List.mem_append, or_iff_left_iff_imp]
  intro h
  exact absurd (hlast.spec.2.2.2 _ h) (by simp [WsCall.place])

/-- **What a step does with the timer**: it is made when the connection is opened. No other step
makes one or takes one away, so a connection that has been opened keeps its timer. -/
theorem Step.timer {c c' : WsConnection} {e : Event} (h : Step server c e c') :
    (.connectionOpen ∈ c'.calls ∧ TimerMade server c') ∨
      ((.connectionOpen ∈ c'.calls ↔ .connectionOpen ∈ c.calls) ∧
        c'.timerIdle.isSome = c.timerIdle.isSome) := by
  cases h with
  | opened hop ht =>
      exact Or.inl ⟨List.mem_append_right _ List.mem_cons_self, ht⟩
  | timerExpires ht => exact Or.inr ⟨Iff.rfl, ht⟩
  | idleTimeout ht => exact Or.inr ⟨Iff.rfl, ht⟩
  | relay hopen ht => exact Or.inr ⟨Iff.rfl, ht⟩
  | ping hop hlen hping ht => exact Or.inr ⟨Iff.rfl, ht⟩
  | error hop hendpoint ht => exact Or.inr ⟨mem_append_end_iff .error, ht⟩
  | unmasked hop hlen hmask ht => exact Or.inr ⟨mem_append_end_iff (.close _ _), ht⟩
  | close hop hlen hclose ht hmessage => exact Or.inr ⟨mem_append_end_iff (.close _ _), ht⟩
  | message hop hlen hclose hping ht hset hmessage =>
      exact Or.inr ⟨by simp [start], ht⟩
  | _ => exact Or.inr ⟨Iff.rfl, rfl⟩

/-- A step keeps the timer of a connection that has been opened. -/
theorem TimerKept.step {c c' : WsConnection} {e : Event} (h : TimerKept server c)
    (hstep : Step server c e c') : TimerKept server c' := by
  rcases hstep.timer with ⟨-, hmade⟩ | ⟨hopen, htimer⟩
  · exact fun _ => hmade
  · intro hopen' htimeout
    rw [htimer]
    exact h (hopen.mp hopen') htimeout

end WsConnection

namespace WsServer

variable (server : WsServer)

/-- What can happen: a connection is accepted, or one of the connections takes a step. -/
inductive Event where
  | accept
  | connection (i : ℕ) (e : WsConnection.Event)

/-- The connection that `accept` makes, with the handshake being read. -/
def accepted : WsConnection where
  pending := [.readHandshake]

/-- One step of the server. -/
def step (conns : List WsConnection) : Event → Option (List WsConnection)
  | .accept => some (conns ++ [accepted])
  | .connection i e =>
      match conns[i]? with
      | none => none
      | some c => (WsConnection.step server c e).map (conns.set i)

variable {server}

/-- What a step of the server can do: a connection is accepted, behind the others, or one of them
takes a step of its own. -/
theorem eq_of_step {conns conns' : List WsConnection} {e : Event}
    (h : step server conns e = some conns') :
    (e = .accept ∧ conns' = conns ++ [accepted]) ∨
      ∃ i c c' e', e = .connection i e' ∧ conns[i]? = some c ∧
        WsConnection.step server c e' = some c' ∧ conns' = conns.set i c' := by
  cases e with
  | accept => exact Or.inl ⟨rfl, (Option.some.inj h).symm⟩
  | connection i e =>
      rw [step] at h
      cases hc : conns[i]? with
      | none => simp [hc] at h
      | some c =>
          simp only [hc] at h
          obtain ⟨c', hc', rfl⟩ := Option.map_eq_some_iff.mp h
          exact Or.inr ⟨i, c, c', e, rfl, hc, hc', rfl⟩

/-- **What every step of a connection preserves holds of every connection of the server** in
every run. -/
theorem forall_of_run {I : WsConnection → Prop} (hinit : I accepted)
    (hstep : ∀ c e c', I c → WsConnection.step server c e = some c' → I c')
    {conns : List WsConnection} {es : List Event} (h : run (step server) [] es = some conns) :
    ∀ c ∈ conns, I c := by
  refine run_invariant (I := fun conns => ∀ c ∈ conns, I c) (C := fun _ _ => True) ?_ (by simp)
    (along_of_forall (fun _ _ => trivial) _) h
  intro conns e conns' hI _ hs c hc
  rcases eq_of_step hs with ⟨-, rfl⟩ | ⟨i, c₁, c', e', -, hget, hc', rfl⟩
  · rcases List.mem_append.mp hc with hc | hc
    · exact hI c hc
    · rw [List.mem_singleton.mp hc]
      exact hinit
  · rcases List.mem_or_eq_of_mem_set hc with hc | rfl
    · exact hI c hc
    · exact hstep c₁ e' c (hI c₁ (List.mem_of_getElem? hget)) hc'

/-- **The life of every connection**: in every run of the server, whatever the clients send and
whichever operations fail, every connection has led its life so far. The stage of a connection is
the invariant that carries the run. -/
theorem lifecycle_run {es : List Event} {conns : List WsConnection}
    (h : run (step server) [] es = some conns) : ∀ c ∈ conns, c.Lifecycle := by
  intro c hc
  refine WsConnection.Stage.lifecycle ?_
  refine forall_of_run (I := fun c => WsConnection.Stage c.pending c.member c.calls)
    .handshake ?_ h c hc
  intro c e c' hI hs
  exact hI.step (WsConnection.step_sound hs).2

/-- A connection is opened, echoes a message, and is lost. -/
def echoRun : List Event :=
  [.accept, .connection 0 (.received 0 SocketServerBase.lowerRequest.render),
    .connection 0 (.written 0), .connection 0 (.received 0 [0x81, 0x81]),
    .connection 0 (.received 0 [1, 2, 3, 4, 0x60]), .connection 0 (.failed 0)]

/-- The connection of a client that is served and then lost has led its life. -/
theorem lifecycle_echoRun :
    ∃ conns, run (step (Bot.websocket SocketServerBase.sampleSha1 fun _ _ => 0)) [] echoRun =
        some conns ∧ ∀ c ∈ conns, c.Lifecycle := by
  have hrun : (run (step (Bot.websocket SocketServerBase.sampleSha1 fun _ _ => 0)) []
      echoRun).isSome = true := by
    decide +kernel
  obtain ⟨conns, h⟩ := Option.isSome_iff_exists.mp hrun
  exact ⟨conns, h, lifecycle_run h⟩

end WsServer

end BoostIrc
