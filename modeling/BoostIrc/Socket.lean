import BoostIrc.Client
import BoostIrc.Transition
import Mathlib.Data.List.Perm.Basic

/-!
# Writing to the IRC Socket

`irc_client::send` hands every line to `async_write` at once, whether or not an earlier line
is still being written. An `async_write` is a composed operation: it initiates an
`async_write_some` with what remains of its line; when that has transferred some of it and the
completion is handled, it initiates the next one. The operations initiated on one socket are
served in the order in which they were initiated.

After a short write the rest of a line therefore queues up behind the lines that were sent in
the meantime. As long as this does not happen (`InOrder`), the bytes on the wire are the
lines sent, in order.

## Main results

* `Sound.step`: one step in order keeps the remainders in the order of the lines.
* `wire_isPrefix_of_inOrder`: **in every run in order the wire holds a prefix of the lines sent**.
-/

open Transition

namespace BoostIrc

/-- An `async_write` that is under way: the number of its line and what remains of it. -/
structure WriteOp where
  line : ℕ
  remaining : Bytes
  deriving DecidableEq, Repr

/-- The state of the socket: the lines handed to `async_write`, in order; the
`async_write_some` operations initiated, in order; those that have transferred some bytes and
whose completion has yet to be handled; and the bytes on the wire. -/
structure IrcSocket where
  sent : List Bytes := []
  initiated : List WriteOp := []
  transferred : List WriteOp := []
  wire : Bytes := []
  deriving DecidableEq, Repr

namespace IrcSocket

/-- What can happen: a call of `send(raw)`, the transfer of some bytes by the operation whose
turn it is, the handling of a completion. -/
inductive Event where
  | send (raw : Bytes)
  | serve (n : ℕ)
  | resume (i : ℕ)
  deriving DecidableEq, Repr

/-- One step. A composed operation of which nothing remains is complete; another initiates the
next `async_write_some`. -/
def step (s : IrcSocket) : Event → Option IrcSocket
  | .send raw =>
      some
        { s with
          sent := s.sent ++ [raw ++ crlf]
          initiated := s.initiated ++ [⟨s.sent.length, raw ++ crlf⟩] }
  | .serve n =>
      match s.initiated with
      | [] => none
      | op :: ops =>
          if 0 < n ∧ n ≤ op.remaining.length then
            some
              { s with
                initiated := ops
                transferred := s.transferred ++ [{ op with remaining := op.remaining.drop n }]
                wire := s.wire ++ op.remaining.take n }
          else
            none
  | .resume i =>
      match s.transferred[i]? with
      | none => none
      | some op =>
          some
            { s with
              initiated := if op.remaining = [] then s.initiated else s.initiated ++ [op]
              transferred := s.transferred.eraseIdx i }

/-- What the transfer of some bytes does: it serves the oldest write that has been started, and the
bytes go out in front of what is left of it. -/
theorem eq_of_step_serve {s s' : IrcSocket} {n : ℕ} (h : step s (.serve n) = some s') :
    ∃ op ops, s.initiated = op :: ops ∧ (0 < n ∧ n ≤ op.remaining.length) ∧
      s' = { s with
        initiated := ops
        transferred := s.transferred ++ [{ op with remaining := op.remaining.drop n }]
        wire := s.wire ++ op.remaining.take n } := by
  rw [step] at h
  cases hop : s.initiated with
  | nil => simp [hop] at h
  | cons op ops =>
      simp only [hop] at h
      obtain ⟨hn, hs'⟩ := Option.ite_none_right_eq_some.mp h
      exact ⟨op, ops, rfl, hn, (Option.some.inj hs').symm⟩

/-- What the handling of a completion does. -/
theorem eq_of_step_resume {s s' : IrcSocket} {i : ℕ} (h : step s (.resume i) = some s') :
    ∃ op, s.transferred[i]? = some op ∧
      s' = { s with
        initiated := if op.remaining = [] then s.initiated else s.initiated ++ [op]
        transferred := s.transferred.eraseIdx i } := by
  rw [step] at h
  cases hop : s.transferred[i]? with
  | none => simp [hop] at h
  | some op =>
      simp only [hop] at h
      exact ⟨op, rfl, (Option.some.inj h).symm⟩

/-- The operations of which something remains. -/
def unfinished (s : IrcSocket) : List WriteOp :=
  (s.initiated ++ s.transferred).filter fun op => op.remaining ≠ []

/-- A step is **in order** unless it transfers bytes of a line while the rest of an earlier
one, after a short write, is queued behind it. -/
def InOrder (s : IrcSocket) : Event → Prop
  | .serve _ => ∀ op ∈ s.initiated.head?, ∀ op' ∈ s.unfinished, op.line ≤ op'.line
  | _ => True

instance (s : IrcSocket) (e : Event) : Decidable (InOrder s e) := by
  cases e <;> simp only [InOrder] <;> infer_instance

/-- Remainders of consecutive lines, the first with number `k`. -/
def numbered (k : ℕ) : List Bytes → List WriteOp
  | [] => []
  | x :: xs => ⟨k, x⟩ :: numbered (k + 1) xs

/-- The lines are numbered one after the other, so that those behind others start where these end.
-/
theorem numbered_append (k : ℕ) (xs ys : List Bytes) :
    numbered k (xs ++ ys) = numbered k xs ++ numbered (k + xs.length) ys := by
  induction xs generalizing k with
  | nil => rfl
  | cons x xs ih =>
      have hlen : k + 1 + xs.length = k + (x :: xs).length := by
        rw [List.length_cons]
        omega
      rw [List.cons_append, numbered, numbered, ih, List.cons_append, hlen]

/-- No line has a smaller number than the first one. -/
theorem le_line_of_mem_numbered {k : ℕ} {xs : List Bytes} :
    ∀ op ∈ numbered k xs, k ≤ op.line := by
  induction xs generalizing k with
  | nil => simp [numbered]
  | cons x xs ih =>
      intro op hop
      rcases List.mem_cons.mp hop with rfl | hop
      · exact le_rfl
      · have := ih op hop
        omega

/-- **What the state says**: the remainders `left` of the last lines are all that is missing on
the wire, and they are what the unfinished operations hold. -/
structure Sound (s : IrcSocket) (left : List Bytes) (k : ℕ) : Prop where
  wire : s.wire ++ left.flatten = s.sent.flatten
  length : k + left.length = s.sent.length
  unfinished : s.unfinished.Perm (numbered k left)

/-- At the start nothing has been sent, and no write is under way. -/
theorem sound_init : Sound {} [] 0 where
  wire := rfl
  length := rfl
  unfinished := List.Perm.refl _

/-- A line is sent: its write is started behind those of all the lines before it. -/
theorem Sound.send {s : IrcSocket} {left : List Bytes} {k : ℕ} (h : Sound s left k)
    (raw : Bytes) :
    Sound
      { s with
        sent := s.sent ++ [raw ++ crlf]
        initiated := s.initiated ++ [⟨s.sent.length, raw ++ crlf⟩] }
      (left ++ [raw ++ crlf]) k where
  wire := by
    rw [List.flatten_append, List.flatten_append, ← List.append_assoc, h.wire]
  length := by
    have := h.length
    simp only [List.length_append, List.length_singleton]
    omega
  unfinished := by
    have hne : raw ++ crlf ≠ [] := by simp [crlf]
    have hperm := h.unfinished
    rw [numbered_append, h.length, numbered, numbered]
    simp only [IrcSocket.unfinished, List.filter_append] at hperm ⊢
    rw [List.filter_cons_of_pos (by simp [hne]), List.filter_nil, List.append_assoc]
    refine (List.Perm.append_left _ List.perm_append_comm).trans ?_
    rw [← List.append_assoc]
    exact hperm.append_right _

/-- A completion is handled: a write that has bytes left is started again, behind the writes that
have been started since, and no line loses or repeats a byte. -/
theorem Sound.resume {s : IrcSocket} {left : List Bytes} {k : ℕ} (h : Sound s left k)
    {i : ℕ} {op : WriteOp} (hop : s.transferred[i]? = some op) :
    Sound
      { s with
        initiated := if op.remaining = [] then s.initiated else s.initiated ++ [op]
        transferred := s.transferred.eraseIdx i } left k where
  wire := h.wire
  length := h.length
  unfinished := by
    refine List.Perm.trans ?_ h.unfinished
    obtain ⟨hlt, hget⟩ := List.getElem?_eq_some_iff.mp hop
    have herase : s.transferred.Perm (op :: s.transferred.eraseIdx i) := by
      rw [← hget]
      exact (List.getElem_cons_eraseIdx_perm hlt).symm
    have hfilter := herase.filter fun op => decide (op.remaining ≠ [])
    simp only [IrcSocket.unfinished, List.filter_append]
    refine List.Perm.trans ?_ (hfilter.append_left _).symm
    by_cases hrem : op.remaining = []
    · rw [if_pos hrem, List.filter_cons_of_neg (by simp [hrem])]
    · rw [if_neg hrem, List.filter_append, List.filter_cons_of_pos (by simp [hrem]),
        List.filter_cons_of_pos (by simp [hrem]), List.filter_nil, List.append_assoc,
        List.singleton_append]

/-- Some bytes of the oldest unfinished line are transferred. -/
theorem Sound.serve {s : IrcSocket} {left : List Bytes} {k : ℕ} (h : Sound s left k) {n : ℕ}
    {op : WriteOp} {ops : List WriteOp} (hop : s.initiated = op :: ops) (hpos : 0 < n)
    (hle : n ≤ op.remaining.length) (horder : ∀ op' ∈ s.unfinished, op.line ≤ op'.line) :
    ∃ left' k', Sound
      { s with
        initiated := ops
        transferred := s.transferred ++ [{ op with remaining := op.remaining.drop n }]
        wire := s.wire ++ op.remaining.take n } left' k' := by
  have hne : op.remaining ≠ [] := by
    intro hnil
    rw [hnil, List.length_nil] at hle
    omega
  have hunfinished : s.unfinished =
      op :: (ops ++ s.transferred).filter fun op => op.remaining ≠ [] := by
    rw [IrcSocket.unfinished, hop, List.cons_append, List.filter_cons_of_pos (by simp [hne])]
  have hperm := h.unfinished
  rw [hunfinished] at hperm
  have hmem : op ∈ numbered k left := hperm.subset List.mem_cons_self
  match left with
  | [] => exact absurd hmem (by simp [numbered])
  | x :: left =>
      -- The operation in order is the one of the first remainder.
      obtain rfl : op = ⟨k, x⟩ := by
        rcases List.mem_cons.mp hmem with heq | hlater
        · exact heq
        · have hge := le_line_of_mem_numbered op hlater
          have hle' := horder ⟨k, x⟩ (h.unfinished.symm.subset List.mem_cons_self)
          simp only at hle'
          omega
      have hrest : ((ops ++ s.transferred).filter fun op => op.remaining ≠ []).Perm
          (numbered (k + 1) left) := hperm.cons_inv
      have hlength := h.length
      rw [List.length_cons] at hlength
      have hwire := h.wire
      rw [List.flatten_cons] at hwire
      by_cases hdone : x.drop n = []
      · -- The line is complete.
        have htake : x.take n = x := by
          have := List.take_append_drop n x
          rwa [hdone, List.append_nil] at this
        refine ⟨left, k + 1, ?_, ?_, ?_⟩
        · simp only [htake]
          rw [List.append_assoc, hwire]
        · simp only
          omega
        · rw [IrcSocket.unfinished, ← List.append_assoc, List.filter_append]
          simpa [hdone] using hrest
      · -- A short write.
        refine ⟨x.drop n :: left, k, ?_, ?_, ?_⟩
        · simp only [List.flatten_cons]
          rw [List.append_assoc, ← List.append_assoc (x.take n), List.take_append_drop, hwire]
        · rw [List.length_cons]
          exact hlength
        · rw [IrcSocket.unfinished, ← List.append_assoc, List.filter_append,
            List.filter_cons_of_pos (by simp [hdone]), List.filter_nil, numbered]
          exact (List.perm_append_comm).trans (hrest.cons _)

/-- **A step in order keeps the remainders in the order of the lines**: a line is sent behind all
the others, a transfer shortens the first remainder or ends it, a completion moves nothing. -/
theorem Sound.step {s s' : IrcSocket} {left : List Bytes} {k : ℕ} (h : Sound s left k) {e : Event}
    (horder : InOrder s e) (hstep : IrcSocket.step s e = some s') :
    ∃ left' k', Sound s' left' k' := by
  cases e with
  | send raw =>
      obtain rfl := Option.some.inj hstep
      exact ⟨_, _, h.send raw⟩
  | serve n =>
      obtain ⟨op, ops, hop, ⟨hpos, hle⟩, rfl⟩ := eq_of_step_serve hstep
      exact h.serve hop hpos hle (horder op (by rw [hop]; rfl))
  | resume i =>
      obtain ⟨op, hop, rfl⟩ := eq_of_step_resume hstep
      exact ⟨left, k, h.resume hop⟩

/-- Only a call of `send` adds to the lines sent. -/
theorem sent_of_step {s s' : IrcSocket} {e : Event} (he : ∀ raw, e ≠ .send raw)
    (hstep : step s e = some s') : s'.sent = s.sent := by
  cases e with
  | send raw => exact absurd rfl (he raw)
  | serve n =>
      obtain ⟨op, ops, -, -, rfl⟩ := eq_of_step_serve hstep
      rfl
  | resume i =>
      obtain ⟨op, -, rfl⟩ := eq_of_step_resume hstep
      rfl

/-- The line that an event sends, with its terminator, if it is a call of `send`. -/
def Event.lines : Event → List Bytes
  | .send raw => [raw ++ crlf]
  | _ => []

/-- **The lines recorded are those of the calls of `send`**, in the order of the calls. This
connects the record of the state with the events of the run. -/
theorem sent_of_run {es : List Event} {s s' : IrcSocket} (hrun : run step s es = some s') :
    s'.sent = s.sent ++ es.flatMap Event.lines := by
  refine eq_append_of_run (f := sent) (fun s e s' hstep => ?_) hrun
  cases e with
  | send raw =>
      obtain rfl := Option.some.inj hstep
      rfl
  | _ => simpa [Event.lines] using sent_of_step (by simp) hstep

/-- **In every run in order the wire holds a prefix of the lines sent**, in the order of the
calls of `send`. -/
theorem wire_isPrefix_of_inOrder {es : List Event} {s : IrcSocket}
    (horder : Along step InOrder {} es) (hrun : run step {} es = some s) :
    s.wire <+: (es.flatMap Event.lines).flatten := by
  have hinv : ∃ left k, Sound s left k :=
    run_invariant (I := fun s => ∃ left k, Sound s left k) (C := InOrder)
      (fun t e t' ⟨_, _, h⟩ hC hstep => h.step hC hstep) ⟨[], 0, sound_init⟩ horder hrun
  obtain ⟨left, k, h⟩ := hinv
  have hsent : s.sent = es.flatMap Event.lines := sent_of_run hrun
  exact ⟨left.flatten, hsent ▸ h.wire⟩

/-- A login in which the first line is written in two parts, and the second is sent when the
second part has been initiated. -/
def login : List Event :=
  [.send (ascii "PASS oauth"), .serve 5, .resume 0, .send (ascii "NICK bot"), .serve 7, .serve 10]

/-- A login whose transfers serve the lines in order: the bytes on the wire are those of the
lines. -/
theorem wire_login :
    ∃ s, run step {} login = some s ∧
      s.wire = ascii "PASS oauth" ++ crlf ++ ascii "NICK bot" ++ crlf ∧
      s.wire <+: (login.flatMap Event.lines).flatten :=
  ⟨_, rfl, by decide, wire_isPrefix_of_inOrder (by decide : Along step InOrder {} login) rfl⟩

/-- The two lines of the login, the first cut by a short write. -/
theorem not_wire_isPrefix_login :
    ∃ s, run step {} [.send (ascii "PASS oauth"), .send (ascii "NICK bot"), .serve 4, .serve 10] =
        some s ∧
      s.sent = Effect.lines (IrcClient.connected (ascii "oauth") (ascii "bot")) ∧
      ¬ s.wire <+: (Effect.lines (IrcClient.connected (ascii "oauth") (ascii "bot"))).flatten :=
  ⟨_, rfl, by decide, by decide⟩

end IrcSocket

end BoostIrc
