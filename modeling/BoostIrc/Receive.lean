import BoostIrc.Dispatch
import BoostIrc.Pieces

/-!
# The Receive Loop

`irc_client::read()` reads from the socket until the stream buffer holds a line terminator,
and then hands the contents of the buffer to `read(line)`, line by line, until the buffer is
empty (`Receiver.drain`). Bytes that had arrived behind the last terminator are handed over
as well, as a line of their own.

The loop is modelled for an arbitrary `read(line)`. The bytes arrive in chunks, one for each
successful `async_read_some`; a chunk is taken up by `Receiver.receive`.

## Main results

* `Receiver.drain_eq`: what one run of the handler delivers.
* `Receiver.Consistent.receive`: what has been done is what is done about the lines delivered.
* `Receiver.Sound.receive`, `Receiver.Sound.foldl`: what has been delivered after one chunk and
  after any number, as long as the handler never cuts a line of the complete part of the stream.
* `Receiver.texts_eq_of_cleanRun`: **the lines delivered do not depend on the chunks** that far.
-/

open Pieces

namespace BoostIrc

/-- A string handed to `read(line)`, with the place in the stream where it began. -/
abbrev Delivery := ℕ × Bytes

/-- The state of the receive loop: the stream buffer, how many bytes have been extracted from
it, the strings handed over, what was done about them, and how the thread ended, if it did. -/
structure Receiver where
  response : Bytes := []
  consumed : ℕ := 0
  delivered : List Delivery := []
  effects : List Effect := []
  fault : Option Fault := none
  deriving DecidableEq, Repr

namespace Receiver

variable (read : Bytes → Except Fault (List Effect))

/-- One round of the loop: `getline`, then `read(line)`. The line feed, if there was one, is
extracted too. -/
def round (s : Receiver) : Receiver :=
  let (line, rest) := getline s.response
  let s' : Receiver :=
    { s with
      response := rest
      consumed := s.consumed + (s.response.length - rest.length)
      delivered := s.delivered ++ [(s.consumed, line)] }
  match read line with
  | .ok es => { s' with effects := s'.effects ++ es }
  | .error e => { s' with fault := some e }

/-- The `do`-`while` loop of the handler, with fuel: it goes round until the buffer is empty or
an exception leaves it. -/
def drain : ℕ → Receiver → Receiver
  | 0, s => s
  | n + 1, s =>
      let s' := round read s
      if s'.fault.isNone ∧ s'.response ≠ [] then drain n s' else s'

/-- A chunk arrives: it is appended to the buffer, and the handler runs if that holds a
terminator. After an exception nothing happens any more. -/
def receive (s : Receiver) (chunk : Bytes) : Receiver :=
  if s.fault.isSome then
    s
  else
    let s' : Receiver := { s with response := s.response ++ chunk }
    if crlf <:+: s'.response then drain read s'.response.length s' else s'

/-- The state after the chunks of a run. -/
def run (chunks : List Bytes) : Receiver :=
  chunks.foldl (receive read) {}

/-! ### What a run of the handler delivers -/

/-- The strings that are handed over, of a list of lines: all up to the first for which
`read(line)` throws. -/
def attempted : List Bytes → List Bytes
  | [] => []
  | p :: ps => p :: match read p with
    | .ok _ => attempted ps
    | .error _ => []

/-- What is done about a list of lines, and how it ends. -/
def outcome : List Bytes → List Effect × Option Fault
  | [] => ([], none)
  | p :: ps => match read p with
    | .ok es => (es ++ (outcome ps).1, (outcome ps).2)
    | .error e => ([], some e)

variable {read}

/-- As long as nothing is thrown every line is handed over. -/
theorem attempted_append {ps : List Bytes} (h : (outcome read ps).2 = none) (qs : List Bytes) :
    attempted read (ps ++ qs) = ps ++ attempted read qs := by
  induction ps with
  | nil => rfl
  | cons p ps ih =>
      rw [outcome] at h
      rw [List.cons_append, attempted, List.cons_append]
      cases hread : read p with
      | ok es =>
          rw [hread] at h
          simp only [ih h]
      | error e =>
          rw [hread] at h
          exact absurd h (by simp)

/-- Where no line has thrown, all of them have been read. -/
theorem attempted_of_outcome {ps : List Bytes} (h : (outcome read ps).2 = none) :
    attempted read ps = ps := by
  have := attempted_append h []
  simpa [attempted] using this

/-- Once something is thrown no further line is handed over. -/
theorem attempted_append_of_fault {ps : List Bytes} (h : (outcome read ps).2 ≠ none)
    (qs : List Bytes) : attempted read (ps ++ qs) = attempted read ps := by
  induction ps with
  | nil => exact absurd rfl h
  | cons p ps ih =>
      rw [outcome] at h
      rw [List.cons_append, attempted, attempted]
      cases hread : read p with
      | ok es =>
          rw [hread] at h
          simp only [ih h]
      | error e => rfl

/-- Lines that come behind others, none of which has thrown: the effects follow each other. -/
theorem outcome_append {ps : List Bytes} (h : (outcome read ps).2 = none) (qs : List Bytes) :
    outcome read (ps ++ qs) =
      ((outcome read ps).1 ++ (outcome read qs).1, (outcome read qs).2) := by
  induction ps with
  | nil => rfl
  | cons p ps ih =>
      rw [outcome] at h
      rw [List.cons_append, outcome, outcome]
      cases hread : read p with
      | ok es =>
          rw [hread] at h
          simp only [ih h, List.append_assoc]
      | error e =>
          rw [hread] at h
          exact absurd h (by simp)

/-- Behind a line that has thrown no line is read. -/
theorem outcome_append_of_fault {ps : List Bytes} (h : (outcome read ps).2 ≠ none)
    (qs : List Bytes) : outcome read (ps ++ qs) = outcome read ps := by
  induction ps with
  | nil => exact absurd rfl h
  | cons p ps ih =>
      rw [outcome] at h
      rw [List.cons_append, outcome, outcome]
      cases hread : read p with
      | ok es =>
          rw [hread] at h
          simp only [ih h]
      | error e => rfl

/-- One round on a buffer that starts with the line `w`, when `read(line)` returns. -/
theorem round_of_ok {s : Receiver} {w rest : Bytes} {es : List Effect}
    (hget : getline s.response = (w, rest)) (hread : read w = .ok es) :
    round read s =
      { response := rest
        consumed := s.consumed + (s.response.length - rest.length)
        delivered := s.delivered ++ [(s.consumed, w)]
        effects := s.effects ++ es
        fault := s.fault } := by
  simp only [round, hget, hread]

/-- One round on a buffer that starts with the line `w`, when `read(line)` throws. -/
theorem round_of_error {s : Receiver} {w rest : Bytes} {e : Fault}
    (hget : getline s.response = (w, rest)) (hread : read w = .error e) :
    round read s =
      { response := rest
        consumed := s.consumed + (s.response.length - rest.length)
        delivered := s.delivered ++ [(s.consumed, w)]
        effects := s.effects
        fault := some e } := by
  simp only [round, hget, hread]

variable (read) in
/-- **What a run of the handler delivers**: the pieces of the buffer, up to the first that
`read(line)` does not survive. -/
theorem drain_eq {n : ℕ} {s : Receiver} (hn : s.response.length ≤ n) (hne : s.response ≠ [])
    (hf : s.fault = none) :
    (drain read n s).delivered =
        s.delivered ++ placed s.consumed (attempted read (pieces LF s.response)) ∧
      (drain read n s).effects = s.effects ++ (outcome read (pieces LF s.response)).1 ∧
      (drain read n s).fault = (outcome read (pieces LF s.response)).2 ∧
      ((outcome read (pieces LF s.response)).2 = none →
        (drain read n s).response = [] ∧
          (drain read n s).consumed = s.consumed + s.response.length) := by
  obtain ⟨buf, consumed, delivered, effects, fault⟩ := s
  simp only at hn hne hf ⊢
  subst hf
  obtain ⟨n, rfl⟩ : ∃ n', n = n' + 1 :=
    ⟨n - 1, by have := List.length_pos_iff.mpr hne; omega⟩
  -- The induction follows the rounds: each takes the first piece off the buffer.
  induction buf using pieces_rec LF generalizing n consumed delivered effects with
  | nil => exact absurd rfl hne
  | last w hw hlf =>
      have hget := getline_of_notMem hlf
      rw [pieces_of_notMem hw hlf]
      cases hread : read w with
      | ok es =>
          rw [drain, round_of_ok hget hread]
          simp [attempted, outcome, placed, hread]
      | error e =>
          rw [drain, round_of_error hget hread]
          simp [attempted, outcome, placed, hread]
  | piece w l hlf ih =>
      have hget := getline_append_lf hlf l
      have hlen : (w ++ LF :: l).length - l.length = w.length + 1 := by
        rw [List.length_append, List.length_cons]
        omega
      rw [pieces_append_sep hlf]
      cases hread : read w with
      | error e =>
          rw [drain, round_of_error hget hread]
          simp [attempted, outcome, placed, hread]
      | ok es =>
          rw [drain, round_of_ok hget hread]
          by_cases hl : l = []
          · subst hl
            simp [attempted, outcome, placed, hread]
          · obtain ⟨n, rfl⟩ : ∃ n', n = n' + 1 := by
              have := List.length_pos_iff.mpr hl
              rw [List.length_append, List.length_cons] at hn
              exact ⟨n - 1, by omega⟩
            have hrest := ih (consumed + (w.length + 1)) (delivered ++ [(consumed, w)])
              (effects ++ es) hl n (by simp at hn; omega)
            simp only [hlen, Option.isNone_none, true_and, if_pos hl, outcome, attempted, hread,
              placed]
            obtain ⟨hdelivered, heffects, hfault, hdone⟩ := hrest
            refine ⟨?_, ?_, hfault, fun h => ?_⟩
            · rw [hdelivered, List.append_assoc, List.singleton_append, Nat.add_assoc]
            · rw [heffects, List.append_assoc]
            · obtain ⟨hresponse, hconsumed⟩ := hdone h
              refine ⟨hresponse, ?_⟩
              rw [hconsumed, List.length_append, List.length_cons]
              omega

variable (read) in
/-- **A chunk on which the handler runs**: the pieces of the buffer are handed over behind what
was handed over before, and unless one of them is not survived, all of the buffer is consumed. -/
theorem receive_of_term {s : Receiver} {chunk : Bytes} (hfault : s.fault = none)
    (hterm : crlf <:+: s.response ++ chunk) :
    (s.receive read chunk).delivered =
        s.delivered ++ placed s.consumed (attempted read (pieces LF (s.response ++ chunk))) ∧
      (s.receive read chunk).effects =
        s.effects ++ (outcome read (pieces LF (s.response ++ chunk))).1 ∧
      (s.receive read chunk).fault = (outcome read (pieces LF (s.response ++ chunk))).2 ∧
      ((outcome read (pieces LF (s.response ++ chunk))).2 = none →
        (s.receive read chunk).response = [] ∧
          (s.receive read chunk).consumed = s.consumed + (s.response ++ chunk).length) := by
  have hne : s.response ++ chunk ≠ [] := by
    intro hnil
    rw [hnil] at hterm
    exact absurd hterm (by decide)
  have hrun : s.receive read chunk =
      drain read (s.response ++ chunk).length { s with response := s.response ++ chunk } := by
    simp [receive, hfault, hterm]
  rw [hrun]
  exact drain_eq read (s := { s with response := s.response ++ chunk }) le_rfl hne hfault

variable (read) in
/-- **A chunk with which the buffer holds no terminator** waits there. The handler is not called,
and nothing is delivered. -/
theorem receive_of_not_term {s : Receiver} {chunk : Bytes} (hfault : s.fault = none)
    (hterm : ¬ crlf <:+: s.response ++ chunk) :
    s.receive read chunk = { s with response := s.response ++ chunk } := by
  simp [receive, hfault, hterm]

/-- After an exception the state stays as it is. -/
theorem receive_of_fault {s : Receiver} (hfault : s.fault ≠ none) (chunk : Bytes) :
    s.receive read chunk = s := by
  simp [receive, Option.isSome_iff_ne_none, hfault]

/-- After an exception the state stays as it is, whatever else is received. -/
theorem foldl_receive_of_fault {s : Receiver} (hfault : s.fault ≠ none) (chunks : List Bytes) :
    chunks.foldl (receive read) s = s := by
  induction chunks with
  | nil => rfl
  | cons c cs ih => rw [List.foldl_cons, receive_of_fault hfault, ih]

/-- A single line is handed over in any case. -/
theorem attempted_singleton (p : Bytes) : attempted read [p] = [p] := by
  rw [attempted]
  cases read p <;> rfl

/-- What is handed over of a list of lines would be handed over again: it ends with the first
line that is not survived. -/
theorem attempted_attempted (ps : List Bytes) :
    attempted read (attempted read ps) = attempted read ps := by
  induction ps with
  | nil => rfl
  | cons p ps ih =>
      rw [attempted]
      cases hread : read p with
      | ok es => simp only [attempted, hread, ih]
      | error e => simp only [attempted, hread]

/-- The lines behind the first that `read(line)` does not survive do not count: what is done
about a list of lines is what is done about those that are handed over. -/
theorem outcome_attempted (ps : List Bytes) :
    outcome read (attempted read ps) = outcome read ps := by
  induction ps with
  | nil => rfl
  | cons p ps ih =>
      rw [attempted, outcome]
      cases hread : read p with
      | ok es => simp only [outcome, hread, ih]
      | error e => simp only [outcome, hread]

/-- What is handed over of a list of lines is a part of it from the front. -/
theorem attempted_isPrefix (ps : List Bytes) : attempted read ps <+: ps := by
  induction ps with
  | nil => exact List.prefix_rfl
  | cons p ps ih =>
      rw [attempted]
      cases read p with
      | ok es => exact List.cons_prefix_cons.mpr ⟨rfl, ih⟩
      | error e => exact List.cons_prefix_cons.mpr ⟨rfl, List.nil_prefix⟩

/-- **What has been done is what is done about the lines delivered**, and no line has a line
feed. -/
structure Consistent (read : Bytes → Except Fault (List Effect)) (s : Receiver) : Prop where
  outcome : outcome read (s.delivered.map Prod.snd) = (s.effects, s.fault)
  lines : ∀ d ∈ s.delivered, LF ∉ d.2

/-- Nothing has been delivered at the start, and nothing done. -/
theorem consistent_init (read : Bytes → Except Fault (List Effect)) : Consistent read {} :=
  ⟨rfl, by simp⟩

/-- **A chunk keeps the log and the effects in step**, whatever it holds, and takes back nothing
that has been done. -/
theorem Consistent.receive {s : Receiver} (h : Consistent read s) (chunk : Bytes) :
    Consistent read (s.receive read chunk) ∧ s.effects <+: (s.receive read chunk).effects := by
  by_cases hfault : s.fault = none
  · by_cases hterm : crlf <:+: s.response ++ chunk
    · obtain ⟨hdelivered, heffects, hfault', -⟩ := receive_of_term read hfault hterm
      have hold := h.outcome
      rw [hfault] at hold
      refine ⟨⟨?_, ?_⟩, heffects ▸ List.prefix_append _ _⟩
      · rw [hdelivered, heffects, hfault', List.map_append, placed_map_snd,
          outcome_append (by rw [hold]), outcome_attempted, hold]
      · rw [hdelivered]
        refine List.forall_mem_append.mpr ⟨h.lines, fun d hd => ?_⟩
        have hpiece : d.2 ∈ (placed s.consumed
            (attempted read (pieces LF (s.response ++ chunk)))).map Prod.snd :=
          List.mem_map_of_mem hd
        rw [placed_map_snd] at hpiece
        exact notMem_of_mem_pieces _ ((attempted_isPrefix _).subset hpiece)
    · rw [receive_of_not_term read hfault hterm]
      exact ⟨⟨h.outcome, h.lines⟩, List.prefix_rfl⟩
  · rw [receive_of_fault hfault]
    exact ⟨h, List.prefix_rfl⟩

end Receiver

/-! ### Streams -/

/-- **What the server sends**: a complete part, up to the last line terminator, and the
rest. -/
structure Stream where
  complete : Bytes
  rest : Bytes
  complete_ends : complete = [] ∨ crlf <:+ complete
  rest_open : ¬ crlf <:+: rest

namespace Stream

/-- All the bytes. -/
def bytes (S : Stream) : Bytes :=
  S.complete ++ S.rest

/-- A run has **covered** the stream: it received all of the complete part, and nothing but
the stream. -/
structure Covered (S : Stream) (chunks : List Bytes) : Prop where
  complete : S.complete <+: chunks.flatten
  bytes : chunks.flatten <+: S.bytes

/-- No line of the complete part is unfinished. -/
theorem closed_complete (S : Stream) : Closed LF S.complete := by
  rcases S.complete_ends with h | ⟨w, h⟩
  · rw [h]
    exact closed_nil
  · rw [← h, crlf, show w ++ [CR, LF] = (w ++ [CR]) ++ [LF] by simp]
    exact closed_concat _

/-- No terminator starts behind the complete part, nor at its last byte. -/
theorem not_infix_drop (S : Stream) {k : ℕ} (hk : S.complete.length ≤ k + 1) :
    ¬ crlf <:+: S.bytes.drop k := by
  intro h
  have hlast : ¬ crlf <:+: S.bytes.drop (S.complete.length - 1) := by
    rcases S.complete_ends with hnil | ⟨w, hw⟩
    · rw [hnil, List.length_nil, Nat.zero_sub, List.drop_zero, bytes, hnil, List.nil_append]
      exact S.rest_open
    · have hbytes : S.bytes = (w ++ [CR]) ++ LF :: S.rest := by
        rw [bytes, ← hw, crlf]
        simp
      have hlen : S.complete.length - 1 = (w ++ [CR]).length := by
        rw [← hw, crlf]
        simp
      rw [hbytes, hlen, List.drop_left, List.infix_cons_iff]
      rintro (h | h)
      · exact absurd (List.cons_prefix_cons.mp h).1 (by decide)
      · exact S.rest_open h
  exact hlast (h.trans (List.drop_suffix_drop_left _ (by omega)).isInfix)

end Stream

namespace Receiver

variable (read : Bytes → Except Fault (List Effect))

/-- The texts handed over that began among the first `m` bytes of the stream. -/
def texts (m : ℕ) (s : Receiver) : List Bytes :=
  (s.delivered.filter (·.1 < m)).map Prod.snd

/-- A chunk is **clean**: if the handler runs on it, while more than one of the first `m`
bytes of the stream is still to come, and survives the lines before the last, then there is
no unfinished line in the buffer. -/
def CleanStep (m : ℕ) (s : Receiver) (chunk : Bytes) : Prop :=
  s.fault = none → crlf <:+: s.response ++ chunk →
    s.consumed + (s.response ++ chunk).length + 1 < m →
      (outcome read (pieces LF (s.response ++ chunk)).dropLast).2 = none →
        Closed LF (s.response ++ chunk)

/-- All the chunks of a run are clean. -/
def CleanRun (m : ℕ) : Receiver → List Bytes → Prop
  | _, [] => True
  | s, c :: cs => CleanStep read m s c ∧ CleanRun m (receive read s c) cs

/-- **What the state says** of a stream of which `got` has been received: the loop has
consumed `done`, handed over its lines, and, if it is still running, holds the rest. -/
structure Sound (m : ℕ) (s : Receiver) (got : Bytes) (done : Bytes) : Prop where
  done_isPrefix : done <+: got
  delivered : s.delivered = placed 0 (attempted read (pieces LF done))
  effects : s.effects = (outcome read (pieces LF done)).1
  fault : s.fault = (outcome read (pieces LF done)).2
  running : s.fault = none →
    done ++ s.response = got ∧ s.consumed = done.length ∧ ¬ crlf <:+: s.response
  closed : Closed LF done ∨ m ≤ done.length + 1

instance (m : ℕ) (s : Receiver) (chunk : Bytes) : Decidable (CleanStep read m s chunk) :=
  inferInstanceAs (Decidable (_ → _ → _ → _ → _))

instance decidableCleanRun (m : ℕ) : ∀ s chunks, Decidable (CleanRun read m s chunks)
  | _, [] => isTrue trivial
  | s, c :: cs =>
      have := decidableCleanRun m (receive read s c) cs
      inferInstanceAs (Decidable (_ ∧ _))

variable {read}

variable (read) in
/-- At the start nothing has been received, and nothing is in the buffer. -/
theorem sound_init (m : ℕ) : Sound read m {} [] [] where
  done_isPrefix := List.prefix_rfl
  delivered := rfl
  effects := rfl
  fault := rfl
  running _ := ⟨rfl, rfl, by decide⟩
  closed := Or.inl closed_nil

/-- A chunk on which the handler runs. Of the buffer, `x` counts: either all of it, or the
part before an unfinished line that is not reached. -/
theorem Sound.advance {m : ℕ} {s : Receiver} {got done chunk x w : Bytes}
    (h : Sound read m s got done) (hclosed : Closed LF done) (hfault : s.fault = none)
    (hterm : crlf <:+: s.response ++ chunk) (hbuf : s.response ++ chunk = x ++ w)
    (hattempted : attempted read (pieces LF (x ++ w)) = attempted read (pieces LF x))
    (houtcome : outcome read (pieces LF (x ++ w)) = outcome read (pieces LF x))
    (hall : (outcome read (pieces LF x)).2 = none → w = [])
    (hend : Closed LF x ∨ m ≤ (done ++ x).length + 1) :
    Sound read m (s.receive read chunk) (got ++ chunk) (done ++ x) := by
  obtain ⟨hresponse, hconsumed, -⟩ := h.running hfault
  have hgot : done ++ (x ++ w) = got ++ chunk := by
    rw [← hbuf, ← List.append_assoc, hresponse]
  have hdone : (outcome read (pieces LF done)).2 = none := h.fault ▸ hfault
  obtain ⟨hdelivered, heffects, hfault', hdrained⟩ := receive_of_term read hfault hterm
  simp only [hbuf, hattempted, houtcome] at hdelivered heffects hfault' hdrained
  have hpieces : pieces LF (done ++ x) = pieces LF done ++ pieces LF x := pieces_append hclosed x
  refine ⟨⟨w, ?_⟩, ?_, ?_, ?_, ?_, ?_⟩
  · rw [List.append_assoc, hgot]
  · rw [hdelivered, h.delivered, hpieces, attempted_append hdone,
      attempted_of_outcome hdone, placed_append 0 hclosed, hconsumed, Nat.zero_add]
  · rw [heffects, h.effects, hpieces, outcome_append hdone]
  · rw [hfault', hpieces, outcome_append hdone]
  · intro hnone
    obtain rfl : w = [] := hall (hfault' ▸ hnone)
    obtain ⟨hempty, hcount⟩ := hdrained (hfault' ▸ hnone)
    rw [List.append_nil] at hgot hcount
    refine ⟨by rw [hempty, List.append_nil, hgot], ?_, by rw [hempty]; decide⟩
    rw [hcount, hconsumed, List.length_append]
  · exact hend.imp_left hclosed.append

/-- **One chunk**, received cleanly: the lines that it completes are read, and the buffer holds what
is left of the last one. -/
theorem Sound.receive {S : Stream} {s : Receiver} {got done chunk : Bytes}
    (h : Sound read S.complete.length s got done) (hgot : got ++ chunk <+: S.bytes)
    (hclean : CleanStep read S.complete.length s chunk) :
    ∃ done', Sound read S.complete.length (s.receive read chunk) (got ++ chunk) done' := by
  cases hfault : s.fault with
  | some e =>
      -- The thread is gone: the state stays as it is.
      refine ⟨done, ?_⟩
      rw [receive_of_fault (by simp [hfault])]
      exact { h with
        done_isPrefix := h.done_isPrefix.trans (List.prefix_append got chunk)
        running := fun hnone => absurd hnone (by simp [hfault]) }
  | none =>
      obtain ⟨hresponse, hconsumed, -⟩ := h.running hfault
      have hall : done ++ (s.response ++ chunk) = got ++ chunk := by
        rw [← List.append_assoc, hresponse]
      by_cases hterm : crlf <:+: s.response ++ chunk
      · -- The handler runs. It has not consumed the complete part before.
        have hclosed : Closed LF done := by
          refine h.closed.resolve_right fun hm => S.not_infix_drop hm ?_
          obtain ⟨t, ht⟩ := hgot
          rw [← ht, ← hall, List.append_assoc, List.drop_left]
          exact hterm.trans (List.prefix_append _ t).isInfix
        by_cases hend : Closed LF (s.response ++ chunk) ∨
            S.complete.length ≤ (done ++ (s.response ++ chunk)).length + 1
        · refine ⟨_, h.advance hclosed hfault hterm (List.append_nil _).symm ?_ ?_
            (fun _ => rfl) hend⟩
          · rw [List.append_nil]
          · rw [List.append_nil]
        · -- The unfinished line is not reached.
          rw [not_or, List.length_append, ← hconsumed] at hend
          obtain ⟨x, w, hbuf, hx, hpieces⟩ := exists_of_not_closed hend.1
          have hearlier : (outcome read (pieces LF x)).2 ≠ none := by
            intro hnone
            refine hend.1 (hclean hfault hterm (by omega) ?_)
            rw [hpieces, List.dropLast_concat, hnone]
          rw [hbuf] at hpieces
          refine ⟨_, h.advance hclosed hfault hterm hbuf ?_ ?_
            (fun hnone => absurd hnone hearlier) (Or.inl hx)⟩
          · rw [hpieces, attempted_append_of_fault hearlier]
          · rw [hpieces, outcome_append_of_fault hearlier]
      · -- No terminator yet: the chunk waits in the buffer.
        refine ⟨done, ?_⟩
        rw [receive_of_not_term read hfault hterm]
        exact { h with
          done_isPrefix := h.done_isPrefix.trans (List.prefix_append got chunk)
          running := fun _ => ⟨hall, hconsumed, hterm⟩ }

/-- **A run of clean chunks**, by induction on the chunks: one of them after the other is received
cleanly. -/
theorem Sound.foldl {S : Stream} {s : Receiver} {got done : Bytes} {chunks : List Bytes}
    (h : Sound read S.complete.length s got done) (hgot : got ++ chunks.flatten <+: S.bytes)
    (hclean : CleanRun read S.complete.length s chunks) :
    ∃ done', Sound read S.complete.length (chunks.foldl (Receiver.receive read) s)
      (got ++ chunks.flatten) done' := by
  induction chunks generalizing s got done with
  | nil => exact ⟨done, by simpa using h⟩
  | cons c cs ih =>
      rw [List.flatten_cons, ← List.append_assoc] at hgot ⊢
      obtain ⟨done', h'⟩ := h.receive ((List.prefix_append _ _).trans hgot) hclean.1
      exact ih h' hgot hclean.2

/-! ### Independence of the chunks -/

/-- A filter on where the pieces start that they all pass. -/
theorem texts_of_length_le {m : ℕ} {x : Bytes} (hm : x.length ≤ m) {ps : List Bytes}
    (hps : ps <+: pieces LF x) :
    ((placed 0 ps).filter (·.1 < m)).map Prod.snd = ps := by
  have hall : ∀ d ∈ placed 0 ps, decide (d.1 < m) = true := by
    intro d hd
    have := start_lt_of_mem_placed d ((placed_isPrefix 0 hps).subset hd)
    simp only [decide_eq_true_eq]
    omega
  rw [List.filter_eq_self.mpr hall, placed_map_snd]

/-- The texts that begin in a closed part of what was consumed. -/
theorem texts_append {x : Bytes} (hx : Closed LF x) (y : Bytes) :
    ((placed 0 (attempted read (pieces LF (x ++ y)))).filter (·.1 < x.length)).map Prod.snd =
      attempted read (pieces LF x) := by
  rw [pieces_append hx]
  by_cases hfault : (outcome read (pieces LF x)).2 = none
  · have hlate : ∀ d ∈ placed (0 + x.length) (attempted read (pieces LF y)),
        ¬ decide (d.1 < x.length) = true := by
      intro d hd
      have := le_start_of_mem_placed d hd
      simp only [decide_eq_true_eq]
      omega
    rw [attempted_append hfault, placed_append 0 hx, List.filter_append,
      List.filter_eq_nil_iff.mpr hlate, List.append_nil, texts_of_length_le le_rfl List.prefix_rfl,
      attempted_of_outcome hfault]
  · rw [attempted_append_of_fault hfault]
    exact texts_of_length_le le_rfl (attempted_isPrefix _)

/-- **How far the loop is** once the complete part has been received: it has consumed it, or
all of it but the last line feed, or the thread is gone. -/
theorem Sound.progress {S : Stream} {s : Receiver} {got done : Bytes}
    (h : Sound read S.complete.length s got done) (hcomplete : S.complete <+: got) :
    (∃ y, done = S.complete ++ y) ∨
      (done.length ≤ S.complete.length ∧ pieces LF done = pieces LF S.complete) ∨
      (∃ x, S.complete = done ++ x ∧ Closed LF done ∧
        (outcome read (pieces LF done)).2 ≠ none) := by
  by_cases hm : S.complete.length ≤ done.length
  · obtain ⟨y, rfl⟩ := List.prefix_of_prefix_length_le hcomplete h.done_isPrefix hm
    exact Or.inl ⟨y, rfl⟩
  · obtain ⟨x, hx⟩ := List.prefix_of_prefix_length_le h.done_isPrefix hcomplete (by omega)
    have hlen : S.complete.length = done.length + x.length := by rw [← hx, List.length_append]
    obtain ⟨w, hw⟩ : crlf <:+ S.complete :=
      S.complete_ends.resolve_left fun hnil => hm (by simp [hnil])
    by_cases hlast : x.length = 1
    · -- All but the last line feed has been consumed.
      obtain ⟨b, rfl⟩ := List.length_eq_one_iff.mp hlast
      have hcat : done ++ [b] = (w ++ [CR]) ++ [LF] := by
        rw [hx, ← hw, crlf]
        simp
      obtain ⟨rfl, hb⟩ := List.append_inj' hcat rfl
      have hopen : ¬ Closed LF (w ++ [CR]) :=
        fun hclosed => absurd (hclosed CR (by simp)) (by decide)
      refine Or.inr (Or.inl ⟨by omega, ?_⟩)
      rw [← hx, hb, pieces_concat_sep hopen]
    · -- More than that is missing: only a thread that is gone leaves it.
      have hclosed : Closed LF done := h.closed.resolve_right (by omega)
      refine Or.inr (Or.inr ⟨x, hx.symm, hclosed, ?_⟩)
      rw [← h.fault]
      intro hnone
      obtain ⟨hresponse, -, hquiet⟩ := h.running hnone
      have hsuffix : crlf <:+ x := by
        refine List.suffix_of_suffix_length_le ⟨w, hw⟩ ⟨done, hx⟩ ?_
        simp only [crlf, List.length_cons, List.length_nil]
        omega
      obtain ⟨t, ht⟩ := hcomplete
      have hprefix : x <+: s.response := by
        rw [← hresponse, ← hx, List.append_assoc] at ht
        exact ⟨t, List.append_cancel_left ht⟩
      exact hquiet (hsuffix.isInfix.trans hprefix.isInfix)

/-- **What is delivered of the complete part**, once it has been received in clean chunks. These are
the lines up to the first at which `read(line)` throws, however the chunks have cut them. -/
theorem Sound.texts_eq {S : Stream} {s : Receiver} {got done : Bytes}
    (h : Sound read S.complete.length s got done) (hcomplete : S.complete <+: got) :
    s.texts S.complete.length = attempted read (pieces LF S.complete) := by
  rw [texts, h.delivered]
  rcases h.progress hcomplete with ⟨y, rfl⟩ | ⟨hlen, hpieces⟩ | ⟨x, hx, hclosed, hfault⟩
  · exact texts_append S.closed_complete y
  · rw [← hpieces]
    exact texts_of_length_le hlen (attempted_isPrefix _)
  · rw [hx, pieces_append hclosed, attempted_append_of_fault hfault]
    exact texts_of_length_le (by rw [List.length_append]; omega) (attempted_isPrefix _)

/-- **What a clean run delivers of a stream**: the lines of its complete part, up to the first
that `read(line)` does not survive. -/
theorem texts_run {S : Stream} {chunks : List Bytes} (hcovered : S.Covered chunks)
    (hclean : CleanRun read S.complete.length {} chunks) :
    (run read chunks).texts S.complete.length = attempted read (pieces LF S.complete) := by
  obtain ⟨done, h⟩ := (sound_init read S.complete.length).foldl hcovered.bytes hclean
  exact h.texts_eq hcovered.complete

/-- **The lines delivered do not depend on the chunks**, as long as in both runs the handler
finds no unfinished line of the complete part in the buffer. -/
theorem texts_eq_of_cleanRun {S : Stream} {chunks chunks' : List Bytes}
    (hcovered : S.Covered chunks) (hcovered' : S.Covered chunks')
    (hclean : CleanRun read S.complete.length {} chunks)
    (hclean' : CleanRun read S.complete.length {} chunks') :
    (run read chunks).texts S.complete.length = (run read chunks').texts S.complete.length := by
  rw [texts_run hcovered hclean, texts_run hcovered' hclean']

/-- A line and its terminator are one piece. -/
theorem pieces_append_crlf {line : Bytes} (h : LF ∉ line) :
    pieces LF (line ++ crlf) = [line ++ [CR]] := by
  rw [crlf, show line ++ [CR, LF] = (line ++ [CR]) ++ LF :: [] by simp,
    pieces_append_sep (lf_notMem_concat_cr h), pieces_nil]

variable (read) in
/-- **A line in a chunk of its own**, when the buffer is empty: the line is read with its carriage
return, and the buffer is empty again unless it has thrown. -/
theorem receive_line {s : Receiver} (hfault : s.fault = none) (hresponse : s.response = [])
    {line : Bytes} (hlf : LF ∉ line) :
    (s.receive read (line ++ crlf)).effects = s.effects ++ (outcome read [line ++ [CR]]).1 ∧
      (s.receive read (line ++ crlf)).fault = (outcome read [line ++ [CR]]).2 ∧
      ((outcome read [line ++ [CR]]).2 = none → (s.receive read (line ++ crlf)).response = []) := by
  have hterm : crlf <:+: s.response ++ (line ++ crlf) :=
    ((List.suffix_append line crlf).trans (List.suffix_append _ _)).isInfix
  obtain ⟨-, heffects, hfault', hend⟩ := receive_of_term read hfault hterm
  rw [hresponse, List.nil_append, pieces_append_crlf hlf] at heffects hfault' hend
  exact ⟨heffects, hfault', fun h => (hend h).1⟩

end Receiver

/-- Two lines, the second of which is cut by a chunk below. -/
def Stream.twoPings : Stream where
  complete := ascii "PING :a" ++ crlf ++ (ascii "PING :b" ++ crlf)
  rest := []
  complete_ends := Or.inr (by decide)
  rest_open := by decide

namespace Receiver

/-- The chunks may be the two lines, or one line each. -/
theorem texts_twoPings :
    (run (IrcClient.readLine IrcClient.handlers) [Stream.twoPings.complete]).texts 18 =
      (run (IrcClient.readLine IrcClient.handlers)
        [ascii "PING :a" ++ crlf, ascii "PING :b" ++ crlf]).texts 18 :=
  texts_eq_of_cleanRun (S := Stream.twoPings) ⟨by decide, by decide⟩ ⟨by decide, by decide⟩
    (by decide +kernel) (by decide +kernel)

/-- A chunk that ends inside the second line makes two lines of it. -/
theorem texts_twoPings_ne :
    Stream.twoPings.Covered [Stream.twoPings.complete] ∧
      Stream.twoPings.Covered [ascii "PING :a" ++ crlf ++ ascii "PI", ascii "NG :b" ++ crlf] ∧
      (run (IrcClient.readLine IrcClient.handlers) [Stream.twoPings.complete]).texts 18 ≠
        (run (IrcClient.readLine IrcClient.handlers)
          [ascii "PING :a" ++ crlf ++ ascii "PI", ascii "NG :b" ++ crlf]).texts 18 :=
  ⟨⟨by decide, by decide⟩, ⟨by decide, by decide⟩, by decide +kernel⟩

end Receiver

end BoostIrc
