import BoostIrc.Receive

/-!
# Where a Line Is Cut

A handler run of `irc_client::read()` takes everything that is in the buffer, and a buffer may
end inside a line: the line is then handed to `read(line)` in two parts, the second of them with
the carriage return of the terminator at its end. A line that no run cuts is handed over whole,
with that carriage return.

Both are said here of a line at any place in the stream, for every run of the loop, whatever
came before, and for an arbitrary `read(line)`. Nothing else can become of the line: the buffer
has to hold a terminator before the handler runs, and there is none inside the line, so that at
most one run ends there.

## Main results

* `Receiver.received_run`: what the state says of the bytes received, in every run.
* `Receiver.exists_effects_eq`: what is done about a part of the stream is a part of what is done.
* `Receiver.textsAt_of_drainsAt`: **a line in which a run of the handler ends is handed over in
  two parts**.
* `Receiver.textsAt_isPrefix`: any other line is handed over whole, or not at all.
-/

open Pieces

namespace BoostIrc

namespace Receiver

variable (read : Bytes → Except Fault (List Effect))

/-- The texts handed over that began at one of `len` bytes of the stream, from the byte `n`
on. -/
def textsAt (n len : ℕ) (s : Receiver) : List Bytes :=
  (s.delivered.filter fun d => n ≤ d.1 ∧ d.1 < n + len).map Prod.snd

/-- **What is done about a part of the stream**: the effects of the texts that began there. -/
def answers (n len : ℕ) (s : Receiver) : List Effect :=
  (outcome read (s.textsAt n len)).1

/-- The handler **drains the buffer at `n`** with a chunk: it runs when exactly `n` bytes of the
stream have been received, and survives the lines before the last, so that the last is handed
over too. -/
def DrainStep (n : ℕ) (s : Receiver) (chunk : Bytes) : Prop :=
  s.fault = none ∧ crlf <:+: s.response ++ chunk ∧
    s.consumed + (s.response ++ chunk).length = n ∧
      (outcome read (pieces LF (s.response ++ chunk)).dropLast).2 = none

/-- One of the chunks of a run is such a chunk. -/
def DrainsAt (n : ℕ) : Receiver → List Bytes → Prop
  | _, [] => False
  | s, c :: cs => DrainStep read n s c ∨ DrainsAt n (receive read s c) cs

instance (n : ℕ) (s : Receiver) (chunk : Bytes) : Decidable (DrainStep read n s chunk) :=
  inferInstanceAs (Decidable (_ ∧ _ ∧ _ ∧ _))

instance decidableDrainsAt (n : ℕ) : ∀ s chunks, Decidable (DrainsAt read n s chunks)
  | _, [] => isFalse fun h => h
  | s, c :: cs =>
      have := decidableDrainsAt n (receive read s c) cs
      inferInstanceAs (Decidable (_ ∨ _))

/-- **What the state says** of the bytes received: the log holds what was handed over, in order,
and what was done is what `read(line)` did about it; a loop that is still running has the rest
in its buffer, and no terminator in it. -/
structure Received (s : Receiver) (got : Bytes) : Prop extends Consistent read s where
  attempted : attempted read (s.delivered.map Prod.snd) = s.delivered.map Prod.snd
  sorted : s.delivered.Pairwise (·.1 < ·.1)
  running : s.fault = none → ∃ done, done ++ s.response = got ∧ s.consumed = done.length ∧
    ¬ crlf <:+: s.response ∧ ∀ d ∈ s.delivered, d.1 < s.consumed

variable {read}

/-! ### Every run -/

/-- The pieces of a text start one behind the other. -/
theorem pairwise_placed (k : ℕ) (ps : List Bytes) : (placed k ps).Pairwise (·.1 < ·.1) := by
  induction ps generalizing k with
  | nil => exact List.Pairwise.nil
  | cons p ps ih =>
      rw [placed, List.pairwise_cons]
      refine ⟨fun d hd => ?_, ih _⟩
      have := le_start_of_mem_placed d hd
      simp only
      omega

/-- **A chunk keeps what the state says**, of the bytes received before and those of the chunk. With
a terminator in the buffer all of it is drained, and otherwise the chunk waits there. -/
theorem Received.receive {s : Receiver} {got : Bytes} (h : Received read s got) (chunk : Bytes) :
    Received read (s.receive read chunk) (got ++ chunk) := by
  have hconsistent := (h.toConsistent.receive chunk).1
  by_cases hfault : s.fault = none
  · obtain ⟨done, hgot, hconsumed, -, hstarts⟩ := h.running hfault
    by_cases hterm : crlf <:+: s.response ++ chunk
    · -- The handler runs: the pieces of the buffer are handed over behind what was.
      have hnone : (outcome read (s.delivered.map Prod.snd)).2 = none := by
        rw [h.outcome, hfault]
      have hbefore : ∀ d ∈ placed s.consumed (Receiver.attempted read
          (pieces LF (s.response ++ chunk))), s.consumed ≤ d.1 := le_start_of_mem_placed
      obtain ⟨hdelivered, -, hfault', hend⟩ := receive_of_term read hfault hterm
      refine ⟨hconsistent, ?_, ?_, fun hrunning => ?_⟩
      · rw [hdelivered, List.map_append, placed_map_snd, attempted_append hnone,
          attempted_attempted]
      · rw [hdelivered, List.pairwise_append]
        refine ⟨h.sorted, pairwise_placed _ _, fun d hd d' hd' => ?_⟩
        exact (hstarts d hd).trans_le (hbefore d' hd')
      · obtain ⟨hempty, hcount⟩ := hend (hfault' ▸ hrunning)
        refine ⟨got ++ chunk, by rw [hempty, List.append_nil], ?_, by rw [hempty]; decide, ?_⟩
        · rw [hcount, hconsumed, ← hgot]
          simp only [List.length_append]
          omega
        · rw [hdelivered, hcount]
          intro d hd
          rcases List.mem_append.mp hd with hd | hd
          · exact (hstarts d hd).trans_le (Nat.le_add_right _ _)
          · exact start_lt_of_mem_placed d
              ((placed_isPrefix _ (attempted_isPrefix _)).subset hd)
    · have hwait := receive_of_not_term read hfault hterm
      rw [hwait] at hconsistent ⊢
      exact ⟨hconsistent, h.attempted, h.sorted, fun _ =>
        ⟨done, by rw [← List.append_assoc, hgot], hconsumed, hterm, hstarts⟩⟩
  · rw [receive_of_fault hfault]
    exact ⟨h.toConsistent, h.attempted, h.sorted, fun hnone => absurd hnone hfault⟩

variable (read) in
/-- At the start nothing has been received. -/
theorem received_init : Received read {} [] :=
  ⟨consistent_init read, rfl, List.Pairwise.nil, fun _ => ⟨[], rfl, rfl, by decide, by simp⟩⟩

/-- **Any number of chunks keeps it**, by induction on them. The bytes that they have in common with
other ways to cut the stream are seen in their concatenation only. -/
theorem Received.foldl {s : Receiver} {got : Bytes} (h : Received read s got)
    (chunks : List Bytes) :
    Received read (chunks.foldl (Receiver.receive read) s) (got ++ chunks.flatten) := by
  induction chunks generalizing s got with
  | nil => simpa using h
  | cons c cs ih =>
      rw [List.flatten_cons, ← List.append_assoc]
      exact ih (h.receive c)

variable (read) in
/-- **What the state says after every run** of the loop. Nothing is said of the stream: it may have
any bytes, and the chunks may cut it anywhere. -/
theorem received_run (chunks : List Bytes) :
    Received read (run read chunks) chunks.flatten := by
  have h := (received_init read).foldl chunks
  rwa [List.nil_append] at h

/-! ### What is done about a part of the stream -/

/-- The texts of a part of the log, from what surrounds them. -/
theorem textsAt_of_delivered {s : Receiver} {n len : ℕ} {ds₀ : List Delivery}
    (ds ds₁ : List Delivery) (h : s.delivered = ds₀ ++ ds ++ ds₁) (hbefore : ∀ d ∈ ds₀, d.1 < n)
    (hin : ∀ d ∈ ds, n ≤ d.1 ∧ d.1 < n + len) (hafter : ∀ d ∈ ds₁, n + len ≤ d.1) :
    s.textsAt n len = ds.map Prod.snd := by
  have hnone₀ : ∀ d ∈ ds₀, ¬ decide (n ≤ d.1 ∧ d.1 < n + len) = true := by
    intro d hd
    have := hbefore d hd
    simp only [decide_eq_true_eq]
    omega
  have hnone₁ : ∀ d ∈ ds₁, ¬ decide (n ≤ d.1 ∧ d.1 < n + len) = true := by
    intro d hd
    have := hafter d hd
    simp only [decide_eq_true_eq]
    omega
  have hall : ∀ d ∈ ds, decide (n ≤ d.1 ∧ d.1 < n + len) = true :=
    fun d hd => decide_eq_true (hin d hd)
  rw [textsAt, h, List.filter_append, List.filter_append, List.filter_eq_nil_iff.mpr hnone₀,
    List.filter_eq_nil_iff.mpr hnone₁, List.filter_eq_self.mpr hall, List.nil_append,
    List.append_nil]

/-- A log that is in order, taken apart at a place of the stream. -/
theorem exists_split_of_sorted {ds : List Delivery} (h : ds.Pairwise (·.1 < ·.1)) (n : ℕ) :
    ∃ ds₀ ds₁, ds = ds₀ ++ ds₁ ∧ (∀ d ∈ ds₀, d.1 < n) ∧ ∀ d ∈ ds₁, n ≤ d.1 := by
  induction ds with
  | nil => exact ⟨[], [], rfl, by simp, by simp⟩
  | cons d ds ih =>
      obtain ⟨hd, hds⟩ := List.pairwise_cons.mp h
      by_cases hlt : d.1 < n
      · obtain ⟨ds₀, ds₁, rfl, h₀, h₁⟩ := ih hds
        refine ⟨d :: ds₀, ds₁, rfl, fun x hx => ?_, h₁⟩
        rcases List.mem_cons.mp hx with rfl | hx
        · exact hlt
        · exact h₀ x hx
      · refine ⟨[], d :: ds, rfl, by simp, fun x hx => ?_⟩
        rcases List.mem_cons.mp hx with rfl | hx
        · exact not_lt.mp hlt
        · exact (not_lt.mp hlt).trans (hd x hx).le

/-- What is done about the front of a list that was handed over comes first. -/
theorem exists_outcome_append {ps qs : List Bytes}
    (h : attempted read (ps ++ qs) = ps ++ qs) :
    (outcome read (ps ++ qs)).1 = (outcome read ps).1 ++ (outcome read qs).1 ∧
      attempted read qs = qs := by
  by_cases hnone : (outcome read ps).2 = none
  · rw [attempted_append hnone, List.append_cancel_left_eq] at h
    exact ⟨by rw [outcome_append hnone], h⟩
  · rw [attempted_append_of_fault hnone] at h
    have hle : (attempted read ps).length ≤ ps.length := (attempted_isPrefix ps).length_le
    rw [h, List.length_append] at hle
    obtain rfl : qs = [] := List.length_eq_zero_iff.mp (by omega)
    exact ⟨by simp [outcome], rfl⟩

/-- **What is done about a part of the stream is a part of what is done**: the effects of the
client are those of the texts before it, those of its own, and those of the texts behind it. -/
theorem Received.exists_effects_eq {s : Receiver} {got : Bytes} (h : Received read s got)
    (n len : ℕ) : ∃ es es', s.effects = es ++ s.answers read n len ++ es' := by
  obtain ⟨ds₀, ds', hds, h₀, h'⟩ := exists_split_of_sorted h.sorted n
  have hsorted : ds'.Pairwise (·.1 < ·.1) := by
    have := h.sorted
    rw [hds] at this
    exact (List.pairwise_append.mp this).2.1
  obtain ⟨ds, ds₁, rfl, hmid, h₁⟩ := exists_split_of_sorted hsorted (n + len)
  have htexts : s.textsAt n len = ds.map Prod.snd :=
    textsAt_of_delivered ds ds₁ (by rw [hds, List.append_assoc]) h₀
      (fun d hd => ⟨h' d (List.mem_append_left _ hd), hmid d hd⟩) h₁
  have hattempted := h.attempted
  rw [hds, List.map_append, List.map_append] at hattempted
  obtain ⟨hfirst, hrest⟩ := exists_outcome_append hattempted
  obtain ⟨hsecond, -⟩ := exists_outcome_append hrest
  refine ⟨(outcome read (ds₀.map Prod.snd)).1, (outcome read (ds₁.map Prod.snd)).1, ?_⟩
  have heffects : s.effects = (outcome read (s.delivered.map Prod.snd)).1 := by rw [h.outcome]
  rw [heffects, hds, List.map_append, List.map_append, hfirst, hsecond, answers, htexts,
    List.append_assoc]

/-! ### Later chunks -/

variable (read) in
/-- Later chunks only add to the log, behind what has been consumed, and nothing after an
exception. -/
theorem exists_delivered_foldl (s : Receiver) (chunks : List Bytes) :
    ∃ ds, (chunks.foldl (receive read) s).delivered = s.delivered ++ ds ∧
      ∀ d ∈ ds, s.fault = none ∧ s.consumed ≤ d.1 := by
  induction chunks generalizing s with
  | nil => exact ⟨[], (List.append_nil _).symm, by simp⟩
  | cons c cs ih =>
      rw [List.foldl_cons]
      by_cases hfault : s.fault = none
      · by_cases hterm : crlf <:+: s.response ++ c
        · obtain ⟨hdelivered, -, hfault', hend⟩ := receive_of_term read hfault hterm
          obtain ⟨ds, hds, hlater⟩ := ih (s.receive read c)
          refine ⟨_, by rw [hds, hdelivered, List.append_assoc], fun d hd => ⟨hfault, ?_⟩⟩
          rcases List.mem_append.mp hd with hd | hd
          · exact le_start_of_mem_placed d hd
          · obtain ⟨hnone, hle⟩ := hlater d hd
            rw [(hend (hfault' ▸ hnone)).2] at hle
            omega
        · rw [receive_of_not_term read hfault hterm]
          exact ih { s with response := s.response ++ c }
      · rw [receive_of_fault hfault]
        exact ih s

variable (read) in
/-- **A handler run and what comes later**: the pieces of the buffer are handed over, and
everything later begins behind the buffer. -/
theorem exists_delivered_receive {s : Receiver} {chunk : Bytes} (hfault : s.fault = none)
    (hterm : crlf <:+: s.response ++ chunk) (chunks : List Bytes) :
    ∃ ds, (chunks.foldl (receive read) (s.receive read chunk)).delivered =
        s.delivered ++ placed s.consumed (attempted read (pieces LF (s.response ++ chunk))) ++ ds ∧
      ∀ d ∈ ds, s.consumed + (s.response ++ chunk).length ≤ d.1 := by
  obtain ⟨hdelivered, -, hfault', hend⟩ := receive_of_term read hfault hterm
  obtain ⟨ds, hds, hlater⟩ := exists_delivered_foldl read (s.receive read chunk) chunks
  refine ⟨ds, by rw [hds, hdelivered], fun d hd => ?_⟩
  obtain ⟨hnone, hle⟩ := hlater d hd
  rwa [(hend (hfault' ▸ hnone)).2] at hle

variable (read) in
/-- **The line at the front of the buffer** is handed over as soon as it is complete, and
everything later begins behind its line feed. A terminator is all that the handler waits for. -/
theorem exists_delivered_front {s : Receiver} {chunks : List Bytes} {w after : Bytes}
    (hfault : s.fault = none) (hquiet : ¬ crlf <:+: s.response) (hw : LF ∉ w)
    (hstream : s.response ++ chunks.flatten = w ++ LF :: after) :
    ∃ ds, (chunks.foldl (receive read) s).delivered = s.delivered ++ ds ∧
      ((ds = [] ∧ ¬ crlf <:+: w ++ LF :: after) ∨
        ∃ ds', ds = (s.consumed, w) :: ds' ∧ ∀ d ∈ ds', s.consumed + w.length + 1 ≤ d.1) := by
  induction chunks generalizing s with
  | nil =>
      rw [List.flatten_nil, List.append_nil] at hstream
      exact ⟨[], (List.append_nil _).symm, Or.inl ⟨rfl, hstream ▸ hquiet⟩⟩
  | cons c cs ih =>
      rw [List.flatten_cons, ← List.append_assoc] at hstream
      rw [List.foldl_cons]
      by_cases hterm : crlf <:+: s.response ++ c
      · -- The terminator that is there is not in `w`, so that all of the line is.
        have hlen : w.length < (s.response ++ c).length := by
          by_contra hle
          have hw' : s.response ++ c <+: w :=
            List.prefix_of_prefix_length_le ⟨_, hstream⟩ (List.prefix_append _ _) (by omega)
          exact hw (hw'.subset (hterm.subset (by decide)))
        obtain ⟨z, hz⟩ : w ++ [LF] <+: s.response ++ c :=
          List.prefix_of_prefix_length_le ⟨after, by simp⟩ ⟨_, hstream⟩
            (by rw [List.length_append, List.length_singleton]; omega)
        have hbuf : s.response ++ c = w ++ LF :: z := by rw [← hz]; simp
        obtain ⟨ds, hds, hlater⟩ := exists_delivered_receive read hfault hterm cs
        rw [hbuf, pieces_append_sep hw, attempted, placed, List.append_assoc,
          List.cons_append] at hds
        refine ⟨_, hds, Or.inr ⟨_, rfl, fun d hd => ?_⟩⟩
        rcases List.mem_append.mp hd with hd | hd
        · exact le_start_of_mem_placed d hd
        · have := hlater d hd
          rw [hbuf, List.length_append, List.length_cons] at this
          omega
      · rw [receive_of_not_term read hfault hterm]
        exact ih (s := { s with response := s.response ++ c }) hfault hterm hstream

/-! ### The line -/

/-- The chunk with which the handler drains the buffer at `n`. -/
theorem exists_of_drainsAt {n : ℕ} {s : Receiver} {chunks : List Bytes}
    (h : DrainsAt read n s chunks) :
    ∃ cs c cs', chunks = cs ++ c :: cs' ∧ DrainStep read n (cs.foldl (receive read) s) c := by
  induction chunks generalizing s with
  | nil => exact absurd h id
  | cons c cs ih =>
      rcases h with h | h
      · exact ⟨[], c, cs, rfl, h⟩
      · obtain ⟨cs₀, c', cs', rfl, hstep⟩ := ih h
        exact ⟨c :: cs₀, c', cs', rfl, hstep⟩

/-- **What is in the buffer** when the stream received ends with `y`, and the loop has consumed
no more than what is before `y`: the unfinished rest of that, which ends with a line, and `y`. -/
theorem Received.exists_buffer {s : Receiver} {got chunk before y : Bytes}
    (h : Received read s got) (hfault : s.fault = none) (hbefore : Closed LF before)
    (hgot : got ++ chunk = before ++ y) (hle : s.consumed ≤ before.length) :
    ∃ x, s.response ++ chunk = x ++ y ∧ Closed LF x ∧ s.consumed + x.length = before.length := by
  obtain ⟨done, hdone, hconsumed, -⟩ := h.running hfault
  have hall : done ++ (s.response ++ chunk) = before ++ y := by
    rw [← List.append_assoc, hdone, hgot]
  obtain ⟨x, rfl⟩ : done <+: before :=
    List.prefix_of_prefix_length_le ⟨_, hall⟩ (List.prefix_append _ _) (hconsumed ▸ hle)
  rw [List.append_assoc, List.append_cancel_left_eq] at hall
  exact ⟨x, hall, hbefore.of_append_right, by rw [hconsumed, List.length_append]⟩

/-- **The carriage return of the line was the last byte of the buffer.** The line has been handed
over with it, and its line feed, which comes next, is an empty text. -/
theorem textsAt_of_line_cr {s : Receiver} {chunks : List Bytes} {before line after : Bytes}
    {ds₀ : List Delivery} (hdelivered : s.delivered = ds₀ ++ [(before.length, line ++ [CR])])
    (hstarts : ∀ d ∈ ds₀, d.1 < before.length) (hempty : s.fault = none → s.response = [])
    (hplace : s.fault = none → s.consumed = before.length + line.length + 1)
    (hstream : chunks.flatten = LF :: after) :
    (chunks.foldl (receive read) s).textsAt before.length (line.length + 2) <+:
      [line ++ [CR], []] := by
  by_cases hfault : s.fault = none
  · obtain ⟨ds, hds, ⟨rfl, -⟩ | ⟨ds', rfl, hlater⟩⟩ := exists_delivered_front read (w := [])
      hfault (by rw [hempty hfault]; decide) (by simp) (by rw [hempty hfault]; exact hstream)
    · rw [textsAt_of_delivered [(before.length, line ++ [CR])] [] (by rw [hds, hdelivered])
        hstarts (by simp) (by simp)]
      exact ⟨[[]], rfl⟩
    · rw [hplace hfault] at hds hlater
      rw [textsAt_of_delivered
        [(before.length, line ++ [CR]), (before.length + line.length + 1, [])] ds'
        (by rw [hds, hdelivered]; simp) hstarts (by simp; omega) fun d hd => ?_]
      · exact List.prefix_rfl
      · have := hlater d hd
        rw [List.length_nil] at this
        omega
  · rw [foldl_receive_of_fault hfault, textsAt_of_delivered [(before.length, line ++ [CR])] []
      (by rw [hdelivered, List.append_nil]) hstarts (by simp) (by simp)]
    exact ⟨[[]], rfl⟩

section Buffer

variable {s : Receiver} {chunk x y : Bytes} {chunks : List Bytes} {before line after : Bytes}
  (hline : LF ∉ line) (hstarts : ∀ d ∈ s.delivered, d.1 < before.length)
  (hfault : s.fault = none) (hterm : crlf <:+: s.response ++ chunk)
  (hbuf : s.response ++ chunk = x ++ y) (hclosed : Closed LF x)
  (hcount : s.consumed + x.length = before.length)

include hstarts hcount in
/-- What is handed over of the lines before begins before the line. -/
theorem start_lt_of_mem_early :
    ∀ d ∈ s.delivered ++ placed s.consumed (pieces LF x), d.1 < before.length := by
  intro d hd
  rcases List.mem_append.mp hd with hd | hd
  · exact hstarts d hd
  · exact hcount ▸ start_lt_of_mem_placed d hd

include hstarts hfault hterm hbuf hclosed hcount

/-- A line before is not survived: the line is not handed over. -/
theorem textsAt_of_not_survived (hgone : (outcome read (pieces LF x)).2 ≠ none) :
    (chunks.foldl (receive read) (s.receive read chunk)).textsAt before.length
      (line.length + 2) <+: [line ++ [CR], []] := by
  obtain ⟨hdelivered, -, hfault', -⟩ := receive_of_term read hfault hterm
  rw [hbuf, pieces_append hclosed, attempted_append_of_fault hgone] at hdelivered
  rw [hbuf, pieces_append hclosed, outcome_append_of_fault hgone] at hfault'
  have hearly := start_lt_of_mem_early hstarts hcount
  have hsub : s.delivered ++ placed s.consumed (attempted read (pieces LF x)) ⊆
      s.delivered ++ placed s.consumed (pieces LF x) :=
    List.append_subset.mpr ⟨List.subset_append_left _ _, List.subset_append_of_subset_right _
      (placed_isPrefix _ (attempted_isPrefix _)).subset⟩
  rw [foldl_receive_of_fault (hfault' ▸ hgone), textsAt_of_delivered [] []
    (by rw [hdelivered, List.append_nil, List.append_nil]) (fun d hd => hearly d (hsub hd))
    (by simp) (by simp)]
  exact List.nil_prefix

include hline

/-- The buffer holds all of the line: it is handed over whole. -/
theorem textsAt_of_complete (hsurvived : (outcome read (pieces LF x)).2 = none)
    (hcomplete : line ++ crlf <+: y) :
    (chunks.foldl (receive read) (s.receive read chunk)).textsAt before.length
      (line.length + 2) <+: [line ++ [CR], []] := by
  obtain ⟨z, rfl⟩ := hcomplete
  have hpieces : pieces LF (s.response ++ chunk) =
      pieces LF x ++ (line ++ [CR]) :: pieces LF z := by
    rw [hbuf, pieces_append hclosed, crlf, ← pieces_append_sep (lf_notMem_concat_cr hline)]
    simp
  have hlen : s.consumed + (s.response ++ chunk).length =
      before.length + (line.length + 2) + z.length := by
    have htwo : crlf.length = 2 := rfl
    simp only [hbuf, List.length_append, htwo]
    omega
  obtain ⟨ds, hds, hlater⟩ := exists_delivered_receive read hfault hterm chunks
  rw [hpieces, attempted_append hsurvived, placed_append _ hclosed, hcount, attempted, placed,
    List.append_cons, ← List.append_assoc, ← List.append_assoc, List.append_assoc _ _ ds] at hds
  rw [textsAt_of_delivered [(before.length, line ++ [CR])] _ hds
    (start_lt_of_mem_early hstarts hcount) (by simp) fun d hd => ?_]
  · exact ⟨[[]], rfl⟩
  · rcases List.mem_append.mp hd with hd | hd
    · have := le_start_of_mem_placed d hd
      rw [List.length_append, List.length_singleton] at this
      omega
    · have := hlater d hd
      omega

/-- **The handler run that reaches the line**, when it does not end in it: the buffer holds what
is left of the lines before, `x`, and more than the line. -/
theorem textsAt_of_buffer (hy : y ≠ [])
    (hstream : before ++ y ++ chunks.flatten = before ++ (line ++ crlf) ++ after)
    (hwhole : ∀ k, 0 < k → k ≤ line.length → ¬ DrainStep read (before.length + k) s chunk) :
    (chunks.foldl (receive read) (s.receive read chunk)).textsAt before.length
      (line.length + 2) <+: [line ++ [CR], []] := by
  rw [List.append_assoc, List.append_assoc before, List.append_cancel_left_eq,
    List.append_assoc] at hstream
  have hlen : s.consumed + (s.response ++ chunk).length = before.length + y.length := by
    rw [hbuf, List.length_append]
    omega
  by_cases hsurvived : (outcome read (pieces LF x)).2 = none
  · rcases lt_trichotomy y.length (line.length + 1) with hlt | heq | hgt
    · -- The buffer ends in the line.
      obtain ⟨z, hz⟩ : y <+: line :=
        List.prefix_of_prefix_length_le ⟨_, hstream⟩ (List.prefix_append _ _) (by omega)
      have hlf : LF ∉ y := fun h => hline (hz ▸ List.mem_append_left z h)
      refine absurd ⟨hfault, hterm, hlen, ?_⟩
        (hwhole y.length (List.length_pos_iff.mpr hy) (by omega))
      rw [hbuf, pieces_append hclosed, pieces_of_notMem hy hlf, List.dropLast_concat]
      exact hsurvived
    · -- The buffer ends between the carriage return and the line feed.
      obtain ⟨rfl, hafter⟩ : y = line ++ [CR] ∧ chunks.flatten = LF :: after := by
        refine List.append_inj (hstream.trans ?_) (by simpa using heq)
        simp [crlf]
      obtain ⟨hdelivered, -, hfault', hend⟩ := receive_of_term read hfault hterm
      rw [hbuf, pieces_append hclosed, pieces_of_notMem (by simp) (lf_notMem_concat_cr hline)]
        at hdelivered hfault' hend
      rw [attempted_append hsurvived, attempted_singleton, placed_append _ hclosed, hcount,
        ← List.append_assoc] at hdelivered
      refine textsAt_of_line_cr hdelivered (start_lt_of_mem_early hstarts hcount)
        (fun h => (hend (hfault' ▸ h)).1) (fun h => ?_) hafter
      rw [(hend (hfault' ▸ h)).2, ← hbuf, hlen, heq]
      omega
    · -- The line is complete.
      refine textsAt_of_complete hline hstarts hfault hterm hbuf hclosed hcount hsurvived ?_
      have htwo : crlf.length = 2 := rfl
      exact List.prefix_of_prefix_length_le ⟨after, by rw [hstream, List.append_assoc]⟩
        ⟨_, rfl⟩ (by rw [List.length_append, htwo]; omega)
  · exact textsAt_of_not_survived hstarts hfault hterm hbuf hclosed hcount hsurvived

end Buffer

section Line

variable {before line after : Bytes} (hbefore : Closed LF before) (hline : LF ∉ line)
include hbefore hline

/-- **The handler run that ends behind `k` bytes of the line** hands these over as the last text,
after texts that begin before the line. -/
theorem Received.exists_cut {s : Receiver} {got chunk rest : Bytes} (hs : Received read s got)
    (hstream : got ++ chunk ++ rest = before ++ (line ++ crlf) ++ after) {k : ℕ} (hk : 0 < k)
    (hkn : k ≤ line.length) (hstep : DrainStep read (before.length + k) s chunk) :
    rest = line.drop k ++ crlf ++ after ∧
      (∃ ds₀, (s.receive read chunk).delivered = ds₀ ++ [(before.length, line.take k)] ∧
        ∀ d ∈ ds₀, d.1 < before.length) ∧
      (s.receive read chunk).fault = (outcome read [line.take k]).2 ∧
      ((outcome read [line.take k]).2 = none → (s.receive read chunk).response = [] ∧
        (s.receive read chunk).consumed = before.length + k) := by
  obtain ⟨hfault, hterm, hlen, hearlier⟩ := hstep
  obtain ⟨done, hdone, hconsumed, -, hstarts⟩ := hs.running hfault
  have htake : LF ∉ line.take k := fun h => hline (List.mem_of_mem_take h)
  have hne : line.take k ≠ [] := by
    rw [← List.length_pos_iff, List.length_take, Nat.min_eq_left hkn]
    exact hk
  have hall : done ++ (s.response ++ chunk) = got ++ chunk := by
    rw [← List.append_assoc, hdone]
  obtain ⟨hgot, hrest⟩ : got ++ chunk = before ++ line.take k ∧
      rest = line.drop k ++ crlf ++ after := by
    refine List.append_inj ?_ ?_
    · have hcut : line.take k ++ (line.drop k ++ crlf ++ after) = line ++ crlf ++ after := by
        rw [← List.append_assoc, ← List.append_assoc, List.take_append_drop]
      rw [hstream, List.append_assoc before (line.take k), hcut, List.append_assoc before]
    · rw [← hall, List.length_append, ← hconsumed, hlen, List.length_append, List.length_take,
        Nat.min_eq_left hkn]
  -- The terminator for which the handler runs is in front of the line.
  have hle : s.consumed ≤ before.length := by
    by_contra hlt
    obtain ⟨x, hx⟩ : before <+: done := List.prefix_of_prefix_length_le
      (List.prefix_append _ _) ⟨_, hall.trans hgot⟩ (by omega)
    rw [← hall, ← hx, List.append_assoc, List.append_cancel_left_eq] at hgot
    exact htake (hgot ▸ List.mem_append_right x (hterm.subset (by decide)))
  obtain ⟨x, hbuf, hclosed, hplace⟩ := hs.exists_buffer hfault hbefore hgot hle
  have hpieces : pieces LF (s.response ++ chunk) = pieces LF x ++ [line.take k] := by
    rw [hbuf, pieces_append hclosed, pieces_of_notMem hne htake]
  rw [hpieces, List.dropLast_concat] at hearlier
  obtain ⟨hdelivered, -, hfault', hend⟩ := receive_of_term read hfault hterm
  rw [hpieces, attempted_append hearlier, attempted_singleton, placed_append _ hclosed, hplace,
    ← List.append_assoc] at hdelivered
  rw [hpieces, outcome_append hearlier] at hfault' hend
  refine ⟨hrest, ⟨_, hdelivered, fun d hd => ?_⟩, hfault', fun hnone => ?_⟩
  · rcases List.mem_append.mp hd with hd | hd
    · exact (hstarts d hd).trans_le hle
    · exact hplace ▸ start_lt_of_mem_placed d hd
  · exact ⟨(hend hnone).1, (hend hnone).2.trans hlen⟩

/-- **A line in which a run of the handler ends is handed over in two parts**, as far as the
first is survived: what had arrived of it, and the rest with the carriage return of its
terminator. -/
theorem textsAt_of_drainsAt {chunks : List Bytes}
    (hstream : chunks.flatten = before ++ (line ++ crlf) ++ after) {k : ℕ} (hk : 0 < k)
    (hkn : k ≤ line.length) (hdrain : DrainsAt read (before.length + k) {} chunks) :
    (run read chunks).textsAt before.length (line.length + 2) =
      attempted read [line.take k, line.drop k ++ [CR]] := by
  obtain ⟨cs, c, cs', rfl, hstep⟩ := exists_of_drainsAt hdrain
  rw [List.flatten_append, List.flatten_cons, ← List.append_assoc] at hstream
  obtain ⟨hrest, ⟨ds₀, hdelivered, hstarts⟩, hfault, hend⟩ :=
    (received_run read cs).exists_cut hbefore hline hstream hk hkn hstep
  have hrun : run read (cs ++ c :: cs') =
      cs'.foldl (receive read) ((run read cs).receive read c) := by
    simp only [run, List.foldl_append, List.foldl_cons]
  rw [hrun]
  cases hread : read (line.take k) with
  | error e =>
      -- The first part is not survived, and nothing is handed over after it.
      have hgone : ((run read cs).receive read c).fault ≠ none := by
        simp [hfault, outcome, hread]
      rw [foldl_receive_of_fault hgone]
      simp only [attempted, hread]
      exact textsAt_of_delivered [(before.length, line.take k)] []
        (by rw [List.append_nil, hdelivered]) hstarts (by simp) (by simp)
  | ok es =>
      have hnone : (outcome read [line.take k]).2 = none := by simp [outcome, hread]
      obtain ⟨hempty, hplace⟩ := hend hnone
      have hw : LF ∉ line.drop k ++ [CR] :=
        lf_notMem_concat_cr fun h => hline (List.mem_of_mem_drop h)
      have hfront : ((run read cs).receive read c).response ++ cs'.flatten =
          (line.drop k ++ [CR]) ++ LF :: after := by
        rw [hempty, hrest, crlf]
        simp
      have htwo : attempted read [line.take k, line.drop k ++ [CR]] =
          [line.take k, line.drop k ++ [CR]] := by
        rw [attempted, hread]
        simp only [attempted_singleton]
      obtain ⟨ds, hds, ⟨-, hquiet⟩ | ⟨ds', rfl, hlater⟩⟩ := exists_delivered_front read
        (hfault.trans hnone) (by rw [hempty]; decide) hw hfront
      · exact absurd ⟨line.drop k, after, by simp [crlf]⟩ hquiet
      · rw [hplace, List.length_append, List.length_drop, List.length_singleton] at hlater
        rw [htwo]
        refine textsAt_of_delivered
          [(before.length, line.take k), (before.length + k, line.drop k ++ [CR])] ds'
          ?_ hstarts ?_ fun d hd => ?_
        · rw [hds, hdelivered, hplace]
          simp
        · simp
          omega
        · have := hlater d hd
          omega

/-- **A line in which no run of the handler ends is handed over whole**, with the carriage
return of its terminator, or not at all. Its line feed may be left for an empty text. -/
theorem textsAt_isPrefix {s : Receiver} {got : Bytes} {chunks : List Bytes}
    (hs : Received read s got) (hstarts : ∀ d ∈ s.delivered, d.1 < before.length)
    (hplace : s.fault = none → s.consumed ≤ before.length)
    (hstream : got ++ chunks.flatten = before ++ (line ++ crlf) ++ after)
    (hwhole : ∀ k, 0 < k → k ≤ line.length → ¬ DrainsAt read (before.length + k) s chunks) :
    (chunks.foldl (receive read) s).textsAt before.length (line.length + 2) <+:
      [line ++ [CR], []] := by
  have hnone : ∀ s : Receiver, (∀ d ∈ s.delivered, d.1 < before.length) →
      s.textsAt before.length (line.length + 2) <+: [line ++ [CR], []] := by
    intro s h
    rw [textsAt_of_delivered [] [] (by rw [List.append_nil, List.append_nil]) h (by simp)
      (by simp)]
    exact List.nil_prefix
  induction chunks generalizing s got with
  | nil => exact hnone s hstarts
  | cons c cs ih =>
      have hrest : ∀ k, 0 < k → k ≤ line.length →
          ¬ DrainsAt read (before.length + k) (s.receive read c) cs :=
        fun k hk hkn h => hwhole k hk hkn (Or.inr h)
      rw [List.flatten_cons, ← List.append_assoc] at hstream
      rw [List.foldl_cons]
      by_cases hfault : s.fault = none
      · by_cases hterm : crlf <:+: s.response ++ c
        · obtain ⟨hdelivered, -, hfault', hend⟩ := receive_of_term read hfault hterm
          obtain ⟨done, hdone, hconsumed, -⟩ := hs.running hfault
          have hlen : s.consumed + (s.response ++ c).length = (got ++ c).length := by
            rw [← hdone, hconsumed]
            simp only [List.length_append]
            omega
          by_cases hle : (got ++ c).length ≤ before.length
          · -- The handler runs on what is before the line.
            refine ih (hs.receive c) (fun d hd => ?_) (fun h => ?_) hstream hrest
            · rw [hdelivered] at hd
              rcases List.mem_append.mp hd with hd | hd
              · exact hstarts d hd
              · have := start_lt_of_mem_placed d
                  ((placed_isPrefix _ (attempted_isPrefix _)).subset hd)
                omega
            · rw [(hend (hfault' ▸ h)).2]
              omega
          · -- Some of the line has been received: all of what is before it is in the buffer.
            obtain ⟨y, hy⟩ : before <+: got ++ c := List.prefix_of_prefix_length_le
              (by rw [List.append_assoc]; exact List.prefix_append _ _) ⟨_, hstream⟩ (by omega)
            obtain ⟨x, hbuf, hclosed, hcount⟩ :=
              hs.exists_buffer hfault hbefore hy.symm (hplace hfault)
            have hne : y ≠ [] := by
              rintro rfl
              rw [List.append_nil] at hy
              exact hle (by rw [hy])
            exact textsAt_of_buffer hline hstarts hfault hterm hbuf hclosed hcount hne
              (by rw [hy]; exact hstream) fun k hk hkn h => hwhole k hk hkn (Or.inl h)
        · rw [receive_of_not_term read hfault hterm] at hrest ⊢
          have h := hs.receive c
          rw [receive_of_not_term read hfault hterm] at h
          exact ih h hstarts hplace hstream hrest
      · rw [receive_of_fault hfault, foldl_receive_of_fault hfault]
        exact hnone s hstarts

end Line

end Receiver

end BoostIrc
