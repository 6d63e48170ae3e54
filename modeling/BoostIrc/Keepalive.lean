import BoostIrc.LineCuts
import BoostIrc.PingPieces
import Mathlib.Tactic.IntervalCases

/-!
# The Keepalive

The server sends `PING` with a token, and the client must answer `PONG` with the same token.
Here the two ends are put together: a `PING` line stands anywhere in the stream, which arrives
through the receive loop in any chunks, and what the client writes about it is parsed again.

The loop splits at line feeds only, so that the carriage return of the terminator is still at the
end of the line that is parsed. The parser takes it for a byte of the last parameter, and the
answer repeats it: a line that is handed over whole never gets a proper answer. A proper answer
takes an accident. The handler runs for the terminator of an earlier line and finds the `PING` in
the buffer before its terminator has arrived; then the line is handed over in two parts, and the
first of them is a `PING` without a carriage return.

## Main results

* `PingLine.ComesBack`: the places at which the line can be cut so that its tokens come back.
* `PingLine.keepsAlive_pieces_iff`: **which two parts of a line get a proper answer**.
* `PingLine.keepsAlive_iff`: **when a `PING` gets a proper answer**, in any stream and any chunks.
-/

namespace BoostIrc

open Receiver Pieces

/-- **A `PING` line that the server can send**: an optional prefix, one trailing token, or one or
two middle tokens, and no line break. -/
structure PingLine extends LegalLine where
  tags_eq : tags = none
  command_eq : command = ascii "PING"
  shape : (middles = [] ∧ trailing.isSome) ∨
    ((middles.length = 1 ∨ middles.length = 2) ∧ trailing = none)
  cr_notMem : CR ∉ toLine.render
  lf_notMem : LF ∉ toLine.render

namespace PingLine

/-- The tokens of the line. -/
def tokens (l : PingLine) : List Bytes :=
  l.middles ++ l.trailing.toList

/-- **The line comes back when it is cut behind its first `k` bytes.** In earnest this is so when
it is cut at its end, and the token needs no colon. Two kinds of lines come back by chance. The
client writes an empty parameter behind the first token, and so a space behind it: a token that
ends in a space comes back when it is cut before that space, if there is no word in front. And a
part of the prefix that starts like `PING` is taken for the command when the line is cut in front
of it; the parameters of the answer are then `PING` and the first token. -/
inductive ComesBack (l : PingLine) : ℕ → Prop
  | whole (h : ∀ t ∈ l.trailing, IsMiddle t) : ComesBack l l.render.length
  | space {u : Bytes} {k : ℕ} (htrailing : l.trailing = some (u ++ [SP]))
      (hu : ∀ a ∈ u.head?, a = SP) (hfront : l.header.length ≤ k + 2)
      (hk : k - (l.header.length + 2) = u.length) : ComesBack l k
  | twice {o : Origin} {a w : Bytes} (horigin : l.origin = some o) (hrender : o.render = a ++ w)
      (hw : ascii "PI" <+: w) (hmiddles : l.middles = [ascii "PING", ascii "PING"]) :
      ComesBack l (a.length + 1)

/-! ### The line -/

/-- The tokens are one or two legal middle parameters, or one trailing parameter. -/
theorem tokens_cases (l : PingLine) :
    (∃ t, l.trailing = some t ∧ l.middles = [] ∧ l.args = SP :: COLON :: t) ∨
      (∃ m, IsMiddle m ∧ l.trailing = none ∧ l.middles = [m] ∧ l.args = SP :: m) ∨
      ∃ m m', IsMiddle m ∧ IsMiddle m' ∧ l.trailing = none ∧ l.middles = [m, m'] ∧
        l.args = SP :: (m ++ SP :: m') := by
  have hlegal := l.middles_legal
  rcases l.shape with ⟨hmiddles, htrailing⟩ | ⟨hlen | hlen, htrailing⟩
  · obtain ⟨t, ht⟩ := Option.isSome_iff_exists.mp htrailing
    exact Or.inl ⟨t, ht, hmiddles, by simp [Line.args, hmiddles, ht]⟩
  · obtain ⟨m, hm⟩ := List.length_eq_one_iff.mp hlen
    rw [hm] at hlegal
    refine Or.inr (Or.inl ⟨m, hlegal m (by simp), htrailing, hm, ?_⟩)
    simp [Line.args, hm, htrailing]
  · obtain ⟨m, m', hm⟩ := List.length_eq_two.mp hlen
    rw [hm] at hlegal
    refine Or.inr (Or.inr ⟨m, m', hlegal m (by simp), hlegal m' (by simp), htrailing, hm, ?_⟩)
    simp [Line.args, hm, htrailing]

/-- The prefix of the line with its colon and its space, if it has one. -/
def source (l : PingLine) : Bytes :=
  l.origin.elim [] fun o => COLON :: o.render ++ [SP]

/-- The part of a PING line up to its command: its prefix, and the word PING. -/
theorem header_eq (l : PingLine) : l.header = l.source ++ ascii "PING" := by
  simp [Line.header, Line.originCommand, source, l.tags_eq, l.command_eq]

/-- A PING line is its prefix, the word PING, and its parameters. -/
theorem render_eq (l : PingLine) : l.render = l.source ++ (ascii "PING" ++ l.args) := by
  rw [Line.render, header_eq, List.append_assoc]

/-- The command has four letters, and they end the part of the line up to it. -/
theorem length_header (l : PingLine) : l.header.length = l.source.length + 4 := by
  rw [header_eq, List.length_append]
  rfl

/-- The line with a front of its command. -/
def withCommand (l : PingLine) (i : ℕ) (hi : 0 < i) : LegalLine :=
  { l with
    command := (ascii "PING").take i
    command_ne_nil := by
      rw [ne_eq, List.take_eq_nil_iff, not_or]
      exact ⟨hi.ne', by decide⟩
    command_alnum := fun a ha => by
      have halnum : ∀ a ∈ ascii "PING", isAlnum a = true := List.all_eq_true.mp (by decide)
      exact halnum a (List.mem_of_mem_take ha) }

/-- With a part of the word PING for a command, the line starts with its prefix and this part. -/
theorem header_withCommand (l : PingLine) (i : ℕ) (hi : 0 < i) :
    (l.withCommand i hi).header = l.source ++ (ascii "PING").take i := by
  simp [Line.header, Line.originCommand, source, withCommand, l.tags_eq]

/-- What has been cut off of the parameters starts with a space, if it is not empty. -/
theorem take_args_eq_nil_or (l : PingLine) (j : ℕ) :
    l.args.take j = [] ∨ ∃ t, l.args.take j = SP :: t := by
  rcases l.args_eq_nil_or with h | ⟨t, h⟩
  · exact Or.inl (by rw [h, List.take_nil])
  · rw [h]
    cases j with
    | zero => exact Or.inl rfl
    | succ j => exact Or.inr ⟨_, rfl⟩

/-- **A first part with the start of the command in it is answered**, with what it has of the
parameters. -/
theorem readLine_take (l : PingLine) {k : ℕ} (hk : l.header.length ≤ k + 2) :
    IrcClient.readLine IrcClient.handlers (l.render.take k) =
      .ok (IrcClient.pong (restArgs (l.args.take (k - l.header.length))).1
        (restArgs (l.args.take (k - l.header.length))).2) := by
  have hlen := l.length_header
  have hpos : 0 < k - l.source.length := by omega
  have hcut : l.render.take k =
      (l.withCommand (k - l.source.length) hpos).header ++
        l.args.take (k - l.header.length) := by
    have hfour : (ascii "PING").length = 4 := rfl
    have hsource : l.source.take k = l.source := List.take_of_length_le (by omega)
    have hrest : k - l.source.length - 4 = k - l.header.length := by omega
    rw [header_withCommand, render_eq, List.take_append, List.take_append, hfour, hrest, hsource,
      List.append_assoc]
  have hpi : ascii "PI" <+: (l.withCommand (k - l.source.length) hpos).command := by
    have htwo : ascii "PI" = (ascii "PING").take 2 := rfl
    rw [htwo]
    exact List.take_prefix_take_left (by omega)
  rw [hcut]
  exact (l.withCommand _ hpos).readLine_header_append hpi (l.take_args_eq_nil_or _)

/-- A line that is cut in front of a part of its prefix is cut before the command. -/
theorem lt_of_twice (l : PingLine) {o : Origin} {a w : Bytes} (horigin : l.origin = some o)
    (hrender : o.render = a ++ w) (hw : ascii "PI" <+: w) :
    a.length + 1 + 2 < l.header.length := by
  have hle := hw.length_le
  have htwo : (ascii "PI").length = 2 := rfl
  have hsource : l.source.length = a.length + w.length + 2 := by
    simp only [source, horigin, Option.elim_some, hrender, List.length_cons,
      List.length_append, List.length_nil]
  have := l.length_header
  omega

/-- A byte that is not in the line is in none of its tokens. -/
theorem notMem_of_args (l : PingLine) {b : Byte} (hb : b ∉ l.render) : b ∉ l.args := by
  intro h
  refine hb ?_
  rw [Line.render]
  exact List.mem_append_right _ h

/-- No line break is repeated of a part of the parameters. -/
theorem breaks_notMem_restArgs (l : PingLine) (j : ℕ) :
    (CR ∉ (restArgs (l.args.take j)).1 ∧ CR ∉ (restArgs (l.args.take j)).2 ∧
      LF ∉ (restArgs (l.args.take j)).1 ∧ LF ∉ (restArgs (l.args.take j)).2) := by
  have hbreak : ∀ b : Byte, b ∉ l.render →
      b ∉ (restArgs (l.args.take j)).1 ∧ b ∉ (restArgs (l.args.take j)).2 := by
    intro b hb
    have hargs := l.notMem_of_args hb
    rcases l.tokens_cases with ⟨t, -, -, hline⟩ | ⟨m, hm, -, -, hline⟩ |
      ⟨m, m', hm, hm', -, -, hline⟩ <;> rw [hline] at hargs ⊢
    · rw [restArgs_take_trailing]
      exact ⟨fun h => hargs (by simp [List.mem_of_mem_take h]), by simp⟩
    · rw [restArgs_take_middle hm]
      exact ⟨fun h => hargs (by simp [List.mem_of_mem_take h]), by simp⟩
    · rw [restArgs_take_middles hm hm']
      exact ⟨fun h => hargs (by simp [List.mem_of_mem_take h]),
        fun h => hargs (by simp [List.mem_of_mem_take h])⟩
  obtain ⟨hc, hc'⟩ := hbreak CR l.cr_notMem
  obtain ⟨hl, hl'⟩ := hbreak LF l.lf_notMem
  exact ⟨hc, hc', hl, hl'⟩

/-- The front of a parameter is all of it. -/
theorem take_eq_self_iff {t : Bytes} (ht : t ≠ []) {j n : ℕ} (hj : j ≤ n + t.length) :
    t.take (j - n) = t ↔ j = n + t.length := by
  have hpos := List.length_pos_iff.mpr ht
  rw [List.take_eq_self_iff]
  omega

/-- A line that is cut behind the start of its command is not cut in its prefix, so only two of the
three ways to come back are left. -/
theorem comesBack_iff_of_front (l : PingLine) {k : ℕ} (hk : l.header.length ≤ k + 2) :
    l.ComesBack k ↔ (k = l.render.length ∧ ∀ t ∈ l.trailing, IsMiddle t) ∨
      ∃ u, l.trailing = some (u ++ [SP]) ∧ (∀ a ∈ u.head?, a = SP) ∧
        k - (l.header.length + 2) = u.length := by
  constructor
  · intro hback
    cases hback with
    | whole hmiddle => exact Or.inl ⟨rfl, hmiddle⟩
    | space htrailing hu _ hu' => exact Or.inr ⟨_, htrailing, hu, hu'⟩
    | twice horigin hrender hw _ =>
        have := l.lt_of_twice horigin hrender hw
        omega
  · rintro (⟨rfl, ht⟩ | ⟨u, htrailing, hu, hu'⟩)
    · exact ComesBack.whole ht
    · exact ComesBack.space htrailing hu hk hu'

/-- **When a first part with the start of the command in it gets a proper answer.** It is answered
with the parameters that are in this part, so the cut has to leave the tokens as they are, up to the
space that the client itself writes. -/
theorem keepsAlive_take_iff (l : PingLine) {k : ℕ} (hk : l.header.length ≤ k + 2)
    (hkn : k ≤ l.render.length) {effects : List Effect}
    (h : Effect.lines effects =
      Effect.lines (IrcClient.pong (restArgs (l.args.take (k - l.header.length))).1
        (restArgs (l.args.take (k - l.header.length))).2)) :
    KeepsAlive effects l.tokens ↔ l.ComesBack k := by
  have hlen : l.render.length = l.header.length + l.args.length := by
    rw [Line.render, List.length_append]
  rw [keepsAlive_pong_iff h, and_iff_right (l.breaks_notMem_restArgs _)]
  rw [l.comesBack_iff_of_front hk]
  rcases l.tokens_cases with ⟨t, ht, hmiddles, hline⟩ | ⟨m, hm, ht, hmiddles, hline⟩ |
    ⟨m, m', hm, hm', ht, hmiddles, hline⟩
  · rw [hline, List.length_cons, List.length_cons] at hlen
    rw [tokens, hmiddles, ht, hline, restArgs_take_trailing]
    simp only [List.nil_append, Option.toList_some, Option.mem_def, Option.some.injEq]
    rw [single_iff (List.take_prefix _ _), Nat.sub_sub]
    refine or_congr ⟨?_, ?_⟩ ⟨?_, ?_⟩
    · rintro ⟨hall, hm⟩
      rw [take_eq_self_iff hm.ne_nil (by omega)] at hall
      exact ⟨by omega, fun t' ht' => ht' ▸ hm⟩
    · rintro ⟨rfl, hm⟩
      exact ⟨List.take_of_length_le (by omega), hm t rfl⟩
    · rintro ⟨hcut, hhead⟩
      refine ⟨_, hcut, hhead, ?_⟩
      have := congrArg List.length hcut
      rw [List.length_append, List.length_take, List.length_singleton] at this
      rw [List.length_take]
      omega
    · rintro ⟨u, rfl, hhead, hu⟩
      rw [hu, List.take_left]
      exact ⟨rfl, hhead⟩
  · rw [hline, List.length_cons] at hlen
    rw [tokens, hmiddles, ht, hline, restArgs_take_middle hm]
    simp only [Option.toList_none, List.append_nil]
    rw [single_iff (List.take_prefix _ _), Nat.sub_sub, take_eq_self_iff hm.ne_nil (by omega)]
    have hspace : ∀ u : Bytes, m ≠ u ++ [SP] := by
      rintro u rfl
      exact hm.sp_notMem (by simp)
    simp only [hm, and_true, hspace, false_and, or_false, Option.not_mem_none, IsEmpty.forall_iff,
      implies_true, reduceCtorEq, exists_false]
    omega
  · rw [hline, List.length_cons, List.length_append, List.length_cons] at hlen
    rw [tokens, hmiddles, ht, hline, restArgs_take_middles hm hm']
    simp only [Option.toList_none, List.append_nil]
    rw [double_iff hm hm' (List.take_prefix _ _) (List.take_prefix _ _), Nat.sub_sub, Nat.sub_sub]
    · rw [take_eq_self_iff hm'.ne_nil (by omega)]
      simp only [Option.not_mem_none, IsEmpty.forall_iff, implies_true, and_true, reduceCtorEq,
        false_and, exists_false, or_false]
      constructor
      · rintro ⟨-, h⟩
        omega
      · rintro rfl
        exact ⟨List.take_of_length_le (by omega), by omega⟩
    · intro hne
      have hpos : 0 < k - l.header.length - (m.length + 2) := by
        by_contra hle
        rw [Nat.eq_zero_of_not_pos hle, List.take_zero] at hne
        exact hne rfl
      exact List.take_of_length_le (by omega)

/-! ### Lines that are cut in the prefix -/

/-- The prefix is empty, or it starts with a colon and has one space, at its end. -/
theorem source_cases (l : PingLine) :
    (l.origin = none ∧ l.source = []) ∨
      ∃ o, l.origin = some o ∧ SP ∉ o.render ∧ l.source = COLON :: (o.render ++ [SP]) := by
  cases horigin : l.origin with
  | none => exact Or.inl ⟨rfl, by simp [source, horigin]⟩
  | some o =>
      refine Or.inr ⟨o, rfl, (l.origin_legal o horigin).sp_notMem, ?_⟩
      simp [source, horigin]

/-- A text that starts like `PING` is longer than one byte. -/
theorem two_le_of_pi {r : Bytes} (h : ascii "PI" <+: word r) : 2 ≤ r.length := by
  have hle := h.length_le
  have hword : (word r).length ≤ r.length := (List.takeWhile_prefix _).length_le
  have htwo : (ascii "PI").length = 2 := rfl
  omega

/-- **A first part that ends before the command can be told is not answered.** The text is cut in
the prefix or behind the first letter, so no command that starts like `PING` has arrived. -/
theorem lines_take (l : PingLine) {k : ℕ} (hk : 0 < k) (hkn : k + 2 < l.header.length) :
    Effect.lines (outcome (IrcClient.readLine IrcClient.handlers) [l.render.take k]).1 = [] := by
  refine IrcClient.lines_of_not_ping fun r hlocate hpi => ?_
  obtain ⟨r', hr', hcommand, -⟩ := exists_split_eq r
  rw [hcommand] at hpi
  have hlong := two_le_of_pi hpi
  have hr : r <:+ l.render.take k := locateFrom_isSuffix hlocate
  -- At most one byte of the command is there.
  have hfront : l.render.take k <+: l.source ++ [0x50] := by
    refine List.prefix_of_prefix_length_le (List.take_prefix _ _) ⟨ascii "ING" ++ l.args, ?_⟩ ?_
    · rw [render_eq, List.append_assoc]
      rfl
    · have := l.length_header
      rw [List.length_take, List.length_append, List.length_singleton]
      omega
  rcases l.source_cases with ⟨-, hsource⟩ | ⟨o, -, hspace, hsource⟩
  · have hshort := hfront.length_le
    have hle := hr.length_le
    rw [hsource, List.nil_append, List.length_singleton] at hshort
    rcases hr' with rfl | hr'
    · omega
    · have := hr'.length_le
      rw [List.length_cons] at this
      omega
  · rw [hsource] at hfront
    rcases hr' with rfl | hr'
    · -- The first word begins with the colon of the prefix.
      obtain ⟨k, rfl⟩ : ∃ k', k = k' + 1 := ⟨k - 1, by omega⟩
      have hcolon : ∃ t, l.render.take (k + 1) = COLON :: t :=
        ⟨_, by rw [render_eq, hsource]; rfl⟩
      obtain ⟨t, ht⟩ := hcolon
      rw [ht, locate_of_starts (by simp only [starts_cons]; decide), Option.some.injEq] at hlocate
      rw [← hlocate] at hpi
      exact absurd (List.cons_prefix_cons.mp (hpi.trans (List.takeWhile_prefix _))).1 (by decide)
    · -- Behind the space of the prefix there is one byte at most.
      obtain ⟨y, hy⟩ := hr'.trans hr
      obtain ⟨z, hz⟩ := hfront
      have hcut : y ++ SP :: (r' ++ z) = (COLON :: o.render) ++ SP :: [0x50] := by
        rw [← hy] at hz
        simpa using hz
      have hsource' : SP ∉ COLON :: o.render := by
        simpa [show SP ≠ COLON by decide] using hspace
      have hy' : SP ∉ y := by
        have hcount := congrArg (List.count SP) hcut
        have hP : List.count SP [(0x50 : Byte)] = 0 := by decide
        rw [List.count_append, List.count_append, List.count_cons_self, List.count_cons_self,
          List.count_eq_zero.mpr hsource', hP] at hcount
        exact List.count_eq_zero.mp (by omega)
      have hafter := congrArg afterWord hcut
      rw [afterWord_append hy' (Or.inr ⟨_, rfl⟩), afterWord_append hsource' (Or.inr ⟨_, rfl⟩)]
        at hafter
      have := congrArg List.length (List.cons.inj hafter).2
      rw [List.length_append, List.length_singleton] at this
      omega

/-- The tokens are not what is read back of an answer without parameters, unless the one of them
is a space. -/
theorem trailing_eq_of_blank (l : PingLine)
    (h : significant (lastParams 14 [SP]) = significant l.tokens) :
    l.args = [SP, COLON, SP] := by
  rcases l.tokens_cases with ⟨t, ht, hmiddles, hline⟩ | ⟨m, hm, ht, hmiddles, hline⟩ |
    ⟨m, m', hm, hm', ht, hmiddles, hline⟩ <;> rw [tokens, hmiddles, ht] at h
  · rcases (single_iff (u := []) List.nil_prefix).mp h with ⟨rfl, hnil⟩ | ⟨rfl, -⟩
    · exact absurd rfl hnil.ne_nil
    · exact hline
  · rcases (single_iff (u := []) List.nil_prefix).mp h with ⟨rfl, -⟩ | ⟨rfl, -⟩
    · exact absurd rfl hm.ne_nil
    · exact absurd (List.mem_singleton_self SP) hm.sp_notMem
  · obtain ⟨rfl, -⟩ := (double_iff (u := []) (w := []) hm hm' List.nil_prefix List.nil_prefix
      (fun hne => absurd rfl hne)).mp h
    exact absurd rfl hm.ne_nil

/-- Two tokens that are read back are the two middle ones. -/
theorem middles_eq_of_pair (l : PingLine) {u w : Bytes} (h : significant l.tokens = [u, w]) :
    l.middles = [u, w] ∧ l.args = SP :: (u ++ SP :: w) := by
  have hone : ∀ t : Bytes, significant [t] ≠ [u, w] := by
    intro t h
    have hle : (significant [t]).length ≤ [t].length := (List.rdropWhile_prefix _ _).length_le
    rw [h] at hle
    exact absurd hle (by simp)
  rcases l.tokens_cases with ⟨t, ht, hmiddles, hline⟩ | ⟨m, hm, ht, hmiddles, hline⟩ |
    ⟨m, m', hm, hm', ht, hmiddles, hline⟩ <;> rw [tokens, hmiddles, ht] at h
  · exact absurd h (hone t)
  · exact absurd h (hone m)
  · have h : significant [m, m'] = [u, w] := h
    rw [significant_pair m hm'.ne_nil] at h
    obtain ⟨hfirst, hrest⟩ := List.cons.inj h
    have hsecond := (List.cons.inj hrest).1
    subst hfirst hsecond
    exact ⟨hmiddles, hline⟩

/-- **What is left behind a cut in the prefix, or in front of the command's second byte.** It is a
word followed by the arguments, or a rest of the prefix followed by the whole command. -/
theorem drop_render_cases (l : PingLine) {k : ℕ} (hk : 0 < k) (hkn : k + 2 < l.header.length) :
    (∃ v, SP ∉ v ∧ l.render.drop k = v ++ l.args) ∨
      ∃ o v, l.origin = some o ∧ o.render = o.render.take (k - 1) ++ v ∧ k - 1 ≤ o.render.length ∧
        SP ∉ v ∧ l.render.drop k = v ++ SP :: (ascii "PING" ++ l.args) := by
  have hlen := l.length_header
  have hping : SP ∉ ascii "PING" := by decide
  rcases l.source_cases with ⟨-, hsource⟩ | ⟨o, horigin, hspace, hsource⟩
  · refine Or.inl ⟨(ascii "PING").drop k, fun h => hping (List.mem_of_mem_drop h), ?_⟩
    have hfour : (ascii "PING").length = 4 := rfl
    rw [hsource, List.length_nil] at hlen
    rw [render_eq, hsource, List.nil_append, List.drop_append_of_le_length (by omega)]
  · rw [hsource, List.length_cons, List.length_append, List.length_singleton] at hlen
    by_cases hin : k ≤ o.render.length + 1
    · refine Or.inr ⟨o, o.render.drop (k - 1), horigin, (List.take_append_drop _ _).symm,
        by omega, fun h => hspace (List.mem_of_mem_drop h), ?_⟩
      obtain ⟨k, rfl⟩ : ∃ k', k = k' + 1 := ⟨k - 1, by omega⟩
      rw [render_eq, hsource, List.cons_append, List.drop_succ_cons, List.append_assoc,
        Nat.add_sub_cancel, List.drop_append_of_le_length (by omega)]
      rfl
    · refine Or.inl ⟨(ascii "PING").drop (k - (o.render.length + 2)),
        fun h => hping (List.mem_of_mem_drop h), ?_⟩
      have hfour : (ascii "PING").length = 4 := rfl
      have hlength : l.source.length = o.render.length + 2 := by
        rw [hsource, List.length_cons, List.length_append, List.length_singleton]
      rw [render_eq, List.drop_append, List.drop_of_length_le (by omega), List.nil_append,
        hlength, List.drop_append_of_le_length (by omega)]

/-- When the one token of the line is a space, there is a space in each longer end of what is left
behind a cut: the one in front of the carriage return. -/
theorem sp_mem_of_suffix (l : PingLine) {k : ℕ} (hk : 0 < k) (hkn : k + 2 < l.header.length)
    (hargs : l.args = [SP, COLON, SP]) {r : Bytes} (hr : r <:+ l.render.drop k ++ [CR])
    (hlong : 2 ≤ r.length) : SP ∈ r := by
  obtain ⟨v, hv⟩ : ∃ v, l.render.drop k ++ [CR] = v ++ [SP, CR] := by
    rcases l.drop_render_cases hk hkn with ⟨v, -, hv⟩ | ⟨o, v, -, -, -, -, hv⟩ <;> rw [hv, hargs]
    · exact ⟨v ++ [SP, COLON], by simp⟩
    · exact ⟨v ++ SP :: (ascii "PING" ++ [SP, COLON]), by simp⟩
  have hend : [SP, CR] <:+ r := by
    refine List.suffix_of_suffix_length_le ⟨v, rfl⟩ (hv ▸ hr) ?_
    simpa using hlong
  exact hend.subset List.mem_cons_self

/-- **A command is the first word of a text** if there are as many spaces from it on as there are
in the text: the search for it has left no space out. -/
theorem eq_of_count_sp {x v t r r' : Bytes} (hx : x = v ++ SP :: t) (hv : SP ∉ v)
    (hlocate : locate x = some r) (hr' : r' = r ∨ SP :: r' <:+ r) (hpi : ascii "PI" <+: word r')
    (hcount : x.count SP ≤ r'.count SP) : r' = x := by
  have hr : r <:+ x := locateFrom_isSuffix hlocate
  have hsame : r' = r := by
    refine hr'.resolve_right fun hcut => ?_
    have hle := (hcut.trans hr).sublist.count_le SP
    rw [List.count_cons_self] at hle
    omega
  subst hsame
  obtain ⟨y, hy⟩ := hr
  have hy' : SP ∉ y := by
    have hsum := congrArg (List.count SP) hy
    rw [List.count_append] at hsum
    exact List.count_eq_zero.mp (by omega)
  cases v with
  | nil =>
      -- A text with a space in front has no first word.
      rw [hx, List.nil_append] at hy
      cases y with
      | nil =>
          rw [List.nil_append] at hy
          rw [hy, word, List.takeWhile_cons_of_neg (by simp)] at hpi
          exact absurd hpi (by decide)
      | cons b y => exact absurd (by simp [(List.cons.inj hy).1]) hy'
  | cons a v =>
      have hstarts : starts x = true := by
        have ha : a ≠ SP := fun ha => hv (ha ▸ List.mem_cons_self)
        rw [hx]
        simpa using ha
      rw [locate_of_starts hstarts] at hlocate
      exact (Option.some.inj hlocate).symm

/-- **When a second part gets a proper answer**, the first part having none: the line was cut in
its prefix, in front of what is taken for a `PING` command. -/
theorem comesBack_of_drop (l : PingLine) {k : ℕ} (hk : 0 < k) (hkn : k + 2 < l.header.length)
    {effects : List Effect}
    (h : Effect.lines effects = Effect.lines
      (outcome (IrcClient.readLine IrcClient.handlers) [l.render.drop k ++ [CR]]).1)
    (hkeeps : KeepsAlive effects l.tokens) : l.ComesBack k := by
  obtain ⟨r, r', hlocate, hr', hpi, hrest⟩ := exists_of_keepsAlive_cr h hkeeps
  have hr : r' <:+ l.render.drop k ++ [CR] := by
    have hr : r <:+ l.render.drop k ++ [CR] := locateFrom_isSuffix hlocate
    rcases hr' with rfl | hr'
    · exact hr
    · exact ((List.suffix_cons SP r').trans hr').trans hr
  rcases hrest with ⟨hspace, hblank⟩ | ⟨u, w, z, hafter, hu, hw, hpair⟩
  · exact absurd
      (l.sp_mem_of_suffix hk hkn (l.trailing_eq_of_blank hblank) hr (two_le_of_pi hpi)) hspace
  · obtain ⟨hmiddles, hargs⟩ := l.middles_eq_of_pair hpair
    -- There are three spaces behind the command.
    have hcount : 3 ≤ r'.count SP := by
      have hle := (List.dropWhile_suffix (l := r') (· != SP)).sublist.count_le SP
      change (afterWord r').count SP ≤ _ at hle
      rw [hafter] at hle
      simp only [List.count_cons_self, List.count_append] at hle
      omega
    have hcr : List.count SP [CR] = 0 := by decide
    rcases l.drop_render_cases hk hkn with ⟨v, hv, hdrop⟩ | ⟨o, v, horigin, hrender, hle, hv, hdrop⟩
    · -- There are only two in the text.
      have hle := hr.sublist.count_le SP
      rw [hdrop, hargs] at hle
      simp only [List.count_append, List.count_cons_self, hcr, List.count_eq_zero.mpr hv,
        List.count_eq_zero.mpr hu.sp_notMem, List.count_eq_zero.mpr hw.sp_notMem] at hle
      omega
    · -- There are only three in the text, so that the command is its first word.
      have htext : l.render.drop k ++ [CR] =
          v ++ SP :: (ascii "PING" ++ SP :: (u ++ SP :: (w ++ [CR]))) := by
        rw [hdrop, hargs]
        simp
      have hping : List.count SP (ascii "PING") = 0 := by decide
      have htotal : List.count SP (l.render.drop k ++ [CR]) = 3 := by
        rw [htext]
        simp only [List.count_append, List.count_cons_self, hcr, List.count_eq_zero.mpr hv, hping,
          List.count_eq_zero.mpr hu.sp_notMem, List.count_eq_zero.mpr hw.sp_notMem]
      have hall := eq_of_count_sp htext hv hlocate hr' hpi (htotal.trans_le hcount)
      rw [hall, htext, afterWord_append hv (Or.inr ⟨_, rfl⟩)] at hafter
      obtain ⟨-, hafter⟩ := List.cons.inj hafter
      obtain ⟨rfl, hafter⟩ := word_append_inj (by decide) hu.sp_notMem hafter
      obtain ⟨rfl, -⟩ := word_append_inj (by decide) hw.sp_notMem hafter
      rw [hall, htext, word_append hv (Or.inr ⟨_, rfl⟩)] at hpi
      have hback := ComesBack.twice horigin hrender hpi hmiddles
      rwa [List.length_take, Nat.min_eq_left hle, Nat.sub_add_cancel hk] at hback

/-! ### Lines that are handed over in two parts -/

/-- What is written about two texts: what is written about the first and, if it is survived,
what is written about the second. -/
theorem lines_pair (read : Bytes → Except Fault (List Effect)) (p q : Bytes) :
    Effect.lines (outcome read [p, q]).1 = Effect.lines (outcome read [p]).1 ++
      if (outcome read [p]).2 = none then Effect.lines (outcome read [q]).1 else [] := by
  have hcat : [p, q] = [p] ++ [q] := rfl
  by_cases hnone : (outcome read [p]).2 = none
  · rw [hcat, outcome_append hnone, if_pos hnone]
    exact List.filterMap_append
  · rw [hcat, outcome_append_of_fault hnone, if_neg hnone, List.append_nil]

/-- **The second part of a line that comes back is not answered**, when the first is. It is the
carriage return alone, or the last space of the token with it, and neither is a command that has an
answer. -/
theorem ComesBack.lines_drop {l : PingLine} {k : ℕ} (h : l.ComesBack k)
    (hk : l.header.length ≤ k + 2) :
    Effect.lines
      (outcome (IrcClient.readLine IrcClient.handlers) [l.render.drop k ++ [CR]]).1 = [] := by
  cases h with
  | whole _ =>
      rw [List.drop_length]
      decide
  | @space u k htrailing hu hfront hcut =>
      have hlen := l.length_header
      have hargs : l.args = SP :: COLON :: (u ++ [SP]) := by
        rcases l.tokens_cases with ⟨t, ht, -, hline⟩ | ⟨m, -, ht, -⟩ | ⟨m, m', -, -, ht, -⟩
        · rw [htrailing, Option.some.injEq] at ht
          rw [hline, ht]
        · exact absurd (htrailing.symm.trans ht) (by simp)
        · exact absurd (htrailing.symm.trans ht) (by simp)
      obtain ⟨i, rfl⟩ : ∃ i, k = l.source.length + i := ⟨k - l.source.length, by omega⟩
      rw [render_eq, hargs, List.drop_length_add_append]
      cases u with
      | nil =>
          -- The line is `PING : `, and is cut at the `N` or behind it.
          rw [List.length_nil] at hcut
          obtain ⟨j, rfl, hj⟩ : ∃ j, i = j + 2 ∧ j ≤ 4 := ⟨i - 2, by omega, by omega⟩
          interval_cases j <;> decide
      | cons a u =>
          rw [List.length_cons] at hcut
          have hi : i = (ascii "PING" ++ SP :: COLON :: a :: u).length := by
            simp only [List.length_append, List.length_cons]
            have hfour : (ascii "PING").length = 4 := rfl
            omega
          have hline : ascii "PING" ++ SP :: COLON :: (a :: u ++ [SP]) =
              (ascii "PING" ++ SP :: COLON :: a :: u) ++ [SP] := by simp
          rw [hline, hi, List.drop_left]
          decide
  | twice horigin hrender hw _ =>
      have := l.lt_of_twice horigin hrender hw
      omega

/-- A text without a space that starts with a colon is survived. -/
theorem outcome_of_colon {a : Bytes} (ha : SP ∉ a) :
    (outcome (IrcClient.readLine IrcClient.handlers) [COLON :: a]).2 = none := by
  have hlocate : locate (COLON :: a) = some (COLON :: a) :=
    locate_of_starts (by simp only [starts_cons]; decide)
  obtain ⟨r, hr, hcommand, -⟩ := exists_split_eq (COLON :: a)
  obtain rfl : r = COLON :: a := by
    refine hr.resolve_right fun hcut => ?_
    have hmem : SP ∈ COLON :: a := hcut.subset List.mem_cons_self
    rcases List.mem_cons.mp hmem with heq | hmem
    · exact absurd heq (by decide)
    · exact ha hmem
  have hword : word (COLON :: a) = COLON :: a := by
    have hsp : SP ∉ COLON :: a := by simpa [show SP ≠ COLON by decide] using ha
    have := word_append hsp (Or.inl rfl : ([] : Bytes) = [] ∨ _)
    rwa [List.append_nil] at this
  rw [hword] at hcommand
  have hdispatch : ∃ d,
      IrcClient.dispatch ((split (COLON :: a)).toMessage (COLON :: a)) = .ok d := by
    rw [IrcClient.exists_dispatch_eq_ok_iff, hcommand]
    refine ⟨by rw [show stoi (COLON :: a) = .error .invalidArgument from rfl]; simp, fun hpr => ?_⟩
    exact absurd (List.cons_prefix_cons.mp hpr).1 (by decide)
  obtain ⟨es, hread⟩ := (IrcClient.exists_read_eq_ok_iff IrcClient.handlers).mpr hdispatch
  have hline : IrcClient.readLine IrcClient.handlers (COLON :: a) = .ok es := by
    rw [IrcClient.readLine, Message.ofRaw_eq, hlocate, Option.elim_some, hread]
  simp [outcome, hline]

/-- What is answered to the second part of a line that comes back by its prefix. -/
theorem readLine_twice {w : Bytes} (hw : ascii "PI" <+: w) (hspace : SP ∉ w) :
    IrcClient.readLine IrcClient.handlers
        (w ++ SP :: (ascii "PING" ++ SP :: (ascii "PING" ++ SP :: (ascii "PING" ++ [CR])))) =
      .ok (IrcClient.pong (ascii "PING") (ascii "PING")) := by
  obtain ⟨w, rfl⟩ := hw
  have hstart : starts (ascii "PI" ++ w ++
      SP :: (ascii "PING" ++ SP :: (ascii "PING" ++ SP :: (ascii "PING" ++ [CR])))) = true :=
    starts_append (by simp [ascii]) hspace _
  have hcons : ∀ t, ascii "PI" ++ w ++ t = 0x50 :: (0x49 :: (w ++ t)) := fun t => rfl
  have hsplit := split_cons (a := 0x50) (by decide) (by decide) (0x49 :: (w ++
    SP :: (ascii "PING" ++ SP :: (ascii "PING" ++ SP :: (ascii "PING" ++ [CR])))))
  rw [← hcons, word_append hspace (Or.inr ⟨_, rfl⟩), afterWord_append hspace (Or.inr ⟨_, rfl⟩)]
    at hsplit
  rw [IrcClient.readLine_of_ping (locate_of_starts hstart) (by rw [hsplit]; exact ⟨w, rfl⟩), hsplit]
  rfl

/-- The line that comes back by its prefix does. -/
theorem keepsAlive_of_twice (l : PingLine) {o : Origin} {a w : Bytes}
    (horigin : l.origin = some o) (hrender : o.render = a ++ w) (hw : ascii "PI" <+: w)
    (hmiddles : l.middles = [ascii "PING", ascii "PING"]) :
    KeepsAlive (outcome (IrcClient.readLine IrcClient.handlers)
      [l.render.take (a.length + 1), l.render.drop (a.length + 1) ++ [CR]]).1 l.tokens := by
  have hspace : SP ∉ a ++ w := hrender ▸ (l.origin_legal o horigin).sp_notMem
  obtain ⟨ha, hw'⟩ : SP ∉ a ∧ SP ∉ w := by simpa [not_or] using hspace
  have htrailing : l.trailing = none := by
    rcases l.shape with ⟨hnil, -⟩ | ⟨-, h⟩
    · exact absurd (hnil.symm.trans hmiddles) (by simp)
    · exact h
  have hline : l.render = COLON :: a ++
      (w ++ SP :: (ascii "PING" ++ SP :: (ascii "PING" ++ SP :: ascii "PING"))) := by
    simp [render_eq, source, horigin, hrender, Line.args, hmiddles, htrailing]
  have hlen : a.length + 1 = (COLON :: a).length := rfl
  rw [hline, hlen, List.take_left, List.drop_left]
  -- The first part is not answered, and the second is.
  have hfirst := l.lines_take (Nat.succ_pos _) (l.lt_of_twice horigin hrender hw)
  rw [hline, Nat.succ_eq_add_one, hlen, List.take_left] at hfirst
  have hsecond := readLine_twice hw hw'
  have hlines := lines_pair (IrcClient.readLine IrcClient.handlers) (COLON :: a)
    (w ++ SP :: (ascii "PING" ++ SP :: (ascii "PING" ++ SP :: ascii "PING")) ++ [CR])
  rw [hfirst, if_pos (outcome_of_colon ha), List.nil_append] at hlines
  have htext : w ++ SP :: (ascii "PING" ++ SP :: (ascii "PING" ++ SP :: ascii "PING")) ++ [CR] =
      w ++ SP :: (ascii "PING" ++ SP :: (ascii "PING" ++ SP :: (ascii "PING" ++ [CR]))) := by simp
  have houtcome : Effect.lines (outcome (IrcClient.readLine IrcClient.handlers)
      [w ++ SP :: (ascii "PING" ++ SP :: (ascii "PING" ++ SP :: ascii "PING")) ++ [CR]]).1 =
        Effect.lines (IrcClient.pong (ascii "PING") (ascii "PING")) := by
    rw [htext, outcome, hsecond]
    simp [outcome]
  rw [keepsAlive_pong_iff (hlines.trans houtcome), tokens, hmiddles, htrailing]
  decide

/-- **Which two parts of a line get a proper answer**: those of a line that comes back. The second
part has the carriage return of the terminator, as it is handed over when the buffer is drained
again. -/
theorem keepsAlive_pieces_iff (l : PingLine) {k : ℕ} (hk : 0 < k) (hkn : k ≤ l.render.length) :
    KeepsAlive (outcome (IrcClient.readLine IrcClient.handlers)
      [l.render.take k, l.render.drop k ++ [CR]]).1 l.tokens ↔ l.ComesBack k := by
  have hlines := lines_pair (IrcClient.readLine IrcClient.handlers) (l.render.take k)
    (l.render.drop k ++ [CR])
  by_cases hfront : l.header.length ≤ k + 2
  · -- The first part is answered: the second must not be.
    have hfirst : outcome (IrcClient.readLine IrcClient.handlers) [l.render.take k] =
        (IrcClient.pong (restArgs (l.args.take (k - l.header.length))).1
          (restArgs (l.args.take (k - l.header.length))).2, none) := by
      rw [outcome, l.readLine_take hfront]
      simp [outcome]
    rw [hfirst, if_pos rfl] at hlines
    constructor
    · intro hkeeps
      obtain ⟨text, htext, -⟩ := id hkeeps
      rw [hlines, lines_pong, List.singleton_append] at htext
      obtain ⟨-, hnil⟩ := List.cons.inj htext
      rw [hnil, List.append_nil] at hlines
      exact (l.keepsAlive_take_iff hfront hkn hlines).mp hkeeps
    · intro hback
      rw [hback.lines_drop hfront, List.append_nil] at hlines
      exact (l.keepsAlive_take_iff hfront hkn hlines).mpr hback
  · rw [not_le] at hfront
    rw [l.lines_take hk hfront, List.nil_append] at hlines
    constructor
    · intro hkeeps
      split_ifs at hlines
      · exact l.comesBack_of_drop hk hfront hlines hkeeps
      · exact absurd hkeeps (not_keepsAlive_of_lines hlines _)
    · intro hback
      cases hback with
      | whole _ =>
          rw [Line.render, List.length_append] at hfront
          omega
      | space _ _ hle _ => omega
      | twice horigin hrender hw hmiddles =>
          exact l.keepsAlive_of_twice horigin hrender hw hmiddles

/-! ### Lines that are handed over whole -/

/-- **The carriage return of the terminator is answered too**, as a part of the last token.
`getline` ends the line at the line feed only, and nothing takes away what stands before it. -/
theorem exists_readLine_eq (l : PingLine) :
    ∃ server server2, (CR ∈ server ∨ CR ∈ server2) ∧
      IrcClient.readLine IrcClient.handlers (l.render ++ [CR]) =
        .ok (IrcClient.pong server server2) := by
  have hpi : ascii "PI" <+: l.command := by
    rw [l.command_eq]
    decide
  have hstart : l.args ++ [CR] = [] ∨ ∃ t, l.args ++ [CR] = SP :: t := by
    rcases l.tokens_cases with ⟨t, -, -, h⟩ | ⟨m, -, -, -, h⟩ | ⟨m, m', -, -, -, -, h⟩ <;>
      exact Or.inr ⟨_, by rw [h, List.cons_append]⟩
  have hread := l.readLine_header_append hpi hstart
  rw [← List.append_assoc, ← Line.render] at hread
  refine ⟨_, _, ?_, hread⟩
  have hcr : IsMiddle [CR] := ⟨by simp, by decide, by decide⟩
  rcases l.tokens_cases with ⟨t, -, -, h⟩ | ⟨m, hm, -, -, h⟩ | ⟨m, m', hm, hm', -, -, h⟩ <;>
    rw [h]
  · rw [List.cons_append, List.cons_append, restArgs_trailing]
    exact Or.inl (by simp)
  · rw [List.cons_append, restArgs_middle (hm.append hcr.sp_notMem)]
    exact Or.inl (by simp)
  · rw [List.cons_append, List.append_assoc, List.cons_append,
      restArgs_middle_append hm (Or.inr (hm'.append hcr.sp_notMem))]
    exact Or.inr (by simp)

/-- The empty text that may be left of a line is not answered. -/
theorem outcome_nil_line : Effect.lines
    (outcome (IrcClient.readLine IrcClient.handlers) [([] : Bytes)]).1 = [] := by
  decide

/-- **A line that is handed over whole never gets a proper answer.** Its answer has the carriage
return in one of its parameters, and the empty text behind it is not answered. -/
theorem not_keepsAlive_of_isPrefix (l : PingLine) {texts : List Bytes}
    (h : texts <+: [l.render ++ [CR], []]) :
    ¬ KeepsAlive (outcome (IrcClient.readLine IrcClient.handlers) texts).1 l.tokens := by
  obtain ⟨server, server2, hcr, hread⟩ := l.exists_readLine_eq
  have hone : outcome (IrcClient.readLine IrcClient.handlers) [l.render ++ [CR]] =
      (IrcClient.pong server server2, none) := by
    rw [outcome, hread]
    simp [outcome]
  cases texts with
  | nil => exact not_keepsAlive_of_lines rfl _
  | cons p texts =>
      obtain ⟨rfl, hrest⟩ := List.cons_prefix_cons.mp h
      cases texts with
      | nil => exact not_keepsAlive_of_cr (by rw [hone]) hcr _
      | cons q texts =>
          obtain ⟨rfl, hnil⟩ := List.cons_prefix_cons.mp hrest
          obtain rfl := List.prefix_nil.mp hnil
          refine not_keepsAlive_of_cr ?_ hcr _
          rw [lines_pair, hone, if_pos rfl, outcome_nil_line, List.append_nil]

/-! ### The line in a stream -/

/-- The places at which a line comes back are inside it, or at its end. -/
theorem ComesBack.bounds {l : PingLine} {k : ℕ} (h : l.ComesBack k) :
    0 < k ∧ k ≤ l.render.length := by
  have hlen := l.length_header
  have hrender : l.render.length = l.header.length + l.args.length := by
    rw [Line.render, List.length_append]
  cases h with
  | whole _ => omega
  | @space u k htrailing _ hfront hcut =>
      have hargs : l.args.length = u.length + 3 := by
        rcases l.shape with ⟨hnil, -⟩ | ⟨-, hnone⟩
        · simp [Line.args, hnil, htrailing]
        · exact absurd (htrailing.symm.trans hnone) (by simp)
      omega
  | twice horigin hrender hw _ =>
      have := l.lt_of_twice horigin hrender hw
      omega

/-- **When a `PING` gets a proper answer.** The line stands anywhere in the stream, behind any
complete lines and before any bytes, and the stream arrives in any chunks. What is done about it
is a proper answer exactly when a run of the handler drains the buffer inside the line, before
its terminator has arrived, at a place at which the line comes back. -/
theorem keepsAlive_iff (l : PingLine) {before after : Bytes} {chunks : List Bytes}
    (hbefore : Closed LF before)
    (hchunks : chunks.flatten = before ++ (l.render ++ crlf) ++ after) :
    KeepsAlive ((run (IrcClient.readLine IrcClient.handlers) chunks).answers
        (IrcClient.readLine IrcClient.handlers) before.length (l.render ++ crlf).length)
        l.tokens ↔
      ∃ k, DrainsAt (IrcClient.readLine IrcClient.handlers) (before.length + k) {} chunks ∧
        l.ComesBack k := by
  have hlen : (l.render ++ crlf).length = l.render.length + 2 := by
    rw [List.length_append]
    rfl
  rw [answers, hlen]
  -- The two parts of a line in which a run of the handler ends.
  have hparts : ∀ k, 0 < k → k ≤ l.render.length →
      DrainsAt (IrcClient.readLine IrcClient.handlers) (before.length + k) {} chunks →
        (KeepsAlive (outcome (IrcClient.readLine IrcClient.handlers)
            ((run (IrcClient.readLine IrcClient.handlers) chunks).textsAt before.length
              (l.render.length + 2))).1 l.tokens ↔ l.ComesBack k) := by
    intro k hk hkn hdrain
    rw [textsAt_of_drainsAt hbefore l.lf_notMem hchunks hk hkn hdrain, outcome_attempted]
    exact l.keepsAlive_pieces_iff hk hkn
  constructor
  · intro hkeeps
    by_cases hcut : ∃ k, 0 < k ∧ k ≤ l.render.length ∧
        DrainsAt (IrcClient.readLine IrcClient.handlers) (before.length + k) {} chunks
    · obtain ⟨k, hk, hkn, hdrain⟩ := hcut
      exact ⟨k, hdrain, (hparts k hk hkn hdrain).mp hkeeps⟩
    · have hwhole : ∀ k, 0 < k → k ≤ l.render.length →
          ¬ DrainsAt (IrcClient.readLine IrcClient.handlers) (before.length + k) {} chunks :=
        fun k hk hkn hdrain => hcut ⟨k, hk, hkn, hdrain⟩
      have hprefix := textsAt_isPrefix hbefore l.lf_notMem (received_init _) (by simp)
        (fun _ => Nat.zero_le _) hchunks hwhole
      exact absurd hkeeps (l.not_keepsAlive_of_isPrefix hprefix)
  · rintro ⟨k, hdrain, hback⟩
    obtain ⟨hk, hkn⟩ := hback.bounds
    exact (hparts k hk hkn hdrain).mpr hback

/-- A `PING` with the token `tok`. -/
def pingTok : PingLine :=
  { LegalLine.ofLine { command := ascii "PING", trailing := some (ascii "tok") } rfl with
    tags_eq := rfl
    command_eq := rfl
    shape := Or.inl ⟨rfl, rfl⟩
    cr_notMem := by decide
    lf_notMem := by decide }

/-- A `PING` that arrives with the greeting of the server, but for its terminator, is answered
properly. -/
theorem keepsAlive_pingTok :
    KeepsAlive
      ((run (IrcClient.readLine IrcClient.handlers)
        [ascii ":tmi.twitch.tv 001 x :hi" ++ crlf ++ ascii "PING :tok", crlf]).answers
          (IrcClient.readLine IrcClient.handlers) 26 11)
      [ascii "tok"] := by
  have hbefore : Closed LF (ascii ":tmi.twitch.tv 001 x :hi" ++ crlf) := by decide
  have hchunks : [ascii ":tmi.twitch.tv 001 x :hi" ++ crlf ++ ascii "PING :tok", crlf].flatten =
      (ascii ":tmi.twitch.tv 001 x :hi" ++ crlf) ++ (pingTok.render ++ crlf) ++ [] := by decide
  have hdrain : DrainsAt (IrcClient.readLine IrcClient.handlers)
      ((ascii ":tmi.twitch.tv 001 x :hi" ++ crlf).length + pingTok.render.length) {}
      [ascii ":tmi.twitch.tv 001 x :hi" ++ crlf ++ ascii "PING :tok", crlf] := by
    decide +kernel
  have hmiddle : ∀ t ∈ pingTok.trailing, IsMiddle t := by
    rintro t ⟨⟩
    exact (isMiddle_iff _).mp (by decide)
  exact (pingTok.keepsAlive_iff hbefore hchunks).mpr ⟨_, hdrain, .whole hmiddle⟩

/-- The `PING` of the chat server, in a chunk of its own, is answered with a carriage return
behind the token. -/
theorem not_keepsAlive_tmiTwitchTv :
    ¬ KeepsAlive
      ((run (IrcClient.readLine IrcClient.handlers)
        [ascii "PING :tmi.twitch.tv" ++ crlf]).answers (IrcClient.readLine IrcClient.handlers) 0 21)
      [ascii "tmi.twitch.tv"] := by
  have hanswer : (run (IrcClient.readLine IrcClient.handlers)
      [ascii "PING :tmi.twitch.tv" ++ crlf]).answers (IrcClient.readLine IrcClient.handlers) 0 21 =
        IrcClient.pong (ascii "tmi.twitch.tv" ++ [CR]) [] := by decide +kernel
  exact not_keepsAlive_of_cr (by rw [hanswer]) (Or.inl (by decide)) _

end PingLine

end BoostIrc
