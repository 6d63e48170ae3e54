import BoostIrc.Outbound
import BoostIrc.Receive

/-!
# What a Piece of a Line Makes the Client Write

The only lines that the handlers of `irc_client` write are the answers to a `PING`, and a command
that starts like `PING` is taken for one. Here are the answers to any text that `read(line)` can be
handed: what a text has to look like to be answered, which two parameters the answer repeats, and
when an answer is read back with given tokens.

## Main results

* `IrcClient.readLine_of_ping`, `IrcClient.lines_of_not_ping`: which texts are answered.
* `keepsAlive_pong_iff`: when an answer is proper.
* `single_iff`, `double_iff`: when it repeats one token, or two, of which it has a part.
* `Line.pingArgs_of_cr`: **what is answered to a text with a carriage return at its end**.
-/

namespace BoostIrc

/-! ### Which texts are answered -/

/-- The parameters that the answer to a line repeats: the first two, of which the last may be
the trailing one, present or not. -/
def Line.pingArgs (l : Line) : Bytes × Bytes :=
  match l.middles with
  | [] => (l.trailing.getD [], [])
  | m :: ms => (m, ms.headD (l.trailing.getD []))

namespace IrcClient

/-- A command that starts like `PING` is no number, and makes `message` call `ping`. -/
theorem dispatch_of_ping (l : Line) (raw : Bytes) (hpi : ascii "PI" <+: l.command) :
    dispatch (l.toMessage raw) = .ok (.call (.ping l.pingArgs.1 l.pingArgs.2)) := by
  obtain ⟨c, hc⟩ := hpi
  have hletter : (l.toMessage raw).command = 0x50 :: (0x49 :: c) := hc.symm
  have hpi' : ascii "PI" <+: l.command := ⟨c, hc⟩
  have hpr : ¬ ascii "PR" <+: l.command := fun hpr => not_ping_of_privmsg hpr hpi'
  rw [dispatch_of_letter (by decide) (by decide) hletter, message_toMessage, if_neg hpr,
    if_pos hpi', Line.pingArgs]
  cases l.middles <;> rfl

/-- **A text whose command starts like `PING` is answered**, with the parameters it has. The
dispatch looks at the first two letters of the command and at nothing else. -/
theorem readLine_of_ping {raw l : Bytes} (hlocate : locate raw = some l)
    (hpi : ascii "PI" <+: (split l).command) :
    readLine handlers raw = .ok (pong (split l).pingArgs.1 (split l).pingArgs.2) := by
  rw [readLine, Message.ofRaw_eq, hlocate, Option.elim_some, read, dispatch_of_ping _ _ hpi]
  simp [Except.map, Handlers.invoke, handlers]

/-- A message that is not dispatched to `ping` makes the client write no line. -/
theorem lines_of_dispatch {raw : Bytes}
    (h : ∀ server server2,
      dispatch (Message.ofRaw raw) ≠ .ok (.call (.ping server server2))) :
    Effect.lines (Receiver.outcome (readLine handlers) [raw]).1 = [] := by
  rw [Receiver.outcome, readLine, read]
  cases hdispatch : dispatch (Message.ofRaw raw) with
  | error e => rfl
  | ok d =>
      cases d with
      | silent => rfl
      | unhandled => rfl
      | call c =>
          cases c with
          | ping server server2 => exact absurd hdispatch (h server server2)
          | _ => rfl

/-- **No other text is answered**: where the command of a line does not start with PI, reading it
writes nothing, whatever else it does. -/
theorem lines_of_not_ping {raw : Bytes}
    (h : ∀ l, locate raw = some l → ¬ ascii "PI" <+: (split l).command) :
    Effect.lines (Receiver.outcome (readLine handlers) [raw]).1 = [] := by
  refine lines_of_dispatch fun server server2 => ?_
  rw [Message.ofRaw_eq]
  cases hlocate : locate raw with
  | none => simp [dispatch_empty]
  | some l =>
      have hpi := h l hlocate
      rw [Option.elim_some, dispatch]
      cases stoi ((split l).toMessage raw).command with
      | ok code => simp
      | error e =>
          cases e with
          | invalidArgument =>
              simp only [message_toMessage, if_neg hpi]
              split_ifs
              · cases (split l).middles <;> simp
              · cases (split l).middles <;> simp
              · simp
          | _ => simp

end IrcClient

/-! ### When an answer is proper -/

/-- **A proper answer** to a `PING` with the given tokens: exactly one line is written; it is a
`PONG`, has no line break before its end, and parses to the tokens, empty parameters at the end
aside. -/
def KeepsAlive (effects : List Effect) (tokens : List Bytes) : Prop :=
  ∃ text, Effect.lines effects = [text ++ crlf] ∧ CR ∉ text ∧ LF ∉ text ∧
    (Message.ofRaw text).command = ascii "PONG" ∧
    significant (Message.ofRaw text).params = significant tokens

/-- The line that an answer is: the command and both arguments, with a space before each of them. -/
theorem lines_pong (server server2 : Bytes) :
    Effect.lines (IrcClient.pong server server2) =
      [ascii "PONG" ++ SP :: (server ++ SP :: server2) ++ crlf] := by
  have hpong : IrcClient.pong server server2 = [.line _] :=
    IrcClient.send_eq (ascii "PONG") [server] server2
  rw [hpong]
  simp [Effect.lines]

/-- How an answer is read back: all that stands behind the command are its parameters. -/
theorem ofRaw_pong (last : Bytes) :
    (Message.ofRaw (ascii "PONG" ++ SP :: last)).command = ascii "PONG" ∧
      (Message.ofRaw (ascii "PONG" ++ SP :: last)).params = lastParams 14 last :=
  (LegalLine.ofLine { command := ascii "PONG" } rfl).ofRaw_sent last

/-- **When an answer is proper**: its two parameters have no line break in them, and are read
back as the tokens. -/
theorem keepsAlive_pong_iff {effects : List Effect} {server server2 : Bytes}
    (h : Effect.lines effects = Effect.lines (IrcClient.pong server server2))
    (tokens : List Bytes) :
    KeepsAlive effects tokens ↔
      (CR ∉ server ∧ CR ∉ server2 ∧ LF ∉ server ∧ LF ∉ server2) ∧
        significant (lastParams 14 (server ++ SP :: server2)) = significant tokens := by
  obtain ⟨hcommand, hparams⟩ := ofRaw_pong (server ++ SP :: server2)
  have hbreak : ∀ b : Byte, b ∉ ascii "PONG" → b ≠ SP →
      (b ∉ ascii "PONG" ++ SP :: (server ++ SP :: server2) ↔ b ∉ server ∧ b ∉ server2) := by
    intro b hpong hspace
    simp [hpong, hspace]
  have hcr := hbreak CR (by decide) (by decide)
  have hlf := hbreak LF (by decide) (by decide)
  rw [KeepsAlive, h, lines_pong]
  constructor
  · rintro ⟨text, htext, hcr', hlf', -, hargs⟩
    obtain rfl := List.append_cancel_right (List.cons.inj htext).1
    rw [hparams] at hargs
    obtain ⟨hc, hc'⟩ := hcr.mp hcr'
    obtain ⟨hl, hl'⟩ := hlf.mp hlf'
    exact ⟨⟨hc, hc', hl, hl'⟩, hargs⟩
  · rintro ⟨⟨hc, hc', hl, hl'⟩, hargs⟩
    exact ⟨_, rfl, hcr.mpr ⟨hc, hc'⟩, hlf.mpr ⟨hl, hl'⟩, hcommand, hparams.symm ▸ hargs⟩

/-- Where nothing is written there is no proper answer. -/
theorem not_keepsAlive_of_lines {effects : List Effect} (h : Effect.lines effects = [])
    (tokens : List Bytes) : ¬ KeepsAlive effects tokens := by
  rintro ⟨text, htext, -⟩
  rw [h] at htext
  exact absurd htext (by simp)

/-- An answer with a carriage return in a parameter is not proper. -/
theorem not_keepsAlive_of_cr {effects : List Effect} {server server2 : Bytes}
    (h : Effect.lines effects = Effect.lines (IrcClient.pong server server2))
    (hcr : CR ∈ server ∨ CR ∈ server2) (tokens : List Bytes) : ¬ KeepsAlive effects tokens := by
  rw [keepsAlive_pong_iff h]
  rintro ⟨⟨hc, hc', -⟩, -⟩
  exact hcr.elim hc hc'

/-! ### Which tokens an answer repeats -/

/-- A single parameter that is not empty counts. -/
theorem significant_singleton {t : Bytes} (ht : t ≠ []) : significant [t] = [t] :=
  significant_append_cons [] ht []

/-- Of two parameters both count if the last one is not empty. -/
theorem significant_pair (m : Bytes) {m' : Bytes} (hm' : m' ≠ []) :
    significant [m, m'] = [m, m'] :=
  significant_append_cons [m] hm' []

/-- The front of a legal middle parameter is one, unless it is empty. -/
theorem IsMiddle.of_prefix {m x : Bytes} (hm : IsMiddle m) (hx : x <+: m) (hne : x ≠ []) :
    IsMiddle x := by
  obtain ⟨z, rfl⟩ := hx
  refine ⟨hne, fun h => hm.sp_notMem (List.mem_append_left z h), fun h => hm.head_ne ?_⟩
  rw [List.head?_append_of_ne_nil x hne, h]

/-- A parameter that is a legal middle one is read back, and the rest after it. -/
theorem lastParams_middle {m : Bytes} (hm : IsMiddle m) (last : Bytes) :
    lastParams 14 (m ++ SP :: last) = m :: lastParams 13 last := by
  have h := takeMiddles_flatMap (List.forall_mem_singleton.mpr hm) 13
    (Or.inr ⟨last, rfl⟩ : SP :: last = [] ∨ ∃ t, SP :: last = SP :: t)
  have hline : [m].flatMap (SP :: ·) ++ SP :: last = SP :: (m ++ SP :: last) := by simp
  rw [hline] at h
  simp only [lastParams]
  rw [show (14 : ℕ) = [m].length + 13 from rfl, h]
  rfl

/-- **Legal middle parameters are repeated**; the second may be missing. Then the client writes an
empty one, which does not count at the end. -/
theorem significant_lastParams {m m' : Bytes} (hm : IsMiddle m) (hm' : m' = [] ∨ IsMiddle m') :
    significant (lastParams 14 (m ++ SP :: m')) = significant [m, m'] := by
  have hsurvives : Survives m' := by
    rcases hm' with rfl | hm'
    · exact Or.inl rfl
    · exact Or.inr (Or.inr ⟨hm'.sp_notMem, hm'.head_ne⟩)
  rw [lastParams_middle hm]
  exact (significant_sent_iff [m] 12 m').mpr hsurvives

/-- A parameter that is not empty is the token, when the token is the only one read back. -/
theorem eq_of_significant_cons {x t : Bytes} {rest : List Bytes} (hx : x ≠ [])
    (h : significant (x :: rest) = significant [t]) : t = x := by
  have hcons : significant (x :: rest) = x :: significant rest :=
    significant_append_cons [] hx rest
  by_cases ht : t = []
  · subst ht
    rw [hcons, show significant [[]] = [] from rfl] at h
    exact absurd h (by simp)
  · rw [hcons, significant_singleton ht] at h
    exact (List.cons.inj h).1.symm

/-- A front that begins with a colon is never read back as the token: the colon is taken away, so
that the token would be longer by a colon than itself. -/
theorem single_colon_ne {u t : Bytes} (hu : COLON :: u <+: t) :
    significant (lastParams 14 (COLON :: (u ++ [SP]))) ≠ significant [t] := by
  intro h
  rw [lastParams_colon] at h
  obtain rfl := eq_of_significant_cons (by simp) h
  obtain ⟨z, hz⟩ := hu
  have hcount := congrArg (List.count COLON) hz
  simp only [List.cons_append, List.count_cons_self, List.count_append] at hcount
  have hsp : List.count COLON [SP] = 0 := by decide
  omega

/-- A front that begins with a word is read back as the token if it is the whole token, and a
legal middle parameter. -/
theorem single_word_iff {a : Byte} {u t : Bytes} (hspace : a ≠ SP) (hcolon : a ≠ COLON)
    (hu : a :: u <+: t) :
    significant (lastParams 14 (a :: (u ++ [SP]))) = significant [t] ↔ a :: u = t ∧ IsMiddle t := by
  obtain ⟨rest, hlast, -⟩ := lastParams_word 13 hcolon hspace (u ++ [SP])
  constructor
  · intro h
    rw [hlast] at h
    have ht : t = a :: word (u ++ [SP]) := eq_of_significant_cons (by simp) h
    have hsp : SP ∉ t := by
      rw [ht]
      intro hmem
      rcases List.mem_cons.mp hmem with heq | hmem
      · exact hspace heq.symm
      · exact sp_notMem_word _ hmem
    have hu' : SP ∉ u := fun hmem => hsp (hu.subset (List.mem_cons_of_mem a hmem))
    rw [word_append hu' (Or.inr ⟨[], rfl⟩)] at ht
    subst ht
    exact ⟨rfl, by simp, hsp, by simpa using hcolon⟩
  · rintro ⟨rfl, ht⟩
    rw [← List.cons_append, significant_lastParams ht (Or.inl rfl)]
    exact significant_concat_nil [a :: u]

/-- **When an answer repeats one token**, of which it has the front `u`: it has all of it and the
token needs no colon; or the token is `u` and the space that is written behind `u`, and `u` does
not begin with a word. -/
theorem single_iff {u t : Bytes} (hu : u <+: t) :
    significant (lastParams 14 (u ++ [SP])) = significant [t] ↔
      (u = t ∧ IsMiddle t) ∨ (t = u ++ [SP] ∧ ∀ a ∈ u.head?, a = SP) := by
  cases u with
  | nil =>
      rw [List.nil_append, lastParams_space]
      constructor
      · intro h
        exact Or.inr ⟨eq_of_significant_cons (by simp) h, by simp⟩
      · rintro (⟨rfl, ht⟩ | ⟨rfl, -⟩)
        · exact absurd rfl ht.ne_nil
        · rfl
  | cons a u =>
      by_cases hspace : a = SP
      · subst hspace
        rw [List.cons_append, lastParams_space]
        constructor
        · intro h
          exact Or.inr ⟨eq_of_significant_cons (by simp) h, by simp⟩
        · rintro (⟨rfl, ht⟩ | ⟨rfl, -⟩)
          · exact absurd List.mem_cons_self ht.sp_notMem
          · rfl
      · by_cases hcolon : a = COLON
        · subst hcolon
          refine iff_of_false (single_colon_ne hu) ?_
          rintro (⟨rfl, ht⟩ | ⟨-, h⟩)
          · exact ht.head_ne rfl
          · exact hspace (h COLON rfl)
        · rw [List.cons_append, single_word_iff hspace hcolon hu]
          refine (or_iff_left ?_).symm
          rintro ⟨-, h⟩
          exact hspace (h a rfl)

/-- **When an answer repeats two tokens**, of which it has the fronts `u` and `w`: it has all of
both. -/
theorem double_iff {u w m m' : Bytes} (hm : IsMiddle m) (hm' : IsMiddle m') (hu : u <+: m)
    (hw : w <+: m') (hsecond : w ≠ [] → u = m) :
    significant (lastParams 14 (u ++ SP :: w)) = significant [m, m'] ↔ u = m ∧ w = m' := by
  rw [significant_pair m hm'.ne_nil]
  by_cases hnil : u = []
  · subst hnil
    obtain rfl : w = [] := by
      by_contra hne
      exact hm.ne_nil (hsecond hne).symm
    refine iff_of_false (fun h => ?_) fun h => hm.ne_nil h.1.symm
    rw [List.nil_append, lastParams_space, significant_singleton (by simp)] at h
    exact absurd (congrArg List.length h) (by simp)
  · have hum : IsMiddle u := hm.of_prefix hu hnil
    by_cases hwnil : w = []
    · subst hwnil
      refine iff_of_false (fun h => ?_) fun h => hm'.ne_nil h.2.symm
      have hone : significant [u, []] = significant [u] := significant_concat_nil [u]
      rw [significant_lastParams hum (Or.inl rfl), hone, significant_singleton hnil] at h
      exact absurd (congrArg List.length h) (by simp)
    · rw [significant_lastParams hum (Or.inr (hm'.of_prefix hw hwnil)),
        significant_pair u hwnil]
      constructor
      · intro h
        obtain ⟨hfirst, hrest⟩ := List.cons.inj h
        exact ⟨hfirst, (List.cons.inj hrest).1⟩
      · rintro ⟨rfl, rfl⟩
        rfl

/-! ### Texts with a carriage return at the end -/

/-- The middle parameters that are taken are legal. -/
theorem isMiddle_of_mem_takeMiddles (n : ℕ) (l : Bytes) :
    ∀ m ∈ (takeMiddles n l).1, IsMiddle m := by
  induction n, l using takeMiddles.induct with
  | case1 n b a t h ih =>
      rw [takeMiddles, if_pos h]
      intro m hm
      rcases List.mem_cons.mp hm with rfl | hm
      · refine ⟨by simp, fun hmem => ?_, fun hhead => h.2.1 (Option.some.inj hhead)⟩
        rcases List.mem_cons.mp hmem with heq | hmem
        · exact h.2.2 heq.symm
        · exact sp_notMem_word t hmem
      · exact ih m hm
  | case2 n b a t h =>
      rw [takeMiddles, if_neg h]
      simp
  | case3 n l h =>
      rw [takeMiddles_of_short h]
      simp

/-- The last byte of a text is the last of each part at its end. -/
theorem eq_concat_of_append {x y z : Bytes} {b : Byte} (h : x ++ y = z ++ [b]) (hy : y ≠ []) :
    ∃ y', y = y' ++ [b] := by
  obtain ⟨y', c, rfl⟩ := y.eq_nil_or_concat.resolve_left hy
  rw [List.concat_eq_append, ← List.append_assoc] at h
  obtain ⟨-, hc⟩ := List.append_inj' h rfl
  exact ⟨y', by rw [List.concat_eq_append, hc]⟩

/-- The last byte of a text, unless it is a colon, is the last of its trailing parameter. -/
theorem mem_cutTrailing {r : Bytes} {b : Byte} (hb : b ≠ COLON) :
    b ∈ (cutTrailing (SP :: (r ++ [b]))).getD [] := by
  cases r with
  | nil => simp [cutTrailing, hb]
  | cons a r =>
      rw [List.cons_append, cutTrailing]
      split_ifs <;> simp

/-- **What is answered to a text with a carriage return at its end**, `a` being what stands
behind the command: the carriage return is in one of the parameters of the answer, or there are
no parameters, or there are more than two. -/
theorem Line.pingArgs_of_cr {a x : Bytes} {l : Line} (hstart : a = [] ∨ ∃ r, a = SP :: r)
    (hend : a = [] ∨ a = x ++ [CR]) (hmiddles : l.middles = (takeMiddles 14 a).1)
    (htrailing : l.trailing = cutTrailing (takeMiddles 14 a).2) :
    (CR ∈ l.pingArgs.1 ∨ CR ∈ l.pingArgs.2) ∨ (a = [] ∧ l.pingArgs = ([], [])) ∨
      ∃ z, a = SP :: (l.pingArgs.1 ++ SP :: (l.pingArgs.2 ++ SP :: z)) ∧
        IsMiddle l.pingArgs.1 ∧ IsMiddle l.pingArgs.2 := by
  have htext := takeMiddles_append 14 a
  have hlegal := isMiddle_of_mem_takeMiddles 14 a
  have hrest := takeMiddles_rest 14 a hstart
  unfold Line.pingArgs
  rw [hmiddles, htrailing]
  generalize (takeMiddles 14 a).1 = ms, (takeMiddles 14 a).2 = rest at htext hlegal hrest
  -- A text that is not empty ends with the carriage return, and so does each part at its end.
  have hconcat : ∀ {u y : Bytes}, u ++ y = a → y ≠ [] → ∃ y', y = y' ++ [CR] := by
    intro u y h hy
    have hne : a ≠ [] := h ▸ List.append_ne_nil_of_right_ne_nil u hy
    exact eq_concat_of_append (h.trans (hend.resolve_left hne)) hy
  have hlast : ∀ {r : Bytes}, rest = SP :: r → CR ∈ (cutTrailing rest).getD [] := by
    rintro r rfl
    have hr : r ≠ [] := by
      rintro rfl
      obtain ⟨y', hy'⟩ := hconcat htext (by simp)
      have hy' : [] ++ [SP] = y' ++ [CR] := hy'
      obtain ⟨-, hsp⟩ := List.append_inj' hy' rfl
      exact absurd hsp (by decide)
    obtain ⟨r', rfl⟩ := hconcat (u := ms.flatMap (SP :: ·) ++ [SP]) (by simpa using htext) hr
    exact mem_cutTrailing (by decide)
  match ms, hlegal, htext with
  | [], _, htext =>
      rcases hrest with hnil | ⟨r, hr⟩
      · subst hnil
        exact Or.inr (Or.inl ⟨htext.symm, rfl⟩)
      · exact Or.inl (Or.inl (hlast hr))
  | [m], hlegal, htext =>
      rcases hrest with hnil | ⟨r, hr⟩
      · -- The carriage return is the end of the one parameter.
        subst hnil
        obtain ⟨m', hm'⟩ := hconcat (u := [SP]) (y := m) (by simpa using htext)
          (hlegal m List.mem_cons_self).ne_nil
        exact Or.inl (Or.inl (by simp [hm']))
      · exact Or.inl (Or.inr (hlast hr))
  | m :: m' :: ms, hlegal, htext =>
      have hm := hlegal m List.mem_cons_self
      have hm' := hlegal m' (by simp)
      have hsplit : SP :: (m ++ SP :: (m' ++ (ms.flatMap (SP :: ·) ++ rest))) = a := by
        simpa using htext
      have hbehind : ms.flatMap (SP :: ·) ++ rest = [] ∨
          ∃ z, ms.flatMap (SP :: ·) ++ rest = SP :: z := by
        cases ms with
        | nil => simpa using hrest
        | cons m ms => exact Or.inr ⟨_, rfl⟩
      rcases hbehind with hnil | ⟨z, hz⟩
      · -- The carriage return is the end of the second parameter.
        rw [hnil, List.append_nil] at hsplit
        obtain ⟨y', hy'⟩ := hconcat (u := SP :: (m ++ [SP])) (y := m') (by simpa using hsplit)
          hm'.ne_nil
        exact Or.inl (Or.inr (by simp [hy']))
      · rw [hz] at hsplit
        exact Or.inr (Or.inr ⟨z, hsplit.symm, hm, hm'⟩)

/-- **What a text with a carriage return at its end has to look like to get a proper answer.**
Its command starts like `PING`, is the first word or stands behind a space, and either nothing
is behind it, or more than the two parameters that are repeated. -/
theorem exists_of_keepsAlive_cr {x : Bytes} {effects : List Effect} {tokens : List Bytes}
    (h : Effect.lines effects =
      Effect.lines (Receiver.outcome (IrcClient.readLine IrcClient.handlers) [x ++ [CR]]).1)
    (hkeeps : KeepsAlive effects tokens) :
    ∃ r r', locate (x ++ [CR]) = some r ∧ (r' = r ∨ SP :: r' <:+ r) ∧ ascii "PI" <+: word r' ∧
      ((SP ∉ r' ∧ significant (lastParams 14 [SP]) = significant tokens) ∨
        ∃ u w z, afterWord r' = SP :: (u ++ SP :: (w ++ SP :: z)) ∧
          IsMiddle u ∧ IsMiddle w ∧ significant tokens = [u, w]) := by
  by_cases hping : ∀ l, locate (x ++ [CR]) = some l → ¬ ascii "PI" <+: (split l).command
  · exact absurd hkeeps (not_keepsAlive_of_lines (h.trans (IrcClient.lines_of_not_ping hping)) _)
  simp only [not_forall, not_not] at hping
  obtain ⟨r, hlocate, hpi⟩ := hping
  rw [Receiver.outcome, IrcClient.readLine_of_ping hlocate hpi] at h
  simp only [Receiver.outcome, List.append_nil] at h
  obtain ⟨r', hr', hcommand, hmiddles, htrailing⟩ := exists_split_eq r
  rw [hcommand] at hpi
  refine ⟨r, r', hlocate, hr', hpi, ?_⟩
  -- What is behind the command ends where the text does.
  have hsuffix : afterWord r' <:+ x ++ [CR] := by
    have hafter : afterWord r' <:+ r' := List.dropWhile_suffix _
    have hbehind : r' <:+ r := by
      rcases hr' with rfl | hr'
      · exact List.suffix_rfl
      · exact (List.suffix_cons SP r').trans hr'
    exact hafter.trans (hbehind.trans (locateFrom_isSuffix hlocate))
  have hend : afterWord r' = [] ∨ ∃ x', afterWord r' = x' ++ [CR] := by
    by_cases hnil : afterWord r' = []
    · exact Or.inl hnil
    · obtain ⟨y, hy⟩ := hsuffix
      exact Or.inr (eq_concat_of_append hy hnil)
  obtain ⟨x', hend⟩ : ∃ x', afterWord r' = [] ∨ afterWord r' = x' ++ [CR] := by
    rcases hend with hnil | ⟨x', hx'⟩
    · exact ⟨[], Or.inl hnil⟩
    · exact ⟨x', Or.inr hx'⟩
  rcases Line.pingArgs_of_cr (afterWord_eq_nil_or r') hend hmiddles htrailing with
    hcr | ⟨hnil, hargs⟩ | ⟨z, hz, hu, hw⟩
  · exact absurd hkeeps (not_keepsAlive_of_cr h hcr tokens)
  · rw [hargs] at h
    obtain ⟨-, hback⟩ := (keepsAlive_pong_iff h tokens).mp hkeeps
    have hword : word r' = r' := by
      have := word_append_afterWord r'
      rwa [hnil, List.append_nil] at this
    exact Or.inl ⟨hword ▸ sp_notMem_word r', hback⟩
  · obtain ⟨-, hback⟩ := (keepsAlive_pong_iff h tokens).mp hkeeps
    rw [significant_lastParams hu (Or.inr hw), significant_pair _ hw.ne_nil] at hback
    exact Or.inr ⟨_, _, z, hz, hu, hw, hback.symm⟩

/-! ### Parameters that have been cut -/

/-- The parameters that are repeated of the text behind a command. -/
def restArgs (r : Bytes) : Bytes × Bytes :=
  Line.pingArgs
    { command := [], middles := (takeMiddles 14 r).1, trailing := cutTrailing (takeMiddles 14 r).2 }

/-- A line whose header is legal is answered with what is repeated of the rest. -/
theorem LegalLine.readLine_header_append (l : LegalLine) (hpi : ascii "PI" <+: l.command)
    {r : Bytes} (hr : r = [] ∨ ∃ t, r = SP :: t) :
    IrcClient.readLine IrcClient.handlers (l.header ++ r) =
      .ok (IrcClient.pong (restArgs r).1 (restArgs r).2) := by
  have hsplit := l.split_header_append hr
  rw [IrcClient.readLine_of_ping (l.locate_header_append r) (by rw [hsplit]; exact hpi), hsplit]
  rfl

/-- A trailing parameter is the first argument, and there is no second one. -/
theorem restArgs_trailing (t : Bytes) : restArgs (SP :: COLON :: t) = (t, []) := by
  have hstop : StopsMiddles (SP :: COLON :: t) := Or.inr ⟨COLON :: t, rfl, by simp⟩
  rw [restArgs, takeMiddles_of_stops hstop]
  simp [Line.pingArgs, cutTrailing]

/-- A middle parameter alone is the first argument, and there is no second one. -/
theorem restArgs_middle {m : Bytes} (hm : IsMiddle m) : restArgs (SP :: m) = (m, []) := by
  have h := takeMiddles_flatMap (List.forall_mem_singleton.mpr hm) 13
    (Or.inl rfl : ([] : Bytes) = [] ∨ ∃ t, ([] : Bytes) = SP :: t)
  have hline : [m].flatMap (SP :: ·) ++ [] = SP :: m := by simp
  rw [hline] at h
  rw [restArgs, show (14 : ℕ) = [m].length + 13 from rfl, h, takeMiddles_of_stops (Or.inl rfl)]
  rfl

/-- A middle parameter and what follows it: one more middle parameter or nothing is the second
argument. -/
theorem restArgs_middle_append {m m' : Bytes} (hm : IsMiddle m) (hm' : m' = [] ∨ IsMiddle m') :
    restArgs (SP :: (m ++ SP :: m')) = (m, m') := by
  have h := takeMiddles_flatMap (List.forall_mem_singleton.mpr hm) 13
    (Or.inr ⟨m', rfl⟩ : SP :: m' = [] ∨ ∃ t, SP :: m' = SP :: t)
  have hline : [m].flatMap (SP :: ·) ++ SP :: m' = SP :: (m ++ SP :: m') := by simp
  rw [hline] at h
  rw [restArgs, show (14 : ℕ) = [m].length + 13 from rfl, h]
  rcases hm' with rfl | hm'
  · rw [takeMiddles_of_stops (Or.inr ⟨[], rfl, by simp⟩)]
    rfl
  · have h' := takeMiddles_flatMap (List.forall_mem_singleton.mpr hm') 12
      (Or.inl rfl : ([] : Bytes) = [] ∨ ∃ t, ([] : Bytes) = SP :: t)
    have hline' : [m'].flatMap (SP :: ·) ++ [] = SP :: m' := by simp
    rw [hline', takeMiddles_of_stops (Or.inl rfl)] at h'
    rw [show (13 : ℕ) = [m'].length + 12 from rfl, h']
    rfl

/-- A trailing parameter that has been cut. -/
theorem restArgs_take_trailing (t : Bytes) (j : ℕ) :
    restArgs ((SP :: COLON :: t).take j) = (t.take (j - 2), []) := by
  match j with
  | 0 => rfl
  | 1 => rfl
  | j + 2 => exact restArgs_trailing (t.take j)

/-- A middle parameter that has been cut is the part before the cut. -/
theorem restArgs_take_middle {m : Bytes} (hm : IsMiddle m) (j : ℕ) :
    restArgs ((SP :: m).take j) = (m.take (j - 1), []) := by
  match j with
  | 0 => rfl
  | j + 1 =>
      rw [List.take_succ_cons, Nat.add_sub_cancel]
      by_cases hnil : m.take j = []
      · rw [hnil]
        rfl
      · exact restArgs_middle (hm.of_prefix (List.take_prefix j m) hnil)

/-- Two middle parameters that have been cut. -/
theorem restArgs_take_middles {m m' : Bytes} (hm : IsMiddle m) (hm' : IsMiddle m') (j : ℕ) :
    restArgs ((SP :: (m ++ SP :: m')).take j) = (m.take (j - 1), m'.take (j - (m.length + 2))) := by
  by_cases hj : j ≤ m.length + 1
  · have hfirst : (SP :: (m ++ SP :: m')).take j = (SP :: m).take j := by
      rw [← List.cons_append, List.take_append_of_le_length (by simpa using hj)]
    have hzero : j - (m.length + 2) = 0 := by omega
    rw [hfirst, restArgs_take_middle hm, hzero, List.take_zero]
  · obtain ⟨i, rfl⟩ : ∃ i, j = m.length + 2 + i := ⟨j - (m.length + 2), by omega⟩
    have hcut : (SP :: (m ++ SP :: m')).take (m.length + 2 + i) = SP :: (m ++ SP :: m'.take i) := by
      rw [show m.length + 2 + i = (m.length + (i + 1)) + 1 by omega, List.take_succ_cons,
        List.take_length_add_append, List.take_succ_cons]
    have hsecond : m'.take i = [] ∨ IsMiddle (m'.take i) := by
      by_cases hnil : m'.take i = []
      · exact Or.inl hnil
      · exact Or.inr (hm'.of_prefix (List.take_prefix i m') hnil)
    have hall : m.take (m.length + 2 + i - 1) = m := List.take_of_length_le (by omega)
    rw [hcut, restArgs_middle_append hm hsecond, Nat.add_sub_cancel_left, hall]

end BoostIrc
