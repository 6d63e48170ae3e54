import BoostIrc.Client

/-!
# Which Lines Reach Which Handler

`IrcClient.dispatch` classifies a command indirectly: `stoi` accepts everything that starts
like a number, and the switch of `message` looks at the first one or two bytes only. This
module computes what is dispatched for every line, and draws the two consequences: which
lines leave the client running, and which commands are told apart.

## Main results

* `message_privmsg`, `message_ping`, `message_join`, `message_other`: the branches of the
  switch, as conditions on how the command starts.
* `message_toMessage`: the call made for a line, by the start of its command.
* `exists_message_eq_privmsg`, `exists_message_eq_ping`, `exists_message_eq_join`: the same, one
  command at a time.
* `exists_readLine_eq_ok_iff`: **which lines are survived**, among all byte strings.
* `LegalLine.acceptsExactly_iff`: **which commands are classified rightly**.
-/

namespace BoostIrc

/-! ### The first bytes of a command -/

/-- The first byte of a text, read with `operator[]`. -/
theorem getD_zero_eq_iff {a : Byte} (ha : a ≠ 0) {c : Bytes} :
    c.getD 0 0 = a ↔ [a] <+: c := by
  cases c with
  | nil => simp [ha.symm]
  | cons x c => simp [List.cons_prefix_cons, eq_comm]

/-- The first two bytes of a text, read with `operator[]`. -/
theorem getD_one_eq_iff {a b : Byte} (ha : a ≠ 0) (hb : b ≠ 0) {c : Bytes} :
    c.getD 0 0 = a ∧ c.getD 1 0 = b ↔ [a, b] <+: c := by
  match c with
  | [] => simp [ha.symm]
  | [x] => simp [List.cons_prefix_cons, hb.symm]
  | x :: y :: c => simp [List.cons_prefix_cons, eq_comm]

/-- The two letters that are tested before `privmsg` is called, as the beginning of the command. -/
theorem privmsg_start_iff {c : Bytes} :
    c.getD 0 0 = 0x50 ∧ c.getD 1 0 = 0x52 ↔ ascii "PR" <+: c :=
  getD_one_eq_iff (by decide) (by decide)

/-- The two letters that are tested before `ping` is called, as the beginning of the command. -/
theorem ping_start_iff {c : Bytes} :
    c.getD 0 0 = 0x50 ∧ c.getD 1 0 = 0x49 ↔ ascii "PI" <+: c :=
  getD_one_eq_iff (by decide) (by decide)

/-- The one letter that is tested before `join` is called, as the beginning of the command. -/
theorem join_start_iff {c : Bytes} : c.getD 0 0 = 0x4A ↔ ascii "J" <+: c :=
  getD_zero_eq_iff (by decide)

/-- The branches of `message` exclude each other: no command starts in both ways. -/
theorem not_ping_of_privmsg {c : Bytes} (h : ascii "PR" <+: c) : ¬ ascii "PI" <+: c := by
  intro hpi
  obtain ⟨-, hR⟩ := privmsg_start_iff.mpr h
  obtain ⟨-, hI⟩ := ping_start_iff.mpr hpi
  exact absurd (hR.symm.trans hI) (by decide)

/-- A command that starts with PR does not start with J. -/
theorem not_join_of_privmsg {c : Bytes} (h : ascii "PR" <+: c) : ¬ ascii "J" <+: c := by
  intro hj
  obtain ⟨hP, -⟩ := privmsg_start_iff.mpr h
  exact absurd (hP.symm.trans (join_start_iff.mpr hj)) (by decide)

/-- A command that starts with PI does not start with J. -/
theorem not_join_of_ping {c : Bytes} (h : ascii "PI" <+: c) : ¬ ascii "J" <+: c := by
  intro hj
  obtain ⟨hP, -⟩ := ping_start_iff.mpr h
  exact absurd (hP.symm.trans (join_start_iff.mpr hj)) (by decide)

namespace IrcClient

variable {msg : Message}

/-- A command that starts with PR goes to `privmsg`, with the first two parameters, which have to be
there. -/
theorem message_privmsg (h : ascii "PR" <+: msg.command) :
    message msg = do
      let msgtarget ← at? msg.params 0
      let text ← at? msg.params 1
      return .call (.privmsg msgtarget text) := by
  obtain ⟨hP, hR⟩ := privmsg_start_iff.mpr h
  rw [message, if_pos hP, if_pos hR]

/-- A command that starts with PI goes to `ping`, with one parameter or with the first two. Without
a parameter nothing is done. -/
theorem message_ping (h : ascii "PI" <+: msg.command) :
    message msg =
      if msg.params.length = 1 then
        do return .call (.ping (← at? msg.params 0) [])
      else if 1 < msg.params.length then
        do return .call (.ping (← at? msg.params 0) (← at? msg.params 1))
      else
        .ok .silent := by
  obtain ⟨hP, hI⟩ := ping_start_iff.mpr h
  rw [message, if_pos hP, if_neg (by rw [hI]; decide), if_pos hI]

/-- A command that starts with J goes to `join`, with its first two parameters cut at their
commas. -/
theorem message_join (h : ascii "J" <+: msg.command) :
    message msg = do
      let channels ← splitParam msg.params 0
      let keys ← splitParam msg.params 1
      return .call (.join channels keys) := by
  have hJ := join_start_iff.mpr h
  rw [message, if_neg (by rw [hJ]; decide), if_pos hJ]

/-- Any other command is left to the log. -/
theorem message_other (hpr : ¬ ascii "PR" <+: msg.command) (hpi : ¬ ascii "PI" <+: msg.command)
    (hj : ¬ ascii "J" <+: msg.command) : message msg = .ok .unhandled := by
  rw [message]
  split_ifs with hP hR hI hlen hlt hJ
  · exact absurd (privmsg_start_iff.mp ⟨hP, hR⟩) hpr
  · exact absurd (ping_start_iff.mp ⟨hP, hI⟩) hpi
  · exact absurd (ping_start_iff.mp ⟨hP, hI⟩) hpi
  · exact absurd (ping_start_iff.mp ⟨hP, hI⟩) hpi
  · rfl
  · exact absurd (join_start_iff.mp hJ) hj
  · rfl

/-! ### The call made for a line -/

/-- The call that `message` makes for a split line, by the start of the command. The last
element of the parameters is the trailing one, present or not. -/
theorem message_toMessage (l : Line) (raw : Bytes) :
    message (l.toMessage raw) =
      if ascii "PR" <+: l.command then
        match l.middles with
        | [] => .error .outOfBounds
        | m :: ms => .ok (.call (.privmsg m (ms.headD (l.trailing.getD []))))
      else if ascii "PI" <+: l.command then
        match l.middles with
        | [] => .ok (.call (.ping (l.trailing.getD []) []))
        | m :: ms => .ok (.call (.ping m (ms.headD (l.trailing.getD []))))
      else if ascii "J" <+: l.command then
        match l.middles with
        | [] => .ok (.call (.join ((l.trailing.getD []).splitOn COMMA) []))
        | m :: ms =>
            .ok (.call (.join (m.splitOn COMMA) ((ms.headD (l.trailing.getD [])).splitOn COMMA)))
      else
        .ok .unhandled := by
  split_ifs with hpr hpi hj
  · rw [message_privmsg hpr, Line.toMessage]
    rcases l.middles with _ | ⟨m, _ | ⟨m', ms⟩⟩ <;> rfl
  · rw [message_ping hpi, Line.toMessage]
    rcases l.middles with _ | ⟨m, _ | ⟨m', ms⟩⟩
    · rfl
    · rfl
    · simp [at?, bind, Except.bind, pure, Except.pure]
  · rw [message_join hj, Line.toMessage]
    rcases l.middles with _ | ⟨m, _ | ⟨m', ms⟩⟩
    · rfl
    · rfl
    · simp [splitParam, at?, Except.map, bind, Except.bind, pure, Except.pure]
  · exact message_other hpr hpi hj

/-- A command that starts like `PRIVMSG`, with nothing before the text. -/
theorem message_eq_error {l : Line} (raw : Bytes) (hpr : ascii "PR" <+: l.command)
    (hmiddles : l.middles = []) : message (l.toMessage raw) = .error .outOfBounds := by
  rw [message_toMessage, if_pos hpr, hmiddles]

/-- A line with a middle parameter has two parameters at least, so that `privmsg` is called. -/
theorem exists_message_eq_privmsg {l : Line} (raw : Bytes) (hpr : ascii "PR" <+: l.command)
    (hmiddles : l.middles ≠ []) :
    ∃ msgtarget text, message (l.toMessage raw) = .ok (.call (.privmsg msgtarget text)) := by
  obtain ⟨m, ms, hm⟩ := List.exists_cons_of_ne_nil hmiddles
  rw [message_toMessage, if_pos hpr, hm]
  exact ⟨_, _, rfl⟩

/-- A line has one parameter at least, the last one, so that `ping` is called. -/
theorem exists_message_eq_ping {l : Line} (raw : Bytes) (hpi : ascii "PI" <+: l.command) :
    ∃ server server2, message (l.toMessage raw) = .ok (.call (.ping server server2)) := by
  rw [message_toMessage, if_neg fun hpr => not_ping_of_privmsg hpr hpi, if_pos hpi]
  cases l.middles with
  | nil => exact ⟨_, _, rfl⟩
  | cons m ms => exact ⟨_, _, rfl⟩

/-- A line with a command that starts with J always has `join` called. -/
theorem exists_message_eq_join {l : Line} (raw : Bytes) (hj : ascii "J" <+: l.command) :
    ∃ channels keys, message (l.toMessage raw) = .ok (.call (.join channels keys)) := by
  rw [message_toMessage, if_neg fun hpr => not_join_of_privmsg hpr hj,
    if_neg fun hpi => not_join_of_ping hpi hj, if_pos hj]
  cases l.middles with
  | nil => exact ⟨_, _, rfl⟩
  | cons m ms => exact ⟨_, _, rfl⟩

/-- Nothing is done about a line that the parser rejects, but to log it. -/
theorem dispatch_empty : dispatch {} = .ok .unhandled := by
  decide

/-- A call fails exactly when the dispatch before it fails. -/
theorem exists_read_eq_ok_iff (h : Handlers) :
    (∃ es, read h msg = .ok es) ↔ ∃ d, dispatch msg = .ok d := by
  rw [read]
  cases dispatch msg with
  | error e => simp [Except.map]
  | ok d => simp [Except.map]

/-- A command that starts like `PRIVMSG` is no number. -/
theorem stoi_of_privmsg {c : Bytes} (h : ascii "PR" <+: c) : stoi c = .error .invalidArgument := by
  obtain ⟨s, rfl⟩ := h
  exact stoi_of_letter (a := 0x50) (by decide) (by decide) _

/-- A message is dispatched unless its command is a number outside the range of `int`, or
starts like `PRIVMSG` with no middle parameter. -/
theorem exists_dispatch_eq_ok_iff (l : Line) (raw : Bytes) :
    (∃ d, dispatch (l.toMessage raw) = .ok d) ↔
      stoi l.command ≠ .error .outOfRange ∧ (ascii "PR" <+: l.command → l.middles ≠ []) := by
  have hcommand : (l.toMessage raw).command = l.command := rfl
  rw [dispatch, hcommand]
  rcases stoi_eq_or l.command with ⟨code, hcode⟩ | harg | hrange
  · have hpr : ¬ ascii "PR" <+: l.command := by
      intro h
      rw [stoi_of_privmsg h] at hcode
      exact absurd hcode (by simp)
    simp [hcode, hpr]
  · rw [harg]
    constructor
    · rintro ⟨d, hd⟩
      refine ⟨by simp, fun hpr hmiddles => ?_⟩
      have hd : message (l.toMessage raw) = .ok d := hd
      rw [message_eq_error raw hpr hmiddles] at hd
      exact absurd hd (by simp)
    · rintro ⟨-, hmiddles⟩
      change ∃ d, message (l.toMessage raw) = .ok d
      by_cases hpr : ascii "PR" <+: l.command
      · obtain ⟨_, _, hcall⟩ := exists_message_eq_privmsg raw hpr (hmiddles hpr)
        exact ⟨_, hcall⟩
      · by_cases hpi : ascii "PI" <+: l.command
        · obtain ⟨_, _, hcall⟩ := exists_message_eq_ping raw hpi
          exact ⟨_, hcall⟩
        · by_cases hj : ascii "J" <+: l.command
          · obtain ⟨_, _, hcall⟩ := exists_message_eq_join raw hj
            exact ⟨_, hcall⟩
          · exact ⟨_, message_other hpr hpi hj⟩
  · simp [hrange]

/-- **Which lines are survived**: all byte strings but those in which the message
expression finds a command that is a number outside the range of `int`, or one that starts
like `PRIVMSG` and has no middle parameter. -/
theorem exists_readLine_eq_ok_iff (h : Handlers) (raw : Bytes) :
    (∃ es, readLine h raw = .ok es) ↔
      ∀ l ∈ (locate raw).map split,
        stoi l.command ≠ .error .outOfRange ∧ (ascii "PR" <+: l.command → l.middles ≠ []) := by
  rw [readLine, exists_read_eq_ok_iff, Message.ofRaw_eq]
  cases hlocate : locate raw with
  | none => simp [dispatch_empty]
  | some l => simp [exists_dispatch_eq_ok_iff]

/-- A `PRIVMSG` with its text but no target reads past the end of the parameters. -/
theorem readLine_privmsg_hi :
    LF ∉ ascii "PRIVMSG :hi" ++ [CR] ∧
      ¬ ∃ es, readLine handlers (ascii "PRIVMSG :hi" ++ [CR]) = .ok es := by
  have hlocate : locate (ascii "PRIVMSG :hi" ++ [CR]) = some (ascii "PRIVMSG :hi" ++ [CR]) := rfl
  refine ⟨by decide, ?_⟩
  rw [readLine, exists_read_eq_ok_iff, Message.ofRaw_eq, hlocate, Option.elim_some,
    exists_dispatch_eq_ok_iff]
  decide

/-! ### Telling the commands apart -/

/-- **A message with the given command is classified rightly**: `reply` is called on exactly
the three-digit numerics, with their value, and for the other commands `privmsg`, `ping`
and `join` are called on exactly their own. -/
structure AcceptsExactly (msg : Message) (command : Bytes) : Prop where
  defined : dispatch msg ≠ .error .outOfBounds
  reply : ∀ code,
    dispatch msg = .ok (.call (.reply code)) ↔ IsNumeric command ∧ code = decimal command
  privmsg : ¬ IsNumeric command →
    ((∃ msgtarget text, dispatch msg = .ok (.call (.privmsg msgtarget text))) ↔
      command = ascii "PRIVMSG")
  ping : ¬ IsNumeric command →
    ((∃ server server2, dispatch msg = .ok (.call (.ping server server2))) ↔
      command = ascii "PING")
  join : ¬ IsNumeric command →
    ((∃ channels keys, dispatch msg = .ok (.call (.join channels keys))) ↔
      command = ascii "JOIN")

/-- A command that starts with a digit is a numeric reply, or does not fit. -/
theorem dispatch_of_isDigit {a : Byte} (ha : isDigit a = true) {c : Bytes}
    (hc : msg.command = a :: c) :
    dispatch msg =
      if decimal (leadingDigits msg.command) < 2 ^ 31 then
        .ok (.call (.reply (decimal (leadingDigits msg.command))))
      else
        .error .outOfRange := by
  rw [dispatch, hc, stoi_of_isDigit ha]
  split_ifs <;> rfl

/-- A command that starts with a letter is left to the switch. -/
theorem dispatch_of_letter {a : Byte} (ha : isAlnum a = true) (hd : isDigit a = false) {c : Bytes}
    (hc : msg.command = a :: c) : dispatch msg = message msg := by
  rw [dispatch, hc, stoi_of_letter ha hd]

/-- A command that starts with a digit starts with nothing else. -/
theorem not_start_of_isDigit {a b : Byte} (ha : isDigit a = true) (hb : isDigit b = false)
    {c s : Bytes} : ¬ b :: s <+: a :: c := by
  rw [List.cons_prefix_cons]
  rintro ⟨rfl, -⟩
  rw [ha] at hb
  exact absurd hb (by simp)

/-- The digits of a command are classified rightly exactly when they are three or are too
many for `stoi`. -/
theorem acceptsExactly_of_isDigit {a : Byte} (ha : isDigit a = true) {c : Bytes}
    (hc : msg.command = a :: c) :
    AcceptsExactly msg msg.command ↔
      IsNumeric msg.command ∨ 2 ^ 31 ≤ decimal (leadingDigits msg.command) := by
  have hletters : ∀ {b : Byte} {s : Bytes}, isDigit b = false → msg.command ≠ b :: s := by
    intro b s hb h
    have hstart : b :: s <+: a :: c := h.symm.trans hc ▸ List.prefix_refl (b :: s)
    exact not_start_of_isDigit ha hb hstart
  have hprivmsg : msg.command ≠ ascii "PRIVMSG" := hletters rfl
  have hping : msg.command ≠ ascii "PING" := hletters rfl
  have hjoin : msg.command ≠ ascii "JOIN" := hletters rfl
  have hdispatch := dispatch_of_isDigit ha hc
  by_cases hlt : decimal (leadingDigits msg.command) < 2 ^ 31
  · rw [if_pos hlt] at hdispatch
    constructor
    · intro h
      exact Or.inl ((h.reply _).mp hdispatch).1
    · intro h
      have hnum : IsNumeric msg.command := h.resolve_right (by omega)
      have hdigits := hnum.leadingDigits_eq
      rw [hdigits] at hdispatch
      refine ⟨by simp [hdispatch], fun code => ?_, fun h => absurd hnum h,
        fun h => absurd hnum h, fun h => absurd hnum h⟩
      simp [hdispatch, hnum, eq_comm]
  · rw [if_neg hlt] at hdispatch
    have hnum : ¬ IsNumeric msg.command := by
      intro hnum
      have := hnum.decimal_lt
      rw [hnum.leadingDigits_eq] at hlt
      omega
    refine ⟨fun _ => Or.inr (by omega), fun _ => ⟨?_, fun code => ?_, fun _ => ?_, fun _ => ?_,
      fun _ => ?_⟩⟩ <;> simp [hdispatch, hnum, hprivmsg, hping, hjoin]

/-- For a command that is not numeric, and is not taken for one, three of the conditions
remain. -/
theorem acceptsExactly_of_dispatch {c : Bytes} {d : Dispatch} (hd : dispatch msg = .ok d)
    (hnum : ¬ IsNumeric c) (hreply : ∀ code, d ≠ .call (.reply code)) :
    AcceptsExactly msg c ↔
      ((∃ msgtarget text, d = .call (.privmsg msgtarget text)) ↔ c = ascii "PRIVMSG") ∧
      ((∃ server server2, d = .call (.ping server server2)) ↔ c = ascii "PING") ∧
      ((∃ channels keys, d = .call (.join channels keys)) ↔ c = ascii "JOIN") := by
  constructor
  · rintro ⟨-, -, hprivmsg, hping, hjoin⟩
    simp only [hd, Except.ok.injEq] at hprivmsg hping hjoin
    exact ⟨hprivmsg hnum, hping hnum, hjoin hnum⟩
  · rintro ⟨hprivmsg, hping, hjoin⟩
    refine ⟨by simp [hd], fun code => ?_, fun _ => ?_, fun _ => ?_, fun _ => ?_⟩
    · simpa only [hd, Except.ok.injEq, hnum, false_and, iff_false] using hreply code
    · simpa only [hd, Except.ok.injEq] using hprivmsg
    · simpa only [hd, Except.ok.injEq] using hping
    · simpa only [hd, Except.ok.injEq] using hjoin

/-- A command that starts with a letter is classified rightly exactly when it is no other
command that starts like one of the three, and a `PRIVMSG` has a middle parameter. -/
theorem acceptsExactly_of_letter (l : Line) (raw : Bytes) {a : Byte} (ha : isAlnum a = true)
    (hd : isDigit a = false) {c : Bytes} (hc : l.command = a :: c) :
    AcceptsExactly (l.toMessage raw) l.command ↔
      (ascii "PR" <+: l.command → l.command = ascii "PRIVMSG" ∧ l.middles ≠ []) ∧
      (ascii "PI" <+: l.command → l.command = ascii "PING") ∧
      (ascii "J" <+: l.command → l.command = ascii "JOIN") := by
  have hnum : ¬ IsNumeric l.command := by
    rintro ⟨-, hdigits⟩
    rw [hdigits a (hc ▸ List.mem_cons_self)] at hd
    exact absurd hd (by simp)
  have hdispatch : dispatch (l.toMessage raw) = message (l.toMessage raw) :=
    dispatch_of_letter ha hd hc
  -- The three full names, by the starts that the switch looks at.
  have hprivmsg : l.command = ascii "PRIVMSG" → ascii "PR" <+: l.command := by
    intro h; rw [h]; decide
  have hping : l.command = ascii "PING" → ascii "PI" <+: l.command := by
    intro h; rw [h]; decide
  have hjoin : l.command = ascii "JOIN" → ascii "J" <+: l.command := by
    intro h; rw [h]; decide
  by_cases hpr : ascii "PR" <+: l.command
  · have hpi := not_ping_of_privmsg hpr
    have hj := not_join_of_privmsg hpr
    by_cases hmiddles : l.middles = []
    · rw [message_eq_error raw hpr hmiddles] at hdispatch
      exact iff_of_false (fun h => h.defined hdispatch) fun h => (h.1 hpr).2 hmiddles
    · obtain ⟨_, _, hcall⟩ := exists_message_eq_privmsg raw hpr hmiddles
      rw [acceptsExactly_of_dispatch (hdispatch.trans hcall) hnum (by simp)]
      simp [hpr, hpi, hj, hmiddles, mt hping hpi, mt hjoin hj]
  · by_cases hpi : ascii "PI" <+: l.command
    · have hj := not_join_of_ping hpi
      obtain ⟨_, _, hcall⟩ := exists_message_eq_ping raw hpi
      rw [acceptsExactly_of_dispatch (hdispatch.trans hcall) hnum (by simp)]
      simp [hpr, hpi, hj, mt hprivmsg hpr, mt hjoin hj]
    · by_cases hj : ascii "J" <+: l.command
      · obtain ⟨_, _, hcall⟩ := exists_message_eq_join raw hj
        rw [acceptsExactly_of_dispatch (hdispatch.trans hcall) hnum (by simp)]
        simp [hpr, hpi, hj, mt hprivmsg hpr, mt hping hpi]
      · have hother : message (l.toMessage raw) = .ok .unhandled := message_other hpr hpi hj
        rw [acceptsExactly_of_dispatch (hdispatch.trans hother) hnum (by simp)]
        simp [hpr, hpi, hj, mt hprivmsg hpr, mt hping hpi, mt hjoin hj]

end IrcClient

namespace LegalLine

/-- **Which commands are classified rightly**: the numerics and the numbers that `stoi`
cannot hold among those that start with a digit, and among the others those that do not
start like one of the three commands handled without being it; a `PRIVMSG` needs a middle
parameter besides. -/
theorem acceptsExactly_iff (l : LegalLine) :
    IrcClient.AcceptsExactly (Message.ofRaw l.render) l.command ↔
      ((∃ a ∈ l.command.head?, isDigit a = true) →
        IsNumeric l.command ∨ 2 ^ 31 ≤ decimal (leadingDigits l.command)) ∧
      (ascii "PR" <+: l.command → l.command = ascii "PRIVMSG" ∧ l.middles ≠ []) ∧
      (ascii "PI" <+: l.command → l.command = ascii "PING") ∧
      (ascii "J" <+: l.command → l.command = ascii "JOIN") := by
  rw [l.ofRaw_render]
  obtain ⟨a, c, hc, -⟩ := l.command_eq_cons
  have ha : isAlnum a = true := l.command_alnum a (hc ▸ List.mem_cons_self)
  cases hd : isDigit a with
  | true =>
      have hstart : ∀ {b : Byte} {s : Bytes}, isDigit b = false → ¬ b :: s <+: l.command :=
        fun hb h => IrcClient.not_start_of_isDigit hd hb (hc ▸ h)
      have hpr : ¬ ascii "PR" <+: l.command := hstart rfl
      have hpi : ¬ ascii "PI" <+: l.command := hstart rfl
      have hj : ¬ ascii "J" <+: l.command := hstart rfl
      have hdigits : ∃ a ∈ l.command.head?, isDigit a = true := ⟨a, by rw [hc]; rfl, hd⟩
      have hiff : IrcClient.AcceptsExactly (l.toMessage l.render) l.command ↔
          IsNumeric l.command ∨ 2 ^ 31 ≤ decimal (leadingDigits l.command) :=
        IrcClient.acceptsExactly_of_isDigit hd hc
      rw [hiff]
      exact ⟨fun h => ⟨fun _ => h, fun h => absurd h hpr, fun h => absurd h hpi,
        fun h => absurd h hj⟩, fun h => h.1 hdigits⟩
  | false =>
      have hdigits : ¬ ∃ a ∈ l.command.head?, isDigit a = true := by
        rintro ⟨x, hx, hdigit⟩
        rw [hc, List.head?_cons, Option.mem_some_iff] at hx
        rw [← hx, hd] at hdigit
        exact absurd hdigit (by simp)
      rw [IrcClient.acceptsExactly_of_letter l.toLine l.render ha hd hc]
      exact (and_iff_right fun h => absurd h hdigits).symm

/-- A line of a command that merely starts like `PRIVMSG`. -/
def probe : LegalLine :=
  ofLine
    { command := ascii "PROBE", middles := [ascii "#channel"], trailing := some (ascii "hi") } rfl

/-- The text of any command that starts like `PRIVMSG` is taken for chat. -/
theorem not_acceptsExactly_probe :
    ¬ IrcClient.AcceptsExactly (Message.ofRaw probe.render) probe.command := by
  have hdispatch : IrcClient.dispatch (probe.toMessage probe.render) =
      .ok (.call (.privmsg (ascii "#channel") (ascii "hi"))) := by decide
  rw [probe.ofRaw_render]
  intro h
  have hcommand := (h.privmsg (fun hnum => absurd hnum.1 (by decide))).mp ⟨_, _, hdispatch⟩
  exact absurd hcommand (by decide)

end LegalLine

end BoostIrc
