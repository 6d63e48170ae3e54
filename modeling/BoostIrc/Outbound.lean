import BoostIrc.Client
import Mathlib.Data.List.DropRight

/-!
# What the Client Sends, Parsed Again

The command methods of `irc_client` join a command and its arguments with spaces
(`IrcClient.send`). This module reads such a line back with the parser of the same program,
and decides when command and arguments come back.

The arguments before the last one are middle parameters and always do. The last one is
written after a colon by `privmsg` alone; in the other methods it comes back when it happens
to need no colon (`Survives`).

## Main results

* `IrcClient.send_eq`: the line written for a command and its arguments.
* `LegalLine.ofRaw_sent`: what the parser makes of such a line.
* `significant_sent_iff`: when an unmarked last argument comes back.
* `Outbound.roundTrips_iff`: **which of the messages sent come back**.
-/

namespace BoostIrc

/-- A list of parameters without the empty ones at its end. -/
def significant (params : List Bytes) : List Bytes :=
  params.rdropWhile List.isEmpty

/-- Empty parameters are dropped behind the last one that is not empty, and no further. -/
theorem significant_append_cons (xs : List Bytes) {w : Bytes} (hw : w ≠ []) (ys : List Bytes) :
    significant (xs ++ w :: ys) = xs ++ w :: significant ys := by
  induction ys using List.reverseRecOn with
  | nil =>
      rw [significant, List.rdropWhile_concat_neg _ _ _ (by simpa using hw)]
      rfl
  | append_singleton ys y ih =>
      have hassoc : xs ++ w :: (ys ++ [y]) = (xs ++ w :: ys) ++ [y] := by simp
      rw [hassoc, significant, significant]
      by_cases hy : y.isEmpty = true
      · rw [List.rdropWhile_concat_pos _ _ _ hy, List.rdropWhile_concat_pos _ _ _ hy]
        exact ih
      · rw [List.rdropWhile_concat_neg _ _ _ hy, List.rdropWhile_concat_neg _ _ _ hy, hassoc]

/-- Whether there is an empty parameter at the end makes no difference. -/
theorem significant_concat_nil (xs : List Bytes) : significant (xs ++ [[]]) = significant xs :=
  List.rdropWhile_concat_pos _ _ _ rfl

/-! ### The line written -/

/-- Arguments joined with spaces, after a space. -/
theorem sp_append_intercalate (front : List Bytes) (last : Bytes) :
    [SP] ++ [SP].intercalate (front ++ [last]) = front.flatMap (SP :: ·) ++ SP :: last := by
  induction front with
  | nil => simp [List.intercalate]
  | cons x front ih =>
      obtain ⟨y, ys, hys⟩ : ∃ y ys, front ++ [last] = y :: ys :=
        List.exists_cons_of_ne_nil (by simp)
      have hcons : [SP].intercalate (x :: y :: ys) = x ++ ([SP] ++ [SP].intercalate (y :: ys)) := by
        simp [List.intercalate]
      have hcat : x :: front ++ [last] = x :: y :: ys := by rw [List.cons_append, hys]
      rw [hcat, hcons, ← hys, ih, List.flatMap_cons, List.append_assoc]
      rfl

/-- **The line written** for a command with its arguments. A space stands in front of each of them
and no colon in front of the last, so a reader finds the end of an argument by its space. -/
theorem IrcClient.send_eq (cmd : Bytes) (front : List Bytes) (last : Bytes) :
    send cmd (front ++ [last]) =
      [.line (cmd ++ (front.flatMap (SP :: ·) ++ SP :: last) ++ crlf)] := by
  have hline : cmd ++ [SP] ++ [SP].intercalate (front ++ [last]) =
      cmd ++ (front.flatMap (SP :: ·) ++ SP :: last) := by
    rw [List.append_assoc, sp_append_intercalate]
  rw [send, sendRaw, hline]

/-! ### The line read back -/

/-- What the parser makes of the last argument of a command, with room for `n` middle
parameters. -/
def lastParams (n : ℕ) (last : Bytes) : List Bytes :=
  (takeMiddles n (SP :: last)).1 ++ [(cutTrailing (takeMiddles n (SP :: last)).2).getD []]

/-- **What the parser makes of a line with legal middle parameters and a last one.** The last one is
read as it stands in the line: its words become parameters, up to one that starts with a colon. -/
theorem LegalLine.ofRaw_sent (l : LegalLine) (last : Bytes) :
    (Message.ofRaw (l.header ++ (l.middles.flatMap (SP :: ·) ++ SP :: last))).command =
        l.command ∧
      (Message.ofRaw (l.header ++ (l.middles.flatMap (SP :: ·) ++ SP :: last))).params =
        l.middles ++ lastParams (14 - l.middles.length) last := by
  have hstart : l.middles.flatMap (SP :: ·) ++ SP :: last = [] ∨
      ∃ t, l.middles.flatMap (SP :: ·) ++ SP :: last = SP :: t := by
    cases l.middles with
    | nil => exact Or.inr ⟨last, rfl⟩
    | cons m ms => exact Or.inr ⟨_, rfl⟩
  have hmiddles := takeMiddles_flatMap l.middles_legal (14 - l.middles.length)
    (Or.inr ⟨last, rfl⟩ : SP :: last = [] ∨ ∃ t, SP :: last = SP :: t)
  rw [Nat.add_sub_of_le l.middles_length] at hmiddles
  rw [l.ofRaw_header_append hstart, hmiddles]
  refine ⟨rfl, ?_⟩
  simp only [Line.toMessage, lastParams, List.append_assoc]

/-- A last argument that was marked with a colon comes back. -/
theorem lastParams_colon (n : ℕ) (text : Bytes) : lastParams n (COLON :: text) = [text] := by
  have hstop : StopsMiddles (SP :: COLON :: text) := Or.inr ⟨COLON :: text, rfl, by simp⟩
  rw [lastParams, takeMiddles_of_stops hstop]
  simp [cutTrailing]

/-- A space is no colon, so that a text cannot start with both. -/
theorem sp_ne_colon : SP ≠ COLON := by
  decide

/-- A last argument that starts with a space comes back: it is no middle parameter. -/
theorem lastParams_space (n : ℕ) (t : Bytes) : lastParams n (SP :: t) = [SP :: t] := by
  have hstop : StopsMiddles (SP :: SP :: t) := Or.inr ⟨SP :: t, rfl, by simp⟩
  rw [lastParams, takeMiddles_of_stops hstop]
  simp [cutTrailing, sp_ne_colon]

/-- Of any other last argument the first word is taken for a middle parameter. -/
theorem lastParams_word (n : ℕ) {a : Byte} (hcolon : a ≠ COLON) (hspace : a ≠ SP) (t : Bytes) :
    ∃ rest, lastParams (n + 1) (a :: t) = (a :: word t) :: rest ∧
      (SP ∉ t → word t = t ∧ rest = [[]]) := by
  refine ⟨(takeMiddles n (afterWord t)).1 ++
    [(cutTrailing (takeMiddles n (afterWord t)).2).getD []], ?_, fun ht => ?_⟩
  · rw [lastParams, takeMiddles, if_pos ⟨rfl, hcolon, hspace⟩]
    rfl
  · have hword : word (t ++ []) = t := word_append ht (Or.inl rfl)
    have hafter : afterWord (t ++ []) = [] := afterWord_append ht (Or.inl rfl)
    rw [List.append_nil] at hword hafter
    rw [hafter, takeMiddles_of_stops (Or.inl rfl)]
    exact ⟨hword, rfl⟩

/-- A parameter does not come back without its first colon. -/
theorem significant_ne_of_colon (front : List Bytes) (t : Bytes) :
    significant (front ++ [t]) ≠ front ++ [COLON :: t] := by
  intro h
  cases t with
  | nil =>
      rw [significant_concat_nil] at h
      have hle : (significant front).length ≤ front.length :=
        (List.rdropWhile_prefix _ _).length_le
      rw [h, List.length_append, List.length_singleton] at hle
      omega
  | cons b t =>
      rw [significant_append_cons front (by simp)] at h
      obtain ⟨hlast, -⟩ := List.cons.inj (List.append_cancel_left h)
      have hlen := congrArg List.length hlast
      simp only [List.length_cons] at hlen
      omega

/-- A last argument **survives** without a colon: it is empty, or starts with a space, or is
a single word that does not itself start with a colon. -/
def Survives (last : Bytes) : Prop :=
  last = [] ∨ last.head? = some SP ∨ (SP ∉ last ∧ last.head? ≠ some COLON)

/-- Which last arguments survive, by their first byte. -/
theorem survives_cons_iff (a : Byte) (t : Bytes) :
    Survives (a :: t) ↔ a ≠ COLON ∧ (a = SP ∨ SP ∉ t) := by
  constructor
  · rintro (h | h | ⟨hsp, hcolon⟩)
    · exact absurd h (by simp)
    · obtain rfl : a = SP := Option.some.inj h
      exact ⟨sp_ne_colon, Or.inl rfl⟩
    · exact ⟨fun ha => hcolon (congrArg some ha), Or.inr fun h => hsp (List.mem_cons_of_mem a h)⟩
  · rintro ⟨hcolon, hspace⟩
    by_cases ha : a = SP
    · exact Or.inr (Or.inl (congrArg some ha))
    · refine Or.inr (Or.inr ⟨fun hmem => ?_, fun h => hcolon (Option.some.inj h)⟩)
      rcases List.mem_cons.mp hmem with heq | hmem
      · exact ha heq.symm
      · exact hspace.resolve_left ha hmem

/-- **When an unmarked last argument comes back**, empty parameters at the end aside. This is a
condition on the argument alone; the parameters in front of it come back in any case. -/
theorem significant_sent_iff (front : List Bytes) (n : ℕ) (last : Bytes) :
    significant (front ++ lastParams (n + 1) last) = significant (front ++ [last]) ↔
      Survives last := by
  match last with
  | [] => exact iff_of_true rfl (Or.inl rfl)
  | a :: t =>
      have hargs : significant (front ++ [a :: t]) = front ++ [a :: t] :=
        significant_append_cons front (by simp) []
      rw [hargs, survives_cons_iff]
      by_cases hcolon : a = COLON
      · subst hcolon
        rw [lastParams_colon]
        exact iff_of_false (significant_ne_of_colon front t) fun h => h.1 rfl
      · by_cases hspace : a = SP
        · subst hspace
          rw [lastParams_space]
          exact iff_of_true hargs ⟨hcolon, Or.inl rfl⟩
        · obtain ⟨rest, hlast, hrest⟩ := lastParams_word n hcolon hspace t
          rw [hlast, significant_append_cons front (by simp)]
          constructor
          · intro h
            obtain ⟨hword, -⟩ := List.cons.inj (List.append_cancel_left h)
            refine ⟨hcolon, Or.inr ?_⟩
            rw [← (List.cons.inj hword).2]
            exact sp_notMem_word t
          · rintro ⟨-, h⟩
            obtain ⟨hword, rfl⟩ := hrest (h.resolve_left hspace)
            rw [hword]
            rfl

/-! ### The messages sent -/

/-- A **message that the client sends**, by the method that sends it. -/
inductive Outbound where
  | pass (password : Bytes)
  | nick (nickname : Bytes)
  | quit (quitMessage : Bytes)
  | part (channels partMessage : Bytes)
  | privmsg (msgtarget textToBeSent : Bytes)
  | ping (server server2 : Bytes)
  | pong (server server2 : Bytes)
  deriving DecidableEq, Repr

namespace Outbound

/-- What the method does. -/
def effects : Outbound → List Effect
  | pass password => IrcClient.pass password
  | nick nickname => IrcClient.nick nickname
  | quit quitMessage => IrcClient.quit quitMessage
  | part channels partMessage => IrcClient.part channels partMessage
  | privmsg msgtarget text => IrcClient.privmsg msgtarget text
  | ping server server2 => IrcClient.ping server server2
  | pong server server2 => IrcClient.pong server server2

/-- The name of the command. -/
def command : Outbound → Bytes
  | pass .. => ascii "PASS"
  | nick .. => ascii "NICK"
  | quit .. => ascii "QUIT"
  | part .. => ascii "PART"
  | privmsg .. => ascii "PRIVMSG"
  | ping .. => ascii "PING"
  | pong .. => ascii "PONG"

/-- The arguments before the last. -/
def front : Outbound → List Bytes
  | pass _ | nick _ | quit _ => []
  | part channels _ => [channels]
  | privmsg msgtarget _ => [msgtarget]
  | ping server _ | pong server _ => [server]

/-- The last argument. -/
def last : Outbound → Bytes
  | pass password => password
  | nick nickname => nickname
  | quit quitMessage => quitMessage
  | part _ partMessage => partMessage
  | privmsg _ text => text
  | ping _ server2 | pong _ server2 => server2

/-- All the arguments. -/
def args (o : Outbound) : List Bytes :=
  o.front ++ [o.last]

/-- The last argument as it is written: `privmsg` marks it with a colon. -/
def written : Outbound → Bytes
  | privmsg _ text => COLON :: text
  | o => o.last

/-- A last argument that may be any text and is written without a colon. -/
def unmarked : Outbound → Option Bytes
  | quit quitMessage => some quitMessage
  | part _ partMessage => some partMessage
  | _ => none

/-- A **legal message**: the arguments before the last are legal middle parameters, and so is
the last where it is not free text, unless it is empty. -/
structure IsLegal (o : Outbound) : Prop where
  front : ∀ m ∈ o.front, IsMiddle m
  last : match o with
    | pass a | nick a | ping _ a | pong _ a => a = [] ∨ IsMiddle a
    | _ => True

/-- One line is written, and **parses to the same command and arguments**, empty arguments
at the end aside. -/
def RoundTrips (o : Outbound) : Prop :=
  ∃ text, o.effects = [.line (text ++ crlf)] ∧
    (Message.ofRaw text).command = o.command ∧
    significant (Message.ofRaw text).params = significant o.args

/-- The line written, as a line of the protocol without its last parameter. -/
def line (o : Outbound) (h : o.IsLegal) : LegalLine where
  command := o.command
  middles := o.front
  tags_legal := by simp
  origin_legal := by simp
  command_ne_nil := by cases o <;> simp only [Outbound.command] <;> decide
  command_alnum := List.all_eq_true.mp (by cases o <;> rfl)
  middles_length := by cases o <;> simp [Outbound.front]
  middles_legal := h.front

/-- Every method writes its command, the arguments before the last, and the last. -/
theorem effects_eq (o : Outbound) :
    o.effects = [.line (o.command ++ (o.front.flatMap (SP :: ·) ++ SP :: o.written) ++ crlf)] := by
  cases o with
  | pass password => exact IrcClient.send_eq _ [] _
  | nick nickname => exact IrcClient.send_eq _ [] _
  | quit quitMessage => exact IrcClient.send_eq _ [] _
  | part channels partMessage => exact IrcClient.send_eq _ [channels] _
  | privmsg msgtarget text => exact IrcClient.send_eq _ [msgtarget] _
  | ping server server2 => exact IrcClient.send_eq _ [server] _
  | pong server server2 => exact IrcClient.send_eq _ [server] _

/-- The round trip is one of the last argument. -/
theorem roundTrips_iff_lastParams (o : Outbound) (h : o.IsLegal) :
    o.RoundTrips ↔
      significant (o.front ++ lastParams (14 - o.front.length) o.written) =
        significant (o.front ++ [o.last]) := by
  obtain ⟨hcommand, hparams⟩ := (o.line h).ofRaw_sent o.written
  have hheader : (o.line h).header = o.command := rfl
  have hmiddles : (o.line h).middles = o.front := rfl
  rw [hheader, hmiddles] at hcommand hparams
  constructor
  · rintro ⟨text, heffects, -, hargs⟩
    rw [effects_eq, List.cons.injEq, Effect.line.injEq] at heffects
    rw [← List.append_cancel_right heffects.1, hparams] at hargs
    exact hargs
  · intro hargs
    refine ⟨_, o.effects_eq, hcommand, ?_⟩
    rw [hparams]
    exact hargs

/-- **Which of the messages sent come back**: all but those of `quit` and `part` whose text
does not survive without a colon. -/
theorem roundTrips_iff (o : Outbound) (h : o.IsLegal) :
    o.RoundTrips ↔ ∀ m ∈ o.unmarked, Survives m := by
  have hsingle : ∀ a : Bytes, a = [] ∨ IsMiddle a → Survives a := by
    rintro a (rfl | ha)
    · exact Or.inl rfl
    · exact Or.inr (Or.inr ⟨ha.sp_notMem, ha.head_ne⟩)
  rw [o.roundTrips_iff_lastParams h]
  have hlast := h.last
  cases o with
  | pass password =>
      exact iff_of_true ((significant_sent_iff [] 13 password).mpr (hsingle _ hlast))
        (by simp [unmarked])
  | nick nickname =>
      exact iff_of_true ((significant_sent_iff [] 13 nickname).mpr (hsingle _ hlast))
        (by simp [unmarked])
  | quit quitMessage =>
      exact (significant_sent_iff [] 13 quitMessage).trans (by simp [unmarked])
  | part channels partMessage =>
      exact (significant_sent_iff [channels] 12 partMessage).trans (by simp [unmarked])
  | privmsg msgtarget text =>
      have hback : lastParams 13 (COLON :: text) = [text] := lastParams_colon 13 text
      exact iff_of_true (congrArg (fun x => significant ([msgtarget] ++ x)) hback)
        (by simp [unmarked])
  | ping server server2 =>
      exact iff_of_true ((significant_sent_iff [server] 12 server2).mpr (hsingle _ hlast))
        (by simp [unmarked])
  | pong server server2 =>
      exact iff_of_true ((significant_sent_iff [server] 12 server2).mpr (hsingle _ hlast))
        (by simp [unmarked])

/-- A farewell of one word comes back. -/
theorem roundTrips_quit_bye :
    (quit (ascii "bye")).IsLegal ∧
      ((quit (ascii "bye")).RoundTrips ↔
        ∀ m ∈ (quit (ascii "bye")).unmarked, Survives m) :=
  have h : (quit (ascii "bye")).IsLegal := ⟨by simp [front], trivial⟩
  ⟨h, roundTrips_iff _ h⟩

/-- A farewell of two words comes back as two arguments. -/
theorem not_roundTrips_quit_gone_home :
    (quit (ascii "gone home")).IsLegal ∧ ¬ (quit (ascii "gone home")).RoundTrips := by
  have h : (quit (ascii "gone home")).IsLegal := ⟨by simp [front], trivial⟩
  refine ⟨h, ?_⟩
  rw [roundTrips_iff_lastParams _ h]
  decide

end Outbound

end BoostIrc
