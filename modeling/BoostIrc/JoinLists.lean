import BoostIrc.Dispatch
import BoostIrc.Outbound

/-!
# The Lists of a `JOIN`

`join` joins the channels with commas, and the keys as well, and sends both as arguments of one
line. The program's own parser takes the line apart again, and `message` splits the first two
parameters at their commas.

Without keys the line ends in a space, and what is read back is a list with one empty key: the
constructor of `Message` pushes the last parameter whether there is one or not, for the condition
before it ends in a semicolon, and a split never gives an empty list.

## Main results

* `IrcClient.exists_join_eq`: the line written for a `JOIN`, read back.
* `IrcClient.joinRoundTrips_iff`: **when the same lists come back**.
-/

namespace BoostIrc

/-- A name of a channel, or a key, as it may stand in a list. -/
structure IsListed (n : Bytes) : Prop where
  ne_nil : n ≠ []
  comma_notMem : COMMA ∉ n
  sp_notMem : SP ∉ n
  cr_notMem : CR ∉ n
  lf_notMem : LF ∉ n
  nul_notMem : 0 ∉ n
  head_ne : n.head? ≠ some COLON

/-- What may stand in a list can be checked. -/
instance (n : Bytes) : Decidable (IsListed n) :=
  decidable_of_iff
    (n ≠ [] ∧ COMMA ∉ n ∧ SP ∉ n ∧ CR ∉ n ∧ LF ∉ n ∧ 0 ∉ n ∧ n.head? ≠ some COLON)
    ⟨fun ⟨h₁, h₂, h₃, h₄, h₅, h₆, h₇⟩ => ⟨h₁, h₂, h₃, h₄, h₅, h₆, h₇⟩,
      fun ⟨h₁, h₂, h₃, h₄, h₅, h₆, h₇⟩ => ⟨h₁, h₂, h₃, h₄, h₅, h₆, h₇⟩⟩

/-- Names joined with commas are a middle parameter. -/
theorem isMiddle_intercalate {names : List Bytes} (h : ∀ n ∈ names, IsListed n)
    (hne : names ≠ []) : IsMiddle ([COMMA].intercalate names) := by
  have hsp : SP ∉ [COMMA].intercalate names :=
    notMem_intercalate (by decide) fun n hn => (h n hn).sp_notMem
  obtain ⟨n, names, rfl⟩ := List.exists_cons_of_ne_nil hne
  have hn := h n List.mem_cons_self
  obtain ⟨rest, hrest⟩ : ∃ rest, [COMMA].intercalate (n :: names) = n ++ rest := by
    cases names with
    | nil => exact ⟨[], by simp⟩
    | cons m names =>
        refine ⟨[COMMA] ++ [COMMA].intercalate (m :: names), ?_⟩
        rw [List.intercalate_cons_cons, List.append_assoc]
  rw [hrest] at hsp ⊢
  refine ⟨List.append_ne_nil_of_left_ne_nil hn.ne_nil rest, hsp, ?_⟩
  rw [List.head?_append_of_ne_nil n hn.ne_nil]
  exact hn.head_ne

/-- A split at the commas undoes the join, but for the empty list. -/
theorem splitOn_intercalate_eq_iff {names : List Bytes} (h : ∀ n ∈ names, IsListed n) :
    ([COMMA].intercalate names).splitOn COMMA = names ↔ names ≠ [] := by
  constructor
  · rintro hsplit rfl
    exact List.splitOn_ne_nil COMMA _ hsplit
  · exact List.splitOn_intercalate COMMA fun n hn => (h n hn).comma_notMem

/-- A last argument that is empty or a middle parameter is the first of the parameters read. -/
theorem exists_lastParams_eq {last : Bytes} (h : last = [] ∨ IsMiddle last) (n : ℕ) :
    ∃ rest, lastParams (n + 1) last = last :: rest := by
  rcases h with rfl | h
  · exact ⟨[], rfl⟩
  · obtain ⟨a, t, rfl⟩ := List.exists_cons_of_ne_nil h.ne_nil
    have hcolon : a ≠ COLON := fun ha => h.head_ne (congrArg some ha)
    have hspace : a ≠ SP := fun ha => h.sp_notMem (ha ▸ List.mem_cons_self)
    obtain ⟨rest, hlast, hrest⟩ := lastParams_word n hcolon hspace t
    obtain ⟨hword, -⟩ := hrest fun ht => h.sp_notMem (List.mem_cons_of_mem a ht)
    exact ⟨rest, by rw [hlast, hword]⟩

namespace IrcClient

/-- The line written for a `JOIN` is legal without the keys. -/
theorem isLegal_join {channels : Bytes} (h : IsMiddle channels) :
    Line.isLegal { command := ascii "JOIN", middles := [channels] } = true := by
  rw [Line.isLegal_iff]
  exact ⟨by simp, by simp, List.cons_ne_nil _ _, List.all_eq_true.mp rfl, by simp, by simpa using h⟩

/-- The line written for a `JOIN`, as a line of the protocol without the keys. -/
def joinLine (channels : Bytes) (h : IsMiddle channels) : LegalLine :=
  LegalLine.ofLine { command := ascii "JOIN", middles := [channels] } (isLegal_join h)

/-- **The line written for a `JOIN`, read back**: the handler is called with the two parameters,
split at their commas. -/
theorem exists_join_eq {channels keys : Bytes} (hchannels : IsMiddle channels)
    (hkeys : keys = [] ∨ IsMiddle keys) :
    ∃ text, join channels keys = [.line (text ++ crlf)] ∧
      message (Message.ofRaw text) =
        .ok (.call (.join (channels.splitOn COMMA) (keys.splitOn COMMA))) := by
  have hheader : (joinLine channels hchannels).header = ascii "JOIN" := rfl
  have hmiddles : (joinLine channels hchannels).middles = [channels] := rfl
  obtain ⟨hcommand, hparams⟩ := (joinLine channels hchannels).ofRaw_sent keys
  obtain ⟨rest, hrest⟩ := exists_lastParams_eq hkeys 12
  rw [hheader, hmiddles] at hcommand hparams
  rw [List.length_singleton, hrest, List.singleton_append] at hparams
  have hjoin : ascii "J" <+: ascii "JOIN" := by decide
  refine ⟨_, send_eq (ascii "JOIN") [channels] keys, ?_⟩
  rw [message_join (by rw [hcommand]; exact hjoin), hparams]
  rfl

/-- **The lists make the round trip**: a line is written for them, and reading it back the program
calls the handler of `JOIN` with the same lists. -/
def JoinRoundTrips (channels keys : List Bytes) : Prop :=
  ∃ text, joinAll channels keys = [.line (text ++ crlf)] ∧
    message (Message.ofRaw text) = .ok (.call (.join channels keys))

/-- The round trip is one of the joins and the splits. -/
theorem joinRoundTrips_iff_splitOn {channels keys : List Bytes}
    (hchannels : IsMiddle ([COMMA].intercalate channels))
    (hkeys : [COMMA].intercalate keys = [] ∨ IsMiddle ([COMMA].intercalate keys)) :
    JoinRoundTrips channels keys ↔
      ([COMMA].intercalate channels).splitOn COMMA = channels ∧
        ([COMMA].intercalate keys).splitOn COMMA = keys := by
  obtain ⟨text, hwritten, hread⟩ := exists_join_eq hchannels hkeys
  constructor
  · rintro ⟨text', hwritten', hread'⟩
    -- One line is written, so what was read back is what is read back from `text`.
    have heq := hwritten.symm.trans hwritten'
    rw [List.cons.injEq, Effect.line.injEq] at heq
    rw [← List.append_cancel_right heq.1, hread] at hread'
    simpa using hread'
  · rintro ⟨hsplit, hsplit'⟩
    exact ⟨text, hwritten, by rw [hread, hsplit, hsplit']⟩

/-- **When the same lists come back**: exactly when there is a key. Without one an empty parameter
is written behind the channels, and it is split into one empty key. -/
theorem joinRoundTrips_iff {channels keys : List Bytes} (hchannels : ∀ c ∈ channels, IsListed c)
    (hne : channels ≠ []) (hkeys : ∀ k ∈ keys, IsListed k) :
    JoinRoundTrips channels keys ↔ keys ≠ [] := by
  have hlast : [COMMA].intercalate keys = [] ∨ IsMiddle ([COMMA].intercalate keys) := by
    by_cases hnil : keys = []
    · exact Or.inl (by rw [hnil]; rfl)
    · exact Or.inr (isMiddle_intercalate hkeys hnil)
  rw [joinRoundTrips_iff_splitOn (isMiddle_intercalate hchannels hne) hlast,
    splitOn_intercalate_eq_iff hkeys]
  exact and_iff_right ((splitOn_intercalate_eq_iff hchannels).mpr hne)

/-- Two channels and one key come back as the two lists that they were. -/
theorem joinRoundTrips_two : JoinRoundTrips [ascii "#a", ascii "#b"] [ascii "k"] :=
  (joinRoundTrips_iff (by decide) (by decide) (by decide)).mpr (by decide)

/-- One channel without a key: a list with an empty key comes back. -/
theorem not_joinRoundTrips_noKeys : ¬ JoinRoundTrips [ascii "#a"] [] := by
  have hchannel : IsMiddle ([COMMA].intercalate [ascii "#a"]) :=
    isMiddle_intercalate (by decide) (by decide)
  rw [joinRoundTrips_iff_splitOn hchannel (Or.inl rfl)]
  decide

end IrcClient

end BoostIrc
