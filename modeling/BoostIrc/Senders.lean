import BoostIrc.Parser

/-!
# Who a Message Is From

The prefix of a line is written by the server, the text behind the command by the user. Two lines
with the same prefix and the same command should have the same sender, whatever the user wrote.

They do when the prefix is one of the protocol, that is, when it has no user or a host as well.
In a prefix with an exclamation mark and no at sign the user is read on *through the space* behind
the prefix, up to the first at sign of the text: of the three classes of the expression the one of
the user is the only one that lets a space pass. An address in the text, `user@host` and a word
after it, then decides the sender and the command.

## Main results

* `exists_render_eq`: which prefixes are those of the protocol.
* `cutOrigin_bang_eq_some_iff`: how an origin with a user is cut.
* `addresses_iff_header`: a prefix without a host is completed by the text.
* `header_eq_iff`: **when two lines have the same sender and command**.
* `forall_header_eq_iff`: for which prefixes all texts do.
-/

namespace BoostIrc

/-- A line from a prefix and the text behind it. -/
def prefixed (p s : Bytes) : Bytes :=
  COLON :: (p ++ SP :: s)

/-- **Who a message is from and what it does.** -/
structure Header where
  pfx : Bytes
  nickname : Bytes
  user : Bytes
  host : Bytes
  command : Bytes
  deriving DecidableEq, Repr

/-- The sender and the command of a message. -/
def Message.header (msg : Message) : Header where
  pfx := msg.pfx
  nickname := msg.nickname
  user := msg.user
  host := msg.host
  command := msg.command

/-- The header of a message from an origin. -/
def Header.ofOrigin (o : Option Origin) (command : Bytes) : Header where
  pfx := o.elim [] Origin.render
  nickname := o.elim [] Origin.nick
  user := (o.bind Origin.user).getD []
  host := (o.bind Origin.host).getD []
  command := command

/-- The header of a line with a prefix is that of the origin cut off its front. -/
theorem header_ofRaw {p s : Bytes} {o : Option Origin} {l : Bytes}
    (h : splitOrigin (prefixed p s) = (o, l)) :
    (Message.ofRaw (prefixed p s)).header = Header.ofOrigin o (word l) := by
  have hlocate : locate (prefixed p s) = some (prefixed p s) := rfl
  have htags : splitTags (prefixed p s) = (none, prefixed p s) := by
    rw [prefixed, splitTags, if_neg (by decide)]
  rw [Message.ofRaw_eq, hlocate, Option.elim_some, split, htags]
  simp only [h]
  rfl

/-! ### Prefixes of the protocol -/

/-- A text splits into a nick and what follows it. -/
theorem exists_nick_append (p : Bytes) :
    ∃ n r, (∀ a ∈ n, isNick a = true) ∧ p = n ++ r ∧
      (r = [] ∨ ∃ a r', r = a :: r' ∧ (a = AT ∨ a = BANG ∨ a = SP)) := by
  refine ⟨p.takeWhile isNick, p.dropWhile isNick, fun a ha => List.mem_takeWhile_imp ha,
    List.takeWhile_append_dropWhile.symm, ?_⟩
  cases hr : p.dropWhile isNick with
  | nil => exact Or.inl rfl
  | cons a r' => exact Or.inr ⟨a, r', rfl, eq_of_dropWhile_isNick hr⟩

/-- A prefix with no user, or with a host as well, is **one of the protocol**. It is written from
its nick or server name, its user and its host, each without the byte that ends it. -/
theorem exists_render_eq {p : Bytes} (hp : SP ∉ p) (h : BANG ∉ p ∨ AT ∈ p) :
    ∃ o : Origin, o.IsLegal ∧ o.render = p := by
  obtain ⟨n, r, hn, rfl, hr⟩ := exists_nick_append p
  rcases hr with rfl | ⟨a, r, rfl, ha⟩
  · exact ⟨{ nick := n }, ⟨hn, by simp, by simp, by simp⟩, by simp [Origin.render]⟩
  have hsp : SP ∉ r := fun hmem => hp (by simp [hmem])
  rcases ha with rfl | rfl | rfl
  · refine ⟨{ nick := n, host := some r }, ⟨hn, by simp, by simpa using hsp, by simp⟩, ?_⟩
    simp [Origin.render]
  · have hat : AT ∈ r := by
      have hmem := h.resolve_left fun hbang => hbang (by simp)
      rcases List.mem_append.mp hmem with hmem | hmem
      · exact absurd (hn AT hmem) (by decide)
      · exact (List.mem_cons.mp hmem).resolve_left (by decide)
    obtain ⟨u, host, rfl, hu⟩ := List.eq_append_cons_of_mem hat
    simp only [List.mem_append, List.mem_cons, not_or] at hsp
    refine ⟨{ nick := n, user := some u, host := some host },
      ⟨hn, by simpa using ⟨hu, hsp.1⟩, by simpa using hsp.2.2, by simp⟩, ?_⟩
    simp [Origin.render]
  · exact absurd (by simp) hp

/-- Any other prefix is a nick, an exclamation mark and a user. -/
theorem exists_user_eq {p : Bytes} (hp : SP ∉ p) (h : ¬ (BANG ∉ p ∨ AT ∈ p)) :
    ∃ n q, (∀ a ∈ n, isNick a = true) ∧ AT ∉ q ∧ p = n ++ BANG :: q := by
  rw [not_or, not_not] at h
  obtain ⟨n, r, hn, rfl, hr⟩ := exists_nick_append p
  rcases hr with rfl | ⟨a, r, rfl, ha⟩
  · rw [List.append_nil] at h
    exact absurd (hn BANG h.1) (by decide)
  rcases ha with rfl | rfl | rfl
  · exact absurd (by simp) h.2
  · exact ⟨n, r, hn, fun hmem => h.2 (by simp [hmem]), rfl⟩
  · exact absurd (by simp) hp

/-- The header of a line with a prefix of the protocol is that of the prefix and the command. -/
theorem header_ofRaw_render {o : Origin} (ho : o.IsLegal) {c r : Bytes} (hne : c ≠ [])
    (hc : SP ∉ c) (hr : r = [] ∨ ∃ t, r = SP :: t) :
    (Message.ofRaw (prefixed o.render (c ++ r))).header = Header.ofOrigin (some o) c := by
  have hstarts : starts (c ++ r) = true := starts_append hne hc r
  have hsplit : splitOrigin (prefixed o.render (c ++ r)) = (some o, c ++ r) := by
    rw [prefixed, splitOrigin, if_pos rfl, cutOrigin_render ho]
    exact if_pos hstarts
  rw [header_ofRaw hsplit, word_append hc hr]

/-! ### Prefixes without a host -/

/-- **How an origin with a user is cut**: the user ends at the first at sign, wherever it is, and
the host at the space after it. -/
theorem cutOrigin_bang_eq_some_iff {n : Bytes} (hn : ∀ a ∈ n, isNick a = true) {r l : Bytes}
    {o : Origin} :
    cutOrigin (n ++ BANG :: r) = some (o, l) ↔
      ∃ u host, AT ∉ u ∧ SP ∉ host ∧ r = u ++ AT :: (host ++ SP :: l) ∧
        o = { nick := n, user := some u, host := some host } := by
  have hbang : isNick BANG = false := rfl
  have hnick : (n ++ BANG :: r).takeWhile isNick = n := by
    rw [List.takeWhile_append_of_pos hn, List.takeWhile_cons_of_neg (by simp [hbang]),
      List.append_nil]
  have hrest : (n ++ BANG :: r).dropWhile isNick = BANG :: r := by
    rw [List.dropWhile_append_of_pos hn, List.dropWhile_cons_of_neg (by simp [hbang])]
  have hsp : BANG ≠ SP := by decide
  have hat : BANG ≠ AT := by decide
  simp only [cutOrigin, hnick, hrest, if_neg hsp, if_neg hat]
  constructor
  · intro h
    cases hr : r.dropWhile (· != AT) with
    | nil => simp [hr] at h
    | cons a r' =>
        cases hr' : afterWord r' with
        | nil => simp [hr, hr'] at h
        | cons b r'' =>
            simp only [hr, hr', Option.some.injEq, Prod.mk.injEq] at h
            obtain ⟨rfl, rfl⟩ := h
            have hhost : r' = word r' ++ SP :: r'' := eq_append_of_dropWhile_bne hr'
            refine ⟨r.takeWhile (· != AT), word r', notMem_takeWhile_bne AT r, sp_notMem_word r',
              ?_, rfl⟩
            rw [← hhost]
            exact eq_append_of_dropWhile_bne hr
  · rintro ⟨u, host, hu, hhost, rfl, rfl⟩
    have hu := bne_of_notMem hu
    have hafter : afterWord (host ++ SP :: l) = SP :: l := afterWord_append hhost (Or.inr ⟨l, rfl⟩)
    have hword : word (host ++ SP :: l) = host := word_append hhost (Or.inr ⟨l, rfl⟩)
    simp [List.takeWhile_append_of_pos hu, List.dropWhile_append_of_pos hu, hafter, hword]

/-- **The text addresses** `x@host w`: before its first at sign stands `x`, after it a host, a
space, and the word `w`. -/
structure Addresses (s x host w : Bytes) : Prop where
  at_notMem : AT ∉ x
  sp_notMem_host : SP ∉ host
  sp_notMem : SP ∉ w
  ne_nil : w ≠ []
  exists_eq : ∃ t, (t = [] ∨ ∃ r, t = SP :: r) ∧ s = x ++ AT :: (host ++ SP :: (w ++ t))

/-- The origin that a prefix `n!q` makes with an address. -/
def completed (n q x host : Bytes) : Origin where
  nick := n
  user := some (q ++ SP :: x)
  host := some host

/-- The first at sign after a space, when there is none before it. -/
theorem eq_append_of_append_eq {q s u z : Bytes} (hq : AT ∉ q)
    (h : q ++ SP :: s = u ++ AT :: z) : ∃ x, u = q ++ SP :: x ∧ s = x ++ AT :: z := by
  rcases List.append_eq_append_iff.mp h with ⟨d, rfl, hd⟩ | ⟨d, rfl, hd⟩
  · cases d with
    | nil => exact absurd (List.cons.inj hd).1 (by decide)
    | cons b d =>
        obtain ⟨rfl, rfl⟩ := List.cons.inj hd
        exact ⟨d, rfl, rfl⟩
  · cases d with
    | nil => exact absurd (List.cons.inj hd).1 (by decide)
    | cons b d =>
        obtain ⟨rfl, -⟩ := List.cons.inj hd
        exact absurd (by simp) hq

/-- An address in the text completes the prefix. -/
theorem header_ofRaw_of_addresses {n q s x host w : Bytes} (hn : ∀ a ∈ n, isNick a = true)
    (hq : AT ∉ q) (h : Addresses s x host w) :
    (Message.ofRaw (prefixed (n ++ BANG :: q) s)).header =
      Header.ofOrigin (some (completed n q x host)) w := by
  obtain ⟨t, ht, rfl⟩ := h.exists_eq
  have hcut : cutOrigin (n ++ BANG :: (q ++ SP :: (x ++ AT :: (host ++ SP :: (w ++ t))))) =
      some (completed n q x host, w ++ t) := by
    refine (cutOrigin_bang_eq_some_iff hn).mpr ⟨q ++ SP :: x, host, ?_, h.sp_notMem_host, ?_, rfl⟩
    · rw [List.mem_append, List.mem_cons]
      rintro (hmem | heq | hmem)
      · exact hq hmem
      · exact absurd heq (by decide)
      · exact h.at_notMem hmem
    · rw [List.append_assoc, List.cons_append]
  have hstarts : starts (w ++ t) = true := starts_append h.ne_nil h.sp_notMem t
  have hsplit : splitOrigin (prefixed (n ++ BANG :: q) (x ++ AT :: (host ++ SP :: (w ++ t)))) =
      (some (completed n q x host), w ++ t) := by
    rw [prefixed, splitOrigin, if_pos rfl, List.append_assoc, List.cons_append, hcut]
    exact if_pos hstarts
  rw [header_ofRaw hsplit, word_append h.sp_notMem ht]

/-- Without an address in the text the whole prefix, colon included, is taken for the command. -/
theorem header_ofRaw_of_not_addresses {n q s : Bytes} (hn : ∀ a ∈ n, isNick a = true)
    (hq : AT ∉ q) (hsp : SP ∉ n ++ BANG :: q) (h : ∀ x host w, ¬ Addresses s x host w) :
    (Message.ofRaw (prefixed (n ++ BANG :: q) s)).header =
      Header.ofOrigin none (COLON :: (n ++ BANG :: q)) := by
  have hsplit : splitOrigin (prefixed (n ++ BANG :: q) s) =
      (none, prefixed (n ++ BANG :: q) s) := by
    rw [prefixed, splitOrigin, if_pos rfl]
    cases hcut : cutOrigin (n ++ BANG :: q ++ SP :: s) with
    | none => rfl
    | some y =>
        obtain ⟨o, l⟩ := y
        rw [List.append_assoc, List.cons_append, cutOrigin_bang_eq_some_iff hn] at hcut
        obtain ⟨u, host, hu, hhost, heq, -⟩ := hcut
        obtain ⟨x, rfl, rfl⟩ := eq_append_of_append_eq hq heq
        -- Were a command to follow, the text would address it.
        refine if_neg fun hstarts => h x host (word l) ⟨?_, hhost, sp_notMem_word l, ?_, ?_⟩
        · exact fun hmem => hu (by simp [hmem])
        · exact word_ne_nil hstarts
        · exact ⟨afterWord l, afterWord_eq_nil_or l, by rw [word_append_afterWord]⟩
  have hcolon : SP ∉ COLON :: (n ++ BANG :: q) := by
    rw [List.mem_cons]
    rintro (heq | hmem)
    · exact absurd heq (by decide)
    · exact hsp hmem
  rw [header_ofRaw hsplit, prefixed, ← List.cons_append, word_append hcolon (Or.inr ⟨s, rfl⟩)]

/-- **A prefix without a host is completed by the text**: exactly by the address in it. The user is
then read on through the command and the text, up to the first at sign. -/
theorem addresses_iff_header {n q s x host w : Bytes} (hn : ∀ a ∈ n, isNick a = true)
    (hq : AT ∉ q) (hsp : SP ∉ n ++ BANG :: q) :
    Addresses s x host w ↔
      (Message.ofRaw (prefixed (n ++ BANG :: q) s)).header =
        Header.ofOrigin (some (completed n q x host)) w := by
  refine ⟨header_ofRaw_of_addresses hn hq, fun h => ?_⟩
  by_cases haddress : ∃ x host w, Addresses s x host w
  · obtain ⟨x', host', w', h'⟩ := haddress
    rw [header_ofRaw_of_addresses hn hq h'] at h
    have huser : q ++ SP :: x' = q ++ SP :: x := congrArg Header.user h
    have hhost : host' = host := congrArg Header.host h
    have hcommand : w' = w := congrArg Header.command h
    obtain rfl : x' = x := by simpa using huser
    rw [← hhost, ← hcommand]
    exact h'
  · have hnone : ∀ x host w, ¬ Addresses s x host w :=
      fun x host w h' => haddress ⟨x, host, w, h'⟩
    rw [header_ofRaw_of_not_addresses hn hq hsp hnone] at h
    have huser : [] = q ++ SP :: x := congrArg Header.user h
    exact absurd huser (by simp)

/-- Two texts with the same address, or both without one. -/
def SameAddress (s₁ s₂ : Bytes) : Prop :=
  ∀ x host w, Addresses s₁ x host w ↔ Addresses s₂ x host w

/-- Texts with the same address complete a prefix in the same way. -/
theorem header_eq_iff_sameAddress {n q : Bytes} (hn : ∀ a ∈ n, isNick a = true) (hq : AT ∉ q)
    (hsp : SP ∉ n ++ BANG :: q) {s₁ s₂ : Bytes} :
    (Message.ofRaw (prefixed (n ++ BANG :: q) s₁)).header =
        (Message.ofRaw (prefixed (n ++ BANG :: q) s₂)).header ↔
      SameAddress s₁ s₂ := by
  constructor
  · intro h x host w
    rw [addresses_iff_header hn hq hsp, addresses_iff_header hn hq hsp, h]
  · intro h
    by_cases haddress : ∃ x host w, Addresses s₁ x host w
    · obtain ⟨x, host, w, h₁⟩ := haddress
      rw [header_ofRaw_of_addresses hn hq h₁,
        header_ofRaw_of_addresses hn hq ((h x host w).mp h₁)]
    · have h₁ : ∀ x host w, ¬ Addresses s₁ x host w :=
        fun x host w h' => haddress ⟨x, host, w, h'⟩
      have h₂ : ∀ x host w, ¬ Addresses s₂ x host w :=
        fun x host w h' => h₁ x host w ((h x host w).mpr h')
      rw [header_ofRaw_of_not_addresses hn hq hsp h₁,
        header_ofRaw_of_not_addresses hn hq hsp h₂]

/-! ### Two lines -/

/-- **When two lines have the same sender and command**, given the same prefix and the same first
word after it: when the prefix is one of the protocol, or the texts have the same address. -/
theorem header_eq_iff {p c r₁ r₂ : Bytes} (hp : SP ∉ p) (hne : c ≠ []) (hc : SP ∉ c)
    (h₁ : r₁ = [] ∨ ∃ t, r₁ = SP :: t) (h₂ : r₂ = [] ∨ ∃ t, r₂ = SP :: t) :
    (Message.ofRaw (prefixed p (c ++ r₁))).header =
        (Message.ofRaw (prefixed p (c ++ r₂))).header ↔
      BANG ∉ p ∨ AT ∈ p ∨ SameAddress (c ++ r₁) (c ++ r₂) := by
  rw [← or_assoc]
  by_cases hprotocol : BANG ∉ p ∨ AT ∈ p
  · obtain ⟨o, ho, rfl⟩ := exists_render_eq hp hprotocol
    refine iff_of_true ?_ (Or.inl hprotocol)
    rw [header_ofRaw_render ho hne hc h₁, header_ofRaw_render ho hne hc h₂]
  · obtain ⟨n, q, hn, hq, rfl⟩ := exists_user_eq hp hprotocol
    rw [header_eq_iff_sameAddress hn hq hp, or_iff_right hprotocol]

/-- Behind a user with a host an address in the text changes nothing. -/
theorem header_eq_userHost :
    (Message.ofRaw (prefixed (ascii "nick!user@host")
      (ascii "PRIVMSG" ++ ascii " #a :hi"))).header =
      (Message.ofRaw (prefixed (ascii "nick!user@host")
        (ascii "PRIVMSG" ++ ascii " #a :x@evil.example QUIT"))).header :=
  (header_eq_iff (by decide) (by decide) (by decide) (Or.inr ⟨_, rfl⟩) (Or.inr ⟨_, rfl⟩)).mpr
    (Or.inr (Or.inl (by decide)))

/-- Behind a user without a host the text does change what is read: the group of the user runs on to
an at sign in the text. -/
theorem header_ne_userOnly :
    (Message.ofRaw (prefixed (ascii "nick!user") (ascii "PRIVMSG #a :hi"))).header ≠
      (Message.ofRaw (prefixed (ascii "nick!user")
        (ascii "PRIVMSG #a :x@evil.example QUIT"))).header := by
  intro h
  have hsame : SameAddress (ascii "PRIVMSG #a :hi") (ascii "PRIVMSG #a :x@evil.example QUIT") :=
    (header_eq_iff_sameAddress (n := ascii "nick") (q := ascii "user")
      (List.all_eq_true.mp (by decide)) (by decide) (by decide)).mp h
  have haddress : Addresses (ascii "PRIVMSG #a :x@evil.example QUIT") (ascii "PRIVMSG #a :x")
      (ascii "evil.example") (ascii "QUIT") :=
    ⟨by decide, by decide, by decide, by decide, [], Or.inl rfl, rfl⟩
  obtain ⟨t, -, heq⟩ := ((hsame _ _ _).mpr haddress).exists_eq
  have hat : AT ∈ ascii "PRIVMSG #a :hi" := by
    rw [heq]
    exact List.mem_append_right _ List.mem_cons_self
  revert hat
  decide

/-- Behind any command a text can be written that has an address. -/
theorem exists_addresses {c : Bytes} (hc : SP ∉ c) :
    ∃ x host w, Addresses (c ++ SP :: AT :: SP :: ascii "QUIT") x host w := by
  by_cases hat : AT ∈ c
  · obtain ⟨x, host, rfl, hx⟩ := List.eq_append_cons_of_mem hat
    have hhost : SP ∉ host := fun h => hc (by simp [h])
    refine ⟨x, host, [AT], hx, hhost, by decide, by decide, SP :: ascii "QUIT",
      Or.inr ⟨_, rfl⟩, ?_⟩
    rw [List.append_assoc, List.cons_append]
    rfl
  · refine ⟨c ++ [SP], [], ascii "QUIT", ?_, by decide, by decide, by decide, [], Or.inl rfl, ?_⟩
    · rw [List.mem_append, List.mem_singleton]
      exact not_or.mpr ⟨hat, by decide⟩
    · rw [List.append_assoc, List.append_nil]
      rfl

/-- A word alone has no address: there is no space in it. -/
theorem not_addresses {c : Bytes} (hc : SP ∉ c) (x host w : Bytes) : ¬ Addresses c x host w := by
  intro h
  obtain ⟨t, -, rfl⟩ := h.exists_eq
  exact hc (by simp)

/-- **For which prefixes all texts do**: those of the protocol. For any other prefix two texts
behind the same command give different headers. -/
theorem forall_header_eq_iff {p c : Bytes} (hp : SP ∉ p) (hne : c ≠ []) (hc : SP ∉ c) :
    (∀ r₁ r₂, (r₁ = [] ∨ ∃ t, r₁ = SP :: t) → (r₂ = [] ∨ ∃ t, r₂ = SP :: t) →
      (Message.ofRaw (prefixed p (c ++ r₁))).header =
        (Message.ofRaw (prefixed p (c ++ r₂))).header) ↔ BANG ∉ p ∨ AT ∈ p := by
  constructor
  · intro h
    by_contra hprotocol
    obtain ⟨n, q, hn, hq, rfl⟩ := exists_user_eq hp hprotocol
    have hsame := (header_eq_iff_sameAddress hn hq hp).mp
      (h [] (SP :: AT :: SP :: ascii "QUIT") (Or.inl rfl) (Or.inr ⟨_, rfl⟩))
    obtain ⟨x, host, w, haddress⟩ := exists_addresses hc
    have hnone := (hsame x host w).mpr haddress
    rw [List.append_nil] at hnone
    exact not_addresses hc x host w hnone
  · intro hprotocol r₁ r₂ h₁ h₂
    obtain ⟨o, ho, rfl⟩ := exists_render_eq hp hprotocol
    rw [header_ofRaw_render ho hne hc h₁, header_ofRaw_render ho hne hc h₂]

end BoostIrc
