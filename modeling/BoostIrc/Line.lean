import BoostIrc.Message

/-!
# IRC Lines

The abstract syntax of an IRC line (`Line`): optional tags, an optional origin
`nick[!user][@host]`, a command, middle parameters and an optional trailing parameter.
`Line.render` writes a line down as the protocol does, and `split` takes a text apart
again, from left to right and without backtracking.

A command can start wherever a byte other than a space stands (`starts`), and `locate`
finds where in a text a line starts. That the message expression does exactly what
`locate` and `split` do is proved in `BoostIrc.Parser`; here is what `split` itself does.

## Main results

* `takeMiddles_append`, `word_append_afterWord`: splitting loses no byte.
* `cutOrigin_render`, `cutTags_append`: the cuts recover what was rendered.
* `LegalLine.split_header_append`: **a line whose header is well formed is split into the
  parts it was rendered from**, whatever follows the command.
* `takeMiddles_flatMap`, `LegalLine.split_render`: so are the parameters of a legal line.
-/

open Backtrack

namespace BoostIrc

/-- Where a line comes from: a nick or a server name, and possibly a user and a host. -/
structure Origin where
  nick : Bytes
  user : Option Bytes := none
  host : Option Bytes := none
  deriving DecidableEq, Repr

/-- The origin as the prefix of a line spells it. -/
def Origin.render (o : Origin) : Bytes :=
  o.nick ++ (o.user.elim [] fun u => BANG :: u) ++ (o.host.elim [] fun h => AT :: h)

/-- The **abstract syntax of an IRC line**. -/
structure Line where
  tags : Option Bytes := none
  origin : Option Origin := none
  command : Bytes
  middles : List Bytes := []
  trailing : Option Bytes := none
  deriving DecidableEq, Repr

namespace Line

/-- The origin and the command, as the protocol writes them. -/
def originCommand (l : Line) : Bytes :=
  (l.origin.elim [] fun o => COLON :: o.render ++ [SP]) ++ l.command

/-- Everything up to the command, as the protocol writes it. -/
def header (l : Line) : Bytes :=
  (l.tags.elim [] fun g => AT :: g ++ [SP]) ++ l.originCommand

/-- The parameters, as the protocol writes them. -/
def args (l : Line) : Bytes :=
  l.middles.flatMap (SP :: ·) ++ l.trailing.elim [] fun t => SP :: COLON :: t

/-- The line as the protocol writes it, without its terminator. -/
def render (l : Line) : Bytes :=
  l.header ++ l.args

end Line

/-! ### Splitting a line -/

/-- A command can start at `l`: there is a next byte and it is not a space. -/
def starts (l : Bytes) : Bool :=
  l.head?.any (· != SP)

/-- The part of a text before its first space. -/
def word (l : Bytes) : Bytes :=
  l.takeWhile (· != SP)

/-- The part of a text from its first space on. -/
def afterWord (l : Bytes) : Bytes :=
  l.dropWhile (· != SP)

/-- Cut the tags from what follows the at sign: they end at the first space after which a
command can start. -/
def cutTags : Bytes → Option (Bytes × Bytes)
  | [] => none
  | a :: l =>
      if a == SP && starts l then
        some ([], l)
      else
        (cutTags l).map fun (g, r) => (a :: g, r)

/-- A byte of a nick. -/
def isNick (a : Byte) : Bool :=
  !([AT, BANG, SP].contains a)

/-- Cut the origin from what follows the colon: the nick ends at the first at sign,
exclamation mark or space, the user at the next at sign, the host at the next space. -/
def cutOrigin (t : Bytes) : Option (Origin × Bytes) :=
  let nick := t.takeWhile isNick
  match t.dropWhile isNick with
  | [] => none
  | a :: r =>
      if a = SP then
        some ({ nick := nick }, r)
      else if a = AT then
        match afterWord r with
        | [] => none
        | _ :: r' => some ({ nick := nick, host := some (word r) }, r')
      else
        match r.dropWhile (· != AT) with
        | [] => none
        | _ :: r' =>
            match afterWord r' with
            | [] => none
            | _ :: r'' =>
                some ({ nick := nick, user := some (r.takeWhile (· != AT)),
                        host := some (word r') }, r'')

/-- Take up to `n` middle parameters off the front. -/
def takeMiddles : ℕ → Bytes → List Bytes × Bytes
  | n + 1, b :: a :: t =>
      if b = SP ∧ a ≠ COLON ∧ a ≠ SP then
        ((a :: word t) :: (takeMiddles n (afterWord t)).1, (takeMiddles n (afterWord t)).2)
      else
        ([], b :: a :: t)
  | _, l => ([], l)

/-- The rest of the line after the middle parameters: what follows the space and, if there
is one, the colon. -/
def cutTrailing : Bytes → Option Bytes
  | [] => none
  | _ :: [] => some []
  | _ :: a :: t => some (if a = COLON then t else a :: t)

/-- The tags at the front of a text, and the rest. -/
def splitTags : Bytes → Option Bytes × Bytes
  | [] => (none, [])
  | a :: t =>
      if a = AT then
        match cutTags t with
        | some (g, r) => (some g, r)
        | none => (none, a :: t)
      else
        (none, a :: t)

/-- The origin at the front of a text, and the rest. An origin after which no command can
start is none. -/
def splitOrigin : Bytes → Option Origin × Bytes
  | [] => (none, [])
  | a :: t =>
      if a = COLON then
        match cutOrigin t with
        | some (o, r) => if starts r then (some o, r) else (none, a :: t)
        | none => (none, a :: t)
      else
        (none, a :: t)

/-- **Split** a text at which a command can start into a line. -/
def split (l : Bytes) : Line :=
  let (tags, l₁) := splitTags l
  let (origin, l₂) := splitOrigin l₁
  let (middles, r) := takeMiddles 14 (afterWord l₂)
  { tags := tags, origin := origin, command := word l₂, middles := middles,
    trailing := cutTrailing r }

/-- The first place after the byte `prev` that is the start of a line and at which a command can
start. -/
def locateFrom (prev : Option Byte) : Bytes → Option Bytes
  | [] => none
  | a :: l =>
      if startLine prev (some a) && a != SP then some (a :: l) else locateFrom (some a) l

/-- Where the match of the message expression starts in a text. -/
def locate (l : Bytes) : Option Bytes :=
  locateFrom none l

/-! ### Words -/

/-- No command can start at the end of a line. -/
@[simp] theorem starts_nil : starts [] = false := rfl

/-- A command can start at any byte but a space. -/
@[simp] theorem starts_cons (a : Byte) (l : Bytes) : starts (a :: l) = (a != SP) := rfl

/-- A text is its first word and what stands behind it. -/
theorem word_append_afterWord (l : Bytes) : word l ++ afterWord l = l :=
  List.takeWhile_append_dropWhile

/-- The bytes of a word are other than the space that ends it. -/
theorem ne_of_mem_word {l : Bytes} {a : Byte} (h : a ∈ word l) : a ≠ SP := by
  simpa using List.mem_takeWhile_imp h

/-- There is no space in a word. -/
theorem sp_notMem_word (l : Bytes) : SP ∉ word l :=
  fun h => ne_of_mem_word h rfl

/-- What follows a word is nothing or starts with a space. -/
theorem afterWord_eq_nil_or (l : Bytes) : afterWord l = [] ∨ ∃ r, afterWord l = SP :: r := by
  cases h : afterWord l with
  | nil => exact Or.inl rfl
  | cons a r =>
      obtain rfl : a = SP := eq_of_dropWhile_bne h
      exact Or.inr ⟨r, rfl⟩

/-- Where a command can start there is a word. -/
theorem word_ne_nil {l : Bytes} (h : starts l = true) : word l ≠ [] := by
  match l, h with
  | a :: l, h => simpa [word] using h

/-- A command can start at a word, whatever stands behind it. -/
theorem starts_append {w : Bytes} (hne : w ≠ []) (hw : SP ∉ w) (r : Bytes) :
    starts (w ++ r) = true := by
  obtain ⟨a, w, rfl⟩ := List.exists_cons_of_ne_nil hne
  have ha : a ≠ SP := fun h => hw (h ▸ List.mem_cons_self)
  simpa using ha

/-- The first word of a text is what stands before its first space, or all of it where there is
none. -/
theorem word_append {w r : Bytes} (hw : SP ∉ w) (hr : r = [] ∨ ∃ t, r = SP :: t) :
    word (w ++ r) = w := by
  rw [word, List.takeWhile_append_of_pos (bne_of_notMem hw)]
  rcases hr with rfl | ⟨t, rfl⟩ <;> simp

/-- What stands behind the first word of a text starts with the space that ends the word. -/
theorem afterWord_append {w r : Bytes} (hw : SP ∉ w) (hr : r = [] ∨ ∃ t, r = SP :: t) :
    afterWord (w ++ r) = r := by
  rw [afterWord, List.dropWhile_append_of_pos (bne_of_notMem hw)]
  rcases hr with rfl | ⟨t, rfl⟩ <;> simp

/-- Where a word and the space behind it start two texts, both words are the same, and so are the
texts behind the space. -/
theorem word_append_inj {w w' r r' : Bytes} (hw : SP ∉ w) (hw' : SP ∉ w')
    (h : w ++ SP :: r = w' ++ SP :: r') : w = w' ∧ r = r' := by
  have hword := congrArg word h
  rw [word_append hw (Or.inr ⟨r, rfl⟩), word_append hw' (Or.inr ⟨r', rfl⟩)] at hword
  subst hword
  exact ⟨rfl, (List.cons.inj (List.append_cancel_left h)).2⟩

/-- Nothing is taken of a text of less than two bytes, nor when no more parameters fit. -/
theorem takeMiddles_of_short {n : ℕ} {l : Bytes}
    (h : ∀ n' b a t, n = n' + 1 → l = b :: a :: t → False) : takeMiddles n l = ([], l) := by
  rw [takeMiddles]
  exact h

/-- The middle parameters taken and what is left make up the text. -/
theorem takeMiddles_append (n : ℕ) (l : Bytes) :
    (takeMiddles n l).1.flatMap (SP :: ·) ++ (takeMiddles n l).2 = l := by
  induction n, l using takeMiddles.induct with
  | case1 n b a t h ih =>
      rw [takeMiddles, if_pos h]
      simp only [List.flatMap_cons, List.append_assoc, List.cons_append, ih,
        word_append_afterWord, h.1]
  | case2 n b a t h =>
      rw [takeMiddles, if_neg h]
      rfl
  | case3 n l h =>
      rw [takeMiddles_of_short h]
      rfl

/-- What is left after the middle parameters is nothing or starts with a space. -/
theorem takeMiddles_rest (n : ℕ) (l : Bytes) (hl : l = [] ∨ ∃ r, l = SP :: r) :
    (takeMiddles n l).2 = [] ∨ ∃ r, (takeMiddles n l).2 = SP :: r := by
  induction n, l using takeMiddles.induct with
  | case1 n b a t h ih =>
      rw [takeMiddles, if_pos h]
      exact ih (afterWord_eq_nil_or t)
  | case2 n b a t h =>
      rw [takeMiddles, if_neg h]
      exact hl
  | case3 n l h =>
      rw [takeMiddles_of_short h]
      exact hl

/-- The middle parameters taken hold no space. -/
theorem sp_notMem_takeMiddles (n : ℕ) (l : Bytes) : ∀ m ∈ (takeMiddles n l).1, SP ∉ m := by
  induction n, l using takeMiddles.induct with
  | case1 n b a t h ih =>
      rw [takeMiddles, if_pos h]
      intro m hm
      rcases List.mem_cons.mp hm with rfl | hm
      · intro hmem
        rcases List.mem_cons.mp hmem with heq | hmem
        · exact h.2.2 heq.symm
        · exact sp_notMem_word t hmem
      · exact ih m hm
  | case2 n b a t h =>
      rw [takeMiddles, if_neg h]
      simp
  | case3 n l h =>
      rw [takeMiddles_of_short h]
      simp

/-! ### Legal lines -/

/-- A **legal middle parameter**: not empty, no space in it, no colon in front. -/
structure IsMiddle (m : Bytes) : Prop where
  ne_nil : m ≠ []
  sp_notMem : SP ∉ m
  head_ne : m.head? ≠ some COLON

/-- A **legal origin**: the nick has none of the separators, the user no at sign and no
space, the host no space; and a user comes with a host. -/
structure Origin.IsLegal (o : Origin) : Prop where
  nick : ∀ a ∈ o.nick, isNick a = true
  user : ∀ u ∈ o.user, AT ∉ u ∧ SP ∉ u
  host : ∀ h ∈ o.host, SP ∉ h
  user_host : o.user.isSome → o.host.isSome

/-- A **legal line** of the protocol, with the proofs that it is one. Tags are any text
without a space, the command is a run of letters and digits, there are at most fourteen
middle parameters, and the trailing parameter is any text at all. -/
structure LegalLine extends Line where
  tags_legal : ∀ g ∈ tags, SP ∉ g
  origin_legal : ∀ o ∈ origin, o.IsLegal
  command_ne_nil : command ≠ []
  command_alnum : ∀ a ∈ command, isAlnum a = true
  middles_length : middles.length ≤ 14
  middles_legal : ∀ m ∈ middles, IsMiddle m

/-- `IsMiddle`, as a check. -/
def isMiddle (m : Bytes) : Bool :=
  m ≠ [] && !m.contains SP && m.head? ≠ some COLON

/-- The check decides whether a text can be a middle parameter. -/
theorem isMiddle_iff (m : Bytes) : isMiddle m = true ↔ IsMiddle m := by
  simp only [isMiddle, Bool.and_eq_true, decide_eq_true_eq, Bool.not_eq_true',
    ← Bool.not_eq_true, List.contains_iff_mem]
  exact ⟨fun ⟨⟨h, h'⟩, h''⟩ => ⟨h, h', h''⟩, fun h => ⟨⟨h.ne_nil, h.sp_notMem⟩, h.head_ne⟩⟩

/-- `Origin.IsLegal`, as a check. -/
def Origin.isLegal (o : Origin) : Bool :=
  o.nick.all isNick && o.user.all (fun u => !u.contains AT && !u.contains SP) &&
    o.host.all (fun h => !h.contains SP) && (o.user.isSome → o.host.isSome)

/-- The check decides whether an origin is legal. -/
theorem Origin.isLegal_iff (o : Origin) : o.isLegal = true ↔ o.IsLegal := by
  simp only [isLegal, Bool.and_eq_true, decide_eq_true_eq, Bool.not_eq_true',
    ← Bool.not_eq_true, List.contains_iff_mem, List.all_eq_true, Option.all_eq_true]
  exact ⟨fun ⟨⟨⟨h, hu⟩, hh⟩, huh⟩ => ⟨h, hu, hh, huh⟩,
    fun h => ⟨⟨⟨h.nick, h.user⟩, h.host⟩, h.user_host⟩⟩

/-- The conditions on a legal line, as a check. -/
def Line.isLegal (l : Line) : Bool :=
  l.tags.all (fun g => !g.contains SP) && l.origin.all Origin.isLegal && l.command ≠ [] &&
    l.command.all isAlnum && l.middles.length ≤ 14 && l.middles.all isMiddle

/-- A line that passes the check meets the conditions. -/
theorem Line.isLegal_iff (l : Line) :
    l.isLegal = true ↔
      (∀ g ∈ l.tags, SP ∉ g) ∧ (∀ o ∈ l.origin, o.IsLegal) ∧ l.command ≠ [] ∧
      (∀ a ∈ l.command, isAlnum a = true) ∧ l.middles.length ≤ 14 ∧
      ∀ m ∈ l.middles, IsMiddle m := by
  simp only [isLegal, Bool.and_eq_true, decide_eq_true_eq, Bool.not_eq_true',
    ← Bool.not_eq_true, List.contains_iff_mem, List.all_eq_true, Option.all_eq_true,
    Origin.isLegal_iff, isMiddle_iff, and_assoc]
  rfl

/-- The legal line, of a line that passes the check. -/
def LegalLine.ofLine (l : Line) (h : l.isLegal = true) : LegalLine :=
  have hlegal := l.isLegal_iff.mp h
  { l with
    tags_legal := hlegal.1
    origin_legal := hlegal.2.1
    command_ne_nil := hlegal.2.2.1
    command_alnum := hlegal.2.2.2.1
    middles_length := hlegal.2.2.2.2.1
    middles_legal := hlegal.2.2.2.2.2 }

/-- Letters and digits are none of the bytes that structure a line. -/
theorem ne_of_isAlnum {a : Byte} (h : isAlnum a = true) : a ≠ SP ∧ a ≠ COLON ∧ a ≠ AT := by
  refine ⟨?_, ?_, ?_⟩ <;> rintro rfl <;> revert h <;> decide

/-- A legal origin is written without a space. -/
theorem Origin.IsLegal.sp_notMem {o : Origin} (ho : o.IsLegal) : SP ∉ o.render := by
  have hnick : SP ∉ o.nick := fun h => absurd (ho.nick SP h) (by decide)
  have huser : SP ∉ o.user.elim [] fun u => BANG :: u := by
    cases hu : o.user with
    | none => simp
    | some u => simpa [show SP ≠ BANG by decide] using (ho.user u hu).2
  have hhost : SP ∉ o.host.elim [] fun h => AT :: h := by
    cases hh : o.host with
    | none => simp
    | some h => simpa [show SP ≠ AT by decide] using ho.host h hh
  simp only [Origin.render, List.mem_append, not_or]
  exact ⟨⟨hnick, huser⟩, hhost⟩

namespace LegalLine

/-- The command of a legal line is one word. -/
theorem sp_notMem_command (l : LegalLine) : SP ∉ l.command :=
  fun h => (ne_of_isAlnum (l.command_alnum SP h)).1 rfl

/-- The first byte of a legal command starts neither tags nor an origin. -/
theorem command_eq_cons (l : LegalLine) :
    ∃ a c, l.command = a :: c ∧ a ≠ SP ∧ a ≠ COLON ∧ a ≠ AT := by
  obtain ⟨a, c, hc⟩ := List.exists_cons_of_ne_nil l.command_ne_nil
  exact ⟨a, c, hc, ne_of_isAlnum (l.command_alnum a (hc ▸ List.mem_cons_self))⟩

/-- A command can start where a legal command stands. -/
theorem starts_command (l : LegalLine) (r : Bytes) : starts (l.command ++ r) = true := by
  obtain ⟨a, c, hc, ha, -⟩ := l.command_eq_cons
  simp [hc, ha]

end LegalLine

/-! ### Text after a line -/

/-- A middle parameter stays one when text without a space is added at its end. -/
theorem IsMiddle.append {m x : Bytes} (hm : IsMiddle m) (hx : SP ∉ x) : IsMiddle (m ++ x) where
  ne_nil := List.append_ne_nil_of_left_ne_nil hm.ne_nil x
  sp_notMem := by
    rw [List.mem_append]
    rintro (h | h)
    · exact hm.sp_notMem h
    · exact hx h
  head_ne := by
    rw [List.head?_append_of_ne_nil m hm.ne_nil]
    exact hm.head_ne

namespace LegalLine

/-- The line with another trailing parameter. -/
def withTrailing (l : LegalLine) (t : Bytes) : LegalLine :=
  { l with trailing := some t }

/-- Text after a line with a trailing parameter belongs to that parameter. -/
theorem render_append_of_trailing (l : LegalLine) {t : Bytes} (ht : l.trailing = some t)
    (x : Bytes) : l.render ++ x = (l.withTrailing (t ++ x)).render := by
  simp only [withTrailing, Line.render, Line.header, Line.originCommand, Line.args, ht,
    Option.elim_some, List.append_assoc, List.cons_append]

end LegalLine

/-! ### Splitting what was rendered -/

/-- Tags without a space are cut whole when a command can start after them. -/
theorem cutTags_append {g r : Bytes} (hg : SP ∉ g) (hr : starts r = true) :
    cutTags (g ++ SP :: r) = some (g, r) := by
  induction g with
  | nil => simp [cutTags, hr]
  | cons a g ih =>
      have ha : a ≠ SP := fun h => hg (h ▸ List.mem_cons_self)
      have hrest := ih fun h => hg (List.mem_cons_of_mem a h)
      simp [cutTags, hrest, ha]

/-- A legal origin is cut whole at the space after it. -/
theorem cutOrigin_render {o : Origin} (ho : o.IsLegal) (r : Bytes) :
    cutOrigin (o.render ++ SP :: r) = some (o, r) := by
  obtain ⟨nick, user, host⟩ := o
  have hnick : ∀ a ∈ nick, isNick a = true := ho.nick
  have hword : ∀ h : Bytes, SP ∉ h → word (h ++ SP :: r) = h ∧ afterWord (h ++ SP :: r) = SP :: r :=
    fun h hh => ⟨word_append hh (Or.inr ⟨r, rfl⟩), afterWord_append hh (Or.inr ⟨r, rfl⟩)⟩
  cases user with
  | none =>
      cases host with
      | none =>
          simp [cutOrigin, Origin.render, List.takeWhile_append_of_pos hnick,
            List.dropWhile_append_of_pos hnick, show isNick SP = false from rfl]
      | some h =>
          obtain ⟨hw, haw⟩ := hword h (ho.host h rfl)
          simp +decide [cutOrigin, Origin.render, List.takeWhile_append_of_pos hnick,
            List.dropWhile_append_of_pos hnick, show isNick AT = false from rfl, hw, haw]
  | some u =>
      cases host with
      | none => exact absurd (ho.user_host rfl) (by simp)
      | some h =>
          obtain ⟨hw, haw⟩ := hword h (ho.host h rfl)
          have hu := bne_of_notMem (ho.user u rfl).1
          simp +decide [cutOrigin, Origin.render, List.takeWhile_append_of_pos hnick,
            List.dropWhile_append_of_pos hnick, show isNick BANG = false from rfl,
            List.takeWhile_append_of_pos hu, List.dropWhile_append_of_pos hu, hw, haw]

/-- Nothing at the front of `r` can be taken for a middle parameter: the text is at its end
or at a space that is followed by nothing, a colon or another space. -/
def StopsMiddles (r : Bytes) : Prop :=
  r = [] ∨ ∃ t, r = SP :: t ∧ ∀ a ∈ t.head?, a = COLON ∨ a = SP

/-- Where no middle parameter can follow, none is taken, and the text is left as it is. -/
theorem takeMiddles_of_stops {r : Bytes} (hr : StopsMiddles r) (n : ℕ) :
    takeMiddles n r = ([], r) := by
  rcases hr with rfl | ⟨t, rfl, ht⟩
  · cases n <;> rfl
  · cases n with
    | zero => rfl
    | succ n =>
        match t with
        | [] => rfl
        | a :: t =>
            have ha : a = COLON ∨ a = SP := ht a rfl
            rw [takeMiddles, if_neg]
            rintro ⟨-, hc, hs⟩
            exact ha.elim hc hs

/-- A legal line has a first byte, and it is not a space. -/
theorem LegalLine.starts_header (l : LegalLine) (r : Bytes) : starts (l.header ++ r) = true := by
  have hcommand := l.starts_command r
  unfold Line.header Line.originCommand
  cases l.tags with
  | some g => simp only [Option.elim_some, List.cons_append, starts_cons]; decide
  | none =>
      cases l.origin with
      | some o => simp only [Option.elim_some, Option.elim_none, List.nil_append,
                    List.cons_append, starts_cons]; decide
      | none => simpa using hcommand

/-- The tags of a legal line are split off. -/
theorem LegalLine.splitTags_header (l : LegalLine) (r : Bytes) :
    splitTags (l.header ++ r) = (l.tags, l.originCommand ++ r) := by
  obtain ⟨a, c, hc, -, -, ha⟩ := l.command_eq_cons
  have hstart : starts (l.originCommand ++ r) = true := by
    unfold Line.originCommand
    cases l.origin with
    | some o => simp only [Option.elim_some, List.cons_append, starts_cons]; decide
    | none => simpa using l.starts_command r
  unfold Line.header
  cases htags : l.tags with
  | some g =>
      have hcut := cutTags_append (l.tags_legal g htags) hstart
      simp only [Option.elim_some, List.cons_append, List.append_assoc, splitTags,
        if_true, List.nil_append, hcut]
  | none =>
      unfold Line.originCommand
      cases l.origin with
      | some o =>
          simp only [Option.elim_some, Option.elim_none, List.nil_append, List.cons_append,
            splitTags]
          rw [if_neg (by decide)]
      | none =>
          simp only [Option.elim_none, List.nil_append, hc, List.cons_append, splitTags]
          rw [if_neg ha]

/-- The origin of a legal line is split off. -/
theorem LegalLine.splitOrigin_originCommand (l : LegalLine) (r : Bytes) :
    splitOrigin (l.originCommand ++ r) = (l.origin, l.command ++ r) := by
  obtain ⟨a, c, hc, -, ha, -⟩ := l.command_eq_cons
  unfold Line.originCommand
  cases horigin : l.origin with
  | some o =>
      have hcut := cutOrigin_render (l.origin_legal o horigin) (l.command ++ r)
      simp only [Option.elim_some, List.cons_append, List.append_assoc, splitOrigin,
        if_true, List.nil_append, hcut, l.starts_command]
  | none =>
      simp only [Option.elim_none, List.nil_append, hc, List.cons_append, splitOrigin]
      rw [if_neg ha]

/-- **A line with a legal header is split into the parts it was rendered from**, whatever
follows the command. -/
theorem LegalLine.split_header_append (l : LegalLine) {r : Bytes}
    (hr : r = [] ∨ ∃ t, r = SP :: t) :
    split (l.header ++ r) =
      { l.toLine with
        middles := (takeMiddles 14 r).1, trailing := cutTrailing (takeMiddles 14 r).2 } := by
  simp only [split, l.splitTags_header, l.splitOrigin_originCommand,
    word_append l.sp_notMem_command hr, afterWord_append l.sp_notMem_command hr]

/-- A match starts where a command can start, if that is at the front. -/
theorem locate_of_starts {l : Bytes} (h : starts l = true) : locate l = some l := by
  match l, h with
  | a :: l, h =>
      rw [starts_cons] at h
      simp [locate, locateFrom, startLine, h]

/-- The match of the message expression starts at the front of a legal line. -/
theorem LegalLine.locate_header_append (l : LegalLine) (r : Bytes) :
    locate (l.header ++ r) = some (l.header ++ r) :=
  locate_of_starts (l.starts_header r)

/-- **Legal middle parameters are taken one by one**, and the bound counts down. What follows them
is nothing or starts with a space, so the last of them ends where it should. -/
theorem takeMiddles_flatMap {ms : List Bytes} (hms : ∀ m ∈ ms, IsMiddle m) (n : ℕ) {r : Bytes}
    (hr : r = [] ∨ ∃ t, r = SP :: t) :
    takeMiddles (ms.length + n) (ms.flatMap (SP :: ·) ++ r) =
      (ms ++ (takeMiddles n r).1, (takeMiddles n r).2) := by
  induction ms with
  | nil => rw [List.length_nil, Nat.zero_add, List.flatMap_nil, List.nil_append, List.nil_append]
  | cons m ms ih =>
      have hm : IsMiddle m := hms m List.mem_cons_self
      have hrest := ih fun x hx => hms x (List.mem_cons_of_mem m hx)
      obtain ⟨a, w, rfl⟩ := List.exists_cons_of_ne_nil hm.ne_nil
      have ha : a ≠ COLON ∧ a ≠ SP :=
        ⟨fun h => hm.head_ne (by simp [h]), fun h => hm.sp_notMem (h ▸ List.mem_cons_self)⟩
      have hw : SP ∉ w := fun h => hm.sp_notMem (List.mem_cons_of_mem a h)
      have hnext : ms.flatMap (SP :: ·) ++ r = [] ∨ ∃ t, ms.flatMap (SP :: ·) ++ r = SP :: t := by
        cases ms with
        | nil => simpa using hr
        | cons m' ms => exact Or.inr ⟨_, rfl⟩
      have hlen : ((a :: w) :: ms).length + n = ms.length + n + 1 := by
        rw [List.length_cons]
        omega
      simp only [hlen, List.flatMap_cons, List.cons_append, List.append_assoc, takeMiddles]
      rw [if_pos ⟨trivial, ha⟩, word_append hw hnext, afterWord_append hw hnext, hrest]

/-- The parameters of a legal line start with a space, if there are any. -/
theorem Line.args_eq_nil_or (l : Line) : l.args = [] ∨ ∃ t, l.args = SP :: t := by
  unfold Line.args
  cases l.middles with
  | cons m ms => exact Or.inr ⟨_, rfl⟩
  | nil =>
      cases l.trailing with
      | none => exact Or.inl rfl
      | some t => exact Or.inr ⟨_, rfl⟩

/-- **A legal line is split into the parts it was rendered from.** Every part ends where its grammar
says, so no other way to cut the line is taken. -/
theorem LegalLine.split_render (l : LegalLine) : split l.render = l.toLine := by
  have hstop : StopsMiddles (l.trailing.elim [] fun t => SP :: COLON :: t) := by
    cases l.trailing with
    | none => exact Or.inl rfl
    | some t => exact Or.inr ⟨COLON :: t, rfl, by simp⟩
  have hspace : (l.trailing.elim [] fun t => SP :: COLON :: t) = [] ∨
      ∃ r, (l.trailing.elim [] fun t => SP :: COLON :: t) = SP :: r := by
    rcases hstop with h | ⟨r, h, -⟩
    · exact Or.inl h
    · exact Or.inr ⟨r, h⟩
  have hmiddles := takeMiddles_flatMap l.middles_legal (14 - l.middles.length) hspace
  rw [takeMiddles_of_stops hstop, List.append_nil,
    Nat.add_sub_of_le l.middles_length] at hmiddles
  have htrailing : cutTrailing (l.trailing.elim [] fun t => SP :: COLON :: t) = l.trailing := by
    cases l.trailing <;> simp [cutTrailing]
  rw [Line.render, l.split_header_append l.args_eq_nil_or, Line.args, hmiddles, htrailing]

/-- A text that starts neither tags nor an origin starts with the command. -/
theorem split_cons {a : Byte} (ht : a ≠ AT) (ho : a ≠ COLON) (t : Bytes) :
    split (a :: t) =
      { command := word (a :: t), middles := (takeMiddles 14 (afterWord (a :: t))).1,
        trailing := cutTrailing (takeMiddles 14 (afterWord (a :: t))).2 } := by
  have htags : splitTags (a :: t) = (none, a :: t) := if_neg ht
  have horigin : splitOrigin (a :: t) = (none, a :: t) := if_neg ho
  simp only [split, htags, horigin]

/-! ### What a split leaves -/

/-- The line that is found is the rest of the text from some place on, wherever the search starts.
-/
theorem locateFrom_isSuffix {prev : Option Byte} {l l' : Bytes} (h : locateFrom prev l = some l') :
    l' <:+ l := by
  induction l generalizing prev with
  | nil => exact absurd h (by simp [locateFrom])
  | cons a l ih =>
      rw [locateFrom] at h
      split_ifs at h
      · obtain rfl := Option.some.inj h
        exact List.suffix_rfl
      · exact (ih h).trans (List.suffix_cons a l)

/-- Tags are cut off at a space: what is left behind them, with this space, ends the text. -/
theorem cutTags_isSuffix {l g r : Bytes} (h : cutTags l = some (g, r)) : SP :: r <:+ l := by
  induction l generalizing g with
  | nil => exact absurd h (by simp [cutTags])
  | cons a l ih =>
      rw [cutTags] at h
      split_ifs at h with hspace
      · obtain ⟨-, rfl⟩ := Prod.mk.inj (Option.some.inj h)
        obtain rfl : a = SP := by simpa using (Bool.and_eq_true_iff.mp hspace).1
        exact List.suffix_rfl
      · obtain ⟨x, hx, hr⟩ := Option.map_eq_some_iff.mp h
        obtain ⟨-, rfl⟩ := Prod.mk.inj hr
        exact (ih hx).trans (List.suffix_cons a l)

/-- The tags leave all of the text, or what is behind one of its spaces. -/
theorem splitTags_eq_or (l : Bytes) : (splitTags l).2 = l ∨ SP :: (splitTags l).2 <:+ l := by
  cases l with
  | nil => exact Or.inl rfl
  | cons a t =>
      rw [splitTags]
      split_ifs
      · split
        · next g r h => exact Or.inr ((cutTags_isSuffix h).trans (List.suffix_cons a t))
        · exact Or.inl rfl
      · exact Or.inl rfl

/-- What is left behind the tags is a part of the text. -/
theorem splitTags_isSuffix (l : Bytes) : (splitTags l).2 <:+ l := by
  rcases splitTags_eq_or l with h | h
  · exact ⟨[], by rw [List.nil_append, h]⟩
  · exact (List.suffix_cons SP _).trans h

/-- What is left of a text from one of its bytes on. -/
theorem isSuffix_of_dropWhile {p : Byte → Bool} {l r : Bytes} (h : l.dropWhile p = r) : r <:+ l :=
  h ▸ List.dropWhile_suffix p

/-- What a word leaves is cut off at a space. -/
theorem isSuffix_of_afterWord {l r : Bytes} {a : Byte} (h : afterWord l = a :: r) :
    SP :: r <:+ l := by
  rcases afterWord_eq_nil_or l with hnil | ⟨r', hr'⟩
  · rw [hnil] at h
    exact absurd h (by simp)
  · obtain ⟨-, rfl⟩ := List.cons.inj (hr'.symm.trans h)
    exact isSuffix_of_dropWhile hr'

/-- An origin is cut off at a space: what is left behind it, with this space, ends the text. -/
theorem cutOrigin_isSuffix {t r : Bytes} {o : Origin} (h : cutOrigin t = some (o, r)) :
    SP :: r <:+ t := by
  simp only [cutOrigin] at h
  split at h
  · exact absurd h (by simp)
  · next a r₁ hnick =>
      have h₁ := isSuffix_of_dropWhile hnick
      have hbehind : r₁ <:+ t := (List.suffix_cons a r₁).trans h₁
      split_ifs at h with hspace
      · obtain ⟨-, rfl⟩ := Prod.mk.inj (Option.some.inj h)
        exact hspace ▸ h₁
      · split at h
        · exact absurd h (by simp)
        · next hhost =>
            obtain ⟨-, rfl⟩ := Prod.mk.inj (Option.some.inj h)
            exact (isSuffix_of_afterWord hhost).trans hbehind
      · split at h
        · exact absurd h (by simp)
        · next b r₂ huser =>
            have h₂ : r₂ <:+ t :=
              (List.suffix_cons b r₂).trans ((isSuffix_of_dropWhile huser).trans hbehind)
            split at h
            · exact absurd h (by simp)
            · next hhost =>
                obtain ⟨-, rfl⟩ := Prod.mk.inj (Option.some.inj h)
                exact (isSuffix_of_afterWord hhost).trans h₂

/-- The origin leaves all of the text, or what is behind one of its spaces. -/
theorem splitOrigin_eq_or (l : Bytes) :
    (splitOrigin l).2 = l ∨ SP :: (splitOrigin l).2 <:+ l := by
  cases l with
  | nil => exact Or.inl rfl
  | cons a t =>
      rw [splitOrigin]
      split_ifs
      · split
        · next o r h =>
            split_ifs
            · exact Or.inr ((cutOrigin_isSuffix h).trans (List.suffix_cons a t))
            · exact Or.inl rfl
        · exact Or.inl rfl
      · exact Or.inl rfl

/-- What is left behind the origin is a part of the text. -/
theorem splitOrigin_isSuffix (l : Bytes) : (splitOrigin l).2 <:+ l := by
  rcases splitOrigin_eq_or l with h | h
  · exact ⟨[], by rw [List.nil_append, h]⟩
  · exact (List.suffix_cons SP _).trans h

/-- **The command of a split text** is its first word, or stands behind one of its spaces. The
parameters are then taken from what follows it, whatever the text is. -/
theorem exists_split_eq (l : Bytes) :
    ∃ r, (r = l ∨ SP :: r <:+ l) ∧ (split l).command = word r ∧
      (split l).middles = (takeMiddles 14 (afterWord r)).1 ∧
      (split l).trailing = cutTrailing (takeMiddles 14 (afterWord r)).2 := by
  refine ⟨(splitOrigin (splitTags l).2).2, ?_, rfl, rfl, rfl⟩
  rcases splitOrigin_eq_or (splitTags l).2 with h | h
  · rw [h]
    exact splitTags_eq_or l
  · exact Or.inr (h.trans (splitTags_isSuffix l))

end BoostIrc
