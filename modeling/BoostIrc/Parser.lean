import BoostIrc.Line

/-!
# The Message Expression Splits Lines

The constructor of `Message` hands every line to one backtracking expression. This module
proves that the expression does, on every byte string, exactly what `locate` and `split`
do: the first successful path of the matcher is the deterministic split of
`BoostIrc.Line`.

The proof follows the expression from its end to its front, in the order in which the
continuations of the matcher are built. From the command on the greedy path always
succeeds (`matchAt_tailExpr`). The prefix group has only one way to close
(`matchAt_originGroup`), because the nick, the user and the host can each be followed only
by a byte they may not contain. The lazy tags end at the first space after which a command
can start (`matchAt_lazyTags`).

## Main results

* `search_expr`: searching for the message expression is `locate` followed by `split`.
* `Message.ofRaw_eq`: the constructor reads the fields of the split line.
* `LegalLine.ofRaw_render`: **the parser recovers every legal line**.
* `LegalLine.ofRaw_header`: the header fields are recovered whatever follows the command.
* `LegalLine.params_eq_iff`: the parameters are the middle ones and the trailing one
  exactly when there is a trailing one; without it an empty one is added.
-/

open Backtrack Backtrack.Pattern

namespace BoostIrc

/-- The captures of a match. -/
abbrev Captures := ℕ → Option Bytes

/-- Make capture `i` if there is something to capture. -/
def record (i : ℕ) (x : Option Bytes) (g : Captures) : Captures :=
  x.elim g fun w => Function.update g i (some w)

/-- The captures an origin makes: nick, user, host and, around them, the whole prefix. -/
def Origin.record (o : Origin) (g : Captures) : Captures :=
  BoostIrc.record 2 (some o.render)
    (BoostIrc.record 5 o.host (BoostIrc.record 4 o.user (BoostIrc.record 3 (some o.nick) g)))

/-- The captures that the command and the parameters of a line make. -/
def recordTail (command : Bytes) (middles : List Bytes) (trailing : Option Bytes)
    (g : Captures) : Captures :=
  record 8 trailing (record 7 (some (middles.flatMap (SP :: ·))) (record 6 (some command) g))

/-- **The captures of a split line.** -/
def Line.captures (l : Line) : Captures :=
  recordTail l.command l.middles l.trailing
    (l.origin.elim (record 1 l.tags fun _ => none) fun o =>
      o.record (record 1 l.tags fun _ => none))

variable {β : Type*}

/-! ### From the command to the end of the line -/

/-- The command is the next word, if there is one, and what follows it is matched behind the word.
-/
theorem matchAt_commandExpr {b w r : Bytes} {g : Captures} {k : Cursor Byte → Option β} {v : β}
    (hne : w ≠ []) (hw : SP ∉ w) (hr : r = [] ∨ ∃ t, r = SP :: t)
    (hk : ∀ b', k ⟨b', r, record 6 (some w) g⟩ = some v) :
    matchAt commandExpr ⟨b, w ++ r, g⟩ k = some v := by
  obtain ⟨a, w, rfl⟩ := List.exists_cons_of_ne_nil hne
  have hcap : ∀ b', Cursor.capture 6 ⟨b, (a :: w) ++ r, g⟩ ⟨b', r, g⟩ =
      ⟨b', r, record 6 (some (a :: w)) g⟩ := fun b' => Cursor.capture_append 6 b b' (a :: w) r g g
  have ha : (!([SP].contains a)) = true := by
    have : a ≠ SP := fun h => hw (h ▸ List.mem_cons_self)
    simpa using this
  simp only [commandExpr, noneOf, matchAt_group, matchAt_plus, List.cons_append, matchAt_sat_cons,
    ha, if_true]
  refine matchAt_star_of_some ?_ ?_ ?_
  · intro x hx
    have : x ≠ SP := fun h => hw (h ▸ List.mem_cons_of_mem a hx)
    simpa using this
  · rcases hr with rfl | ⟨t, rfl⟩ <;> simp
  · rw [← List.cons_append, hcap]
    exact hk _

/-- One middle parameter, when the text starts with one. -/
theorem matchAt_middleExpr {b t : Bytes} {a : Byte} {g : Captures}
    {k : Cursor Byte → Option β} {v : β} (hc : a ≠ COLON) (hs : a ≠ SP)
    (hk : ∀ b', k ⟨b', afterWord t, g⟩ = some v) :
    matchAt middleExpr ⟨b, SP :: a :: t, g⟩ k = some v := by
  have ha : (!([COLON, SP].contains a)) = true := by simp [hc, hs]
  simp only [middleExpr, matchAt_all_cons, matchAt_all_nil, matchAt_lit_self, noneOf,
    matchAt_sat_cons, ha, if_true]
  rw [← word_append_afterWord t]
  refine matchAt_star_of_some ?_ ?_ ?_
  · intro x hx
    simpa using ne_of_mem_word hx
  · rcases afterWord_eq_nil_or t with h | ⟨r, h⟩ <;> simp [h]
  · exact hk _

/-- No middle parameter: the text does not start with a space followed by a byte that may
begin one. -/
theorem matchAt_middleExpr_none {b l : Bytes} {g : Captures} {k : Cursor Byte → Option β}
    (h : ∀ x a t, l = x :: a :: t → ¬ (x = SP ∧ a ≠ COLON ∧ a ≠ SP)) :
    matchAt middleExpr ⟨b, l, g⟩ k = none := by
  simp only [middleExpr, matchAt_all_cons, matchAt_all_nil]
  match l with
  | [] => rfl
  | [x] =>
      by_cases hx : x = SP
      · subst hx; simp [noneOf]
      · exact matchAt_lit_of_ne b [] g _ hx
  | x :: a :: t =>
      by_cases hx : x = SP
      · subst hx
        have ha : a = COLON ∨ a = SP := by
          by_contra hne
          exact h SP a t rfl ⟨rfl, fun h => hne (Or.inl h), fun h => hne (Or.inr h)⟩
        rcases ha with rfl | rfl <;> simp [noneOf, matchAt_sat_cons]
      · exact matchAt_lit_of_ne b (a :: t) g _ hx

/-- The middle parameters are taken one after another, up to the bound. -/
theorem matchAt_upTo_middleExpr {g : Captures} {k : Cursor Byte → Option β} {v : β}
    (n : ℕ) (b l : Bytes) (hk : ∀ b', k ⟨b', (takeMiddles n l).2, g⟩ = some v) :
    matchAt (upTo n middleExpr) ⟨b, l, g⟩ k = some v := by
  induction n, l using takeMiddles.induct generalizing b with
  | case1 n x a t h ih =>
      obtain ⟨rfl, hc, hs⟩ := h
      rw [takeMiddles, if_pos ⟨rfl, hc, hs⟩] at hk
      have hlen : (afterWord t).length < (SP :: a :: t).length := by
        have := congrArg List.length (word_append_afterWord t)
        simp only [List.length_append, List.length_cons] at this ⊢
        omega
      rw [matchAt_upTo_succ, matchAt_middleExpr hc hs fun b' => ?_]
      · rfl
      · simp only [hlen, if_true]
        exact ih b' hk
  | case2 n x a t h =>
      rw [takeMiddles, if_neg h] at hk
      rw [matchAt_upTo_succ, matchAt_middleExpr_none]
      · simpa using hk b
      · rintro x' a' t' heq
        obtain ⟨rfl, rfl, rfl⟩ : x = x' ∧ a = a' ∧ t = t' := by simpa using heq
        exact h
  | case3 n l h =>
      rw [takeMiddles] at hk
      · cases n with
        | zero => exact hk b
        | succ n =>
            rw [matchAt_upTo_succ, matchAt_middleExpr_none]
            · simpa using hk b
            · rintro x a t rfl
              exact absurd rfl (h n x a t rfl)
      · exact h

/-- The end of the text is the end of a line. -/
theorem matchAt_endLine (b : Bytes) (g : Captures) :
    (matchAt (look endLine) ⟨b, [], g⟩ fun c => some c.captures) = some g := by
  cases b <;> rfl

/-- `(.*)$` captures the whole of the text that is left. -/
theorem matchAt_text (b t : Bytes) (g : Captures) :
    (matchAt (group 8 (star any)) ⟨b, t, g⟩ fun c =>
      matchAt (look endLine) c fun c => some c.captures) = some (record 8 (some t) g) := by
  have hcap := Cursor.capture_append 8 b (t.reverse ++ b) t [] g g
  rw [List.append_nil] at hcap
  rw [matchAt_group, any]
  have hstar := matchAt_star_of_some (p := fun _ : Byte => true) (b := b) (l := []) (w := t)
    (g := g) (v := record 8 (some t) g)
    (k := fun c' => matchAt (look endLine) (Cursor.capture 8 ⟨b, t, g⟩ c') fun c => some c.captures)
    (by simp) (by simp) (by simp only [hcap, matchAt_endLine]; rfl)
  rwa [List.append_nil] at hstar

/-- The rest of the line, from the end of the middle parameters to the end of the text. -/
theorem matchAt_restExpr {b r : Bytes} {g : Captures} (hr : r = [] ∨ ∃ t, r = SP :: t) :
    (matchAt restExpr ⟨b, r, g⟩ fun c => matchAt (look endLine) c fun c => some c.captures) =
      some (record 8 (cutTrailing r) g) := by
  rw [restExpr, matchAt_opt]
  rcases hr with rfl | ⟨t, rfl⟩
  · simp only [matchAt_all_cons, matchAt_lit_nil, matchAt_endLine]
    rfl
  · simp only [matchAt_all_cons, matchAt_all_nil, matchAt_lit_self, matchAt_opt]
    match t with
    | [] => simp only [matchAt_lit_nil, matchAt_text]; rfl
    | a :: t =>
        by_cases ha : a = COLON
        · subst ha
          simp only [matchAt_lit_self, matchAt_text]
          rfl
        · simp only [matchAt_lit_of_ne (SP :: b) t g _ ha, matchAt_text, cutTrailing, if_neg ha]
          rfl

/-- What the pattern from the command to the end of the line is. -/
def tailExpr : Pattern Byte :=
  .all [commandExpr, paramsExpr, restExpr, .look endLine]

/-- The captures made from the command of `l` on. -/
def tailCaptures (l : Bytes) (g : Captures) : Captures :=
  recordTail (word l) (takeMiddles 14 (afterWord l)).1
    (cutTrailing (takeMiddles 14 (afterWord l)).2) g

/-- **Everything from a command on matches**, and the first way to match is the split. No way has to
be taken back, since every text can follow a command. -/
theorem matchAt_tailExpr {b l : Bytes} {g : Captures} (hl : starts l = true) :
    (matchAt tailExpr ⟨b, l, g⟩ fun c => some c.captures) = some (tailCaptures l g) := by
  have hne : word l ≠ [] := word_ne_nil hl
  have hmatch := matchAt_commandExpr (b := b) (r := afterWord l) (g := g)
    (k := fun c => matchAt paramsExpr c fun c => matchAt restExpr c fun c =>
      matchAt (look endLine) c fun c => some c.captures)
    (v := tailCaptures l g) hne (sp_notMem_word l) (afterWord_eq_nil_or l) fun b' => by
      rw [paramsExpr, matchAt_group]
      refine matchAt_upTo_middleExpr 14 b' (afterWord l) fun b'' => ?_
      have hcap := Cursor.capture_append 7 b' b''
        ((takeMiddles 14 (afterWord l)).1.flatMap (SP :: ·)) (takeMiddles 14 (afterWord l)).2
        (record 6 (some (word l)) g) (record 6 (some (word l)) g)
      rw [takeMiddles_append] at hcap
      rw [hcap]
      exact matchAt_restExpr (takeMiddles_rest 14 _ (afterWord_eq_nil_or l))
  rwa [word_append_afterWord] at hmatch

/-- Where no command can start nothing matches. -/
theorem matchAt_tailExpr_none {b l : Bytes} {g : Captures} {k : Cursor Byte → Option β}
    (hl : starts l = false) : matchAt tailExpr ⟨b, l, g⟩ k = none := by
  match l, hl with
  | [], _ => rfl
  | a :: l, hl =>
      have ha : a = SP := by simpa using hl
      subst ha
      simp [tailExpr, commandExpr, noneOf, matchAt_sat_cons]

/-! ### The prefix

In this section `close` is what is left to do once the nick, the user and the host have
been passed: close the prefix at a space and go on. All that matters of it is that what it
does depends on the text ahead and on the captures only (`hC`), and that it fails unless a
space lies ahead (`hspace`). -/

section Prefix

variable {close : Cursor Byte → Option β} {C : Bytes → Captures → Option β}

/-- A host starts with an at sign, and where there is none it has no match. -/
theorem matchAt_hostExpr_none {b r : Bytes} {g : Captures} (h : r.head? ≠ some AT) :
    matchAt hostExpr ⟨b, r, g⟩ close = none := by
  rw [hostExpr, matchAt_all_cons, matchAt_lit_of_head b r g _ h]

/-- From the at sign on, the host is a word. -/
theorem matchAt_hostExpr (hC : ∀ b l g, close ⟨b, l, g⟩ = C l g)
    (hspace : ∀ l g, l.head? ≠ some SP → C l g = none) (b r : Bytes) (g : Captures) :
    matchAt hostExpr ⟨b, AT :: r, g⟩ close =
      C (afterWord r) (record 5 (some (word r)) g) := by
  have hcap := Cursor.capture_append 5 (AT :: b) ((word r).reverse ++ AT :: b) (word r)
    (afterWord r) g g
  rw [word_append_afterWord] at hcap
  simp only [hostExpr, matchAt_all_cons, matchAt_all_nil, matchAt_lit_self, matchAt_group, noneOf]
  have hstar := matchAt_star_of_fail (p := fun a => !([SP].contains a)) (b := AT :: b) (w := word r)
    (l := afterWord r) (g := g) (k := fun c' => close (Cursor.capture 5 ⟨AT :: b, r, g⟩ c'))
    (fun a ha => by simpa using ne_of_mem_word ha)
    (by rcases afterWord_eq_nil_or r with h | ⟨t, h⟩ <;> simp [h])
    (fun b' a w' ha => by
      have hne : a ≠ SP := ne_of_mem_word ha
      exact (hC _ _ _).trans (hspace _ _ (by simpa using hne)))
  rw [word_append_afterWord] at hstar
  rw [hstar, hcap, hC]
  rfl

/-- The user runs to the next at sign, for the host can start nowhere else. -/
theorem matchAt_userExpr (hC : ∀ b l g, close ⟨b, l, g⟩ = C l g)
    (hspace : ∀ l g, l.head? ≠ some SP → C l g = none) (b r : Bytes) (g : Captures) :
    (matchAt userExpr ⟨b, BANG :: r, g⟩ fun c => matchAt hostExpr c close) =
      match r.dropWhile (· != AT) with
      | [] => none
      | _ :: r' => C (afterWord r')
          (record 5 (some (word r')) (record 4 (some (r.takeWhile (· != AT))) g)) := by
  have hcap := Cursor.capture_append 4 (BANG :: b)
    ((r.takeWhile (· != AT)).reverse ++ BANG :: b) (r.takeWhile (· != AT))
    (r.dropWhile (· != AT)) g g
  rw [List.takeWhile_append_dropWhile] at hcap
  have hstar := matchAt_star_of_fail (p := fun a => !([AT].contains a)) (b := BANG :: b)
    (w := r.takeWhile (· != AT)) (l := r.dropWhile (· != AT)) (g := g)
    (k := fun c' => matchAt hostExpr (Cursor.capture 4 ⟨BANG :: b, r, g⟩ c') close)
    (fun a ha => by simpa using List.mem_takeWhile_imp ha)
    (fun a ha => by
      have := List.head?_dropWhile_not (· != AT) r
      rw [Option.mem_def.mp ha] at this
      simpa using this)
    (fun b' a w' ha => by
      have hne : a ≠ AT := by simpa using List.mem_takeWhile_imp ha
      exact matchAt_hostExpr_none (by simpa using hne))
  rw [List.takeWhile_append_dropWhile, hcap] at hstar
  have hbang : (BANG :: r).head? ≠ some AT := by simp only [List.head?_cons]; decide
  rw [userExpr, matchAt_opt, matchAt_hostExpr_none hbang]
  simp only [matchAt_all_cons, matchAt_all_nil, matchAt_lit_self, matchAt_group, noneOf, hstar]
  cases h : r.dropWhile (· != AT) with
  | nil => rfl
  | cons a r' =>
      obtain rfl : a = AT := eq_of_dropWhile_bne h
      simp [matchAt_hostExpr hC hspace, record]

/-- Neither a user nor a host: the text goes on with something else. -/
theorem matchAt_userHostExpr_skip (hC : ∀ b l g, close ⟨b, l, g⟩ = C l g) {b r : Bytes}
    {g : Captures} (hb : r.head? ≠ some BANG) (ha : r.head? ≠ some AT) :
    matchAt userHostExpr ⟨b, r, g⟩ close = C r g := by
  rw [userHostExpr, matchAt_opt]
  simp only [matchAt_all_cons, matchAt_all_nil, userExpr, matchAt_opt,
    matchAt_lit_of_head b r g _ hb, matchAt_hostExpr_none ha, hC]
  rfl

/-- At an at sign there is no user: the host is the word behind the sign, whatever the group of the
user is tried on. -/
theorem matchAt_userHostExpr_at (hC : ∀ b l g, close ⟨b, l, g⟩ = C l g)
    (hspace : ∀ l g, l.head? ≠ some SP → C l g = none) (b r : Bytes) (g : Captures) :
    matchAt userHostExpr ⟨b, AT :: r, g⟩ close = C (afterWord r) (record 5 (some (word r)) g) := by
  have hat : C (AT :: r) g = none := hspace _ _ (by simp only [List.head?_cons]; decide)
  rw [userHostExpr, matchAt_opt, hC, hat]
  simp only [matchAt_all_cons, matchAt_all_nil, userExpr, matchAt_opt,
    matchAt_lit_of_ne b r g _ (show AT ≠ BANG by decide), matchAt_hostExpr hC hspace]
  simp

/-- A user, and the host that must follow it. -/
theorem matchAt_userHostExpr_bang (hC : ∀ b l g, close ⟨b, l, g⟩ = C l g)
    (hspace : ∀ l g, l.head? ≠ some SP → C l g = none) (b r : Bytes) (g : Captures) :
    matchAt userHostExpr ⟨b, BANG :: r, g⟩ close =
      match r.dropWhile (· != AT) with
      | [] => none
      | _ :: r' => C (afterWord r')
          (record 5 (some (word r')) (record 4 (some (r.takeWhile (· != AT))) g)) := by
  have hbang : C (BANG :: r) g = none := hspace _ _ (by simp only [List.head?_cons]; decide)
  rw [userHostExpr, matchAt_opt, hC, hbang]
  simp only [matchAt_all_cons, matchAt_all_nil, matchAt_userExpr hC hspace]
  simp

end Prefix

/-- The first byte that is not one of a nick is an at sign, an exclamation mark or a space. -/
theorem eq_of_dropWhile_isNick {t r : Bytes} {a : Byte} (h : t.dropWhile isNick = a :: r) :
    a = AT ∨ a = BANG ∨ a = SP := by
  have hnick := List.head?_dropWhile_not isNick t
  rw [h] at hnick
  by_contra hne
  simp only [not_or] at hne
  simp [isNick, hne] at hnick

/-- What closing the prefix `t` does, as a function of the text ahead and the captures: at a
space the prefix is captured and the continuation `K` takes over. -/
def closePrefix (t : Bytes) (K : Bytes → Captures → Option β) (l : Bytes) (g : Captures) :
    Option β :=
  if l.head? = some SP then K l.tail (record 2 (some (t.take (t.length - l.length))) g) else none

/-- A prefix has to be closed by a space, and where there is none it has no match. -/
theorem closePrefix_of_head {t l : Bytes} {K : Bytes → Captures → Option β} {g : Captures}
    (h : l.head? ≠ some SP) : closePrefix t K l g = none :=
  if_neg h

/-- Where the space follows, the prefix is all that has been passed since its beginning. -/
theorem closePrefix_append {t w r : Bytes} (K : Bytes → Captures → Option β) (g : Captures)
    (ht : t = w ++ SP :: r) : closePrefix t K (SP :: r) g = K r (record 2 (some w) g) := by
  simp [closePrefix, ht]

section Origin

variable {k : Cursor Byte → Option β} {K : Bytes → Captures → Option β}

/-- The end of the prefix: the space behind it is passed, and the text since its beginning is
captured. -/
theorem matchAt_close (hk : ∀ b l g, k ⟨b, l, g⟩ = K l g) (b t : Bytes) (g : Captures)
    (b' l : Bytes) (g' : Captures) :
    matchAt (lit SP) (Cursor.capture 2 ⟨b, t, g⟩ ⟨b', l, g'⟩) k = closePrefix t K l g' := by
  match l with
  | [] => rfl
  | a :: l =>
      by_cases ha : a = SP
      · subst ha
        simp only [Cursor.capture, matchAt_lit_self, hk]
        rfl
      · rw [Cursor.capture, matchAt_lit_of_ne _ _ _ _ ha, closePrefix_of_head (by simpa using ha)]

/-- The nick runs to the first byte that is not one of a nick, for neither a user nor a
host nor the end of the prefix can come before it. -/
theorem matchAt_nick (hk : ∀ b l g, k ⟨b, l, g⟩ = K l g) (b t : Bytes) (g : Captures) :
    (matchAt (group 2 (all [group 3 (star (noneOf [AT, BANG, SP])), userHostExpr])) ⟨b, t, g⟩
      fun c => matchAt (lit SP) c k) =
    matchAt userHostExpr ⟨(t.takeWhile isNick).reverse ++ b, t.dropWhile isNick,
        record 3 (some (t.takeWhile isNick)) g⟩
      fun c => matchAt (lit SP) (Cursor.capture 2 ⟨b, t, g⟩ c) k := by
  have hstar := matchAt_star_of_fail (p := isNick) (b := b) (w := t.takeWhile isNick)
    (l := t.dropWhile isNick) (g := g)
    (k := fun c => matchAt userHostExpr (Cursor.capture 3 ⟨b, t, g⟩ c)
      fun c => matchAt (lit SP) (Cursor.capture 2 ⟨b, t, g⟩ c) k)
    (fun a ha => List.mem_takeWhile_imp ha)
    (fun a ha => by
      have := List.head?_dropWhile_not isNick t
      rwa [Option.mem_def.mp ha] at this)
    (fun b' a w' ha => by
      obtain ⟨hat, hbang, hsp⟩ : a ≠ AT ∧ a ≠ BANG ∧ a ≠ SP := by
        have := List.mem_takeWhile_imp ha
        simpa [isNick] using this
      rw [Cursor.capture, matchAt_userHostExpr_skip (matchAt_close hk b t g)
        (by simpa using hbang) (by simpa using hat)]
      exact closePrefix_of_head (by simpa using hsp))
  have hcap := Cursor.capture_append 3 b ((t.takeWhile isNick).reverse ++ b) (t.takeWhile isNick)
    (t.dropWhile isNick) g g
  rw [List.takeWhile_append_dropWhile] at hstar hcap
  rw [hcap] at hstar
  exact hstar

/-- **The prefix group closes in one way only**, the one `cutOrigin` finds. Each of its parts ends
at a byte that the part itself cannot contain. -/
theorem matchAt_originGroup (hk : ∀ b l g, k ⟨b, l, g⟩ = K l g) (b t : Bytes) (g : Captures) :
    (matchAt (group 2 (all [group 3 (star (noneOf [AT, BANG, SP])), userHostExpr])) ⟨b, t, g⟩
      fun c => matchAt (lit SP) c k) =
      (cutOrigin t).bind fun x => K x.2 (x.1.record g) := by
  have hclose := matchAt_close hk b t g
  have hspace : ∀ l g', l.head? ≠ some SP → closePrefix t K l g' = none :=
    fun l g' => closePrefix_of_head
  have htext : t.takeWhile isNick ++ t.dropWhile isNick = t := List.takeWhile_append_dropWhile
  rw [matchAt_nick hk, cutOrigin]
  cases hr : t.dropWhile isNick with
  | nil =>
      rw [matchAt_userHostExpr_skip hclose (by simp) (by simp)]
      rfl
  | cons a r =>
      rw [hr] at htext
      rcases eq_of_dropWhile_isNick hr with rfl | rfl | rfl
      · -- a host
        rw [matchAt_userHostExpr_at hclose hspace]
        rcases afterWord_eq_nil_or r with h | ⟨r', h⟩
        · simp +decide [h, closePrefix]
        · have ht : t = (t.takeWhile isNick ++ AT :: word r) ++ SP :: r' := by
            rw [List.append_assoc, List.cons_append, ← h, word_append_afterWord, htext]
          rw [h, closePrefix_append K _ ht]
          simp +decide [h, Origin.record, record, Origin.render]
      · -- a user and a host
        rw [matchAt_userHostExpr_bang hclose hspace]
        have hr' : r.takeWhile (· != AT) ++ r.dropWhile (· != AT) = r :=
          List.takeWhile_append_dropWhile
        cases hat : r.dropWhile (· != AT) with
        | nil => simp +decide [hat]
        | cons a r' =>
            have ha : a = AT := eq_of_dropWhile_bne hat
            rw [hat, ha] at hr'
            rcases afterWord_eq_nil_or r' with h | ⟨r'', h⟩
            · simp +decide [hat, h, closePrefix]
            · have ht : t = (t.takeWhile isNick ++ BANG :: r.takeWhile (· != AT) ++
                  AT :: word r') ++ SP :: r'' := by
                rw [List.append_assoc, List.cons_append, ← h, word_append_afterWord,
                  List.append_assoc, List.cons_append, hr', htext]
              simp only [h]
              rw [closePrefix_append K _ ht]
              simp +decide [hat, h, Origin.record, record, Origin.render]
      · -- the nick alone
        rw [matchAt_userHostExpr_skip hclose (by simp only [List.head?_cons]; decide)
          (by simp only [List.head?_cons]; decide), closePrefix_append K _ htext.symm]
        simp [Origin.record, record, Origin.render]

end Origin

/-! ### The whole expression

The continuations of the prefix and of the tags accept exactly where a command can start,
and what they then return depends on the text ahead and the captures only. -/

section Whole

variable {γ : Type*} {k : Cursor Byte → Option γ} {F : Bytes → Captures → γ}

/-- The prefix group takes the origin that `splitOrigin` finds. -/
theorem matchAt_prefixExpr
    (hk : ∀ b l g, k ⟨b, l, g⟩ = if starts l then some (F l g) else none)
    (b l : Bytes) (g : Captures) :
    matchAt prefixExpr ⟨b, l, g⟩ k =
      if starts l then
        some (F (splitOrigin l).2 ((splitOrigin l).1.elim g fun o => o.record g))
      else
        none := by
  rw [prefixExpr, matchAt_opt]
  match l with
  | [] => simp [hk]
  | a :: t =>
      by_cases ha : a = COLON
      · subst ha
        have hstart : starts (COLON :: t) = true := by simp only [starts_cons]; decide
        simp only [matchAt_all_cons, matchAt_all_nil, matchAt_lit_self]
        rw [matchAt_originGroup (K := fun l g => if starts l then some (F l g) else none) hk, hk,
          if_pos hstart, if_pos hstart, splitOrigin, if_pos rfl]
        cases hcut : cutOrigin t with
        | none => rfl
        | some x =>
            obtain ⟨o, r⟩ := x
            by_cases hr : starts r = true
            · simp [hr]
            · simp [hr]
      · rw [matchAt_all_cons, matchAt_lit_of_ne b t g _ ha, hk, splitOrigin, if_neg ha]
        rfl

/-- The lazy tags end at the first space after which a command can start. -/
theorem matchAt_lazyTags
    (hk : ∀ b l g, k ⟨b, l, g⟩ = if starts l then some (F l g) else none)
    (b₀ : Bytes) (g : Captures) (t w b : Bytes) :
    (matchAt (lazyStar any) ⟨b, t, g⟩ fun c =>
      matchAt (lit SP) (Cursor.capture 1 ⟨b₀, w ++ t, g⟩ c) k) =
      (cutTags t).map fun x => F x.2 (record 1 (some (w ++ x.1)) g) := by
  induction t generalizing w b with
  | nil => rw [any, matchAt_lazyStar_nil]; rfl
  | cons a t ih =>
      have hcap := Cursor.capture_append 1 b₀ b w (a :: t) g g
      have hrest := ih (w ++ [a]) (a :: b)
      rw [List.append_assoc, List.singleton_append] at hrest
      rw [any] at hrest ⊢
      rw [matchAt_lazyStar_cons, hcap, if_pos rfl, hrest, cutTags]
      by_cases ha : a = SP
      · subst ha
        rw [matchAt_lit_self, hk]
        by_cases ht : starts t = true
        · simp [ht, record]
        · simp [ht, Option.map_map, Function.comp_def]
      · rw [matchAt_lit_of_ne _ _ _ _ ha]
        simp [ha, Option.map_map, Function.comp_def]

/-- The tags group takes the tags that `splitTags` finds. -/
theorem matchAt_tagsExpr
    (hk : ∀ b l g, k ⟨b, l, g⟩ = if starts l then some (F l g) else none)
    (b l : Bytes) (g : Captures) :
    matchAt tagsExpr ⟨b, l, g⟩ k =
      if starts l then some (F (splitTags l).2 (record 1 (splitTags l).1 g)) else none := by
  rw [tagsExpr, matchAt_opt]
  match l with
  | [] => simp [hk]
  | a :: t =>
      by_cases ha : a = AT
      · subst ha
        have hstart : starts (AT :: t) = true := by simp only [starts_cons]; decide
        have htags := matchAt_lazyTags hk (AT :: b) g t [] (AT :: b)
        rw [List.nil_append] at htags
        simp only [matchAt_all_cons, matchAt_all_nil, matchAt_lit_self, matchAt_group]
        rw [htags, hk, if_pos hstart, if_pos hstart, splitTags, if_pos rfl]
        cases hcut : cutTags t with
        | none => rfl
        | some x => rfl
      · rw [matchAt_all_cons, matchAt_lit_of_ne b t g _ ha, hk, splitTags, if_neg ha]
        rfl

end Whole

/-- **The message expression at one point of the text**: it matches exactly where a line
and a command can start, and its captures are those of the split line. -/
theorem matchHere_expr (b l : Bytes) :
    matchHere expr b l =
      if startLine b.head? l.head? && starts l then some (split l).captures else none := by
  have htail : ∀ b l g, (matchAt tailExpr ⟨b, l, g⟩ fun c => some c.captures) =
      if starts l then some (tailCaptures l g) else none := by
    intro b l g
    by_cases hl : starts l = true
    · rw [if_pos hl, matchAt_tailExpr hl]
    · rw [if_neg hl, matchAt_tailExpr_none (by simpa using hl)]
  have hprefix := matchAt_prefixExpr (F := tailCaptures)
    (k := fun c => matchAt tailExpr c fun c => some c.captures) htail
  have hmatch := matchAt_tagsExpr
    (F := fun l g => tailCaptures (splitOrigin l).2 ((splitOrigin l).1.elim g fun o => o.record g))
    (k := fun c => matchAt prefixExpr c fun c => matchAt tailExpr c fun c => some c.captures)
    hprefix b l fun _ => none
  have hexpr : matchHere expr b l =
      if startLine b.head? l.head? then
        matchAt tagsExpr ⟨b, l, fun _ => none⟩ fun c => matchAt prefixExpr c fun c =>
          matchAt tailExpr c fun c => some c.captures
      else
        none := rfl
  rw [hexpr, hmatch]
  by_cases hb : startLine b.head? l.head? = true
  · simp only [hb, if_true, Bool.true_and]
    rfl
  · simp [hb]

/-- The search for the message expression, from any point of the text. -/
theorem searchFrom_expr (b l : Bytes) :
    searchFrom expr b l = (locateFrom b.head? l).map fun l => (split l).captures := by
  induction l generalizing b with
  | nil => simp [searchFrom, matchHere_expr, locateFrom]
  | cons a l ih =>
      by_cases h : (startLine b.head? (some a) && a != SP) = true
      · have hhere : matchHere expr b (a :: l) = some (split (a :: l)).captures := by
          rw [matchHere_expr]
          exact if_pos h
        rw [searchFrom_eq_of_matchHere hhere, locateFrom, if_pos h]
        rfl
      · have hhere : matchHere expr b (a :: l) = none := by
          rw [matchHere_expr]
          exact if_neg h
        rw [searchFrom_skip hhere, ih, locateFrom, if_neg h]
        rfl

/-- **Searching for the message expression is locating and splitting a line.** The matcher of the
expression tries all ways in order; the two functions compute the first that succeeds. -/
theorem search_expr (raw : Bytes) :
    search expr raw = (locate raw).map fun l => (split l).captures :=
  searchFrom_expr [] raw

/-! ### The constructor -/

/-- Splitting the captured middle parameters at the spaces gives an empty string and the
parameters. -/
theorem splitOn_flatMap {ms : List Bytes} (hms : ∀ m ∈ ms, SP ∉ m) :
    (ms.flatMap (SP :: ·)).splitOn SP = [] :: ms := by
  induction ms with
  | nil => rfl
  | cons m ms ih =>
      have hm : SP ∉ m := hms m List.mem_cons_self
      have hrest := ih fun x hx => hms x (List.mem_cons_of_mem m hx)
      rw [List.flatMap_cons, List.cons_append, List.splitOn_cons_eq_if_modifyHead, if_pos (by simp)]
      cases ms with
      | nil => rw [List.flatMap_nil, List.append_nil, List.splitOn_eq_singleton hm]
      | cons m' ms =>
          rw [List.flatMap_cons, List.cons_append, List.splitOn_cons_eq_if_modifyHead,
            if_pos (by simp)] at hrest
          obtain ⟨-, hrest⟩ := List.cons.inj hrest
          rw [List.flatMap_cons, List.cons_append, List.splitOn_append_cons_self_of_not_mem hm,
            hrest]

namespace Line

variable (l : Line)

/-- The message that a split line makes. -/
def toMessage (raw : Bytes) : Message where
  raw := raw
  tags := ((l.tags.getD []).splitOn SEMICOLON).foldl Message.addTag []
  pfx := l.origin.elim [] Origin.render
  nickname := l.origin.elim [] Origin.nick
  user := (l.origin.bind Origin.user).getD []
  host := (l.origin.bind Origin.host).getD []
  command := l.command
  params := l.middles ++ [l.trailing.getD []]

/-- An update of one capture leaves the others. -/
theorem record_of_ne {i j : ℕ} (h : j ≠ i) (x : Option Bytes) (g : Captures) :
    record i x g j = g j := by
  cases x with
  | none => rfl
  | some w => exact Function.update_of_ne h _ _

/-- An update of a capture that was not made before. -/
theorem record_self {i : ℕ} {g : Captures} (h : g i = none) (x : Option Bytes) :
    record i x g i = x := by
  cases x with
  | none => exact h
  | some w => exact Function.update_self ..

/-- The part of a line that each of the captures holds. -/
def part : ℕ → Option Bytes
  | 1 => l.tags
  | 2 => l.origin.map Origin.render
  | 3 => l.origin.map Origin.nick
  | 4 => l.origin.bind Origin.user
  | 5 => l.origin.bind Origin.host
  | 6 => some l.command
  | 7 => some (l.middles.flatMap (SP :: ·))
  | 8 => l.trailing
  | _ => none

/-- The captures of a legal line are its parts. -/
theorem captures_eq_part : l.captures = l.part := by
  obtain ⟨tags, origin, command, middles, trailing⟩ := l
  funext i
  unfold captures recordTail Origin.record
  match i with
  | 0 | 1 | 2 | 3 | 4 | 5 | 6 | 7 | 8 | i + 9 =>
      cases origin with
      | none => simp [part, record_of_ne, record_self]
      | some o => simp [part, record_of_ne, record_self]

/-- What the constructor makes of the captures of a line. -/
theorem ofCaptures_captures (raw : Bytes) (hms : ∀ m ∈ l.middles, SP ∉ m) :
    (Message.ofCaptures raw fun i => (l.captures i).getD []) = l.toMessage raw := by
  simp only [Message.ofCaptures, toMessage, captures_eq_part, part, Option.getD_some,
    splitOn_flatMap hms, List.drop_succ_cons, List.drop_zero]
  cases l.origin <;> rfl

end Line

/-- **The constructor of `Message`, without the expression**: locate the line, split it, and
read off the fields. -/
theorem Message.ofRaw_eq (raw : Bytes) :
    Message.ofRaw raw = (locate raw).elim {} fun l => (split l).toMessage raw := by
  rw [Message.ofRaw, search_expr]
  cases locate raw with
  | none => rfl
  | some l => exact Line.ofCaptures_captures (split l) raw (sp_notMem_takeMiddles 14 _)

namespace LegalLine

/-- The message made of a line with a legal header. -/
theorem ofRaw_header_append (l : LegalLine) {r : Bytes} (hr : r = [] ∨ ∃ t, r = SP :: t) :
    Message.ofRaw (l.header ++ r) =
      Line.toMessage
        { l.toLine with
          middles := (takeMiddles 14 r).1, trailing := cutTrailing (takeMiddles 14 r).2 }
        (l.header ++ r) := by
  rw [Message.ofRaw_eq, l.locate_header_append, Option.elim_some, l.split_header_append hr]

/-- **The parser recovers every legal line.** The command, the prefix with its nick, user and host,
and the parameters are those from which the line was rendered. -/
theorem ofRaw_render (l : LegalLine) : Message.ofRaw l.render = l.toMessage l.render := by
  rw [Message.ofRaw_eq, Line.render, l.locate_header_append, Option.elim_some, ← Line.render,
    l.split_render]

/-- **The header of a line is recovered exactly**, whatever follows the command: nothing, or
a space and any text at all, and so in particular every list of parameters, with or without
a colon before the last. -/
theorem ofRaw_header (l : LegalLine) (rest : Option Bytes) :
    let raw := l.header ++ rest.elim [] (SP :: ·)
    (search expr raw).map (fun what => what 1) = some l.tags ∧
      (Message.ofRaw raw).pfx = l.origin.elim [] Origin.render ∧
      (Message.ofRaw raw).nickname = l.origin.elim [] Origin.nick ∧
      (Message.ofRaw raw).user = (l.origin.bind Origin.user).getD [] ∧
      (Message.ofRaw raw).host = (l.origin.bind Origin.host).getD [] ∧
      (Message.ofRaw raw).command = l.command := by
  have hr : rest.elim [] (SP :: ·) = [] ∨ ∃ t, rest.elim [] (SP :: ·) = SP :: t := by
    cases rest with
    | none => exact Or.inl rfl
    | some t => exact Or.inr ⟨t, rfl⟩
  intro raw
  refine ⟨?_, ?_⟩
  · rw [search_expr, l.locate_header_append, Option.map_some, l.split_header_append hr,
      Option.map_some, Line.captures_eq_part]
    rfl
  · rw [l.ofRaw_header_append hr]
    exact ⟨rfl, rfl, rfl, rfl, rfl⟩

/-- **When the parameters are recovered**: they are the middle parameters followed by the
trailing one exactly when there is a trailing one. -/
theorem params_eq_iff (l : LegalLine) :
    (Message.ofRaw l.render).params = l.middles ++ l.trailing.toList ↔ l.trailing.isSome := by
  rw [l.ofRaw_render]
  cases h : l.trailing <;> simp [Line.toMessage, h]

/-- A line with one middle parameter and no trailing one. -/
def pingServer : LegalLine :=
  ofLine { command := ascii "PING", middles := [ascii "tmi.twitch.tv"] } rfl

/-- The one parameter of `PING tmi.twitch.tv` is followed by an empty one. -/
theorem params_pingServer :
    (Message.ofRaw pingServer.render).params ≠
      pingServer.middles ++ pingServer.trailing.toList := by
  rw [ofRaw_render]
  decide

end LegalLine

end BoostIrc
