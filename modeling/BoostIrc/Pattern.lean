import Mathlib.Data.List.Basic
import Mathlib.Logic.Function.Basic

/-!
# Backtracking Patterns

A small library for Perl-style regular expressions over an arbitrary alphabet: the
patterns of a backtracking matcher (`Pattern`), their operational meaning (`matchAt`),
and the leftmost search (`search`).

The meaning is the usual one of a backtracking engine. `matchAt r c k` runs the pattern
`r` from the cursor `c`, tries its ways to match in order of preference, and returns the
first result the continuation `k` accepts. A greedy repetition prefers one more
iteration, a lazy one prefers to stop, and an iteration that consumes nothing ends its
repetition. Captures travel with the cursor, so the captures of an abandoned path are
abandoned with it.

## Main results

* `matchAt_seq`, `matchAt_all_cons`, `matchAt_group`, `matchAt_opt`: the equations that
  peel a pattern off the front of a match.
* `matchAt_star_of_some`: a greedy run of symbols takes all it can when the continuation
  accepts there.
* `matchAt_star_of_fail`: a greedy run takes all it can when the continuation rejects
  every shorter stop.
* `matchAt_lazyStar_cons`: a lazy run of symbols, one symbol at a time.
* `searchFrom_eq_of_matchHere`, `searchFrom_skip`: how the leftmost search moves.
-/

namespace Backtrack

universe u v

/-- A position in the subject: the symbols already passed (nearest first), the symbols
still ahead, and the captures made so far. -/
structure Cursor (α : Type u) where
  before : List α
  after : List α
  captures : ℕ → Option (List α)

namespace Cursor

variable {α : Type u}

/-- The symbols lying between a cursor and a later one. -/
def passed (c c' : Cursor α) : List α :=
  c.after.take (c.after.length - c'.after.length)

/-- Record as capture `i` what was passed since `c`. -/
def capture (i : ℕ) (c c' : Cursor α) : Cursor α :=
  { c' with captures := Function.update c'.captures i (some (c.passed c')) }

/-- Between a cursor and the one `w` symbols later lies `w`. -/
theorem passed_append (b b' w l : List α) (g g' : ℕ → Option (List α)) :
    passed ⟨b, w ++ l, g⟩ ⟨b', l, g'⟩ = w := by
  simp [passed]

/-- Capturing `w` symbols records exactly `w`. -/
theorem capture_append (i : ℕ) (b b' w l : List α) (g g' : ℕ → Option (List α)) :
    capture i ⟨b, w ++ l, g⟩ ⟨b', l, g'⟩ = ⟨b', l, Function.update g' i (some w)⟩ := by
  simp only [capture, passed_append]

end Cursor

/-- A **backtracking pattern** over `α`. `look` is a zero-width test of the symbols on
either side of the cursor, `rep` a repetition (greedy or lazy, possibly bounded), `group`
a numbered capture. -/
inductive Pattern (α : Type u) where
  | empty
  | sat (p : α → Bool)
  | look (p : Option α → Option α → Bool)
  | seq (r s : Pattern α)
  | rep (greedy : Bool) (max : Option ℕ) (r : Pattern α)
  | group (i : ℕ) (r : Pattern α)

/-- The iterations of a repetition: at most `n` further ones, in the order of preference
that `greedy` says. An iteration that consumed nothing is the last. -/
def iterate {α : Type u} {β : Type v}
    (m : Cursor α → (Cursor α → Option β) → Option β) (greedy : Bool) :
    ℕ → Cursor α → (Cursor α → Option β) → Option β
  | 0, c, k => k c
  | n + 1, c, k =>
      if greedy then
        (m c fun c' => if c'.after.length < c.after.length then iterate m greedy n c' k else k c')
          <|> k c
      else
        k c <|>
          m c fun c' => if c'.after.length < c.after.length then iterate m greedy n c' k else k c'

namespace Pattern

variable {α : Type u} {β : Type v}

/-- **The matcher**: the first way to match the pattern at the cursor that the
continuation accepts. Without a bound a repetition has one iteration for each symbol
ahead and one empty iteration at the end. -/
def matchAt : Pattern α → Cursor α → (Cursor α → Option β) → Option β
  | empty, c, k => k c
  | sat p, ⟨b, l, g⟩, k =>
      match l with
      | [] => none
      | a :: l => if p a then k ⟨a :: b, l, g⟩ else none
  | look p, c, k => if p c.before.head? c.after.head? then k c else none
  | seq r s, c, k => matchAt r c fun c' => matchAt s c' k
  | rep greedy max r, c, k =>
      iterate (fun c k => matchAt r c k) greedy (max.getD (c.after.length + 1)) c k
  | group i r, c, k => matchAt r c fun c' => k (Cursor.capture i c c')

/-- The patterns of a list, one after another. -/
def all : List (Pattern α) → Pattern α
  | [] => empty
  | r :: rs => seq r (all rs)

/-- The symbol `a`. -/
def lit [DecidableEq α] (a : α) : Pattern α :=
  sat (· == a)

/-- A symbol outside the list. -/
def noneOf [DecidableEq α] (as : List α) : Pattern α :=
  sat fun a => !as.contains a

/-- Any symbol at all. -/
def any : Pattern α :=
  sat fun _ => true

/-- Greedy `r?`. -/
def opt (r : Pattern α) : Pattern α :=
  rep true (some 1) r

/-- Greedy `r*`. -/
def star (r : Pattern α) : Pattern α :=
  rep true none r

/-- Lazy `r*?`. -/
def lazyStar (r : Pattern α) : Pattern α :=
  rep false none r

/-- Greedy `r+`. -/
def plus (r : Pattern α) : Pattern α :=
  seq r (star r)

/-- Greedy `r{0,n}`. -/
def upTo (n : ℕ) (r : Pattern α) : Pattern α :=
  rep true (some n) r

/-- Match at one point of the subject with no captures made yet, and report the captures. -/
def matchHere (r : Pattern α) (b l : List α) : Option (ℕ → Option (List α)) :=
  matchAt r ⟨b, l, fun _ => none⟩ fun c => some c.captures

/-- Search from a given point of the subject: the first position, from left to right, at
which the pattern matches. -/
def searchFrom (r : Pattern α) : List α → List α → Option (ℕ → Option (List α))
  | b, [] => matchHere r b []
  | b, a :: l => matchHere r b (a :: l) <|> searchFrom r (a :: b) l

/-- **Leftmost search** in a whole subject: the captures of the match found. -/
def search (r : Pattern α) (l : List α) : Option (ℕ → Option (List α)) :=
  searchFrom r [] l

/-! ### Peeling a pattern off the front -/

section

variable (b l : List α) (g : ℕ → Option (List α)) (c : Cursor α) (k : Cursor α → Option β)

/-- A sequence is matched part by part: the second is tried at every end of the first, until what
follows has a match. -/
@[simp] theorem matchAt_seq (r s : Pattern α) :
    matchAt (seq r s) c k = matchAt r c fun c' => matchAt s c' k := rfl

/-- A sequence of no patterns matches the empty text. -/
@[simp] theorem matchAt_all_nil : matchAt (all []) c k = k c := rfl

/-- A sequence of patterns is matched from the first to the last. -/
@[simp] theorem matchAt_all_cons (r : Pattern α) (rs : List (Pattern α)) :
    matchAt (all (r :: rs)) c k = matchAt r c fun c' => matchAt (all rs) c' k := rfl

/-- A group is matched like its pattern, and what it has passed is captured under its number. -/
@[simp] theorem matchAt_group (i : ℕ) (r : Pattern α) :
    matchAt (group i r) c k = matchAt r c fun c' => k (Cursor.capture i c c') := rfl

/-- Nothing is left, so no element can be taken. -/
@[simp] theorem matchAt_sat_nil (p : α → Bool) : matchAt (sat p) ⟨b, [], g⟩ k = none := rfl

/-- The next element is taken if it meets the condition, and otherwise there is no match. -/
theorem matchAt_sat_cons (p : α → Bool) (a : α) :
    matchAt (sat p) ⟨b, a :: l, g⟩ k = if p a then k ⟨a :: b, l, g⟩ else none := rfl

/-- One or more times is once, and then as often as may be. -/
@[simp] theorem matchAt_plus (r : Pattern α) :
    matchAt (plus r) c k = matchAt r c fun c' => matchAt (star r) c' k := rfl

/-- An optional pattern is tried once, then skipped. -/
theorem matchAt_opt (r : Pattern α) :
    matchAt (opt r) c k = (matchAt r c k <|> k c) := by
  simp only [opt, matchAt, Option.getD_some, iterate, if_true, ite_self]

/-- A bounded repetition: one iteration more, then the rest, else stop. -/
theorem matchAt_upTo_succ (n : ℕ) (r : Pattern α) :
    matchAt (upTo (n + 1) r) c k =
      (matchAt r c (fun c' =>
        if c'.after.length < c.after.length then matchAt (upTo n r) c' k else k c') <|> k c) := by
  simp only [upTo, matchAt, Option.getD_some, iterate, if_true]

end

section Literals

variable [DecidableEq α] (b l : List α) (g : ℕ → Option (List α)) (k : Cursor α → Option β)

/-- Nothing is left, so the element is not there. -/
@[simp] theorem matchAt_lit_nil (a : α) : matchAt (lit a) ⟨b, [], g⟩ k = none := rfl

/-- The element that is asked for is taken. -/
@[simp] theorem matchAt_lit_self (a : α) :
    matchAt (lit a) ⟨b, a :: l, g⟩ k = k ⟨a :: b, l, g⟩ := by
  simp [lit, matchAt_sat_cons]

/-- Another element than the one that is asked for is not taken. -/
theorem matchAt_lit_of_ne {a a' : α} (h : a' ≠ a) :
    matchAt (lit a) ⟨b, a' :: l, g⟩ k = none := by
  simp [lit, matchAt_sat_cons, h]

/-- A literal fails wherever the next symbol, if any, is another one. -/
theorem matchAt_lit_of_head {a : α} (h : l.head? ≠ some a) :
    matchAt (lit a) ⟨b, l, g⟩ k = none := by
  cases l with
  | nil => rfl
  | cons a' l =>
      refine matchAt_lit_of_ne b l g k ?_
      rintro rfl
      exact h rfl

end Literals

/-! ### Runs of symbols -/

section Runs

variable {p : α → Bool} {b l w : List α} {g : ℕ → Option (List α)} {k : Cursor α → Option β}

/-- At the end of the text a greedy iteration ends, and what follows is tried. -/
theorem matchAt_star_nil : matchAt (star (sat p)) ⟨b, [], g⟩ k = k ⟨b, [], g⟩ := by
  simp [star, matchAt, iterate]

/-- A greedy iteration takes the next element if it can, and goes back to ending before it if what
follows has no match. -/
theorem matchAt_star_cons (a : α) :
    matchAt (star (sat p)) ⟨b, a :: l, g⟩ k =
      ((if p a then matchAt (star (sat p)) ⟨a :: b, l, g⟩ k else none) <|>
        k ⟨b, a :: l, g⟩) := by
  simp [star, matchAt, iterate]

/-- At the end of the text a lazy iteration ends, and what follows is tried. -/
theorem matchAt_lazyStar_nil : matchAt (lazyStar (sat p)) ⟨b, [], g⟩ k = k ⟨b, [], g⟩ := by
  simp [lazyStar, matchAt, iterate]

/-- A lazy run stops here if the continuation accepts, else takes one symbol. -/
theorem matchAt_lazyStar_cons (a : α) :
    matchAt (lazyStar (sat p)) ⟨b, a :: l, g⟩ k =
      (k ⟨b, a :: l, g⟩ <|>
        if p a then matchAt (lazyStar (sat p)) ⟨a :: b, l, g⟩ k else none) := by
  simp [lazyStar, matchAt, iterate]

/-- The end of a maximal run: no symbol of the class lies ahead. -/
theorem matchAt_star_stop (hl : ∀ a ∈ l.head?, p a = false) :
    matchAt (star (sat p)) ⟨b, l, g⟩ k = k ⟨b, l, g⟩ := by
  cases l with
  | nil => exact matchAt_star_nil
  | cons a l =>
      have ha : p a = false := hl a rfl
      simp [matchAt_star_cons, ha]

/-- **Greed pays**: a greedy run stops at the end of the maximal run whenever the
continuation accepts there. -/
theorem matchAt_star_of_some {v : β} (hw : ∀ a ∈ w, p a = true)
    (hl : ∀ a ∈ l.head?, p a = false) (hk : k ⟨w.reverse ++ b, l, g⟩ = some v) :
    matchAt (star (sat p)) ⟨b, w ++ l, g⟩ k = some v := by
  induction w generalizing b with
  | nil => rw [List.nil_append, matchAt_star_stop hl]; exact hk
  | cons a w ih =>
      have ha : p a = true := hw a List.mem_cons_self
      have hrest := ih (b := a :: b) (fun x hx => hw x (List.mem_cons_of_mem a hx))
        (by simpa using hk)
      rw [List.cons_append, matchAt_star_cons, if_pos ha, hrest]
      rfl

/-- **Backtracking is idle**: a greedy run stops at the end of the maximal run when the
continuation rejects every stop before it. -/
theorem matchAt_star_of_fail (hw : ∀ a ∈ w, p a = true) (hl : ∀ a ∈ l.head?, p a = false)
    (hk : ∀ b' a w', a ∈ w → k ⟨b', a :: w', g⟩ = none) :
    matchAt (star (sat p)) ⟨b, w ++ l, g⟩ k = k ⟨w.reverse ++ b, l, g⟩ := by
  induction w generalizing b with
  | nil => rw [List.nil_append, matchAt_star_stop hl]; rfl
  | cons a w ih =>
      have ha : p a = true := hw a List.mem_cons_self
      have hrest := ih (b := a :: b) (fun x hx => hw x (List.mem_cons_of_mem a hx))
        (fun b' x w' hx => hk b' x w' (List.mem_cons_of_mem a hx))
      rw [List.cons_append, matchAt_star_cons, if_pos ha, hrest,
        hk b a (w ++ l) List.mem_cons_self]
      simp

end Runs

/-! ### The leftmost search -/

/-- A match at the current position ends the search. -/
theorem searchFrom_eq_of_matchHere {r : Pattern α} {b l : List α}
    {g : ℕ → Option (List α)} (h : matchHere r b l = some g) : searchFrom r b l = some g := by
  cases l with
  | nil => exact h
  | cons a l => rw [searchFrom, h]; rfl

/-- Where the pattern does not match, the search moves on by one symbol. -/
theorem searchFrom_skip {r : Pattern α} {b l : List α} {a : α}
    (h : matchHere r b (a :: l) = none) :
    searchFrom r b (a :: l) = searchFrom r (a :: b) l := by
  rw [searchFrom, h]
  rfl

end Pattern

end Backtrack
