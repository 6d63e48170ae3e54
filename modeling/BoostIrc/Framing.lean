import Mathlib.Data.List.Basic
import Mathlib.Data.Nat.Notation
import Mathlib.Tactic.ByContra

/-!
# Streams of Records

A small library for formats in which one record follows another and each tells where it ends. A
`Reader` takes a record from the front of what has arrived, as soon as it is there as a whole; the
rest of the stream then has no influence on it (`stable`). So how the stream is cut does not matter,
and a part of a stream of records is read as a part of the records.

## Main results

* `Reader.readAll_append`: what has been read stays read when more arrives.
* `Reader.feed_eq`: **how the stream is cut does not matter.**
* `Reader.readAll_flatMap`: records are read as they were written.
* `Reader.exists_readAll_of_isPrefix`: **a part of them is read as those that are whole in it.**
-/

namespace Framing

universe u v w

/-- A **reader of records**: `next` takes a record from the front, if a whole one is there, and
leaves the rest. -/
structure Reader (α : Type u) (β : Type v) where
  next : List β → Option (α × List β)
  shorter : ∀ xs a rest, next xs = some (a, rest) → rest.length < xs.length
  stable : ∀ xs a rest ys, next xs = some (a, rest) → next (xs ++ ys) = some (a, rest ++ ys)

namespace Reader

variable {α : Type u} {β : Type v} (r : Reader α β)

/-- The first records that are there, `n` of them at most, and what is left behind them. -/
def readUpTo : ℕ → List β → List α × List β
  | 0, xs => ([], xs)
  | n + 1, xs =>
      match r.next xs with
      | none => ([], xs)
      | some (a, rest) => (a :: (readUpTo n rest).1, (readUpTo n rest).2)

/-- The records that are there, and what is left behind them. There are no more records than there
is in the stream. -/
def readAll (xs : List β) : List α × List β :=
  r.readUpTo xs.length xs

/-- The records of a stream that arrives in chunks, read as soon as they are there, and what is
left at the end. The first argument is what was left before. -/
def feed : List β → List (List β) → List α × List β
  | left, [] => ([], left)
  | left, chunk :: chunks =>
      let now := r.readAll (left ++ chunk)
      let later := feed now.2 chunks
      (now.1 ++ later.1, later.2)

/-- The record `a` is read from the front of what was written for it. -/
def Reads (written : List β) (a : α) : Prop :=
  ∀ rest, r.next (written ++ rest) = some (a, rest)

variable {r}

/-- Where no record can be read, none is, and nothing is taken. -/
theorem readUpTo_of_none {xs : List β} (h : r.next xs = none) (n : ℕ) :
    r.readUpTo n xs = ([], xs) := by
  cases n with
  | zero => rfl
  | succ n => simp only [readUpTo, h]

/-- The bound does not matter if it is great enough. -/
theorem readUpTo_eq_readAll {n : ℕ} {xs : List β} (h : xs.length ≤ n) :
    r.readUpTo n xs = r.readAll xs := by
  induction hm : xs.length using Nat.strongRecOn generalizing n xs with
  | ind m ih =>
      cases hnext : r.next xs with
      | none => rw [readAll, readUpTo_of_none hnext, readUpTo_of_none hnext]
      | some x =>
          obtain ⟨a, rest⟩ := x
          have hlt := r.shorter xs a rest hnext
          obtain ⟨n, rfl⟩ : ∃ k, n = k + 1 := Nat.exists_eq_succ_of_ne_zero (by omega)
          obtain ⟨k, hk⟩ : ∃ k, xs.length = k + 1 := Nat.exists_eq_succ_of_ne_zero (by omega)
          rw [readAll, hk]
          simp only [readUpTo, hnext]
          rw [ih rest.length (by omega) (by omega) rfl, ih rest.length (by omega) (by omega) rfl]

/-- Where no record can be read, all of the text is left. -/
theorem readAll_of_none {xs : List β} (h : r.next xs = none) : r.readAll xs = ([], xs) :=
  readUpTo_of_none h xs.length

/-- Where a record can be read, it is the first one, and the others are those of the rest. -/
theorem readAll_of_some {xs rest : List β} {a : α} (h : r.next xs = some (a, rest)) :
    r.readAll xs = (a :: (r.readAll rest).1, (r.readAll rest).2) := by
  have hlt := r.shorter xs a rest h
  obtain ⟨k, hk⟩ : ∃ k, xs.length = k + 1 := Nat.exists_eq_succ_of_ne_zero (by omega)
  rw [readAll, hk]
  simp only [readUpTo, h]
  rw [readUpTo_eq_readAll (by omega)]

/-- There is no record in an empty stream. -/
theorem readAll_nil : r.readAll [] = ([], []) :=
  rfl

/-- What is left has no record at its front. -/
theorem next_readAll (xs : List β) : r.next (r.readAll xs).2 = none := by
  induction hn : xs.length using Nat.strongRecOn generalizing xs with
  | ind n ih =>
      cases hnext : r.next xs with
      | none => rw [readAll_of_none hnext, hnext]
      | some x =>
          obtain ⟨a, rest⟩ := x
          rw [readAll_of_some hnext]
          exact ih rest.length (hn ▸ r.shorter xs a rest hnext) rest rfl

/-- **What has been read stays read** when more arrives, and the rest is read from what was left. A
reader that keeps the bytes it could not read yet loses nothing and reads nothing twice. -/
theorem readAll_append (xs ys : List β) :
    r.readAll (xs ++ ys) =
      ((r.readAll xs).1 ++ (r.readAll ((r.readAll xs).2 ++ ys)).1,
        (r.readAll ((r.readAll xs).2 ++ ys)).2) := by
  induction hn : xs.length using Nat.strongRecOn generalizing xs with
  | ind n ih =>
      cases hnext : r.next xs with
      | none =>
          rw [readAll_of_none hnext]
          rfl
      | some x =>
          obtain ⟨a, rest⟩ := x
          have hrest := ih rest.length (hn ▸ r.shorter xs a rest hnext) rest rfl
          rw [readAll_of_some hnext, readAll_of_some (r.stable xs a rest ys hnext), hrest]
          rfl

/-- **How the stream is cut does not matter**: the chunks are read as the whole. Only the bytes left
over are carried from one chunk to the next, and no record can be read of those that were left at
the start. -/
theorem feed_eq (left : List β) (chunks : List (List β)) (h : r.next left = none) :
    r.feed left chunks = r.readAll (left ++ chunks.flatten) := by
  induction chunks generalizing left with
  | nil => rw [List.flatten_nil, List.append_nil, readAll_of_none h, feed]
  | cons chunk chunks ih =>
      have hrest := ih (r.readAll (left ++ chunk)).2 (next_readAll _)
      rw [feed, List.flatten_cons, ← List.append_assoc, readAll_append (left ++ chunk), hrest]

/-! ### Records that were written -/

variable {γ : Type w} {write : γ → List β} {record : γ → α}

/-- A part of a record is not read as one: with more text it would be read as the same record, which
is longer. -/
theorem next_eq_none {part rest : List β} {a : α} (h : r.Reads (part ++ rest) a)
    (hrest : rest ≠ []) : r.next part = none := by
  by_contra hsome
  obtain ⟨⟨b, left⟩, hnext⟩ := Option.ne_none_iff_exists'.mp hsome
  have hwhole := r.stable part b left rest hnext
  have hempty := h []
  rw [List.append_nil, hwhole] at hempty
  have hleft : left ++ rest = [] := (Prod.mk.inj (Option.some.inj hempty)).2
  exact hrest (List.append_eq_nil_iff.mp hleft).2

/-- **Records are read as they were written**, one after the other. The condition is on one record
alone: it is read as it was written, whatever stands behind it. -/
theorem readAll_flatMap {xs : List γ} (h : ∀ x ∈ xs, r.Reads (write x) (record x))
    (rest : List β) :
    r.readAll (xs.flatMap write ++ rest) =
      (xs.map record ++ (r.readAll rest).1, (r.readAll rest).2) := by
  induction xs with
  | nil => rfl
  | cons x xs ih =>
      have hrest := ih fun y hy => h y (List.mem_cons_of_mem x hy)
      have hnext := h x List.mem_cons_self (xs.flatMap write ++ rest)
      rw [List.flatMap_cons, List.append_assoc, readAll_of_some hnext, hrest]
      rfl

/-- **A part of a stream of records** is read as those that are whole in it. What is left over is
the beginning of the next one, so the bytes of the part are accounted for. -/
theorem exists_readAll_of_isPrefix {xs : List γ} (h : ∀ x ∈ xs, r.Reads (write x) (record x))
    {part : List β} (hpart : part <+: xs.flatMap write) :
    ∃ done todo left, xs = done ++ todo ∧ r.readAll part = (done.map record, left) ∧
      part = done.flatMap write ++ left ∧ left <+: todo.flatMap write := by
  induction xs generalizing part with
  | nil =>
      obtain rfl := List.prefix_nil.mp hpart
      exact ⟨[], [], [], rfl, readAll_nil, rfl, List.prefix_rfl⟩
  | cons x xs ih =>
      obtain ⟨hx, hxs⟩ := List.forall_mem_cons.mp h
      rw [List.flatMap_cons] at hpart
      -- the part ends in the first record, or goes on behind it
      rcases List.prefix_or_prefix_of_prefix hpart (List.prefix_append (write x) _) with
        ⟨t, ht⟩ | ⟨part, rfl⟩
      · cases t with
        | nil =>
            rw [List.append_nil] at ht
            refine ⟨[x], xs, [], rfl, ?_, by simp [ht], List.nil_prefix⟩
            rw [ht, ← List.append_nil (write x), readAll_of_some (hx []), readAll_nil]
            rfl
        | cons b t =>
            refine ⟨[], x :: xs, part, rfl, ?_, rfl, by rw [List.flatMap_cons]; exact hpart⟩
            exact readAll_of_none (next_eq_none (by rw [ht]; exact hx) (List.cons_ne_nil b t))
      · obtain ⟨done, todo, left, rfl, hread, rfl, hleft⟩ :=
          ih hxs ((List.prefix_append_right_inj _).mp hpart)
        refine ⟨x :: done, todo, left, rfl, ?_, by simp, hleft⟩
        rw [readAll_of_some (hx _), hread]
        rfl

/-- So it is read as the first of the records. -/
theorem readAll_of_isPrefix {xs : List γ} (h : ∀ x ∈ xs, r.Reads (write x) (record x))
    {part : List β} (hpart : part <+: xs.flatMap write) :
    (r.readAll part).1 <+: xs.map record := by
  obtain ⟨done, todo, left, rfl, hread, -, -⟩ := exists_readAll_of_isPrefix h hpart
  rw [hread, List.map_append]
  exact List.prefix_append _ _

end Reader

end Framing
