import Mathlib.Data.List.Basic
import Mathlib.Data.List.Infix

/-!
# Searching a Stream for a Delimiter

A small library for readers that wait until their buffer holds a delimiter: `firstEnd d s` says
how much of the text `s` there is up to the end of the first occurrence of `d`. Such a reader
sees the text in pieces; what it finds does not depend on them.

## Main results

* `firstEnd_eq_none_iff`: nothing is found exactly if the delimiter is no infix.
* `firstEnd_of_append`: **what is found in a part of the text**.
* `firstEnd_append_of_notMem`: a stretch of the text in which no occurrence can begin.
-/

namespace Delimiter

variable {α : Type*} [DecidableEq α]

/-- How much there is of a text up to the end of the first occurrence of the delimiter `d`. -/
def firstEnd (d : List α) : List α → Option ℕ
  | [] => if d = [] then some 0 else none
  | a :: s => if d <+: a :: s then some d.length else (firstEnd d s).map (· + 1)

/-- A delimiter at the beginning of the text ends behind itself. -/
theorem firstEnd_cons_of_isPrefix {d s : List α} {a : α} (h : d <+: a :: s) :
    firstEnd d (a :: s) = some d.length :=
  if_pos h

/-- Where the text does not start with the delimiter, its first element can be left out of the
search. -/
theorem firstEnd_cons_of_not_isPrefix {d s : List α} {a : α} (h : ¬ d <+: a :: s) :
    firstEnd d (a :: s) = (firstEnd d s).map (· + 1) :=
  if_neg h

/-- The delimiter itself is a part of what is found. -/
theorem length_le_of_firstEnd {d s : List α} {n : ℕ} (h : firstEnd d s = some n) :
    d.length ≤ n := by
  induction s generalizing n with
  | nil =>
      rw [firstEnd] at h
      obtain ⟨hd, -⟩ := Option.ite_none_right_eq_some.mp h
      simp [hd]
  | cons a s ih =>
      by_cases hp : d <+: a :: s
      · rw [firstEnd_cons_of_isPrefix hp] at h
        exact (Option.some.inj h).le
      · rw [firstEnd_cons_of_not_isPrefix hp] at h
        obtain ⟨m, hm, rfl⟩ := Option.map_eq_some_iff.mp h
        have := ih hm
        omega

/-- What is found is an occurrence of the delimiter: the text is what stands before it, the
delimiter, and the rest. -/
theorem eq_append_of_firstEnd {d s : List α} {n : ℕ} (h : firstEnd d s = some n) :
    ∃ a w, s = a ++ d ++ w ∧ n = (a ++ d).length := by
  induction s generalizing n with
  | nil =>
      rw [firstEnd] at h
      obtain ⟨rfl, hn⟩ := Option.ite_none_right_eq_some.mp h
      exact ⟨[], [], rfl, (Option.some.inj hn).symm⟩
  | cons x s ih =>
      by_cases hp : d <+: x :: s
      · rw [firstEnd_cons_of_isPrefix hp] at h
        obtain ⟨w, hw⟩ := hp
        exact ⟨[], w, hw.symm, (Option.some.inj h).symm⟩
      · rw [firstEnd_cons_of_not_isPrefix hp] at h
        obtain ⟨m, hm, rfl⟩ := Option.map_eq_some_iff.mp h
        obtain ⟨a, w, rfl, rfl⟩ := ih hm
        exact ⟨x :: a, w, rfl, rfl⟩

/-- Nothing is found exactly if the delimiter does not occur. -/
theorem firstEnd_eq_none_iff {d s : List α} : firstEnd d s = none ↔ ¬ d <:+: s := by
  induction s with
  | nil => simp [firstEnd]
  | cons a s ih =>
      rw [List.infix_cons_iff, not_or]
      by_cases hp : d <+: a :: s
      · simp [firstEnd_cons_of_isPrefix hp, hp]
      · simp [firstEnd_cons_of_not_isPrefix hp, hp, ih]

/-- An end is found exactly if the delimiter occurs in the text. -/
theorem isSome_firstEnd_iff {d s : List α} : (firstEnd d s).isSome ↔ d <:+: s := by
  rw [Option.isSome_iff_ne_none, ne_eq, firstEnd_eq_none_iff, not_not]

/-- **What is found in a part of the text**: the same, as soon as it is there. A reader that looks
for the delimiter in what has arrived finds it when its last element has arrived, and never finds
another. -/
theorem firstEnd_of_append {d p q : List α} {n : ℕ} (h : firstEnd d (p ++ q) = some n) :
    firstEnd d p = if n ≤ p.length then some n else none := by
  induction p generalizing n with
  | nil =>
      have hlen := length_le_of_firstEnd h
      by_cases hn : n ≤ 0
      · have hd : d = [] := List.length_eq_zero_iff.mp (by omega)
        have hzero : n = 0 := by omega
        simp [firstEnd, hd, hzero]
      · have hd : d ≠ [] := by
          rintro rfl
          cases q with
          | nil => simp [firstEnd] at h; omega
          | cons b q => simp [firstEnd] at h; omega
        simp [firstEnd, hd, show n ≠ 0 by omega]
  | cons a p ih =>
      rw [List.cons_append] at h
      by_cases hp : d <+: a :: (p ++ q)
      · rw [firstEnd_cons_of_isPrefix hp] at h
        obtain rfl := Option.some.inj h
        by_cases hlen : d.length ≤ (a :: p).length
        · have hpart : d <+: a :: p :=
            List.prefix_of_prefix_length_le hp (List.prefix_append (a :: p) q) hlen
          rw [firstEnd_cons_of_isPrefix hpart, if_pos hlen]
        · have hnone : ¬ d <:+: a :: p := fun hi => hlen hi.length_le
          rw [firstEnd_eq_none_iff.mpr hnone, if_neg hlen]
      · rw [firstEnd_cons_of_not_isPrefix hp] at h
        obtain ⟨m, hm, rfl⟩ := Option.map_eq_some_iff.mp h
        have hpart : ¬ d <+: a :: p := fun hd =>
          hp (hd.trans (List.prefix_append (a :: p) q))
        rw [firstEnd_cons_of_not_isPrefix hpart, ih hm]
        by_cases hlen : m ≤ p.length
        · simp [hlen]
        · simp [hlen]

/-- More text behind an occurrence does not change which one is the first. -/
theorem firstEnd_append_of_some {d p : List α} {n : ℕ} (h : firstEnd d p = some n)
    (q : List α) : firstEnd d (p ++ q) = some n := by
  obtain ⟨m, hm⟩ : ∃ m, firstEnd d (p ++ q) = some m := by
    rw [← Option.isSome_iff_exists, isSome_firstEnd_iff]
    have hp : d <:+: p := isSome_firstEnd_iff.mp (by simp [h])
    exact hp.trans (List.prefix_append p q).isInfix
  have hpart := firstEnd_of_append hm
  rw [h] at hpart
  obtain ⟨-, hmn⟩ := Option.ite_none_right_eq_some.mp hpart.symm
  rw [hm, hmn]

/-- No occurrence begins in a stretch in which, and right behind which, the second element of the
delimiter does not stand. -/
theorem firstEnd_append_of_notMem {a b c : α} {d l : List α} (hl : b ∉ l) (hc : b ≠ c)
    (s : List α) :
    firstEnd (a :: b :: d) (l ++ c :: s) =
      (firstEnd (a :: b :: d) (c :: s)).map (l.length + ·) := by
  induction l with
  | nil => simp
  | cons x l ih =>
      have hhead : ¬ a :: b :: d <+: x :: (l ++ c :: s) := by
        intro hp
        obtain ⟨-, hp⟩ := List.cons_prefix_cons.mp hp
        cases l with
        | nil => exact hc (List.cons_prefix_cons.mp hp).1
        | cons y l => exact hl (by simp [(List.cons_prefix_cons.mp hp).1])
      rw [List.cons_append, firstEnd_cons_of_not_isPrefix hhead,
        ih (fun hb => hl (List.mem_cons_of_mem x hb)), Option.map_map]
      congr 1
      funext k
      simp only [Function.comp_apply, List.length_cons]
      omega

end Delimiter
