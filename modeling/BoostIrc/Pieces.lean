import Mathlib.Data.List.Infix

/-!
# Pieces of a Text

A small library for texts read piece by piece, each piece up to a separator, over an
arbitrary alphabet. The last piece may lack its separator; it counts as a piece unless it is
empty.

A text is **closed** if no unfinished piece stands at its end. Closed texts are where a text
can be cut without cutting a piece: the pieces of the whole are then the pieces of the two
parts.

## Main results

* `pieces_rec`: induction on a text, piece by piece.
* `pieces_append`: the pieces of a text cut at a closed part.
* `pieces_concat_sep`: a separator after an unfinished piece adds no piece.
* `placed_append`, `start_lt_of_mem_placed`: where the pieces of a text start.
-/

namespace Pieces

universe u

variable {α : Type u} {sep : α}

/-- A text with no unfinished piece at its end. -/
def Closed (sep : α) (l : List α) : Prop :=
  ∀ a ∈ l.getLast?, a = sep

instance [DecidableEq α] (l : List α) : Decidable (Closed sep l) :=
  inferInstanceAs (Decidable (∀ a ∈ l.getLast?, a = sep))

/-- The empty text ends no piece in the middle. -/
theorem closed_nil : Closed sep [] := by
  simp [Closed]

/-- A text with a separator at its end is made of whole pieces. -/
theorem closed_concat (l : List α) : Closed sep (l ++ [sep]) := by
  simp [Closed]

/-- A text that is closed by its second part. -/
theorem Closed.append {x y : List α} (hx : Closed sep x) (hy : Closed sep y) :
    Closed sep (x ++ y) := by
  cases y using List.reverseRecOn with
  | nil => rwa [List.append_nil]
  | append_singleton y b => simpa [Closed] using hy

/-- The last part of a closed text is closed. -/
theorem Closed.of_append_right {x y : List α} (h : Closed sep (x ++ y)) : Closed sep y := by
  cases y using List.reverseRecOn with
  | nil => exact closed_nil
  | append_singleton y b => simpa [Closed] using h

/-- A text closed with separators in it only at its end is one piece. -/
theorem not_closed_of_notMem {w : List α} (hne : w ≠ []) (hw : sep ∉ w) : ¬ Closed sep w := by
  cases w using List.reverseRecOn with
  | nil => exact absurd rfl hne
  | append_singleton w b =>
      intro h
      have hb : b = sep := h b (by simp)
      exact hw (by simp [hb])

/-- **Induction on a text, piece by piece.** The cases are those in which a line is read: nothing is
left, an unfinished piece is left, or a piece ends at its separator. -/
@[elab_as_elim]
theorem pieces_rec (sep : α) {motive : List α → Prop} (nil : motive [])
    (last : ∀ w, w ≠ [] → sep ∉ w → motive w)
    (piece : ∀ w l, sep ∉ w → motive l → motive (w ++ sep :: l)) (l : List α) : motive l := by
  suffices h : ∀ n : ℕ, ∀ l : List α, l.length ≤ n → motive l from h l.length l le_rfl
  intro n
  induction n with
  | zero =>
      intro l hl
      rw [List.length_eq_zero_iff.mp (Nat.le_zero.mp hl)]
      exact nil
  | succ n ih =>
      intro l hl
      by_cases hmem : sep ∈ l
      · obtain ⟨w, r, rfl, hw⟩ := List.eq_append_cons_of_mem hmem
        refine piece w r hw (ih r ?_)
        simp only [List.length_append, List.length_cons] at hl
        omega
      · by_cases hne : l = []
        · rw [hne]
          exact nil
        · exact last l hne hmem

/-! ### The pieces of a text -/

section

variable [DecidableEq α]

/-- The **pieces of a text**. -/
def pieces (sep : α) : List α → List (List α)
  | [] => []
  | a :: l =>
      if a = sep then
        [] :: pieces sep l
      else
        match pieces sep l with
        | [] => [[a]]
        | p :: ps => (a :: p) :: ps

/-- There is no piece in the empty text. -/
@[simp] theorem pieces_nil : pieces sep [] = [] := rfl

/-- The text up to the first separator is the first piece, and the pieces of what is behind the
separator follow it. -/
@[simp] theorem pieces_append_sep {w : List α} (hw : sep ∉ w) (l : List α) :
    pieces sep (w ++ sep :: l) = w :: pieces sep l := by
  induction w with
  | nil => rw [List.nil_append, pieces, if_pos rfl]
  | cons a w ih =>
      have ha : a ≠ sep := fun h => hw (h ▸ List.mem_cons_self)
      rw [List.cons_append, pieces, if_neg ha, ih fun h => hw (List.mem_cons_of_mem a h)]

/-- A text without a separator is one piece, which is unfinished. -/
theorem pieces_of_notMem {w : List α} (hne : w ≠ []) (hw : sep ∉ w) : pieces sep w = [w] := by
  induction w with
  | nil => exact absurd rfl hne
  | cons a w ih =>
      have ha : a ≠ sep := fun h => hw (h ▸ List.mem_cons_self)
      have hrest : sep ∉ w := fun h => hw (List.mem_cons_of_mem a h)
      cases w with
      | nil => rw [pieces, if_neg ha, pieces_nil]
      | cons b w => rw [pieces, if_neg ha, ih (by simp) hrest]

/-- There is no separator in a piece: the separators stand between the pieces, and maybe at the
end. -/
theorem notMem_of_mem_pieces {w : List α} (l : List α) (h : w ∈ pieces sep l) : sep ∉ w := by
  induction l using pieces_rec sep with
  | nil => exact absurd h List.not_mem_nil
  | last v hne hv =>
      rw [pieces_of_notMem hne hv, List.mem_singleton] at h
      rwa [h]
  | piece v l hv ih =>
      rw [pieces_append_sep hv, List.mem_cons] at h
      rcases h with rfl | h
      · exact hv
      · exact ih h

/-- **The pieces of a text cut at a closed part.** A part that ends with a separator leaves no
unfinished piece, so what follows is cut as if it stood alone. -/
theorem pieces_append {x : List α} (hx : Closed sep x) (y : List α) :
    pieces sep (x ++ y) = pieces sep x ++ pieces sep y := by
  induction x using pieces_rec sep with
  | nil => rfl
  | last w hne hw => exact absurd hx (not_closed_of_notMem hne hw)
  | piece w l hw ih =>
      have hl : Closed sep l := by
        rw [List.append_cons] at hx
        exact hx.of_append_right
      rw [List.append_assoc, List.cons_append, pieces_append_sep hw, pieces_append_sep hw, ih hl,
        List.cons_append]

/-- A separator after an unfinished piece finishes it. -/
theorem pieces_concat_sep {x : List α} (hx : ¬ Closed sep x) :
    pieces sep (x ++ [sep]) = pieces sep x := by
  induction x using pieces_rec sep with
  | nil => exact absurd closed_nil hx
  | last w hne hw => rw [pieces_append_sep hw, pieces_of_notMem hne hw, pieces_nil]
  | piece w l hw ih =>
      have hl : ¬ Closed sep l := by
        intro hl
        refine hx ?_
        rw [List.append_cons]
        exact (closed_concat w).append hl
      rw [List.append_assoc, List.cons_append, pieces_append_sep hw, pieces_append_sep hw, ih hl]

/-- A text that is not closed is a closed one with an unfinished piece behind it. -/
theorem exists_of_not_closed {l : List α} (h : ¬ Closed sep l) :
    ∃ x w, l = x ++ w ∧ Closed sep x ∧ pieces sep l = pieces sep x ++ [w] := by
  induction l using pieces_rec sep with
  | nil => exact absurd closed_nil h
  | last w hne hw => exact ⟨[], w, rfl, closed_nil, pieces_of_notMem hne hw⟩
  | piece v l hv ih =>
      have hl : ¬ Closed sep l := by
        intro hl
        refine h ?_
        rw [List.append_cons]
        exact (closed_concat v).append hl
      obtain ⟨x, w, rfl, hx, hpieces⟩ := ih hl
      refine ⟨v ++ sep :: x, w, by simp, ?_, ?_⟩
      · rw [List.append_cons]
        exact (closed_concat v).append hx
      · rw [pieces_append_sep hv, pieces_append_sep hv, hpieces, List.cons_append]

end

/-! ### Where the pieces start -/

/-- Each piece with the position at which it starts, the first at `k`. -/
def placed (k : ℕ) : List (List α) → List (ℕ × List α)
  | [] => []
  | p :: ps => (k, p) :: placed (k + p.length + 1) ps

/-- Without their places, the placed pieces are the pieces. -/
@[simp] theorem placed_map_snd (k : ℕ) (ps : List (List α)) : (placed k ps).map Prod.snd = ps := by
  induction ps generalizing k with
  | nil => rfl
  | cons p ps ih => rw [placed, List.map_cons, ih]

/-- No piece starts before the place of the first one. -/
theorem le_start_of_mem_placed {k : ℕ} {ps : List (List α)} :
    ∀ d ∈ placed k ps, k ≤ d.1 := by
  induction ps generalizing k with
  | nil => simp [placed]
  | cons p ps ih =>
      intro d hd
      rcases List.mem_cons.mp hd with rfl | hd
      · exact le_rfl
      · have := ih d hd
        omega

/-- More pieces at the end leave the places of the first ones as they are. -/
theorem placed_isPrefix (k : ℕ) {ps qs : List (List α)} (h : ps <+: qs) :
    placed k ps <+: placed k qs := by
  obtain ⟨rs, rfl⟩ := h
  induction ps generalizing k with
  | nil => exact List.nil_prefix
  | cons p ps ih => exact List.cons_prefix_cons.mpr ⟨rfl, ih _⟩

/-- Every piece of a text starts inside it. -/
theorem start_lt_of_mem_placed [DecidableEq α] {k : ℕ} {l : List α} :
    ∀ d ∈ placed k (pieces sep l), d.1 < k + l.length := by
  induction l using pieces_rec sep generalizing k with
  | nil => simp [placed]
  | last w hne hw =>
      intro d hd
      rw [pieces_of_notMem hne hw] at hd
      obtain rfl : d = (k, w) := List.mem_singleton.mp hd
      have := List.length_pos_iff.mpr hne
      omega
  | piece w l hw ih =>
      intro d hd
      rw [pieces_append_sep hw] at hd
      rw [List.length_append, List.length_cons]
      rcases List.mem_cons.mp hd with rfl | hd
      · omega
      · have := ih d hd
        omega

/-- **The pieces of a text cut at a closed part, with their positions.** Those of the second part
are counted from the end of the first. -/
theorem placed_append [DecidableEq α] (k : ℕ) {x : List α} (hx : Closed sep x)
    (ps : List (List α)) :
    placed k (pieces sep x ++ ps) = placed k (pieces sep x) ++ placed (k + x.length) ps := by
  induction x using pieces_rec sep generalizing k with
  | nil => rfl
  | last w hne hw => exact absurd hx (not_closed_of_notMem hne hw)
  | piece w l hw ih =>
      have hl : Closed sep l := by
        rw [List.append_cons] at hx
        exact hx.of_append_right
      have hlen : k + w.length + 1 + l.length = k + (w ++ sep :: l).length := by
        rw [List.length_append, List.length_cons]
        omega
      rw [pieces_append_sep hw, List.cons_append, placed, placed, ih _ hl, List.cons_append, hlen]

end Pieces
