import Mathlib.Data.List.Basic
import Mathlib.Data.List.Infix

/-!
# File Trees

A small library for trees of directories, files and symbolic links, over any type of names. A
path is a list of components, one of which may stand for the directory itself (`here`) or the one
above (`up`). `resolve` finds the file that a path names, as an operating system does: it goes from
directory to directory, and where it meets a link, it goes on with the target. There is a limit to
the links that it follows.

## Main results

* `walk_names_append`: one pass over a path without links.
* `resolve_names`: **a path without links is its own resolution**.
* `lstat_names_concat`: what `lstat` says of the end of such a path.
-/

namespace FileTree

universe u v

variable {α : Type u} {γ : Type v}

/-- A component of a path. -/
inductive Component (α : Type u) where
  | here
  | up
  | name (a : α)
  deriving DecidableEq, Repr

/-- The same component, over other names. -/
def Component.map {β : Type*} (f : α → β) : Component α → Component β
  | .here => .here
  | .up => .up
  | .name a => .name (f a)

/-- What a directory can hold: a file, with its content, a symbolic link, or a directory. Of the
entries of one name the first counts. -/
inductive Entry (α : Type u) (γ : Type v) where
  | file (content : γ)
  | link (isAbsolute : Bool) (target : List (Component α))
  | dir (entries : List (α × Entry α γ))

/-- The reasons for which there may be no file: there is none, or there are too many links. -/
inductive Errno where
  | noEntry
  | loop
  deriving DecidableEq, Repr

variable [DecidableEq α]

/-- The entry at a place in the tree. No link is followed. -/
def Entry.lookup : Entry α γ → List α → Option (Entry α γ)
  | e, [] => some e
  | .dir entries, a :: p => (entries.find? fun x => x.1 = a).bind fun x => x.2.lookup p
  | .file _, _ :: _ => none
  | .link _ _, _ :: _ => none

/-- One pass over the components of a path, from the directory `cur`: the place where it ends, or
the directory from which to go on, and how, behind the first link. -/
def walk (t : Entry α γ) : List α → List (Component α) →
    Option (List α ⊕ (List α × List (Component α)))
  | cur, [] => some (.inl cur)
  | cur, c :: rest =>
      match t.lookup cur with
      | some (.dir _) =>
          match c with
          | .here => walk t cur rest
          | .up => walk t cur.dropLast rest
          | .name a =>
              match t.lookup (cur ++ [a]) with
              | none => none
              | some (.link isAbsolute target) =>
                  some (.inr (if isAbsolute then [] else cur, target ++ rest))
              | some _ => walk t (cur ++ [a]) rest
      | _ => none

/-- The resolution of a path from the directory `cur`, which may follow `n` links. -/
def resolveFrom (t : Entry α γ) (n : ℕ) (cur : List α) (comps : List (Component α)) :
    Except Errno (List α) :=
  match walk t cur comps with
  | none => .error .noEntry
  | some (.inl p) => .ok p
  | some (.inr (cur, comps)) =>
      match n with
      | 0 => .error .loop
      | n + 1 => resolveFrom t n cur comps

/-- **The place that an absolute path names.** -/
def resolve (t : Entry α γ) (maxLinks : ℕ) (comps : List (Component α)) :
    Except Errno (List α) :=
  resolveFrom t maxLinks [] comps

/-- What is found at a place. -/
def Entry.find (t : Entry α γ) (p : List α) : Except Errno (Entry α γ) :=
  match t.lookup p with
  | none => .error .noEntry
  | some e => .ok e

/-- `stat`: the entry that a path names. -/
def stat (t : Entry α γ) (maxLinks : ℕ) (comps : List (Component α)) :
    Except Errno (Entry α γ) :=
  match resolve t maxLinks comps with
  | .error e => .error e
  | .ok p => t.find p

/-- `lstat`: the same, but a link at the end is not followed. -/
def lstat (t : Entry α γ) (maxLinks : ℕ) (comps : List (Component α)) :
    Except Errno (Entry α γ) :=
  match comps.getLast? with
  | some (.name a) =>
      match resolve t maxLinks comps.dropLast with
      | .error e => .error e
      | .ok p => t.find (p ++ [a])
  | _ => stat t maxLinks comps

/-- No link stands on the way to a place, nor at it. -/
def Plain (t : Entry α γ) (p : List α) : Prop :=
  ∀ q, q <+: p → ∀ isAbsolute target, t.lookup q ≠ some (.link isAbsolute target)

/-! ### Places in the tree -/

/-- The path without components names the entry itself. -/
theorem Entry.lookup_nil (t : Entry α γ) : t.lookup [] = some t := by
  cases t <;> rfl

/-- A path is looked up in two parts, the second of them from where the first leads to. -/
theorem Entry.lookup_append (t : Entry α γ) (p q : List α) :
    t.lookup (p ++ q) = (t.lookup p).bind fun e => e.lookup q := by
  induction p generalizing t with
  | nil => rw [List.nil_append, lookup_nil, Option.bind_some]
  | cons a p ih =>
      cases t with
      | file content => rfl
      | link isAbsolute target => rfl
      | dir entries =>
          rw [List.cons_append, lookup, lookup]
          cases entries.find? fun x => x.1 = a with
          | none => rfl
          | some x => exact ih x.2

/-- What stands below a place stands in a directory. -/
theorem Entry.exists_dir_of_lookup {t : Entry α γ} {p : List α} {a : α} {q : List α}
    (h : (t.lookup (p ++ a :: q)).isSome) :
    ∃ entries, t.lookup p = some (.dir entries) ∧ (t.lookup (p ++ [a])).isSome := by
  rw [lookup_append] at h ⊢
  cases hp : t.lookup p with
  | none => simp [hp] at h
  | some d =>
      rw [hp, Option.bind_some] at h
      cases d with
      | file content => simp [lookup] at h
      | link isAbsolute target => simp [lookup] at h
      | dir entries =>
          refine ⟨entries, rfl, ?_⟩
          rw [lookup] at h
          rw [Option.bind_some, lookup]
          cases hx : entries.find? fun x => x.1 = a with
          | none => simp [hx] at h
          | some x => simp [lookup_nil]

/-- A place above one without links on its path is without links as well. -/
theorem Plain.of_isPrefix {t : Entry α γ} {p q : List α} (h : Plain t p) (hq : q <+: p) :
    Plain t q :=
  fun r hr => h r (hr.trans hq)

/-- One more component that is no link leads to one more place without links on its path. -/
theorem Plain.concat {t : Entry α γ} {p : List α} {a : α} (h : Plain t p)
    (ha : ∀ isAbsolute target, t.lookup (p ++ [a]) ≠ some (.link isAbsolute target)) :
    Plain t (p ++ [a]) := by
  intro q hq
  rcases List.prefix_concat_iff.mp hq with rfl | hq
  · exact ha
  · exact h q hq

/-! ### Paths without links -/

/-- The components of a place. -/
def names (p : List α) : List (Component α) :=
  p.map .name

/-- **One pass over a path without links** goes where the path says, if there is something. The
names are taken one by one, none of them is a link, and the rest of the components is walked from
there. -/
theorem walk_names_append {t : Entry α γ} {cur p : List α} (h : Plain t (cur ++ p))
    (hcur : (t.lookup cur).isSome) (comps : List (Component α)) :
    walk t cur (names p ++ comps) =
      if (t.lookup (cur ++ p)).isSome then walk t (cur ++ p) comps else none := by
  induction p generalizing cur with
  | nil =>
      rw [List.append_nil, if_pos hcur]
      rfl
  | cons a p ih =>
      have hmid : cur ++ [a] <+: cur ++ a :: p :=
        (List.prefix_append_right_inj cur).mpr (by simp)
      have hrest : names (a :: p) ++ comps = .name a :: (names p ++ comps) := rfl
      have hsplit : cur ++ a :: p = cur ++ [a] ++ p := by simp
      rw [hrest, walk]
      by_cases hbelow : (t.lookup (cur ++ [a])).isSome
      · obtain ⟨entries, hdir, -⟩ := Entry.exists_dir_of_lookup hbelow
        have hstep := ih (by rwa [← hsplit]) hbelow
        rw [hdir]
        dsimp only
        obtain ⟨e, he⟩ := Option.isSome_iff_exists.mp hbelow
        rw [hsplit, he]
        cases e with
        | link isAbsolute target => exact absurd he (h _ hmid isAbsolute target)
        | file content => exact hstep
        | dir entries => exact hstep
      · have hnone : ¬ (t.lookup (cur ++ a :: p)).isSome := fun hsome =>
          hbelow (Entry.exists_dir_of_lookup hsome).choose_spec.2
        rw [if_neg hnone]
        split
        · rw [Option.not_isSome_iff_eq_none.mp hbelow]
        · rfl

/-- **One pass** that begins at a place without links ends at such a place, or goes on from one. So
the place from which a link is followed has never been reached over another link. -/
theorem plain_of_walk {t : Entry α γ} {cur : List α} {comps : List (Component α)}
    (h : Plain t cur) (hcur : (t.lookup cur).isSome) :
    (∀ p, walk t cur comps = some (.inl p) → Plain t p ∧ (t.lookup p).isSome) ∧
      ∀ p rest, walk t cur comps = some (.inr (p, rest)) →
        Plain t p ∧ (t.lookup p).isSome := by
  induction comps generalizing cur with
  | nil =>
      refine ⟨fun p hp => ?_, fun p rest hp => absurd hp (by simp [walk])⟩
      obtain rfl := Sum.inl.inj (Option.some.inj hp)
      exact ⟨h, hcur⟩
  | cons c comps ih =>
      cases hdir : t.lookup cur with
      | none => simp [hdir] at hcur
      | some e =>
          cases e with
          | file content => cases c <;> simp [walk, hdir]
          | link isAbsolute target => cases c <;> simp [walk, hdir]
          | dir entries =>
              cases c with
              | here =>
                  rw [walk, hdir]
                  exact ih h hcur
              | up =>
                  rw [walk, hdir]
                  refine ih (h.of_isPrefix (List.dropLast_prefix cur)) ?_
                  cases cur using List.reverseRecOn with
                  | nil => exact hcur
                  | append_singleton cur a =>
                      rw [List.dropLast_concat]
                      obtain ⟨above, habove, -⟩ := Entry.exists_dir_of_lookup (q := []) hcur
                      simp [habove]
              | name a =>
                  rw [walk, hdir]
                  dsimp only
                  split
                  · simp
                  · refine ⟨fun p hp => absurd hp (by simp), fun p rest hp => ?_⟩
                    obtain ⟨rfl, -⟩ := Prod.mk.inj (Sum.inr.inj (Option.some.inj hp))
                    split_ifs
                    · exact ⟨h.of_isPrefix List.nil_prefix, by simp [Entry.lookup_nil]⟩
                    · exact ⟨h, hcur⟩
                  · next e hnot he =>
                      refine ih (h.concat fun isAbsolute target hlink => ?_) (by simp [he])
                      exact hnot isAbsolute target (Option.some.inj (he.symm.trans hlink))

/-- The resolution of a path that begins without links goes on at the end of this beginning. -/
theorem resolve_names_append {t : Entry α γ} (maxLinks : ℕ) {p : List α} (h : Plain t p)
    (comps : List (Component α)) :
    resolve t maxLinks (names p ++ comps) =
      if (t.lookup p).isSome then resolveFrom t maxLinks p comps else .error .noEntry := by
  have hroot : Plain t ([] ++ p) := h
  have hwalk := walk_names_append hroot (by simp [Entry.lookup_nil]) comps
  rw [List.nil_append] at hwalk
  rw [resolve, resolveFrom.eq_def, hwalk]
  split_ifs
  · rw [resolveFrom.eq_def]
  · rfl

/-- **A path without links is its own resolution**, if it has one. No link is followed, so any bound
on their number is enough, also the bound zero. -/
theorem resolve_names {t : Entry α γ} (maxLinks : ℕ) {p : List α} (h : Plain t p) :
    resolve t maxLinks (names p) =
      if (t.lookup p).isSome then .ok p else .error .noEntry := by
  have happend := resolve_names_append maxLinks h []
  rw [List.append_nil] at happend
  rw [happend, resolveFrom.eq_def]
  rfl

/-- A path without links that is followed by a step names a directory. -/
theorem exists_dir_of_resolve_append {t : Entry α γ} {maxLinks : ℕ} {p q : List α}
    (h : Plain t p) {c : Component α} {rest : List (Component α)}
    (hq : resolve t maxLinks (names p ++ c :: rest) = .ok q) :
    ∃ entries, t.lookup p = some (.dir entries) := by
  rw [resolve_names_append maxLinks h, resolveFrom.eq_def, walk.eq_def] at hq
  dsimp only at hq
  split_ifs at hq
  cases hp : t.lookup p with
  | none => simp [hp] at hq
  | some e =>
      rw [hp] at hq
      cases e with
      | dir entries => exact ⟨entries, rfl⟩
      | file content => exact absurd hq (by simp)
      | link isAbsolute target => exact absurd hq (by simp)

/-- With a step to the place itself the path names the same. -/
theorem eq_of_resolve_here {t : Entry α γ} {maxLinks : ℕ} {p q : List α} (h : Plain t p)
    (hq : resolve t maxLinks (names p ++ [.here]) = .ok q) : q = p := by
  obtain ⟨entries, hp⟩ := exists_dir_of_resolve_append h hq
  rw [resolve_names_append maxLinks h, resolveFrom.eq_def, walk, if_pos (by simp [hp]), hp] at hq
  exact (Except.ok.inj hq).symm

/-- With a step upwards it names a directory. -/
theorem exists_dir_of_resolve_up {t : Entry α γ} {maxLinks : ℕ} {p q : List α} (h : Plain t p)
    (hq : resolve t maxLinks (names p ++ [.up]) = .ok q) :
    ∃ entries, t.lookup q = some (.dir entries) := by
  obtain ⟨entries, hp⟩ := exists_dir_of_resolve_append h hq
  rw [resolve_names_append maxLinks h, resolveFrom.eq_def, walk, if_pos (by simp [hp]), hp] at hq
  obtain rfl : p.dropLast = q := Except.ok.inj hq
  cases p using List.reverseRecOn with
  | nil => exact ⟨entries, hp⟩
  | append_singleton p a =>
      rw [List.dropLast_concat]
      obtain ⟨above, habove, -⟩ :=
        Entry.exists_dir_of_lookup (t := t) (p := p) (a := a) (q := []) (by simp [hp])
      exact ⟨above, habove⟩

/-- **The end of such a path**, seen by `lstat`: what stands there. The last name may be a link, and
then it is the link that is seen and not the entry to which it leads. -/
theorem lstat_names_concat {t : Entry α γ} (maxLinks : ℕ) {p : List α} (h : Plain t p) (a : α) :
    lstat t maxLinks (names (p ++ [a])) = t.find (p ++ [a]) := by
  have hnames : names (p ++ [a]) = names p ++ [.name a] := by simp [names]
  rw [lstat, hnames, List.getLast?_concat, List.dropLast_concat, resolve_names maxLinks h]
  split_ifs with hp
  · rfl
  · have hnone : ¬ (t.lookup (p ++ [a])).isSome := by
      intro hsome
      obtain ⟨entries, hdir, -⟩ := Entry.exists_dir_of_lookup hsome
      exact hp (by simp [hdir])
    rw [Entry.find, Option.not_isSome_iff_eq_none.mp hnone]

end FileTree
