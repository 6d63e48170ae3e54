import Mathlib.Data.Nat.Notation
import Mathlib.Data.Option.Basic

/-!
# Runs of a Transition System

A small library for systems given by a step function: `step s e` is the state after the
event `e`, or none where the event cannot happen. A run is a list of events that all happen,
one after another (`run`), and a condition on the single steps, which may look at the state
before the step, is carried along a run (`Along`). What is seen of the single steps is collected
along a run, too (`observe`).

## Main results

* `run_append`: a run in two parts.
* `run_invariant_observe`: **the invariant rule**, for an invariant that also knows what was seen
  on the way, and whether a condition held at every step.
* `run_invariant`: **what every step preserves, every run preserves.**
* `eq_append_of_run`: a log that every step extends holds what the events of a run say.
* `exists_run_to_idle`: a run can be continued until nothing can happen any more.
-/

namespace Transition

universe u v w

variable {σ : Type u} {ε : Type v} {β : Type w} (step : σ → ε → Option σ)

/-- The state after a **run**, if all its events can happen. -/
def run : σ → List ε → Option σ
  | s, [] => some s
  | s, e :: es => (step s e).bind fun s' => run s' es

/-- A condition on every step of a run. -/
def Along (C : σ → ε → Prop) : σ → List ε → Prop
  | _, [] => True
  | s, e :: es => C s e ∧ ∀ s' ∈ step s e, Along C s' es

instance decidableAlong {C : σ → ε → Prop} [∀ s e, Decidable (C s e)] :
    ∀ s es, Decidable (Along step C s es)
  | _, [] => isTrue trivial
  | s, e :: es =>
      match h : step s e with
      | none => decidable_of_iff (C s e) (by simp [Along, h])
      | some s' =>
          have : Decidable (Along step C s' es) := decidableAlong s' es
          decidable_of_iff (C s e ∧ Along step C s' es) (by simp [Along, h])

/-- What is seen of the steps of a run. -/
def observe (O : σ → ε → List β) : σ → List ε → List β
  | _, [] => []
  | s, e :: es => O s e ++ (step s e).elim [] fun s' => observe O s' es

variable {step}

/-- Without events nothing is done. -/
@[simp] theorem run_nil (s : σ) : run step s [] = some s := rfl

/-- A run takes its first event, and then the others from the state that this leads to. -/
theorem run_cons (s : σ) (e : ε) (es : List ε) :
    run step s (e :: es) = (step s e).bind fun s' => run step s' es := rfl

/-- **A run in two parts**: the second part starts in the state in which the first ends. If there is
none, because some event cannot happen, there is no run of the two parts either. -/
theorem run_append (s : σ) (es fs : List ε) :
    run step s (es ++ fs) = (run step s es).bind fun s' => run step s' fs := by
  induction es generalizing s with
  | nil => rfl
  | cons e es ih =>
      rw [List.cons_append, run_cons, run_cons]
      cases step s e with
      | none => rfl
      | some s' => exact ih s'

/-- A run can be continued from the state in which it ends. -/
theorem run_append_of_some {s s' : σ} {es : List ε} (h : run step s es = some s')
    (fs : List ε) : run step s (es ++ fs) = run step s' fs := by
  rw [run_append, h, Option.bind_some]

/-- **What is seen of a run in two parts.** It is what is seen of the first part, and then what is
seen of the second from the state between them. -/
theorem observe_append_of_some {O : σ → ε → List β} {s s' : σ} {es : List ε}
    (h : run step s es = some s') (fs : List ε) :
    observe step O s (es ++ fs) = observe step O s es ++ observe step O s' fs := by
  induction es generalizing s with
  | nil =>
      obtain rfl : s = s' := Option.some.inj h
      rfl
  | cons e es ih =>
      obtain ⟨t, ht, hrest⟩ := Option.bind_eq_some_iff.mp h
      rw [List.cons_append, observe, observe, ht, Option.elim_some, Option.elim_some, ih hrest,
        List.append_assoc]

/-- A condition on the events alone holds along every run of such events. -/
theorem along_of_forall {C : ε → Prop} {es : List ε} (h : ∀ e ∈ es, C e) (s : σ) :
    Along step (fun _ e => C e) s es := by
  induction es generalizing s with
  | nil => trivial
  | cons e es ih =>
      refine ⟨h e List.mem_cons_self, fun s' _ => ?_⟩
      exact ih (fun e' he' => h e' (List.mem_cons_of_mem e he')) s'

/-- A condition that holds along a run holds along it in a weaker form. -/
theorem Along.mono {C D : σ → ε → Prop} (hCD : ∀ s e, C s e → D s e) {s : σ} {es : List ε}
    (h : Along step C s es) : Along step D s es := by
  induction es generalizing s with
  | nil => trivial
  | cons e es ih => exact ⟨hCD s e h.1, fun s' hs' => ih (h.2 s' hs')⟩

/-- **The invariant rule**: an invariant on the state, on what has been seen so far, and on whether
the condition `C` held at every step so far, for runs whose steps meet the condition `E`. -/
theorem run_invariant_observe {I : σ → List β → Prop → Prop} {E C : σ → ε → Prop}
    {O : σ → ε → List β}
    (hstep : ∀ s w P e s', I s w P → E s e → step s e = some s' → I s' (w ++ O s e) (P ∧ C s e))
    {s s' : σ} {w : List β} {P : Prop} {es : List ε} (hs : I s w P) (hE : Along step E s es)
    (h : run step s es = some s') :
    I s' (w ++ observe step O s es) (P ∧ Along step C s es) := by
  induction es generalizing s w P with
  | nil =>
      obtain rfl : s = s' := Option.some.inj h
      simpa [observe, Along] using hs
  | cons e es ih =>
      obtain ⟨t, ht, hrest⟩ := Option.bind_eq_some_iff.mp h
      have hI := ih (hstep s w P e t hs hE.1 ht) (hE.2 t ht) hrest
      have hseen : observe step O s (e :: es) = O s e ++ observe step O t es := by
        rw [observe, ht, Option.elim_some]
      have halong : Along step C s (e :: es) ↔ C s e ∧ Along step C t es := by
        simp [Along, ht]
      rwa [hseen, halong, ← List.append_assoc, ← and_assoc]

/-- The rule for all runs: no condition is made on their steps, so that the invariant can say
exactly in which runs the condition `C` has held. -/
theorem run_invariant_iff {I : σ → List β → Prop → Prop} {C : σ → ε → Prop}
    {O : σ → ε → List β}
    (hstep : ∀ s w P e s', I s w P → step s e = some s' → I s' (w ++ O s e) (P ∧ C s e))
    {s s' : σ} {w : List β} {P : Prop} {es : List ε} (hs : I s w P)
    (h : run step s es = some s') :
    I s' (w ++ observe step O s es) (P ∧ Along step C s es) :=
  run_invariant_observe (fun s w P e s' hI _ => hstep s w P e s' hI) hs
    (along_of_forall (fun _ _ => trivial) s) h

/-- The rule for an invariant that does not look at what has been seen. -/
theorem run_invariant_along {I : σ → Prop → Prop} {E C : σ → ε → Prop}
    (hstep : ∀ s P e s', I s P → E s e → step s e = some s' → I s' (P ∧ C s e))
    {s s' : σ} {P : Prop} {es : List ε} (hs : I s P) (hE : Along step E s es)
    (h : run step s es = some s') : I s' (P ∧ Along step C s es) :=
  run_invariant_observe (I := fun s (_ : List Unit) P => I s P) (O := fun _ _ => []) (w := [])
    (fun s _ P e s' => hstep s P e s') hs hE h

/-- **What every step preserves, every run preserves**: the rule for an invariant on the state
alone. -/
theorem run_invariant {I : σ → Prop} {C : σ → ε → Prop}
    (hstep : ∀ s e s', I s → C s e → step s e = some s' → I s')
    {s s' : σ} {es : List ε} (hs : I s) (hC : Along step C s es) (h : run step s es = some s') :
    I s' :=
  run_invariant_along (I := fun s _ => I s) (C := fun _ _ => True) (P := True)
    (fun s _ e s' => hstep s e s') hs hC h

/-- **A log that every step extends** by what the event says holds, after a run, what its events
say, in order. -/
theorem eq_append_of_run {f : σ → List β} {g : ε → List β}
    (hstep : ∀ s e s', step s e = some s' → f s' = f s ++ g e) {s s' : σ} {es : List ε}
    (h : run step s es = some s') : f s' = f s ++ es.flatMap g := by
  induction es generalizing s with
  | nil =>
      obtain rfl : s = s' := Option.some.inj h
      simp
  | cons e es ih =>
      obtain ⟨t, ht, hrest⟩ := Option.bind_eq_some_iff.mp h
      rw [ih hrest, hstep s e t ht, List.flatMap_cons, List.append_assoc]

/-- **A run cannot be longer** than a measure that every step makes smaller. The condition on the
events of the run may speak of the states in which they happen. -/
theorem length_add_le {I : σ → Prop} {C : σ → ε → Prop} (μ : σ → ℕ)
    (hstep : ∀ s e s', I s → C s e → step s e = some s' → I s' ∧ μ s' < μ s)
    {s s' : σ} {es : List ε} (hs : I s) (hC : Along step C s es) (h : run step s es = some s') :
    es.length + μ s' ≤ μ s := by
  induction es generalizing s with
  | nil =>
      obtain rfl : s = s' := Option.some.inj h
      simp
  | cons e es ih =>
      obtain ⟨t, ht, hrest⟩ := Option.bind_eq_some_iff.mp h
      obtain ⟨htI, hlt⟩ := hstep s e t hs hC.1 ht
      have hle := ih htI (hC.2 t ht) hrest
      rw [List.length_cons]
      omega

/-- **A run can be completed**, from a state that meets an invariant: where every event that meets
`E` makes a measure smaller, in some well-founded order, some such events lead to a state in which
none of them can happen. -/
theorem exists_run_to_idle_of_wellFounded {α : Type w} {r : α → α → Prop} (hr : WellFounded r)
    {I : σ → Prop} {E : ε → Prop} (μ : σ → α)
    (hstep : ∀ s e s', I s → E e → step s e = some s' → I s' ∧ r (μ s') (μ s)) {s : σ} (hs : I s) :
    ∃ es s', run step s es = some s' ∧ I s' ∧ (∀ e ∈ es, E e) ∧ ∀ e, E e → step s' e = none := by
  induction h : μ s using hr.induction generalizing s with
  | h a ih =>
      by_cases hidle : ∀ e, E e → step s e = none
      · exact ⟨[], s, rfl, hs, by simp, hidle⟩
      · obtain ⟨e, he, hne⟩ : ∃ e, E e ∧ step s e ≠ none := by
          simpa only [not_forall, exists_prop] using hidle
        obtain ⟨t, ht⟩ := Option.ne_none_iff_exists'.mp hne
        obtain ⟨htI, hlt⟩ := hstep s e t hs he ht
        obtain ⟨es, s', hrun, hs', hes, hidle'⟩ := ih (μ t) (h ▸ hlt) htI rfl
        refine ⟨e :: es, s', ?_, hs', List.forall_mem_cons.mpr ⟨he, hes⟩, hidle'⟩
        rw [run_cons, ht, Option.bind_some, hrun]

/-- The rule for a measure that is a number. -/
theorem exists_run_to_idle_of_invariant {I : σ → Prop} {E : ε → Prop} (μ : σ → ℕ)
    (hstep : ∀ s e s', I s → E e → step s e = some s' → I s' ∧ μ s' < μ s) {s : σ} (hs : I s) :
    ∃ es s', run step s es = some s' ∧ I s' ∧ (∀ e ∈ es, E e) ∧ ∀ e, E e → step s' e = none :=
  exists_run_to_idle_of_wellFounded Nat.lt_wfRel.wf μ hstep hs

/-- The rule for a measure that every step makes smaller, whatever the state. -/
theorem exists_run_to_idle {E : ε → Prop} (μ : σ → ℕ)
    (hstep : ∀ s e s', E e → step s e = some s' → μ s' < μ s) (s : σ) :
    ∃ es s', run step s es = some s' ∧ (∀ e ∈ es, E e) ∧ ∀ e, E e → step s' e = none := by
  obtain ⟨es, s', hrun, -, hes, hidle⟩ := exists_run_to_idle_of_invariant (I := fun _ => True) μ
    (fun s e s' _ he h => ⟨trivial, hstep s e s' he h⟩) (trivial : (fun _ => True) s)
  exact ⟨es, s', hrun, hes, hidle⟩

end Transition
