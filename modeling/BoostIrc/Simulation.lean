import BoostIrc.Transition

/-!
# Simulations

A small library about two systems, one of which does what the other does: every step of the first is
matched by a run of the second, in states that correspond to each other. What holds after all runs
of the second system then holds of the first, and systems can be stacked.

## Main results

* `Simulates.exists_run`: **every run is matched.**
* `Simulates.trans`: simulations compose.
* `Simulates.invariant`: an invariant of the second system holds in the first.
-/

namespace Transition

universe u v

variable {σ τ υ : Type u} {ε δ γ : Type v} {step : σ → ε → Option σ} {step' : τ → δ → Option τ}
  {step'' : υ → γ → Option υ}

/-- **A simulation** `R`: a step of the first system, with an event that meets `E`, is matched by a
run of the second, with events that meet `D`. -/
structure Simulates (step : σ → ε → Option σ) (step' : τ → δ → Option τ) (R : σ → τ → Prop)
    (E : ε → Prop) (D : δ → Prop) : Prop where
  matched : ∀ s s' t e, R s t → E e → step s e = some s' →
    ∃ ds t', run step' t ds = some t' ∧ (∀ d ∈ ds, D d) ∧ R s' t'

variable {R : σ → τ → Prop} {R' : τ → υ → Prop} {E : ε → Prop} {D : δ → Prop} {C : γ → Prop}

/-- **Every run is matched** by one of the second system. The proof is by induction on the run, with
the events of the second system put one behind the other. -/
theorem Simulates.exists_run (h : Simulates step step' R E D) {s s' : σ} {t : τ} {es : List ε}
    (hR : R s t) (hE : ∀ e ∈ es, E e) (hrun : run step s es = some s') :
    ∃ ds t', run step' t ds = some t' ∧ (∀ d ∈ ds, D d) ∧ R s' t' := by
  induction es generalizing s t with
  | nil =>
      obtain rfl : s = s' := Option.some.inj hrun
      exact ⟨[], t, rfl, by simp, hR⟩
  | cons e es ih =>
      obtain ⟨s₁, hstep, hrest⟩ := Option.bind_eq_some_iff.mp hrun
      obtain ⟨he, hes⟩ := List.forall_mem_cons.mp hE
      obtain ⟨ds, t₁, hds, hD, hR₁⟩ := h.matched s s₁ t e hR he hstep
      obtain ⟨ds', t', hds', hD', hR'⟩ := ih hR₁ hes hrest
      refine ⟨ds ++ ds', t', ?_, List.forall_mem_append.mpr ⟨hD, hD'⟩, hR'⟩
      rw [run_append_of_some hds, hds']

/-- **Simulations compose**: a step that is matched by a run, each of whose steps is matched by a
run, is matched by a run. -/
theorem Simulates.trans (h : Simulates step step' R E D) (h' : Simulates step' step'' R' D C) :
    Simulates step step'' (fun s w => ∃ t, R s t ∧ R' t w) E C where
  matched := by
    rintro s s' w e ⟨t, hR, hR'⟩ he hstep
    obtain ⟨ds, t', hds, hD, hRs⟩ := h.matched s s' t e hR he hstep
    obtain ⟨cs, w', hcs, hC, hRt⟩ := h'.exists_run hR' hD hds
    exact ⟨cs, w', hcs, hC, t', hRs, hRt⟩

/-- **An invariant of the second system holds in the first**, of the states that correspond. Nothing
has to be proved of the steps of the first system but that they are matched. -/
theorem Simulates.invariant (h : Simulates step step' R E D) {I : τ → Prop}
    (hstep : ∀ t d t', I t → D d → step' t d = some t' → I t') {s s' : σ} {t : τ} {es : List ε}
    (hR : R s t) (hI : I t) (hE : ∀ e ∈ es, E e) (hrun : run step s es = some s') :
    ∃ t', R s' t' ∧ I t' := by
  obtain ⟨ds, t', hds, hD, hR'⟩ := h.exists_run hR hE hrun
  exact ⟨t', hR', run_invariant (C := fun _ d => D d) hstep hI (along_of_forall hD t) hds⟩

end Transition
