/-
  Foundation/Transition.lean --- labelled transition systems.

  A system takes silent steps and steps that show an event.  A run collects the
  events; an invariant that holds at the start and that every step keeps holds
  after every run; a simulation carries every run of the concrete system to a run
  of the abstract one with the same events.
-/
import Mathlib.Data.Set.Basic
import Mathlib.Data.List.Basic

set_option autoImplicit false

namespace HosBoot.Foundation

variable {σ τ ε : Type}

/-- A transition system; a step without an event is silent. -/
structure TransitionSystem (σ ε : Type) where
  init : σ → Prop
  step : σ → Option ε → σ → Prop

namespace TransitionSystem

/-- Finitely many steps, and the events they show, in order. -/
inductive Run (S : TransitionSystem σ ε) : σ → List ε → σ → Prop
  | refl (s : σ) : Run S s [] s
  | snoc {s m t : σ} {trace : List ε} {label : Option ε} :
      Run S s trace m → S.step m label t → Run S s (trace ++ label.toList) t

variable {S : TransitionSystem σ ε}

theorem Run.single {s t : σ} {label : Option ε} (h : S.step s label t) :
    S.Run s label.toList t := by
  have hrun : S.Run s ([] ++ label.toList) t := Run.snoc (Run.refl s) h
  simpa using hrun

/-- One run after another. -/
theorem Run.append {s m t : σ} {first second : List ε} (hfirst : S.Run s first m)
    (hsecond : S.Run m second t) : S.Run s (first ++ second) t := by
  induction hsecond with
  | refl => simpa using hfirst
  | snoc _ hstep ih =>
    rw [← List.append_assoc]
    exact Run.snoc ih hstep

/-- The states that some run reaches from an initial one. -/
def Reachable (S : TransitionSystem σ ε) (t : σ) : Prop :=
  ∃ s trace, S.init s ∧ S.Run s trace t

/-! ## Invariants -/

/-- A property of the initial states that every step keeps. -/
structure Invariant (S : TransitionSystem σ ε) (I : σ → Prop) : Prop where
  init : ∀ s, S.init s → I s
  step : ∀ s label t, I s → S.step s label t → I t

variable {I : σ → Prop}

theorem Invariant.of_run (h : S.Invariant I) {s t : σ} {trace : List ε} (hs : I s)
    (hrun : S.Run s trace t) : I t := by
  induction hrun with
  | refl => exact hs
  | snoc _ hstep ih => exact h.step _ _ _ ih hstep

theorem Invariant.of_reachable (h : S.Invariant I) {t : σ} (ht : S.Reachable t) : I t := by
  obtain ⟨s, trace, hinit, hrun⟩ := ht
  exact h.of_run (h.init s hinit) hrun

/-! ## Simulations -/

/-- Each step of `C` is answered by a run of `A` that shows the same events. -/
structure Simulation (C : TransitionSystem σ ε) (A : TransitionSystem τ ε)
    (R : σ → τ → Prop) : Prop where
  init : ∀ s, C.init s → ∃ a, A.init a ∧ R s a
  step : ∀ s a label t, R s a → C.step s label t → ∃ b, A.Run a label.toList b ∧ R t b

variable {C : TransitionSystem σ ε} {A : TransitionSystem τ ε} {R : σ → τ → Prop}

/-- A whole run of the concrete system, matched from related states. -/
theorem Simulation.run (h : C.Simulation A R) {s t : σ} {a : τ} {trace : List ε}
    (hrel : R s a) (hrun : C.Run s trace t) : ∃ b, A.Run a trace b ∧ R t b := by
  induction hrun with
  | refl => exact ⟨a, Run.refl a, hrel⟩
  | snoc _ hstep ih =>
    obtain ⟨m, hm, hrelm⟩ := ih
    obtain ⟨b, hb, hrelb⟩ := h.step _ _ _ _ hrelm hstep
    exact ⟨b, hm.append hb, hrelb⟩

theorem Simulation.of_init (h : C.Simulation A R) {s t : σ} {trace : List ε}
    (hinit : C.init s) (hrun : C.Run s trace t) :
    ∃ a b, A.init a ∧ A.Run a trace b ∧ R t b := by
  obtain ⟨a, ha, hrel⟩ := h.init s hinit
  obtain ⟨b, hb, hrelb⟩ := h.run hrel hrun
  exact ⟨a, b, ha, hb, hrelb⟩

end TransitionSystem

end HosBoot.Foundation
