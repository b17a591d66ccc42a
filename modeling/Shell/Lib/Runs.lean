import Mathlib.Logic.Basic

/-! # Runs of a labelled step relation

States reached from an initial one by labelled steps: an invariant holds in
every reached state. -/
namespace Shell.Lib.Runs

variable {σ α : Type} {init : σ} {step : σ → α → σ → Prop}

inductive Reach (init : σ) (step : σ → α → σ → Prop) : σ → Prop
  | start : Reach init step init
  | next {s s' : σ} {a : α} : Reach init step s → step s a s' → Reach init step s'

theorem Reach.invariant {I : σ → Prop} (hinit : I init)
    (hstep : ∀ s a s', I s → step s a s' → I s') {s : σ} (h : Reach init step s) : I s := by
  induction h with
  | start => exact hinit
  | next _ hs ih => exact hstep _ _ _ ih hs

theorem Reach.trans {s t : σ} (h : Reach init step s) (h' : Reach s step t) : Reach init step t := by
  induction h' with
  | start => exact h
  | next _ hs ih => exact ih.next hs

/-- A run with the state in front of each of its steps. -/
inductive Path (step : σ → α → σ → Prop) : σ → List (σ × α) → σ → Prop
  | done {s : σ} : Path step s [] s
  | next {s s' t : σ} {a : α} {steps : List (σ × α)} :
    step s a s' → Path step s' steps t → Path step s ((s, a) :: steps) t

/-- What exactly the good steps keep holds all along a run exactly when its steps are good. -/
theorem Path.invariant_iff {I : σ → Prop} {G : σ → α → Prop}
    (hstep : ∀ s a s', I s → step s a s' → (I s' ↔ G s a)) {s t : σ} {steps : List (σ × α)}
    (h : Path step s steps t) (hs : I s) :
    ((∀ p ∈ steps, I p.1) ∧ I t) ↔ ∀ p ∈ steps, G p.1 p.2 := by
  induction h with
  | done =>
    refine ⟨fun _ p hp => absurd hp List.not_mem_nil, fun _ => ⟨fun p hp => ?_, hs⟩⟩
    exact absurd hp List.not_mem_nil
  | @next s s' t a steps hfirst hrest ih =>
    have hgood := hstep s a s' hs hfirst
    rw [List.forall_mem_cons, List.forall_mem_cons]
    constructor
    · intro hall
      have hnext : I s' := by
        cases hrest with
        | done => exact hall.2
        | next _ _ => exact hall.1.2 _ List.mem_cons_self
      exact ⟨hgood.mp hnext, (ih hnext).mp ⟨hall.1.2, hall.2⟩⟩
    · intro hall
      obtain ⟨hsteps, hlast⟩ := (ih (hgood.mpr hall.1)).mpr hall.2
      exact ⟨⟨hs, hsteps⟩, hlast⟩

end Shell.Lib.Runs
