import Mathlib.Data.Nat.Basic
import Mathlib.Logic.Function.Iterate

/-! # Loops with a measure

A loop body is a function into `σ ⊕ ρ`: `.inl` goes round again, `.inr` leaves
the loop. `loop` runs a body on fuel; `run` gives it the fuel a measure allows.
When every further round lowers the measure, `run` always ends and unfolds one
round at a time, so that later proofs never mention fuel; `exec` is its value. -/
namespace Shell.Lib.Loop

variable {σ ρ : Type} {body : σ → σ ⊕ ρ} {μ : σ → Nat}

def loop (body : σ → σ ⊕ ρ) : Nat → σ → Option ρ
  | 0, _ => none
  | fuel + 1, s => match body s with
    | .inl s' => loop body fuel s'
    | .inr r => some r

def run (body : σ → σ ⊕ ρ) (μ : σ → Nat) (s : σ) : Option ρ := loop body (μ s + 1) s

/-- Every round that goes on lowers the measure. -/
def Decreasing (body : σ → σ ⊕ ρ) (μ : σ → Nat) : Prop :=
  ∀ s s', body s = .inl s' → μ s' < μ s

theorem loop_fuel (h : Decreasing body μ) :
    ∀ (n m : Nat) (s : σ), μ s < n → μ s < m → loop body n s = loop body m s
  | 0, _, _, hn, _ => by omega
  | _, 0, _, _, hm => by omega
  | n + 1, m + 1, s, hn, hm => by
    simp only [loop]
    cases hb : body s with
    | inr r => rfl
    | inl s' =>
      have hlt := h s s' hb
      exact loop_fuel h n m s' (by omega) (by omega)

theorem run_of_inl (h : Decreasing body μ) {s s' : σ} (hb : body s = .inl s') :
    run body μ s = run body μ s' := by
  have hlt := h s s' hb
  have hfuel : loop body (μ s) s' = loop body (μ s' + 1) s' :=
    loop_fuel h (μ s) (μ s' + 1) s' hlt (by omega)
  simpa only [run, loop, hb] using hfuel

theorem run_of_inr {s : σ} {r : ρ} (hb : body s = .inr r) : run body μ s = some r := by
  simp only [run, loop, hb]

theorem run_isSome (h : Decreasing body μ) (s : σ) : ∃ r, run body μ s = some r := by
  induction hn : μ s using Nat.strong_induction_on generalizing s with
  | _ n ih =>
    cases hb : body s with
    | inr r => exact ⟨r, run_of_inr hb⟩
    | inl s' =>
      rw [run_of_inl h hb]
      exact ih (μ s') (hn ▸ h s s' hb) s' rfl

/-- What holds at the start and of every further round holds of the round that
leaves the loop. -/
theorem run_invariant (I : σ → Prop) (h : Decreasing body μ)
    (step : ∀ s s', I s → body s = .inl s' → I s') {s : σ} {r : ρ} (hs : I s)
    (hr : run body μ s = some r) : ∃ t, I t ∧ body t = .inr r := by
  induction hn : μ s using Nat.strong_induction_on generalizing s with
  | _ n ih =>
    cases hb : body s with
    | inr r' =>
      rw [run_of_inr hb] at hr
      exact ⟨s, hs, by rw [hb, Option.some.inj hr]⟩
    | inl s' =>
      rw [run_of_inl h hb] at hr
      exact ih (μ s') (hn ▸ h s s' hb) (step s s' hs hb) hr rfl

/-- The loop as a total function. -/
def exec (body : σ → σ ⊕ ρ) (μ : σ → Nat) (h : Decreasing body μ) (s : σ) : ρ :=
  (run body μ s).get (Option.isSome_iff_exists.mpr (run_isSome h s))

theorem run_eq_exec (h : Decreasing body μ) (s : σ) : run body μ s = some (exec body μ h s) :=
  (Option.some_get _).symm

theorem exec_of_inl (h : Decreasing body μ) {s s' : σ} (hb : body s = .inl s') :
    exec body μ h s = exec body μ h s' := by
  have hrun := run_of_inl h hb
  rw [run_eq_exec h, run_eq_exec h] at hrun
  exact Option.some.inj hrun

theorem exec_of_inr (h : Decreasing body μ) {s : σ} {r : ρ} (hb : body s = .inr r) :
    exec body μ h s = r := by
  have hrun := run_of_inr (μ := μ) hb
  rw [run_eq_exec h] at hrun
  exact Option.some.inj hrun

/-- The round that leaves the loop keeps every invariant. -/
theorem exec_invariant (I : σ → Prop) (h : Decreasing body μ)
    (step : ∀ s s', I s → body s = .inl s' → I s') {s : σ} (hs : I s) :
    ∃ t, I t ∧ body t = .inr (exec body μ h s) :=
  run_invariant I h step hs (run_eq_exec h s)

/-- Two loops whose rounds are related end related. -/
theorem exec_rel {σ' ρ' : Type} {body' : σ' → σ' ⊕ ρ'} {μ' : σ' → Nat} {R : σ → σ' → Prop}
    {Q : ρ → ρ' → Prop} (h : Decreasing body μ) (h' : Decreasing body' μ')
    (step : ∀ s s', R s s' → Sum.LiftRel R Q (body s) (body' s')) {s : σ} {s' : σ'} (hs : R s s') :
    Q (exec body μ h s) (exec body' μ' h' s') := by
  induction hn : μ s using Nat.strong_induction_on generalizing s s' with
  | _ n ih =>
    have hstep := step s s' hs
    cases hb : body s with
    | inl t =>
      cases hb' : body' s' with
      | inl t' =>
        rw [hb, hb', Sum.liftRel_inl_inl] at hstep
        rw [exec_of_inl h hb, exec_of_inl h' hb']
        exact ih (μ t) (hn ▸ h s t hb) hstep rfl
      | inr r' =>
        rw [hb, hb'] at hstep
        cases hstep
    | inr r =>
      cases hb' : body' s' with
      | inl t' =>
        rw [hb, hb'] at hstep
        cases hstep
      | inr r' =>
        rw [hb, hb', Sum.liftRel_inr_inr] at hstep
        rwa [exec_of_inr h hb, exec_of_inr h' hb']

/-! ## What a loop sees -/

section Seen
variable {γ : Type} (see : σ → List γ)

def loopSeen (body : σ → σ ⊕ ρ) : Nat → σ → List γ
  | 0, _ => []
  | fuel + 1, s => see s ++ match body s with
    | .inl s' => loopSeen body fuel s'
    | .inr _ => []

/-- What `see` picks out of the states of a run, first to last. -/
def seen (body : σ → σ ⊕ ρ) (μ : σ → Nat) (s : σ) : List γ := loopSeen see body (μ s + 1) s

theorem loopSeen_fuel (h : Decreasing body μ) :
    ∀ (n m : Nat) (s : σ), μ s < n → μ s < m → loopSeen see body n s = loopSeen see body m s
  | 0, _, _, hn, _ => by omega
  | _, 0, _, _, hm => by omega
  | n + 1, m + 1, s, hn, hm => by
    simp only [loopSeen]
    cases hb : body s with
    | inr r => rfl
    | inl s' =>
      have hlt := h s s' hb
      exact congrArg (see s ++ ·) (loopSeen_fuel h n m s' (by omega) (by omega))

theorem seen_of_inl (h : Decreasing body μ) {s s' : σ} (hb : body s = .inl s') :
    seen see body μ s = see s ++ seen see body μ s' := by
  have hlt := h s s' hb
  have hfuel : loopSeen see body (μ s) s' = loopSeen see body (μ s' + 1) s' :=
    loopSeen_fuel see h (μ s) (μ s' + 1) s' hlt (by omega)
  simpa only [seen, loopSeen, hb, List.append_cancel_left_eq] using hfuel

theorem seen_of_inr {s : σ} {r : ρ} (hb : body s = .inr r) : seen see body μ s = see s := by
  simp only [seen, loopSeen, hb, List.append_nil]

/-- Two bodies that do the same wherever all that is seen satisfies `P` see the same
and end the same, if all that the first one sees does. -/
theorem exec_eq_of_seen {body' : σ → σ ⊕ ρ} (h : Decreasing body μ) (h' : Decreasing body' μ)
    {P : γ → Prop} (step : ∀ s, (∀ x ∈ see s, P x) → body s = body' s) {s : σ}
    (hs : ∀ x ∈ seen see body μ s, P x) :
    exec body μ h s = exec body' μ h' s ∧ seen see body μ s = seen see body' μ s := by
  induction hn : μ s using Nat.strong_induction_on generalizing s with
  | _ n ih =>
    cases hb : body s with
    | inr r =>
      rw [seen_of_inr see hb] at hs ⊢
      have hb' := (step s hs).symm.trans hb
      rw [exec_of_inr h hb, exec_of_inr h' hb', seen_of_inr see hb']
      exact ⟨rfl, rfl⟩
    | inl t =>
      rw [seen_of_inl see h hb] at hs ⊢
      have hb' := (step s fun x hx => hs x (List.mem_append_left _ hx)).symm.trans hb
      obtain ⟨hexec, hseen⟩ :=
        ih (μ t) (hn ▸ h s t hb) (fun x hx => hs x (List.mem_append_right _ hx)) rfl
      rw [exec_of_inl h hb, exec_of_inl h' hb', seen_of_inl see h' hb', hseen]
      exact ⟨hexec, rfl⟩

/-- What is seen in the states of an invariant. -/
theorem forall_seen {I : σ → Prop} {P : γ → Prop} (h : Decreasing body μ)
    (step : ∀ s s', I s → body s = .inl s' → I s') (hsee : ∀ s, I s → ∀ x ∈ see s, P x) {s : σ}
    (hs : I s) : ∀ x ∈ seen see body μ s, P x := by
  induction hn : μ s using Nat.strong_induction_on generalizing s with
  | _ n ih =>
    cases hb : body s with
    | inr r =>
      rw [seen_of_inr see hb]
      exact hsee s hs
    | inl t =>
      rw [seen_of_inl see h hb, List.forall_mem_append]
      exact ⟨hsee s hs, ih (μ t) (hn ▸ h s t hb) (step s t hs hb) rfl⟩

end Seen

/-! ## Loops without a measure

A body that always goes on in the same way may run for ever; it ends on some fuel
exactly when one of the states that it walks through leaves the loop. -/

/-- What holds at the start and of every further round holds where the loop is left. -/
theorem loop_invariant (I : σ → Prop) (step : ∀ s s', I s → body s = .inl s' → I s') {fuel : Nat}
    {s : σ} {r : ρ} (hs : I s) (h : loop body fuel s = some r) : ∃ t, I t ∧ body t = .inr r := by
  induction fuel generalizing s with
  | zero => cases h
  | succ fuel ih =>
    cases hb : body s with
    | inr r' =>
      simp only [loop, hb] at h
      exact ⟨s, hs, hb.trans (congrArg Sum.inr (Option.some.inj h))⟩
    | inl s' =>
      simp only [loop, hb] at h
      exact ih (step s s' hs hb) h

/-- A loop that ends does so on any more fuel. -/
theorem loop_mono {fuel fuel' : Nat} (hle : fuel ≤ fuel') {s : σ} {r : ρ}
    (h : loop body fuel s = some r) : loop body fuel' s = some r := by
  induction fuel generalizing fuel' s with
  | zero => cases h
  | succ fuel ih =>
    cases fuel' with
    | zero => cases hle
    | succ fuel' =>
      cases hb : body s with
      | inl s' =>
        simp only [loop, hb] at h ⊢
        exact ih (Nat.le_of_succ_le_succ hle) h
      | inr t =>
        simp only [loop, hb] at h ⊢
        exact h

/-- More fuel does not change where a loop ends. -/
theorem loop_unique {fuel fuel' : Nat} {s : σ} {r r' : ρ} (h : loop body fuel s = some r)
    (h' : loop body fuel' s = some r') : r = r' := by
  induction fuel generalizing fuel' s with
  | zero => cases h
  | succ fuel ih =>
    cases fuel' with
    | zero => cases h'
    | succ fuel' =>
      cases hb : body s with
      | inr t =>
        simp only [loop, hb, Option.some.injEq] at h h'
        exact h.symm.trans h'
      | inl s' =>
        simp only [loop, hb] at h h'
        exact ih h h'

section Walk
variable {next : σ → σ}

theorem loop_eq_some_iterate (hnext : ∀ s s', body s = .inl s' → s' = next s) {fuel : Nat} {s : σ}
    {r : ρ} (h : loop body fuel s = some r) : ∃ k, body (next^[k] s) = .inr r := by
  obtain ⟨t, ⟨k, rfl⟩, ht⟩ := loop_invariant (fun t => ∃ k, next^[k] s = t)
    (fun t t' hreached hb => by
      obtain ⟨k, rfl⟩ := hreached
      rw [hnext _ t' hb]
      exact ⟨k + 1, Function.iterate_succ_apply' next k s⟩)
    ⟨0, rfl⟩ h
  exact ⟨k, ht⟩

theorem loop_isSome_of_iterate (hnext : ∀ s s', body s = .inl s' → s' = next s) {k : Nat} {s : σ}
    {r : ρ} (h : body (next^[k] s) = .inr r) : ∃ fuel r', loop body fuel s = some r' := by
  induction k generalizing s with
  | zero => exact ⟨1, r, by simp only [loop, show body s = .inr r from h]⟩
  | succ k ih =>
    cases hb : body s with
    | inr r' => exact ⟨1, r', by simp only [loop, hb]⟩
    | inl s' =>
      obtain rfl := hnext s s' hb
      obtain ⟨fuel, r', hr⟩ := ih h
      exact ⟨fuel + 1, r', by simp only [loop, hb, hr]⟩

end Walk

end Shell.Lib.Loop
