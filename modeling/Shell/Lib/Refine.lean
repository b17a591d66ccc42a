import Shell.Lib.Loop
import Shell.Lib.Traverse

/-! # Refinement of partial computations

A partial result refines another one if, wherever it is there, the other one is
there too and the two are related; where it is not there, nothing is asked. The
rules follow the ways a state-passing computation is put together, so that a
refinement of the primitives is one of whole runs. -/
namespace Shell.Lib.Refine
open Shell.Lib.Traverse

variable {α α' β β' σ σ' : Type} {R : σ → σ' → Prop} {Q : α → α' → Prop} {P : β → β' → Prop}

def Refines (R : α → α' → Prop) (x : Option α) (y : Option α') : Prop :=
  ∀ a, x = some a → ∃ a', y = some a' ∧ R a a'

/-- Related values, in front of related states. -/
def Both (Q : α → α' → Prop) (R : σ → σ' → Prop) (p : α × σ) (p' : α' × σ') : Prop :=
  Q p.1 p'.1 ∧ R p.2 p'.2

/-- Related states lead to related results. -/
def Simulates (Q : α → α' → Prop) (R : σ → σ' → Prop) (f : σ → Option (α × σ))
    (f' : σ' → Option (α' × σ')) : Prop :=
  ∀ s s', R s s' → Refines (Both Q R) (f s) (f' s')

/-- The same value, of which something is known. -/
def Agree (p : α → Prop) (a a' : α) : Prop := a = a' ∧ p a

theorem refines_none (y : Option α') : Refines Q none y := nofun

theorem refines_some {a : α} {a' : α'} (h : Q a a') : Refines Q (some a) (some a') := by
  intro b hb
  obtain rfl := Option.some.inj hb
  exact ⟨a', rfl, h⟩

theorem Refines.mono {x : Option α} {y : Option α'} {Q' : α → α' → Prop} (h : Refines Q x y)
    (hq : ∀ a a', Q a a' → Q' a a') : Refines Q' x y := by
  intro a ha
  obtain ⟨a', hy, hr⟩ := h a ha
  exact ⟨a', hy, hq a a' hr⟩

theorem Refines.bind {x : Option α} {y : Option α'} {f : α → Option β} {g : α' → Option β'}
    (h : Refines Q x y) (hf : ∀ a a', Q a a' → Refines P (f a) (g a')) :
    Refines P (x.bind f) (y.bind g) := by
  intro b hb
  obtain ⟨a, ha, hb⟩ := Option.bind_eq_some_iff.mp hb
  obtain ⟨a', ha', hq⟩ := h a ha
  obtain ⟨b', hb', hp⟩ := hf a a' hq b hb
  exact ⟨b', Option.bind_eq_some_iff.mpr ⟨a', ha', hb'⟩, hp⟩

theorem Refines.map {x : Option α} {y : Option α'} {f : α → β} {g : α' → β'}
    (h : Refines Q x y) (hf : ∀ a a', Q a a' → P (f a) (g a')) :
    Refines P (x.map f) (y.map g) := by
  intro b hb
  obtain ⟨a, ha, rfl⟩ := Option.map_eq_some_iff.mp hb
  obtain ⟨a', ha', hq⟩ := h a ha
  exact ⟨g a', Option.map_eq_some_iff.mpr ⟨a', ha', rfl⟩, hf a a' hq⟩

/-- A fold whose accumulators stay related; `p` is what is known of each element. -/
theorem refines_foldlM {f : β → α → Option β} {g : β' → α → Option β'} {p : α → Prop}
    (step : ∀ b b' a, p a → P b b' → Refines P (f b a) (g b' a)) {l : List α} {b : β} {b' : β'}
    (hl : ∀ a ∈ l, p a) (h : P b b') : Refines P (l.foldlM f b) (l.foldlM g b') := by
  induction l generalizing b b' with
  | nil => exact refines_some h
  | cons a l ih =>
    rw [List.foldlM_cons, List.foldlM_cons]
    exact (step b b' a (hl a List.mem_cons_self) h).bind fun c c' hc =>
      ih (fun x hx => hl x (List.mem_cons_of_mem _ hx)) hc

theorem simulates_mapState {f : α → σ → Option (β × σ)} {f' : α → σ' → Option (β' × σ')}
    {l : List α} (h : ∀ a ∈ l, Simulates P R (f a) (f' a)) :
    Simulates (List.Forall₂ P) R (mapState f l) (mapState f' l) := by
  induction l with
  | nil => exact fun s s' hs => refines_some ⟨.nil, hs⟩
  | cons a l ih =>
    intro s s' hs
    refine (h a List.mem_cons_self s s' hs).bind fun r r' hr => ?_
    refine (ih (fun x hx => h x (List.mem_cons_of_mem _ hx)) _ _ hr.2).map fun t t' ht => ?_
    exact ⟨.cons hr.1 ht.1, ht.2⟩

theorem agree_of_forall₂ {p : α → Prop} {l l' : List α} (h : List.Forall₂ (Agree p) l l') :
    Agree (fun l => ∀ a ∈ l, p a) l l' := by
  induction h with
  | nil => exact ⟨rfl, nofun⟩
  | cons hab _ ih =>
    obtain ⟨rfl, hp⟩ := hab
    obtain ⟨rfl, hl⟩ := ih
    exact ⟨rfl, List.forall_mem_cons.mpr ⟨hp, hl⟩⟩

/-! ## Loops -/

section Loops
variable {ρ ρ' : Type} {T : ρ → ρ' → Prop}

/-- A round that goes on is followed, and one that leaves with a result is too. -/
def Follows (R : σ → σ' → Prop) (T : ρ → ρ' → Prop) : σ ⊕ Option ρ → σ' ⊕ Option ρ' → Prop
  | .inl s, .inl s' => R s s'
  | .inl _, .inr _ => False
  | .inr x, .inl _ => x = none
  | .inr x, .inr y => Refines T x y

theorem exec_refines {body : σ → σ ⊕ Option ρ} {body' : σ' → σ' ⊕ Option ρ'} {μ : σ → Nat}
    {μ' : σ' → Nat} (h : Loop.Decreasing body μ) (h' : Loop.Decreasing body' μ')
    (step : ∀ s s', R s s' → Follows R T (body s) (body' s')) {s : σ} {s' : σ'} (hs : R s s') :
    Refines T (Loop.exec body μ h s) (Loop.exec body' μ' h' s') := by
  induction hn : μ s using Nat.strong_induction_on generalizing s s' with
  | _ n ih =>
    have hstep := step s s' hs
    cases hb : body s with
    | inl t =>
      rw [hb] at hstep
      cases hb' : body' s' with
      | inl t' =>
        rw [hb'] at hstep
        rw [Loop.exec_of_inl h hb, Loop.exec_of_inl h' hb']
        exact ih (μ t) (hn ▸ h s t hb) hstep rfl
      | inr y =>
        rw [hb'] at hstep
        exact hstep.elim
    | inr x =>
      rw [hb] at hstep
      rw [Loop.exec_of_inr h hb]
      cases hb' : body' s' with
      | inl t' =>
        rw [hb'] at hstep
        obtain rfl : x = none := hstep
        exact refines_none _
      | inr y =>
        rw [hb'] at hstep
        rw [Loop.exec_of_inr h' hb']
        exact hstep

end Loops

end Shell.Lib.Refine
