import Mathlib.Data.List.Basic

/-! # Generators that keep their place between calls

A generator is called until it returns nothing. It delivers a queue when every call
takes the front of what is pending: then what a whole round of calls delivers is what
was pending at its start. -/
namespace Shell.Lib.Generator

variable {σ α : Type}

/-- What the calls deliver from a first result on, until one returns nothing. -/
inductive Delivers (next : σ → Option α × σ) : Option α × σ → List α → Prop
  | done {s : σ} : Delivers next (none, s) []
  | item {m : α} {s : σ} {ms : List α} :
    Delivers next (next s) ms → Delivers next (some m, s) (m :: ms)

theorem Delivers.unique {next : σ → Option α × σ} {r : Option α × σ} {l l' : List α}
    (h : Delivers next r l) (h' : Delivers next r l') : l = l' := by
  induction h generalizing l' with
  | done =>
    cases h' with
    | done => rfl
  | item _ ih =>
    cases h' with
    | item hrest => rw [ih hrest]

/-- The same, with the state that the last call leaves. -/
inductive DeliversTo (next : σ → Option α × σ) : Option α × σ → List α → σ → Prop
  | done {s : σ} : DeliversTo next (none, s) [] s
  | item {m : α} {s t : σ} {ms : List α} :
    DeliversTo next (next s) ms t → DeliversTo next (some m, s) (m :: ms) t

theorem DeliversTo.delivers {next : σ → Option α × σ} {r : Option α × σ} {l : List α} {t : σ}
    (h : DeliversTo next r l t) : Delivers next r l := by
  induction h with
  | done => exact .done
  | item _ ih => exact .item ih

theorem Delivers.exists_to {next : σ → Option α × σ} {r : Option α × σ} {l : List α}
    (h : Delivers next r l) : ∃ t, DeliversTo next r l t := by
  induction h with
  | done => exact ⟨_, .done⟩
  | item _ ih =>
    obtain ⟨t, ht⟩ := ih
    exact ⟨t, .item ht⟩

/-- What the generator leaves when it returns nothing is what the round leaves. -/
theorem DeliversTo.leaves {next : σ → Option α × σ} {r : Option α × σ} {l : List α} {t : σ}
    {I : σ → Prop} (h : DeliversTo next r l t) (hnext : ∀ s, (next s).1 = none → I (next s).2)
    (hr : r.1 = none → I r.2) : I t := by
  induction h with
  | done => exact hr rfl
  | @item _ s _ _ _ ih => exact ih (hnext s)

/-- A call takes the front of what is pending and keeps the invariant. -/
def Pops (pending : σ → List α) (I : σ → Prop) (r : Option α × σ) : List α → Prop
  | [] => r.1 = none
  | m :: ms => r.1 = some m ∧ pending r.2 = ms ∧ I r.2

theorem delivers_of_pops {next : σ → Option α × σ} {pending : σ → List α} {I : σ → Prop}
    (hnext : ∀ s, I s → Pops pending I (next s) (pending s)) {r : Option α × σ} {l : List α}
    (h : Pops pending I r l) : Delivers next r l := by
  induction l generalizing r with
  | nil =>
    obtain ⟨m, s⟩ := r
    obtain rfl : m = none := h
    exact .done
  | cons m ms ih =>
    obtain ⟨m', s⟩ := r
    obtain ⟨hm, hpending, hI⟩ := h
    obtain rfl : m' = some m := hm
    have hrest := hnext s hI
    rw [hpending] at hrest
    exact .item (ih hrest)

end Shell.Lib.Generator
