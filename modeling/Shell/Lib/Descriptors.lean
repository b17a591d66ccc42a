import Mathlib.Data.Nat.Find

/-! # Descriptor tables

A process's table of open files. It holds finitely many and none below zero, so
that a lowest free descriptor always exists; `open` and `pipe` return that one. -/
namespace Shell.Lib

structure Descriptors (δ : Type) where
  file : Int → Option δ
  bounded : ∃ n : Nat, ∀ fd, (file fd).isSome → 0 ≤ fd ∧ fd < n

namespace Descriptors

variable {δ ε : Type}

@[ext] theorem ext {t t' : Descriptors δ} (h : ∀ fd, t.file fd = t'.file fd) : t = t' := by
  cases t
  cases t'
  congr
  exact funext h

theorem exists_free (t : Descriptors δ) : ∃ fd : Nat, (t.file fd).isNone := by
  obtain ⟨n, hn⟩ := t.bounded
  refine ⟨n, ?_⟩
  cases h : t.file n with
  | none => rfl
  | some d => exact absurd (hn n (by rw [h]; rfl)).2 (Int.lt_irrefl _)

theorem file_of_neg (t : Descriptors δ) {fd : Int} (h : fd < 0) : t.file fd = none := by
  obtain ⟨n, hn⟩ := t.bounded
  cases hfd : t.file fd with
  | none => rfl
  | some d => exact absurd (hn fd (by rw [hfd]; rfl)).1 (Int.not_le.mpr h)

/-- The descriptor that a call returns which opens one. -/
def lowest (t : Descriptors δ) : Nat := Nat.find t.exists_free

theorem file_lowest (t : Descriptors δ) : t.file t.lowest = none :=
  Option.isNone_iff_eq_none.mp (Nat.find_spec t.exists_free)

theorem lowest_le {t : Descriptors δ} {fd : Nat} (h : t.file fd = none) : t.lowest ≤ fd :=
  Nat.find_min' t.exists_free (Option.isNone_iff_eq_none.mpr h)

/-- `fd` refers to `d`. -/
def put (t : Descriptors δ) (fd : Nat) (d : δ) : Descriptors δ where
  file x := if x = fd then some d else t.file x
  bounded := by
    obtain ⟨n, hn⟩ := t.bounded
    refine ⟨max n (fd + 1), fun x hx => ?_⟩
    split at hx
    · omega
    · have := hn x hx
      omega

def close (t : Descriptors δ) (fd : Int) : Descriptors δ where
  file x := if x = fd then none else t.file x
  bounded := by
    obtain ⟨n, hn⟩ := t.bounded
    refine ⟨n, fun x hx => ?_⟩
    split at hx
    · cases hx
    · exact hn x hx

/-- Where `old` is not open nothing happens. -/
def dup2 (t : Descriptors δ) (old : Int) (new : Nat) : Descriptors δ :=
  match t.file old with
  | none => t
  | some d => t.put new d

def map (f : δ → ε) (t : Descriptors δ) : Descriptors ε where
  file x := (t.file x).map f
  bounded := by simpa only [Option.isSome_map] using t.bounded

@[simp] theorem file_put (t : Descriptors δ) (fd : Nat) (d : δ) (x : Int) :
    (t.put fd d).file x = if x = fd then some d else t.file x := rfl

@[simp] theorem file_close (t : Descriptors δ) (fd x : Int) :
    (t.close fd).file x = if x = fd then none else t.file x := rfl

@[simp] theorem file_map (f : δ → ε) (t : Descriptors δ) (x : Int) :
    (t.map f).file x = (t.file x).map f := rfl

theorem dup2_of_some {t : Descriptors δ} {old : Int} {d : δ} (h : t.file old = some d) (new : Nat) :
    t.dup2 old new = t.put new d := by
  rw [dup2, h]

theorem dup2_of_none {t : Descriptors δ} {old : Int} (h : t.file old = none) (new : Nat) :
    t.dup2 old new = t := by
  rw [dup2, h]

theorem lowest_eq_zero {t : Descriptors δ} (h : t.file 0 = none) : t.lowest = 0 :=
  Nat.le_zero.mp (lowest_le h)

/-- Two descriptors opened in a row, where 1 is free. -/
theorem lowest_eq_one_or {t : Descriptors δ} (h : t.file 1 = none) (d : δ) :
    t.lowest = 1 ∨ (t.put t.lowest d).lowest = 1 := by
  have hfirst : t.lowest ≤ 1 := lowest_le h
  by_cases hone : t.lowest = 1
  · exact .inl hone
  · have hzero : t.lowest = 0 := by omega
    have hfree : (t.put 0 d).file (1 : Nat) = none := h
    have hsecond : (t.put 0 d).lowest ≤ 1 := lowest_le hfree
    have hused : (t.put 0 d).lowest ≠ 0 := by
      intro heq
      have hnone := (t.put 0 d).file_lowest
      rw [heq] at hnone
      cases hnone
    rw [hzero]
    exact .inr (by omega)

/-- Descriptors closed one after the other. -/
theorem file_foldl_close (t : Descriptors δ) (fds : List Int) (x : Int) :
    (fds.foldl close t).file x = if x ∈ fds then none else t.file x := by
  induction fds generalizing t with
  | nil => rw [List.foldl_nil, if_neg List.not_mem_nil]
  | cons fd fds ih =>
    rw [List.foldl_cons, ih, file_close]
    by_cases hx : x ∈ fds
    · rw [if_pos hx, if_pos (List.mem_cons_of_mem _ hx)]
    · by_cases heq : x = fd
      · rw [if_neg hx, if_pos heq, if_pos (List.mem_cons.mpr (.inl heq))]
      · rw [if_neg hx, if_neg heq, if_neg (fun h => (List.mem_cons.mp h).elim heq hx)]

end Descriptors

end Shell.Lib
