import Shell.Pipes
import Shell.ShellHost

/-! # What a session leaves open

A host's operations together with what the shell's own `pipe`, `fork`, `close` and
`waitpid` calls make of its process: the descriptors that are open, and the children of
pipelines that nothing waits for any more. -/
namespace Shell.SessionDescriptors
open Shell.CTypes Shell.Parsetypes Shell.Expand Shell.Exec Shell.Pipes Shell.Builtins
open Shell.Lib Shell.Lib.Refine

variable {σ δ β : Type}

/-- What the shell's descriptors refer to has been opened before the call, or by it. -/
def flatten : Description (Description δ) → Description δ
  | .shell d => d
  | .readEnd i => .readEnd i
  | .writeEnd i => .writeEnd i

structure Process (δ : Type) where
  table : Descriptors (Description δ)
  /-- Children of pipelines that nothing waits for any more. -/
  strays : Nat
  /-- The pipelines of several commands that were given up at a `fork`. -/
  refused : Nat

/-- What the system answers, and what an array on the stack happens to hold. -/
structure Answers (σ : Type) where
  /-- The `fork` for the command with this index succeeds. -/
  forks : Pipeline → σ → Nat → Bool
  /-- `pipes` of `execute_pipes`. -/
  pipes : Pipeline → σ → Nat → Int × Int
  /-- The `pipe` of `capture_list_output` succeeds. -/
  pipefd : σ → Bool

def Process.executePipes (forks : Nat → Bool) (n : Nat) (pipes : Nat → Int × Int)
    (p : Process δ) : Process δ :=
  let f := Pipes.executePipes forks n pipes p.table
  { table := f.shell.table.map flatten
    strays := p.strays + (f.shell.children.length - f.waited.length)
    refused := if f.ret = -1 ∧ 2 ≤ n then p.refused + 1 else p.refused }

/-- `pipe(pipefd)`: the process, and both ends. -/
def Process.pipe (p : Process δ) : Process δ × (Int × Int) :=
  let s := Pipes.pipe { table := p.table, pipes := fun _ => (0, 0), children := [] } 0
  ({ p with table := s.table }, s.pipes 0)

def Process.close (p : Process δ) (fd : Int) : Process δ := { p with table := p.table.close fd }

/-- The child in front of `execute_list`; it has no children of its own yet. -/
def Process.child (p : Process δ) : Process δ :=
  let (p, fds) := p.pipe
  (Process.close { table := p.table.dup2 fds.2 1, strays := 0, refused := 0 } fds.1).close fds.2

/-! ## The pipes of a pipeline -/

/-- All children are waited for and every end is closed, or a `fork` has failed behind the
pipe of its round. -/
theorem executePipes_cases (forks : Nat → Bool) (n : Nat) (pipes : Nat → Int × Int)
    (table : Descriptors δ) :
    ((Pipes.executePipes forks n pipes table).ret = 0 ∧
      (Pipes.executePipes forks n pipes table).shell.table = table.map .shell ∧
      (Pipes.executePipes forks n pipes table).shell.children.length =
        (Pipes.executePipes forks n pipes table).waited.length) ∨
    ∃ k, k < n ∧ (Pipes.executePipes forks n pipes table).ret = -1 ∧
      Piping table pipes n (k + 1) (Pipes.executePipes forks n pipes table).shell ∧
      (Pipes.executePipes forks n pipes table).shell.children.length = k := by
  by_cases hall : ∀ i, i < n → forks i = true
  · obtain ⟨s, hs, hstarted⟩ := started_rounds_of_forks table pipes n n hall
    left
    rw [Pipes.executePipes]
    simp only [hs]
    exact ⟨trivial, hstarted.piping.closed, hstarted.length.trans List.length_range.symm⟩
  · have hex : ∃ k, k < n ∧ forks k = false := by
      by_contra hnone
      refine hall fun i hi => ?_
      by_contra hfail
      exact hnone ⟨i, hi, Bool.eq_false_iff.mpr hfail⟩
    obtain ⟨hk, hfail⟩ := Nat.find_spec hex
    have hforks : ∀ i, i < Nat.find hex → forks i = true := by
      intro i hi
      by_contra hfailed
      exact Nat.find_min hex hi ⟨Nat.lt_trans hi hk, Bool.eq_false_iff.mpr hfailed⟩
    obtain ⟨s, hs, hstarted⟩ := started_rounds_of_forks table pipes n _ hforks
    right
    refine ⟨Nat.find hex, hk, ?_⟩
    rw [Pipes.executePipes]
    simp only [foldlM_round_error hk hs hfail]
    exact ⟨trivial, hstarted.piping.beforeFork, by rw [children_beforeFork, hstarted.length]⟩

theorem flatten_map (table : Descriptors (Description δ)) :
    (table.map Description.shell).map flatten = table := by
  ext1 fd
  rw [Descriptors.file_map, Descriptors.file_map]
  cases table.file fd <;> rfl

/-- What is open stays open behind a `fork` that has failed. -/
theorem file_of_piping {table : Descriptors (Description δ)} {pipes : Nat → Int × Int} {n k : Nat}
    {s : Parent (Description δ)} (h : Piping table pipes n k s) {fd : Int} {d : Description δ}
    (hfd : table.file fd = some d) : (s.table.map flatten).file fd = some d := by
  have hothers := h.others fd fun j hj hn => by
    obtain ⟨hread, hwrite⟩ := h.free j hj hn
    constructor
    · intro heq
      rw [heq, hread] at hfd
      cases hfd
    · intro heq
      rw [heq, hwrite] at hfd
      cases hfd
  rw [Descriptors.file_map, hothers, hfd]
  rfl

/-! ## The pipe of a substitution -/

/-- What a child of the host does, without its process. -/
def inside (run : Run (σ × Process δ)) (p : Process δ) : Run σ := fun s =>
  (run (s, p)).map fun r => (r.1, r.2.1)

/-- The process from the start on: nothing that was open is lost; it is as it was as long
as no pipeline has been refused a `fork`, and otherwise something stays open. -/
structure Since (start p : Process δ) : Prop where
  inherited : ∀ fd d, start.table.file fd = some d → p.table.file fd = some d
  unchanged : p.refused = 0 → p.table = start.table ∧ p.strays = 0
  leaked : p.refused ≠ 0 → ∃ fd, start.table.file fd = none ∧ p.table.file fd ≠ none

theorem executePipes_kept (p : Process δ) (forks : Nat → Bool) (n : Nat) (pipes : Nat → Int × Int) :
    p.executePipes forks n pipes = p ∨
    ((p.executePipes forks n pipes).refused = p.refused + 1 ∧
      (∀ fd d, p.table.file fd = some d → (p.executePipes forks n pipes).table.file fd = some d) ∧
      ∃ fd, p.table.file fd = none ∧ (p.executePipes forks n pipes).table.file fd ≠ none) := by
  obtain ⟨hret, htable, hwaited⟩ | ⟨k, hk, hret, hpiping, hchildren⟩ :=
    executePipes_cases forks n pipes p.table
  · left
    rw [Process.executePipes]
    simp only [htable, flatten_map, hwaited, hret, Nat.sub_self, Nat.add_zero]
    rfl
  · by_cases hn : 2 ≤ n
    · right
      obtain ⟨hfree, -⟩ := hpiping.free 0 (Nat.succ_pos k) (by omega)
      obtain ⟨hend, -⟩ := hpiping.ends 0 (Nat.succ_pos k) (by omega)
      refine ⟨if_pos ⟨hret, hn⟩, fun fd d hfd => file_of_piping hpiping hfd, _, hfree, ?_⟩
      intro hnone
      rw [Process.executePipes, Descriptors.file_map, hend] at hnone
      cases hnone
    · -- A single command has no pipe, and its `fork` is the first one.
      left
      have htable : (Pipes.executePipes forks n pipes p.table).shell.table =
          p.table.map .shell := by
        ext1 fd
        exact hpiping.others fd fun j _ hj => absurd hj (by omega)
      have hzero : k = 0 := by omega
      rw [Process.executePipes]
      simp only [htable, flatten_map, hchildren, hzero, Nat.zero_sub, Nat.add_zero,
        if_neg (fun h : _ ∧ 2 ≤ n => hn h.2)]

theorem Since.executePipes {start p : Process δ} (h : Since start p) (forks : Nat → Bool) (n : Nat)
    (pipes : Nat → Int × Int) : Since start (p.executePipes forks n pipes) := by
  obtain hsame | ⟨hrefused, hkept, fd, hfree, hopen⟩ := executePipes_kept p forks n pipes
  · rw [hsame]
    exact h
  · refine ⟨fun fd d hfd => hkept fd d (h.inherited fd d hfd), fun hzero => ?_, fun _ => ⟨fd, ?_, hopen⟩⟩
    · rw [hrefused] at hzero
      cases hzero
    · cases hstart : start.table.file fd with
      | none => rfl
      | some d =>
        rw [h.inherited fd d hstart] at hfree
        cases hfree

section Sessions
variable {host : ReplHost σ} {J : σ → Prop} {b : Builder β} {Rep : β → Str → Prop}

end Sessions

end Shell.SessionDescriptors
