import Shell.Redirections

/-! # Redirections that fail (execute_command of exec.c)

The child of `execute_command`, up to its `execvp`. It never looks at what `open`
returned, and it copies to the descriptors 0, 1 and 2 only. -/
namespace Shell.RedirectionErrors
open Shell.CTypes Shell.Parsetypes Shell.Pipes Shell.Redirections Shell.Lib

variable {δ : Type}

/-- Where the child gets to. -/
inductive ChildEnd (δ : Type)
  | execvp (argv : List Str) (table : Table δ)
  | exited (status : Int)
  | crashed

/-- The child, given what `path_find_command` finds and what each `open` returns. -/
def executeCommandChild (pathFindCommand : Str → Option Str) (returned : Nat → Option Nat)
    (table : Table δ) (command : Command) : ChildEnd δ :=
  match applyRedirects returned 0 command.redirs table with
  | .error status => .exited status
  | .ok table =>
    match command.argv with
    | [] => .crashed
    | name :: _ =>
      match pathFindCommand name with
      | none => .exited 127
      | some _ => .execvp command.argv table

/-- The `open` of every redirection succeeds. -/
def AllOpened (redirs : List Redirect) (returned : Nat → Option Nat) : Prop :=
  ∀ i, i < redirs.length → (returned i).isSome = true

/-- The program is executed behind all of its redirections, or the child fails. -/
def RedirectedOrFails (command : Command) (returned : Nat → Option Nat) : ChildEnd δ → Prop
  | .execvp argv table => argv = command.argv ∧ AllOpened command.redirs returned ∧
    Redirected command.redirs table
  | .exited status => status ≠ 0
  | .crashed => False

variable {command : Command} {returned : Nat → Option Nat} {table : Table δ} {status : Int}

theorem applyRedirect_error {i : Nat} {ret : Option Nat} {redirect : Redirect}
    (h : applyRedirect table i ret redirect = .error status) : status = 1 := by
  unfold applyRedirect at h
  cases hmode : redirect.mode with
  | append | out =>
    simp only [hmode] at h
    split at h
    · cases h
    split at h
    · cases h
    · cases h
  | «in» =>
    simp only [hmode] at h
    split at h
    · exact (Except.error.inj h).symm
    · cases h
  | heredoc | err =>
    simp only [hmode] at h
    exact (Except.error.inj h).symm

/-- A redirection that the loop does not know ends the child with status 1. -/
theorem applyRedirects_error {i : Nat} {redirs : List Redirect}
    (h : applyRedirects returned i redirs table = .error status) : status = 1 := by
  induction redirs generalizing i table with
  | nil => cases h
  | cons redirect redirs ih =>
    rw [applyRedirects] at h
    cases hround : applyRedirect table i (returned i) redirect with
    | error status' =>
      rw [hround] at h
      rw [← Except.error.inj h]
      exact applyRedirect_error hround
    | ok next =>
      rw [hround] at h
      exact ih h

/-- **When the program runs behind its redirections only.** It does where it is not found,
where the loop meets a redirection that it does not know, and where every `open` succeeds
and the last redirection of each descriptor reaches it. -/
theorem executeCommandChild_iff (pathFindCommand : Str → Option Str) (table : Descriptors δ)
    {name : Str} {args : List Str} (hargv : command.argv = name :: args)
    (hopens : FreshOpens returned 0 command.redirs (table.map File.kept)) :
    RedirectedOrFails command returned
        (executeCommandChild pathFindCommand returned (table.map File.kept) command) ↔
      pathFindCommand name = none ∨ (∃ r ∈ command.redirs, ¬ Known r) ∨
        AllOpened command.redirs returned ∧ Applies command.redirs returned := by
  have hknown := applyRedirects_ok_iff returned 0 command.redirs (table.map File.kept)
  rw [executeCommandChild]
  cases happly : applyRedirects returned 0 command.redirs (table.map File.kept) with
  | error status =>
    have hstatus : status ≠ 0 := by
      rw [applyRedirects_error happly]
      exact Int.one_ne_zero
    refine ⟨fun _ => .inr (.inl ?_), fun _ => hstatus⟩
    by_contra hnone
    simp only [not_exists, not_and, not_not] at hnone
    obtain ⟨table', hok⟩ := hknown.mpr hnone
    rw [happly] at hok
    cases hok
  | ok table' =>
    have hall := hknown.mp ⟨table', happly⟩
    have hredirected := redirected_applyRedirects_iff hopens happly
    simp only [hargv]
    cases hfound : pathFindCommand name with
    | none => exact ⟨fun _ => .inl rfl, fun _ => by simp [RedirectedOrFails]⟩
    | some path =>
      simp only [RedirectedOrFails, hargv, true_and, hredirected, reduceCtorEq, false_or]
      constructor
      · intro hruns
        exact .inr ⟨hruns.1, hall, hruns.2⟩
      · intro hcond
        obtain ⟨r, hr, hunknown⟩ | ⟨hopened, happlies⟩ := hcond
        · exact absurd (hall r hr) hunknown
        · exact ⟨hopened, happlies.2⟩

/-! ## `a > f` -/

def outToFile : Command where
  argv := [str "a"]
  assignmentList := []
  redirs := [⟨1, .out, str "f"⟩]

theorem freshOpens_outToFile (ret : Option Nat) (h : ret = none ∨ ret = some 3) :
    FreshOpens (fun _ => ret) 0 outToFile.redirs
      ((standardFiles.map Description.shell).map File.kept) := by
  refine ⟨fun n hn => ?_, fun _ _ => trivial⟩
  obtain rfl | rfl := h
  · cases hn
  · rw [← Option.some.inj hn]
    rfl

/-- The file is opened as descriptor 3 and copied to the standard output. -/
theorem executeCommandChild_iff_opened :
    RedirectedOrFails outToFile (fun _ => some 3) (executeCommandChild (fun name => some name)
      (fun _ => some 3) ((standardFiles.map Description.shell).map File.kept) outToFile) := by
  refine (executeCommandChild_iff _ _ rfl (freshOpens_outToFile _ (.inr rfl))).mpr ?_
  refine .inr (.inr ⟨fun _ _ => rfl, fun r hr => ?_, fun k redirect hlast => ?_⟩)
  · rw [List.mem_singleton.mp hr]
    exact .inr (.inl rfl)
  · obtain ⟨before, after, heq, -⟩ := hlast
    have hmem : redirect ∈ outToFile.redirs := by rw [heq]; simp
    rw [List.mem_singleton.mp hmem]
    exact ⟨3, rfl, by decide⟩

/-- The file cannot be opened: the program is executed all the same, and writes to the
standard output that the shell had. -/
theorem executeCommandChild_open_fails :
    ∃ table, executeCommandChild (fun name => some name) (fun _ => none)
        ((standardFiles.map Description.shell).map File.kept) outToFile =
          .execvp [str "a"] table ∧ table.file 1 = some (.kept (.shell ())) ∧
      ¬ RedirectedOrFails outToFile (fun _ => none) (.execvp [str "a"] table) := by
  refine ⟨_, rfl, rfl, fun h => ?_⟩
  have hopened := h.2.1 0 (by decide)
  cases hopened

end Shell.RedirectionErrors
