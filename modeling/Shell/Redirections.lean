import Shell.Parsetypes
import Shell.Pipes

/-! # Redirections and the ways a command runs (exec.c)

A command runs alone or in a pipeline, and as a builtin or as a program. What `open`
returns for each redirection is a parameter: a descriptor that is not in use, or
`none` where it fails. A run is followed to the point where the builtin is
called, or the program is looked up and executed. -/
namespace Shell.Redirections
open Shell.CTypes Shell.Parsetypes Shell.Pipes Shell.Lib

variable {δ : Type}

/-- What a descriptor of the process refers to: a file it had, or the one that was
opened for a redirection. -/
inductive File (δ : Type)
  | kept (d : δ)
  | opened (i : Nat)
  deriving DecidableEq

abbrev Table (δ : Type) := Descriptors (File δ)

/-- `open` for the redirection `i`, and what it returns. -/
def openTarget (table : Table δ) (i : Nat) : Option Nat → Table δ × Int
  | none => (table, -1)
  | some fd => (table.put fd (.opened i), fd)

/-- A round of the loop over `redirs` in `execute_command`; `error` is the status
of `_exit`. -/
def applyRedirect (table : Table δ) (i : Nat) (returned : Option Nat) (redirect : Redirect) :
    Except Int (Table δ) :=
  match redirect.mode with
  | .append | .out =>
    let (table, targetFd) := openTarget table i returned
    if redirect.fd = 1 then .ok ((table.dup2 targetFd 1).close targetFd)
    else if redirect.fd = 2 then .ok ((table.dup2 targetFd 2).close targetFd)
    else .ok table
  | .in =>
    let (table, targetFd) := openTarget table i returned
    if redirect.fd ≠ 0 then .error 1
    else .ok ((table.dup2 targetFd 0).close targetFd)
  | .heredoc | .err => .error 1

/-- The redirections from the one with index `i` on. -/
def applyRedirects (returned : Nat → Option Nat) :
    Nat → List Redirect → Table δ → Except Int (Table δ)
  | _, [], table => .ok table
  | i, redirect :: redirs, table =>
    match applyRedirect table i (returned i) redirect with
    | .error status => .error status
    | .ok table => applyRedirects returned (i + 1) redirs table

/-! ## The four ways -/

inductive Outcome (δ : Type)
  /-- The builtin is called with these arguments, in a process with this table. -/
  | called (argv : List Str) (table : Table δ)
  /-- The program is looked up and executed with these arguments. -/
  | execed (argv : List Str) (table : Table δ)
  | exited (status : Int)
  /-- The null pointer of an empty `argv` is looked up. -/
  | crashed

/-- The child of `execute_command`. -/
def executeCommandChild (returned : Nat → Option Nat) (table : Table δ) (command : Command) :
    Outcome δ :=
  match applyRedirects returned 0 command.redirs table with
  | .error status => .exited status
  | .ok table => if command.argv = [] then .crashed else .execed command.argv table

/-- `execute_builtin`, in the shell itself. -/
def executeBuiltin (table : Table δ) (command : Command) : Outcome δ :=
  .called command.argv table

/-- The body of `exec_builtin` stands behind its `return 0`. -/
def execBuiltin : Outcome δ := .exited 0

/-- The child of `execute_pipes` behind its closing of the pipes. -/
def pipesChild (isBuiltin : Str → Bool) (table : Table δ) (command : Command) : Outcome δ :=
  match command.argv with
  | [] => .crashed
  | name :: _ => if isBuiltin name then execBuiltin else .execed command.argv table

/-- What becomes of each command that `execute_pipeline` runs, where every `pipe`
and `fork` succeeds. -/
def executePipeline (isBuiltin : Str → Bool) (returned : Nat → Option Nat)
    (pipes : Nat → Int × Int) (table : Descriptors δ) (commands : List Command) :
    List (Outcome (Description δ)) :=
  match commands with
  | [command] =>
    let table := (table.map Description.shell).map File.kept
    match command.argv with
    | [] => []
    | name :: _ =>
      if isBuiltin name then [executeBuiltin table command]
      else [executeCommandChild returned table command]
  | _ =>
    let finished := executePipes (fun _ => true) commands.length pipes table
    finished.shell.children.zipWith (fun child => pipesChild isBuiltin (child.map File.kept)) commands

/-! ## What the loop over the redirections leaves -/

/-- The modes, and for input the descriptor, that the loop knows. -/
def Known (redirect : Redirect) : Prop :=
  redirect.mode = .append ∨ redirect.mode = .out ∨ redirect.mode = .in ∧ redirect.fd = 0

/-- The loop copies the descriptor that was opened, and closes it. -/
def Copied (redirect : Redirect) : Prop :=
  redirect.mode = .in ∨ redirect.fd = 1 ∨ redirect.fd = 2

instance (redirect : Redirect) : Decidable (Copied redirect) := instDecidableOr

/-- The file opened is what the redirection's descriptor refers to: it is copied to
that descriptor from another one, or it was opened there and stays. -/
def Reaches (redirect : Redirect) (returned : Option Nat) : Prop :=
  ∃ fd : Nat, returned = some fd ∧ (if Copied redirect then (fd : Int) ≠ redirect.fd
    else (fd : Int) = redirect.fd)

variable {table table' : Table δ} {i j : Nat} {returned : Nat → Option Nat} {redirect : Redirect}
  {redirs : List Redirect}

/-- Copying the descriptor that was opened to `fd`, and closing it. -/
theorem file_copied {ret : Option Nat} (hfree : ∀ n, ret = some n → table.file n = none)
    (fd : Nat) (x : Int) :
    (((openTarget table i ret).1.dup2 (openTarget table i ret).2 fd).close
      (openTarget table i ret).2).file x =
      match ret with
      | none => table.file x
      | some n => if x = fd ∧ x ≠ n then some (.opened i) else table.file x := by
  cases ret with
  | none =>
    have hneg : table.file (-1) = none := table.file_of_neg (by decide)
    simp only [openTarget, Descriptors.dup2_of_none hneg, Descriptors.file_close]
    split
    · rename_i hx
      rw [hx, hneg]
    · rfl
  | some n =>
    have hput : (table.put n (.opened i)).file n = some (.opened i) := by simp
    simp only [openTarget, Descriptors.dup2_of_some hput, Descriptors.file_close,
      Descriptors.file_put]
    by_cases hx : x = n
    · rw [if_pos hx, if_neg (fun hand => hand.2 hx), hx, hfree n rfl]
    · by_cases hfd : x = fd
      · rw [if_neg hx, if_pos hfd, if_pos ⟨hfd, hx⟩]
      · rw [if_neg hx, if_neg hfd, if_neg hx, if_neg (fun hand => hfd hand.1)]

/-- What a round of the loop does to the table. -/
structure Applied (table : Table δ) (i : Nat) (ret : Option Nat) (redirect : Redirect)
    (table' : Table δ) : Prop where
  reaches : table'.file redirect.fd = some (.opened i) ↔ Reaches redirect ret
  keeps : ∀ x d, x ≠ redirect.fd → table.file x = some d → table'.file x = some d
  new : ∀ x d, table'.file x = some d → d ≠ .opened i → table.file x = some d

theorem applied_of_copied {ret : Option Nat} {fd : Nat}
    (hfree : ∀ n, ret = some n → table.file n = none)
    (hfresh : ∀ x, table.file x ≠ some (.opened i)) (hfd : redirect.fd = fd)
    (hcopied : Copied redirect) :
    Applied table i ret redirect (((openTarget table i ret).1.dup2 (openTarget table i ret).2 fd).close
      (openTarget table i ret).2) := by
  constructor
  · rw [file_copied hfree, Reaches]
    cases ret with
    | none => exact ⟨fun h => absurd h (hfresh _), fun ⟨_, h, _⟩ => by cases h⟩
    | some n =>
      simp only [hfd, true_and, if_pos hcopied]
      constructor
      · intro h
        split at h
        · rename_i hne
          exact ⟨n, rfl, fun heq => hne heq.symm⟩
        · exact absurd h (hfresh _)
      · intro hcond
        obtain ⟨m, hm, hne⟩ := hcond
        obtain rfl := Option.some.inj hm
        rw [if_pos (Ne.symm hne)]
  · intro x d hx hd
    rw [file_copied hfree]
    cases ret with
    | none => exact hd
    | some n => simp only [if_neg (fun hand : x = fd ∧ x ≠ n => hx (hand.1.trans hfd.symm)), hd]
  · intro x d hd hne
    rw [file_copied hfree] at hd
    cases ret with
    | none => exact hd
    | some n =>
      simp only at hd
      split at hd
      · exact absurd (Option.some.inj hd).symm hne
      · exact hd

theorem applied_of_left {ret : Option Nat} (hfree : ∀ n, ret = some n → table.file n = none)
    (hfresh : ∀ x, table.file x ≠ some (.opened i)) (hcopied : ¬ Copied redirect) :
    Applied table i ret redirect (openTarget table i ret).1 := by
  cases ret with
  | none =>
    exact ⟨⟨fun h => absurd h (hfresh _), fun ⟨_, h, _⟩ => absurd h (Option.some_ne_none _).symm⟩,
      fun _ _ _ hd => hd, fun _ _ hd _ => hd⟩
  | some n =>
    constructor
    · simp only [openTarget, Descriptors.file_put, Reaches, if_neg hcopied]
      constructor
      · intro h
        split at h
        · rename_i heq
          exact ⟨n, rfl, heq.symm⟩
        · exact absurd h (hfresh _)
      · intro hcond
        obtain ⟨m, hm, heq⟩ := hcond
        obtain rfl := Option.some.inj hm
        rw [if_pos heq.symm]
    · intro x d hx hd
      simp only [openTarget, Descriptors.file_put]
      rw [if_neg, hd]
      intro heq
      rw [heq, hfree n rfl] at hd
      cases hd
    · intro x d hd hne
      simp only [openTarget, Descriptors.file_put] at hd
      split at hd
      · exact absurd (Option.some.inj hd).symm hne
      · exact hd

/-- A round goes on where the redirection is one that the loop knows. -/
theorem applyRedirect_ok_iff (table : Table δ) (i : Nat) (ret : Option Nat) :
    (∃ table', applyRedirect table i ret redirect = .ok table') ↔ Known redirect := by
  unfold applyRedirect Known
  cases hmode : redirect.mode with
  | append | out =>
    simp only [reduceCtorEq, false_and, or_false, or_true, iff_true]
    split
    · exact ⟨_, rfl⟩
    split
    · exact ⟨_, rfl⟩
    · exact ⟨_, rfl⟩
  | «in» =>
    simp only [reduceCtorEq, false_or, true_and, ne_eq]
    by_cases hfd : redirect.fd = 0
    · rw [if_neg (not_not_intro hfd)]
      exact ⟨fun _ => hfd, fun _ => ⟨_, rfl⟩⟩
    · rw [if_pos hfd]
      exact ⟨fun ⟨_, h⟩ => (by cases h), fun h => absurd h hfd⟩
  | heredoc | err =>
    simp only [reduceCtorEq, false_and, or_false, iff_false]
    exact fun ⟨_, h⟩ => by cases h

theorem applied_applyRedirect {ret : Option Nat} (hfree : ∀ n, ret = some n → table.file n = none)
    (hfresh : ∀ x, table.file x ≠ some (.opened i))
    (h : applyRedirect table i ret redirect = .ok table') : Applied table i ret redirect table' := by
  unfold applyRedirect at h
  cases hmode : redirect.mode with
  | append | out =>
    simp only [hmode] at h
    split at h
    · rename_i hfd
      rw [← Except.ok.inj h]
      exact applied_of_copied hfree hfresh hfd (.inr (.inl hfd))
    split at h
    · rename_i hfd
      rw [← Except.ok.inj h]
      exact applied_of_copied hfree hfresh hfd (.inr (.inr hfd))
    · rename_i hone htwo
      rw [← Except.ok.inj h]
      refine applied_of_left hfree hfresh ?_
      rintro (hin | hfd | hfd)
      · rw [hmode] at hin
        cases hin
      · exact hone hfd
      · exact htwo hfd
  | «in» =>
    simp only [hmode, ne_eq] at h
    split at h
    · cases h
    · rename_i hfd
      rw [← Except.ok.inj h]
      exact applied_of_copied hfree hfresh (not_not.mp hfd) (.inl hmode)
  | heredoc | err =>
    simp only [hmode] at h
    cases h

/-- `open` returns a descriptor that is not in use when it is called. -/
def FreshOpens (returned : Nat → Option Nat) : Nat → List Redirect → Table δ → Prop
  | _, [], _ => True
  | i, redirect :: redirs, table =>
    (∀ n, returned i = some n → table.file n = none) ∧
      ∀ table', applyRedirect table i (returned i) redirect = .ok table' →
        FreshOpens returned (i + 1) redirs table'

theorem applyRedirects_ok_iff (returned : Nat → Option Nat) (i : Nat) (redirs : List Redirect)
    (table : Table δ) :
    (∃ table', applyRedirects returned i redirs table = .ok table') ↔ ∀ r ∈ redirs, Known r := by
  induction redirs generalizing i table with
  | nil => exact ⟨fun _ r h => absurd h List.not_mem_nil, fun _ => ⟨_, rfl⟩⟩
  | cons redirect redirs ih =>
    rw [List.forall_mem_cons, applyRedirects,
      ← applyRedirect_ok_iff table i (returned i)]
    cases h : applyRedirect table i (returned i) redirect with
    | error status =>
      exact ⟨fun ⟨_, h⟩ => (by cases h), fun ⟨⟨_, h⟩, _⟩ => (by cases h)⟩
    | ok next => exact (ih _ _).trans ⟨fun hall => ⟨⟨next, rfl⟩, hall⟩, And.right⟩

/-- One round of the loop, and what holds in front of the next one. -/
theorem applyRedirects_cons (hopens : FreshOpens returned i (redirect :: redirs) table)
    (hfresh : ∀ j x, i ≤ j → table.file x ≠ some (.opened j))
    (h : applyRedirects returned i (redirect :: redirs) table = .ok table') :
    ∃ next, Applied table i (returned i) redirect next ∧
      FreshOpens returned (i + 1) redirs next ∧
      (∀ j x, i + 1 ≤ j → next.file x ≠ some (.opened j)) ∧
      applyRedirects returned (i + 1) redirs next = .ok table' := by
  rw [applyRedirects] at h
  cases hnext : applyRedirect table i (returned i) redirect with
  | error status =>
    rw [hnext] at h
    cases h
  | ok next =>
    rw [hnext] at h
    have happlied := applied_applyRedirect hopens.1 (fun x => hfresh i x (Nat.le_refl i)) hnext
    refine ⟨next, happlied, hopens.2 next hnext, fun j x hj hfile => ?_, h⟩
    refine hfresh j x (Nat.le_of_succ_le hj) (happlied.new x _ hfile fun heq => ?_)
    injection heq with heq
    omega

/-- The loop changes no file of a descriptor that its redirections do not name. -/
theorem file_applyRedirects {x : Int} {d : File δ} (hopens : FreshOpens returned i redirs table)
    (hfresh : ∀ j x, i ≤ j → table.file x ≠ some (.opened j))
    (h : applyRedirects returned i redirs table = .ok table') (hx : ∀ r ∈ redirs, r.fd ≠ x)
    (hd : ∀ j, i ≤ j → d ≠ .opened j) : table'.file x = some d ↔ table.file x = some d := by
  induction redirs generalizing i table with
  | nil => rw [Except.ok.inj h]
  | cons redirect redirs ih =>
    obtain ⟨next, happlied, hopens', hfresh', h⟩ := applyRedirects_cons hopens hfresh h
    rw [ih hopens' hfresh' h (fun r hr => hx r (List.mem_cons_of_mem _ hr))
      fun j hj => hd j (Nat.le_of_succ_le hj)]
    constructor
    · exact fun hfile => happlied.new x d hfile (hd i (Nat.le_refl i))
    · exact happlied.keeps x d (hx redirect List.mem_cons_self).symm

/-- The last redirection that names a descriptor decides what it refers to. -/
theorem file_last {redirs' : List Redirect} (hopens : FreshOpens returned i (redirect :: redirs') table)
    (hfresh : ∀ j x, i ≤ j → table.file x ≠ some (.opened j))
    (h : applyRedirects returned i (redirect :: redirs') table = .ok table')
    (hlast : ∀ r ∈ redirs', r.fd ≠ redirect.fd) :
    table'.file redirect.fd = some (.opened i) ↔ Reaches redirect (returned i) := by
  obtain ⟨next, happlied, hopens', hfresh', h⟩ := applyRedirects_cons hopens hfresh h
  rw [← happlied.reaches]
  refine file_applyRedirects hopens' hfresh' h hlast fun j hj heq => ?_
  injection heq with heq
  omega

/-- The redirection `k` is the last one that names its descriptor. -/
def Last (redirs : List Redirect) (k : Nat) (redirect : Redirect) : Prop :=
  ∃ before after, redirs = before ++ redirect :: after ∧ before.length = k ∧
    ∀ r ∈ after, r.fd ≠ redirect.fd

theorem file_applyRedirects_last (k : Nat) (redirect : Redirect)
    (hopens : FreshOpens returned i redirs table)
    (hfresh : ∀ j x, i ≤ j → table.file x ≠ some (.opened j))
    (h : applyRedirects returned i redirs table = .ok table') (hlast : Last redirs k redirect) :
    table'.file redirect.fd = some (.opened (i + k)) ↔ Reaches redirect (returned (i + k)) := by
  obtain ⟨before, after, rfl, rfl, hafter⟩ := hlast
  induction before generalizing i table with
  | nil => exact file_last hopens hfresh h hafter
  | cons first before ih =>
    obtain ⟨next, -, hopens', hfresh', h⟩ := applyRedirects_cons hopens hfresh h
    have hindex : i + (before.length + 1) = i + 1 + before.length := by omega
    rw [List.length_cons, hindex]
    exact ih hfresh' hopens' h

/-! ## Every way a command runs -/

/-- The descriptors named by the redirections refer to the files opened for them. -/
def Redirected (redirs : List Redirect) (table : Table δ) : Prop :=
  ∀ k redirect, Last redirs k redirect → table.file redirect.fd = some (.opened k)

def runsBuiltin (isBuiltin : Str → Bool) (command : Command) : Bool := command.argv.head?.any isBuiltin

/-- The command is run with its arguments, by the builtin if it has one, behind its
redirections. -/
def Treated (isBuiltin : Str → Bool) (command : Command) : Outcome δ → Prop
  | .called argv table =>
    runsBuiltin isBuiltin command = true ∧ argv = command.argv ∧ Redirected command.redirs table
  | .execed argv table =>
    runsBuiltin isBuiltin command = false ∧ argv = command.argv ∧ Redirected command.redirs table
  | .exited _ | .crashed => False

/-- Every redirection is one that the loop knows, and the last one of each descriptor
reaches it. -/
def Applies (redirs : List Redirect) (returned : Nat → Option Nat) : Prop :=
  (∀ r ∈ redirs, Known r) ∧ ∀ k redirect, Last redirs k redirect → Reaches redirect (returned k)

variable {command : Command} {isBuiltin : Str → Bool}

theorem file_kept_ne {t : Descriptors δ} (j : Nat) (x : Int) :
    (t.map File.kept).file x ≠ some (.opened j) := by
  rw [Descriptors.file_map]
  intro h
  obtain ⟨d, -, hd⟩ := Option.map_eq_some_iff.mp h
  cases hd

/-- Where no file has been opened, only no redirection is carried out. -/
theorem redirected_kept_iff {t : Descriptors δ} :
    Redirected redirs (t.map File.kept) ↔ redirs = [] := by
  constructor
  · intro h
    cases hlast : redirs.getLast? with
    | none => exact List.getLast?_eq_none_iff.mp hlast
    | some redirect =>
      obtain ⟨before, heq⟩ := List.getLast?_eq_some_iff.mp hlast
      exact absurd (h _ redirect ⟨before, [], heq, rfl, fun r hr => absurd hr List.not_mem_nil⟩)
        (file_kept_ne _ _)
  · rintro rfl k redirect ⟨before, after, heq, -⟩
    simp at heq

/-- Behind the loop, the redirections are carried out where the last one of each descriptor
reaches it. -/
theorem redirected_applyRedirects_iff {t : Descriptors δ}
    (hopens : FreshOpens returned 0 redirs (t.map File.kept))
    (h : applyRedirects returned 0 redirs (t.map File.kept) = .ok table') :
    Redirected redirs table' ↔
      ∀ k redirect, Last redirs k redirect → Reaches redirect (returned k) := by
  have hreach := fun k redirect hlast =>
    file_applyRedirects_last k redirect hopens (fun j x _ => file_kept_ne j x) h hlast
  simp only [Nat.zero_add] at hreach
  constructor
  · intro hredirected k redirect hlast
    exact (hreach k redirect hlast).mp (hredirected k redirect hlast)
  · intro hall k redirect hlast
    exact (hreach k redirect hlast).mpr (hall k redirect hlast)

theorem treated_executeCommandChild_iff {t : Descriptors δ} (hargv : command.argv ≠ [])
    (hbuiltin : runsBuiltin isBuiltin command = false)
    (hopens : FreshOpens returned 0 command.redirs (t.map File.kept)) :
    Treated isBuiltin command (executeCommandChild returned (t.map File.kept) command) ↔
      Applies command.redirs returned := by
  rw [executeCommandChild, Applies,
    ← applyRedirects_ok_iff returned 0 command.redirs (t.map File.kept)]
  cases h : applyRedirects returned 0 command.redirs (t.map File.kept) with
  | error status => exact ⟨False.elim, fun ⟨⟨_, hok⟩, _⟩ => (by cases hok)⟩
  | ok table' =>
    simp only [if_neg hargv, ← redirected_applyRedirects_iff hopens h]
    constructor
    · intro hcond
      obtain ⟨-, -, hredirected⟩ := hcond
      exact ⟨⟨table', rfl⟩, hredirected⟩
    · intro hcond
      obtain ⟨-, hredirected⟩ := hcond
      exact ⟨hbuiltin, rfl, hredirected⟩

theorem treated_pipesChild_iff {t : Descriptors δ} (hargv : command.argv ≠ []) :
    Treated isBuiltin command (pipesChild isBuiltin (t.map File.kept) command) ↔
      runsBuiltin isBuiltin command = false ∧ command.redirs = [] := by
  unfold pipesChild
  split
  · rename_i hnil
    exact absurd hnil hargv
  · rename_i name args hcons
    have hruns : runsBuiltin isBuiltin command = isBuiltin name := by rw [runsBuiltin, hcons]; rfl
    rw [hruns]
    cases hname : isBuiltin name with
    | true => exact ⟨False.elim, fun ⟨h, _⟩ => (by cases h)⟩
    | false =>
      rw [← redirected_kept_iff (t := t)]
      exact ⟨fun ⟨_, _, h⟩ => ⟨rfl, h⟩, fun ⟨_, h⟩ => ⟨hruns.trans hname, rfl, h⟩⟩

theorem executePipeline_of_ne_one {pipes : Nat → Int × Int} {table : Descriptors δ}
    {commands : List Command} (h : commands.length ≠ 1) :
    executePipeline isBuiltin returned pipes table commands =
      List.zipWith (fun child => pipesChild isBuiltin (child.map File.kept))
        (executePipes (fun _ => true) commands.length pipes table).shell.children commands := by
  unfold executePipeline
  split
  · exact absurd rfl h
  · rfl

theorem treated_piped_iff {pipes : Nat → Int × Int} {table : Descriptors δ}
    {commands : List Command} {k : Nat} (hcommand : commands[k]? = some command)
    (hargv : command.argv ≠ []) (hone : commands.length ≠ 1) :
    (∃ outcome, (executePipeline isBuiltin returned pipes table commands)[k]? = some outcome ∧
        Treated isBuiltin command outcome) ↔
      runsBuiltin isBuiltin command = false ∧ command.redirs = [] := by
  have hlength := length_children table pipes commands.length
  have hk := (List.getElem?_eq_some_iff.mp hcommand).1
  have hchild := List.getElem?_eq_getElem
    (l := (executePipes (fun _ => true) commands.length pipes table).shell.children) (i := k)
    (by omega)
  have houtcome : (executePipeline isBuiltin returned pipes table commands)[k]? =
      some (pipesChild isBuiltin
        ((executePipes (fun _ => true) commands.length pipes table).shell.children[k].map
          File.kept) command) := by
    rw [executePipeline_of_ne_one hone, List.getElem?_zipWith, hchild, hcommand]
  rw [houtcome]
  simp only [Option.some.injEq, exists_eq_left']
  exact treated_pipesChild_iff hargv

/-- **One command, four ways to run it.** A command of a pipeline is run with its
arguments and behind its redirections exactly where it is alone and a builtin
without redirections, or alone, a program, and its redirections apply, or one of
several, a program, and without redirections. -/
theorem executePipeline_treated_iff (pipes : Nat → Int × Int) (table : Descriptors δ)
    {commands : List Command} {k : Nat} (hcommand : commands[k]? = some command)
    (hargv : command.argv ≠ [])
    (hopens : FreshOpens returned 0 command.redirs ((table.map Description.shell).map File.kept)) :
    (∃ outcome, (executePipeline isBuiltin returned pipes table commands)[k]? = some outcome ∧
        Treated isBuiltin command outcome) ↔
      if commands.length = 1 then
        if runsBuiltin isBuiltin command then command.redirs = []
        else Applies command.redirs returned
      else runsBuiltin isBuiltin command = false ∧ command.redirs = [] := by
  by_cases hone : commands.length = 1
  · obtain ⟨single, rfl⟩ := List.length_eq_one_iff.mp hone
    obtain ⟨rfl, rfl⟩ : k = 0 ∧ single = command := by
      have hk := (List.getElem?_eq_some_iff.mp hcommand).1
      obtain rfl : k = 0 := Nat.lt_one_iff.mp hk
      exact ⟨rfl, Option.some.inj hcommand⟩
    obtain ⟨name, args, hcons⟩ := List.exists_cons_of_ne_nil hargv
    have hruns : runsBuiltin isBuiltin single = isBuiltin name := by rw [runsBuiltin, hcons]; rfl
    rw [if_pos hone, executePipeline]
    simp only [hcons, hruns]
    cases hname : isBuiltin name with
    | true =>
      simp only [if_true, List.getElem?_cons_zero, Option.some.injEq, exists_eq_left']
      rw [← redirected_kept_iff (t := table.map Description.shell)]
      exact ⟨fun h => h.2.2, fun h => ⟨hruns.trans hname, rfl, h⟩⟩
    | false =>
      simp only [Bool.false_eq_true, if_false, List.getElem?_cons_zero, Option.some.injEq,
        exists_eq_left']
      exact treated_executeCommandChild_iff hargv (hruns.trans hname) hopens
  · rw [if_neg hone]
    exact treated_piped_iff hcommand hargv hone

/-- `a > f`, where `open` returns 3. -/
theorem executePipeline_treated_iff_single :
    let command : Command := ⟨[str "a"], [], [⟨1, .out, str "f"⟩]⟩
    ∃ outcome, (executePipeline (fun _ => false) (fun _ => some 3) (fun _ => (0, 0)) standardFiles
        [command])[0]? = some outcome ∧ Treated (fun _ => false) command outcome := by
  intro command
  have hopens : FreshOpens (fun _ => some 3) 0 command.redirs
      ((standardFiles.map Description.shell).map File.kept) :=
    ⟨fun n hn => by rw [← Option.some.inj hn]; rfl, fun _ _ => trivial⟩
  refine (executePipeline_treated_iff (fun _ => (0, 0)) standardFiles rfl (by decide) hopens).mpr ?_
  have hlast : ∀ k redirect, Last command.redirs k redirect → redirect = ⟨1, .out, str "f"⟩ := by
    rintro k redirect ⟨before, after, heq, -⟩
    have hmem : redirect ∈ command.redirs := by rw [heq]; simp
    exact List.mem_singleton.mp hmem
  refine ⟨fun r hr => ?_, fun k redirect hk => ?_⟩
  · rw [List.mem_singleton.mp hr]
    exact .inr (.inl rfl)
  · rw [hlast k redirect hk]
    exact ⟨3, rfl, by decide⟩

/-- `echo a > f` writes to the shell's own standard output, and in `echo a | cat` the
builtin is not called. -/
theorem executePipeline_echo :
    let isBuiltin := fun name => name == str "echo"
    let redirected : Command := ⟨[str "echo", str "a"], [], [⟨1, .out, str "f"⟩]⟩
    let piped : Command := ⟨[str "echo", str "a"], [], []⟩
    let cat : Command := ⟨[str "cat"], [], []⟩
    (¬ ∃ outcome, (executePipeline isBuiltin (fun _ => some 3) (fun _ => (0, 0)) standardFiles
        [redirected])[0]? = some outcome ∧ Treated isBuiltin redirected outcome) ∧
    ¬ ∃ outcome, (executePipeline isBuiltin (fun _ => some 3) (fun _ => (0, 0)) standardFiles
        [piped, cat])[0]? = some outcome ∧ Treated isBuiltin piped outcome := by
  intro isBuiltin redirected piped cat
  constructor
  · intro hcond
    obtain ⟨outcome, houtcome, htreated⟩ := hcond
    obtain rfl : executeBuiltin ((standardFiles.map Description.shell).map File.kept) redirected =
        outcome := Option.some.inj houtcome
    have hnil := redirected_kept_iff.mp htreated.2.2
    cases hnil
  · intro h
    have hbuiltin := ((treated_piped_iff rfl (by decide) (by decide)).mp h).1
    cases hbuiltin

end Shell.Redirections
