import Shell.Repl

/-! # The names that are looked up (exec.c)

`execute_list` with a record of what `find_builtin` and `path_find_command` are
given, in the shell and in its children, those of its command substitutions among
them. How the single commands end and which calls of `fork` succeed is up to the
world, by the position of a pipeline: the number of its chain in the list and its own
number in the chain. `execvp` of a program that was found does not return. -/
namespace Shell.NullLookups
open Shell.CTypes Shell.Tokenlist Shell.Parsetypes Shell.Parser Shell.Andor
open Shell.Expand Shell.Lib.Traverse
open Shell.Exec (ReplHost shellEnv listCalls expandList promptHost)

variable {β σ : Type}

/-! ## The executor -/

structure World where
  /-- The status of a single command; `none` where the process ends with it, or it
  does not end. -/
  status : Nat → Nat → Option Int
  /-- The child of a program is started and gets past its redirections. -/
  redirected : Nat → Nat → Bool
  /-- The `fork` for each command of several. -/
  forks : Nat → Nat → Nat → Bool
  /-- The `fork` for a chain in the background. -/
  forksBg : Nat → Bool

/-- The names so far, and whether the process is still there. -/
structure Process where
  lookups : List (Option Str)
  running : Bool

def Process.look (s : Process) (names : List (Option Str)) : Process :=
  { s with lookups := s.lookups ++ names }

def builtins : List Str :=
  [str "cd", str "complete", str "declare", str "echo", str "exit", str "history", str "jobs",
    str "pwd", str "type"]

/-- Whether `find_builtin` finds one. `strcmp` follows a null pointer. -/
def findBuiltin : Option Str → Bool
  | none => false
  | some name => builtins.contains name

/-- `command->argv[0]` -/
def argv0 (command : Command) : Option Str := command.argv.head?

/-- What the builtins look up themselves: `builtin_type` its argument. -/
def builtinLookups (command : Command) : List (Option Str) :=
  match command.argv with
  | name :: arg :: _ => if name = str "type" then [some arg] else []
  | _ => []

/-- The child of `execute_pipes` behind its closing of the pipes. A builtin is not called
(`exec_builtin` returns first), and a null pointer is the end of the child. -/
def childLookups (command : Command) : List (Option Str) :=
  let name := argv0 command
  if findBuiltin name then [name]
  else if name = none then [none]
  else [name, name]

/-- The loop of `execute_pipes` from the command with index `i` on: what it returns, and
what the children look up. -/
def executePipes (forks : Nat → Bool) : Nat → List Command → Int × List (Option Str)
  | _, [] => (0, [])
  | i, command :: rest =>
    if forks i then
      let (ret, names) := executePipes forks (i + 1) rest
      (ret, childLookups command ++ names)
    else (-1, [])

/-- `is_builtin`, then `execute_builtin` or the child of `execute_command`. -/
def singleLookups (world : World) (i k : Nat) (command : Command) : List (Option Str) :=
  let name := argv0 command
  if findBuiltin name then name :: name :: builtinLookups command
  else if world.redirected i k then [name, name]
  else [name]

def executeSingle (world : World) (i k : Nat) (command : Command) (s : Process) : Int × Process :=
  let s := s.look (singleLookups world i k command)
  match world.status i k with
  | some status => (status, s)
  | none => (0, { s with running := false })

/-- `execute_pipeline` for the pipeline with its number in the chain `i`; a process that
has ended runs none. -/
def executePipeline (world : World) (i : Nat) (p : Pipeline × Nat) (s : Process) : Int × Process :=
  if s.running = false then (0, s)
  else if p.1.size = 1 then
    match p.1.commands with
    | [] => (0, s)
    | command :: _ =>
      if Exec.checkCommand command then executeSingle world i p.2 command s else (0, s)
  else
    let (ret, names) := executePipes (world.forks i p.2) 0 p.1.commands
    (ret, s.look names)

/-- The `switch` of `execute_list`. The child in the background starts as the shell is. -/
def runElement (world : World) (i : Nat) (iter : ListElement) (s : Process) : Int × Process :=
  let run := executeAndor (executePipeline world i) (numberAndOr iter.andOr) s
  match iter.sep with
  | .semi | .none => run
  | .amp => if world.forksBg i then (0, { s with lookups := run.2.lookups }) else (-1, s)

/-- The `while` loop of `execute_list` from the chain with number `i` on. -/
def executeListLoop (world : World) : Nat → Int → List ListElement → Process → Int × Process
  | _, status, [], s => (status, s)
  | i, _, iter :: rest, s =>
    let (status, s) := runElement world i iter s
    if s.running then executeListLoop world (i + 1) status rest s else (status, s)

/-! ## The lists that are executed -/

/-- A list whose expansion has come to its end, as parsed and as expanded, and its world. -/
structure Execution where
  world : World
  list : ShList
  expanded : ShList

/-- What is looked up behind the expansion. -/
def Execution.lookups (e : Execution) : List (Option Str) :=
  (executeListLoop e.world 0 0 e.expanded.elements { lookups := [], running := true }).2.lookups

def ownExecution (b : Builder β) (env : Env σ) (world : World) (list : ShList) (s : σ) :
    List Execution :=
  match expandList b env list s with
  | none => []
  | some (expanded, _) => [{ world := world, list := list, expanded := expanded }]

/-- A call of `expand_cmdsub`: its child executes the list of the body, if `fork` succeeds. -/
def callExecutions (host : ReplHost σ) (below : ShList → σ → List Execution) (call : Str × σ) :
    List Execution :=
  match lexAndParse (host.beyond call.2) call.1, host.forked call.2 with
  | .ok (some list), some child => below list child
  | _, _ => []

/-- A list with those that its expansion hands to children, whose worlds are found by
the numbers of the calls that lead to them. -/
def executions (b : Builder β) (host : ReplHost σ) :
    Nat → (List Nat → World) → ShList → σ → List Execution
  | 0, worlds, list, s => ownExecution b (shellEnv b host.toHost 0) (worlds []) list s
  | depth + 1, worlds, list, s =>
    ((listCalls b (shellEnv b host.toHost (depth + 1)) list s).zipIdx.flatMap fun c =>
      callExecutions host (executions b host depth fun calls => worlds (c.2 :: calls)) c.1) ++
    ownExecution b (shellEnv b host.toHost (depth + 1)) (worlds []) list s

/-- `execute_list`, and the names that are looked up, where substitutions nest at most
`depth` deep. -/
def executeList (b : Builder β) (host : ReplHost σ) (depth : Nat) (worlds : List Nat → World)
    (list : ShList) (s : σ) : List (Option Str) :=
  (executions b host depth worlds list s).flatMap Execution.lookups

/-! ## What is run -/

/-- The status of a pipeline of these commands, where it is run. -/
def endStatus (world : World) (i k : Nat) : List Command → Option Int
  | [command] => if command.argv = [] then some 0 else world.status i k
  | commands => some (if ∀ j < commands.length, world.forks i k j = true then 0 else -1)

/-- Of several commands, each one whose child is started has a name. -/
def Named (world : World) (i k : Nat) : List Command → Prop
  | [_] => True
  | commands => ∀ j command, commands[j]? = some command →
      (∀ j' ≤ j, world.forks i k j' = true) → command.argv ≠ []

/-- A chain in front of whose pipeline `k` the status is known runs the pipeline `k'`,
which has these commands. -/
inductive ChainRuns (world : World) (i : Nat) :
    Int → Nat → List (AndOrElement Pipeline) → Nat → List Command → Prop
  | here {status : Int} {k : Nat} {e : AndOrElement Pipeline}
      {rest : List (AndOrElement Pipeline)} :
      Admits e.op status → ChainRuns world i status k (e :: rest) k e.pipeline.commands
  | behind {status next : Int} {k k' : Nat} {e : AndOrElement Pipeline}
      {rest : List (AndOrElement Pipeline)} {commands : List Command} :
      Admits e.op status → endStatus world i k e.pipeline.commands = some next →
      ChainRuns world i next (k + 1) rest k' commands →
      ChainRuns world i status k (e :: rest) k' commands

/-- The process does not get behind the chain. -/
def ChainEnds (world : World) (i : Nat) (status : Int) (k : Nat)
    (elements : List (AndOrElement Pipeline)) : Prop :=
  ∃ k' commands, ChainRuns world i status k elements k' commands ∧
    endStatus world i k' commands = none

/-- The chain with number `i` is run, by the shell or by a child. -/
def Starts (world : World) (i : Nat) (e : ListElement) : Prop :=
  e.sep = .amp → world.forksBg i = true

/-- The shell gets behind the chain with number `i`. -/
def GetsBehind (world : World) (i : Nat) (e : ListElement) : Prop :=
  e.sep ≠ .amp → ¬ ChainEnds world i 0 0 e.andOr.elements

/-- The chains from the one with number `i` on run the pipeline `k` of the chain `i'`. -/
inductive ListRuns (world : World) : Nat → List ListElement → Nat → Nat → List Command → Prop
  | here {i k : Nat} {e : ListElement} {rest : List ListElement} {commands : List Command} :
      Starts world i e → ChainRuns world i 0 0 e.andOr.elements k commands →
      ListRuns world i (e :: rest) i k commands
  | behind {i i' k : Nat} {e : ListElement} {rest : List ListElement} {commands : List Command} :
      GetsBehind world i e → ListRuns world (i + 1) rest i' k commands →
      ListRuns world i (e :: rest) i' k commands

/-! ## Several commands -/

variable {world : World} {i k : Nat} {commands commands' : List Command}

/-- Expansion makes no `argv` empty and fills none. -/
def SameArgv (command command' : Command) : Prop := command.argv = [] ↔ command'.argv = []

theorem none_mem_childLookups {command : Command} :
    none ∈ childLookups command ↔ command.argv = [] := by
  cases hargv : command.argv with
  | nil => simp [childLookups, argv0, hargv, findBuiltin]
  | cons name rest =>
    simp only [childLookups, argv0, hargv, List.head?_cons]
    split <;> simp

theorem executePipes_ret (forks : Nat → Bool) (j : Nat) (commands : List Command) :
    (executePipes forks j commands).1 =
      if ∀ m < commands.length, forks (j + m) = true then 0 else -1 := by
  induction commands generalizing j with
  | nil => simp [executePipes]
  | cons command rest ih =>
    rw [executePipes, List.length_cons]
    cases hfork : forks j with
    | false =>
      have hnot : ¬ ∀ m < rest.length + 1, forks (j + m) = true := fun h => by
        have hzero := h 0 (Nat.succ_pos _)
        rw [Nat.add_zero, hfork] at hzero
        cases hzero
      rw [if_neg hnot]
      rfl
    | true =>
      have hiff : (∀ m < rest.length + 1, forks (j + m) = true) ↔
          ∀ m < rest.length, forks (j + 1 + m) = true := by
        rw [Nat.forall_lt_succ_left']
        simp only [Nat.add_zero, hfork, true_and, Nat.add_assoc, Nat.add_comm 1]
      simp only [if_true, ih, hiff]

theorem none_mem_executePipes (h : List.Forall₂ SameArgv commands commands') (forks : Nat → Bool)
    (j : Nat) :
    none ∉ (executePipes forks j commands').2 ↔
      ∀ m command, commands[m]? = some command →
        (∀ m' ≤ m, forks (j + m') = true) → command.argv ≠ [] := by
  induction h generalizing j with
  | nil => simp [executePipes]
  | @cons command command' rest rest' hsame _ ih =>
    rw [executePipes]
    cases hfork : forks j with
    | false =>
      simp only [Bool.false_eq_true, if_false, List.not_mem_nil, not_false_eq_true, true_iff]
      intro m command _ hforks
      have hzero := hforks 0 (Nat.zero_le m)
      rw [Nat.add_zero, hfork] at hzero
      cases hzero
    | true =>
      have hbehind : ∀ m, (∀ m' ≤ m + 1, forks (j + m') = true) ↔
          ∀ m' ≤ m, forks (j + 1 + m') = true := by
        intro m
        simp only [← Nat.lt_succ_iff, Nat.forall_lt_succ_left' (n := m + 1)]
        simp only [Nat.add_zero, hfork, true_and, Nat.add_assoc, Nat.add_comm 1]
      have hempty : command'.argv = [] ↔ command.argv = [] := hsame.symm
      simp only [if_true, List.mem_append, not_or, none_mem_childLookups, ih, hempty]
      constructor
      · intro hcond m
        obtain ⟨hfirst, hrest⟩ := hcond
        cases m with
        | zero =>
          intro c hc _
          rw [List.getElem?_cons_zero, Option.some.injEq] at hc
          rwa [← hc]
        | succ m =>
          intro c hc hforks
          exact hrest m c hc ((hbehind m).mp hforks)
      · intro hcond
        refine ⟨hcond 0 command rfl fun m' hm' => ?_, fun m c hc hforks => ?_⟩
        · rw [Nat.le_zero.mp hm', Nat.add_zero, hfork]
        · exact hcond (m + 1) c hc ((hbehind m).mpr hforks)

/-! ## A pipeline -/

/-- A pipeline of the parser, and what expansion makes of it. -/
structure Expanded (p p' : Pipeline) : Prop where
  size : p'.size = p.commands.length
  same : List.Forall₂ SameArgv p.commands p'.commands

variable {p p' : Pipeline} {s : Process}

theorem executePipeline_stopped (h : s.running = false) (p : Pipeline × Nat) :
    executePipeline world i p s = (0, s) := if_pos h

/-- A command with a name is looked up by it. -/
theorem none_not_mem_singleLookups (world : World) (i k : Nat) {command : Command}
    (h : command.argv ≠ []) : none ∉ singleLookups world i k command := by
  obtain ⟨name, rest, hargv⟩ := List.exists_cons_of_ne_nil h
  have hbuiltin : none ∉ builtinLookups command := by
    rw [builtinLookups, hargv]
    cases rest with
    | nil => exact List.not_mem_nil
    | cons arg rest =>
      simp only
      split <;> simp
  have hname : argv0 command = some name := by rw [argv0, hargv, List.head?_cons]
  simp only [singleLookups, hname]
  split
  · simpa using hbuiltin
  · split <;> simp

theorem several_commands (world : World) (i k : Nat) (h : commands.length ≠ 1) :
    endStatus world i k commands =
        some (if ∀ j < commands.length, world.forks i k j = true then 0 else -1) ∧
      (Named world i k commands ↔ ∀ j command, commands[j]? = some command →
        (∀ j' ≤ j, world.forks i k j' = true) → command.argv ≠ []) := by
  match commands, h with
  | [], _ => exact ⟨rfl, Iff.rfl⟩
  | [_], h => exact absurd rfl h
  | _ :: _ :: _, _ => exact ⟨rfl, Iff.rfl⟩

theorem named_of_forall (h : ∀ command ∈ commands, command.argv ≠ []) :
    Named world i k commands := by
  by_cases hone : commands.length = 1
  · obtain ⟨command, rfl⟩ := List.length_eq_one_iff.mp hone
    exact trivial
  · exact (several_commands world i k hone).2.mpr fun j command hj _ => h command (List.mem_of_getElem? hj)

theorem executePipeline_single (world : World) (i k : Nat) {command command' : Command}
    (hsame : SameArgv command command') (h : p'.size = 1) (hcommands : p'.commands = [command'])
    (hs : s.running = true) :
    let r := executePipeline world i (p', k) s
    (none ∉ r.2.lookups ↔ none ∉ s.lookups) ∧
      match endStatus world i k [command] with
      | some status => r.1 = status ∧ r.2.running = true
      | none => r.2.running = false := by
  have hrunning : ¬ s.running = false := by simp [hs]
  have hempty : command.argv = [] ↔ command'.argv = [] := hsame
  simp only [executePipeline, if_neg hrunning, h, if_true, hcommands, endStatus]
  by_cases hargv : command'.argv = []
  · simp [Exec.checkCommand, hargv, hempty.mpr hargv, hs]
  · have hcheck : Exec.checkCommand command' = true := by simpa [Exec.checkCommand] using hargv
    have hnames := none_not_mem_singleLookups world i k hargv
    rw [if_pos hcheck, if_neg (mt hempty.mp hargv), executeSingle]
    cases world.status i k with
    | some status => simp [Process.look, hnames, hs]
    | none => simp [Process.look, hnames]

/-- What a pipeline that is run looks up, and its status. -/
theorem executePipeline_spec (world : World) (i k : Nat) (h : Expanded p p')
    (hs : s.running = true) :
    let r := executePipeline world i (p', k) s
    (none ∉ r.2.lookups ↔ none ∉ s.lookups ∧ Named world i k p.commands) ∧
      match endStatus world i k p.commands with
      | some status => r.1 = status ∧ r.2.running = true
      | none => r.2.running = false := by
  obtain ⟨hsize, hsame⟩ := h
  by_cases hone : p.commands.length = 1
  · obtain ⟨command, hcommand⟩ := List.length_eq_one_iff.mp hone
    rw [hcommand] at hsame
    obtain ⟨command', rest, hargv, hrest, hcommand'⟩ := List.forall₂_cons_left_iff.mp hsame
    rw [List.forall₂_nil_left_iff.mp hrest] at hcommand'
    have hsingle := executePipeline_single world i k hargv (hsize.trans hone) hcommand' hs
    rw [hcommand]
    exact ⟨hsingle.1.trans (and_iff_left trivial).symm, hsingle.2⟩
  · obtain ⟨hend, hnamed⟩ := several_commands world i k hone
    have hrunning : ¬ s.running = false := by simp [hs]
    have hsize1 : ¬ p'.size = 1 := by rwa [hsize]
    have hret := executePipes_ret (world.forks i k) 0 p'.commands
    have hnone := none_mem_executePipes hsame (world.forks i k) 0
    simp only [Nat.zero_add] at hret hnone
    have hrun : executePipeline world i (p', k) s =
        ((executePipes (world.forks i k) 0 p'.commands).1,
          s.look (executePipes (world.forks i k) 0 p'.commands).2) := by
      rw [executePipeline, if_neg hrunning, if_neg hsize1]
    rw [hend, hnamed, hrun, ← hnone, hret, hsame.length_eq]
    exact ⟨by simp [Process.look], rfl, hs⟩

/-! ## A chain -/

structure ExpandedElement (e e' : AndOrElement Pipeline) : Prop where
  op : e'.op = e.op
  pipeline : Expanded e.pipeline e'.pipeline

theorem executeAndorLoop_stopped (h : s.running = false) (status : Int)
    (elements : List (AndOrElement (Pipeline × Nat))) :
    (executeAndorLoop (executePipeline world i) status elements s).2 = s := by
  induction elements generalizing status with
  | nil => rfl
  | cons e rest ih =>
    by_cases hop : Admits e.op status
    · rw [executeAndorLoop_admits _ hop, executePipeline_stopped h]
      exact ih 0
    · rw [executeAndorLoop_stops _ hop]

section Admitted
variable {status : Int} {e : AndOrElement Pipeline} {rest : List (AndOrElement Pipeline)}

theorem forall_chainRuns_cons (hop : Admits e.op status) (P : Nat → List Command → Prop) :
    (∀ k' commands, ChainRuns world i status k (e :: rest) k' commands → P k' commands) ↔
      P k e.pipeline.commands ∧ ∀ next, endStatus world i k e.pipeline.commands = some next →
        ∀ k' commands, ChainRuns world i next (k + 1) rest k' commands → P k' commands := by
  constructor
  · exact fun h => ⟨h _ _ (.here hop), fun next hend k' commands hruns =>
      h _ _ (.behind hop hend hruns)⟩
  · intro hcond k' commands hruns
    obtain ⟨hfirst, hrest⟩ := hcond
    cases hruns with
    | here _ => exact hfirst
    | behind _ hend hruns => exact hrest _ hend _ _ hruns

theorem chainEnds_cons (hop : Admits e.op status) :
    ChainEnds world i status k (e :: rest) ↔
      endStatus world i k e.pipeline.commands = none ∨
        ∃ next, endStatus world i k e.pipeline.commands = some next ∧
          ChainEnds world i next (k + 1) rest := by
  constructor
  · intro h
    obtain ⟨k', commands, hruns, hnone⟩ := h
    cases hruns with
    | here _ => exact .inl hnone
    | behind _ hend hruns => exact .inr ⟨_, hend, k', commands, hruns, hnone⟩
  · intro h
    obtain hnone | ⟨next, hend, k', commands, hruns, hnone⟩ := h
    · exact ⟨k, _, .here hop, hnone⟩
    · exact ⟨k', commands, .behind hop hend hruns, hnone⟩

theorem not_chainRuns (hop : ¬ Admits e.op status) (k' : Nat) :
    ¬ ChainRuns world i status k (e :: rest) k' commands := by
  intro h
  cases h with
  | here hadmits => exact hop hadmits
  | behind hadmits _ _ => exact hop hadmits

end Admitted

/-- What a chain looks up from its pipeline `k` on, and whether the process gets behind it. -/
theorem executeAndorLoop_spec (world : World) (i : Nat) {elements elements' : List (AndOrElement Pipeline)}
    (h : List.Forall₂ ExpandedElement elements elements') (status : Int) (k : Nat)
    (hs : s.running = true) :
    let r := executeAndorLoop (executePipeline world i) status
      ((elements'.zipIdx k).map fun e => ⟨(e.1.pipeline, e.2), e.1.op⟩) s
    (none ∉ r.2.lookups ↔ none ∉ s.lookups ∧
      ∀ k' commands, ChainRuns world i status k elements k' commands →
        Named world i k' commands) ∧
      (r.2.running = false ↔ ChainEnds world i status k elements) := by
  induction h generalizing status k s with
  | nil =>
    have hnot : ∀ k' commands, ¬ ChainRuns world i status k [] k' commands :=
      fun k' commands hruns => by cases hruns
    simp [executeAndorLoop, ChainEnds, hnot, hs]
  | @cons e e' rest rest' he _ ih =>
    rw [List.zipIdx_cons, List.map_cons]
    by_cases hop : Admits e.op status
    · have hop' : Admits e'.op status := he.op ▸ hop
      obtain ⟨hlookups, hend⟩ := executePipeline_spec world i k he.pipeline hs
      rw [executeAndorLoop_admits (executePipeline world i) hop', chainEnds_cons hop,
        forall_chainRuns_cons hop, ← and_assoc, ← hlookups]
      cases hnext : endStatus world i k e.pipeline.commands with
      | some next =>
        rw [hnext] at hend
        obtain ⟨hstatus, hrunning⟩ := hend
        simpa [hstatus] using ih next (k + 1) hrunning
      | none =>
        -- the process ends here, and what is left of the loop does nothing
        rw [hnext] at hend
        simp [executeAndorLoop_stopped hend, hend]
    · have hop' : ¬ Admits e'.op status := he.op ▸ hop
      rw [executeAndorLoop_stops (executePipeline world i) hop']
      simp [not_chainRuns hop, ChainEnds, hs]

/-! ## A list -/

structure ExpandedChain (e e' : ListElement) : Prop where
  sep : e'.sep = e.sep
  elements : List.Forall₂ ExpandedElement e.andOr.elements e'.andOr.elements

section Started
variable {e e' : ListElement}

theorem runElement_spec (world : World) (i : Nat) (h : ExpandedChain e e') (hs : s.running = true) :
    let r := runElement world i e' s
    (none ∉ r.2.lookups ↔ none ∉ s.lookups ∧ (Starts world i e → ∀ k commands,
      ChainRuns world i 0 0 e.andOr.elements k commands → Named world i k commands)) ∧
      (r.2.running = true ↔ GetsBehind world i e) := by
  obtain ⟨hlookups, hends⟩ := executeAndorLoop_spec world i h.elements 0 0 hs
  have hrunning := (not_congr hends)
  simp only [Bool.not_eq_false] at hrunning
  simp only [runElement, h.sep, Starts, GetsBehind, executeAndor, numberAndOr]
  cases hsep : e.sep with
  | none => simpa using ⟨hlookups, hrunning⟩
  | semi => simpa using ⟨hlookups, hrunning⟩
  | amp =>
    cases hfork : world.forksBg i with
    | true => simpa [hs] using hlookups
    | false => simp [hs]

theorem forall_listRuns_cons {rest : List ListElement} (P : Nat → Nat → List Command → Prop) :
    (∀ i' k commands, ListRuns world i (e :: rest) i' k commands → P i' k commands) ↔
      (Starts world i e → ∀ k commands, ChainRuns world i 0 0 e.andOr.elements k commands →
        P i k commands) ∧
      (GetsBehind world i e → ∀ i' k commands, ListRuns world (i + 1) rest i' k commands →
        P i' k commands) := by
  constructor
  · exact fun h => ⟨fun hstarts k commands hruns => h i k commands (.here hstarts hruns),
      fun hbehind i' k commands hruns => h i' k commands (.behind hbehind hruns)⟩
  · intro hcond i' k commands hruns
    obtain ⟨hfirst, hrest⟩ := hcond
    cases hruns with
    | here hstarts hruns => exact hfirst hstarts k commands hruns
    | behind hbehind hruns => exact hrest hbehind i' k commands hruns

end Started

theorem executeListLoop_spec {elements elements' : List ListElement}
    (h : List.Forall₂ ExpandedChain elements elements') (i : Nat) (status : Int)
    (hs : s.running = true) :
    none ∉ (executeListLoop world i status elements' s).2.lookups ↔ none ∉ s.lookups ∧
      ∀ i' k commands, ListRuns world i elements i' k commands → Named world i' k commands := by
  induction h generalizing status i s with
  | nil =>
    have hnot : ∀ i' k commands, ¬ ListRuns world i [] i' k commands :=
      fun i' k commands hruns => by cases hruns
    simp [executeListLoop, hnot]
  | @cons e e' rest rest' he _ ih =>
    obtain ⟨hlookups, hbehind⟩ := runElement_spec world i he hs
    rw [executeListLoop, forall_listRuns_cons, ← and_assoc, ← hlookups]
    simp only
    by_cases hrunning : (runElement world i e' s).2.running = true
    · rw [if_pos hrunning, ih (i + 1) _ hrunning]
      exact and_congr_right fun _ => ⟨fun hrest _ => hrest, fun hrest => hrest (hbehind.mp hrunning)⟩
    · rw [if_neg hrunning]
      exact ⟨fun hnone => ⟨hnone, fun hgets => absurd (hbehind.mpr hgets) hrunning⟩, And.left⟩

/-! ## From the input on -/

/-- Every pipeline has as many commands as it says. -/
def Counted (list : ShList) : Prop :=
  ∀ e ∈ list.elements, ∀ a ∈ e.andOr.elements, a.pipeline.size = a.pipeline.commands.length

/-- What the items of a separated list satisfy, the chain does too. -/
theorem counted_of_sepList {α γ : Type} {isSep : TokenType → Bool} {op : TokenType → γ} {last : γ}
    {stop : TokenStream → Bool} {item : Parse α} {P : α → Prop}
    (hitem : ∀ ts r, item ts = .ok r → P r.1) {fuel : Nat} {ts : TokenStream}
    {r : Chain α γ × TokenStream} (h : sepList isSep op last stop item fuel ts = .ok r) :
    r.1.Counted ∧ ∀ e ∈ r.1.toList, P e.1 :=
  (sepList_forall (I := fun _ => True) (fun _ _ => trivial)
    (fun ts r _ hrun => ⟨trivial, hitem ts r hrun⟩) trivial h).2

theorem parsePipeline_counted {fuel : Nat} {ts : TokenStream} {r : Pipeline × TokenStream}
    (h : parsePipeline fuel ts = .ok r) : r.1.size = r.1.commands.length := by
  obtain ⟨⟨chain, ts'⟩, hrun, hr⟩ := bind_eq_ok h
  cases hr
  have hcounted := (counted_of_sepList (P := fun _ => True) (fun _ _ _ => trivial) hrun).1
  rw [List.length_map]
  exact hcounted

theorem parseAndOr_counted {fuel : Nat} {ts : TokenStream} {r : AndOr Pipeline × TokenStream}
    (h : parseAndOr fuel ts = .ok r) :
    ∀ a ∈ r.1.elements, a.pipeline.size = a.pipeline.commands.length := by
  obtain ⟨⟨chain, ts'⟩, hrun, hr⟩ := bind_eq_ok h
  cases hr
  have hitems := (counted_of_sepList (P := fun p => p.size = p.commands.length)
    (fun _ _ => parsePipeline_counted) hrun).2
  exact List.forall_mem_map.mpr hitems

theorem parseList_counted {fuel : Nat} {ts : TokenStream} {r : ShList × TokenStream}
    (h : parseList fuel ts = .ok r) : Counted r.1 := by
  obtain ⟨⟨chain, ts'⟩, hrun, hr⟩ := bind_eq_ok h
  cases hr
  have hitems := (counted_of_sepList
    (P := fun ao => ∀ a ∈ ao.elements, a.pipeline.size = a.pipeline.commands.length)
    (fun _ _ => parseAndOr_counted) hrun).2
  exact List.forall_mem_map.mpr hitems

theorem lexAndParse_counted {beyond : Nat → UInt8} {input : Str} {list : ShList}
    (h : lexAndParse beyond input = .ok (some list)) : Counted list := by
  simp only [lexAndParse] at h
  split at h
  · cases h
  · split at h
    · cases h
    · rename_i ts _
      cases hparse : parseList ts.tokens.length ts with
      | error e =>
        rw [hparse] at h
        cases h
      | ok r =>
        rw [hparse] at h
        cases h
        exact parseList_counted hparse

variable {b : Builder β} {env : Env σ}

theorem expandCommand_sameArgv {command command' : Command} {t t' : σ}
    (h : Exec.expandCommand b env command t = some (command', t')) : SameArgv command command' := by
  simp only [Exec.expandCommand, Option.bind_eq_bind, Option.bind_eq_some_iff, Prod.exists,
    Option.pure_def, Option.some.injEq, Prod.mk.injEq] at h
  obtain ⟨assignmentList, t1, -, redirs, t2, -, argv, t3, hargv, rfl, -⟩ := h
  have hlength := mapState_length hargv
  rw [SameArgv, ← List.length_eq_zero_iff, ← List.length_eq_zero_iff, hlength]

theorem expandPipeline_expanded {p p' : Pipeline} {t t' : σ} (hp : p.size = p.commands.length)
    (h : Exec.expandPipeline b env p t = some (p', t')) : Expanded p p' := by
  obtain ⟨r, hr, heq⟩ := Option.map_eq_some_iff.mp h
  obtain ⟨rfl, -⟩ := Prod.mk.inj heq
  exact ⟨hp, mapState_forall₂ (R := SameArgv) (fun _ _ _ _ _ => expandCommand_sameArgv) hr⟩

theorem expandAndor_expanded {ao ao' : AndOr Pipeline} {t t' : σ}
    (hao : ∀ a ∈ ao.elements, a.pipeline.size = a.pipeline.commands.length)
    (h : Exec.expandAndor b env ao t = some (ao', t')) :
    List.Forall₂ ExpandedElement ao.elements ao'.elements := by
  obtain ⟨r, hr, heq⟩ := Option.map_eq_some_iff.mp h
  obtain ⟨rfl, -⟩ := Prod.mk.inj heq
  refine mapState_forall₂ (fun e he u e' u' hrun => ?_) hr
  obtain ⟨q, hq, heq⟩ := Option.map_eq_some_iff.mp hrun
  obtain ⟨rfl, -⟩ := Prod.mk.inj heq
  exact ⟨rfl, expandPipeline_expanded (hao e he) hq⟩

theorem expandList_expanded {list list' : ShList} {t t' : σ} (hcounted : Counted list)
    (h : Exec.expandList b env list t = some (list', t')) :
    List.Forall₂ ExpandedChain list.elements list'.elements := by
  obtain ⟨r, hr, heq⟩ := Option.map_eq_some_iff.mp h
  obtain ⟨rfl, -⟩ := Prod.mk.inj heq
  refine mapState_forall₂ (fun e he u e' u' hrun => ?_) hr
  obtain ⟨q, hq, heq⟩ := Option.map_eq_some_iff.mp hrun
  obtain ⟨rfl, -⟩ := Prod.mk.inj heq
  exact ⟨rfl, expandAndor_expanded (hcounted e he) hq⟩

/-! ## The lists of a session -/

/-- What is executed was parsed, and expanded into a list of the same shape. -/
def Execution.Sound (e : Execution) : Prop :=
  List.Forall₂ ExpandedChain e.list.elements e.expanded.elements

theorem ownExecution_sound (world : World) {list : ShList} (hcounted : Counted list) (s : σ) :
    ∀ e ∈ ownExecution b env world list s, e.Sound := by
  intro e he
  unfold ownExecution at he
  split at he
  · cases he
  · rename_i expanded t hexpand
    obtain rfl := List.mem_singleton.mp he
    exact expandList_expanded hcounted hexpand

/-- By depth: what a child executes was parsed too. -/
theorem executions_sound {host : ReplHost σ} (depth : Nat) (worlds : List Nat → World)
    {list : ShList} (hcounted : Counted list) (s : σ) :
    ∀ e ∈ executions b host depth worlds list s, e.Sound := by
  induction depth generalizing worlds list s with
  | zero => exact ownExecution_sound _ hcounted s
  | succ depth ih =>
    intro e he
    rcases List.mem_append.mp he with hcall | hown
    · obtain ⟨⟨call, n⟩, -, hcall⟩ := List.mem_flatMap.mp hcall
      unfold callExecutions at hcall
      split at hcall
      · rename_i list' child hparse _
        exact ih _ (lexAndParse_counted hparse) child e hcall
      · cases hcall
    · exact ownExecution_sound _ hcounted s e hown

theorem Execution.Sound.lookups {e : Execution} (h : e.Sound) :
    none ∉ e.lookups ↔ ∀ i k commands, ListRuns e.world 0 e.list.elements i k commands →
      Named e.world i k commands := by
  rw [Execution.lookups, executeListLoop_spec h 0 0 rfl]
  exact and_iff_right List.not_mem_nil

/-- **When no null name is looked up.** A list that was parsed is run without, in the
shell and in all children, if and only if in it and in every list that a substitution
hands to a child, of several commands that are run each one whose child is started
has a name. -/
theorem executeList_names_iff {beyond : Nat → UInt8} {input : Str} {list : ShList}
    (hparse : lexAndParse beyond input = .ok (some list)) (b : Builder β) (host : ReplHost σ)
    (depth : Nat) (worlds : List Nat → World) (s : σ) :
    none ∉ executeList b host depth worlds list s ↔
      ∀ e ∈ executions b host depth worlds list s, ∀ i k commands,
        ListRuns e.world 0 e.list.elements i k commands → Named e.world i k commands := by
  have hsound : ∀ e ∈ executions b host depth worlds list s, e.Sound :=
    executions_sound depth worlds (lexAndParse_counted hparse) s
  have hnone : none ∉ executeList b host depth worlds list s ↔
      ∀ e ∈ executions b host depth worlds list s, none ∉ e.lookups := by
    rw [executeList, List.mem_flatMap]
    exact ⟨fun h e he hmem => h ⟨e, he, hmem⟩, fun h hmem => by
      obtain ⟨e, he, hmem⟩ := hmem
      exact h e he hmem⟩
  rw [hnone]
  exact forall₂_congr fun e he => (hsound e he).lookups

/-! ## `a $(c | d) | b` and `> f | b` -/

section Examples

variable {elements : List ListElement} {i' : Nat}

/-- The commands that are run stand in the list. -/
theorem ChainRuns.mem {status : Int} {chain : List (AndOrElement Pipeline)}
    (h : ChainRuns world i status k chain i' commands) :
    ∃ e ∈ chain, e.pipeline.commands = commands := by
  induction h with
  | here _ => exact ⟨_, List.mem_cons_self, rfl⟩
  | behind _ _ _ ih =>
    obtain ⟨e, he, hcommands⟩ := ih
    exact ⟨e, List.mem_cons_of_mem _ he, hcommands⟩

theorem ListRuns.mem (h : ListRuns world i elements i' k commands) :
    ∃ x ∈ elements, ∃ e ∈ x.andOr.elements, e.pipeline.commands = commands := by
  induction h with
  | here _ hchain => exact ⟨_, List.mem_cons_self, hchain.mem⟩
  | behind _ _ ih =>
    obtain ⟨x, hx, hcommands⟩ := ih
    exact ⟨x, List.mem_cons_of_mem _ hx, hcommands⟩

/-- Each command of the list has a name. -/
def AllNamed (list : ShList) : Prop :=
  ∀ x ∈ list.elements, ∀ e ∈ x.andOr.elements, ∀ command ∈ e.pipeline.commands,
    command.argv ≠ []

instance (list : ShList) : Decidable (AllNamed list) := List.decidableBAll _ _

theorem AllNamed.named {list : ShList} (h : AllNamed list)
    (hruns : ListRuns world i list.elements i' k commands) : Named world i' k commands := by
  obtain ⟨x, hx, e, he, rfl⟩ := hruns.mem
  exact named_of_forall (h x hx e he)

/-- A single command in front of `| b`. -/
def pipedTo (command : Command) : ShList :=
  let pipeline := { size := 2, commands := [command, ⟨[str "b"], [], []⟩] }
  { count := 1, elements := [⟨{ count := 1, elements := [⟨pipeline, .none⟩] }, .none⟩] }

def substituting : Command := ⟨[str "a", str "$(c | d)"], [], []⟩

def redirectedOnly : Command := ⟨[], [], [⟨1, .out, str "f"⟩]⟩

/-- Every `fork` succeeds and every command exits with 0. -/
def calm : World where
  status _ _ := some 0
  redirected _ _ := true
  forks _ _ _ := true
  forksBg _ := true

/-- The list of the substitution and the one around it. -/
theorem executeList_names_iff_nested :
    lexAndParse (fun _ => 0) (str "a $(c | d) | b") = .ok (some (pipedTo substituting)) ∧
      (executions exact promptHost 1 (fun _ => calm) (pipedTo substituting) []).length = 2 ∧
      none ∉ executeList exact promptHost 1 (fun _ => calm) (pipedTo substituting) [] := by
  have hparse : lexAndParse (fun _ => 0) (str "a $(c | d) | b") =
      .ok (some (pipedTo substituting)) := rfl
  have hnamed : ∀ e ∈ executions exact promptHost 1 (fun _ => calm) (pipedTo substituting) [],
      AllNamed e.list := by
    decide +kernel
  refine ⟨hparse, by decide +kernel, ?_⟩
  exact (executeList_names_iff hparse exact promptHost 1 (fun _ => calm) []).mpr
    fun e he _ _ _ hruns => (hnamed e he).named hruns

/-- The child of `> f` in a pipeline looks up a null pointer, at the prompt as in a
substitution. -/
theorem executeList_null_lookup :
    (lexAndParse (fun _ => 0) (str "> f | b") = .ok (some (pipedTo redirectedOnly)) ∧
      executeList exact promptHost 1 (fun _ => calm) (pipedTo redirectedOnly) [] =
        [none, some (str "b"), some (str "b")]) ∧
    ∃ list, lexAndParse (fun _ => 0) (str "a $(> f | b)") = .ok (some list) ∧
      none ∈ executeList exact promptHost 1 (fun _ => calm) list [] := by
  refine ⟨⟨rfl, by decide +kernel⟩, _, rfl, by decide +kernel⟩

end Examples

end Shell.NullLookups
