import Shell.Completion
import Shell.Exec
import Shell.History
import Shell.Lib.BinarySearch
import Shell.NullLookups
import Shell.Variables

/-! # The builtins (builtins.c, and how exec.c finds and calls them)

The shell's own state is the completion registry, the variables, the history and what
it has written; what lies behind the calls of the system is a `World`. A call is `none`
where the process ends, or uses what it has freed. -/
namespace Shell.Builtins
open Shell.CTypes Shell.Parsetypes Shell.Exec Shell.Completion Shell.Variables
open Shell.Lib.BinarySearch (bsearch bsearch_eq_some_iff)

variable {ω : Type}

/-! ## The table -/

/-- The functions that the table points to. -/
inductive Function
  | cd | complete | declare | echo | exit | history | jobs | pwd | type
  deriving DecidableEq, Repr

structure BuiltinCmd where
  name : Str
  builtin : Function
  deriving DecidableEq, Repr

def builtins : List BuiltinCmd :=
  [⟨str "cd", .cd⟩, ⟨str "complete", .complete⟩, ⟨str "declare", .declare⟩, ⟨str "echo", .echo⟩,
    ⟨str "exit", .exit⟩, ⟨str "history", .history⟩, ⟨str "jobs", .jobs⟩, ⟨str "pwd", .pwd⟩,
    ⟨str "type", .type⟩]

/-- `strcmp`: bytes as `unsigned char`, the end of a text in front of every byte. -/
def strcmp (a b : Str) : Ordering := compare a b

def pstrcmp (name : Str) (cmd : BuiltinCmd) : Ordering := strcmp name cmd.name

def findBuiltin (name : Str) : Option BuiltinCmd := bsearch pstrcmp name builtins

instance : Std.TransCmp strcmp := inferInstanceAs (Std.TransCmp (compare : Str → Str → Ordering))

instance : Std.LawfulEqCmp strcmp :=
  inferInstanceAs (Std.LawfulEqCmp (compare : Str → Str → Ordering))

theorem builtins_sorted : builtins.Pairwise fun x y => strcmp x.name y.name = .lt := by decide

/-- **The binary search of `find_builtin` finds each entry of the table by its name**, and
nothing by any other name. -/
theorem findBuiltin_eq_some_iff (name : Str) (cmd : BuiltinCmd) :
    findBuiltin name = some cmd ↔ cmd ∈ builtins ∧ cmd.name = name :=
  @bsearch_eq_some_iff Str BuiltinCmd strcmp BuiltinCmd.name name builtins _ _ builtins_sorted cmd

/-! ## What the builtins work on -/

/-- The calls of the system and of readline. -/
structure World (ω : Type) where
  chdir : Str → ω → Int × ω
  /-- `none` where the path does not fit. -/
  getcwd : ω → Option Str
  /-- `print_jobs`: its lines. -/
  printJobs : ω → Str × ω
  readline : ω → History.Readline
  /-- The files behind a call of `history`. -/
  filed : List Str → History.State → ω → ω

structure ShellState (ω : Type) where
  registry : Registry
  tables : Tables
  history : History.State
  out : Str
  err : Str
  world : ω

/-- A text on `stdout`. -/
def ShellState.puts (s : ShellState ω) (text : Str) : ShellState ω := { s with out := s.out ++ text }

/-- A text on `stderr`. -/
def ShellState.eputs (s : ShellState ω) (text : Str) : ShellState ω := { s with err := s.err ++ text }

/-! ## The functions -/

/-- Every error of `chdir` is reported as `ENOENT`. -/
def builtinCd (w : World ω) (argv : List Str) : Run (ShellState ω) := fun s =>
  match argv with
  | _ :: target :: _ =>
    let (result, world) := w.chdir target s.world
    let s := { s with world := world }
    if result = -1 then
      some (result, s.puts (str "cd: " ++ target ++ str ": No such file or directory\n"))
    else some (result, s)
  | _ => some (-1, s)

def builtinComplete (argv : List Str) : Run (ShellState ω) := fun s =>
  match argv with
  | name :: option :: rest =>
    if option = str "-p" then
      match rest with
      | [] => some (1, s)
      | command :: _ =>
        match lookupCompletion s.registry command with
        | some path => some (0, s.puts (str "complete -C '" ++ path ++ str "' " ++ command ++ str "\n"))
        | none =>
          some (1, s.eputs (name ++ str ": " ++ command ++ str ": no completion specification\n"))
    else if option = str "-C" then
      match rest with
      | scriptPath :: command :: _ =>
        some (0, { s with registry := registerCompletion s.registry command scriptPath })
      | _ => some (1, s.eputs (str "complete: -C requires a script path and command\n"))
    else if option = str "-r" then
      match rest with
      | [] => some (1, s.eputs (str "complete: -r requires a command\n"))
      | command :: _ => (unregisterCompletion s.registry command).map fun registry =>
        (1, { s with registry := registry })
    else some (1, s)
  | _ => some (1, s)

def builtinDeclare (argv : List Str) : Run (ShellState ω) := fun s =>
  (Variables.builtinDeclare argv s.tables).map fun declared =>
    (declared.ret, { (s.puts declared.out).eputs declared.err with tables := declared.tables })

/-- The rounds of the loop of `builtin_echo`, for the words behind the command. -/
def echoLoop : List Str → Str
  | [] => []
  | [word] => word ++ str "\n"
  | word :: rest => word ++ str " " ++ echoLoop rest

def builtinEcho (argv : List Str) : Run (ShellState ω) := fun s => some (0, s.puts (echoLoop argv.tail))

/-- `exit` does not return. -/
def builtinExit : Run (ShellState ω) := fun _ => none

def builtinHistory (w : World ω) (argv : List Str) : Run (ShellState ω) := fun s =>
  (History.builtinHistory (w.readline s.world) argv s.history).map fun result =>
    (result.ret, { (s.puts result.out).eputs result.err with
      history := result.state, world := w.filed argv s.history s.world })

def builtinJobs (w : World ω) (argv : List Str) : Run (ShellState ω) := fun s =>
  if argv.length = 1 then
    let (lines, world) := w.printJobs s.world
    some (0, { s.puts lines with world := world })
  else some (0, s)

def builtinPwd (w : World ω) : Run (ShellState ω) := fun s =>
  match w.getcwd s.world with
  | some path => some (0, s.puts (path ++ str "\n"))
  | none => some (0, s)

/-- The path of a program is never looked for. -/
def builtinType (argv : List Str) : Run (ShellState ω) := fun s =>
  match argv with
  | _ :: name :: _ =>
    if (findBuiltin name).isSome then some (0, s.puts (name ++ str " is a shell builtin\n"))
    else some (0, s.puts (name ++ str ": not found\n"))
  | _ => some (0, s)

/-- The call through the pointer. -/
def Function.call (w : World ω) (argv : List Str) : Function → Run (ShellState ω)
  | .cd => builtinCd w argv
  | .complete => builtinComplete argv
  | .declare => builtinDeclare argv
  | .echo => builtinEcho argv
  | .exit => builtinExit
  | .history => builtinHistory w argv
  | .jobs => builtinJobs w argv
  | .pwd => builtinPwd w
  | .type => builtinType argv

/-- `strcmp` follows a null name. -/
def executeBuiltin (w : World ω) (command : Command) : Run (ShellState ω) := fun s =>
  match command.argv with
  | [] => none
  | name :: _ =>
    match findBuiltin name with
    | some becmd => becmd.builtin.call w command.argv s
    | none => some (-1, s)

end Shell.Builtins
