import Shell.Andor
import Shell.Expand
import Shell.Lib.Traverse

/-! # Running a list (the executor of exec.c)

`execute_list` expands the whole list and then runs it. What runs a command, a
builtin or several pipes, and what forks, comes from the `Host`. A run is
`none` where the source follows a null pointer or reads outside of a block. -/
namespace Shell.Exec
open Shell.CTypes Shell.Parsetypes Shell.Parser Shell.Andor Shell.Expand
open Shell.Stringbuilder Shell.Lib.Traverse

variable {β σ π : Type}

/-! ## Assignments -/

/-- A block of `malloc`. -/
structure Block where
  cells : Cells
  size : Nat

/-- The block read as a C string; `none` when it holds no NUL. -/
def Block.cstr (block : Block) : Option Str :=
  (firstNul block.cells 0 block.size).map fun n => (List.range n).map block.cells

/-- `assignment_split` of parser.c. Without a `=` both parts are empty. The
value is given room for pointers, and no NUL is written behind it. -/
def assignmentSplit (new : Cells × Cells) (assignment : Str) : Block × Block :=
  let (name, value) := match scanTo (chr '=') assignment with
    | (_, none) => ([], [])
    | (name, some value) => (name, value)
  ({ cells := storeBytes new.1 0 (name ++ [0]), size := name.length + 1 },
    { cells := storeBytes new.2 0 value, size := 8 * value.length + 1 })

def executeAssignment (vars : Vars σ) (assignment : Str) (s : σ) : Option σ := do
  let pair := assignmentSplit (vars.fresh s) assignment
  return vars.varAssign s (← pair.1.cstr) (← pair.2.cstr)

/-! ## The expansion pass -/

def expandRedirection (b : Builder β) (env : Env σ) (redirect : Redirect) (s : σ) :
    Option (Redirect × σ) :=
  (expandWord b env redirect.target s).map fun r => ({ redirect with target := r.1 }, r.2)

def expandRedirections (b : Builder β) (env : Env σ) :
    List Redirect → σ → Option (List Redirect × σ) :=
  mapState (expandRedirection b env)

def expandAssignment (b : Builder β) (env : Env σ) (item : Str) (s : σ) : Option (Str × σ) :=
  expandWord b env item s

def expandArgs (b : Builder β) (env : Env σ) : List Str → σ → Option (List Str × σ) :=
  mapState (expandWord b env)

/-- Each assignment is executed before the next one is expanded. -/
def expandAssignments (b : Builder β) (env : Env σ) : List Str → σ → Option (List Str × σ) :=
  mapState fun item s => do
    let (item, s) ← expandAssignment b env item s
    return (item, ← executeAssignment env.toVars item s)

def expandCommand (b : Builder β) (env : Env σ) (command : Command) (s : σ) :
    Option (Command × σ) := do
  let (assignmentList, s) ← expandAssignments b env command.assignmentList s
  let (redirs, s) ← expandRedirections b env command.redirs s
  let (argv, s) ← expandArgs b env command.argv s
  return ({ argv := argv, assignmentList := assignmentList, redirs := redirs }, s)

def expandPipeline (b : Builder β) (env : Env σ) (pipeline : Pipeline) (s : σ) :
    Option (Pipeline × σ) :=
  (mapState (expandCommand b env) pipeline.commands s).map fun r =>
    ({ pipeline with commands := r.1 }, r.2)

def expandElement (b : Builder β) (env : Env σ) (element : AndOrElement Pipeline) (s : σ) :
    Option (AndOrElement Pipeline × σ) :=
  (expandPipeline b env element.pipeline s).map fun r => ({ element with pipeline := r.1 }, r.2)

def expandAndor (b : Builder β) (env : Env σ) (andor : AndOr Pipeline) (s : σ) :
    Option (AndOr Pipeline × σ) :=
  (mapState (expandElement b env) andor.elements s).map fun r =>
    ({ andor with elements := r.1 }, r.2)

def expandListElement (b : Builder β) (env : Env σ) (element : ListElement) (s : σ) :
    Option (ListElement × σ) :=
  (expandAndor b env element.andOr s).map fun r => ({ element with andOr := r.1 }, r.2)

def expandList (b : Builder β) (env : Env σ) (list : ShList) (s : σ) : Option (ShList × σ) :=
  (mapState (expandListElement b env) list.elements s).map fun r =>
    ({ list with elements := r.1 }, r.2)

/-! ## The runs -/

/-- An exit status and the state behind it. -/
abbrev Run (σ : Type) := σ → Option (Int × σ)

structure Host (σ : Type) extends Vars σ where
  /-- `find_builtin` finds one. -/
  isBuiltin : Str → Bool
  executeBuiltin : Command → Run σ
  executeCommand : Command → Run σ
  executePipes : Pipeline → Run σ
  /-- `execute_andor_bg`, given what its child runs. -/
  executeAndorBg : Run σ → Run σ
  /-- The results of the reads of `capture_list_output`, given what its child
  runs; there are none where `pipe` or `fork` fails. -/
  captured : Run σ → σ → Option (List Str × σ)
  /-- What lies behind the NUL of a text that is lexed. -/
  beyond : σ → Nat → UInt8

def checkCommand (command : Command) : Bool := !command.argv.isEmpty

def isBuiltin (host : Host σ) (command : Command) : Bool :=
  match command.argv with
  | [] => false
  | name :: _ => host.isBuiltin name

def executePipeline (host : Host σ) (pipeline : Pipeline) : Run σ := fun s =>
  if pipeline.size = 1 then
    match pipeline.commands with
    | [] => none
    | command :: _ =>
      if checkCommand command then
        if isBuiltin host command then host.executeBuiltin command s
        else host.executeCommand command s
      else some (0, s)
  else host.executePipes pipeline s

/-- A partial run as a total one, on a state that may be lost. -/
def lifted (run : π → Run σ) (p : π) : Option σ → Int × Option σ
  | none => (0, none)
  | some s =>
    match run p s with
    | some (status, s) => (status, some s)
    | none => (0, none)

def runAndor (run : π → Run σ) (andor : AndOr π) : Run σ := fun s =>
  match executeAndor (lifted run) andor (some s) with
  | (status, some s) => some (status, s)
  | (_, none) => none

def runElement (host : Host σ) (run : Pipeline → Run σ) (element : ListElement) : Run σ :=
  match element.sep with
  | .semi | .none => runAndor run element.andOr
  | .amp => host.executeAndorBg (runAndor run element.andOr)

/-- The `while` loop of `execute_list`, over what runs a pipeline. -/
def executeListLoop (host : Host σ) (run : Pipeline → Run σ) : Int → List ListElement → Run σ
  | status, [], s => some (status, s)
  | _, iter :: rest, s =>
    (runElement host run iter s).bind fun r => executeListLoop host run r.1 rest r.2

def executeList (b : Builder β) (env : Env σ) (host : Host σ) (list : ShList) : Run σ := fun s =>
  (expandList b env list s).bind fun r =>
    executeListLoop host (executePipeline host) 0 r.1.elements r.2

/-! ## Command substitution -/

def dropNewlines (result : Str) : Str := (result.reverse.dropWhile (· == chr '\n')).reverse

/-- `capture_list_output`, given what the child runs. -/
def captureListOutput (b : Builder β) (host : Host σ) (run : Run σ) (s : σ) :
    Option (Str × σ) := do
  let (reads, s) ← host.captured run s
  let sb ← reads.foldlM (fun sb buf => b.appends sb (buf.takeWhile (· ≠ 0))) (b.newSized 16)
  let result ← b.takestring sb
  return (dropNewlines result, s)

/-- The shell's own environment, where substitutions nest at most `depth` deep.
A body that does not lex is a null list, which the child follows. -/
def shellEnv (b : Builder β) (host : Host σ) : Nat → Env σ
  | 0 => { host.toVars with cmdsub := fun _ _ => none }
  | depth + 1 =>
    { host.toVars with
      cmdsub := fun body s =>
        match lexAndParse (host.beyond s) body with
        | .error _ => none
        | .ok none => captureListOutput b host (fun _ => none) s
        | .ok (some list) =>
          captureListOutput b host (executeList b (shellEnv b host depth) host list) s }

end Shell.Exec
