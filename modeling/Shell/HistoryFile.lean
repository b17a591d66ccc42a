import Shell.HistoryAppend
import Shell.ShellHost

/-! # The history file (exit_handler and repl in exec.c)

A shell reads `HISTFILE` when it starts. Every process that leaves through `exit` writes
its history over the file: a shell, a child that comes to the `exit` builtin, and the
child of a builtin in a pipeline, each with the copy of the history from its fork. A file
is its lines, and only the calls of the history library change it. -/
namespace Shell.HistoryFile
open Shell.CTypes Shell.Lib
open Shell.History (Readline builtinHistory abbreviates lastEntries)
open Shell.Builtins (findBuiltin)

/-! ## The files -/

abbrev Files : Type := Str → Option (List Str)

/-- What the history library answers where the files are these: a file can be read if it is
there, and appended to only then; a write may fail. -/
structure Answers (rl : Readline) (files : Files) : Prop where
  read : ∀ file lines, files file = some lines → rl.readHistory file = (0, lines)
  missing : ∀ file, files file = none → (rl.readHistory file).2 = []
  append : ∀ file, rl.appendHistory file = 0 → (files file).isSome = true

/-- What the library's calls make of the history list and of the files, given what they
return for a file. -/
structure Library where
  addHistory : Str → List Str → List Str
  writeHistory : Int → Str → List Str → Files → Files
  appendHistory : Int → Int → Str → List Str → Files → Files

/-- `write_history` -/
def written (library : Library) (rl : Readline) (file : Str) (h : History.State) (files : Files) :
    Files :=
  library.writeHistory (rl.writeHistory file) file h.entries files

/-- `append_history`, with what is not yet in a file. -/
def appended (library : Library) (rl : Readline) (file : Str) (h : History.State)
    (files : Files) : Files :=
  library.appendHistory (rl.appendHistory file) (h.entries.length - h.entriesAppended) file
    h.entries files

/-- The files behind a call of the history builtin. -/
def filesAfter (library : Library) (rl : Readline) (argv : List Str) (h : History.State)
    (files : Files) : Files :=
  match argv with
  | [_, option, file] =>
    if abbreviates option (str "-r") then files
    else if abbreviates option (str "-w") then written library rl file h files
    else if abbreviates option (str "-a") then appended library rl file h files
    else files
  | _ => files

/-- `exit_handler`: its message, and the files. -/
def exitHandler (library : Library) (rl : Readline) (histfile : Option Str) (h : History.State)
    (files : Files) : Str × Files :=
  match histfile with
  | none => ([], files)
  | some file =>
    (if rl.writeHistory file = -1 then str "Failed to write history to file " ++ file ++ str "\n"
      else [], written library rl file h files)

/-- `repl` up to its loop: the message, and the history. -/
def readHistfile (rl : Readline) (histfile : Option Str) : Str × History.State :=
  match histfile with
  | none => ([], History.start)
  | some file =>
    let (status, lines) := rl.readHistory file
    (if status = -1 then str "Failed to read history from file " ++ file ++ str "\n" else [],
      { History.start with entries := lines })

/-! ## The processes -/

/-- What a process runs. -/
inductive Role
  /-- `repl` -/
  | shell
  /-- `execute_list`, in the child of `capture_list_output`. -/
  | substitution
  /-- `execute_andor`, in the child of `execute_andor_bg`. -/
  | background
  /-- A builtin in `execute_pipes`: `exit(exec_builtin(command, builtin))`. -/
  | element
  deriving DecidableEq

/-- Where a process is in what it runs. -/
inductive Place
  | prompt
  /-- Between two calls, with the children that `execute_pipes` has forked by now. -/
  | running (pids : List Nat)
  /-- At the `waitpid` calls for these. -/
  | waiting (pids : List Nat)

def Place.pids : Place → List Nat
  | .prompt => []
  | .running pids | .waiting pids => pids

structure Process where
  role : Role
  place : Place
  history : History.State

/-- `execute_list` is called by the shell and in substitutions. -/
def Process.RunsLists (p : Process) : Prop := p.role = .shell ∨ p.role = .substitution

/-- Builtins are called by all but the commands of a pipeline. -/
def Process.RunsBuiltins (p : Process) : Prop := p.role ≠ .element

/-- The processes that run the shell's own code, and the files. No pid is used twice. -/
structure System where
  processes : Nat → Option Process
  next : Nat
  files : Files

def System.set (s : System) (pid : Nat) (p : Process) : System :=
  { s with processes := Function.update s.processes pid (some p) }

def System.remove (s : System) (pid : Nat) : System :=
  { s with processes := Function.update s.processes pid none }

def System.add (s : System) (p : Process) : System :=
  { s.set s.next p with next := s.next + 1 }

@[simp] theorem processes_set (s : System) (pid : Nat) (p : Process) (q : Nat) :
    (s.set pid p).processes q = if q = pid then some p else s.processes q := by
  simp [System.set, Function.update_apply]

@[simp] theorem processes_remove (s : System) (pid q : Nat) :
    (s.remove pid).processes q = if q = pid then none else s.processes q := by
  simp [System.remove, Function.update_apply]

@[simp] theorem processes_add (s : System) (p : Process) (q : Nat) :
    (s.add p).processes q = if q = s.next then some p else s.processes q := by
  simp [System.add]

theorem processes_of_remove {s : System} {pid q : Nat} {c : Process}
    (hc : (s.remove pid).processes q = some c) : s.processes q = some c ∧ q ≠ pid := by
  rw [processes_remove] at hc
  split at hc
  · cases hc
  · rename_i hq
    exact ⟨hc, hq⟩

/-- A child with a copy of the history. -/
def Process.child (p : Process) (role : Role) : Process :=
  { role := role, place := .running [], history := p.history }

/-- `add_history`, and the line is run. -/
def Process.typed (library : Library) (p : Process) (line : Str) : Process :=
  { p with
    place := .running []
    history := { p.history with entries := library.addHistory line p.history.entries } }

def start (files : Files) : System where
  processes := fun _ => none
  next := 0
  files := files

/-- The events that the order of a run is told by. -/
inductive Action
  | start
  | type (line : Str)
  | background
  /-- A `fork` fails in `execute_pipes` or in `execute_command`. -/
  | refused
  | killed
  /-- With what `write_history` returns. -/
  | exit (status : Int)
  | other

/-- The steps of any processes with this `HISTFILE`. -/
inductive Step (library : Library) (file : Str) (s : System) : Action → System → Prop
  | start {rl : Readline} : Answers rl s.files →
    Step library file s .start (s.add ⟨.shell, .prompt, (readHistfile rl (some file)).2⟩)
  | type {pid : Nat} {p : Process} {line : Str} : s.processes pid = some p →
    p.place = .prompt → line ≠ [] →
      Step library file s (.type line) (s.set pid (p.typed library line))
  | finish {pid : Nat} {p : Process} : s.processes pid = some p → p.role = .shell →
    p.place = .running [] → Step library file s .other (s.set pid { p with place := .prompt })
  | history {pid : Nat} {p : Process} {rl : Readline} {argv : List Str} {r : History.Result} :
    s.processes pid = some p → p.RunsBuiltins → p.place = .running [] → Answers rl s.files →
    builtinHistory rl argv p.history = some r →
      Step library file s .other { s.set pid { p with history := r.state } with
        files := filesAfter library rl argv p.history s.files }
  | substitution {pid : Nat} {p : Process} : s.processes pid = some p → p.RunsLists →
    p.place = .running [] →
      Step library file s .other
        ((s.add (p.child .substitution)).set pid { p with place := .waiting [s.next] })
  | background {pid : Nat} {p : Process} : s.processes pid = some p → p.RunsLists →
    p.place = .running [] → Step library file s .background (s.add (p.child .background))
  | element {pid : Nat} {p : Process} {pids : List Nat} {name : Str} :
    s.processes pid = some p → p.RunsBuiltins → p.place = .running pids →
    (findBuiltin name).isSome = true →
      Step library file s .other
        ((s.add (p.child .element)).set pid { p with place := .running (pids ++ [s.next]) })
  | wait {pid : Nat} {p : Process} {pids : List Nat} : s.processes pid = some p →
    p.place = .running pids →
      Step library file s .other (s.set pid { p with place := .waiting pids })
  | waited {pid : Nat} {p : Process} {pids : List Nat} : s.processes pid = some p →
    p.place = .waiting pids → (∀ q ∈ pids, s.processes q = none) →
      Step library file s .other (s.set pid { p with place := .running [] })
  /-- `execute_pipes` returns -1 and waits for no child. -/
  | refused {pid : Nat} {p : Process} {pids : List Nat} : s.processes pid = some p →
    p.place = .running pids →
      Step library file s .refused (s.set pid { p with place := .running [] })
  /-- `execute_command` leaves through `_exit`. -/
  | abandoned {pid : Nat} {p : Process} : s.processes pid = some p → p.RunsBuiltins →
    p.place = .running [] → Step library file s .refused (s.remove pid)
  | exit {pid : Nat} {p : Process} {rl : Readline} : s.processes pid = some p →
    p.place = .running [] → Answers rl s.files →
      Step library file s (.exit (rl.writeHistory file)) { s.remove pid with
        files := (exitHandler library rl (some file) p.history s.files).2 }
  /-- The `_exit` behind the list of a child. -/
  | ended {pid : Nat} {p : Process} : s.processes pid = some p →
    p.role = .substitution ∨ p.role = .background → p.place = .running [] →
      Step library file s .other (s.remove pid)
  | killed {pid : Nat} : Step library file s .killed (s.remove pid)

/-- What any processes come to from here. -/
def Later (library : Library) (file : Str) (s : System) : System → Prop :=
  Runs.Reach s (Step library file)

def Reachable (library : Library) (file : Str) (s : System) : Prop :=
  ∃ files, Later library file (start files) s

/-! ## What every process knows -/

section Knows
variable {library : Library} {file : Str} {lines : List Str} {s s' : System}

/-- The file is there, and these are its first lines. -/
def Begins (file : Str) (lines : List Str) (files : Files) : Prop :=
  ∃ content, files file = some content ∧ lines <+: content

end Knows

/-! ## Who waits for whom -/

section Ordered
variable {library : Library} {file : Str} {s s' : System}

/-- A process waits for younger ones, which are not shells, and only a shell is at a prompt. -/
structure Ordered (s : System) : Prop where
  fresh : ∀ q, s.next ≤ q → s.processes q = none
  younger : ∀ pid p, s.processes pid = some p → ∀ q ∈ p.place.pids, pid < q ∧ q < s.next
  children : ∀ pid p, s.processes pid = some p → ∀ q ∈ p.place.pids, ∀ c,
    s.processes q = some c → c.role ≠ .shell
  prompt : ∀ pid p, s.processes pid = some p → p.place = .prompt → p.role = .shell

theorem Ordered.lt (h : Ordered s) {pid : Nat} {p : Process} (hp : s.processes pid = some p) :
    pid < s.next := by
  by_contra hle
  rw [h.fresh pid (Nat.le_of_not_lt hle)] at hp
  cases hp

theorem ordered_set {pid : Nat} {p p' : Process} (h : Ordered s) (hp : s.processes pid = some p)
    (hrole : p'.role = p.role)
    (hpids : ∀ q ∈ p'.place.pids,
      (pid < q ∧ q < s.next) ∧ ∀ c, s.processes q = some c → c.role ≠ .shell)
    (hprompt : p'.place = .prompt → p'.role = .shell) : Ordered (s.set pid p') := by
  have hlt := h.lt hp
  constructor
  · intro q hq
    have hne : q ≠ pid := Nat.ne_of_gt (Nat.lt_of_lt_of_le hlt hq)
    rw [processes_set, if_neg hne]
    exact h.fresh q hq
  · intro q c hc r hr
    rw [processes_set] at hc
    split at hc
    · rename_i hq
      rw [hq]
      rw [← Option.some.inj hc] at hr
      exact (hpids r hr).1
    · exact h.younger q c hc r hr
  · intro q c hc r hr c' hc'
    have hchild : ∀ d, s.processes r = some d → d.role ≠ .shell := by
      rw [processes_set] at hc
      split at hc
      · rw [← Option.some.inj hc] at hr
        exact (hpids r hr).2
      · exact h.children q c hc r hr
    rw [processes_set] at hc'
    split at hc'
    · rename_i hrpid
      rw [← Option.some.inj hc', hrole]
      exact hchild p (by rw [hrpid, hp])
    · exact hchild c' hc'
  · intro q c hc hplace
    rw [processes_set] at hc
    split at hc
    · rw [← Option.some.inj hc] at hplace ⊢
      exact hprompt hplace
    · exact h.prompt q c hc hplace

/-- A process goes on, and waits for no other child. -/
theorem ordered_go {pid : Nat} {p p' : Process} (h : Ordered s) (hp : s.processes pid = some p)
    (hrole : p'.role = p.role) (hpids : ∀ q ∈ p'.place.pids, q ∈ p.place.pids)
    (hprompt : p'.place = .prompt → p'.role = .shell) : Ordered (s.set pid p') := by
  refine ordered_set h hp hrole (fun q hq => ?_) hprompt
  have hmem := hpids q hq
  exact ⟨h.younger pid p hp q hmem, h.children pid p hp q hmem⟩

theorem ordered_remove (h : Ordered s) (pid : Nat) : Ordered (s.remove pid) := by
  have hold : ∀ q c, (s.remove pid).processes q = some c → s.processes q = some c :=
    fun q c hc => (processes_of_remove hc).1
  refine ⟨fun q hq => ?_, fun q c hc => h.younger q c (hold q c hc), fun q c hc r hr c' hc' => ?_,
    fun q c hc => h.prompt q c (hold q c hc)⟩
  · rw [processes_remove, h.fresh q hq, ite_self]
  · exact h.children q c (hold q c hc) r hr c' (hold r c' hc')

/-- A new process, which nothing waits for yet. -/
theorem ordered_add {p : Process} (h : Ordered s) (hpids : p.place.pids = [])
    (hprompt : p.place = .prompt → p.role = .shell) : Ordered (s.add p) := by
  have hold : ∀ q c, (s.add p).processes q = some c → s.processes q = some c ∨ c = p := by
    intro q c hc
    rw [processes_add] at hc
    split at hc
    · exact .inr (Option.some.inj hc).symm
    · exact .inl hc
  refine ⟨fun q hq => ?_, fun q c hc r hr => ?_, fun q c hc r hr c' hc' => ?_,
    fun q c hc hplace => ?_⟩
  · have hlt : s.next < q := hq
    rw [processes_add, if_neg (Nat.ne_of_gt hlt)]
    exact h.fresh q (Nat.le_of_lt hlt)
  · obtain hc | rfl := hold q c hc
    · obtain ⟨hyounger, hlt⟩ := h.younger q c hc r hr
      exact ⟨hyounger, Nat.lt_succ_of_lt hlt⟩
    · rw [hpids] at hr
      cases hr
  · obtain hc | rfl := hold q c hc
    · have hne : r ≠ s.next := Nat.ne_of_lt (h.younger q c hc r hr).2
      rw [processes_add, if_neg hne] at hc'
      exact h.children q c hc r hr c' hc'
    · rw [hpids] at hr
      cases hr
  · obtain hc | rfl := hold q c hc
    · exact h.prompt q c hc hplace
    · exact hprompt hplace

/-- A process forks a child that it is going to wait for. -/
theorem ordered_fork {pid : Nat} {p : Process} {role : Role} {place : Place} (h : Ordered s)
    (hp : s.processes pid = some p) (hrole : role ≠ .shell)
    (hpids : ∀ q ∈ place.pids, q ∈ p.place.pids ∨ q = s.next) (hprompt : place ≠ .prompt) :
    Ordered ((s.add (p.child role)).set pid { p with place := place }) := by
  have hlt := h.lt hp
  have hadd : Ordered (s.add (p.child role)) := ordered_add h rfl (by simp [Process.child])
  have hp' : (s.add (p.child role)).processes pid = some p := by
    rw [processes_add, if_neg (Nat.ne_of_lt hlt), hp]
  refine ordered_set hadd hp' rfl (fun q hq => ?_) (absurd · hprompt)
  obtain hq | rfl := hpids q hq
  · exact ⟨hadd.younger pid p hp' q hq, hadd.children pid p hp' q hq⟩
  · refine ⟨⟨hlt, Nat.lt_succ_self _⟩, fun c hc => ?_⟩
    rw [processes_add, if_pos rfl] at hc
    rw [← Option.some.inj hc]
    exact hrole

theorem ordered_step {a : Action} (h : Ordered s) (hs : Step library file s a s') : Ordered s' := by
  cases hs with
  | start _ => exact ordered_add h rfl fun _ => rfl
  | type hp _ _ => exact ordered_go h hp rfl (by simp [Process.typed, Place.pids]) (by simp [Process.typed])
  | finish hp hshell _ => exact ordered_go h hp rfl (by simp [Place.pids]) fun _ => hshell
  | @history pid p rl argv r hp _ hplace _ _ =>
    have hset : Ordered (s.set pid { p with history := r.state }) :=
      ordered_go h hp rfl (fun q hq => hq) (by simp [hplace])
    exact ⟨hset.fresh, hset.younger, hset.children, hset.prompt⟩
  | substitution hp _ _ =>
    exact ordered_fork h hp (by simp) (by simp [Place.pids]) (by simp)
  | background hp _ _ => exact ordered_add h rfl (by simp [Process.child])
  | element hp _ hplace _ =>
    exact ordered_fork h hp (by simp) (by simp [Place.pids, hplace]) (by simp)
  | wait hp hplace => exact ordered_go h hp rfl (by simp [Place.pids, hplace]) (by simp)
  | waited hp _ _ => exact ordered_go h hp rfl (by simp [Place.pids]) (by simp)
  | refused hp _ => exact ordered_go h hp rfl (by simp [Place.pids]) (by simp)
  | abandoned _ _ _ => exact ordered_remove h _
  | @exit pid _ _ _ _ _ =>
    have hremove := ordered_remove h pid
    exact ⟨hremove.fresh, hremove.younger, hremove.children, hremove.prompt⟩
  | ended _ _ _ => exact ordered_remove h _
  | killed => exact ordered_remove h _

theorem Later.ordered (h : Ordered s) (hlater : Later library file s s') : Ordered s' :=
  Runs.Reach.invariant (I := Ordered) h (fun _ _ _ => ordered_step) hlater

end Ordered

/-! ## Every process can come to its exit -/

section Exits
variable {library : Library} {file : Str} {s t u : System}

/-- A write is granted, and an append where the file is there. -/
def granted (files : Files) : Readline where
  readHistory file := (if (files file).isSome then 0 else 2, (files file).getD [])
  writeHistory _ := 0
  appendHistory file := if (files file).isSome then 0 else 2

/-- From `s` the older processes than `b` have done nothing, and none has been started. -/
structure Clears (library : Library) (file : Str) (b : Nat) (s t : System) : Prop where
  later : Later library file s t
  next : t.next = s.next
  older : ∀ r < b, t.processes r = s.processes r
  role : ∀ r c, t.processes r = some c → ∃ d, s.processes r = some d ∧ c.role = d.role

theorem Clears.refl (library : Library) (file : Str) (b : Nat) (s : System) : Clears library file b s s :=
  ⟨.start, rfl, fun _ _ => rfl, fun _ c hc => ⟨c, hc, rfl⟩⟩

theorem Clears.trans {b b' : Nat} (h : Clears library file b s t) (h' : Clears library file b' t u) (hle : b ≤ b') :
    Clears library file b s u where
  later := h.later.trans h'.later
  next := h'.next.trans h.next
  older r hr := (h'.older r (Nat.lt_of_lt_of_le hr hle)).trans (h.older r hr)
  role r c hc := by
    obtain ⟨d, hd, hrole⟩ := h'.role r c hc
    obtain ⟨e, he, hrole'⟩ := h.role r d hd
    exact ⟨e, he, hrole.trans hrole'⟩

variable (file)

def Place.idle : Place → Place
  | .prompt => .prompt
  | .running _ | .waiting _ => .running []

/-- A process at its prompt or in front of its next command, and otherwise the same. -/
def Process.idle (p : Process) : Process :=
  { p with place := p.place.idle }

end Exits

section Sessions
variable {library : Library} {file : Str} {s s' t : System} {l : List Str}

def Action.lines : Action → List Str
  | .type line => [line]
  | _ => []

/-- There is one shell, or none. It knows these lines, and the file has them where there is
none; every other process is waited for. -/
structure Alone (file : Str) (l : List Str) (s : System) : Prop where
  ordered : Ordered s
  parent : ∀ q c, s.processes q = some c → c.role ≠ .shell →
    ∃ r p, s.processes r = some p ∧ q ∈ p.place.pids
  one : ∀ q q' c c', s.processes q = some c → s.processes q' = some c' → c.role = .shell →
    c'.role = .shell → q = q'
  shell : ∀ q c, s.processes q = some c → c.role = .shell → l.Sublist c.history.entries
  file : (∀ q, s.processes q = none) → l.Sublist ((s.files file).getD [])

/-- A shell that waits for nothing is the only process. -/
theorem Alone.only (h : Alone file l s) {pid : Nat} {p : Process} (hp : s.processes pid = some p)
    (hrole : p.role = .shell) (hpids : p.place.pids = []) {q : Nat} {c : Process}
    (hc : s.processes q = some c) : q = pid := by
  have hshell : c.role = .shell := by
    -- otherwise the oldest child has no parent
    induction q using Nat.strong_induction_on generalizing c with
    | h q ih =>
      by_contra hnot
      obtain ⟨r, d, hd, hmem⟩ := h.parent q c hc hnot
      have hshell := ih r (h.ordered.younger r d hd q hmem).1 hd
      obtain rfl := h.one r pid d p hd hp hshell hrole
      rw [hp] at hd
      rw [← Option.some.inj hd, hpids] at hmem
      cases hmem
  exact h.one q pid c p hc hp hshell hrole

/-- While there is a process, it does not matter what is in the files. -/
theorem Alone.files {pid : Nat} {p : Process} (h : Alone file l s)
    (hp : s.processes pid = some p) (files : Files) : Alone file l { s with files := files } where
  ordered := ⟨h.ordered.fresh, h.ordered.younger, h.ordered.children, h.ordered.prompt⟩
  parent := h.parent
  one := h.one
  shell := h.shell
  file hnone := by
    have hgone : s.processes pid = none := hnone pid
    rw [hp] at hgone
    cases hgone

end Sessions

end Shell.HistoryFile
