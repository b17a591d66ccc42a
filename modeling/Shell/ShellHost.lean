import Shell.Builtins
import Shell.SessionInvariant

/-! # The shell with its own builtins

The host whose builtins are those of builtins.c, over any system. A child works on a copy
of the shell's state, of which the system alone sees something; the shell's own part
changes with its builtins, its assignments and the lines that it is given. -/
namespace Shell.Builtins
open Shell.CTypes Shell.Parsetypes Shell.Expand Shell.Exec Shell.Completion Shell.Variables
open Shell.Lib.Refine

variable {β ω : Type}

/-! ## The host -/

/-- What a call of the system leaves of the world, and what is written meanwhile. -/
structure Effect (ω : Type) where
  status : Int
  out : Str
  err : Str
  world : ω

def ShellState.after (s : ShellState ω) (e : Effect ω) : Int × ShellState ω :=
  (e.status, { (s.puts e.out).eputs e.err with world := e.world })

/-- What the shell leaves to the system: its programs, its children and its blocks. -/
structure System (ω : Type) extends World ω where
  fresh : ω → Stringbuilder.Cells × Stringbuilder.Cells
  beyond : ω → Nat → UInt8
  /-- `none` where `fork` fails: then the shell ends. -/
  executeCommand : Command → ω → Option (Effect ω)
  /-- Of builtins there is nothing to see: `exec_builtin` returns at once. -/
  executePipes : Pipeline → ω → Effect ω
  /-- Given what the child comes to. -/
  executeAndorBg : Option (Int × ShellState ω) → ω → Effect ω
  /-- `pipe` and `fork`: the child's side of the world. -/
  fork : ω → Option ω
  /-- The reads from a child that comes to this, and the wait for it. -/
  reads : Option (Int × ShellState ω) → ω → List Str × ω
  checkBackgroundJobs : ω → Str × ω
  /-- What `add_history` makes of the history list. -/
  addHistory : Str → List Str → List Str

/-- `add_history` places the line at the end of the list. -/
def System.AddsLast (system : System ω) : Prop :=
  ∀ line entries, system.addHistory line entries = entries ++ [line]

def System.reading (system : System ω) (r : Option (Int × ShellState ω)) (s : ShellState ω) :
    List Str × ShellState ω :=
  let (reads, world) := system.reads r s.world
  (reads, { s with world := world })

/-- The child of a substitution writes to the pipe. -/
def System.forked (system : System ω) (s : ShellState ω) : Option (ShellState ω) :=
  (system.fork s.world).map fun world => { s with out := [], world := world }

def shellHost (system : System ω) : ReplHost (ShellState ω) where
  varLookup s := varLookup s.tables
  varLookupn s := varLookupn s.tables
  varAssign s name value := { s with tables := varAssign s.tables name value }
  fresh s := system.fresh s.world
  isBuiltin name := (findBuiltin name).isSome
  executeBuiltin := executeBuiltin system.toWorld
  executeCommand command s := (system.executeCommand command s.world).map s.after
  executePipes pipeline s := some (s.after (system.executePipes pipeline s.world))
  executeAndorBg run s := some (s.after (system.executeAndorBg (run s) s.world))
  captured run s := match system.forked s with
    | none => some ([], s)
    | some child => some (system.reading (run child) s)
  beyond s := system.beyond s.world
  checkBackgroundJobs s :=
    let (lines, world) := system.checkBackgroundJobs s.world
    { s.puts lines with world := world }
  addHistory line s :=
    { s with history := { s.history with entries := system.addHistory line s.history.entries } }
  forked := system.forked
  reads r s := some (system.reading r s)
  captured_eq _ s := by cases system.forked s <;> rfl

/-- The shell's own part of its state. -/
structure Own where
  registry : Registry
  tables : Tables
  history : History.State

def ShellState.own (s : ShellState ω) : Own := ⟨s.registry, s.tables, s.history⟩

/-! ## What keeps the shell's own part -/

section Kept
variable {system : System ω} {P : Own → Prop}

theorem keeps_own {α : Type} {f : ShellState ω → Option (α × ShellState ω)}
    (h : ∀ s r, f s = some r → r.2.own = s.own) :
    Simulates Eq (Agree fun s => P s.own) f f := by
  rintro s _ ⟨rfl, hs⟩ r hr
  have howned : P r.2.own := (h s r hr).symm ▸ hs
  exact ⟨r, hr, rfl, rfl, howned⟩

/-- What a child does leaves its parent's state as it is, but for the world. -/
theorem captured_same {run : Run (ShellState ω)} {s : ShellState ω} {r : List Str × ShellState ω}
    (h : (shellHost system).captured run s = some r) : r.2 = { s with world := r.2.world } := by
  simp only [shellHost] at h
  split at h
  · rw [← Option.some.inj h]
  · rw [← Option.some.inj h]
    rfl

theorem keeps_captured (run : Run (ShellState ω)) :
    Simulates Eq (Agree fun s => P s.own) ((shellHost system).captured run)
      ((shellHost system).captured run) :=
  keeps_own fun _ _ hr => by rw [captured_same hr]; rfl

theorem keeps_executeAndorBg (run : Run (ShellState ω)) :
    Simulates Eq (Agree fun s => P s.own) ((shellHost system).executeAndorBg run)
      ((shellHost system).executeAndorBg run) :=
  keeps_own fun _ _ hr => Option.some.inj hr ▸ rfl

theorem keeps_executePipes (pipeline : Pipeline) :
    Simulates Eq (Agree fun s => P s.own) ((shellHost system).executePipes pipeline)
      ((shellHost system).executePipes pipeline) :=
  keeps_own fun _ _ hr => Option.some.inj hr ▸ rfl

theorem keeps_executeCommand (command : Command) :
    Simulates Eq (Agree fun s => P s.own) ((shellHost system).executeCommand command)
      ((shellHost system).executeCommand command) :=
  keeps_own fun _ _ hr => by
    obtain ⟨e, -, rfl⟩ := Option.map_eq_some_iff.mp hr
    rfl

end Kept

/-! ## What the builtins keep -/

/-- The registry is a map of C strings with room for 64 commands, what is declared has a
valid name, and the variables are C strings. -/
structure Sound (own : Own) : Prop where
  registry : BoundedMap own.registry
  strings : ∀ entry ∈ entries own.registry, NulFree entry.command ∧ NulFree entry.scriptPath
  declared : ∀ name value, declareLookup own.tables name = some value →
    validVariableName name = true ∧ NulFree value
  vars : ∀ name value, varLookup own.tables name = some value → NulFree value

theorem boundedMap_of_distinct {r : Registry} (h : (commands r).Nodup) : BoundedMap r :=
  ⟨h, by rw [commands, List.length_map, length_entries], r.bound, fun _ => mem_commands_iff⟩

theorem mem_entries_registerCompletion {r : Registry} {command scriptPath : Str}
    {entry : CompletionRegistration}
    (h : entry ∈ entries (registerCompletion r command scriptPath)) :
    entry ∈ entries r ∨ entry = ⟨command, scriptPath⟩ := by
  cases hfind : findCommand r command with
  | some i =>
    rw [(registerCompletion_of_some hfind).2] at h
    exact List.mem_or_eq_of_mem_set h
  | none =>
    by_cases hroom : r.count < maxCompletions
    · rw [(registerCompletion_of_none hfind hroom).2] at h
      exact (List.mem_append.mp h).imp id List.mem_singleton.mp
    · rw [registerCompletion, hfind] at h
      simp only [dif_pos (Nat.not_lt.mp hroom)] at h
      exact .inl h

theorem entries_unregisterCompletion {r r' : Registry} {command : Str}
    (h : unregisterCompletion r command = some r') : entries r' ⊆ entries r := by
  cases hfind : findCommand r command with
  | none =>
    obtain rfl := Option.some.inj ((unregisterCompletion_of_none hfind).symm.trans h)
    exact fun _ hentry => hentry
  | some i =>
    obtain ⟨r'', hun, -, hentries⟩ := unregisterCompletion_of_some hfind
    obtain rfl := Option.some.inj (hun.symm.trans h)
    rw [hentries]
    exact (List.eraseIdx_sublist ..).subset

theorem Sound.register {own : Own} {command scriptPath : Str} (h : Sound own)
    (hcommand : NulFree command) (hpath : NulFree scriptPath) :
    Sound { own with registry := registerCompletion own.registry command scriptPath } where
  registry := boundedMap_of_distinct
    (distinct_step h.registry.distinct
      (rfl : CallStep own.registry (.register command scriptPath) _))
  strings entry hentry := by
    rcases mem_entries_registerCompletion hentry with hold | rfl
    · exact h.strings entry hold
    · exact ⟨hcommand, hpath⟩
  declared := h.declared
  vars := h.vars

theorem Sound.unregister {own : Own} {command : Str} {registry : Registry} (h : Sound own)
    (hr : unregisterCompletion own.registry command = some registry) :
    Sound { own with registry := registry } where
  registry := boundedMap_of_distinct
    (distinct_step h.registry.distinct
      (show CallStep own.registry (.unregister command) registry from hr))
  strings entry hentry := h.strings entry (entries_unregisterCompletion hr hentry)
  declared := h.declared
  vars := h.vars

theorem Sound.assign {own : Own} {name value : Str} (h : Sound own) (hvalue : NulFree value) :
    Sound { own with tables := varAssign own.tables name value } where
  registry := h.registry
  strings := h.strings
  declared := h.declared
  vars name' value' hget := by
    simp only [varLookup, varAssign, varTableCheck, Option.getD_some, htGet_htPut] at hget
    split at hget
    · exact Option.some.inj hget ▸ hvalue
    · exact h.vars name' value' hget

theorem Sound.declare {own : Own} {argv : List Str} {declared : Declared} (h : Sound own)
    (hargv : ∀ word ∈ argv, NulFree word)
    (hr : Variables.builtinDeclare argv own.tables = some declared) :
    Sound { own with tables := declared.tables } := by
  have hkept : ∀ tables : Tables, tables.vars = own.tables.vars →
      (∀ name value, declareLookup tables name = some value →
        validVariableName name = true ∧ NulFree value) → Sound { own with tables := tables } :=
    fun tables hvars hdeclared => ⟨h.registry, h.strings, hdeclared, fun name value hget =>
      h.vars name value (by rwa [varLookup, ← hvars])⟩
  unfold Variables.builtinDeclare at hr
  split at hr
  · rename_i command declaration
    split at hr
    · cases hr
    · rename_i name value hscan
      have hvalue : NulFree value := by
        have hnul := (@nulFree_scanTo (chr '=') _ (hargv declaration (by simp))).2
        exact hnul value (by rw [hscan])
      split at hr
      · rename_i hvalid
        obtain rfl := Option.some.inj hr
        refine hkept _ rfl fun name' value' hget => ?_
        simp only [declareLookup, varTableCheck, Option.getD_some, htGet_htPut] at hget
        split at hget
        · rename_i heq
          exact Option.some.inj hget ▸ heq ▸ ⟨hvalid, hvalue⟩
        · exact h.declared name' value' hget
      · obtain rfl := Option.some.inj hr
        exact h
  · split at hr
    · simp only at hr
      split at hr
      · obtain rfl := Option.some.inj hr
        exact hkept _ rfl h.declared
      · obtain rfl := Option.some.inj hr
        exact hkept _ rfl h.declared
    · obtain rfl := Option.some.inj hr
      exact h
  · obtain rfl := Option.some.inj hr
    exact h

/-- Of the builtins three change the shell's own part, each a part of its own. -/
theorem call_own {w : World ω} {argv : List Str} {s : ShellState ω} {r : Int × ShellState ω}
    {f : Function} (h : f.call w argv s = some r) :
    r.2.own =
      { registry := if f = .complete then r.2.registry else s.registry
        tables := if f = .declare then r.2.tables else s.tables
        history := if f = .history then r.2.history else s.history } := by
  cases f with
  | cd =>
    simp only [Function.call, builtinCd] at h
    split at h
    · split at h <;> exact Option.some.inj h ▸ rfl
    · exact Option.some.inj h ▸ rfl
  | complete =>
    simp only [Function.call, builtinComplete] at h
    split at h
    · split at h
      · split at h
        · exact Option.some.inj h ▸ rfl
        · split at h <;> exact Option.some.inj h ▸ rfl
      · split at h
        · split at h <;> exact Option.some.inj h ▸ rfl
        · split at h
          · split at h
            · exact Option.some.inj h ▸ rfl
            · obtain ⟨registry, -, rfl⟩ := Option.map_eq_some_iff.mp h
              rfl
          · exact Option.some.inj h ▸ rfl
    · exact Option.some.inj h ▸ rfl
  | declare =>
    obtain ⟨declared, -, rfl⟩ := Option.map_eq_some_iff.mp h
    rfl
  | echo => exact Option.some.inj h ▸ rfl
  | exit => cases h
  | history =>
    obtain ⟨result, -, rfl⟩ := Option.map_eq_some_iff.mp h
    rfl
  | jobs =>
    simp only [Function.call, builtinJobs] at h
    split at h <;> exact Option.some.inj h ▸ rfl
  | pwd =>
    simp only [Function.call, builtinPwd] at h
    split at h <;> exact Option.some.inj h ▸ rfl
  | type =>
    simp only [Function.call, builtinType] at h
    split at h
    · split at h <;> exact Option.some.inj h ▸ rfl
    · exact Option.some.inj h ▸ rfl

/-- The registry behind `complete`. -/
theorem registry_builtinComplete {argv : List Str} {s : ShellState ω} {r : Int × ShellState ω}
    (h : builtinComplete argv s = some r) :
    r.2.registry = s.registry ∨
      (∃ command ∈ argv, ∃ scriptPath ∈ argv,
        r.2.registry = registerCompletion s.registry command scriptPath) ∨
      ∃ command, unregisterCompletion s.registry command = some r.2.registry := by
  unfold builtinComplete at h
  split at h
  · split at h
    · split at h
      · exact .inl (Option.some.inj h ▸ rfl)
      · split at h <;> exact .inl (Option.some.inj h ▸ rfl)
    · split at h
      · split at h
        · rename_i scriptPath command _
          obtain rfl := Option.some.inj h
          exact .inr (.inl ⟨command, by simp, scriptPath, by simp, rfl⟩)
        · exact .inl (Option.some.inj h ▸ rfl)
      · split at h
        · split at h
          · exact .inl (Option.some.inj h ▸ rfl)
          · obtain ⟨registry, hregistry, rfl⟩ := Option.map_eq_some_iff.mp h
            exact .inr (.inr ⟨_, hregistry⟩)
        · exact .inl (Option.some.inj h ▸ rfl)
  · exact .inl (Option.some.inj h ▸ rfl)

theorem Sound.call {w : World ω} {argv : List Str} {s : ShellState ω} {r : Int × ShellState ω}
    {f : Function} (hs : Sound s.own) (hargv : ∀ word ∈ argv, NulFree word)
    (h : f.call w argv s = some r) : Sound r.2.own := by
  rw [call_own h]
  by_cases hcomplete : f = .complete
  · subst hcomplete
    rcases registry_builtinComplete h with hr | ⟨command, hcommand, scriptPath, hpath, hr⟩ | ⟨command, hr⟩
    · simpa [hr, ShellState.own] using hs
    · simpa [hr, ShellState.own] using hs.register (hargv command hcommand) (hargv scriptPath hpath)
    · exact hs.unregister hr
  · by_cases hdeclare : f = .declare
    · subst hdeclare
      obtain ⟨declared, hdeclared, rfl⟩ := Option.map_eq_some_iff.mp h
      exact hs.declare hargv hdeclared
    · rw [if_neg hcomplete, if_neg hdeclare]
      exact ⟨hs.registry, hs.strings, hs.declared, hs.vars⟩

/-! ## Sessions -/

section Sessions
variable {system : System ω} {P : Own → Prop} {b : Builder β} {Rep : β → Str → Prop}
  {s t : ShellState ω}

theorem sameVars_shellHost {I : ShellState ω → Prop} (hsound : ∀ {s}, I s → Sound s.own)
    (hassign : ∀ {s name value}, I s → NulFree value →
      I { s with tables := varAssign s.tables name value }) :
    SameVars (shellHost system).toVars (shellHost system).toVars (Agree I) where
  varLookup := by
    rintro s _ ⟨rfl, -⟩ name
    rfl
  varLookupn := by
    rintro s _ ⟨rfl, -⟩ name count
    rfl
  value := by
    rintro s _ ⟨rfl, hs⟩ name val hval
    exact (hsound hs).vars name val hval
  valuen := by
    rintro s _ ⟨rfl, hs⟩ name count val hval
    exact (hsound hs).vars _ val hval
  varAssign := by
    rintro s _ ⟨rfl, hs⟩ name val - hval
    exact ⟨rfl, hassign hs hval⟩
  fresh := by
    rintro s _ ⟨rfl, -⟩
    rfl

/-- What the calls, the assignments and the lines keep, the shell keeps. -/
theorem keptHost_shellHost (hsound : ∀ {own}, P own → Sound own)
    (hassign : ∀ {own name value}, P own → NulFree value →
      P { own with tables := varAssign own.tables name value })
    (hcall : ∀ {s : ShellState ω} {argv r} {f : Function}, P s.own →
      (∀ word ∈ argv, NulFree word) → f.call system.toWorld argv s = some r → P r.2.own)
    (hline : ∀ {own line}, P own → P { own with
      history := { own.history with entries := system.addHistory line own.history.entries } }) :
    KeptHost (shellHost system) fun s => P s.own where
  toSameVars := sameVars_shellHost hsound hassign
  isBuiltin _ := rfl
  executeBuiltin := by
    rintro command hcommand s _ ⟨rfl, hs⟩ r hr
    refine ⟨r, hr, rfl, rfl, ?_⟩
    simp only [shellHost, executeBuiltin] at hr
    split at hr
    · cases hr
    · split at hr
      · exact hcall hs hcommand.argv hr
      · exact Option.some.inj hr ▸ hs
  executeCommand _ := keeps_executeCommand _
  executePipes _ := keeps_executePipes _
  beyond := by
    rintro s _ ⟨rfl, -⟩
    rfl
  executeAndorBg := keeps_executeAndorBg
  captured := keeps_captured
  checkBackgroundJobs hs := hs
  addHistory _ hs := hline hs

/-- **What a session leaves the shell with is sound**, whatever the lines are, what the
system does and how the text builder works: the registry is a bounded map of C strings,
only valid names are declared, and every variable is a C string. -/
theorem sound_of_repl (hb : Texts b Rep) (depth : Nat) (lines : List (Option Str))
    (hs : Sound s.own) (h : repl b (shellHost system) depth lines s = some t) : Sound t.own :=
  kept_repl (I := fun s => Sound s.own) (keptHost_shellHost id (fun hs hvalue => hs.assign hvalue) Sound.call
    fun hs => ⟨hs.registry, hs.strings, hs.declared, hs.vars⟩) hb depth lines hs h

/-! ## What a line cannot do -/

/-- All but the variables of vars.c. -/
structure SameOwn (own own' : Own) : Prop where
  registry : own'.registry = own.registry
  declared : own'.tables.expand = own.tables.expand
  history : own'.history = own.history

/-- The expansion of a list, with all that its substitutions run. -/
theorem expandList_sameOwn (hb : Texts b Rep) (depth : Nat) {list list' : ShList}
    (hlist : ListStrings list) (hs : Sound s.own)
    (h : expandList b (shellEnv b (shellHost system).toHost depth) list s = some (list', t)) :
    SameOwn s.own t.own ∧ t.out = s.out ∧ t.err = s.err := by
  have hvars : SameVars (shellHost system).toVars (shellHost system).toVars
      (Agree fun u => Sound u.own ∧ SameOwn s.own u.own ∧ u.out = s.out ∧ u.err = s.err) :=
    sameVars_shellHost And.left fun hu hvalue =>
      ⟨hu.1.assign hvalue, ⟨hu.2.1.registry, hu.2.1.declared, hu.2.1.history⟩, hu.2.2⟩
  have hcaptured : ∀ run, Simulates Eq
      (Agree fun u => Sound u.own ∧ SameOwn s.own u.own ∧ u.out = s.out ∧ u.err = s.err)
      ((shellHost system).captured run) ((shellHost system).captured run) := by
    rintro run u _ ⟨rfl, hu⟩ r hr
    refine ⟨r, hr, rfl, rfl, ?_⟩
    rw [captured_same hr]
    exact hu
  obtain ⟨_, -, -, -, -, hsame⟩ := simulates_expandList hb (kept_shellEnv hb hvars hcaptured depth)
    hlist s s ⟨rfl, hs, ⟨rfl, rfl, rfl⟩, rfl, rfl⟩ _ h
  exact hsame

/-- No pipeline of one command is run in the foreground. -/
def Aside (list : ShList) : Prop :=
  ∀ element ∈ list.elements, element.sep = .amp ∨
    ∀ e ∈ element.andOr.elements, e.pipeline.size ≠ 1

theorem aside_of_shape {list list' : ShList} (h : listShape list = listShape list')
    (hlist : Aside list) : Aside list' := by
  have hshape : ∀ list : ShList, Aside list ↔ ∀ x ∈ (listShape list).2, x.1 = ListSep.amp ∨
      ∀ y ∈ x.2.2, y.2.1 ≠ 1 := by
    intro list
    simp only [Aside, listShape, List.forall_mem_map, listElementShape, andorShape, elementShape,
      pipelineShape]
  rw [hshape, ← h]
  exact (hshape list).mp hlist

theorem executeListLoop_aside {list : ShList} (haside : Aside list) {status : Int}
    {r : Int × ShellState ω}
    (h : executeListLoop (shellHost system).toHost (executePipeline (shellHost system).toHost)
      status list.elements s = some r) : r.2.own = s.own := by
  have helement : ∀ element ∈ list.elements,
      Simulates Eq (Agree fun u => u.own = s.own)
        (runElement (shellHost system).toHost (executePipeline (shellHost system).toHost) element)
        (runElement (shellHost system).toHost (executePipeline (shellHost system).toHost) element) := by
    intro element helement
    have hbackground := @keeps_executeAndorBg _ system (fun own => own = s.own)
      (runAndor (executePipeline (shellHost system).toHost) element.andOr)
    have hforeground : (∀ e ∈ element.andOr.elements, e.pipeline.size ≠ 1) →
        Simulates Eq (Agree fun u => u.own = s.own)
          (runAndor (executePipeline (shellHost system).toHost) element.andOr)
          (runAndor (executePipeline (shellHost system).toHost) element.andOr) :=
      fun hsizes => simulates_runAndor fun e he => by
        rw [show executePipeline (shellHost system).toHost e.pipeline =
          (shellHost system).executePipes e.pipeline from funext fun u => if_neg (hsizes e he)]
        exact @keeps_executePipes _ system (fun own => own = s.own) e.pipeline
    have haside := haside element helement
    unfold runElement
    revert haside
    cases element.sep with
    | semi => exact fun haside => hforeground (haside.resolve_left nofun)
    | none => exact fun haside => hforeground (haside.resolve_left nofun)
    | amp => exact fun _ => hbackground
  obtain ⟨_, -, -, -, hown⟩ := simulates_executeListLoop helement status s s ⟨rfl, rfl⟩ r h
  exact hown

/-- **Children cannot change the shell**: where all commands are run in the background or in
pipelines of several, the registry, what is declared and the history stay as they are,
whatever the commands and the substitutions in them do. -/
theorem executeList_aside (hb : Texts b Rep) (depth : Nat) {list : ShList}
    (hlist : ListStrings list) (haside : Aside list) (hs : Sound s.own) {r : Int × ShellState ω}
    (h : executeList b (shellEnv b (shellHost system).toHost depth) (shellHost system).toHost list s =
      some r) : SameOwn s.own r.2.own := by
  obtain ⟨⟨list', t⟩, hexpand, hrun⟩ := Option.bind_eq_some_iff.mp h
  obtain ⟨hsame, -⟩ := expandList_sameOwn hb depth hlist hs hexpand
  rw [executeListLoop_aside (aside_of_shape (traverses_list.iff.mp hexpand).1 haside) hrun]
  exact hsame

/-! ## The history of a session -/

theorem display_state {h : History.State} {n length : Int} {entries : List Str}
    {result : History.Result} (hr : History.display h n length entries = some result) :
    result.state = h := by
  obtain ⟨out, -, rfl⟩ := Option.map_eq_some_iff.mp hr
  rfl

/-- `history` only adds lines. -/
theorem prefix_builtinHistory {rl : History.Readline} {argv : List Str} {h : History.State}
    {result : History.Result} (hr : History.builtinHistory rl argv h = some result) :
    h.entries <+: result.state.entries := by
  have hfailed : ∀ {h' : History.State} {err : Str}, h.entries <+: h'.entries →
      History.failed h' err = some result → h.entries <+: result.state.entries := by
    intro h' err hstart hr
    rwa [← Option.some.inj hr]
  have hdisplay : ∀ {h' : History.State} {n : Int} {length : Int} {entries : List Str},
      h.entries <+: h'.entries → History.display h' n length entries = some result →
      h.entries <+: result.state.entries := by
    intro h' n length entries hstart hr
    rwa [display_state hr]
  have hsame := List.prefix_refl h.entries
  unfold History.builtinHistory at hr
  simp only at hr
  split at hr
  · split at hr
    · split at hr
      · exact hfailed hsame hr
      · split at hr
        · exact hdisplay hsame hr
        · exact hfailed hsame hr
    · exact hdisplay hsame hr
  · split at hr
    · split at hr
      · exact hfailed (List.prefix_append ..) hr
      · exact hdisplay (List.prefix_append ..) hr
    · split at hr
      · split at hr
        · exact hfailed hsame hr
        · exact hdisplay hsame hr
      · split at hr
        · split at hr
          · exact hfailed (by split <;> exact hsame) hr
          · exact hdisplay (by split <;> exact hsame) hr
        · exact hdisplay hsame hr
  · exact hdisplay hsame hr
  · exact hdisplay hsame hr
  · exact hdisplay hsame hr

/-- The lines that are not empty. -/
def typed (lines : List (Option Str)) : List Str := lines.filterMap fun
  | none | some [] => none
  | some (c :: l) => some (c :: l)

/-- A sound shell whose history starts with these lines. -/
def Remembers (l : List Str) (own : Own) : Prop := Sound own ∧ l <+: own.history.entries

theorem keptHost_remembers (hadd : system.AddsLast) (l : List Str) :
    KeptHost (shellHost system) fun s => Remembers l s.own :=
  keptHost_shellHost And.left (fun hs hvalue => ⟨hs.1.assign hvalue, hs.2⟩)
    (fun {s argv r f} hs hargv hcall => by
      refine ⟨hs.1.call hargv hcall, hs.2.trans ?_⟩
      rw [call_own hcall]
      by_cases hf : f = .history
      · subst hf
        obtain ⟨result, hresult, rfl⟩ := Option.map_eq_some_iff.mp hcall
        exact prefix_builtinHistory hresult
      · rw [if_neg hf]
        exact List.prefix_refl _)
    (fun {own line} hs => by
      refine ⟨⟨hs.1.registry, hs.1.strings, hs.1.declared, hs.1.vars⟩, hs.2.trans ?_⟩
      rw [hadd]
      exact List.prefix_append ..)

/-- A round has its line behind what the history was. -/
theorem remembers_replRound (hadd : system.AddsLast) (hb : Texts b Rep) (depth : Nat)
    {line : Option Str} (hs : Sound s.own)
    (h : replRound (executeListPtr b (shellEnv b (shellHost system).toHost depth)
      (shellHost system).toHost) (shellHost system) line s = some t) :
    Remembers (s.history.entries ++ typed [line]) t.own := by
  have hold : Remembers s.history.entries s.own := ⟨hs, List.prefix_refl _⟩
  have hkept := kept_replRound (keptHost_remembers hadd _) hb depth line hold h
  cases line with
  | none => simpa [typed] using hkept
  | some text =>
    cases text with
    | nil => simpa [typed] using hkept
    | cons c l =>
      refine kept_line (I := fun u => Remembers (s.history.entries ++ [c :: l]) u.own)
        (keptHost_remembers hadd _) hb depth (List.cons_ne_nil c l) ?_ h
      refine ⟨⟨hs.registry, hs.strings, hs.declared, hs.vars⟩, ?_⟩
      rw [← hadd]
      exact List.prefix_refl _

/-- **No line is lost from the history**: behind what it was, the lines that were typed
stand in it in their order, whatever they and the files of `history -r` have added. -/
theorem typed_of_repl (hadd : system.AddsLast) (hb : Texts b Rep) (depth : Nat)
    (lines : List (Option Str)) (hs : Sound s.own) (h : repl b (shellHost system) depth lines s = some t) :
    (s.history.entries ++ typed lines).Sublist t.history.entries := by
  induction lines generalizing s with
  | nil =>
    obtain rfl := Option.some.inj h
    simp [typed]
  | cons line lines ih =>
    obtain ⟨u, hround, hrest⟩ := Option.bind_eq_some_iff.mp h
    obtain ⟨hu, hstart⟩ := remembers_replRound hadd hb depth hs hround
    have hsplit : typed (line :: lines) = typed [line] ++ typed lines := by
      rw [typed, ← List.singleton_append, List.filterMap_append]
      rfl
    rw [hsplit, ← List.append_assoc]
    exact (hstart.sublist.append_right _).trans (ih hu hrest)

end Sessions

/-! ## A shell on its own -/

/-- A system without programs and files, where a pipe holds all that is written to it. -/
def bareSystem : System Unit where
  chdir _ _ := (-1, ())
  getcwd _ := none
  printJobs _ := ([], ())
  readline _ := { readHistory := fun _ => (-1, []), writeHistory := fun _ => -1,
                  appendHistory := fun _ => -1 }
  filed _ _ _ := ()
  fresh _ := (fun _ => 0, fun _ => 0)
  beyond _ _ := 0
  executeCommand _ _ := some ⟨127, [], [], ()⟩
  executePipes _ _ := ⟨0, [], [], ()⟩
  executeAndorBg _ _ := ⟨0, [], [], ()⟩
  fork _ := some ()
  reads r _ := (match r with
    | some (_, child) => if child.out = [] then [] else [child.out]
    | none => [], ())
  checkBackgroundJobs _ := ([], ())
  addHistory line entries := entries ++ [line]

def startShell : ShellState Unit where
  registry := emptyRegistry (.replicate _ ⟨[], []⟩)
  tables := startTables htNew
  history := ⟨[], 0, []⟩
  out := []
  err := []
  world := ()

theorem sound_startShell : Sound startShell.own where
  registry := boundedMap_of_distinct List.nodup_nil
  strings := List.forall_mem_nil _
  declared := nofun
  vars := nofun

/-- `complete -C x git` -/
theorem sound_of_repl_complete :
    ∃ t, repl exact (shellHost bareSystem) 1 [some (str "complete -C x git")] startShell = some t ∧
      commands t.registry = [str "git"] ∧ Sound t.own :=
  ⟨_, rfl, rfl, @sound_of_repl _ _ bareSystem exact _ startShell _ texts_exact 1
    [some (str "complete -C x git")] sound_startShell rfl⟩

/-- `complete -C x git | exit`, as it is parsed. -/
def pipedBuiltins : ShList :=
  { count := 1
    elements := [⟨{ count := 1, elements := [⟨{ size := 2, commands :=
      [{ argv := [str "complete", str "-C", str "x", str "git"], assignmentList := [], redirs := [] },
        { argv := [str "exit"], assignmentList := [], redirs := [] }] }, .none⟩] }, .none⟩] }

theorem executeList_aside_piped :
    ∃ r, executeList exact (shellEnv exact (shellHost bareSystem).toHost 1)
        (shellHost bareSystem).toHost pipedBuiltins startShell = some r ∧
      SameOwn startShell.own r.2.own := by
  have hstrings : ListStrings pipedBuiltins := by
    rw [listStrings_iff]
    refine List.forall_mem_cons.mpr ⟨⟨by decide, List.forall_mem_nil _, List.forall_mem_nil _⟩,
      List.forall_mem_singleton.mpr ⟨by decide, List.forall_mem_nil _, List.forall_mem_nil _⟩⟩
  have haside : Aside pipedBuiltins := List.forall_mem_singleton.mpr
    (.inr (List.forall_mem_singleton.mpr (by decide)))
  exact ⟨_, rfl, @executeList_aside _ _ bareSystem exact _ startShell texts_exact 1 _ hstrings haside
    sound_startShell _ rfl⟩

theorem typed_of_repl_two :
    ∃ t, repl exact (shellHost bareSystem) 1 [some (str "pwd"), none, some (str "jobs")] startShell =
        some t ∧
      (startShell.history.entries ++ typed [some (str "pwd"), none, some (str "jobs")]).Sublist
        t.history.entries :=
  ⟨_, rfl, @typed_of_repl _ _ bareSystem exact _ startShell _ (fun _ _ => rfl) texts_exact 1 _ sound_startShell rfl⟩

end Shell.Builtins
