import Shell.CommandLine
import Shell.Exec
import Shell.ExpandQuoting

/-! # Two passes or one

`execute_list` expands all commands of a list before it runs any. The lazy
interpreter has the same loops, and expands a pipeline when it is run. -/
namespace Shell.Exec
open Shell.CTypes Shell.Tokenlist Shell.Parsetypes Shell.Parser Shell.Andor Shell.Lexer
open Shell.Expand Shell.Stringbuilder Shell.Lib.Traverse

variable {β σ : Type} {b : Builder β} {env : Env σ} {host : Host σ}

/-! ## The expansion as one pass over the commands -/

def pipelineShape (pipeline : Pipeline) : Nat × Nat := (pipeline.size, pipeline.commands.length)

def elementShape (element : AndOrElement Pipeline) : AndOrOp × Nat × Nat :=
  (element.op, pipelineShape element.pipeline)

def andorShape (andor : AndOr Pipeline) : Nat × List (AndOrOp × Nat × Nat) :=
  (andor.count, andor.elements.map elementShape)

def listElementShape (element : ListElement) : ListSep × Nat × List (AndOrOp × Nat × Nat) :=
  (element.sep, andorShape element.andOr)

/-- A list without what its commands are. -/
def listShape (list : ShList) : Nat × List (ListSep × Nat × List (AndOrOp × Nat × Nat)) :=
  (list.count, list.elements.map listElementShape)

def andorCommands (andor : AndOr Pipeline) : List Command :=
  andor.elements.flatMap fun element => element.pipeline.commands

/-- The commands of a list in order. -/
def listCommands (list : ShList) : List Command :=
  list.elements.flatMap fun element => andorCommands element.andOr

theorem traverses_pipeline :
    Traverses (expandCommand b env) Pipeline.commands pipelineShape (expandPipeline b env) :=
  (Traverses.parts _).field Pipeline.commands (fun p c => { p with commands := c }) Pipeline.size
    (fun _ _ => rfl) (fun _ _ => rfl) fun _ _ h => by rw [h]

theorem traverses_andor :
    Traverses (expandCommand b env) andorCommands andorShape (expandAndor b env) :=
  (traverses_pipeline.field AndOrElement.pipeline
      (fun e p => { e with pipeline := p }) AndOrElement.op (fun _ _ => rfl) (fun _ _ => rfl)
      fun _ _ h => by rw [h]).list.field AndOr.elements (fun a e => { a with elements := e })
    AndOr.count (fun _ _ => rfl) (fun _ _ => rfl) fun _ _ h => by rw [h]

theorem traverses_list :
    Traverses (expandCommand b env) listCommands listShape (expandList b env) :=
  (traverses_andor.field ListElement.andOr (fun e a => { e with andOr := a }) ListElement.sep
      (fun _ _ => rfl) (fun _ _ => rfl) fun _ _ h => by rw [h]).list.field ShList.elements
    (fun l e => { l with elements := e }) ShList.count (fun _ _ => rfl) (fun _ _ => rfl)
    fun _ _ h => by rw [h]

theorem executeList_eq_some {list : ShList} {s : σ} {r : Int × σ} :
    executeList b env host list s = some r ↔ ∃ list' t, listShape list = listShape list' ∧
      mapState (expandCommand b env) (listCommands list) s = some (listCommands list', t) ∧
      executeListLoop host (executePipeline host) 0 list'.elements t = some r := by
  rw [executeList, Option.bind_eq_some_iff]
  constructor
  · intro hcond
    obtain ⟨⟨list', t⟩, hexpand, hrun⟩ := hcond
    obtain ⟨hshape, hmap⟩ := traverses_list.iff.mp hexpand
    exact ⟨list', t, hshape, hmap, hrun⟩
  · intro hcond
    obtain ⟨list', t, hshape, hmap, hrun⟩ := hcond
    exact ⟨(list', t), traverses_list.iff.mpr ⟨hshape, hmap⟩, hrun⟩

/-! ## The lazy interpreter -/

def expandThenExecute (b : Builder β) (env : Env σ) (host : Host σ) (pipeline : Pipeline) :
    Run σ := fun s =>
  (expandPipeline b env pipeline s).bind fun r => executePipeline host r.1 r.2

/-- `execute_list`, where a pipeline is expanded if and when it is run. -/
def lazyList (b : Builder β) (env : Env σ) (host : Host σ) (list : ShList) : Run σ :=
  executeListLoop host (expandThenExecute b env host) 0 list.elements

/-! ## One chain -/

section Chains
variable {π : Type}

theorem executeAndorLoop_lost (run : π → Run σ) (status : Int)
    (elements : List (AndOrElement π)) :
    (executeAndorLoop (lifted run) status elements none).2 = none := by
  induction elements generalizing status with
  | nil => rfl
  | cons x elements ih =>
    by_cases hop : Admits x.op status
    · rw [executeAndorLoop_admits _ hop]
      exact ih 0
    · rw [executeAndorLoop_stops _ hop]

theorem runAndor_eq (run : π → Run σ) (andor : AndOr π) (s : σ) :
    runAndor run andor s = (executeAndor (lifted run) andor (some s)).2.map
      fun s' => ((executeAndor (lifted run) andor (some s)).1, s') := by
  rw [runAndor]
  generalize executeAndor (lifted run) andor (some s) = r
  obtain ⟨status, _ | s'⟩ := r <;> rfl

/-- The loop of `execute_andor` on runs. -/
def runAndorLoop (run : π → Run σ) : Int → List (AndOrElement π) → Run σ
  | status, [], s => some (status, s)
  | status, iter :: rest, s =>
    if Admits iter.op status then
      (run iter.pipeline s).bind fun r => runAndorLoop run r.1 rest r.2
    else some (status, s)

theorem runAndor_eq_loop (run : π → Run σ) (andor : AndOr π) (s : σ) :
    runAndor run andor s = runAndorLoop run 0 andor.elements s := by
  rw [runAndor_eq, executeAndor]
  generalize (0 : Int) = status
  generalize andor.elements = elements
  induction elements generalizing status s with
  | nil => rfl
  | cons x elements ih =>
    rw [runAndorLoop]
    by_cases hop : Admits x.op status
    · rw [if_pos hop, executeAndorLoop_admits _ hop, lifted]
      cases run x.pipeline s with
      | none =>
        simp only [executeAndorLoop_lost]
        rfl
      | some r => exact ih r.2 r.1
    · rw [if_neg hop, executeAndorLoop_stops _ hop]
      rfl

end Chains

/-! ## Where the lazy interpreter gets to -/

/-- The pipelines of a chain that are run, each with the state in front of it. -/
def andorVisits (run : Pipeline → Run σ) :
    Int → List (AndOrElement Pipeline) → σ → List (Pipeline × σ)
  | _, [], _ => []
  | status, iter :: rest, s =>
    if Admits iter.op status then
      (iter.pipeline, s) :: match run iter.pipeline s with
        | none => []
        | some (status, s) => andorVisits run status rest s
    else []

/-- Those of the chains of a list. The child in the background starts in the state
of its parent. -/
def listVisits (host : Host σ) (run : Pipeline → Run σ) :
    List ListElement → σ → List (Pipeline × σ)
  | [], _ => []
  | iter :: rest, s => andorVisits run 0 iter.andOr.elements s ++
    match runElement host run iter s with
      | none => []
      | some (_, s) => listVisits host run rest s

def lazyVisits (b : Builder β) (env : Env σ) (host : Host σ) (list : ShList) (s : σ) :
    List (Pipeline × σ) :=
  listVisits host (expandThenExecute b env host) list.elements s

/-- What the child in the background does in the state of its parent is all that
matters of it. -/
def Forks (host : Host σ) : Prop :=
  ∀ (run run' : Run σ) (s : σ), run s = run' s →
    host.executeAndorBg run s = host.executeAndorBg run' s

/-! ## When the two agree -/

def mapAndor (e : Pipeline → Pipeline) (andor : AndOr Pipeline) : AndOr Pipeline :=
  ⟨andor.count, andor.elements.map fun x => ⟨e x.pipeline, x.op⟩⟩

def mapElement (e : Pipeline → Pipeline) (element : ListElement) : ListElement :=
  ⟨mapAndor e element.andOr, element.sep⟩

def elementPipelines (elements : List ListElement) : List Pipeline :=
  elements.flatMap fun element => element.andOr.elements.map AndOrElement.pipeline

/-- Each pipeline expands in its state to what `e` says, and leaves the state alone. -/
def Quiet (b : Builder β) (env : Env σ) (e : Pipeline → Pipeline)
    (visits : List (Pipeline × σ)) : Prop :=
  ∀ v ∈ visits, expandPipeline b env v.1 v.2 = some (e v.1, v.2)

instance [DecidableEq σ] (b : Builder β) (env : Env σ) (e : Pipeline → Pipeline)
    (visits : List (Pipeline × σ)) : Decidable (Quiet b env e visits) :=
  List.decidableBAll _ _

/-- These pipelines, all in one state. -/
def visitsAt (s : σ) (pipelines : List Pipeline) : List (Pipeline × σ) :=
  pipelines.map fun p => (p, s)

variable {e : Pipeline → Pipeline}

theorem Quiet.at {pipelines : List Pipeline} {s : σ} (h : Quiet b env e (visitsAt s pipelines)) :
    ∀ p ∈ pipelines, expandPipeline b env p s = some (e p, s) :=
  fun _ hp => h _ (List.mem_map_of_mem hp)

theorem expandElements_quiet {elements : List (AndOrElement Pipeline)} {s : σ}
    (h : ∀ x ∈ elements, expandPipeline b env x.pipeline s = some (e x.pipeline, s)) :
    mapState (expandElement b env) elements s =
      some (elements.map fun x => ⟨e x.pipeline, x.op⟩, s) := by
  have hquiet : ∀ x ∈ elements, expandElement b env x s = some (⟨e x.pipeline, x.op⟩, s) := by
    intro x hx
    rw [expandElement, h x hx]
    rfl
  have hmap := @mapState_quiet _ _ _ _ _ (fun x => x) _ _ s hquiet
  rwa [List.map_id'] at hmap

theorem expandListElements_quiet {elements : List ListElement} {s : σ}
    (h : ∀ p ∈ elementPipelines elements, expandPipeline b env p s = some (e p, s)) :
    mapState (expandListElement b env) elements s = some (elements.map (mapElement e), s) := by
  have hquiet : ∀ x ∈ elements, expandListElement b env x s = some (mapElement e x, s) := by
    intro x hx
    have helements : ∀ y ∈ x.andOr.elements,
        expandPipeline b env y.pipeline s = some (e y.pipeline, s) :=
      fun y hy => h _ (List.mem_flatMap.mpr ⟨x, hx, List.mem_map_of_mem hy⟩)
    rw [expandListElement, expandAndor, expandElements_quiet helements]
    rfl
  have hmap := @mapState_quiet _ _ _ _ _ (fun x => x) _ _ s hquiet
  rwa [List.map_id'] at hmap

/-- A pipeline that expands to what it had been expanded to before. -/
theorem expandThenExecute_quiet {p : Pipeline} {s : σ}
    (h : expandPipeline b env p s = some (e p, s)) :
    executePipeline host (e p) s = expandThenExecute b env host p s := by
  rw [expandThenExecute, h]
  rfl

theorem runAndorLoop_quiet {elements : List (AndOrElement Pipeline)} (status : Int) {s : σ}
    (h : Quiet b env e (andorVisits (expandThenExecute b env host) status elements s)) :
    runAndorLoop (executePipeline host) status (elements.map fun x => ⟨e x.pipeline, x.op⟩) s =
      runAndorLoop (expandThenExecute b env host) status elements s := by
  induction elements generalizing status s with
  | nil => rfl
  | cons x elements ih =>
    rw [List.map_cons, runAndorLoop, runAndorLoop]
    by_cases hop : Admits x.op status
    · rw [andorVisits, if_pos hop] at h
      obtain ⟨hfirst, hrest⟩ := List.forall_mem_cons.mp h
      rw [if_pos hop, if_pos hop, expandThenExecute_quiet hfirst]
      cases hr : expandThenExecute b env host x.pipeline s with
      | none => rfl
      | some r =>
        rw [hr] at hrest
        exact ih r.1 hrest
    · rw [if_neg hop, if_neg hop]

theorem runAndor_quiet {andor : AndOr Pipeline} {s : σ}
    (h : Quiet b env e (andorVisits (expandThenExecute b env host) 0 andor.elements s)) :
    runAndor (executePipeline host) (mapAndor e andor) s =
      runAndor (expandThenExecute b env host) andor s := by
  rw [runAndor_eq_loop, runAndor_eq_loop]
  exact runAndorLoop_quiet 0 h

theorem executeListLoop_quiet (hforks : Forks host) {elements : List ListElement} (status : Int)
    {s : σ} (h : Quiet b env e (listVisits host (expandThenExecute b env host) elements s)) :
    executeListLoop host (executePipeline host) status (elements.map (mapElement e)) s =
      executeListLoop host (expandThenExecute b env host) status elements s := by
  induction elements generalizing status s with
  | nil => rfl
  | cons element elements ih =>
    obtain ⟨hfirst, hrest⟩ := List.forall_mem_append.mp h
    have helement : runElement host (executePipeline host) (mapElement e element) s =
        runElement host (expandThenExecute b env host) element s := by
      unfold runElement mapElement
      cases element.sep with
      | semi => exact runAndor_quiet hfirst
      | none => exact runAndor_quiet hfirst
      | amp => exact hforks _ _ s (runAndor_quiet hfirst)
    rw [List.map_cons, executeListLoop, executeListLoop, helement]
    cases hr : runElement host (expandThenExecute b env host) element s with
    | none => rfl
    | some r =>
      rw [hr] at hrest
      exact ih r.1 hrest

theorem executeList_quiet (hforks : Forks host) {list : ShList} {s : σ}
    (hpass : Quiet b env e (visitsAt s (elementPipelines list.elements)))
    (hruns : Quiet b env e (lazyVisits b env host list s)) :
    executeList b env host list s = lazyList b env host list s := by
  rw [executeList, expandList, expandListElements_quiet hpass.at]
  exact executeListLoop_quiet hforks 0 hruns

/-! ## The first pipeline -/

theorem runElement_foreground (run : Pipeline → Run σ) (andor : AndOr Pipeline) {sep : ListSep}
    (hsep : sep ≠ .amp) : runElement host run ⟨andor, sep⟩ = runAndor run andor := by
  cases sep with
  | semi => rfl
  | none => rfl
  | amp => exact absurd rfl hsep

theorem admits_first {op : AndOrOp} (hop : op ≠ .or) : Admits op 0 := by
  cases op with
  | none => trivial
  | and => rfl
  | or => exact absurd rfl hop

/-- A chain whose first pipeline is run at once, `op` being its mark. -/
theorem runAndor_first (run : Pipeline → Run σ) {p : Pipeline} {op : AndOrOp} (hop : op ≠ .or)
    (m : Nat) (more : List (AndOrElement Pipeline)) (s : σ) :
    runAndor run ⟨m, ⟨p, op⟩ :: more⟩ s =
      (run p s).bind fun r => runAndorLoop run r.1 more r.2 := by
  rw [runAndor_eq_loop, runAndorLoop, if_pos (admits_first hop)]

/-- What is expanded right before the first pipeline is run may do anything. -/
theorem executeList_first (hforks : Forks host) {n m : Nat} {p : Pipeline} {op : AndOrOp}
    {more : List (AndOrElement Pipeline)} {sep : ListSep} {rest : List ListElement} {s : σ}
    (hop : op ≠ .or) (hsep : sep ≠ .amp)
    (hpass : ∀ p' t, expandPipeline b env p s = some (p', t) → Quiet b env e
      (visitsAt t (more.map AndOrElement.pipeline ++ elementPipelines rest)))
    (hruns : Quiet b env e
      (lazyVisits b env host ⟨n, ⟨⟨m, ⟨p, op⟩ :: more⟩, sep⟩ :: rest⟩ s).tail) :
    executeList b env host ⟨n, ⟨⟨m, ⟨p, op⟩ :: more⟩, sep⟩ :: rest⟩ s =
      lazyList b env host ⟨n, ⟨⟨m, ⟨p, op⟩ :: more⟩, sep⟩ :: rest⟩ s := by
  rw [lazyList, executeListLoop, runElement_foreground _ _ hsep, runAndor_first _ hop, executeList,
    expandList]
  cases hexpand : expandPipeline b env p s with
  | none =>
    simp only [mapState, expandListElement, expandAndor, expandElement, hexpand, expandThenExecute]
    rfl
  | some r =>
    obtain ⟨p', t⟩ := r
    have hfirst : expandThenExecute b env host p s = executePipeline host p' t := by
      rw [expandThenExecute, hexpand]
      rfl
    have hquiet := (hpass p' t hexpand).at
    have hmore := @expandElements_quiet _ _ b env e more t fun x hx =>
      hquiet _ (List.mem_append_left _ (List.mem_map_of_mem hx))
    have hrest := @expandListElements_quiet _ _ b env e rest t fun q hq =>
      hquiet q (List.mem_append_right _ hq)
    simp only [mapState, expandListElement, expandAndor, expandElement, hexpand, Option.map_some,
      Option.bind_some, hmore, hrest]
    rw [executeListLoop, runElement_foreground _ _ hsep, runAndor_first _ hop, hfirst]
    simp only [lazyVisits, listVisits, andorVisits, if_pos (admits_first hop),
      runElement_foreground _ _ hsep, runAndor_first _ hop, hfirst, List.cons_append,
      List.tail_cons] at hruns
    obtain ⟨hvisits, hbehind⟩ := List.forall_mem_append.mp hruns
    cases hr : executePipeline host p' t with
    | none => rfl
    | some x =>
      rw [hr] at hvisits
      simp only [hr, Option.bind_some] at hbehind ⊢
      rw [runAndorLoop_quiet x.1 hvisits]
      cases hchain : runAndorLoop (expandThenExecute b env host) x.1 more x.2 with
      | none => rfl
      | some y =>
        rw [hchain] at hbehind
        exact executeListLoop_quiet hforks y.1 hbehind

/-! ## Two passes -/

/-- **A list is expanded before it is run.** One pass over its commands, in order
and whichever of them are run later, expands them and performs their
assignments and substitutions; what runs is the list of the same shape with the
expanded commands. The lazy interpreter has the same effect when the expansions leave
the state alone and are the same wherever it gets to, the first pipeline excepted if
it is run at once. -/
theorem executeList_two_passes (b : Builder β) (env : Env σ) (host : Host σ) (list : ShList)
    (s : σ) :
    (∀ r, executeList b env host list s = some r ↔
      ∃ list' t, listShape list = listShape list' ∧
        mapState (expandCommand b env) (listCommands list) s = some (listCommands list', t) ∧
        executeListLoop host (executePipeline host) 0 list'.elements t = some r) ∧
    (∀ e, Forks host → Quiet b env e (visitsAt s (elementPipelines list.elements)) →
      Quiet b env e (lazyVisits b env host list s) →
      executeList b env host list s = lazyList b env host list s) ∧
    (∀ e n m p op more sep rest, list = ⟨n, ⟨⟨m, ⟨p, op⟩ :: more⟩, sep⟩ :: rest⟩ →
      op ≠ .or → sep ≠ .amp → Forks host →
      (∀ p' t, expandPipeline b env p s = some (p', t) → Quiet b env e
        (visitsAt t (more.map AndOrElement.pipeline ++ elementPipelines rest))) →
      Quiet b env e (lazyVisits b env host list s).tail →
      executeList b env host list s = lazyList b env host list s) := by
  refine ⟨fun r => executeList_eq_some, fun e hforks => executeList_quiet hforks, ?_⟩
  rintro e n m p op more sep rest rfl hop hsep hforks hpass hruns
  exact executeList_first hforks hop hsep hpass hruns

/-- A host whose state is the variables alone, and whose one failing command is `false`. -/
def plainHost : Host (List (Str × Str)) where
  varLookup s name := (s.find? fun v => v.1 = name).map Prod.snd
  varLookupn s name n := (s.find? fun v => v.1 = name.take n).map Prod.snd
  varAssign s name value := (name, value) :: s
  fresh _ := (fun _ => 0, fun _ => 0)
  isBuiltin _ := false
  executeBuiltin _ s := some (0, s)
  executeCommand command s := some (if command.argv = [str "false"] then 1 else 0, s)
  executePipes _ s := some (0, s)
  executeAndorBg _ s := some (0, s)
  captured _ s := some ([], s)
  beyond _ _ := 0

/-- Its one builtin, `declare NAME=VALUE`, changes the variables. -/
def declaringHost : Host (List (Str × Str)) :=
  { plainHost with
    isBuiltin := fun name => name = str "declare"
    executeBuiltin := fun command s =>
      match command.argv.map (scanTo (chr '=')) with
      | [_, (name, some value)] => some (0, (name, value) :: s)
      | _ => some (1, s) }

/-- One command in a pipeline of its own. -/
def alone (command : Command) : AndOr Pipeline :=
  { count := 1, elements := [⟨{ size := 1, commands := [command] }, .none⟩] }

/-- `y=1 a ; declare x=2 ; b $y`, as it is parsed. -/
def declaring : ShList :=
  { count := 3, elements := [⟨alone ⟨[str "a"], [str "y=1"], []⟩, .semi⟩,
      ⟨alone ⟨[str "declare", str "x=2"], [], []⟩, .semi⟩,
      ⟨alone ⟨[str "b", str "$y"], [], []⟩, .none⟩] }

/-- `b $y & declare x=2 && c $y`, as it is parsed. -/
def backgroundFirst : ShList :=
  { count := 2, elements := [⟨alone ⟨[str "b", str "$y"], [], []⟩, .amp⟩,
      ⟨{ count := 2, elements :=
        [⟨{ size := 1, commands := [⟨[str "declare", str "x=2"], [], []⟩] }, .and⟩,
          ⟨{ size := 1, commands := [⟨[str "c", str "$y"], [], []⟩] }, .none⟩] }, .none⟩] }

/-- What a pipeline expands to where `y` is 1. -/
def whereY (p : Pipeline) : Pipeline :=
  ((expandPipeline exact (shellEnv exact declaringHost 1) p [(str "y", str "1")]).map Prod.fst).getD p

/-- A builtin between the assignment of a variable and its use, and a chain in the
background in front of one. -/
theorem executeList_two_passes_declare :
    (lexAndParse (fun _ => 0) (str "y=1 a ; declare x=2 ; b $y") = .ok (some declaring) ∧
      executeList exact (shellEnv exact declaringHost 1) declaringHost declaring [] =
        lazyList exact (shellEnv exact declaringHost 1) declaringHost declaring [] ∧
      lazyList exact (shellEnv exact declaringHost 1) declaringHost declaring [] =
        some (0, [(str "x", str "2"), (str "y", str "1")])) ∧
    lexAndParse (fun _ => 0) (str "b $y & declare x=2 && c $y") = .ok (some backgroundFirst) ∧
    executeList exact (shellEnv exact declaringHost 1) declaringHost backgroundFirst
        [(str "y", str "1")] =
      lazyList exact (shellEnv exact declaringHost 1) declaringHost backgroundFirst
        [(str "y", str "1")] := by
  have hforks : Forks declaringHost := fun _ _ _ _ => rfl
  have hfirst : ∀ p' t, expandPipeline exact (shellEnv exact declaringHost 1)
      { size := 1, commands := [⟨[str "a"], [str "y=1"], []⟩] } [] = some (p', t) →
        t = [(str "y", str "1")] := by
    intro p' t h
    have hexpand : (expandPipeline exact (shellEnv exact declaringHost 1)
        { size := 1, commands := [⟨[str "a"], [str "y=1"], []⟩] } []).map Prod.snd =
          some [(str "y", str "1")] := by
      decide +kernel
    rw [h] at hexpand
    exact Option.some.inj hexpand
  refine ⟨⟨rfl, ?_, by decide +kernel⟩, rfl, ?_⟩
  · refine (executeList_two_passes exact (shellEnv exact declaringHost 1) declaringHost declaring
      []).2.2 whereY 3 1 _ .none [] .semi _ rfl (by decide) (by decide) hforks ?_ (by decide +kernel)
    intro p' t h
    rw [hfirst p' t h]
    decide +kernel
  · exact (executeList_two_passes exact (shellEnv exact declaringHost 1) declaringHost
      backgroundFirst [(str "y", str "1")]).2.1 whereY hforks (by decide +kernel) (by decide +kernel)

/-- `false && y=1 && z=2`, as it is parsed. -/
def guardedAssignments : ShList :=
  { count := 1, elements := [⟨{ count := 3, elements :=
      [⟨{ size := 1, commands := [⟨[str "false"], [], []⟩] }, .and⟩,
        ⟨{ size := 1, commands := [⟨[], [str "y=1"], []⟩] }, .and⟩,
        ⟨{ size := 1, commands := [⟨[], [str "z=2"], []⟩] }, .none⟩] }, .none⟩] }

theorem lexAndParse_guardedAssignments :
    lexAndParse (fun _ => 0) (str "false && y=1 && z=2") = .ok (some guardedAssignments) := by
  let items : List Item := [wordItem (str "false"), .op .and, wordItem (str "y=1"), .op .and,
    wordItem (str "z=2")]
  have hvalid : ∀ item ∈ items, item.Valid := by
    simp only [items, List.mem_cons, List.not_mem_nil, or_false, forall_eq_or_imp, forall_eq]
    exact ⟨wordItem_valid (by decide) (List.all_iff_forall_prop.mp rfl), rfl,
      wordItem_valid (by decide) (List.all_iff_forall_prop.mp rfl), rfl,
      wordItem_valid (by decide) (List.all_iff_forall_prop.mp rfl)⟩
  have hparse := lexAndParse_render (fun _ => 0) (forall_singleSpaced hvalid)
    (spaced_singleSpaced _) (by decide)
    (.plain rfl (.plain rfl (.plain rfl (.plain rfl (.plain rfl .nil)))))
  have hrender : render (singleSpaced items) = str "false && y=1 && z=2" := by decide
  rw [hrender] at hparse
  rw [hparse]
  rfl

theorem expandWord_plainHost {text : Str} (s : List (Str × Str))
    (h : ∀ c ∈ text, c ∉ [chr '~', chr '$', chr '\\', chr '\'', chr '"']) :
    expandWord exact (shellEnv exact plainHost 1) text s = some (text, s) := by
  rw [expandWord_plain h, exact_copy]
  rfl

theorem expandCommand_assignment {text name value : Str} (s : List (Str × Str))
    (h : ∀ c ∈ text, c ∉ [chr '~', chr '$', chr '\\', chr '\'', chr '"'])
    (hsplit : executeAssignment plainHost.toVars text s = some ((name, value) :: s)) :
    expandCommand exact (shellEnv exact plainHost 1) ⟨[], [text], []⟩ s =
      some (⟨[], [text], []⟩, (name, value) :: s) := by
  have hvars : (shellEnv exact plainHost 1).toVars = plainHost.toVars := rfl
  simp only [expandCommand, expandAssignments, expandAssignment, mapState,
    expandWord_plainHost s h, Option.bind_eq_bind, Option.bind_some, hvars, hsplit]
  rfl

theorem expandCommand_argument {text : Str} (s : List (Str × Str))
    (h : ∀ c ∈ text, c ∉ [chr '~', chr '$', chr '\\', chr '\'', chr '"']) :
    expandCommand exact (shellEnv exact plainHost 1) ⟨[text], [], []⟩ s =
      some (⟨[text], [], []⟩, s) := by
  simp only [expandCommand, expandAssignments, expandRedirections, expandArgs, mapState,
    expandWord_plainHost s h, Option.bind_eq_bind, Option.bind_some]
  rfl

/-- The assignments are performed though `false` lets nothing behind it run. -/
theorem executeList_ne_lazyList :
    lexAndParse (fun _ => 0) (str "false && y=1 && z=2") = .ok (some guardedAssignments) ∧
      executeList exact (shellEnv exact plainHost 1) plainHost guardedAssignments [] =
        some (1, [(str "z", str "2"), (str "y", str "1")]) ∧
      lazyList exact (shellEnv exact plainHost 1) plainHost guardedAssignments [] =
        some (1, []) := by
  have hfalse := fun s => @expandCommand_argument (str "false") s (List.all_iff_forall_prop.mp rfl)
  have hy := @expandCommand_assignment (str "y=1") (str "y") (str "1") []
    (List.all_iff_forall_prop.mp rfl) rfl
  have hz := @expandCommand_assignment (str "z=2") (str "z") (str "2") [(str "y", str "1")]
    (List.all_iff_forall_prop.mp rfl) rfl
  have hmap : mapState (expandCommand exact (shellEnv exact plainHost 1))
      (listCommands guardedAssignments) [] =
        some (listCommands guardedAssignments, [(str "z", str "2"), (str "y", str "1")]) :=
    mapState_cons_eq_some.mpr ⟨_, _, _, hfalse [], mapState_cons_eq_some.mpr
      ⟨_, _, _, hy, mapState_cons_eq_some.mpr ⟨_, _, _, hz, rfl, rfl⟩, rfl⟩, rfl⟩
  refine ⟨lexAndParse_guardedAssignments, ?_, ?_⟩
  · exact executeList_eq_some.mpr ⟨guardedAssignments, _, rfl, hmap, rfl⟩
  · have hrun : expandThenExecute exact (shellEnv exact plainHost 1) plainHost
        { size := 1, commands := [⟨[str "false"], [], []⟩] } [] = some (1, []) := by
      simp only [expandThenExecute, expandPipeline, mapState, hfalse]
      rfl
    simp only [lazyList, guardedAssignments, executeListLoop, runElement, runAndor, executeAndor,
      executeAndorLoop, lifted, hrun]
    rfl

end Shell.Exec
