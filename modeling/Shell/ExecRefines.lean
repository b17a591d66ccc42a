import Shell.ParserStrings
import Shell.Repl
import Shell.Variables

/-! # Sessions over any builder and any host

A relation between the states of two hosts that each of their operations keeps is
kept by whole sessions: by the expansion of a list, by its run, by a command
substitution at any depth and by the loop at the prompt. -/
namespace Shell.Exec
open Shell.CTypes Shell.Parsetypes Shell.Parser Shell.Andor Shell.Expand
open Shell.Stringbuilder Shell.Lib Shell.Lib.Traverse Shell.Lib.Refine

variable {β σ σ' π : Type}

/-! ## The expansion pass -/

theorem nulFree_cstr {block : Block} {text : Str} (h : block.cstr = some text) : NulFree text := by
  intro c hc
  obtain ⟨i, hi, rfl⟩ := List.getElem_of_mem hc
  obtain ⟨-, -, hchars⟩ := Variables.cstr_eq_some_iff.mp h
  rw [← (hchars i hi).1]
  exact (hchars i hi).2

section Expansion
variable {b : Builder β} {Rep : β → Str → Prop} {env : Env σ} {env' : Env σ'}
  {R : σ → σ' → Prop} {s : σ} {s' : σ'}

theorem refines_executeAssignment {vars : Vars σ} {vars' : Vars σ'} (hvars : SameVars vars vars' R)
    (hs : R s s') (item : Str) :
    Refines R (executeAssignment vars item s) (executeAssignment vars' item s') := by
  have hcstr : ∀ block : Block, Refines (Agree NulFree) block.cstr block.cstr :=
    fun block text h => ⟨text, h, rfl, nulFree_cstr h⟩
  rw [executeAssignment, executeAssignment, ← hvars.fresh hs]
  refine (hcstr _).bind fun name name' hname => (hcstr _).bind fun val val' hval => ?_
  obtain ⟨rfl, hname⟩ := hname
  obtain ⟨rfl, hval⟩ := hval
  exact refines_some (hvars.varAssign hs hname hval)

theorem simulates_assignOne (hb : Texts b Rep) (henv : SameEnv env env' R) {item : Str}
    (hitem : NulFree item) :
    Simulates (Agree NulFree) R (assignOne b env item) (assignOne exact env' item) := by
  intro s s' hs
  refine (simulates_expandWord hb henv hitem s s' hs).bind fun r r' hr => ?_
  obtain ⟨⟨hsame, hnul⟩, ht⟩ := hr
  simp only
  rw [← hsame]
  exact (refines_executeAssignment henv.toSameVars ht r.1).bind fun t t' ht' =>
    refines_some ⟨⟨rfl, hnul⟩, ht'⟩

theorem simulates_expandRedirection (hb : Texts b Rep) (henv : SameEnv env env' R)
    {redirect : Redirect} (hredirect : NulFree redirect.target) :
    Simulates (Agree fun redirect => NulFree redirect.target) R (expandRedirection b env redirect)
      (expandRedirection exact env' redirect) := by
  intro s s' hs
  refine (simulates_expandWord hb henv hredirect s s' hs).map fun r r' hr => ?_
  obtain ⟨⟨hsame, hnul⟩, ht⟩ := hr
  exact ⟨⟨by rw [hsame], hnul⟩, ht⟩

/-- Over the list, what holds of one element at a time. -/
theorem simulates_mapAgree {α : Type} {p : α → Prop} {f : α → σ → Option (α × σ)}
    {f' : α → σ' → Option (α × σ')} {l : List α}
    (h : ∀ a ∈ l, Simulates (Agree p) R (f a) (f' a)) :
    Simulates (Agree fun l => ∀ a ∈ l, p a) R (mapState f l) (mapState f' l) :=
  fun s s' hs => (simulates_mapState h s s' hs).mono fun _ _ hr => ⟨agree_of_forall₂ hr.1, hr.2⟩

theorem simulates_expandCommand (hb : Texts b Rep) (henv : SameEnv env env' R) {command : Command}
    (hcommand : CStrings command) :
    Simulates (Agree CStrings) R (expandCommand b env command)
      (expandCommand exact env' command) := by
  intro s s' hs
  refine (simulates_mapAgree (fun item hitem => simulates_assignOne hb henv
    (hcommand.assignmentList item hitem)) s s' hs).bind fun r r' hr => ?_
  refine (simulates_mapAgree (fun redirect hredirect => simulates_expandRedirection hb henv
    (hcommand.redirs redirect hredirect)) _ _ hr.2).bind fun t t' ht => ?_
  refine (simulates_mapAgree (fun word hword => simulates_expandWord hb henv
    (hcommand.argv word hword)) _ _ ht.2).bind fun u u' hu => ?_
  obtain ⟨hitems, hitemStrings⟩ := hr.1
  obtain ⟨hredirs, hredirStrings⟩ := ht.1
  obtain ⟨hargv, hargvStrings⟩ := hu.1
  exact refines_some ⟨⟨by rw [hitems, hredirs, hargv],
    ⟨hargvStrings, hitemStrings, hredirStrings⟩⟩, hu.2⟩

/-- The expansion of a list is one pass over its commands. -/
theorem simulates_expandList (hb : Texts b Rep) (henv : SameEnv env env' R) {list : ShList}
    (hlist : ListStrings list) :
    Simulates (Agree ListStrings) R (expandList b env list) (expandList exact env' list) := by
  rintro s s' hs ⟨list', t⟩ hr
  obtain ⟨hshape, hmap⟩ := traverses_list.iff.mp hr
  obtain ⟨⟨commands, t'⟩, hmap', hagree, ht⟩ :=
    simulates_mapAgree (fun command hcommand => simulates_expandCommand hb henv
      ((listStrings_iff list).mp hlist command hcommand)) s s' hs _ hmap
  obtain ⟨rfl, hstrings⟩ := hagree
  exact ⟨(list', t'), traverses_list.iff.mpr ⟨hshape, hmap'⟩,
    ⟨rfl, (listStrings_iff list').mpr hstrings⟩, ht⟩

end Expansion

/-! ## Hosts that do alike -/

/-- What runs a pipeline keeps the relation. -/
structure SameCommands (host : Host σ) (host' : Host σ') (R : σ → σ' → Prop) : Prop
    extends SameVars host.toVars host'.toVars R where
  isBuiltin : ∀ name, host.isBuiltin name = host'.isBuiltin name
  executeBuiltin : ∀ {command}, CStrings command →
    Simulates Eq R (host.executeBuiltin command) (host'.executeBuiltin command)
  executeCommand : ∀ {command}, CStrings command →
    Simulates Eq R (host.executeCommand command) (host'.executeCommand command)
  executePipes : ∀ {pipeline}, PipelineStrings pipeline →
    Simulates Eq R (host.executePipes pipeline) (host'.executePipes pipeline)
  beyond : ∀ {s s'}, R s s' → host.beyond s = host'.beyond s'

/-- Every operation of the hosts keeps the relation; of a child, which runs something that
keeps it too, no more is seen than of one that gets as far. -/
structure SameHost (host : Host σ) (host' : Host σ') (R : σ → σ' → Prop) : Prop
    extends SameCommands host host' R where
  executeAndorBg : ∀ {run run'}, Simulates Eq R run run' →
    Simulates Eq R (host.executeAndorBg run) (host'.executeAndorBg run')
  captured : ∀ {run run'}, Simulates Eq R run run' →
    Simulates Eq R (host.captured run) (host'.captured run')

structure SameReplHost (host : ReplHost σ) (host' : ReplHost σ') (R : σ → σ' → Prop) : Prop
    extends SameHost host.toHost host'.toHost R where
  checkBackgroundJobs : ∀ {s s'}, R s s' →
    R (host.checkBackgroundJobs s) (host'.checkBackgroundJobs s')
  addHistory : ∀ {s s'} line, R s s' → R (host.addHistory line s) (host'.addHistory line s')

section Runs
variable {b : Builder β} {Rep : β → Str → Prop} {env : Env σ} {env' : Env σ'} {host : Host σ}
  {host' : Host σ'} {R : σ → σ' → Prop} {s : σ} {s' : σ'}

theorem simulates_executePipeline (hhost : SameCommands host host' R) {pipeline : Pipeline}
    (hpipeline : PipelineStrings pipeline) :
    Simulates Eq R (executePipeline host pipeline) (executePipeline host' pipeline) := by
  intro s s' hs
  obtain ⟨size, commands⟩ := pipeline
  rw [executePipeline, executePipeline]
  split
  · cases commands with
    | nil => exact refines_none _
    | cons command more =>
      have hcommand : CStrings command := hpipeline command List.mem_cons_self
      have hbuiltin : isBuiltin host command = isBuiltin host' command := by
        unfold isBuiltin
        cases command.argv with
        | nil => rfl
        | cons name _ => exact hhost.isBuiltin name
      simp only [hbuiltin]
      split
      · split
        · exact hhost.executeBuiltin hcommand s s' hs
        · exact hhost.executeCommand hcommand s s' hs
      · exact refines_some ⟨rfl, hs⟩
  · exact hhost.executePipes hpipeline s s' hs

/-- What a chain has come to: the first run has got lost, or the two are level. -/
def Level (R : σ → σ' → Prop) (r : Int × Option σ) (r' : Int × Option σ') : Prop :=
  r.2 = none ∨ ∃ s s', r = (r'.1, some s) ∧ r'.2 = some s' ∧ R s s'

/-- By induction on the chain; a run that is lost stays lost. -/
theorem level_executeAndorLoop {run : π → Run σ} {run' : π → Run σ'}
    {elements : List (AndOrElement π)}
    (h : ∀ e ∈ elements, Simulates Eq R (run e.pipeline) (run' e.pipeline)) (status : Int)
    (hs : R s s') :
    Level R (executeAndorLoop (lifted run) status elements (some s))
      (executeAndorLoop (lifted run') status elements (some s')) := by
  induction elements generalizing status s s' with
  | nil => exact .inr ⟨s, s', rfl, rfl, hs⟩
  | cons e elements ih =>
    have hgo : Level R
        (executeAndorLoop (lifted run) (lifted run e.pipeline (some s)).1 elements
          (lifted run e.pipeline (some s)).2)
        (executeAndorLoop (lifted run') (lifted run' e.pipeline (some s')).1 elements
          (lifted run' e.pipeline (some s')).2) := by
      cases hr : run e.pipeline s with
      | none =>
        left
        simp only [lifted, hr]
        exact executeAndorLoop_lost run 0 elements
      | some r =>
        obtain ⟨r', hr', hstatus, ht⟩ := h e List.mem_cons_self s s' hs r hr
        simp only [lifted, hr, hr']
        rw [hstatus]
        exact ih (fun x hx => h x (List.mem_cons_of_mem _ hx)) _ ht
    have hstop : Level R (status, some s) (status, some s') := .inr ⟨s, s', rfl, rfl, hs⟩
    simp only [executeAndorLoop]
    split
    · exact hgo
    · split
      · exact hstop
      · exact hgo
    · split
      · exact hstop
      · exact hgo

theorem simulates_runAndor {run : π → Run σ} {run' : π → Run σ'} {andor : AndOr π}
    (h : ∀ e ∈ andor.elements, Simulates Eq R (run e.pipeline) (run' e.pipeline)) :
    Simulates Eq R (runAndor run andor) (runAndor run' andor) := by
  intro s s' hs
  rw [runAndor_eq, runAndor_eq]
  rcases level_executeAndorLoop h 0 hs with hlost | ⟨t, t', hlevel, ht', ht⟩
  · rw [executeAndor, hlost]
    exact refines_none _
  · rw [executeAndor, hlevel, executeAndor, ht']
    exact refines_some ⟨rfl, ht⟩

theorem simulates_runElement (hhost : SameHost host host' R) {element : ListElement}
    (helement : AndorStrings element.andOr) :
    Simulates Eq R (runElement host (executePipeline host) element)
      (runElement host' (executePipeline host') element) := by
  have hrun : Simulates Eq R (runAndor (executePipeline host) element.andOr)
      (runAndor (executePipeline host') element.andOr) :=
    simulates_runAndor fun e he => simulates_executePipeline hhost.toSameCommands (helement e he)
  unfold runElement
  cases element.sep with
  | semi => exact hrun
  | none => exact hrun
  | amp => exact hhost.executeAndorBg hrun

theorem simulates_executeListLoop {run : Pipeline → Run σ} {run' : Pipeline → Run σ'}
    {elements : List ListElement}
    (h : ∀ element ∈ elements,
      Simulates Eq R (runElement host run element) (runElement host' run' element)) (status : Int) :
    Simulates Eq R (executeListLoop host run status elements)
      (executeListLoop host' run' status elements) := by
  induction elements generalizing status with
  | nil => exact fun s s' hs => refines_some ⟨rfl, hs⟩
  | cons element elements ih =>
    intro s s' hs
    refine (h element List.mem_cons_self s s' hs).bind fun r r' hr => ?_
    rw [hr.1]
    exact ih (fun x hx => h x (List.mem_cons_of_mem _ hx)) r'.1 _ _ hr.2

theorem simulates_executeList (hb : Texts b Rep) (henv : SameEnv env env' R)
    (hhost : SameHost host host' R) {list : ShList} (hlist : ListStrings list) :
    Simulates Eq R (executeList b env host list) (executeList exact env' host' list) := by
  intro s s' hs
  refine (simulates_expandList hb henv hlist s s' hs).bind fun r r' hr => ?_
  obtain ⟨⟨hsame, hstrings⟩, ht⟩ := hr
  rw [← hsame]
  exact simulates_executeListLoop
    (fun element helement => simulates_runElement hhost (hstrings element helement)) 0 _ _ ht

/-! ## Substitutions and rounds -/

theorem nulFree_dropNewlines {result : Str} (h : NulFree result) : NulFree (dropNewlines result) := by
  intro c hc
  have hmem := (List.dropWhile_suffix _).subset (List.mem_reverse.mp hc)
  exact h c (List.mem_reverse.mp hmem)

theorem nulFree_takeWhile (buf : Str) : NulFree (buf.takeWhile (· ≠ 0)) := by
  intro c hc
  simpa using List.mem_takeWhile_imp hc

/-- The reads of a substitution, each appended as a C string. -/
theorem refines_collected (hb : Texts b Rep) (reads : List Str) :
    Refines Rep (reads.foldlM (fun sb buf => b.appends sb (buf.takeWhile (· ≠ 0))) (b.newSized 16))
      (reads.foldlM (fun sb buf => exact.appends sb (buf.takeWhile (· ≠ 0)))
        (exact.newSized 16)) := by
  refine refines_foldlM (p := fun _ => True) ?_ (fun _ _ => trivial) (hb.newSized 16)
  intro sb text buf _ hrep
  exact hb.refines_appends hrep (nulFree_takeWhile buf)

theorem simulates_captureListOutput (hb : Texts b Rep) (hhost : SameHost host host' R)
    {run : Run σ} {run' : Run σ'} (hrun : Simulates Eq R run run') :
    Simulates (Agree NulFree) R (captureListOutput b host run)
      (captureListOutput exact host' run') := by
  intro s s' hs
  refine (hhost.captured hrun s s' hs).bind fun r r' hr => ?_
  obtain ⟨hreads, ht⟩ := hr
  simp only
  rw [hreads]
  exact (refines_collected hb r'.1).bind fun sb text hrep =>
    (hb.refines_takestring hrep).bind fun result result' h => by
      obtain ⟨rfl, hnul⟩ := h
      exact refines_some ⟨⟨rfl, nulFree_dropNewlines hnul⟩, ht⟩

/-- By depth: the child of a substitution runs its list at the depth below. -/
theorem sameEnv_shellEnv (hb : Texts b Rep) (hhost : SameHost host host' R) (depth : Nat) :
    SameEnv (shellEnv b host depth) (shellEnv exact host' depth) R := by
  induction depth with
  | zero => exact ⟨hhost.toSameVars, fun _ _ _ _ => refines_none _⟩
  | succ depth ih =>
    refine ⟨hhost.toSameVars, fun {body} _ s s' hs => ?_⟩
    simp only [shellEnv, ← hhost.beyond hs]
    cases hlex : lexAndParse (host.beyond s) body with
    | error => exact refines_none _
    | ok list =>
      cases list with
      | none =>
        exact simulates_captureListOutput hb hhost (fun _ _ _ => refines_none _) s s' hs
      | some list =>
        exact simulates_captureListOutput hb hhost
          (simulates_executeList hb ih hhost (strings_lexAndParse hlex)) s s' hs

end Runs

section Sessions
variable {b : Builder β} {Rep : β → Str → Prop} {host : ReplHost σ} {host' : ReplHost σ'}
  {R : σ → σ' → Prop} {s : σ} {s' : σ'}

theorem refines_replRound (hb : Texts b Rep) (hhost : SameReplHost host host' R) (depth : Nat)
    (line : Option Str) (hs : R s s') :
    Refines R
      (replRound (executeListPtr b (shellEnv b host.toHost depth) host.toHost) host line s)
      (replRound (executeListPtr exact (shellEnv exact host'.toHost depth) host'.toHost) host'
        line s') := by
  have hchecked := hhost.checkBackgroundJobs hs
  cases line with
  | none => exact refines_some hchecked
  | some text =>
    cases text with
    | nil => exact refines_some hchecked
    | cons c l =>
      have hadded := hhost.addHistory (c :: l) hchecked
      simp only [replRound, ← hhost.beyond hadded]
      cases hlex : lexAndParse _ (c :: l) with
      | error => exact refines_none _
      | ok list =>
        cases list with
        | none => exact refines_none _
        | some list =>
          exact (simulates_executeList hb (sameEnv_shellEnv hb hhost.toSameHost depth)
            hhost.toSameHost (strings_lexAndParse hlex) _ _ hadded).map fun _ _ hr => hr.2

theorem repl_eq_foldlM (b : Builder β) (host : ReplHost σ) (depth : Nat)
    (lines : List (Option Str)) (s : σ) :
    repl b host depth lines s = lines.foldlM (fun s line =>
      replRound (executeListPtr b (shellEnv b host.toHost depth) host.toHost) host line s) s := by
  induction lines generalizing s with
  | nil => rfl
  | cons line lines ih =>
    rw [repl, List.foldlM_cons]
    exact congrArg _ (funext ih)

/-- **What the operations of two hosts keep, whole sessions keep**: every relation, for
every text builder and all lines. -/
theorem refines_repl (hb : Texts b Rep) (hhost : SameReplHost host host' R) (depth : Nat)
    (lines : List (Option Str)) (hs : R s s') :
    Refines R (repl b host depth lines s) (repl exact host' depth lines s') := by
  rw [repl_eq_foldlM, repl_eq_foldlM]
  exact refines_foldlM (p := fun _ => True)
    (fun _ _ line _ ht => refines_replRound hb hhost depth line ht) (fun _ _ => trivial) hs

/-- **Over the blocks of the heap a session can only end as over exact texts**, from every
state of an invariant that the operations of the host keep, and in such a state. -/
theorem repl_allocated (host : ReplHost σ) {I : σ → Prop}
    (hhost : SameReplHost host host (Agree I)) (garbage : Cells) (depth : Nat)
    (lines : List (Option Str)) {s t : σ} (hs : I s)
    (h : repl (allocated garbage) host depth lines s = some t) :
    repl exact host depth lines s = some t ∧ I t := by
  rw [repl_eq_foldlM] at h ⊢
  obtain ⟨t', ht', rfl, ht⟩ := refines_foldlM (p := fun _ => True)
    (fun _ _ line _ ht => refines_replRound (texts_allocated garbage) hhost depth line ht)
    (fun _ _ => trivial) (⟨rfl, hs⟩ : Agree I s s) t h
  exact ⟨ht', ht⟩

end Sessions

/-! ## A list of variables, and what is looked up in it -/

/-- The host of `promptHost`, over the map that its list of variables stands for. -/
def mapHost : ReplHost (Str → Option Str) where
  varLookup s name := s name
  varLookupn s name n := s (name.take n)
  varAssign s name val := fun k => if k = name then some val else s k
  fresh _ := (fun _ => 0, fun _ => 0)
  isBuiltin _ := false
  executeBuiltin _ s := some (0, s)
  executeCommand command s := some (if command.argv = [str "false"] then 1 else 0, s)
  executePipes _ s := some (0, s)
  executeAndorBg _ s := some (0, s)
  captured _ s := some ([], s)
  beyond _ _ := 0
  checkBackgroundJobs s := s
  addHistory _ s := s
  forked := some
  reads _ s := some ([], s)
  captured_eq _ _ := rfl

/-- The map of a list of C strings. -/
def Lists (s : List (Str × Str)) (t : Str → Option Str) : Prop :=
  (∀ name, promptHost.varLookup s name = t name) ∧ ∀ v ∈ s, NulFree v.2

theorem nulFree_varLookup {s : List (Str × Str)} {t : Str → Option Str} (h : Lists s t)
    {name val : Str} (hval : promptHost.varLookup s name = some val) : NulFree val := by
  obtain ⟨v, hv, rfl⟩ := Option.map_eq_some_iff.mp hval
  exact h.2 v (List.mem_of_find?_eq_some hv)

theorem sameVars_mapHost : SameVars promptHost.toVars mapHost.toVars Lists where
  varLookup h name := h.1 name
  varLookupn h name count := h.1 (name.take count)
  value h := nulFree_varLookup h
  valuen h := nulFree_varLookup h
  varAssign := by
    intro s t h name val _ hval
    refine ⟨fun k => ?_, List.forall_mem_cons.mpr ⟨hval, h.2⟩⟩
    change Option.map Prod.snd (((name, val) :: s).find? fun v => v.1 = k) =
      if k = name then some val else t k
    by_cases hk : name = k
    · rw [List.find?_cons_of_pos (by simpa using hk), if_pos hk.symm]
      rfl
    · rw [List.find?_cons_of_neg (by simpa using hk), if_neg fun heq => hk heq.symm]
      exact h.1 k
  fresh _ := rfl

theorem sameReplHost_mapHost : SameReplHost promptHost mapHost Lists where
  toSameVars := sameVars_mapHost
  isBuiltin _ := rfl
  executeBuiltin _ _ _ hs := refines_some ⟨rfl, hs⟩
  executeCommand _ _ _ hs := refines_some ⟨rfl, hs⟩
  executePipes _ _ _ hs := refines_some ⟨rfl, hs⟩
  executeAndorBg _ _ _ hs := refines_some ⟨rfl, hs⟩
  captured _ _ _ hs := refines_some ⟨rfl, hs⟩
  beyond _ := rfl
  checkBackgroundJobs hs := hs
  addHistory _ hs := hs

theorem refines_repl_mapHost :
    Refines Lists (repl exact promptHost 1 [some (str "x=1"), some (str "echo ${x}")] [])
      (repl exact mapHost 1 [some (str "x=1"), some (str "echo ${x}")] fun _ => none) :=
  refines_repl texts_exact sameReplHost_mapHost 1 _ ⟨fun _ => rfl, List.forall_mem_nil _⟩

/-- The variables of `promptHost` are C strings, whatever a session does. -/
theorem sameReplHost_promptHost :
    SameReplHost promptHost promptHost (Agree fun s => ∀ v ∈ s, NulFree v.2) where
  varLookup := by
    rintro s _ ⟨rfl, -⟩ name
    rfl
  varLookupn := by
    rintro s _ ⟨rfl, -⟩ name count
    rfl
  value h := nulFree_varLookup ⟨fun _ => rfl, h.2⟩
  valuen h := nulFree_varLookup ⟨fun _ => rfl, h.2⟩
  varAssign := by
    rintro s _ ⟨rfl, h⟩ name val - hval
    exact ⟨rfl, List.forall_mem_cons.mpr ⟨hval, h⟩⟩
  fresh _ := rfl
  isBuiltin _ := rfl
  executeBuiltin _ _ _ hs := refines_some ⟨rfl, hs⟩
  executeCommand _ _ _ hs := refines_some ⟨rfl, hs⟩
  executePipes _ _ _ hs := refines_some ⟨rfl, hs⟩
  executeAndorBg _ _ _ hs := refines_some ⟨rfl, hs⟩
  captured _ _ _ hs := refines_some ⟨rfl, hs⟩
  beyond _ := rfl
  checkBackgroundJobs hs := hs
  addHistory _ hs := hs

/-- A variable, and one whose value has it in a text that outgrows its block. -/
theorem repl_allocated_grown :
    let lines := [some (str "x='abc'"), some (str "y=\"see ${x}, longer than its block\"")]
    let ended := [(str "y", str "see abc, longer than its block"), (str "x", str "abc")]
    repl exact promptHost 1 lines [] = some ended ∧ ∀ v ∈ ended, NulFree v.2 :=
  repl_allocated promptHost sameReplHost_promptHost (fun _ => 7) 1 _ (List.forall_mem_nil _)
    (by decide +kernel)

end Shell.Exec
