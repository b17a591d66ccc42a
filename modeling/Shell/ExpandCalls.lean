import Shell.Exec

/-! # Which substitutions an expansion runs

The calls of `expand_cmdsub` that the expansion of a list makes, in order, up to
where it ends or fails. All that an expansion takes from its environment beside
the variables is what these calls return. -/
namespace Shell.Exec
open Shell.CTypes Shell.Parsetypes Shell.Expand Shell.Lib Shell.Lib.Traverse

variable {β σ : Type}

/-! ## The calls -/

/-- The substitution a round of `expand_word` runs, with the state in front of it. -/
def wordCall (w : WordState β σ) : List (Str × σ) :=
  match w.i with
  | c :: p :: i =>
    if w.flag ≠ .singleQuoted ∧ c = chr '$' ∧ p = chr '(' then
      match scanTo (chr ')') i with
      | (body, some _) => [(body, w.s)]
      | (_, none) => []
    else []
  | _ => []

def wordCalls (b : Builder β) (env : Env σ) (word : Str) (s : σ) : List (Str × σ) :=
  Loop.seen wordCall (expandBody b env word.length) (fun w => w.i.length)
    ⟨word, .unquoted, b.newSized word.length, s⟩

/-- One round of `expand_assignments`. -/
def assignOne (b : Builder β) (env : Env σ) (item : Str) (s : σ) : Option (Str × σ) := do
  let (item, s) ← expandAssignment b env item s
  return (item, ← executeAssignment env.toVars item s)

theorem expandAssignments_eq (b : Builder β) (env : Env σ) :
    expandAssignments b env = mapState (assignOne b env) := rfl

def commandCalls (b : Builder β) (env : Env σ) (command : Command) (s : σ) : List (Str × σ) :=
  mapSeen (wordCalls b env) (assignOne b env) command.assignmentList s ++
    match expandAssignments b env command.assignmentList s with
    | none => []
    | some (_, s) =>
      mapSeen (fun redirect => wordCalls b env redirect.target) (expandRedirection b env)
          command.redirs s ++
        match expandRedirections b env command.redirs s with
        | none => []
        | some (_, s) => mapSeen (wordCalls b env) (expandWord b env) command.argv s

def pipelineCalls (b : Builder β) (env : Env σ) (pipeline : Pipeline) (s : σ) :
    List (Str × σ) :=
  mapSeen (commandCalls b env) (expandCommand b env) pipeline.commands s

def andorCalls (b : Builder β) (env : Env σ) (andor : AndOr Pipeline) (s : σ) : List (Str × σ) :=
  mapSeen (fun element => pipelineCalls b env element.pipeline) (expandElement b env)
    andor.elements s

def listCalls (b : Builder β) (env : Env σ) (list : ShList) (s : σ) : List (Str × σ) :=
  mapSeen (fun element => andorCalls b env element.andOr) (expandListElement b env)
    list.elements s

/-! ## The environment outside of them -/

section Congr
variable {b : Builder β} {vars : Vars σ} {cmdsub cmdsub' : Str → σ → Option (Str × σ)}

/-- Two environments that give the same for a call. -/
def SameCall (cmdsub cmdsub' : Str → σ → Option (Str × σ)) (call : Str × σ) : Prop :=
  cmdsub call.1 call.2 = cmdsub' call.1 call.2

theorem expandLooseLoop_eq (cmdsub cmdsub' : Str → σ → Option (Str × σ)) (s : σ) (sb : β)
    (i : Str) (tmp : β) (count : Nat) :
    expandLooseLoop b ⟨vars, cmdsub⟩ s sb i tmp count =
      expandLooseLoop b ⟨vars, cmdsub'⟩ s sb i tmp count := by
  induction i generalizing tmp count with
  | nil => rfl
  | cons c i ih =>
    simp only [expandLooseLoop, ih]

theorem expandVariable_eq (cmdsub cmdsub' : Str → σ → Option (Str × σ)) (i : Str) (s : σ) (sb : β) :
    expandVariable b ⟨vars, cmdsub⟩ i s sb = expandVariable b ⟨vars, cmdsub'⟩ i s sb := by
  simp only [expandVariable, expandLooseVariable, expandLooseLoop_eq cmdsub cmdsub']
  rfl

/-- A round at a dollar sign. -/
theorem dollarOne_eq {c : UInt8} {i : Str} {w : WordState β σ} (hi : w.i = c :: i)
    (hflag : w.flag ≠ .singleQuoted) (hc : c = chr '$')
    (h : ∀ call ∈ wordCall w, SameCall cmdsub cmdsub' call) :
    dollarOne b ⟨vars, cmdsub⟩ w i = dollarOne b ⟨vars, cmdsub'⟩ w i := by
  rw [dollarOne, dollarOne]
  refine congrArg (Option.map _) ?_
  cases i with
  | nil => simp only [expandDollarsign, expandVariable_eq cmdsub cmdsub']
  | cons p i =>
    simp only [expandDollarsign, expandVariable_eq cmdsub cmdsub']
    split
    · rename_i hp
      simp only [expandCmdsub]
      split
      · rfl
      · rename_i body rest hscan
        have hcall : (body, w.s) ∈ wordCall w := by
          simp [wordCall, hi, hflag, hc, hp, hscan]
        rw [show cmdsub body w.s = cmdsub' body w.s from h _ hcall]
    · rfl

theorem expandBody_eq {len : Nat} (w : WordState β σ)
    (h : ∀ call ∈ wordCall w, SameCall cmdsub cmdsub' call) :
    expandBody b ⟨vars, cmdsub⟩ len w = expandBody b ⟨vars, cmdsub'⟩ len w := by
  rw [expandBody, expandBody]
  split
  · rfl
  rename_i c i hi
  split
  · rename_i hflag
    split
    · rfl
    split
    · rename_i hc
      rw [dollarOne_eq hi (by simp [hflag]) hc h]
    · rfl
  · rfl
  · rename_i hflag
    split
    · rfl
    split
    · rfl
    split
    · rename_i hc
      rw [dollarOne_eq hi (by simp [hflag]) hc h]
    · rfl

theorem expandWord_eq {word : Str} {s : σ}
    (h : ∀ call ∈ wordCalls b ⟨vars, cmdsub⟩ word s, SameCall cmdsub cmdsub' call) :
    expandWord b ⟨vars, cmdsub⟩ word s = expandWord b ⟨vars, cmdsub'⟩ word s ∧
      wordCalls b ⟨vars, cmdsub⟩ word s = wordCalls b ⟨vars, cmdsub'⟩ word s :=
  Loop.exec_eq_of_seen wordCall (expandBody_decreasing _ _ _) (expandBody_decreasing _ _ _)
    expandBody_eq h

theorem assignOne_eq {item : Str} {s : σ}
    (h : ∀ call ∈ wordCalls b ⟨vars, cmdsub⟩ item s, SameCall cmdsub cmdsub' call) :
    assignOne b ⟨vars, cmdsub⟩ item s = assignOne b ⟨vars, cmdsub'⟩ item s ∧
      wordCalls b ⟨vars, cmdsub⟩ item s = wordCalls b ⟨vars, cmdsub'⟩ item s := by
  obtain ⟨hword, hcalls⟩ := expandWord_eq h
  refine ⟨?_, hcalls⟩
  rw [assignOne, assignOne, expandAssignment, expandAssignment, hword]

theorem expandRedirection_eq {redirect : Redirect} {s : σ}
    (h : ∀ call ∈ wordCalls b ⟨vars, cmdsub⟩ redirect.target s, SameCall cmdsub cmdsub' call) :
    expandRedirection b ⟨vars, cmdsub⟩ redirect s =
        expandRedirection b ⟨vars, cmdsub'⟩ redirect s ∧
      wordCalls b ⟨vars, cmdsub⟩ redirect.target s =
        wordCalls b ⟨vars, cmdsub'⟩ redirect.target s := by
  obtain ⟨hword, hcalls⟩ := expandWord_eq h
  refine ⟨?_, hcalls⟩
  rw [expandRedirection, expandRedirection, hword]

theorem expandCommand_eq {command : Command} {s : σ}
    (h : ∀ call ∈ commandCalls b ⟨vars, cmdsub⟩ command s, SameCall cmdsub cmdsub' call) :
    expandCommand b ⟨vars, cmdsub⟩ command s = expandCommand b ⟨vars, cmdsub'⟩ command s ∧
      commandCalls b ⟨vars, cmdsub⟩ command s = commandCalls b ⟨vars, cmdsub'⟩ command s := by
  obtain ⟨hassign, hseen⟩ := mapState_eq_of_seen (fun _ _ => assignOne_eq)
    fun call hc => h call (List.mem_append_left _ hc)
  rw [← expandAssignments_eq, ← expandAssignments_eq] at hassign
  rw [expandCommand, expandCommand, commandCalls, commandCalls, ← hassign, ← hseen]
  cases hitems : expandAssignments b ⟨vars, cmdsub⟩ command.assignmentList s with
  | none => simp
  | some r =>
    obtain ⟨assignments, s1⟩ := r
    simp only [commandCalls, hitems] at h
    replace h := fun call hc => h call (List.mem_append_right _ hc)
    obtain ⟨hredirs, hseen⟩ := mapState_eq_of_seen (fun _ _ => expandRedirection_eq)
      fun call hc => h call (List.mem_append_left _ hc)
    rw [← expandRedirections, ← expandRedirections] at hredirs
    simp only [Option.bind_eq_bind, Option.bind_some, ← hredirs, ← hseen]
    cases hr : expandRedirections b ⟨vars, cmdsub⟩ command.redirs s1 with
    | none => simp
    | some r =>
      obtain ⟨redirs, s2⟩ := r
      simp only [hr] at h
      obtain ⟨hargs, hseen⟩ := mapState_eq_of_seen (fun _ _ => expandWord_eq)
        fun call hc => h call (List.mem_append_right _ hc)
      rw [← expandArgs, ← expandArgs] at hargs
      simp only [Option.bind_some, hargs, hseen, and_self]

theorem expandPipeline_eq {pipeline : Pipeline} {s : σ}
    (h : ∀ call ∈ pipelineCalls b ⟨vars, cmdsub⟩ pipeline s, SameCall cmdsub cmdsub' call) :
    expandPipeline b ⟨vars, cmdsub⟩ pipeline s = expandPipeline b ⟨vars, cmdsub'⟩ pipeline s ∧
      pipelineCalls b ⟨vars, cmdsub⟩ pipeline s = pipelineCalls b ⟨vars, cmdsub'⟩ pipeline s := by
  obtain ⟨hcommands, hseen⟩ := mapState_eq_of_seen (fun _ _ => expandCommand_eq) h
  refine ⟨?_, hseen⟩
  rw [expandPipeline, expandPipeline, hcommands]

theorem expandAndor_eq {andor : AndOr Pipeline} {s : σ}
    (h : ∀ call ∈ andorCalls b ⟨vars, cmdsub⟩ andor s, SameCall cmdsub cmdsub' call) :
    expandAndor b ⟨vars, cmdsub⟩ andor s = expandAndor b ⟨vars, cmdsub'⟩ andor s ∧
      andorCalls b ⟨vars, cmdsub⟩ andor s = andorCalls b ⟨vars, cmdsub'⟩ andor s := by
  have hstep : ∀ (element : AndOrElement Pipeline) (s : σ),
      (∀ call ∈ pipelineCalls b ⟨vars, cmdsub⟩ element.pipeline s, SameCall cmdsub cmdsub' call) →
      expandElement b ⟨vars, cmdsub⟩ element s = expandElement b ⟨vars, cmdsub'⟩ element s ∧
        pipelineCalls b ⟨vars, cmdsub⟩ element.pipeline s =
          pipelineCalls b ⟨vars, cmdsub'⟩ element.pipeline s := by
    intro element s h
    obtain ⟨hpipeline, hcalls⟩ := expandPipeline_eq h
    refine ⟨?_, hcalls⟩
    rw [expandElement, expandElement, hpipeline]
  obtain ⟨helements, hseen⟩ := mapState_eq_of_seen hstep h
  refine ⟨?_, hseen⟩
  rw [expandAndor, expandAndor, helements]

/-- An expansion depends on its environment only in the calls it makes, and makes the
same calls where these return the same. -/
theorem expandList_eq {list : ShList} {s : σ}
    (h : ∀ call ∈ listCalls b ⟨vars, cmdsub⟩ list s, SameCall cmdsub cmdsub' call) :
    expandList b ⟨vars, cmdsub⟩ list s = expandList b ⟨vars, cmdsub'⟩ list s ∧
      listCalls b ⟨vars, cmdsub⟩ list s = listCalls b ⟨vars, cmdsub'⟩ list s := by
  have hstep : ∀ (element : ListElement) (s : σ),
      (∀ call ∈ andorCalls b ⟨vars, cmdsub⟩ element.andOr s, SameCall cmdsub cmdsub' call) →
      expandListElement b ⟨vars, cmdsub⟩ element s =
          expandListElement b ⟨vars, cmdsub'⟩ element s ∧
        andorCalls b ⟨vars, cmdsub⟩ element.andOr s =
          andorCalls b ⟨vars, cmdsub'⟩ element.andOr s := by
    intro element s h
    obtain ⟨handor, hcalls⟩ := expandAndor_eq h
    refine ⟨?_, hcalls⟩
    rw [expandListElement, expandListElement, handor]
  obtain ⟨helements, hseen⟩ := mapState_eq_of_seen hstep h
  refine ⟨?_, hseen⟩
  rw [expandList, expandList, helements]

theorem executeList_eq (host : Host σ) {env env' : Env σ} {list : ShList} {s : σ}
    (hvars : env.toVars = env'.toVars)
    (h : ∀ call ∈ listCalls b env list s, SameCall env.cmdsub env'.cmdsub call) :
    executeList b env host list s = executeList b env' host list s ∧
      listCalls b env list s = listCalls b env' list s := by
  obtain ⟨vars, cmdsub⟩ := env
  obtain ⟨vars', cmdsub'⟩ := env'
  obtain rfl : vars = vars' := hvars
  obtain ⟨hexpand, hcalls⟩ := expandList_eq h
  refine ⟨?_, hcalls⟩
  rw [executeList, executeList, hexpand]

end Congr

end Shell.Exec
