import Shell.ExecPasses
import Shell.ExpandCalls
import Shell.LexerErrors

/-! # The loop of the shell (repl of exec.c)

What `lex_and_parse` returns goes to `execute_list` without a look at it, at the
prompt as in the child of a command substitution. `Handed` records what is handed
on, and the text it was made of. -/
namespace Shell.Exec
open Shell.CTypes Shell.Parsetypes Shell.Parser Shell.Expand Shell.Lib Shell.Lib.Traverse
open Shell.Lexer (terminated beforeEoi)

variable {β σ : Type}

/-! ## The loop -/

/-- A host with a terminal, which can tell a child from what its parent reads of it. -/
structure ReplHost (σ : Type) extends Host σ where
  checkBackgroundJobs : σ → σ
  addHistory : Str → σ → σ
  /-- The child of `capture_list_output` in front of `execute_list`; none where `pipe`
  or `fork` fails. -/
  forked : σ → Option σ
  /-- What the parent reads of a child that ends so, or dies. -/
  reads : Option (Int × σ) → σ → Option (List Str × σ)
  captured_eq : ∀ run s, captured run s = match forked s with
    | none => some ([], s)
    | some child => reads (run child) s

/-- `execute_list` of a pointer; a null one is followed. -/
def executeListPtr (b : Builder β) (env : Env σ) (host : Host σ) : Option ShList → Run σ
  | none => fun _ => none
  | some list => executeList b env host list

/-- One round, given what `readline` returns and what `execute_list` does. -/
def replRound (execute : Option ShList → Run σ) (host : ReplHost σ) (line : Option Str)
    (s : σ) : Option σ :=
  let s := host.checkBackgroundJobs s
  match line with
  | none | some [] => some s
  | some (c :: l) =>
    let s := host.addHistory (c :: l) s
    match lexAndParse (host.beyond s) (c :: l) with
    | .error _ => none
    | .ok list => (execute list s).map Prod.snd

/-- The rounds on these lines; `none` when the shell does not get through them. -/
def repl (b : Builder β) (host : ReplHost σ) (depth : Nat) : List (Option Str) → σ → Option σ
  | [], s => some s
  | line :: lines, s =>
    (replRound (executeListPtr b (shellEnv b host.toHost depth) host.toHost) host line s).bind
      (repl b host depth lines)

/-! ## What is handed to `execute_list` -/

structure Handed where
  text : Str
  list : Option ShList

/-- A text that is handed on from state `s`, and what is in the calls its list makes. -/
def handedFrom (b : Builder β) (env : Env σ) (below : Str × σ → List Handed)
    (beyond : Nat → UInt8) (text : Str) (s : σ) : List Handed :=
  match lexAndParse beyond text with
  | .error _ => []
  | .ok list => ⟨text, list⟩ :: match list with
    | none => []
    | some list => (listCalls b env list s).flatMap below

def handedBy (b : Builder β) (host : ReplHost σ) : Nat → Str × σ → List Handed
  | 0, _ => []
  | depth + 1, (body, s) =>
    match host.forked s with
    | none => []
    | some child => handedFrom b (shellEnv b host.toHost depth) (handedBy b host depth)
        (host.beyond s) body child

def roundHanded (b : Builder β) (host : ReplHost σ) (depth : Nat) (line : Option Str) (s : σ) :
    List Handed :=
  let s := host.checkBackgroundJobs s
  match line with
  | none | some [] => []
  | some (c :: l) =>
    let s := host.addHistory (c :: l) s
    handedFrom b (shellEnv b host.toHost depth) (handedBy b host depth) (host.beyond s) (c :: l) s

def replHanded (b : Builder β) (host : ReplHost σ) (depth : Nat) :
    List (Option Str) → σ → List Handed
  | [], _ => []
  | line :: lines, s => roundHanded b host depth line s ++
    match replRound (executeListPtr b (shellEnv b host.toHost depth) host.toHost) host line s with
    | none => []
    | some s => replHanded b host depth lines s

/-! ## The loop that looks at the list -/

/-- A null list has been reported, and nothing is executed. -/
def checkedList (b : Builder β) (env : Env σ) (host : Host σ) : Option ShList → Run σ
  | none => fun s => some (0, s)
  | some list => executeList b env host list

def checkedEnv (b : Builder β) (host : Host σ) : Nat → Env σ
  | 0 => { host.toVars with cmdsub := fun _ _ => none }
  | depth + 1 =>
    { host.toVars with
      cmdsub := fun body s =>
        match lexAndParse (host.beyond s) body with
        | .error _ => none
        | .ok list =>
          captureListOutput b host (checkedList b (checkedEnv b host depth) host list) s }

def checkedRepl (b : Builder β) (host : ReplHost σ) (depth : Nat) :
    List (Option Str) → σ → Option σ
  | [], s => some s
  | line :: lines, s =>
    (replRound (checkedList b (checkedEnv b host.toHost depth) host.toHost) host line s).bind
      (checkedRepl b host depth lines)

/-- Every list that is handed to `execute_list` is there, and a rejected text is only
reported: the shell gets as far as the one that looks. -/
structure HandsLists (b : Builder β) (host : ReplHost σ) (depth : Nat)
    (lines : List (Option Str)) (s : σ) : Prop where
  handed : ∀ h ∈ replHanded b host depth lines s, h.list ≠ none
  checked : repl b host depth lines s = checkedRepl b host depth lines s

section Loop
variable {b : Builder β} {host : ReplHost σ}

/-! ## Where nothing null is handed on -/

theorem handedFrom_sound {env : Env σ} {below : Str × σ → List Handed} {beyond : Nat → UInt8}
    {text : Str} {s : σ}
    (hbelow : ∀ call, ∀ h ∈ below call, ∃ beyond, lexAndParse beyond h.text = .ok h.list) :
    ∀ h ∈ handedFrom b env below beyond text s, ∃ beyond, lexAndParse beyond h.text = .ok h.list := by
  intro h hh
  unfold handedFrom at hh
  split at hh
  · cases hh
  · rename_i list hlex
    rcases List.mem_cons.mp hh with rfl | hh
    · exact ⟨beyond, hlex⟩
    · split at hh
      · cases hh
      · obtain ⟨call, -, hh⟩ := List.mem_flatMap.mp hh
        exact hbelow call h hh

theorem handedBy_sound (depth : Nat) (call : Str × σ) :
    ∀ h ∈ handedBy b host depth call, ∃ beyond, lexAndParse beyond h.text = .ok h.list := by
  induction depth generalizing call with
  | zero =>
    intro h hh
    cases hh
  | succ depth ih =>
    intro h hh
    obtain ⟨body, s⟩ := call
    unfold handedBy at hh
    split at hh
    · cases hh
    · exact handedFrom_sound ih h hh

/-- What is handed on is what `lex_and_parse` returns. -/
theorem replHanded_sound {depth : Nat} {lines : List (Option Str)} {s : σ} :
    ∀ h ∈ replHanded b host depth lines s, ∃ beyond, lexAndParse beyond h.text = .ok h.list := by
  induction lines generalizing s with
  | nil =>
    intro h hh
    cases hh
  | cons line lines ih =>
    intro h hh
    rcases List.mem_append.mp hh with hh | hh
    · unfold roundHanded at hh
      split at hh
      · cases hh
      · cases hh
      · exact handedFrom_sound (handedBy_sound depth) h hh
    · split at hh
      · cases hh
      · exact ih h hh

theorem captureListOutput_eq {run run' : Run σ} {s : σ}
    (h : ∀ child, host.forked s = some child → run child = run' child) :
    captureListOutput b host.toHost run s = captureListOutput b host.toHost run' s := by
  have hcaptured : host.captured run s = host.captured run' s := by
    rw [host.captured_eq, host.captured_eq]
    split
    · rfl
    · rw [h _ ‹_›]
  rw [captureListOutput, captureListOutput, hcaptured]

/-- No null list is handed on from here. -/
def NoNull (handed : List Handed) : Prop := ∀ h ∈ handed, h.list ≠ none

/-- A call in front of which no null list is handed on, and the same call where lists
are looked at. -/
def CallsAgree (b : Builder β) (host : ReplHost σ) (depth : Nat) : Prop :=
  ∀ call, NoNull (handedBy b host depth call) →
    SameCall (shellEnv b host.toHost depth).cmdsub (checkedEnv b host.toHost depth).cmdsub call

theorem shellEnv_toVars (b : Builder β) (host : ReplHost σ) (depth : Nat) :
    (shellEnv b host.toHost depth).toVars = host.toVars := by
  cases depth <;> rfl

theorem checkedEnv_toVars (b : Builder β) (host : ReplHost σ) (depth : Nat) :
    (checkedEnv b host.toHost depth).toVars = host.toVars := by
  cases depth <;> rfl

/-- A substitution, with what `lex_and_parse` returns handed on as it is. -/
theorem shellEnv_cmdsub (depth : Nat) (body : Str) (s : σ) :
    (shellEnv b host.toHost (depth + 1)).cmdsub body s =
      match lexAndParse (host.beyond s) body with
      | .error _ => none
      | .ok list => captureListOutput b host.toHost
        (executeListPtr b (shellEnv b host.toHost depth) host.toHost list) s := by
  simp only [shellEnv]
  cases lexAndParse (host.beyond s) body with
  | error => rfl
  | ok list => cases list <;> rfl

theorem executeListPtr_eq {depth : Nat} (hcalls : CallsAgree b host depth)
    {beyond : Nat → UInt8} {text : Str} {list : Option ShList} {s : σ}
    (hlex : lexAndParse beyond text = .ok list)
    (hnull : NoNull (handedFrom b (shellEnv b host.toHost depth) (handedBy b host depth) beyond
      text s)) :
    executeListPtr b (shellEnv b host.toHost depth) host.toHost list s =
      checkedList b (checkedEnv b host.toHost depth) host.toHost list s := by
  simp only [NoNull, handedFrom, hlex] at hnull
  cases list with
  | none => exact absurd rfl (hnull _ List.mem_cons_self)
  | some list =>
    have hbelow : ∀ call ∈ listCalls b (shellEnv b host.toHost depth) list s,
        SameCall (shellEnv b host.toHost depth).cmdsub (checkedEnv b host.toHost depth).cmdsub call :=
      fun call hcall => hcalls call fun h hh =>
        hnull h (List.mem_cons_of_mem _ (List.mem_flatMap.mpr ⟨call, hcall, hh⟩))
    have hvars := (shellEnv_toVars b host depth).trans (checkedEnv_toVars b host depth).symm
    exact (executeList_eq _ hvars hbelow).1

/-- By depth: the child runs its list at the depth below. -/
theorem callsAgree (depth : Nat) : CallsAgree b host depth := by
  induction depth with
  | zero => exact fun _ _ => rfl
  | succ depth ih =>
    rintro ⟨body, s⟩ hnull
    show (shellEnv b host.toHost (depth + 1)).cmdsub body s =
      (checkedEnv b host.toHost (depth + 1)).cmdsub body s
    rw [shellEnv_cmdsub]
    simp only [checkedEnv]
    cases hlex : lexAndParse (host.beyond s) body with
    | error => rfl
    | ok list =>
      refine captureListOutput_eq fun child hchild => executeListPtr_eq ih hlex ?_
      rwa [handedBy, hchild] at hnull

theorem replRound_eq {depth : Nat} {line : Option Str} {s : σ}
    (hnull : NoNull (roundHanded b host depth line s)) :
    replRound (executeListPtr b (shellEnv b host.toHost depth) host.toHost) host line s =
      replRound (checkedList b (checkedEnv b host.toHost depth) host.toHost) host line s := by
  cases line with
  | none => rfl
  | some text =>
    cases text with
    | nil => rfl
    | cons c l =>
      simp only [replRound]
      cases hlex : lexAndParse _ (c :: l) with
      | error => rfl
      | ok list => exact congrArg (Option.map _) (executeListPtr_eq (callsAgree depth) hlex hnull)

/-- Where no null list is handed on, the shell is the one that looks. -/
theorem repl_eq_checkedRepl {depth : Nat} {lines : List (Option Str)} {s : σ}
    (hnull : NoNull (replHanded b host depth lines s)) :
    repl b host depth lines s = checkedRepl b host depth lines s := by
  induction lines generalizing s with
  | nil => rfl
  | cons line lines ih =>
    have hround := replRound_eq fun h hh => hnull h (List.mem_append_left _ hh)
    rw [repl, checkedRepl, ← hround]
    cases hr : replRound (executeListPtr b (shellEnv b host.toHost depth) host.toHost) host line s with
    | none => rfl
    | some t =>
      refine ih fun h hh => hnull h (List.mem_append_right _ ?_)
      rwa [hr]

/-- **The loop hands lists on exactly while nothing is open at the end of a text**, at
the prompt and in every substitution that is reached. -/
theorem handsLists_iff (b : Builder β) (host : ReplHost σ) (depth : Nat)
    (lines : List (Option Str)) (s : σ) :
    HandsLists b host depth lines s ↔
      ∀ h ∈ replHanded b host depth lines s, terminated .bare (beforeEoi h.text) = true := by
  have hnull : NoNull (replHanded b host depth lines s) ↔
      ∀ h ∈ replHanded b host depth lines s, terminated .bare (beforeEoi h.text) = true := by
    refine forall₂_congr fun h hh => ?_
    obtain ⟨beyond, hlex⟩ := replHanded_sound h hh
    rw [Ne, ← Bool.not_eq_false, ← lexAndParse_eq_none_iff beyond, hlex, Except.ok.injEq]
  exact ⟨fun h => hnull.mp h.handed, fun h => ⟨hnull.mpr h, repl_eq_checkedRepl (hnull.mpr h)⟩⟩

end Loop

/-- A child that writes nothing, whatever becomes of it. -/
def promptHost : ReplHost (List (Str × Str)) :=
  { plainHost with
    checkBackgroundJobs := fun s => s
    addHistory := fun _ s => s
    forked := some
    reads := fun _ s => some ([], s)
    captured_eq := fun _ _ => rfl }

/-- An open quote at the prompt, and one in the body of a substitution. -/
theorem repl_hands_null :
    (replHanded exact promptHost 1 [some (str "\"")] []).map
        (fun h => (h.text, h.list.isSome)) = [(str "\"", false)] ∧
      repl exact promptHost 1 [some (str "\"")] [] = none ∧
      (replHanded exact promptHost 1 [some (str "a $(\")")] []).map
        (fun h => (h.text, h.list.isSome)) = [(str "a $(\")", true), (str "\"", false)] ∧
      ¬ HandsLists exact promptHost 1 [some (str "\"")] [] := by
  refine ⟨rfl, rfl, rfl, ?_⟩
  intro h
  exact h.handed ⟨str "\"", none⟩ List.mem_cons_self rfl

end Shell.Exec
