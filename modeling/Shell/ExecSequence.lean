import Shell.ExecPasses
import Shell.ParserGrammar
import Shell.Lib.SeparatedJoin

/-! # A line of several lists

The parser cuts a line at its separators whatever stands between them, so the list of
`l ; r` is that of `l ;` and that of `r`. It is run as the two lines would be, wherever
nothing in `r` is expanded to anything that running `l` could change: a line is
expanded as a whole before any of it is run. -/
namespace Shell.Exec
open Shell.CTypes Shell.Tokenlist Shell.Parsetypes Shell.Parser Shell.Andor Shell.Lexer
open Shell.Expand Shell.Lib.Traverse Shell.Lib.Separated

variable {β σ : Type} {b : Builder β} {env : Env σ} {host : Host σ}

def appendLists (l r : ShList) : ShList :=
  { count := l.count + r.count, elements := l.elements ++ r.elements }

/-! ## Two lists in one -/

theorem refList_append {l r : List Token} {s : Token} (hs : isListSep s.type = true)
    (hr : r ≠ []) :
    refList (l ++ s :: r) .eof = appendLists (refList (l ++ [s]) .eof) (refList r .eof) := by
  have hclose : (TokenType.eof == .eof || TokenType.eof == .newline) = true := rfl
  simp only [refList, hclose, appendLists]
  rw [closed_append (p := fun t : Token => isListSep t.type) hs hr, List.length_append,
    List.map_append]

theorem expandList_append {l r : ShList} {s : σ} :
    expandList b env (appendLists l r) s = (expandList b env l s).bind fun x =>
      (expandList b env r x.2).map fun y => (appendLists x.1 y.1, y.2) := by
  have hmap : ∀ (elements more : List ListElement) (s : σ),
      mapState (expandListElement b env) (elements ++ more) s =
        (mapState (expandListElement b env) elements s).bind fun x =>
          (mapState (expandListElement b env) more x.2).map fun y => (x.1 ++ y.1, y.2) := by
    intro elements more
    induction elements with
    | nil =>
      intro s
      exact Option.map_id'.symm
    | cons element elements ih =>
      intro s
      rw [List.cons_append, mapState, mapState]
      cases expandListElement b env element s with
      | none => rfl
      | some x =>
        simp only [Option.bind_some, ih]
        cases mapState (expandListElement b env) elements x.2 with
        | none => rfl
        | some y =>
          simp only [Option.bind_some, Option.map_some]
          cases mapState (expandListElement b env) more y.2 <;> rfl
  simp only [expandList, appendLists, hmap]
  cases mapState (expandListElement b env) l.elements s with
  | none => rfl
  | some x =>
    simp only [Option.bind_some, Option.map_some]
    cases mapState (expandListElement b env) r.elements x.2 <;> rfl

theorem executeListLoop_append (run : Pipeline → Run σ) (l r : List ListElement) (status : Int)
    (s : σ) :
    executeListLoop host run status (l ++ r) s =
      (executeListLoop host run status l s).bind fun x => executeListLoop host run x.1 r x.2 := by
  induction l generalizing status s with
  | nil => rfl
  | cons element l ih =>
    rw [List.cons_append, executeListLoop, executeListLoop]
    cases runElement host run element s with
    | none => rfl
    | some x => exact ih x.1 x.2

/-- The status in front of a list that is not empty is not returned. -/
theorem executeListLoop_status (run : Pipeline → Run σ) {l : List ListElement} (hne : l ≠ [])
    (status status' : Int) (s : σ) :
    executeListLoop host run status l s = executeListLoop host run status' l s := by
  cases l with
  | nil => exact absurd rfl hne
  | cons element l => rfl

/-- Running two lists in one is running one after the other, where what the second one
is expanded to does not depend on the state. -/
theorem executeList_append {l r r' : ShList} {s : σ}
    (hr : ∀ t, expandList b env r t = some (r', t)) (hne : r'.elements ≠ []) :
    executeList b env host (appendLists l r) s =
      (executeList b env host l s).bind fun x => executeList b env host r x.2 := by
  rw [executeList, executeList, expandList_append]
  cases expandList b env l s with
  | none => rfl
  | some x =>
    obtain ⟨l', t⟩ := x
    simp only [Option.bind_some, hr, Option.map_some, appendLists, executeListLoop_append]
    cases executeListLoop host (executePipeline host) 0 l'.elements t with
    | none => rfl
    | some y =>
      simp only [Option.bind_some, executeList, hr]
      exact executeListLoop_status _ hne y.1 0 y.2

/-! ## Lines -/

/-- `lex_and_parse` and `execute_list` of a line. -/
def executeText (b : Builder β) (env : Env σ) (host : Host σ) (text : Str) : Run σ := fun s =>
  match lexAndParse (host.beyond s) text with
  | .ok (some list) => executeList b env host list s
  | _ => none

/-- A word that is its own expansion. -/
def Literal (w : Str) : Prop :=
  ∀ c ∈ w, c ∉ [chr '~', chr '$', chr '\\', chr '\'', chr '"']

structure LiteralCommand (command : Command) : Prop where
  assignments : command.assignmentList = []
  args : ∀ w ∈ command.argv, Literal w
  redirs : ∀ r ∈ command.redirs, Literal r.target

theorem expandWord_literal {w : Str} (h : Literal w) (s : σ) :
    expandWord exact env w s = some (w, s) := by
  rw [expandWord_plain h, exact_copy]
  rfl

theorem mapState_self {α : Type} {f : α → σ → Option (α × σ)} {l : List α} {s : σ}
    (h : ∀ a ∈ l, f a s = some (a, s)) : mapState f l s = some (l, s) := by
  have hmap := @mapState_quiet _ _ _ _ f id id l s h
  rwa [List.map_id] at hmap

theorem expandCommand_literal {command : Command} (h : LiteralCommand command) (s : σ) :
    expandCommand exact env command s = some (command, s) := by
  obtain ⟨argv, assignmentList, redirs⟩ := command
  obtain rfl : assignmentList = [] := h.assignments
  have hredirs : expandRedirections exact env redirs s = some (redirs, s) :=
    mapState_self fun r hr => by
      rw [expandRedirection, expandWord_literal (h.redirs r hr)]
      rfl
  have hargv : expandArgs exact env argv s = some (argv, s) :=
    mapState_self fun w hw => expandWord_literal (h.args w hw) s
  have hassign : expandAssignments exact env [] s = some ([], s) := rfl
  simp only [expandCommand, hassign, hredirs, hargv, Option.bind_eq_bind, Option.bind_some]
  rfl

/-- A list of such words is its own expansion. -/
theorem expandList_literal {list : ShList}
    (h : ∀ command ∈ listCommands list, LiteralCommand command) (s : σ) :
    expandList exact env list s = some (list, s) :=
  traverses_list.iff.mpr ⟨rfl, mapState_self fun c hc => expandCommand_literal (h c hc) s⟩

theorem Spaced.cut {l r : List (Item × Str)} {i : Item × Str} (h : Spaced (l ++ i :: r)) :
    Spaced (l ++ [i]) ∧ Spaced r := by
  induction l with
  | nil =>
    refine ⟨?_, (Spaced.tail h).2⟩
    cases r with
    | nil => exact h
    | cons j r => exact h.1
  | cons j l ih =>
    obtain ⟨hl, hr⟩ := ih (Spaced.tail h).2
    refine ⟨?_, hr⟩
    cases l with
    | nil => exact ⟨h.1, h.2.1, hl⟩
    | cons k l => exact ⟨h.1, h.2.1, hl⟩

/-- An input of the lexer that the parser reads to its end. -/
structure LineInput (items : List (Item × Str)) : Prop where
  valid : ∀ i ∈ items, i.1.Valid
  spaced : Spaced items
  listToks : ∀ t ∈ items.map fun i => i.1.token, isListTok t.type = true
  targeted : Targeted (items.map fun i => i.1.token)

theorem LineInput.executeText {items : List (Item × Str)} (h : LineInput items) (b : Builder β)
    (env : Env σ) (host : Host σ) (s : σ) :
    executeText b env host (render items) s =
      executeList b env host (refList (items.map fun i => i.1.token) .eof) s := by
  rw [Exec.executeText, lexAndParse_render _ h.valid h.spaced h.listToks h.targeted]

theorem LineInput.cut {l r : List (Item × Str)} {sep : Item × Str}
    (h : LineInput (l ++ sep :: r)) (hsep : isListSep sep.1.token.type = true) :
    LineInput (l ++ [sep]) ∧ LineInput r := by
  obtain ⟨hvalid, hspaced, htoks, htargeted⟩ := h
  obtain ⟨hspacedl, hspacedr⟩ := Spaced.cut hspaced
  rw [List.map_append, List.map_cons] at htoks htargeted
  have hcommand := isCommandTok_of_isListSep hsep
  obtain ⟨htargetedl, htargetedr⟩ := htargeted.cut hcommand
  obtain ⟨hvalidl, hvalidr⟩ := List.forall_mem_append.mp hvalid
  obtain ⟨hvalidsep, hvalidr⟩ := List.forall_mem_cons.mp hvalidr
  obtain ⟨htoksl, htoksr⟩ := List.forall_mem_append.mp htoks
  obtain ⟨htoksep, htoksr⟩ := List.forall_mem_cons.mp htoksr
  have hredir : isRedirect sep.1.token.type = false := (Bool.or_eq_false_iff.mp hcommand).2
  refine ⟨⟨?_, hspacedl, ?_, ?_⟩, ⟨hvalidr, hspacedr, htoksr, htargetedr⟩⟩
  · exact List.forall_mem_append.mpr ⟨hvalidl, List.forall_mem_singleton.mpr hvalidsep⟩
  · rw [List.map_append]
    exact List.forall_mem_append.mpr ⟨htoksl, List.forall_mem_singleton.mpr htoksep⟩
  · rw [List.map_append]
    exact htargetedl.append (.plain hredir .nil)

/-- **A separator is the end of a line**: where the words of `r` are their own
expansions, the line `l ; r` or `l & r` runs as the line `l ;` or `l &` and then the
line `r`. -/
theorem executeText_sequence {l r : List (Item × Str)} {sep : Item × Str}
    (h : LineInput (l ++ sep :: r)) (hsep : isListSep sep.1.token.type = true) (hne : r ≠ [])
    (hliteral : ∀ command ∈ listCommands (refList (r.map fun i => i.1.token) .eof),
      LiteralCommand command) (env : Env σ) (host : Host σ) (s : σ) :
    executeText exact env host (render (l ++ sep :: r)) s =
      (executeText exact env host (render (l ++ [sep])) s).bind fun x =>
        executeText exact env host (render r) x.2 := by
  obtain ⟨hl, hr⟩ := h.cut hsep
  have helements : (refList (r.map fun i => i.1.token) .eof).elements ≠ [] := by
    rcases @closed_marks Token ListSep (fun t => isListSep t.type) (fun t => listSep t.type)
      .none (r.map fun i => i.1.token) with ⟨init, c, hl, -⟩ | ⟨hne, -⟩
    · refine mt List.map_eq_nil_iff.mp ?_
      rw [show ((TokenType.eof == .eof || TokenType.eof == .newline) = true) from rfl, hl]
      exact List.append_ne_nil_of_right_ne_nil _ (List.cons_ne_nil _ _)
    · exact mt List.map_eq_nil_iff.mp hne
  have hlists : refList ((l ++ sep :: r).map fun i => i.1.token) .eof =
      appendLists (refList ((l ++ [sep]).map fun i => i.1.token) .eof)
        (refList (r.map fun i => i.1.token) .eof) := by
    rw [List.map_append, List.map_cons, List.map_append]
    exact refList_append hsep (mt List.map_eq_nil_iff.mp hne)
  rw [h.executeText, hlists, executeList_append (expandList_literal hliteral) helements,
    hl.executeText]
  exact congrArg _ (funext fun x => (hr.executeText exact env host x.2).symm)

/-- `x=1 ; ls` -/
theorem executeText_sequence_assignment :
    executeText exact (shellEnv exact plainHost 1) plainHost
        (render ([(wordItem (str "x=1"), str " ")] ++ (.op .semi, str " ") :: [(wordItem (str "ls"), [])]))
        [] =
      (executeText exact (shellEnv exact plainHost 1) plainHost
        (render ([(wordItem (str "x=1"), str " ")] ++ [(.op .semi, str " ")])) []).bind fun x =>
          executeText exact (shellEnv exact plainHost 1) plainHost
            (render [(wordItem (str "ls"), [])]) x.2 := by
  have hword : ∀ c ∈ str "x=1" ++ str "ls", isspace (toInt c) = false ∧ isoperator (toInt c) = false ∧
      c ∉ [chr '\'', chr '"', chr '\\', chr '$', chr '`', 0, 255] :=
    @of_decide_eq_true _ (List.decidableBAll _ _) rfl
  have hassign : (wordItem (str "x=1")).Valid :=
    wordItem_valid (List.cons_ne_nil _ _) fun c hc => hword c (List.mem_append_left _ hc)
  have hls : (wordItem (str "ls")).Valid :=
    wordItem_valid (List.cons_ne_nil _ _) fun c hc => hword c (List.mem_append_right _ hc)
  have hblank : Blank (str " ") := List.forall_mem_singleton.mpr (.inl rfl)
  have hinput : LineInput
      ([(wordItem (str "x=1"), str " ")] ++ (.op .semi, str " ") :: [(wordItem (str "ls"), [])]) :=
    ⟨List.forall_mem_cons.mpr ⟨hassign, List.forall_mem_cons.mpr
      ⟨rfl, List.forall_mem_singleton.mpr hls⟩⟩,
      ⟨hblank, nofun, hblank, nofun, List.forall_mem_nil _⟩,
      List.forall_mem_cons.mpr ⟨rfl, List.forall_mem_cons.mpr ⟨rfl, List.forall_mem_singleton.mpr rfl⟩⟩,
      .plain rfl (.plain rfl (.plain rfl .nil))⟩
  refine executeText_sequence hinput rfl (List.cons_ne_nil _ _) ?_ _ _ _
  have hcommands : listCommands (refList ([(wordItem (str "ls"), ([] : Str))].map fun i => i.1.token)
      .eof) = [⟨[str "ls"], [], []⟩] := rfl
  rw [hcommands]
  have hliteral : ∀ c ∈ str "ls", c ∉ [chr '~', chr '$', chr '\\', chr '\'', chr '"'] :=
    @of_decide_eq_true _ (List.decidableBAll _ _) rfl
  exact List.forall_mem_singleton.mpr
    ⟨rfl, List.forall_mem_singleton.mpr hliteral, List.forall_mem_nil _⟩

end Shell.Exec
