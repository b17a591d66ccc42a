import Shell.CaptureOutput
import Shell.ExecSequence
import Shell.JoinRoundTrip
import Shell.NestedSubstitution
import Shell.QuotedArguments
import Shell.ShellHost
import Shell.WordSegments

/-! # Lines that call a builtin

From the text of a line to the call: a line of plain and single-quoted words reaches its
builtin with these words, at the prompt as in the body of a substitution. So what
`complete -p` prints can be typed, and `$(echo ..)` is what it is given. -/
namespace Shell.Builtins
open Shell.CTypes Shell.Tokenlist Shell.Parsetypes Shell.Lexer Shell.Parser Shell.Expand Shell.Exec
open Shell.Lib
open Shell.QuotedArguments Shell.Completion Shell.CaptureOutput Shell.Lib.Traverse
open Shell.JoinRoundTrip (PlainText wordItem_valid_of_plain plainText_of_word)
open Shell.Variables (isalpha isalnum validVariableName validVariableStart htPut varTableCheck)
open Shell.NestedSubstitution (substitution)

variable {ω : Type}

/-! ## Words as they are typed -/

/-- What a piece of a word stands for. -/
def pieceText : Piece → Str
  | .plain c => [c]
  | .quoted _ body => body

/-- The lexer takes the piece as one, and the expansion finds nothing in it to expand. -/
def WritablePiece : Piece → Prop
  | .plain c => PlainByte c ∧ c ≠ chr '~'
  | .quoted flag body => (Piece.quoted flag body).Valid ∧
      (flag = .doubleQuoted → ∀ c ∈ body, c ∉ [chr '\\', chr '$'])

/-- A word of plain, single-quoted and double-quoted pieces. -/
abbrev Arg := List Piece

def argText (arg : Arg) : Str := arg.flatMap pieceText

structure Writable (arg : Arg) : Prop where
  ne_nil : arg ≠ []
  pieces : ∀ piece ∈ arg, WritablePiece piece

def plainArg (text : Str) : Arg := text.map .plain

def line (args : List Arg) : Str := [chr ' '].intercalate (args.map wordBytes)

/-- A command of these words. -/
abbrev calling (words : List Str) : Command := { argv := words, assignmentList := [], redirs := [] }

variable {arg : Arg} {args : List Arg} {name : Str}

theorem wordBytes_plainArg (text : Str) : wordBytes (plainArg text) = text := wordItem_bytes text

theorem argText_plainArg (text : Str) : argText (plainArg text) = text := by
  simp [argText, plainArg, pieceText, List.flatMap_map]

theorem writable_plainArg {text : Str} (h : PlainText text) (htilde : chr '~' ∉ text) :
    Writable (plainArg text) := by
  refine ⟨by simpa [plainArg] using h.ne_nil, List.forall_mem_map.mpr fun c hc => ?_⟩
  exact ⟨h.plain c hc, fun heq => htilde (heq ▸ hc)⟩

theorem valid_of_writable (h : Writable arg) : (Item.word arg).Valid := by
  refine ⟨h.ne_nil, fun piece hpiece => ?_⟩
  have hp := h.pieces piece hpiece
  cases piece with
  | plain c => exact hp.1
  | quoted flag body => exact hp.1

theorem nulFree_argText (h : Writable arg) : NulFree (argText arg) := by
  intro c hc
  obtain ⟨piece, hpiece, hc⟩ := List.mem_flatMap.mp hc
  have hp := h.pieces piece hpiece
  cases piece with
  | plain d =>
    obtain rfl := List.mem_singleton.mp hc
    exact fun hzero => hp.1.not_special (by simp [hzero])
  | quoted flag body => exact (hp.1.2 c hc).2.1

theorem render_words (args : List Arg) :
    render (singleSpaced (args.map Item.word)) = line args := by
  rw [render_singleSpaced, List.map_map, line]
  rfl

theorem lexAndParse_line (beyond : Nat → UInt8)
    (hargs : ∀ arg ∈ plainArg name :: args, Writable arg) (hname : chr '=' ∉ name) :
    lexAndParse beyond (line (plainArg name :: args)) =
      .ok (some (singleCommand (calling ((plainArg name :: args).map wordBytes)))) := by
  have htoken : ∀ arg : Arg, (Item.word arg).token = ⟨wordType (wordBytes arg), wordBytes arg, 0⟩ :=
    fun _ => rfl
  have htokens : (singleSpaced ((plainArg name :: args).map Item.word)).map (·.1.token) =
      (Item.word (plainArg name)).token :: args.map fun arg => (Item.word arg).token := by
    rw [map_singleSpaced, List.map_map]
    rfl
  have hfirst : (Item.word (plainArg name)).token.type = .word := by
    rw [htoken, wordBytes_plainArg]
    exact if_neg hname
  have hwords : ∀ t ∈ args.map fun arg => (Item.word arg).token, isWordTok t.type = true :=
    List.forall_mem_map.mpr fun _ _ => isWordTok_wordType _
  have hall : ∀ t ∈ (Item.word (plainArg name)).token :: args.map fun arg => (Item.word arg).token,
      isWordTok t.type = true :=
    List.forall_mem_cons.mpr ⟨by rw [hfirst]; rfl, hwords⟩
  have hvalid : ∀ i ∈ singleSpaced ((plainArg name :: args).map Item.word), i.1.Valid :=
    forall_singleSpaced (List.forall_mem_map.mpr fun arg harg => valid_of_writable (hargs arg harg))
  have hparse := lexAndParse_render beyond hvalid (spaced_singleSpaced _)
    (by rw [htokens]; exact fun t ht => (isWordTok_not (hall t ht)).2.2.2.2)
    (by rw [htokens]; exact targeted_words fun t ht => (isWordTok_not (hall t ht)).1)
  have hvalues : ((Item.word (plainArg name)).token ::
      args.map fun arg => (Item.word arg).token).map Token.value =
      (plainArg name :: args).map wordBytes := by
    simp [htoken]
  rw [← render_words, hparse, htokens, refList_words hfirst hwords, hvalues]

/-! ## The call -/

section Call
variable {σ : Type} {env : Env σ} {host : Host σ} {s : σ}

/-- A text between quotes, in which every byte stands for itself. -/
theorem expandFrom_quoted {len : Nat} {flag : QuoteFlag} (hflag : flag ≠ .unquoted) {l : Str}
    (h : ∀ c ∈ l, Spells exact env len flag s [c] c) (i sb : Str) :
    expandFrom exact env len ⟨quoteByte flag :: (l ++ quoteByte flag :: i), .unquoted, sb, s⟩ =
      expandFrom exact env len ⟨i, .unquoted, sb ++ l, s⟩ := by
  have htext := @expandFrom_spelled _ σ exact env len flag s (fun c => [c]) l h
    (quoteByte flag :: i) sb
  rw [List.flatMap_singleton', exact_foldlM, Option.bind_some] at htext
  cases flag with
  | unquoted => exact absurd rfl hflag
  | singleQuoted => exact (expandFrom_of_inl rfl).trans (htext.trans (expandFrom_of_inl rfl))
  | doubleQuoted => exact (expandFrom_of_inl rfl).trans (htext.trans (expandFrom_of_inl rfl))

theorem expandFrom_piece {len : Nat} {piece : Piece} (h : WritablePiece piece) (i sb : Str) :
    expandFrom exact env len ⟨piece.bytes ++ i, .unquoted, sb, s⟩ =
      expandFrom exact env len ⟨i, .unquoted, sb ++ pieceText piece, s⟩ := by
  cases piece with
  | plain c =>
    have hspecial := h.1.not_special
    refine expandFrom_append (spells_plain (fun hmem => ?_) sb i)
    have hsub : [chr '$', chr '\\', chr '\'', chr '"'] ⊆
        [chr '\'', chr '"', chr '\\', chr '$', chr '`', 0, 255] := by decide
    exact (List.mem_cons.mp hmem).elim h.2 fun hmem => hspecial (hsub hmem)
  | quoted flag body =>
    obtain ⟨⟨hflag, hbytes⟩, hdouble⟩ := h
    have htext : (Piece.quoted flag body).bytes ++ i =
        quoteByte flag :: (body ++ quoteByte flag :: i) := by simp [Piece.bytes]
    rw [htext, expandFrom_quoted hflag fun c hc => ?_]
    · rfl
    cases flag with
    | unquoted => exact absurd rfl hflag
    | singleQuoted => exact spells_single (hbytes c hc).1
    | doubleQuoted =>
      exact spells_double fun hmem =>
        (List.mem_cons.mp hmem).elim (hbytes c hc).1 (hdouble rfl c hc)

/-- Such a word is expanded to what its pieces stand for. -/
theorem expandWord_written (h : Writable arg) :
    expandWord exact env (wordBytes arg) s = some (argText arg, s) := by
  have hfrom : ∀ (len : Nat) (arg : Arg) (sb : Str), (∀ piece ∈ arg, WritablePiece piece) →
      expandFrom exact env len ⟨wordBytes arg, .unquoted, sb, s⟩ = some (sb ++ argText arg, s) := by
    intro len arg
    induction arg with
    | nil =>
      intro sb _
      rw [show argText [] = [] from rfl, List.append_nil]
      exact expandFrom_nil sb
    | cons piece arg ih =>
      intro sb hpieces
      obtain ⟨hpiece, hpieces⟩ := List.forall_mem_cons.mp hpieces
      have hbytes : wordBytes (piece :: arg) = piece.bytes ++ wordBytes arg := rfl
      have htext : argText (piece :: arg) = pieceText piece ++ argText arg := rfl
      rw [hbytes, expandFrom_piece hpiece, ih _ hpieces, htext, List.append_assoc]
  exact hfrom _ arg [] h.pieces

/-- A list of one command runs it. -/
theorem executeListLoop_single (command : Command) (status : Int) :
    executeListLoop host (executePipeline host) status (singleCommand command).elements s =
      executePipeline host { size := 1, commands := [command] } s := by
  have hrun : runAndor (executePipeline host)
      { count := 1, elements := [⟨{ size := 1, commands := [command] }, .none⟩] } s =
      executePipeline host { size := 1, commands := [command] } s := by
    simp only [runAndor, Andor.executeAndor, Andor.executeAndorLoop, lifted]
    cases executePipeline host { size := 1, commands := [command] } s <;> rfl
  simp only [singleCommand, executeListLoop, runElement, hrun]
  cases executePipeline host { size := 1, commands := [command] } s <;> rfl

/-- The list of such a line runs the command that its words are. -/
theorem executeList_line (hargs : ∀ arg ∈ args, Writable arg) :
    executeList exact env host (singleCommand (calling (args.map wordBytes))) s =
      executePipeline host { size := 1, commands := [calling (args.map argText)] } s := by
  have hmap : mapState (expandWord exact env) (args.map wordBytes) s =
      some (args.map argText, s) := by
    induction args with
    | nil => rfl
    | cons arg args ih =>
      obtain ⟨harg, hargs⟩ := List.forall_mem_cons.mp hargs
      rw [List.map_cons, mapState, expandWord_written harg, Option.bind_some, ih hargs]
      rfl
  rw [executeList, expandList_single hmap]
  exact executeListLoop_single _ 0

end Call

section Line
variable {system : System ω} {f : Function} {env : Env (ShellState ω)} {s : ShellState ω}

theorem executePipeline_builtin (hmem : ⟨name, f⟩ ∈ builtins) (words : List Str) :
    executePipeline (shellHost system).toHost { size := 1, commands := [calling (name :: words)] } s =
      f.call system.toWorld (name :: words) s := by
  have hfind : findBuiltin name = some ⟨name, f⟩ := (findBuiltin_eq_some_iff name _).mpr ⟨hmem, rfl⟩
  simp [executePipeline, checkCommand, isBuiltin, shellHost, executeBuiltin, hfind]

/-- A word that the table has is typed as it is. -/
theorem writable_name (hmem : ⟨name, f⟩ ∈ builtins) :
    Writable (plainArg name) ∧ chr '=' ∉ name := by
  have hletters : ∀ cmd ∈ builtins, cmd.name ≠ [] ∧ cmd.name.all isalpha = true := by decide
  obtain ⟨hne, hall⟩ := hletters _ hmem
  have halpha := List.all_eq_true.mp hall
  have hplain : PlainText name := plainText_of_word hne fun c hc =>
    .inl (.inl (by simp [isalnum, halpha c hc]))
  exact ⟨writable_plainArg hplain fun hc => Bool.false_ne_true (halpha _ hc),
    fun hc => Bool.false_ne_true (halpha _ hc)⟩

theorem executeList_call (hmem : ⟨name, f⟩ ∈ builtins) (hargs : ∀ arg ∈ args, Writable arg) :
    executeList exact env (shellHost system).toHost
        (singleCommand (calling ((plainArg name :: args).map wordBytes))) s =
      f.call system.toWorld (name :: args.map argText) s := by
  have hall := List.forall_mem_cons.mpr ⟨(writable_name hmem).1, hargs⟩
  rw [executeList_line hall, List.map_cons, argText_plainArg, executePipeline_builtin hmem]

/-- A line of a builtin's name and any words calls the builtin with these words. -/
theorem executeText_line (hmem : ⟨name, f⟩ ∈ builtins) (hargs : ∀ arg ∈ args, Writable arg) :
    executeText exact env (shellHost system).toHost (line (plainArg name :: args)) s =
      f.call system.toWorld (name :: args.map argText) s := by
  obtain ⟨hname, heq⟩ := writable_name hmem
  have hall := List.forall_mem_cons.mpr ⟨hname, hargs⟩
  rw [executeText, lexAndParse_line _ hall heq]
  exact executeList_call hmem hargs

/-! ## `$(echo ..)` -/

theorem echoLoop_eq {words : List Str} (hne : words ≠ []) :
    echoLoop words = [chr ' '].intercalate words ++ [chr '\n'] := by
  induction words using echoLoop.induct with
  | case1 => exact absurd rfl hne
  | case2 word => simp [echoLoop, str, List.intercalate]
  | case3 word rest hrest ih =>
    obtain ⟨next, rest, rfl⟩ := List.exists_cons_of_ne_nil hrest
    rw [echoLoop, ih (List.cons_ne_nil next rest), List.intercalate_cons_cons]
    · simp [str]
    · exact hrest

theorem nulFree_echoLoop {words : List Str} (h : ∀ word ∈ words, NulFree word) :
    NulFree (echoLoop words) := by
  induction words using echoLoop.induct with
  | case1 => exact nulFree_nil
  | case2 word => exact nulFree_append (h word List.mem_cons_self) (by decide)
  | case3 word rest hrest ih =>
    rw [echoLoop]
    · exact nulFree_append (nulFree_append (h word List.mem_cons_self) (by decide))
        (ih fun x hx => h x (List.mem_cons_of_mem _ hx))
    · exact hrest

theorem captureListOutput_reads {host : Host (ShellState ω)} {run : Run (ShellState ω)}
    {t : ShellState ω} {reads : List Str} (h : host.captured run s = some (reads, t)) :
    captureListOutput exact host run s = some (dropNewlines (kept reads), t) := by
  rw [← captured_eq host run t reads, captured, captureListOutput, captureListOutput, h]

theorem expandWord_substitution {σ : Type} {env : Env σ} {body : Str} (hclose : chr ')' ∉ body)
    (s : σ) : expandWord exact env (substitution body) s = env.cmdsub body s := by
  have hdollar : expandDollarsign exact env (chr '(' :: (body ++ [chr ')'])) s [] =
      (env.cmdsub body s).map fun r => ([], r.1, r.2) := by
    rw [expandDollarsign, if_pos rfl]
    simp only [expandCmdsub, scanTo_append hclose]
    cases env.cmdsub body s <;> rfl
  have hround : expandBody exact env (substitution body).length
      ⟨substitution body, .unquoted, [], s⟩ =
      goOn ((env.cmdsub body s).map fun r => ⟨[], .unquoted, r.1, r.2⟩) := by
    have hbody : expandBody exact env (substitution body).length
        ⟨substitution body, .unquoted, [], s⟩ =
        goOn (dollarOne exact env ⟨substitution body, .unquoted, [], s⟩
          (chr '(' :: (body ++ [chr ')']))) := rfl
    rw [hbody, dollarOne, hdollar, Option.map_map]
    rfl
  rw [Expand.expandWord_eq]
  cases hsub : env.cmdsub body s with
  | none =>
    rw [hsub] at hround
    exact Loop.exec_of_inr _ hround
  | some r =>
    rw [hsub] at hround
    exact (expandFrom_of_inl hround).trans (expandFrom_nil _)

/-- The child of `$(echo ..)` when it is done. -/
def echoed (s : ShellState ω) (world : ω) (args : List Arg) : ShellState ω :=
  { s with out := echoLoop (args.map argText), world := world }

/-- **`$(echo ..)` is what `echo` is given**, with blanks between its words, however the
output is cut into reads; of newlines at the end of the last word nothing is left. -/
theorem expandWord_echo (depth : Nat) (hne : args ≠ []) (hargs : ∀ arg ∈ args, Writable arg)
    (hclose : chr ')' ∉ line (plainArg (str "echo") :: args)) {world : ω}
    (hfork : system.fork s.world = some world) (cut : Cut (echoLoop (args.map argText)))
    (hreads : (system.reads (some (0, echoed s world args)) s.world).1 = cut.reads) :
    ∃ text, expandWord exact (shellEnv exact (shellHost system).toHost (depth + 1))
        (substitution (line (plainArg (str "echo") :: args))) s =
          some (text, { s with world := (system.reads (some (0, echoed s world args)) s.world).2 }) ∧
      Trimmed ([chr ' '].intercalate (args.map argText)) text := by
  have hmem : (⟨str "echo", .echo⟩ : BuiltinCmd) ∈ builtins := by decide
  obtain ⟨hname, heq⟩ := writable_name hmem
  have hall := List.forall_mem_cons.mpr ⟨hname, hargs⟩
  have hforked : (shellHost system).forked s = some { s with out := [], world := world } := by
    rw [show (shellHost system).forked s = system.forked s from rfl, System.forked, hfork]
    rfl
  have hrun : executeList exact (shellEnv exact (shellHost system).toHost depth)
      (shellHost system).toHost
      (singleCommand (calling ((plainArg (str "echo") :: args).map wordBytes)))
      { s with out := [], world := world } = some (0, echoed s world args) :=
    executeList_call hmem hargs
  have hcaptured : (shellHost system).captured
      (executeListPtr exact (shellEnv exact (shellHost system).toHost depth) (shellHost system).toHost
        (some (singleCommand (calling ((plainArg (str "echo") :: args).map wordBytes))))) s =
      some (system.reading (some (0, echoed s world args)) s) := by
    rw [(shellHost system).captured_eq, hforked]
    exact congrArg (fun r => some (system.reading r s)) hrun
  rw [expandWord_substitution hclose, shellEnv_cmdsub, lexAndParse_line _ hall heq]
  simp only
  have hnul : NulFree (echoLoop (args.map argText)) :=
    nulFree_echoLoop (List.forall_mem_map.mpr fun arg harg => nulFree_argText (hargs arg harg))
  have hkept : kept cut.reads = [chr ' '].intercalate (args.map argText) ++ [chr '\n'] := by
    rw [← echoLoop_eq (mt List.map_eq_nil_iff.mp hne), kept_of_nulFree (cut.whole.symm ▸ hnul),
      cut.whole]
  refine ⟨dropNewlines (kept cut.reads), captureListOutput_reads (hcaptured.trans ?_), ?_⟩
  · rw [System.reading, ← hreads]
  · have hnewline : dropNewlines [chr '\n'] = [] := dropNewlines_singleton _
    rw [hkept, dropNewlines_append, if_pos hnewline]
    exact dropNewlines_trimmed _

/-- `$(echo 'a b' c)`, read at once. -/
theorem expandWord_echo_words :
    ∃ text, expandWord exact (shellEnv exact (shellHost bareSystem).toHost 1)
        (substitution (line [plainArg (str "echo"), [.quoted .singleQuoted (str "a b")],
          plainArg (str "c")])) startShell = some (text, startShell) ∧
      Trimmed (str "a b c") text := by
  have hplain : PlainText (str "c") :=
    plainText_of_word (List.cons_ne_nil _ _) (List.forall_mem_singleton.mpr (.inl (.inl rfl)))
  have hquoted : Writable [.quoted .singleQuoted (str "a b")] :=
    ⟨List.cons_ne_nil _ _, List.forall_mem_singleton.mpr
      ⟨⟨nofun, @of_decide_eq_true _ (List.decidableBAll _ _) rfl⟩, nofun⟩⟩
  have hargs : ∀ arg ∈ [[.quoted .singleQuoted (str "a b")], plainArg (str "c")], Writable arg :=
    List.forall_mem_cons.mpr ⟨hquoted,
      List.forall_mem_singleton.mpr (writable_plainArg hplain (by decide))⟩
  exact @expandWord_echo _ [[.quoted .singleQuoted (str "a b")], plainArg (str "c")] bareSystem
    startShell 0 (List.cons_ne_nil _ _) hargs (by decide) () rfl
    ⟨[str "a b c\n"], rfl, List.forall_mem_singleton.mpr (by decide)⟩ rfl

/-! ## What `complete -p` prints, typed -/

/-- The line of an entry. -/
def completionLine (entry : CompletionRegistration) : Str :=
  str "complete -C '" ++ entry.scriptPath ++ str "' " ++ entry.command

/-- An entry whose line is read as it is meant. -/
structure Restorable (entry : CompletionRegistration) : Prop where
  command : PlainText entry.command ∧ chr '~' ∉ entry.command
  scriptPath : Quotable entry.scriptPath

def completionArgs (entry : CompletionRegistration) : List Arg :=
  [plainArg (str "-C"), [.quoted .singleQuoted entry.scriptPath], plainArg entry.command]

theorem line_completionArgs (entry : CompletionRegistration) :
    line (plainArg (str "complete") :: completionArgs entry) = completionLine entry := by
  have hquoted : wordBytes [.quoted .singleQuoted entry.scriptPath] =
      chr '\'' :: (entry.scriptPath ++ [chr '\'']) := by simp [wordBytes, Piece.bytes, quoteByte]
  simp [line, completionArgs, completionLine, wordBytes_plainArg, hquoted, List.intercalate, str]

theorem argText_completionArgs (entry : CompletionRegistration) :
    (completionArgs entry).map argText = [str "-C", entry.scriptPath, entry.command] := by
  have hquoted : argText [.quoted .singleQuoted entry.scriptPath] = entry.scriptPath := by
    simp [argText, pieceText]
  simp only [completionArgs, List.map_cons, List.map_nil, argText_plainArg, hquoted]

theorem writable_option {option : Str} (h : option ∈ [str "-C", str "-p", str "--"]) :
    Writable (plainArg option) := by
  have hoptions : ∀ option ∈ [str "-C", str "-p", str "--"], option ≠ [] ∧ chr '~' ∉ option ∧
      (option.all fun c => isalpha c || c == chr '-') = true := by decide
  obtain ⟨hne, htilde, hall⟩ := hoptions option h
  refine writable_plainArg (plainText_of_word hne fun c hc => ?_) htilde
  rcases Bool.or_eq_true_iff.mp (List.all_eq_true.mp hall c hc) with halpha | hdash
  · exact .inl (.inl (by simp [isalnum, halpha]))
  · exact .inr (by simp [beq_iff_eq.mp hdash])

theorem writable_completionArgs {entry : CompletionRegistration} (h : Restorable entry) :
    ∀ arg ∈ completionArgs entry, Writable arg := by
  have hpath : Writable [.quoted .singleQuoted entry.scriptPath] :=
    ⟨List.cons_ne_nil _ _, List.forall_mem_singleton.mpr
      ⟨⟨nofun, fun c hc => ⟨(h.scriptPath c hc).2.1, (h.scriptPath c hc).1, (h.scriptPath c hc).2.2⟩⟩,
        nofun⟩⟩
  exact List.forall_mem_cons.mpr ⟨writable_option (by simp), List.forall_mem_cons.mpr
    ⟨hpath, List.forall_mem_singleton.mpr (writable_plainArg h.command.1 h.command.2)⟩⟩

theorem lookupCompletion_of_mem {r : Registry} (h : BoundedMap r) {entry : CompletionRegistration}
    (hentry : entry ∈ entries r) : lookupCompletion r entry.command = some entry.scriptPath := by
  obtain ⟨before, after, hsplit⟩ := List.append_of_mem hentry
  have hdistinct := h.distinct
  rw [commands, hsplit, List.map_append, List.map_cons] at hdistinct
  have hbefore : ∀ x ∈ before, x.command ≠ entry.command := by
    intro x hx heq
    exact (List.nodup_append.mp hdistinct).2.2 _ (List.mem_map_of_mem hx) _ List.mem_cons_self heq
  rw [lookupCompletion_eq_find, hsplit, List.find?_append,
    List.find?_eq_none.mpr fun x hx => by simpa using hbefore x hx]
  simp

/-- Entries that are registered one by one stand in their order behind the others. -/
theorem entries_foldl_register (l : List CompletionRegistration) {r : Registry}
    (hdistinct : (commands r ++ l.map CompletionRegistration.command).Nodup)
    (hroom : r.count + l.length ≤ maxCompletions) :
    entries (l.foldl (fun r entry => registerCompletion r entry.command entry.scriptPath) r) =
      entries r ++ l := by
  induction l generalizing r with
  | nil => simp
  | cons entry l ih =>
    rw [List.map_cons, ← List.singleton_append, ← List.append_assoc] at hdistinct
    rw [List.length_cons] at hroom
    have hnew : entry.command ∉ commands r := fun hmem =>
      (List.nodup_append.mp (List.nodup_append.mp hdistinct).1).2.2 _ hmem _
        List.mem_cons_self rfl
    have hfind : findCommand r entry.command = none :=
      findCommand_eq_none.mpr (Option.not_isSome_iff_eq_none.mp (mt mem_commands_iff.mpr hnew))
    obtain ⟨hcount, hentries⟩ :=
      @registerCompletion_of_none r entry.command entry.scriptPath hfind (by omega)
    have hcommands : commands (registerCompletion r entry.command entry.scriptPath) =
        commands r ++ [entry.command] := by
      rw [commands, hentries, List.map_append]
      rfl
    rw [List.foldl_cons, ih (by rwa [hcommands]) (by omega), hentries, List.append_assoc,
      List.singleton_append]

theorem line_ne_nil (hname : name ≠ []) : line (plainArg name :: args) ≠ [] := by
  cases args with
  | nil => simpa [line, wordBytes_plainArg, List.intercalate] using hname
  | cons arg args =>
    rw [line, List.map_cons, List.map_cons, List.intercalate_cons_cons, wordBytes_plainArg]
    simp [hname]

/-- The round of a line that calls a builtin. -/
theorem replRound_line (hmem : ⟨name, f⟩ ∈ builtins) (hargs : ∀ arg ∈ args, Writable arg) :
    replRound (executeListPtr exact env (shellHost system).toHost) (shellHost system)
        (some (line (plainArg name :: args))) s =
      (f.call system.toWorld (name :: args.map argText)
        ((shellHost system).addHistory (line (plainArg name :: args))
          ((shellHost system).checkBackgroundJobs s))).map Prod.snd := by
  obtain ⟨hname, heq⟩ := writable_name hmem
  have hlex := fun beyond => lexAndParse_line beyond (List.forall_mem_cons.mpr ⟨hname, hargs⟩) heq
  have hne : name ≠ [] := fun h => hname.ne_nil (by rw [h]; rfl)
  cases htext : line (plainArg name :: args) with
  | nil => exact absurd htext (line_ne_nil hne)
  | cons c l =>
    rw [htext] at hlex
    simp only [replRound, hlex]
    exact congrArg _ (executeList_call hmem hargs)

theorem repl_completionLines (depth : Nat) (l : List CompletionRegistration)
    (hl : ∀ entry ∈ l, Restorable entry) :
    ∃ u, repl exact (shellHost system) depth (l.map fun entry => some (completionLine entry)) s =
        some u ∧
      u.registry =
        l.foldl (fun r entry => registerCompletion r entry.command entry.scriptPath) s.registry := by
  induction l generalizing s with
  | nil => exact ⟨s, rfl, rfl⟩
  | cons entry l ih =>
    obtain ⟨hentry, hl⟩ := List.forall_mem_cons.mp hl
    have hmem : (⟨str "complete", .complete⟩ : BuiltinCmd) ∈ builtins := by decide
    have hround := @replRound_line _ (completionArgs entry) _ system _
      (shellEnv exact (shellHost system).toHost depth) s hmem (writable_completionArgs hentry)
    rw [line_completionArgs, argText_completionArgs] at hround
    obtain ⟨u, hrepl, hregistry⟩ := ih hl (s := { (shellHost system).addHistory (completionLine entry)
      ((shellHost system).checkBackgroundJobs s) with
        registry := registerCompletion s.registry entry.command entry.scriptPath })
    refine ⟨u, ?_, hregistry⟩
    rw [List.map_cons, repl, hround]
    exact hrepl

/-- **What `complete -p` prints, restores the registry** when it is typed: in a shell
without completions the lines of all entries leave the same entries in the same order. -/
theorem complete_restores (depth : Nat) {t : ShellState ω} (hs : BoundedMap s.registry)
    (hentries : ∀ entry ∈ entries s.registry, Restorable entry) (ht : t.registry.count = 0) :
    (∀ entry ∈ entries s.registry,
      executeText exact env (shellHost system).toHost (line
          [plainArg (str "complete"), plainArg (str "-p"), plainArg entry.command]) s =
        some (0, s.puts (completionLine entry ++ str "\n"))) ∧
      ∃ u, repl exact (shellHost system) depth
          ((entries s.registry).map fun entry => some (completionLine entry)) t = some u ∧
        entries u.registry = entries s.registry := by
  constructor
  · intro entry hentry
    have hmem : (⟨str "complete", .complete⟩ : BuiltinCmd) ∈ builtins := by decide
    have hcommand := (hentries entry hentry).command
    rw [executeText_line hmem (List.forall_mem_cons.mpr ⟨writable_option (by simp),
      List.forall_mem_singleton.mpr (writable_plainArg hcommand.1 hcommand.2)⟩)]
    simp [Function.call, builtinComplete, argText_plainArg, lookupCompletion_of_mem hs hentry,
      completionLine]
  · obtain ⟨u, hrepl, hregistry⟩ := @repl_completionLines _ system t depth _ hentries
    refine ⟨u, hrepl, ?_⟩
    have hnone : entries t.registry = [] := List.eq_nil_of_length_eq_zero (by rw [length_entries, ht])
    rw [hregistry, entries_foldl_register, hnone, List.nil_append]
    · rw [commands, hnone]
      exact hs.distinct
    · rw [ht, length_entries, Nat.zero_add]
      exact hs.capacity

end Line

/-! ## What `declare -p` prints, typed -/

section Declare
variable {system : System ω} {env : Env (ShellState ω)} {name value : Str}

/-- What `declare -p` prints of a variable. -/
def declaration (name value : Str) : Str :=
  str "declare -- " ++ name ++ str "=\"" ++ value ++ str "\""

/-- `NAME="VALUE"` -/
def settingArg (name value : Str) : Arg :=
  plainArg (name ++ [chr '=']) ++ [.quoted .doubleQuoted value]

/-- A value that stands for itself between double quotes. -/
def DoubleQuotable (value : Str) : Prop := ∀ c ∈ value, c ∉ [chr '"', chr '\\', chr '$', 0, 255]

instance (value : Str) : Decidable (DoubleQuotable value) :=
  List.decidableBAll (fun c => c ∉ [chr '"', chr '\\', chr '$', 0, 255]) value

theorem wordBytes_settingArg (name value : Str) :
    wordBytes (settingArg name value) = name ++ str "=\"" ++ value ++ str "\"" := by
  have hplain := wordBytes_plainArg (name ++ [chr '='])
  rw [wordBytes] at hplain ⊢
  rw [settingArg, List.flatMap_append, hplain]
  simp [Piece.bytes, quoteByte, str]

theorem argText_settingArg (name value : Str) :
    argText (settingArg name value) = name ++ chr '=' :: value := by
  have hplain := argText_plainArg (name ++ [chr '='])
  rw [argText] at hplain ⊢
  rw [settingArg, List.flatMap_append, hplain]
  simp [pieceText]

theorem bytes_of_valid (hname : validVariableName name = true) :
    name ≠ [] ∧ ∀ c ∈ name, isalnum c = true ∨ c = chr '_' := by
  cases name with
  | nil => cases hname
  | cons c rest =>
    simp only [validVariableName, validVariableStart, Bool.and_eq_true, Bool.or_eq_true,
      beq_iff_eq, List.tail_cons, List.all_eq_true] at hname
    refine ⟨List.cons_ne_nil c rest, List.forall_mem_cons.mpr ⟨?_, hname.2⟩⟩
    exact hname.1.imp (fun halpha => by simp [isalnum, halpha]) id

theorem writable_settingArg (hname : validVariableName name = true) (hvalue : DoubleQuotable value) :
    Writable (settingArg name value) := by
  obtain ⟨-, hbytes⟩ := bytes_of_valid hname
  have hplain : PlainText (name ++ [chr '=']) :=
    plainText_of_word (by simp) fun c hc => (List.mem_append.mp hc).elim (fun hc => .inl (hbytes c hc))
      fun hc => .inr (by simp [List.mem_singleton.mp hc])
  have htilde : chr '~' ∉ name ++ [chr '='] := by
    intro hmem
    rcases List.mem_append.mp hmem with hmem | hmem
    · exact (hbytes _ hmem).elim nofun nofun
    · exact nomatch List.mem_singleton.mp hmem
  refine ⟨by simp [settingArg], List.forall_mem_append.mpr ⟨(writable_plainArg hplain htilde).pieces,
    List.forall_mem_singleton.mpr ⟨⟨nofun, fun c hc => ?_⟩, fun _ c hc => ?_⟩⟩⟩
  · have hspecial := hvalue c hc
    simp only [List.mem_cons, List.not_mem_nil, or_false, not_or] at hspecial
    exact ⟨hspecial.1, hspecial.2.2.2.1, hspecial.2.2.2.2⟩
  · have hspecial := hvalue c hc
    simp only [List.mem_cons, List.not_mem_nil, or_false, not_or] at hspecial ⊢
    exact ⟨hspecial.2.1, hspecial.2.2.1⟩

/-- `declare` with a table that is not touched writes nothing. -/
theorem declare_call {argv : List Str} {u : ShellState ω}
    (h : Variables.builtinDeclare argv u.tables = some ⟨0, [], [], u.tables⟩) :
    Function.declare.call system.toWorld argv u = some (0, u) := by
  simp [Function.call, builtinDeclare, h, ShellState.puts, ShellState.eputs]

/-- **What `declare -p` prints declares nothing** when it is typed: `NAME="VALUE"` is bound
and printed as it was typed, but the line that is printed leaves every shell as it is. -/
theorem declare_prints (hname : validVariableName name = true) (hvalue : DoubleQuotable value)
    (s : ShellState ω) :
    ∃ t, executeText exact env (shellHost system).toHost
          (line [plainArg (str "declare"), settingArg name value]) s = some (0, t) ∧
      Variables.declareLookup t.tables name = some value ∧
      executeText exact env (shellHost system).toHost
          (line [plainArg (str "declare"), plainArg (str "-p"), plainArg name]) t =
        some (0, t.puts (declaration name value ++ str "\n")) ∧
      ∀ u, executeText exact env (shellHost system).toHost (declaration name value) u =
        some (0, u) := by
  have hmem : (⟨str "declare", .declare⟩ : BuiltinCmd) ∈ builtins := by decide
  have hsetting := writable_settingArg hname hvalue
  obtain ⟨hne, hbytes⟩ := bytes_of_valid hname
  have hequals : chr '=' ∉ name := fun hc => (hbytes _ hc).elim nofun nofun
  have hplain : Writable (plainArg name) := writable_plainArg
    (plainText_of_word hne fun c hc => .inl (hbytes c hc)) fun hc => (hbytes _ hc).elim nofun nofun
  refine ⟨{ s with tables :=
    { s.tables with expand := some (htPut (varTableCheck s.tables.expand) name value false) } },
    ?_, ?_, ?_, fun u => ?_⟩
  · rw [executeText_line hmem (List.forall_mem_singleton.mpr hsetting)]
    simp [Function.call, builtinDeclare, Variables.builtinDeclare, argText_settingArg,
      scanTo_append hequals, hname, ShellState.puts, ShellState.eputs]
  · simp [Variables.declareLookup, varTableCheck]
  · rw [executeText_line hmem (List.forall_mem_cons.mpr ⟨writable_option (by simp),
      List.forall_mem_singleton.mpr hplain⟩)]
    simp [Function.call, builtinDeclare, Variables.builtinDeclare, argText_plainArg, varTableCheck,
      ShellState.puts, ShellState.eputs, declaration, str]
  · have hline : declaration name value =
        line [plainArg (str "declare"), plainArg (str "--"), settingArg name value] := by
      simp [declaration, line, wordBytes_plainArg, wordBytes_settingArg, List.intercalate, str]
    rw [hline, executeText_line hmem (List.forall_mem_cons.mpr ⟨writable_option (by simp),
      List.forall_mem_singleton.mpr hsetting⟩)]
    refine declare_call ?_
    simp only [List.map_cons, List.map_nil, argText_plainArg]
    rfl

end Declare

/-- `declare x="a b"` -/
theorem declare_prints_x :
    ∃ t, executeText exact (shellEnv exact (shellHost bareSystem).toHost 1)
          (shellHost bareSystem).toHost (str "declare x=\"a b\"") startShell = some (0, t) ∧
      executeText exact (shellEnv exact (shellHost bareSystem).toHost 1)
          (shellHost bareSystem).toHost (str "declare -p x") t =
        some (0, t.puts (str "declare -- x=\"a b\"\n")) ∧
      executeText exact (shellEnv exact (shellHost bareSystem).toHost 1)
          (shellHost bareSystem).toHost (str "declare -- x=\"a b\"") startShell =
        some (0, startShell) := by
  obtain ⟨t, hdeclare, -, hprint, htyped⟩ := @declare_prints _ bareSystem
    (shellEnv exact (shellHost bareSystem).toHost 1) (str "x") (str "a b") rfl (by decide) startShell
  exact ⟨t, hdeclare, hprint, htyped startShell⟩

theorem restorable_git {path : Str} (h : Quotable path) : Restorable ⟨str "git", path⟩ := by
  have hgit : PlainText (str "git") :=
    plainText_of_word (List.cons_ne_nil _ _) fun c hc =>
      .inl (.inl (List.all_eq_true.mp (show (str "git").all isalnum = true from rfl) c hc))
  have htilde : chr '~' ∉ str "git" := by decide
  exact ⟨⟨hgit, htilde⟩, h⟩

/-- One completion, for `git`. -/
theorem complete_restores_git :
    ∃ u, repl exact (shellHost bareSystem) 1 [some (str "complete -C '/opt/c' git")] startShell =
        some u ∧ entries u.registry = [⟨str "git", str "/opt/c"⟩] := by
  have hmap : BoundedMap (registerCompletion startShell.registry (str "git") (str "/opt/c")) :=
    boundedMap_of_distinct (List.nodup_singleton _)
  exact (@complete_restores _ bareSystem (shellEnv exact (shellHost bareSystem).toHost 1)
    { startShell with registry := registerCompletion startShell.registry (str "git") (str "/opt/c") } 1
    startShell hmap (List.forall_mem_singleton.mpr (restorable_git (by decide))) rfl).2

end Shell.Builtins
