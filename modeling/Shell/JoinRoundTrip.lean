import Shell.BracedWord
import Shell.JoinText

/-! # Reading the text of a job back (join_pipeline in jobs.c)

The text of a pipeline is lexed and parsed again. Words, assignments and the order
of everything come back; a descriptor comes back where it is written, or where it is
the one that its operator stands for. -/
namespace Shell.JoinRoundTrip
open Shell.CTypes Shell.Tokenlist Shell.Parsetypes Shell.Lexer Shell.Parser Shell.JoinText
open Shell.Variables Shell.Lib.Separated

/-! ## Inputs and pipelines -/

/-- A word that the lexer takes byte by byte. -/
structure PlainText (w : Str) : Prop where
  ne_nil : w ≠ []
  plain : ∀ c ∈ w, PlainByte c

/-- Words, bars and redirections. -/
def PipelineItem : Item → Prop
  | .word pieces => ∃ w, PlainText w ∧ pieces = w.map Piece.plain
  | .op type => type = .pipe
  | .redir _ type => isRedir type = true

/-- An input of these items, in which a word that is no assignment stands behind every
redirection. -/
structure PipelineInput (items : List (Item × Str)) : Prop where
  allowed : ∀ i ∈ items, PipelineItem i.1
  spaced : Spaced items
  targeted : Targeted (items.map fun i => i.1.token)

/-- One pipeline and nothing else. -/
def singlePipeline (p : Pipeline) : ShList where
  count := 1
  elements := [⟨{ count := 1, elements := [⟨p, .none⟩] }, .none⟩]

/-- The descriptor that an operator stands for. -/
def modeFd : RedirMode → Int
  | .in | .heredoc => 0
  | .out | .append | .err => 1

/-- The descriptor is written, or it is the one that the operator stands for. -/
def FdKept (redirect : Redirect) : Prop := WritesFd redirect ∨ redirect.fd = modeFd redirect.mode

/-- A redirection as its text is read. -/
def rereadRedirect (redirect : Redirect) : Redirect :=
  { redirect with fd := if WritesFd redirect then redirect.fd else modeFd redirect.mode }

def rereadCommand (command : Command) : Command :=
  { command with redirs := command.redirs.map rereadRedirect }

def reread (p : Pipeline) : Pipeline := { p with commands := p.commands.map rereadCommand }

structure PlainRedirect (redirect : Redirect) : Prop where
  target : PlainText redirect.target
  word : chr '=' ∉ redirect.target
  mode : redirect.mode ≠ .err
  digit : ∃ d : Fin 10, redirect.fd = (d : Nat)

structure PlainCommand (command : Command) : Prop where
  assignments : ∀ a ∈ command.assignmentList, PlainText a ∧ chr '=' ∈ a
  args : ∀ w ∈ command.argv, PlainText w
  first : ∀ w ∈ command.argv.head?, chr '=' ∉ w
  redirs : ∀ r ∈ command.redirs, PlainRedirect r

/-- Letters, digits and these marks are such words. -/
theorem plainText_of_word {w : Str} (hne : w ≠ [])
    (h : ∀ c ∈ w, (isalnum c = true ∨ c = chr '_') ∨ c ∈ [chr '.', chr '/', chr '-', chr '=']) :
    PlainText w := by
  refine ⟨hne, fun c hc => ?_⟩
  rcases h c hc with hname | hmark
  · exact BracedWord.plainByte_of_name hname
  · simp only [List.mem_cons, List.not_mem_nil, or_false] at hmark
    rcases hmark with rfl | rfl | rfl | rfl <;> exact ⟨by decide, by decide, by decide⟩

/-! ## The items of a text -/

def redirTok : RedirMode → TokenType
  | .in => .redirIn
  | .out => .redirOut
  | .append => .redirAppend
  | .heredoc => .redirHeredoc
  | .err => .err

def redirItem (redirect : Redirect) : Item :=
  .redir (if WritesFd redirect then some (Fin.ofNat 10 redirect.fd.toNat) else none)
    (redirTok redirect.mode)

def redirItems (redirs : List Redirect) : List Item :=
  redirs.flatMap fun r => [redirItem r, wordItem r.target]

def commandItems (command : Command) : List Item :=
  command.assignmentList.map wordItem ++ command.argv.map wordItem ++ redirItems command.redirs

def pipelineItems : List Command → List Item
  | [] => []
  | [command] => commandItems command
  | command :: next :: rest => commandItems command ++ .op .pipe :: pipelineItems (next :: rest)

/-- Every item with a blank behind it, the last one included. -/
def blanked (l : List Item) : Str := l.flatMap fun item => item.bytes ++ [chr ' ']

theorem intercalate_blank {l : List Str} (h : l ≠ []) :
    [chr ' '].intercalate l ++ [chr ' '] = l.flatMap (· ++ [chr ' ']) := by
  induction l with
  | nil => exact absurd rfl h
  | cons x rest ih =>
    cases rest with
    | nil => simp
    | cons y rest =>
      have hrest := ih (List.cons_ne_nil y rest)
      rw [List.intercalate_cons_cons, List.append_assoc, hrest]
      simp

theorem render_blank {l : List Item} (h : l ≠ []) :
    render (singleSpaced l) ++ [chr ' '] = blanked l := by
  rw [render_singleSpaced, intercalate_blank (mt List.map_eq_nil_iff.mp h), blanked,
    List.flatMap_map]

theorem blanked_append (l l' : List Item) : blanked (l ++ l') = blanked l ++ blanked l' :=
  List.flatMap_append

theorem blanked_words (l : List Str) : blanked (l.map wordItem) = l.flatMap (· ++ [chr ' ']) := by
  simp [blanked, List.flatMap_map, wordItem_bytes]

/-! ## The printed text is these items -/

variable {redirect : Redirect} {command : Command}

theorem decimal_digit (d : Fin 10) : str (toString ((d : Nat) : Int)) = [digitByte d] := by
  revert d
  decide

theorem operatorText_redirTok (h : redirect.mode ≠ .err) :
    operatorText (redirTok redirect.mode) = modeText redirect.mode := by
  cases hmode : redirect.mode with
  | err => exact absurd hmode h
  | «in» | out | append | heredoc => rfl

theorem redirectText_eq (h : PlainRedirect redirect) :
    redirectText redirect = (redirItem redirect).bytes ++ [chr ' '] ++ redirect.target := by
  obtain ⟨d, hd⟩ := h.digit
  have hdigit : Fin.ofNat 10 redirect.fd.toNat = d := by
    rw [hd, Int.toNat_natCast, Fin.ofNat_val_eq_self]
  by_cases hwrites : WritesFd redirect
  · rw [redirectText, redirItem, if_pos hwrites, if_pos hwrites, hdigit, Item.bytes,
      operatorText_redirTok h.mode, hd, decimal_digit]
    rfl
  · rw [redirectText, redirItem, if_neg hwrites, if_neg hwrites, Item.bytes,
      operatorText_redirTok h.mode, List.nil_append]

theorem blanked_redirItems {redirs : List Redirect} (h : ∀ r ∈ redirs, PlainRedirect r) :
    (redirs.map redirectText).flatMap (· ++ [chr ' ']) = blanked (redirItems redirs) := by
  induction redirs with
  | nil => rfl
  | cons r rest ih =>
    obtain ⟨hr, hrest⟩ := List.forall_mem_cons.mp h
    have hitems : redirItems (r :: rest) = [redirItem r, wordItem r.target] ++ redirItems rest := rfl
    rw [List.map_cons, List.flatMap_cons, ih hrest, hitems, blanked_append, redirectText_eq hr]
    simp [blanked, wordItem_bytes]

theorem commandText_blank (h : PlainCommand command) (hargs : command.argv ≠ []) :
    commandText command ++ [chr ' '] = blanked (commandItems command) := by
  rw [commandItems, blanked_append, blanked_append, blanked_words, blanked_words,
    ← intercalate_blank hargs, ← blanked_redirItems h.redirs, commandText]
  cases hredirs : command.redirs with
  | nil => simp
  | cons r rest =>
    have hne : (r :: rest).map redirectText ≠ [] := List.cons_ne_nil _ _
    have hpos : (r :: rest).length > 0 := Nat.succ_pos _
    rw [← intercalate_blank hne, if_pos hpos]
    simp only [List.append_assoc]

theorem commandsText_blank {commands : List Command} (h : ∀ c ∈ commands, PlainCommand c)
    (hargs : ∀ c ∈ commands, c.argv ≠ []) (hne : commands ≠ []) :
    (str " | ").intercalate (commands.map commandText) ++ [chr ' '] =
      blanked (pipelineItems commands) := by
  induction commands using pipelineItems.induct with
  | case1 => exact absurd rfl hne
  | case2 command =>
    simpa [pipelineItems] using commandText_blank (h command (by simp)) (hargs command (by simp))
  | case3 command next rest ih =>
    obtain ⟨hplain, hrest⟩ := List.forall_mem_cons.mp h
    obtain ⟨hargv, hargvs⟩ := List.forall_mem_cons.mp hargs
    have htail := ih hrest hargvs (List.cons_ne_nil next rest)
    have hbar : blanked (Item.op .pipe :: pipelineItems (next :: rest)) =
        str "| " ++ blanked (pipelineItems (next :: rest)) := rfl
    have hsep : str " | " = [chr ' '] ++ str "| " := rfl
    rw [pipelineItems, blanked_append, ← commandText_blank hplain hargv, hbar, ← htail,
      List.map_cons, List.map_cons, List.intercalate_cons_cons, hsep]
    simp only [List.append_assoc]

theorem pipelineItems_ne_nil {commands : List Command} (hargs : ∀ c ∈ commands, c.argv ≠ [])
    (hne : commands ≠ []) : pipelineItems commands ≠ [] := by
  cases commands with
  | nil => exact absurd rfl hne
  | cons command rest =>
    have hargv := hargs command (by simp)
    cases rest with
    | nil => simp [pipelineItems, commandItems, hargv]
    | cons next rest => simp [pipelineItems]

/-- The text of a pipeline, as the lexer takes it. -/
theorem pipelineText_eq_render {p : Pipeline} (hplain : ∀ c ∈ p.commands, PlainCommand c)
    (hargs : ∀ c ∈ p.commands, c.argv ≠ []) (hne : p.commands ≠ []) :
    pipelineText p = render (singleSpaced (pipelineItems p.commands)) := by
  have htext : pipelineText p = (str " | ").intercalate (p.commands.map commandText) := by
    rw [pipelineText, joinPipeline, joinLoop_eq commandText joinCommand_eq, List.nil_append]
  have hblank := commandsText_blank hplain hargs hne
  rw [← render_blank (pipelineItems_ne_nil hargs hne), ← htext] at hblank
  exact List.append_cancel_right hblank

/-! ## What the parser makes of the items -/

theorem isAssignment_wordItem (w : Str) :
    isAssignment (wordItem w).token = decide (chr '=' ∈ w) := by
  rw [wordItem_token, isAssignment, wordType]
  by_cases hmem : chr '=' ∈ w
  · rw [if_pos hmem, decide_eq_true hmem]
    rfl
  · rw [if_neg hmem, decide_eq_false hmem]
    rfl

theorem map_value_wordItem (l : List Str) :
    (l.map fun w => (wordItem w).token).map Token.value = l := by
  rw [List.map_map]
  refine List.map_id'' (fun w => ?_) l
  rw [Function.comp_apply, wordItem_token]

theorem words_append (l : List Str) (tokens : List Token) :
    plainWords ((l.map fun w => (wordItem w).token) ++ tokens) =
        (l.map fun w => (wordItem w).token) ++ plainWords tokens ∧
      redirections ((l.map fun w => (wordItem w).token) ++ tokens) = redirections tokens := by
  induction l with
  | nil => exact ⟨rfl, rfl⟩
  | cons w rest ih =>
    have hredir : isRedirect (wordItem w).token.type = false := by
      rw [wordItem_token]
      exact (isWordTok_not (isWordTok_wordType w)).1
    rw [List.map_cons, List.cons_append, plainWords_cons hredir, redirections_cons hredir, ih.1,
      ih.2]
    exact ⟨rfl, rfl⟩

theorem redirTok_redir (h : redirect.mode ≠ .err) :
    isRedirect (redirTok redirect.mode) = true ∧
      fromRedirTok (redirTok redirect.mode) = redirect.mode ∧
      defaultFd (redirTok redirect.mode) = modeFd redirect.mode := by
  cases hmode : redirect.mode with
  | err => exact absurd hmode h
  | «in» | out | append | heredoc => exact ⟨rfl, rfl, rfl⟩

/-- A redirection is read with the descriptor that its text has. -/
theorem redirItem_token (h : PlainRedirect redirect) :
    isRedirect (redirItem redirect).token.type = true ∧
      ({ fd := (redirItem redirect).token.fd,
         mode := fromRedirTok (redirItem redirect).token.type,
         target := redirect.target } : Redirect) = rereadRedirect redirect := by
  obtain ⟨hredir, hmode, hfd⟩ := redirTok_redir h.mode
  obtain ⟨d, hd⟩ := h.digit
  have hdigit : Fin.ofNat 10 redirect.fd.toNat = d := by
    rw [hd, Int.toNat_natCast, Fin.ofNat_val_eq_self]
  by_cases hwrites : WritesFd redirect
  · rw [redirItem, if_pos hwrites, Item.token, rereadRedirect, if_pos hwrites]
    refine ⟨hredir, ?_⟩
    rw [hmode, hdigit, ← hd]
  · rw [redirItem, if_neg hwrites, Item.token, rereadRedirect, if_neg hwrites]
    refine ⟨hredir, ?_⟩
    rw [hmode, hfd]

theorem redirItems_tokens {redirs : List Redirect} (h : ∀ r ∈ redirs, PlainRedirect r) :
    plainWords ((redirItems redirs).map Item.token) = [] ∧
      redirections ((redirItems redirs).map Item.token) = redirs.map rereadRedirect := by
  induction redirs with
  | nil => exact ⟨rfl, rfl⟩
  | cons r rest ih =>
    obtain ⟨hr, hrest⟩ := List.forall_mem_cons.mp h
    obtain ⟨hredir, hread⟩ := redirItem_token hr
    have htokens : (redirItems (r :: rest)).map Item.token =
        (redirItem r).token :: (wordItem r.target).token :: (redirItems rest).map Item.token := rfl
    rw [htokens, plainWords, redirections, if_pos hredir, if_pos hredir, (ih hrest).1, (ih hrest).2,
      List.map_cons, ← hread, wordItem_token]
    exact ⟨rfl, rfl⟩

theorem refCommand_commandItems (h : PlainCommand command) :
    refCommand ((commandItems command).map Item.token) = rereadCommand command := by
  obtain ⟨hplain, hredirs⟩ := redirItems_tokens h.redirs
  have htokens : (commandItems command).map Item.token =
      (command.assignmentList.map fun w => (wordItem w).token) ++
        ((command.argv.map fun w => (wordItem w).token) ++
          (redirItems command.redirs).map Item.token) := by
    simp only [commandItems, List.map_append, List.map_map, List.append_assoc]
    rfl
  obtain ⟨hassign, hassignRedirs⟩ := words_append command.assignmentList
    ((command.argv.map fun w => (wordItem w).token) ++ (redirItems command.redirs).map Item.token)
  obtain ⟨hargv, hargvRedirs⟩ := words_append command.argv
    ((redirItems command.redirs).map Item.token)
  have hall : ∀ t ∈ command.assignmentList.map fun w => (wordItem w).token,
      isAssignment t = true := by
    intro t ht
    obtain ⟨w, hw, rfl⟩ := List.mem_map.mp ht
    rw [isAssignment_wordItem, decide_eq_true (h.assignments w hw).2]
  have hfirst : ∀ t ∈ (command.argv.map fun w => (wordItem w).token).head?,
      isAssignment t = false := by
    intro t ht
    rw [List.head?_map] at ht
    obtain ⟨w, hw, rfl⟩ := Option.map_eq_some_iff.mp ht
    rw [isAssignment_wordItem, decide_eq_false (h.first w hw)]
  have hcut : (command.argv.map fun w => (wordItem w).token).takeWhile isAssignment = [] ∧
      (command.argv.map fun w => (wordItem w).token).dropWhile isAssignment =
        command.argv.map fun w => (wordItem w).token := by
    cases hwords : command.argv.map fun w => (wordItem w).token with
    | nil => exact ⟨rfl, rfl⟩
    | cons t rest =>
      have ht : isAssignment t = false := hfirst t (by rw [hwords]; rfl)
      simp [ht]
  rw [refCommand, htokens, hassign, hargv, hplain, hassignRedirs, hargvRedirs, hredirs,
    List.append_nil, List.takeWhile_append_of_pos hall, List.dropWhile_append_of_pos hall, hcut.1,
    hcut.2, List.append_nil, map_value_wordItem, map_value_wordItem, rereadCommand]

theorem isCommandTok_of_word {type : TokenType} (h : isWordTok type = true) :
    isCommandTok type = true := Bool.or_eq_true_iff.mpr (.inl h)

theorem isCommandTok_of_redirect {type : TokenType} (h : isRedirect type = true) :
    isCommandTok type = true := Bool.or_eq_true_iff.mpr (.inr h)

theorem isPipelineTok_of_command {type : TokenType} (h : isCommandTok type = true) :
    isPipe type = false ∧ isPipelineTok type = true := by
  refine ⟨?_, Bool.or_eq_true_iff.mpr (.inl h)⟩
  cases type <;> first
    | rfl
    | cases h

theorem isPipelineTok_not {type : TokenType} (h : isPipelineTok type = true) :
    isAndOrOp type = false ∧ isListSep type = false ∧ isListTok type = true := by
  cases type <;> first
    | exact ⟨rfl, rfl, rfl⟩
    | cases h

theorem isCommandTok_wordItem (w : Str) : isCommandTok (wordItem w).token.type = true := by
  rw [wordItem_token]
  exact isCommandTok_of_word (isWordTok_wordType w)

theorem isCommandTok_commandItems (h : PlainCommand command) :
    ∀ t ∈ (commandItems command).map Item.token, isCommandTok t.type = true := by
  intro t ht
  obtain ⟨item, hitem, rfl⟩ := List.mem_map.mp ht
  simp only [commandItems, redirItems, List.mem_append, List.mem_map, List.mem_flatMap] at hitem
  rcases hitem with (⟨w, -, rfl⟩ | ⟨w, -, rfl⟩) | ⟨r, hr, hitem⟩
  · exact isCommandTok_wordItem w
  · exact isCommandTok_wordItem w
  · rcases List.mem_pair.mp hitem with rfl | rfl
    · exact isCommandTok_of_redirect (redirItem_token (h.redirs r hr)).1
    · exact isCommandTok_wordItem r.target

theorem splitOnP_pipelineItems {commands : List Command} (h : ∀ c ∈ commands, PlainCommand c)
    (hne : commands ≠ []) :
    ((pipelineItems commands).map Item.token).splitOnP (fun t => isPipe t.type) =
      commands.map fun c => (commandItems c).map Item.token := by
  have hnot : ∀ c ∈ commands, ∀ t ∈ (commandItems c).map Item.token, isPipe t.type = false :=
    fun c hc t ht => (isPipelineTok_of_command (isCommandTok_commandItems (h c hc) t ht)).1
  induction commands using pipelineItems.induct with
  | case1 => exact absurd rfl hne
  | case2 command => exact List.splitOnP_eq_singleton (hnot command (by simp))
  | case3 command next rest ih =>
    have hrest := ih (fun c hc => h c (by simp [hc])) (List.cons_ne_nil next rest)
      fun c hc => hnot c (by simp [hc])
    rw [pipelineItems, List.map_append, List.map_cons,
      List.splitOnP_append_cons_of_forall_mem (hnot command (by simp)) _ rfl, hrest]
    rfl

theorem refPipeline_pipelineItems {commands : List Command} (h : ∀ c ∈ commands, PlainCommand c)
    (hne : commands ≠ []) :
    refPipeline ((pipelineItems commands).map Item.token) =
      { size := commands.length, commands := commands.map rereadCommand } := by
  have hcommands : (commands.map fun c => (commandItems c).map Item.token).map refCommand =
      commands.map rereadCommand := by
    rw [List.map_map]
    exact List.map_congr_left fun c hc => refCommand_commandItems (h c hc)
  rw [refPipeline, splitOnP_pipelineItems h hne, hcommands, List.length_map]

/-- A line without other operators is one pipeline. -/
theorem refList_pipeline {l : List Token} (h : ∀ t ∈ l, isPipelineTok t.type = true) :
    refList l .eof = singlePipeline (refPipeline l) := by
  have handor : ∀ t ∈ l, isAndOrOp t.type = false := fun t ht => (isPipelineTok_not (h t ht)).1
  have hsep : ∀ t ∈ l, isListSep t.type = false := fun t ht => (isPipelineTok_not (h t ht)).2.1
  rw [refList, closed_single hsep, List.map_singleton, refAndOr, separated_single handor]
  rfl

/-! ## What the first parse returns -/

/-- A token of these inputs. -/
structure PlainToken (t : Token) : Prop where
  allowed : isPipelineTok t.type = true
  word : isWordTok t.type = true → PlainText t.value ∧ t.type = wordType t.value
  redir : isRedirect t.type = true → ∃ d : Fin 10, t.fd = (d : Nat)

theorem plainToken_of_item {item : Item} (h : PipelineItem item) : PlainToken item.token := by
  cases item with
  | word pieces =>
    obtain ⟨w, hw, rfl⟩ := h
    have htoken : (Item.word (w.map Piece.plain)).token = ⟨wordType w, w, 0⟩ := wordItem_token w
    have hword := isWordTok_wordType w
    rw [htoken]
    exact {
      allowed := (isPipelineTok_of_command (isCommandTok_of_word hword)).2
      word := fun _ => ⟨hw, rfl⟩
      redir := fun hr => by rw [(isWordTok_not hword).1] at hr; cases hr }
  | op type =>
    cases (h : type = .pipe)
    exact { allowed := rfl, word := fun hw => (by cases hw), redir := fun hr => (by cases hr) }
  | redir digit type =>
    have hredir : isRedirect type = true := h
    have htype : (Item.redir digit type).token.type = type := by cases digit <;> rfl
    have hword : isWordTok type = true → isRedirect type = false := fun hw => (isWordTok_not hw).1
    refine { allowed := ?_, word := fun hw => ?_, redir := fun _ => ?_ }
    · rw [htype]
      exact (isPipelineTok_of_command (isCommandTok_of_redirect hredir)).2
    · rw [htype] at hw
      rw [hword hw] at hredir
      cases hredir
    · cases digit with
      | some d => exact ⟨d, rfl⟩
      | none =>
        by_cases hin : type = .redirIn ∨ type = .redirHeredoc
        · exact ⟨0, if_pos hin⟩
        · exact ⟨1, if_neg hin⟩

section Parsed
variable {l : List Token}

theorem mem_plainWords (hwf : Targeted l) {t : Token} (ht : t ∈ plainWords l) :
    t ∈ l ∧ isRedirect t.type = false := by
  induction hwf with
  | nil => cases ht
  | redir hr _ _ ih =>
    rw [plainWords, if_pos hr] at ht
    obtain ⟨hmem, hnot⟩ := ih ht
    exact ⟨List.mem_cons_of_mem _ (List.mem_cons_of_mem _ hmem), hnot⟩
  | plain hplain _ ih =>
    rw [plainWords_cons hplain] at ht
    rcases List.mem_cons.mp ht with rfl | ht
    · exact ⟨List.mem_cons_self, hplain⟩
    · obtain ⟨hmem, hnot⟩ := ih ht
      exact ⟨List.mem_cons_of_mem _ hmem, hnot⟩

theorem mem_redirections (hwf : Targeted l) {redirect : Redirect} (h : redirect ∈ redirections l) :
    ∃ r ∈ l, ∃ target ∈ l, isRedirect r.type = true ∧ target.type = .word ∧
      redirect = { fd := r.fd, mode := fromRedirTok r.type, target := target.value } := by
  induction hwf with
  | nil => cases h
  | @redir r w l hr hw _ ih =>
    rw [redirections, if_pos hr] at h
    rcases List.mem_cons.mp h with rfl | h
    · exact ⟨r, List.mem_cons_self, w, List.mem_cons_of_mem _ List.mem_cons_self, hr, hw, rfl⟩
    · obtain ⟨r', hmem, w', hmem', hread⟩ := ih h
      exact ⟨r', List.mem_cons_of_mem _ (List.mem_cons_of_mem _ hmem), w',
        List.mem_cons_of_mem _ (List.mem_cons_of_mem _ hmem'), hread⟩
  | plain hplain _ ih =>
    rw [redirections_cons hplain] at h
    obtain ⟨r', hmem, w', hmem', hread⟩ := ih h
    exact ⟨r', List.mem_cons_of_mem _ hmem, w', List.mem_cons_of_mem _ hmem', hread⟩

theorem isWordTok_of_plain {t : Token} (h : isPipelineTok t.type = true)
    (hpipe : isPipe t.type = false) (hredir : isRedirect t.type = false) :
    isWordTok t.type = true := by
  simp only [isPipelineTok, isCommandTok, hpipe, hredir, Bool.or_false] at h
  exact h

theorem eq_mem_wordType {t : Token} (h : t.type = wordType t.value) :
    isAssignment t = decide (chr '=' ∈ t.value) := by
  rw [isAssignment, h, wordType]
  split
  · rename_i hmem
    exact (decide_eq_true hmem).symm
  · rename_i hmem
    exact (decide_eq_false hmem).symm

theorem plainRedirect_of_tokens {r target : Token} (hr : PlainToken r) (htarget : PlainToken target)
    (hredir : isRedirect r.type = true) (hword : target.type = .word) :
    PlainRedirect { fd := r.fd, mode := fromRedirTok r.type, target := target.value } := by
  obtain ⟨htext, htype⟩ := htarget.word (by rw [hword]; rfl)
  refine { target := htext, word := ?_, mode := ?_, digit := hr.redir hredir }
  · have hnot := eq_mem_wordType htype
    rw [isAssignment, hword] at hnot
    exact of_decide_eq_false hnot.symm
  · change fromRedirTok r.type ≠ .err
    revert hredir
    cases r.type <;> decide

theorem plainCommand_refCommand (hplain : ∀ t ∈ l, PlainToken t)
    (hpipe : ∀ t ∈ l, isPipe t.type = false) (hwf : Targeted l) :
    PlainCommand (refCommand l) := by
  have hword : ∀ t ∈ plainWords l, PlainText t.value ∧ t.type = wordType t.value := by
    intro t ht
    obtain ⟨hmem, hredir⟩ := mem_plainWords hwf ht
    exact (hplain t hmem).word (isWordTok_of_plain (hplain t hmem).allowed (hpipe t hmem) hredir)
  refine { assignments := ?_, args := ?_, first := ?_, redirs := ?_ }
  · intro a ha
    obtain ⟨t, ht, rfl⟩ := List.mem_map.mp ha
    obtain ⟨htext, htype⟩ := hword t ((List.takeWhile_sublist _).subset ht)
    have hassign := List.mem_takeWhile_imp ht
    rw [eq_mem_wordType htype] at hassign
    exact ⟨htext, of_decide_eq_true hassign⟩
  · intro w hw
    obtain ⟨t, ht, rfl⟩ := List.mem_map.mp hw
    exact (hword t ((List.dropWhile_sublist _).subset ht)).1
  · intro w hw
    rw [refCommand, List.head?_map] at hw
    obtain ⟨t, ht, rfl⟩ := Option.map_eq_some_iff.mp hw
    have hmem := (List.dropWhile_sublist _).subset (List.mem_of_head? ht)
    have hnot : isAssignment t = false := by
      have hhead := List.head?_dropWhile_not isAssignment (plainWords l)
      rwa [ht] at hhead
    rw [eq_mem_wordType (hword t hmem).2] at hnot
    exact of_decide_eq_false hnot
  · intro redirect hredirect
    obtain ⟨r, hmem, target, hmem', hredir, htype, rfl⟩ := mem_redirections hwf hredirect
    exact plainRedirect_of_tokens (hplain r hmem) (hplain target hmem') hredir htype

theorem plainCommands_refPipeline (hplain : ∀ t ∈ l, PlainToken t) (hwf : Targeted l) :
    ∀ c ∈ (refPipeline l).commands, PlainCommand c := by
  suffices hpieces : ∀ piece ∈ l.splitOnP (fun t => isPipe t.type), PlainCommand (refCommand piece) by
    intro c hc
    obtain ⟨piece, hpiece, rfl⟩ := List.mem_map.mp hc
    exact hpieces piece hpiece
  induction l using pieces_induction (p := fun t : Token => isPipe t.type) with
  | single c hc =>
    rw [List.splitOnP_eq_singleton hc]
    exact List.forall_mem_singleton.mpr (plainCommand_refCommand hplain hc hwf)
  | cons c s rest hc hs ih =>
    obtain ⟨hleft, hright⟩ := hwf.cut (isCommandTok_of_isPipe hs)
    obtain ⟨hcommand, hrest⟩ := List.forall_mem_append.mp hplain
    rw [List.splitOnP_append_cons_of_forall_mem hc s hs]
    exact List.forall_mem_cons.mpr ⟨plainCommand_refCommand hcommand hc hleft,
      ih (List.forall_mem_cons.mp hrest).2 hright⟩

end Parsed

/-! ## The round trip -/

theorem wordItem_valid_of_plain {w : Str} (h : PlainText w) : (wordItem w).Valid :=
  wordItem_valid h.ne_nil fun c hc =>
    ⟨(h.plain c hc).space, (h.plain c hc).operator, (h.plain c hc).not_special⟩

theorem pipelineItem_valid {item : Item} (h : PipelineItem item) : item.Valid := by
  cases item with
  | word pieces =>
    obtain ⟨w, hw, rfl⟩ := h
    exact wordItem_valid_of_plain hw
  | op type =>
    cases (h : type = .pipe)
    exact (rfl : isControl .pipe = true)
  | redir digit type => exact h

/-- What the two functions make of such an input. -/
theorem lexAndParse_pipelineInput {items : List (Item × Str)} (h : PipelineInput items)
    (beyond : Nat → UInt8) :
    lexAndParse beyond (render items) =
      .ok (some (singlePipeline (refPipeline (items.map fun i => i.1.token)))) := by
  have hplain : ∀ t ∈ items.map fun i => i.1.token, PlainToken t := by
    intro t ht
    obtain ⟨i, hi, rfl⟩ := List.mem_map.mp ht
    exact plainToken_of_item (h.allowed i hi)
  rw [← refList_pipeline fun t ht => (hplain t ht).allowed]
  exact lexAndParse_render beyond (fun i hi => pipelineItem_valid (h.allowed i hi)) h.spaced
    (fun t ht => (isPipelineTok_not (hplain t ht).allowed).2.2) h.targeted

theorem pipelineItem_of_command (h : PlainCommand command) :
    ∀ item ∈ commandItems command, PipelineItem item := by
  intro item hitem
  simp only [commandItems, redirItems, List.mem_append, List.mem_map, List.mem_flatMap] at hitem
  rcases hitem with (⟨w, hw, rfl⟩ | ⟨w, hw, rfl⟩) | ⟨r, hr, hitem⟩
  · exact ⟨w, (h.assignments w hw).1, rfl⟩
  · exact ⟨w, h.args w hw, rfl⟩
  · rcases List.mem_pair.mp hitem with rfl | rfl
    · exact (redirTok_redir (h.redirs r hr).mode).1
    · exact ⟨r.target, (h.redirs r hr).target, rfl⟩

theorem targeted_commandItems (h : PlainCommand command) :
    Targeted ((commandItems command).map Item.token) := by
  have hwords : ∀ l : List Str, Targeted ((l.map wordItem).map Item.token) := by
    intro l
    refine targeted_words fun t ht => ?_
    obtain ⟨item, hitem, rfl⟩ := List.mem_map.mp ht
    obtain ⟨w, -, rfl⟩ := List.mem_map.mp hitem
    rw [wordItem_token]
    exact (isWordTok_not (isWordTok_wordType w)).1
  have hredirs : ∀ redirs : List Redirect, (∀ r ∈ redirs, PlainRedirect r) →
      Targeted ((redirItems redirs).map Item.token) := by
    intro redirs hall
    induction redirs with
    | nil => exact .nil
    | cons r rest ih =>
      obtain ⟨hr, hrest⟩ := List.forall_mem_cons.mp hall
      have hword : (wordItem r.target).token.type = .word := by
        rw [wordItem_token, wordType, if_neg hr.word]
      exact .redir (redirItem_token hr).1 hword (ih hrest)
  rw [commandItems, List.map_append, List.map_append]
  exact ((hwords _).append (hwords _)).append (hredirs _ h.redirs)

theorem pipelineInput_pipelineItems {commands : List Command}
    (h : ∀ c ∈ commands, PlainCommand c) : PipelineInput (singleSpaced (pipelineItems commands)) := by
  have hitems : (∀ item ∈ pipelineItems commands, PipelineItem item) ∧
      Targeted ((pipelineItems commands).map Item.token) := by
    induction commands using pipelineItems.induct with
    | case1 => exact ⟨fun item hitem => (by cases hitem), .nil⟩
    | case2 command =>
      have hcommand := h command List.mem_cons_self
      exact ⟨pipelineItem_of_command hcommand, targeted_commandItems hcommand⟩
    | case3 command next rest ih =>
      obtain ⟨hcommand, hrest⟩ := List.forall_mem_cons.mp h
      obtain ⟨hallowed, htargeted⟩ := ih hrest
      refine ⟨?_, ?_⟩
      · exact List.forall_mem_append.mpr ⟨pipelineItem_of_command hcommand,
          List.forall_mem_cons.mpr ⟨(rfl : TokenType.pipe = .pipe), hallowed⟩⟩
      · rw [pipelineItems, List.map_append, List.map_cons]
        exact (targeted_commandItems hcommand).append (.plain rfl htargeted)
  refine ⟨forall_singleSpaced hitems.1, spaced_singleSpaced _, ?_⟩
  rw [map_singleSpaced]
  exact hitems.2

/-- What is read from the text of a pipeline. -/
theorem lexAndParse_pipelineText {p : Pipeline} (hplain : ∀ c ∈ p.commands, PlainCommand c)
    (hargs : ∀ c ∈ p.commands, c.argv ≠ []) (hne : p.commands ≠ [])
    (hsize : p.size = p.commands.length) (beyond : Nat → UInt8) :
    lexAndParse beyond (pipelineText p) = .ok (some (singlePipeline (reread p))) := by
  rw [pipelineText_eq_render hplain hargs hne,
    lexAndParse_pipelineInput (pipelineInput_pipelineItems hplain), map_singleSpaced,
    refPipeline_pipelineItems hplain hne, reread, hsize]

theorem rereadRedirect_eq_iff : rereadRedirect redirect = redirect ↔ FdKept redirect := by
  obtain ⟨fd, mode, target⟩ := redirect
  by_cases hwrites : WritesFd ⟨fd, mode, target⟩
  · simp [rereadRedirect, FdKept, hwrites]
  · simp [rereadRedirect, FdKept, hwrites, eq_comm]

theorem map_eq_self_iff {α : Type} {f : α → α} {l : List α} :
    l.map f = l ↔ ∀ x ∈ l, f x = x := by
  have hinj := List.map_inj_left (f := f) (g := id) (l := l)
  rwa [List.map_id] at hinj

theorem reread_eq_iff {p : Pipeline} :
    reread p = p ↔ ∀ c ∈ p.commands, ∀ r ∈ c.redirs, FdKept r := by
  have hcommand : ∀ c : Command, rereadCommand c = c ↔ ∀ r ∈ c.redirs, FdKept r := by
    intro c
    simp only [← rereadRedirect_eq_iff, ← map_eq_self_iff]
    exact ⟨fun h => congrArg Command.redirs h, fun h => by rw [rereadCommand, h]⟩
  simp only [← hcommand, ← map_eq_self_iff]
  exact ⟨fun h => congrArg Pipeline.commands h, fun h => by rw [reread, h]⟩

/-- **When the text of a pipeline is read back as the pipeline.** It is if and only if
every descriptor is written or is the one of its operator. -/
theorem lexAndParse_pipelineText_iff {items : List (Item × Str)} (h : PipelineInput items)
    (beyond beyond' : Nat → UInt8) {p : Pipeline}
    (hparse : lexAndParse beyond (render items) = .ok (some (singlePipeline p)))
    (hargs : ∀ c ∈ p.commands, c.argv ≠ []) :
    lexAndParse beyond' (pipelineText p) = .ok (some (singlePipeline p)) ↔
      ∀ c ∈ p.commands, ∀ r ∈ c.redirs, FdKept r := by
  have hsingle : ∀ q q' : Pipeline, singlePipeline q = singlePipeline q' → q = q' := by
    intro q q' heq
    injection heq with _ helements
    injection helements with hitem _
    injection hitem with handor _
    injection handor with _ hpipelines
    injection hpipelines with hpipeline _
    injection hpipeline
  rw [lexAndParse_pipelineInput h] at hparse
  have hp := hsingle _ _ (Option.some.inj (Except.ok.inj hparse))
  have hplain : ∀ t ∈ items.map fun i => i.1.token, PlainToken t := by
    intro t ht
    obtain ⟨i, hi, rfl⟩ := List.mem_map.mp ht
    exact plainToken_of_item (h.allowed i hi)
  have hcommands := plainCommands_refPipeline hplain h.targeted
  have hne : p.commands ≠ [] := by
    rw [← hp]
    simp [refPipeline]
  rw [lexAndParse_pipelineText (hp ▸ hcommands) hargs hne (by rw [← hp]; simp [refPipeline]),
    ← reread_eq_iff]
  exact ⟨fun heq => hsingle _ _ (Option.some.inj (Except.ok.inj heq)), fun heq => by rw [heq]⟩

/-! ## `a 3> f` and `a 1< f` -/

/-- `a`, a redirection and `f`. -/
def redirectedItems (digit : Option (Fin 10)) (type : TokenType) : List (Item × Str) :=
  [(wordItem (str "a"), [chr ' ']), (.redir digit type, [chr ' ']), (wordItem (str "f"), [])]

def redirectedPipeline (fd : Int) (type : TokenType) : Pipeline :=
  let redirect : Redirect := { fd := fd, mode := fromRedirTok type, target := str "f" }
  { size := 1, commands := [{ argv := [str "a"], assignmentList := [], redirs := [redirect] }] }

theorem lexAndParse_redirected {type : TokenType} (h : isRedir type = true)
    (digit : Option (Fin 10)) (beyond : Nat → UInt8) :
    PipelineInput (redirectedItems digit type) ∧
      lexAndParse beyond (render (redirectedItems digit type)) =
        .ok (some (singlePipeline
          (redirectedPipeline (Item.redir digit type).token.fd type))) := by
  have ha : PlainText (str "a") :=
    plainText_of_word (by decide) (List.forall_mem_singleton.mpr (.inl (.inl rfl)))
  have hf : PlainText (str "f") :=
    plainText_of_word (by decide) (List.forall_mem_singleton.mpr (.inl (.inl rfl)))
  have hblank : Blank [chr ' '] := List.forall_mem_singleton.mpr (.inl rfl)
  have htype : isRedirect (Item.redir digit type).token.type = true := by cases digit <;> exact h
  have hinput : PipelineInput (redirectedItems digit type) := {
    allowed := List.forall_mem_cons.mpr ⟨⟨str "a", ha, rfl⟩, List.forall_mem_cons.mpr
      ⟨h, List.forall_mem_singleton.mpr ⟨str "f", hf, rfl⟩⟩⟩
    spaced := ⟨hblank, fun hnil => (by cases hnil), hblank, fun hnil => (by cases hnil),
      fun c hc => (by cases hc)⟩
    targeted := .plain rfl (.redir htype rfl .nil) }
  refine ⟨hinput, ?_⟩
  rw [lexAndParse_pipelineInput hinput]
  cases type with
  | redirIn | redirOut | redirAppend | redirHeredoc => cases digit <;> rfl
  | _ => cases h

theorem lexAndParse_pipelineText_iff_written :
    lexAndParse (fun _ => 0) (pipelineText (redirectedPipeline 3 .redirOut)) =
      .ok (some (singlePipeline (redirectedPipeline 3 .redirOut))) := by
  obtain ⟨hinput, hparse⟩ := @lexAndParse_redirected .redirOut rfl (some 3) (fun _ => 0)
  refine (lexAndParse_pipelineText_iff hinput (fun _ => 0) (fun _ => 0) hparse ?_).mpr ?_
  · exact List.forall_mem_singleton.mpr (List.cons_ne_nil _ _)
  · exact List.forall_mem_singleton.mpr
      (List.forall_mem_singleton.mpr (.inl (.inl (by decide))))

/-- The descriptor of `a 1< f` is not written, and its text `a < f` is read as `a 0< f`. -/
theorem pipelineText_loses_descriptor :
    lexAndParse (fun _ => 0) (str "a 1< f") =
        .ok (some (singlePipeline (redirectedPipeline 1 .redirIn))) ∧
      pipelineText (redirectedPipeline 1 .redirIn) = str "a < f" ∧
      lexAndParse (fun _ => 0) (str "a < f") =
        .ok (some (singlePipeline (redirectedPipeline 0 .redirIn))) ∧
      redirectedPipeline 0 .redirIn ≠ redirectedPipeline 1 .redirIn := by
  have hone := (@lexAndParse_redirected .redirIn rfl (some 1) (fun _ => 0)).2
  have hzero := (@lexAndParse_redirected .redirIn rfl none (fun _ => 0)).2
  exact ⟨hone, rfl, hzero, by decide⟩

end Shell.JoinRoundTrip
