import Shell.JoinRoundTrip
import Shell.ParserGrammar
import Shell.Lib.SeparatedJoin

/-! # Which lists the parser returns

`writtenList` writes a list down in the words of the lexer, each operator and separator
behind the element it is recorded on and each redirection with its descriptor. On
inputs of plain words the parser returns exactly the lists of `ListForm`, and each of
them is read back from what is written for it. -/
namespace Shell.ListRoundTrip
open Shell.CTypes Shell.Tokenlist Shell.Parsetypes Shell.Lexer Shell.Parser Shell.JoinRoundTrip
open Shell.Lib.Separated

/-! ## Lists written down -/

/-- The digit of a descriptor that has one. -/
def fdDigit (fd : Int) : Fin 10 := ⟨fd.toNat % 10, Nat.mod_lt _ (Nat.succ_pos 9)⟩

def writtenRedirect (redirect : Redirect) : Item :=
  .redir (some (fdDigit redirect.fd)) (redirTok redirect.mode)

def writtenCommand (command : Command) : List Item :=
  command.assignmentList.map wordItem ++ command.argv.map wordItem ++
    command.redirs.flatMap fun r => [writtenRedirect r, wordItem r.target]

/-- All but the last command with a bar behind it. -/
def writtenCommands : List Command → List Item
  | [] => []
  | [command] => writtenCommand command
  | command :: next :: rest => writtenCommand command ++ .op .pipe :: writtenCommands (next :: rest)

def opItems : AndOrOp → List Item
  | .and => [.op .and]
  | .or => [.op .or]
  | .none => []

def sepItems : ListSep → List Item
  | .semi => [.op .semi]
  | .amp => [.op .amp]
  | .none => []

def writtenAndor (andor : AndOr Pipeline) : List Item :=
  andor.elements.flatMap fun e => writtenCommands e.pipeline.commands ++ opItems e.op

def writtenList (list : ShList) : List Item :=
  list.elements.flatMap fun e => writtenAndor e.andOr ++ sepItems e.sep

def listText (list : ShList) : Str := render (singleSpaced (writtenList list))

/-! ## The form of a parsed list -/

structure PipelineForm (pipeline : Pipeline) : Prop where
  size : pipeline.size = pipeline.commands.length
  commands : pipeline.commands ≠ []
  plain : ∀ command ∈ pipeline.commands, PlainCommand command

/-- Every pipeline but the last one has an operator. -/
structure AndorForm (andor : AndOr Pipeline) : Prop where
  count : andor.count = andor.elements.length
  ops : ∃ init last, andor.elements = init ++ [last] ∧ (∀ e ∈ init, e.op ≠ .none) ∧ last.op = .none
  pipelines : ∀ e ∈ andor.elements, PipelineForm e.pipeline

/-- Every chain but the last one has a separator, and the last one may have it too. A
chain behind a separator is not empty. -/
structure ListForm (list : ShList) : Prop where
  count : list.count = list.elements.length
  seps : (∃ init last, list.elements = init ++ [last] ∧ (∀ e ∈ init, e.sep ≠ .none) ∧
      last.sep = .none ∧ (init = [] ∨ last.andOr ≠ refAndOr [])) ∨
    list.elements ≠ [] ∧ ∀ e ∈ list.elements, e.sep ≠ .none
  chains : ∀ e ∈ list.elements, AndorForm e.andOr

/-! ## A command is read back -/

section Commands
variable {redirect : Redirect} {command : Command}

theorem writtenRedirect_token (h : PlainRedirect redirect) :
    isRedirect (writtenRedirect redirect).token.type = true ∧
      ({ fd := (writtenRedirect redirect).token.fd,
         mode := fromRedirTok (writtenRedirect redirect).token.type,
         target := redirect.target } : Redirect) = redirect := by
  obtain ⟨hredir, hmode, -⟩ := redirTok_redir h.mode
  obtain ⟨d, hd⟩ := h.digit
  have hdigit : fdDigit redirect.fd = d := by
    rw [hd]
    exact Fin.ext (Nat.mod_eq_of_lt d.isLt)
  rw [writtenRedirect, Item.token]
  exact ⟨hredir, by rw [hmode, hdigit, ← hd]⟩

theorem writtenRedirects_tokens {redirs : List Redirect} (h : ∀ r ∈ redirs, PlainRedirect r) :
    plainWords ((redirs.flatMap fun r => [writtenRedirect r, wordItem r.target]).map Item.token) =
        [] ∧
      redirections ((redirs.flatMap fun r => [writtenRedirect r, wordItem r.target]).map
        Item.token) = redirs := by
  induction redirs with
  | nil => exact ⟨rfl, rfl⟩
  | cons r rest ih =>
    obtain ⟨hr, hrest⟩ := List.forall_mem_cons.mp h
    obtain ⟨hredir, hread⟩ := writtenRedirect_token hr
    obtain ⟨hplain, hredirs⟩ := ih hrest
    rw [List.flatMap_cons, List.map_append, List.map_cons, List.map_cons, List.map_nil,
      List.cons_append, List.cons_append, List.nil_append, plainWords, redirections, if_pos hredir,
      if_pos hredir, hplain, hredirs, wordItem_token]
    exact ⟨rfl, congrArg (· :: rest) hread⟩

theorem refCommand_writtenCommand (h : PlainCommand command) :
    refCommand ((writtenCommand command).map Item.token) = command := by
  obtain ⟨hplain, hredirs⟩ := writtenRedirects_tokens h.redirs
  have htokens : (writtenCommand command).map Item.token =
      (command.assignmentList.map fun w => (wordItem w).token) ++
        ((command.argv.map fun w => (wordItem w).token) ++
          (command.redirs.flatMap fun r => [writtenRedirect r, wordItem r.target]).map
            Item.token) := by
    simp only [writtenCommand, List.map_append, List.map_map, List.append_assoc]
    rfl
  obtain ⟨hassign, hassignRedirs⟩ := words_append command.assignmentList
    ((command.argv.map fun w => (wordItem w).token) ++
      (command.redirs.flatMap fun r => [writtenRedirect r, wordItem r.target]).map Item.token)
  obtain ⟨hargv, hargvRedirs⟩ := words_append command.argv
    ((command.redirs.flatMap fun r => [writtenRedirect r, wordItem r.target]).map Item.token)
  have hall : ∀ t ∈ command.assignmentList.map fun w => (wordItem w).token,
      isAssignment t = true := by
    intro t ht
    obtain ⟨w, hw, rfl⟩ := List.mem_map.mp ht
    rw [isAssignment_wordItem, decide_eq_true (h.assignments w hw).2]
  have hcut : (command.argv.map fun w => (wordItem w).token).takeWhile isAssignment = [] ∧
      (command.argv.map fun w => (wordItem w).token).dropWhile isAssignment =
        command.argv.map fun w => (wordItem w).token := by
    cases hwords : command.argv with
    | nil => exact ⟨rfl, rfl⟩
    | cons w rest =>
      have hw : isAssignment (wordItem w).token = false := by
        rw [isAssignment_wordItem, decide_eq_false (h.first w (by rw [hwords]; rfl))]
      rw [List.map_cons, List.takeWhile_cons_of_neg (by simp [hw]),
        List.dropWhile_cons_of_neg (by simp [hw])]
      exact ⟨rfl, rfl⟩
  rw [refCommand, htokens, hassign, hargv, hplain, hassignRedirs, hargvRedirs, hredirs,
    List.append_nil, List.takeWhile_append_of_pos hall, List.dropWhile_append_of_pos hall, hcut.1,
    hcut.2, List.append_nil, map_value_wordItem, map_value_wordItem]

theorem isCommandTok_writtenCommand (h : PlainCommand command) :
    ∀ t ∈ (writtenCommand command).map Item.token, isCommandTok t.type = true := by
  intro t ht
  obtain ⟨item, hitem, rfl⟩ := List.mem_map.mp ht
  simp only [writtenCommand, List.mem_append, List.mem_map, List.mem_flatMap] at hitem
  rcases hitem with (⟨w, -, rfl⟩ | ⟨w, -, rfl⟩) | ⟨r, hr, hitem⟩
  · exact isCommandTok_wordItem w
  · exact isCommandTok_wordItem w
  · rcases List.mem_pair.mp hitem with rfl | rfl
    · exact isCommandTok_of_redirect (writtenRedirect_token (h.redirs r hr)).1
    · exact isCommandTok_wordItem r.target

theorem targeted_writtenCommand (h : PlainCommand command) :
    Targeted ((writtenCommand command).map Item.token) := by
  have hwords : ∀ l : List Str, Targeted ((l.map wordItem).map Item.token) := by
    intro l
    refine targeted_words fun t ht => ?_
    obtain ⟨item, hitem, rfl⟩ := List.mem_map.mp ht
    obtain ⟨w, -, rfl⟩ := List.mem_map.mp hitem
    rw [wordItem_token]
    exact (isWordTok_not (isWordTok_wordType w)).1
  have hredirs : ∀ redirs : List Redirect, (∀ r ∈ redirs, PlainRedirect r) →
      Targeted ((redirs.flatMap fun r => [writtenRedirect r, wordItem r.target]).map
        Item.token) := by
    intro redirs hall
    induction redirs with
    | nil => exact .nil
    | cons r rest ih =>
      obtain ⟨hr, hrest⟩ := List.forall_mem_cons.mp hall
      have hword : (wordItem r.target).token.type = .word := by
        rw [wordItem_token, wordType, if_neg hr.word]
      exact .redir (writtenRedirect_token hr).1 hword (ih hrest)
  rw [writtenCommand, List.map_append, List.map_append]
  exact ((hwords _).append (hwords _)).append (hredirs _ h.redirs)

/-! ## A pipeline is read back -/

theorem splitOnP_writtenCommands {commands : List Command} (h : ∀ c ∈ commands, PlainCommand c)
    (hne : commands ≠ []) :
    ((writtenCommands commands).map Item.token).splitOnP (fun t => isPipe t.type) =
      commands.map fun c => (writtenCommand c).map Item.token := by
  have hnot : ∀ c ∈ commands, ∀ t ∈ (writtenCommand c).map Item.token, isPipe t.type = false :=
    fun c hc t ht => (isPipelineTok_of_command (isCommandTok_writtenCommand (h c hc) t ht)).1
  induction commands using writtenCommands.induct with
  | case1 => exact absurd rfl hne
  | case2 command => exact List.splitOnP_eq_singleton (hnot command (by simp))
  | case3 command next rest ih =>
    have hrest := ih (fun c hc => h c (by simp [hc])) (List.cons_ne_nil next rest)
      fun c hc => hnot c (by simp [hc])
    rw [writtenCommands, List.map_append, List.map_cons,
      List.splitOnP_append_cons_of_forall_mem (hnot command (by simp)) _ rfl, hrest]
    rfl

theorem refPipeline_writtenCommands {pipeline : Pipeline} (h : PipelineForm pipeline) :
    refPipeline ((writtenCommands pipeline.commands).map Item.token) = pipeline := by
  have hcommands : (pipeline.commands.map fun c => (writtenCommand c).map Item.token).map
      refCommand = pipeline.commands := by
    rw [List.map_map]
    exact (List.map_congr_left fun c hc => refCommand_writtenCommand (h.plain c hc)).trans
      (List.map_id _)
  rw [refPipeline, splitOnP_writtenCommands h.plain h.commands, hcommands, List.length_map,
    ← h.size]

theorem isPipelineTok_writtenCommands {commands : List Command}
    (h : ∀ c ∈ commands, PlainCommand c) :
    ∀ t ∈ (writtenCommands commands).map Item.token, isPipelineTok t.type = true := by
  have hcommand : ∀ c ∈ commands, ∀ t ∈ (writtenCommand c).map Item.token,
      isPipelineTok t.type = true :=
    fun c hc t ht => (isPipelineTok_of_command (isCommandTok_writtenCommand (h c hc) t ht)).2
  induction commands using writtenCommands.induct with
  | case1 => exact List.forall_mem_nil _
  | case2 command => exact hcommand command List.mem_cons_self
  | case3 command next rest ih =>
    rw [writtenCommands, List.map_append, List.map_cons]
    exact List.forall_mem_append.mpr ⟨hcommand command List.mem_cons_self,
      List.forall_mem_cons.mpr ⟨rfl, ih (fun c hc => h c (List.mem_cons_of_mem _ hc))
        fun c hc => hcommand c (List.mem_cons_of_mem _ hc)⟩⟩

theorem targeted_writtenCommands {commands : List Command} (h : ∀ c ∈ commands, PlainCommand c) :
    Targeted ((writtenCommands commands).map Item.token) := by
  induction commands using writtenCommands.induct with
  | case1 => exact .nil
  | case2 command => exact targeted_writtenCommand (h command List.mem_cons_self)
  | case3 command next rest ih =>
    obtain ⟨hcommand, hrest⟩ := List.forall_mem_cons.mp h
    rw [writtenCommands, List.map_append, List.map_cons]
    exact (targeted_writtenCommand hcommand).append (.plain rfl (ih hrest))

end Commands

/-! ## Chains and lists are read back -/

/-- The tokens of a chain as pieces with marks. -/
def chainPieces (elements : List (AndOrElement Pipeline)) : List (List Token × AndOrOp) :=
  elements.map fun e => ((writtenCommands e.pipeline.commands).map Item.token, e.op)

def listPieces (elements : List ListElement) : List (List Token × ListSep) :=
  elements.map fun e => ((writtenAndor e.andOr).map Item.token, e.sep)

theorem writtenAndor_tokens (andor : AndOr Pipeline) :
    (writtenAndor andor).map Item.token =
      joined (fun op => (opItems op).map Item.token) (chainPieces andor.elements) := by
  simp only [writtenAndor, joined, chainPieces, List.map_flatMap, List.flatMap_map, List.map_append]

theorem writtenList_tokens (list : ShList) :
    (writtenList list).map Item.token =
      joined (fun sep => (sepItems sep).map Item.token) (listPieces list.elements) := by
  simp only [writtenList, joined, listPieces, List.map_flatMap, List.flatMap_map, List.map_append]

theorem writes_op {op : AndOrOp} (h : op ≠ .none) :
    Writes (fun t : Token => isAndOrOp t.type) (fun t => andOrOp t.type)
      (fun op => (opItems op).map Item.token) op := by
  cases op with
  | and => exact ⟨_, rfl, rfl, rfl⟩
  | or => exact ⟨_, rfl, rfl, rfl⟩
  | none => exact absurd rfl h

theorem writes_sep {sep : ListSep} (h : sep ≠ .none) :
    Writes (fun t : Token => isListSep t.type) (fun t => listSep t.type)
      (fun sep => (sepItems sep).map Item.token) sep := by
  cases sep with
  | semi => exact ⟨_, rfl, rfl, rfl⟩
  | amp => exact ⟨_, rfl, rfl, rfl⟩
  | none => exact absurd rfl h

theorem PipelineForm.not_op {pipeline : Pipeline} (h : PipelineForm pipeline) :
    ∀ t ∈ (writtenCommands pipeline.commands).map Item.token, isAndOrOp t.type = false :=
  fun t ht => (isPipelineTok_not (isPipelineTok_writtenCommands h.plain t ht)).1

theorem refAndOr_writtenAndor {andor : AndOr Pipeline} (h : AndorForm andor) :
    refAndOr ((writtenAndor andor).map Item.token) = andor := by
  obtain ⟨init, last, helements, hinit, hlast⟩ := h.ops
  have hmem : ∀ e ∈ init, PipelineForm e.pipeline := fun e he =>
    h.pipelines e (by rw [helements]; exact List.mem_append_left _ he)
  have hlastForm : PipelineForm last.pipeline :=
    h.pipelines last (by rw [helements]; exact List.mem_append_right _ List.mem_cons_self)
  have hmarked : ∀ e ∈ chainPieces init, Marked (fun t : Token => isAndOrOp t.type)
      (fun t => andOrOp t.type) (fun op => (opItems op).map Item.token) e := by
    intro piece hpiece
    obtain ⟨e, he, rfl⟩ := List.mem_map.mp hpiece
    exact ⟨(hmem e he).not_op, writes_op (hinit e he)⟩
  have hjoined : (writtenAndor andor).map Item.token =
      joined (fun op => (opItems op).map Item.token) (chainPieces init) ++
        (writtenCommands last.pipeline.commands).map Item.token := by
    rw [writtenAndor_tokens, helements, chainPieces, List.map_append, joined,
      List.flatMap_append, List.map_singleton, List.flatMap_singleton, hlast]
    exact congrArg _ (List.append_nil _)
  have hpieces : separated (fun t : Token => isAndOrOp t.type) (fun t => andOrOp t.type) .none
      ((writtenAndor andor).map Item.token) = chainPieces andor.elements := by
    rw [hjoined, separated_joined hmarked hlastForm.not_op, helements, chainPieces, chainPieces,
      List.map_append, List.map_singleton, hlast]
  have hback : (chainPieces andor.elements).map (fun e => (⟨refPipeline e.1, e.2⟩ : AndOrElement _)) =
      andor.elements := by
    rw [chainPieces, List.map_map]
    refine (List.map_congr_left fun e he => ?_).trans (List.map_id _)
    rw [Function.comp_apply, refPipeline_writtenCommands (h.pipelines e he)]
    rfl
  rw [refAndOr, hpieces, hback, chainPieces, List.length_map, ← h.count]

theorem AndorForm.tokens {andor : AndOr Pipeline} (h : AndorForm andor) :
    (∀ t ∈ (writtenAndor andor).map Item.token, isAndOrTok t.type = true) ∧
      Targeted ((writtenAndor andor).map Item.token) := by
  have hpart : ∀ e ∈ andor.elements,
      (∀ t ∈ (writtenCommands e.pipeline.commands ++ opItems e.op).map Item.token,
        isAndOrTok t.type = true) ∧
      Targeted ((writtenCommands e.pipeline.commands ++ opItems e.op).map Item.token) := by
    intro e he
    have hplain := (h.pipelines e he).plain
    have hop : (∀ t ∈ (opItems e.op).map Item.token, isAndOrTok t.type = true) ∧
        Targeted ((opItems e.op).map Item.token) := by
      cases e.op with
      | and => exact ⟨List.forall_mem_singleton.mpr rfl, .plain rfl .nil⟩
      | or => exact ⟨List.forall_mem_singleton.mpr rfl, .plain rfl .nil⟩
      | none => exact ⟨List.forall_mem_nil _, .nil⟩
    rw [List.map_append]
    refine ⟨List.forall_mem_append.mpr ⟨fun t ht => ?_, hop.1⟩,
      (targeted_writtenCommands hplain).append hop.2⟩
    exact Bool.or_eq_true_iff.mpr (.inl (isPipelineTok_writtenCommands hplain t ht))
  unfold writtenAndor
  generalize andor.elements = elements at hpart
  induction elements with
  | nil => exact ⟨List.forall_mem_nil _, .nil⟩
  | cons e rest ih =>
    obtain ⟨⟨hall, htargeted⟩, hrest⟩ := List.forall_mem_cons.mp hpart
    obtain ⟨halls, htargeteds⟩ := ih hrest
    rw [List.flatMap_cons, List.map_append]
    exact ⟨List.forall_mem_append.mpr ⟨hall, halls⟩, htargeted.append htargeteds⟩

theorem AndorForm.not_sep {andor : AndOr Pipeline} (h : AndorForm andor) :
    ∀ t ∈ (writtenAndor andor).map Item.token, isListSep t.type = false := by
  intro t ht
  have hall := h.tokens.1 t ht
  cases hsep : isListSep t.type with
  | false => rfl
  | true =>
    rw [isAndOrTok_of_isListSep hsep] at hall
    cases hall

theorem refList_writtenList {list : ShList} (h : ListForm list) :
    refList ((writtenList list).map Item.token) .eof = list := by
  have hmarked : ∀ elements : List ListElement, (∀ e ∈ elements, e ∈ list.elements) →
      (∀ e ∈ elements, e.sep ≠ .none) → ∀ e ∈ listPieces elements,
        Marked (fun t : Token => isListSep t.type) (fun t => listSep t.type)
          (fun sep => (sepItems sep).map Item.token) e := by
    intro elements hmem hseps piece hpiece
    obtain ⟨e, he, rfl⟩ := List.mem_map.mp hpiece
    exact ⟨(h.chains e (hmem e he)).not_sep, writes_sep (hseps e he)⟩
  have hpieces : closed (fun t : Token => isListSep t.type) (fun t => listSep t.type) .none true
      ((writtenList list).map Item.token) = listPieces list.elements := by
    rcases h.seps with ⟨init, last, helements, hinit, hlast, hne⟩ | ⟨hne, hseps⟩
    · have hform : AndorForm last.andOr :=
        h.chains last (by rw [helements]; exact List.mem_append_right _ List.mem_cons_self)
      have hjoined : (writtenList list).map Item.token =
          joined (fun sep => (sepItems sep).map Item.token) (listPieces init) ++
            (writtenAndor last.andOr).map Item.token := by
        rw [writtenList_tokens, helements, listPieces, List.map_append, joined,
          List.flatMap_append, List.map_singleton, List.flatMap_singleton, hlast]
        exact congrArg _ (List.append_nil _)
      have hnonempty : listPieces init = [] ∨ (writtenAndor last.andOr).map Item.token ≠ [] := by
        refine hne.imp (fun h => by rw [h]; rfl) fun h hnil => h ?_
        rw [← refAndOr_writtenAndor hform, hnil]
      rw [hjoined, closed_joined_open (hmarked init (fun e he => by rw [helements]; simp [he]) hinit)
        hform.not_sep hnonempty, helements, listPieces, listPieces, List.map_append, List.map_singleton, hlast]
    · rw [writtenList_tokens]
      exact closed_joined (mt List.map_eq_nil_iff.mp hne) (hmarked _ (fun _ he => he) hseps)
  have hback : (listPieces list.elements).map (fun e => (⟨refAndOr e.1, e.2⟩ : ListElement)) =
      list.elements := by
    rw [listPieces, List.map_map]
    refine (List.map_congr_left fun e he => ?_).trans (List.map_id _)
    rw [Function.comp_apply, refAndOr_writtenAndor (h.chains e he)]
    rfl
  simp only [refList]
  rw [show ((TokenType.eof == .eof || TokenType.eof == .newline) = true) from rfl, hpieces, hback,
    listPieces, List.length_map, ← h.count]

/-! ## What the parser returns -/

/-- Words, operators, separators and redirections. -/
def ListItem : Item → Prop
  | .word pieces => ∃ w, PlainText w ∧ pieces = w.map Piece.plain
  | .op type => type = .pipe ∨ isAndOrOp type = true ∨ isListSep type = true
  | .redir _ type => isRedir type = true

/-- An input of these items, in which a word that is no assignment stands behind every
redirection. -/
structure ListInput (items : List (Item × Str)) : Prop where
  allowed : ∀ i ∈ items, ListItem i.1
  spaced : Spaced items
  targeted : Targeted (items.map fun i => i.1.token)

/-- A token of these inputs. -/
structure ListToken (t : Token) : Prop where
  allowed : isListTok t.type = true
  word : isWordTok t.type = true → PlainText t.value ∧ t.type = wordType t.value
  redir : isRedirect t.type = true → ∃ d : Fin 10, t.fd = (d : Nat)

/-- An operator is a control operator of the lexer, and a token of its own type. -/
theorem operator_facts {type : TokenType}
    (h : type = .pipe ∨ isAndOrOp type = true ∨ isListSep type = true) :
    isControl type = true ∧ isListTok type = true ∧ isWordTok type = false ∧
      isRedirect type = false := by
  cases type <;> first
    | exact ⟨rfl, rfl, rfl, rfl⟩
    | (rcases h with h | h | h <;> cases h)

theorem listItem_valid {item : Item} (h : ListItem item) : item.Valid := by
  cases item with
  | word pieces => exact @pipelineItem_valid (.word pieces) h
  | op type => exact (operator_facts h).1
  | redir digit type => exact h

theorem listToken_of_item {item : Item} (h : ListItem item) : ListToken item.token := by
  have pipeline : PipelineItem item → ListToken item.token := by
    intro hitem
    obtain ⟨hallowed, hword, hredir⟩ := plainToken_of_item hitem
    exact ⟨(isPipelineTok_not hallowed).2.2, hword, hredir⟩
  cases item with
  | word pieces => exact pipeline h
  | redir digit type => exact pipeline h
  | op type =>
    obtain ⟨-, hlist, hword, hredir⟩ := operator_facts h
    have htype : (Item.op type).token.type = type := rfl
    refine ⟨hlist, fun hw => ?_, fun hr => ?_⟩
    · rw [htype, hword] at hw
      cases hw
    · rw [htype, hredir] at hr
      cases hr

/-- A run of tokens as the pieces of an input are. -/
structure Run (l : List Token) : Prop where
  tokens : ∀ t ∈ l, ListToken t
  targeted : Targeted l

theorem Run.cut {c l : List Token} {s : Token} (h : Run (c ++ s :: l))
    (hs : isCommandTok s.type = false) : Run c ∧ Run l := by
  obtain ⟨hleft, hright⟩ := h.targeted.cut hs
  obtain ⟨htokens, hrest⟩ := List.forall_mem_append.mp h.tokens
  exact ⟨⟨htokens, hleft⟩, ⟨(List.forall_mem_cons.mp hrest).2, hright⟩⟩

theorem pipelineForm_refPipeline {l : List Token} (h : Run l)
    (hop : ∀ t ∈ l, isAndOrOp t.type = false) (hsep : ∀ t ∈ l, isListSep t.type = false) :
    PipelineForm (refPipeline l) where
  size := (List.length_map _).symm
  commands := mt List.map_eq_nil_iff.mp (List.splitOnP_ne_nil _ _)
  plain := by
    refine plainCommands_refPipeline (fun t ht => ?_) h.targeted
    obtain ⟨hallowed, hword, hredir⟩ := h.tokens t ht
    rw [isListTok, isAndOrTok, hop t ht, hsep t ht, Bool.or_false, Bool.or_false] at hallowed
    exact ⟨hallowed, hword, hredir⟩

theorem andorForm_refAndOr {l : List Token} (h : Run l)
    (hsep : ∀ t ∈ l, isListSep t.type = false) : AndorForm (refAndOr l) where
  count := (List.length_map _).symm
  ops := by
    obtain ⟨init, c, hpieces, hmarks⟩ := @separated_marks Token AndOrOp
      (fun t => isAndOrOp t.type) (fun t => andOrOp t.type) .none l
    refine ⟨init.map fun e => ⟨refPipeline e.1, e.2⟩, ⟨refPipeline c, .none⟩, ?_, ?_, rfl⟩
    · simp only [refAndOr, hpieces, List.map_append, List.map_singleton]
    · intro e he
      obtain ⟨piece, hpiece, rfl⟩ := List.mem_map.mp he
      obtain ⟨s, -, -, hs⟩ := hmarks piece hpiece
      simp only [← hs, andOrOp]
      split <;> (intro h; cases h)
  pipelines := by
    intro e he
    obtain ⟨piece, hpiece, rfl⟩ := List.mem_map.mp he
    have hpieces := @forall_separated Token AndOrOp (fun t => isAndOrOp t.type)
      (fun t => andOrOp t.type) .none (fun l => Run l ∧ ∀ t ∈ l, isListSep t.type = false)
      (fun c s l hl hs => by
        obtain ⟨hleft, hright⟩ := hl.1.cut
          (isCommandTok_of_isAndOrOp hs)
        obtain ⟨hseps, hrest⟩ := List.forall_mem_append.mp hl.2
        exact ⟨⟨hleft, hseps⟩, ⟨hright, (List.forall_mem_cons.mp hrest).2⟩⟩) l
      ⟨h, hsep⟩ piece hpiece
    exact pipelineForm_refPipeline hpieces.1.1 hpieces.2 hpieces.1.2

/-- Only the empty run is an empty chain. -/
theorem refAndOr_ne_empty {l : List Token} (hwf : Targeted l) (hne : l ≠ []) :
    refAndOr l ≠ refAndOr [] := by
  intro h
  have hcount : (separated (fun t : Token => isAndOrOp t.type) (fun t => andOrOp t.type)
      AndOrOp.none l).length = 1 := congrArg AndOr.count h
  have helements := congrArg AndOr.elements h
  simp only [refAndOr, separated_single (not_sep_of_length hcount),
    separated_single (List.forall_mem_nil _), List.map_singleton, List.cons.injEq,
    AndOrElement.mk.injEq, and_true] at helements
  have hsize : (refPipeline l).size = 1 := congrArg Pipeline.size helements
  simp only [refPipeline] at hsize
  rw [← map_fst_separated (fun _ => ()) (), List.length_map] at hsize
  have hcommands := congrArg Pipeline.commands helements
  simp only [refPipeline, List.splitOnP_eq_singleton (not_sep_of_length hsize),
    List.splitOnP_eq_singleton (List.forall_mem_nil _), List.map_singleton, List.cons.injEq,
    and_true] at hcommands
  cases hwf with
  | nil => exact hne rfl
  | redir hr _ _ =>
    have hredirs := congrArg Command.redirs hcommands
    simp [refCommand, redirections, hr] at hredirs
  | @plain t l ht _ =>
    have hassign := congrArg Command.assignmentList hcommands
    have hargv := congrArg Command.argv hcommands
    cases ha : isAssignment t <;> simp [refCommand, plainWords_cons ht, ha] at hassign hargv <;>
      simp [plainWords] at hassign hargv

theorem listForm_refList {l : List Token} (h : Run l) : ListForm (refList l .eof) := by
  have hclose : (TokenType.eof == .eof || TokenType.eof == .newline) = true := rfl
  have hpieces : ∀ e ∈ closed (fun t : Token => isListSep t.type) (fun t => listSep t.type)
      ListSep.none true l, Run e.1 ∧ ∀ t ∈ e.1, isListSep t.type = false := fun e he =>
    forall_separated (p := fun t : Token => isListSep t.type) (P := Run)
      (fun c s l hl hs => hl.cut (isCommandTok_of_isListSep hs)) h e (mem_closed he)
  have hmark : ∀ (b : ListSep), (∃ s ∈ l, isListSep s.type = true ∧ listSep s.type = b) →
      b ≠ .none := by
    rintro b ⟨s, -, -, rfl⟩
    unfold listSep
    split <;> (intro h; cases h)
  refine { count := ?_, seps := ?_, chains := ?_ }
  · exact (List.length_map _).symm
  · rcases @closed_marks Token ListSep (fun t => isListSep t.type)
      (fun t => listSep t.type) .none l with ⟨init, c, hl, hmarks, hne⟩ | ⟨hne, hmarks⟩
    · left
      refine ⟨init.map fun e => ⟨refAndOr e.1, e.2⟩, ⟨refAndOr c, .none⟩, ?_, ?_, rfl, ?_⟩
      · simp only [refList, hclose, hl, List.map_append, List.map_singleton]
      · intro e he
        obtain ⟨piece, hpiece, rfl⟩ := List.mem_map.mp he
        exact hmark _ (hmarks piece hpiece)
      · rcases hne with ⟨rfl, -⟩ | hne
        · exact .inl rfl
        · obtain ⟨hrun, hsep⟩ := hpieces (c, .none) (by rw [hl]; simp)
          exact .inr (refAndOr_ne_empty hrun.targeted hne)
    · right
      refine ⟨mt List.map_eq_nil_iff.mp hne, fun e he => ?_⟩
      obtain ⟨piece, hpiece, rfl⟩ := List.mem_map.mp he
      exact hmark _ (hmarks piece hpiece)
  · intro e he
    obtain ⟨piece, hpiece, rfl⟩ := List.mem_map.mp he
    obtain ⟨hrun, hsep⟩ := hpieces piece hpiece
    exact andorForm_refAndOr hrun hsep

/-! ## The round trip -/

theorem listItem_writtenCommand {command : Command} (h : PlainCommand command) :
    ∀ item ∈ writtenCommand command, ListItem item := by
  intro item hitem
  simp only [writtenCommand, List.mem_append, List.mem_map, List.mem_flatMap] at hitem
  rcases hitem with (⟨w, hw, rfl⟩ | ⟨w, hw, rfl⟩) | ⟨r, hr, hitem⟩
  · exact ⟨w, (h.assignments w hw).1, rfl⟩
  · exact ⟨w, h.args w hw, rfl⟩
  · rcases List.mem_pair.mp hitem with rfl | rfl
    · exact (redirTok_redir (h.redirs r hr).mode).1
    · exact ⟨r.target, (h.redirs r hr).target, rfl⟩

theorem listItem_writtenCommands {commands : List Command} (h : ∀ c ∈ commands, PlainCommand c) :
    ∀ item ∈ writtenCommands commands, ListItem item := by
  induction commands using writtenCommands.induct with
  | case1 => exact List.forall_mem_nil _
  | case2 command => exact listItem_writtenCommand (h command List.mem_cons_self)
  | case3 command next rest ih =>
    obtain ⟨hcommand, hrest⟩ := List.forall_mem_cons.mp h
    exact List.forall_mem_append.mpr ⟨listItem_writtenCommand hcommand,
      List.forall_mem_cons.mpr ⟨.inl rfl, ih hrest⟩⟩

theorem ListForm.input {list : ShList} (h : ListForm list) :
    ListInput (singleSpaced (writtenList list)) := by
  have hitems : ∀ item ∈ writtenList list, ListItem item := by
    intro item hitem
    obtain ⟨e, he, hitem⟩ := List.mem_flatMap.mp hitem
    rcases List.mem_append.mp hitem with hitem | hitem
    · obtain ⟨a, ha, hitem⟩ := List.mem_flatMap.mp hitem
      rcases List.mem_append.mp hitem with hitem | hitem
      · exact listItem_writtenCommands ((h.chains e he).pipelines a ha).plain item hitem
      · cases hop : a.op <;> rw [hop] at hitem
        · cases hitem
        · rw [List.mem_singleton.mp hitem]
          exact .inr (.inl rfl)
        · rw [List.mem_singleton.mp hitem]
          exact .inr (.inl rfl)
    · cases hsep : e.sep <;> rw [hsep] at hitem
      · rw [List.mem_singleton.mp hitem]
        exact .inr (.inr rfl)
      · rw [List.mem_singleton.mp hitem]
        exact .inr (.inr rfl)
      · cases hitem
  have htargeted : Targeted ((writtenList list).map Item.token) := by
    have hchains := h.chains
    unfold writtenList
    generalize list.elements = elements at hchains
    induction elements with
    | nil => exact .nil
    | cons e rest ih =>
      obtain ⟨hform, hrest⟩ := List.forall_mem_cons.mp hchains
      have hsep : Targeted ((sepItems e.sep).map Item.token) := by
        cases e.sep with
        | semi => exact .plain rfl .nil
        | amp => exact .plain rfl .nil
        | none => exact .nil
      rw [List.flatMap_cons, List.map_append, List.map_append]
      exact (hform.tokens.2.append hsep).append (ih hrest)
  refine ⟨forall_singleSpaced hitems, spaced_singleSpaced _, ?_⟩
  rw [map_singleSpaced]
  exact htargeted

/-- What the two functions make of such an input. -/
theorem lexAndParse_listInput {items : List (Item × Str)} (h : ListInput items)
    (beyond : Nat → UInt8) :
    lexAndParse beyond (render items) = .ok (some (refList (items.map fun i => i.1.token) .eof)) := by
  refine lexAndParse_render beyond (fun i hi => listItem_valid (h.allowed i hi)) h.spaced ?_ h.targeted
  intro t ht
  obtain ⟨i, hi, rfl⟩ := List.mem_map.mp ht
  exact (listToken_of_item (h.allowed i hi)).allowed

/-- A list in the form is read back from what is written for it. -/
theorem ListForm.lexAndParse_listText {list : ShList} (h : ListForm list) (beyond : Nat → UInt8) :
    lexAndParse beyond (listText list) = .ok (some list) := by
  rw [listText, lexAndParse_listInput h.input, map_singleSpaced, refList_writtenList h]

/-- **The lists that the parser can return** for an input of plain words, operators and
redirections, however it is spaced, are exactly those of the form, and every one of them
is read back from the text that is written for it. -/
theorem listForm_iff (beyond : Nat → UInt8) (list : ShList) :
    ((∃ items, ListInput items ∧ lexAndParse beyond (render items) = .ok (some list)) ↔
      ListForm list) ∧
    (ListForm list → lexAndParse beyond (listText list) = .ok (some list)) := by
  refine ⟨⟨?_, fun h => ⟨_, h.input, h.lexAndParse_listText beyond⟩⟩,
    fun h => h.lexAndParse_listText beyond⟩
  rintro ⟨items, hinput, hlex⟩
  rw [lexAndParse_listInput hinput] at hlex
  obtain rfl := Option.some.inj (Except.ok.inj hlex)
  refine listForm_refList ⟨fun t ht => ?_, hinput.targeted⟩
  obtain ⟨i, hi, rfl⟩ := List.mem_map.mp ht
  exact listToken_of_item (hinput.allowed i hi)

end Shell.ListRoundTrip
