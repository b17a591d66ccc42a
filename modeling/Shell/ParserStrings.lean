import Shell.ExecPasses
import Shell.ExpandRefines

/-! # The words of a list are C strings

`lx_token` ends the text of a token at its first NUL, even where it has read past the
end of the input, and the parser only hands such texts on. -/
namespace Shell.Exec
open Shell.CTypes Shell.Tokenlist Shell.Parsetypes Shell.Parser Shell.Expand Shell.Lib

/-! ## Lists of C strings -/

structure CStrings (command : Command) : Prop where
  argv : ∀ word ∈ command.argv, NulFree word
  assignmentList : ∀ item ∈ command.assignmentList, NulFree item
  redirs : ∀ redirect ∈ command.redirs, NulFree redirect.target

def PipelineStrings (pipeline : Pipeline) : Prop := ∀ command ∈ pipeline.commands, CStrings command

def AndorStrings (andor : AndOr Pipeline) : Prop :=
  ∀ element ∈ andor.elements, PipelineStrings element.pipeline

def ListStrings (list : ShList) : Prop := ∀ element ∈ list.elements, AndorStrings element.andOr

theorem andorStrings_iff (andor : AndOr Pipeline) :
    AndorStrings andor ↔ ∀ command ∈ andorCommands andor, CStrings command := by
  simp only [AndorStrings, PipelineStrings, andorCommands, List.mem_flatMap, forall_exists_index,
    and_imp]
  constructor
  · exact fun h command element helement hcommand => h element helement command hcommand
  · exact fun h element helement command hcommand => h command element helement hcommand

theorem listStrings_iff (list : ShList) :
    ListStrings list ↔ ∀ command ∈ listCommands list, CStrings command := by
  simp only [ListStrings, andorStrings_iff, listCommands, List.mem_flatMap, forall_exists_index,
    and_imp]
  constructor
  · exact fun h command element helement hcommand => h element helement command hcommand
  · exact fun h element helement command hcommand => h command element helement hcommand

/-! ## What the parser is given -/

theorem nulFree_tokenText (data : Str) (beyond : Nat → UInt8) (start stop : Nat) :
    NulFree (Lexer.tokenText data beyond start stop) := by
  intro c hc
  simpa using List.mem_takeWhile_imp hc

theorem nulFree_lxToken {data : Str} {beyond : Nat → UInt8} {stream : Lexer.CharStream data}
    {errno : Int} {tok : Token} (h : (Lexer.lxToken beyond stream errno).tok = some tok) :
    NulFree tok.value := by
  simp only [Lexer.lxToken] at h
  split at h
  · cases h
    exact List.forall_mem_nil _
  split at h
  · cases h
  split at h
  · split at h
    · cases h
    · cases h
      exact nulFree_tokenText _ _ _ _
  · cases h
    exact nulFree_tokenText _ _ _ _

/-- The tokens behind a run of `lx_tokenize`, from a list of C strings. -/
theorem nulFree_lxTokenize {data : Str} (beyond : Nat → UInt8) {dst : TokenList}
    (hdst : ∀ tok ∈ dst.tokens, NulFree tok.value) :
    ∀ tok ∈ (Lexer.lxTokenize beyond dst (Lexer.csNew data)).2.tokens, NulFree tok.value := by
  have happend : ∀ (s : Lexer.TokenizeState data) tok,
      (∀ tok ∈ s.dst.tokens, NulFree tok.value) →
      (Lexer.lxToken beyond s.stream s.errno).tok = some tok →
      ∀ t ∈ (tokenlistAppendTok s.dst [tok]).tokens, NulFree t.value := by
    intro s tok hs htok
    rw [tokens_appendTok]
    exact List.forall_mem_append.mpr ⟨hs, by simpa using nulFree_lxToken htok⟩
  obtain ⟨t, ht, hexit⟩ := Loop.exec_invariant
    (fun s : Lexer.TokenizeState data => ∀ tok ∈ s.dst.tokens, NulFree tok.value)
    (Lexer.tokenizeBody_decreasing beyond) (s := ⟨dst, Lexer.csNew data, 0⟩)
    (fun s s' hs hb => by
      simp only [Lexer.tokenizeBody] at hb
      split at hb
      · cases hb
      · split at hb
        · cases hb
        · cases hb
          exact happend s _ hs ‹_›) hdst
  change Lexer.tokenizeBody beyond t = .inr (Lexer.lxTokenize beyond dst (Lexer.csNew data)) at hexit
  simp only [Lexer.tokenizeBody] at hexit
  split at hexit
  · obtain h := Sum.inr.inj hexit
    rw [← h]
    exact ht
  · split at hexit
    · obtain h := Sum.inr.inj hexit
      rw [← h]
      exact happend t _ ht ‹_›
    · cases hexit

/-! ## What the parser makes of C strings -/

/-- The tokens of a stream are C strings. -/
def StreamStrings (ts : TokenStream) : Prop := ∀ tok ∈ ts.tokens, NulFree tok.value

theorem streamStrings_tsRead (ts : TokenStream) (h : StreamStrings ts) :
    StreamStrings (tsRead ts).2 := by
  unfold tsRead
  split <;> exact h

theorem nulFree_tsPeek {ts : TokenStream} (h : StreamStrings ts) : NulFree (tsPeek ts).value :=
  h _ (List.get_mem _ _)

theorem strings_tsExpect {ts ts' : TokenStream} {type : TokenType} {tok : Token}
    (hts : StreamStrings ts) (h : tsExpect ts type = (some tok, ts')) :
    StreamStrings ts' ∧ NulFree tok.value := by
  unfold tsExpect at h
  split at h
  · cases h
  · obtain ⟨htok, rfl⟩ := Prod.mk.inj h
    obtain rfl := Option.some.inj htok
    refine ⟨streamStrings_tsRead ts hts, ?_⟩
    unfold tsRead
    split <;> exact nulFree_tsPeek hts

theorem strings_commandLoop (fuel : Nat) {c : Command} (hc : CStrings c) (ts : TokenStream)
    (r : Command × TokenStream) (hts : StreamStrings ts) (h : commandLoop fuel c ts = .ok r) :
    StreamStrings r.2 ∧ CStrings r.1 := by
  induction fuel generalizing c ts with
  | zero => cases h
  | succ fuel ih =>
    have hread := streamStrings_tsRead ts hts
    have hpeek := nulFree_tsPeek hts
    have hargv : CStrings { c with argv := c.argv ++ [(tsPeek ts).value] } :=
      ⟨List.forall_mem_append.mpr ⟨hc.argv, by simpa using hpeek⟩, hc.assignmentList, hc.redirs⟩
    have hassign : CStrings { c with assignmentList := c.assignmentList ++ [(tsPeek ts).value] } :=
      ⟨hc.argv, List.forall_mem_append.mpr ⟨hc.assignmentList, by simpa using hpeek⟩, hc.redirs⟩
    have hredirs : ∀ (redir : Redirect), NulFree redir.target →
        CStrings { c with redirs := c.redirs ++ [redir] } := fun redir h =>
      ⟨hc.argv, hc.assignmentList, List.forall_mem_append.mpr ⟨hc.redirs, by simpa using h⟩⟩
    simp only [commandLoop] at h
    split at h
    · exact ih hargv _ hread h
    split at h
    · split at h
      · exact ih hassign _ hread h
      · exact ih hargv _ hread h
    split at h
    · split at h
      · cases h
      · rename_i target ts' hexpect
        obtain ⟨hts', htarget⟩ := strings_tsExpect hread hexpect
        exact ih (hredirs _ htarget) _ hts' h
    · cases h
      exact ⟨hts, hc⟩

theorem strings_parseCommand (fuel : Nat) (ts : TokenStream) (r : Command × TokenStream)
    (hts : StreamStrings ts) (h : parseCommand fuel ts = .ok r) : StreamStrings r.2 ∧ CStrings r.1 :=
  strings_commandLoop fuel
    ⟨List.forall_mem_nil _, List.forall_mem_nil _, List.forall_mem_nil _⟩ ts r hts h

theorem strings_parsePipeline (fuel : Nat) (ts : TokenStream) (r : Pipeline × TokenStream)
    (hts : StreamStrings ts) (h : parsePipeline fuel ts = .ok r) :
    StreamStrings r.2 ∧ PipelineStrings r.1 := by
  obtain ⟨⟨chain, ts'⟩, hchain, h⟩ := bind_eq_ok h
  cases h
  obtain ⟨hts', -, hall⟩ := sepList_forall streamStrings_tsRead (strings_parseCommand fuel) hts hchain
  refine ⟨hts', fun command hcommand => ?_⟩
  obtain ⟨e, he, rfl⟩ := List.mem_map.mp hcommand
  exact hall e he

theorem strings_parseAndOr (fuel : Nat) (ts : TokenStream) (r : AndOr Pipeline × TokenStream)
    (hts : StreamStrings ts) (h : parseAndOr fuel ts = .ok r) :
    StreamStrings r.2 ∧ AndorStrings r.1 := by
  obtain ⟨⟨chain, ts'⟩, hchain, h⟩ := bind_eq_ok h
  cases h
  obtain ⟨hts', -, hall⟩ := sepList_forall streamStrings_tsRead (strings_parsePipeline fuel) hts hchain
  refine ⟨hts', fun element helement => ?_⟩
  obtain ⟨e, he, rfl⟩ := List.mem_map.mp helement
  exact hall e he

theorem strings_parseList (fuel : Nat) (ts : TokenStream) (r : ShList × TokenStream)
    (hts : StreamStrings ts) (h : parseList fuel ts = .ok r) :
    StreamStrings r.2 ∧ ListStrings r.1 := by
  obtain ⟨⟨chain, ts'⟩, hchain, h⟩ := bind_eq_ok h
  cases h
  obtain ⟨hts', -, hall⟩ := sepList_forall streamStrings_tsRead (strings_parseAndOr fuel) hts hchain
  refine ⟨hts', fun element helement => ?_⟩
  obtain ⟨e, he, rfl⟩ := List.mem_map.mp helement
  exact hall e he

/-- Whatever the text and whatever lies behind it, the words of its list are C strings. -/
theorem strings_lexAndParse {beyond : Nat → UInt8} {text : Str} {list : ShList}
    (h : lexAndParse beyond text = .ok (some list)) : ListStrings list := by
  simp only [lexAndParse] at h
  split at h
  · cases h
  · have htokens := @nulFree_lxTokenize text beyond tokenlistNewEmpty (List.forall_mem_nil _)
    split at h
    · cases h
    · rename_i ts hnew
      have hts : StreamStrings ts := by
        unfold tsNew at hnew
        split at hnew
        · obtain rfl := Option.some.inj hnew
          exact htokens
        · cases hnew
      cases hparse : parseList ts.tokens.length ts with
      | error e =>
        rw [hparse] at h
        cases h
      | ok r =>
        rw [hparse] at h
        cases h
        exact (strings_parseList _ _ r hts hparse).2

end Shell.Exec
