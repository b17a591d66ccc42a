import Shell.LexerRender
import Shell.ParserReference

/-! # From a line to a list

The lexer reads a rendered line back and the parser decomposes it, so
`lex_and_parse` of a rendered line is the reference decomposition of its tokens.
A line of words alone is one command. -/
namespace Shell.Parser
open Shell.CTypes Shell.Tokenlist Shell.Parsetypes Shell.Lexer Shell.Lib.Separated

theorem lexAndParse_render (beyond : Nat → UInt8) {items : List (Item × Str)}
    (hvalid : ∀ i ∈ items, i.1.Valid) (hspaced : Spaced items)
    (hall : ∀ t ∈ items.map (·.1.token), isListTok t.type = true)
    (hwf : Targeted (items.map (·.1.token))) :
    lexAndParse beyond (render items) = .ok (some (refList (items.map (·.1.token)) .eof)) := by
  obtain ⟨list, hlex, hlist⟩ := lxTokenize_render beyond items hvalid hspaced
  have hpos : 0 < list.tokens.length := by simp [hlist]
  have hrest : TokenStream.rest ⟨list.tokens, 0, hpos⟩ =
      items.map (·.1.token) ++ eofToken :: [] := by
    rw [TokenStream.rest, List.drop_zero]
    exact hlist
  have hlen : (items.map (·.1.token)).length < list.tokens.length := by simp [hlist]
  obtain ⟨ts, hparse, -⟩ :=
    parseList_spec hall hwf (t := eofToken) rfl (fun _ => rfl) hrest hlen
  simp only [lexAndParse, hlex, tsNew, dif_pos hpos, ne_eq, not_true_eq_false, if_false]
  rw [hparse]
  rfl

/-- A word without quotes. -/
def wordItem (text : Str) : Item := .word (text.map .plain)

theorem wordItem_valid {text : Str} (hne : text ≠ [])
    (h : ∀ c ∈ text, isspace (toInt c) = false ∧ isoperator (toInt c) = false ∧
      c ∉ [chr '\'', chr '"', chr '\\', chr '$', chr '`', 0, 255]) : (wordItem text).Valid := by
  refine ⟨by simpa using hne, fun piece hp => ?_⟩
  obtain ⟨c, hc, rfl⟩ := List.mem_map.mp hp
  exact ⟨(h c hc).1, (h c hc).2.1, (h c hc).2.2⟩

theorem wordItem_bytes (l : Str) : (wordItem l).bytes = l := by
  induction l with
  | nil => rfl
  | cons c l ih =>
    have hcons : (wordItem (c :: l)).bytes = c :: (wordItem l).bytes := rfl
    rw [hcons, ih]

theorem wordItem_token (l : Str) : (wordItem l).token = ⟨wordType l, l, 0⟩ := by
  have htoken : (wordItem l).token = ⟨wordType (wordItem l).bytes, (wordItem l).bytes, 0⟩ := rfl
  rw [htoken, wordItem_bytes]

/-- One command and nothing else. -/
def singleCommand (command : Command) : ShList :=
  { count := 1, elements := [⟨{ count := 1, elements :=
      [⟨{ size := 1, commands := [command] }, .none⟩] }, .none⟩] }

theorem isWordTok_not {type : TokenType} (h : isWordTok type = true) :
    isRedirect type = false ∧ isPipe type = false ∧ isAndOrOp type = false ∧
      isListSep type = false ∧ isListTok type = true := by
  cases type <;> first
    | exact ⟨rfl, rfl, rfl, rfl, rfl⟩
    | cases h

theorem plainWords_words : ∀ {l : List Token}, (∀ t ∈ l, isRedirect t.type = false) →
    plainWords l = l ∧ redirections l = []
  | [], _ => ⟨rfl, rfl⟩
  | [_], _ => ⟨rfl, rfl⟩
  | t :: u :: l, h => by
    have ht := h t (by simp)
    obtain ⟨hplain, hredir⟩ := plainWords_words (l := u :: l) fun v hv => h v (by simp [hv])
    rw [plainWords, redirections, ht, hplain, hredir]
    exact ⟨rfl, rfl⟩

theorem targeted_words {l : List Token} (h : ∀ t ∈ l, isRedirect t.type = false) :
    Targeted l := by
  induction l with
  | nil => exact .nil
  | cons t l ih => exact .plain (h t (by simp)) (ih fun u hu => h u (by simp [hu]))

/-- The first word is no assignment, so none behind it is one either. -/
theorem refList_words {t : Token} {l : List Token} {stop : TokenType} (ht : t.type = .word)
    (hl : ∀ u ∈ l, isWordTok u.type = true) :
    refList (t :: l) stop = singleCommand
      { argv := (t :: l).map Token.value, assignmentList := [], redirs := [] } := by
  have hwords : ∀ u ∈ t :: l, isWordTok u.type = true := by
    intro u hu
    rcases List.mem_cons.mp hu with rfl | hu
    · rw [ht]; rfl
    · exact hl u hu
  have hnot := fun u hu => isWordTok_not (hwords u hu)
  obtain ⟨hplain, hredir⟩ := plainWords_words fun u hu => (hnot u hu).1
  have hassign : isAssignment t = false := by rw [isAssignment, ht]; rfl
  have hcommand : refCommand (t :: l) =
      { argv := (t :: l).map Token.value, assignmentList := [], redirs := [] } := by
    rw [refCommand, hplain, hredir, List.dropWhile_cons_of_neg (by simp [hassign]),
      List.takeWhile_cons_of_neg (by simp [hassign])]
    rfl
  have hpipeline : refPipeline (t :: l) = { size := 1, commands := [refCommand (t :: l)] } := by
    rw [refPipeline, List.splitOnP_eq_singleton fun u hu => (hnot u hu).2.1]
    rfl
  have handor : refAndOr (t :: l) =
      { count := 1, elements := [⟨refPipeline (t :: l), .none⟩] } := by
    rw [refAndOr, separated_single fun u hu => (hnot u hu).2.2.1]
    rfl
  rw [refList, closed_single fun u hu => (hnot u hu).2.2.2.1]
  simp only [List.map_cons, List.map_nil, List.length_singleton, handor, hpipeline, hcommand]
  rfl

end Shell.Parser
