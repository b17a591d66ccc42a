import Shell.LexerLexemes
import Shell.Variables

/-! # Which words are assignments (lx_scan, parse_command)

`lx_scan` has one flag for the equals sign and sets it wherever it reads one, quoted or
not. `wordsOf` cuts a text into its words without the lexer, and the word tokens of a
run are told by it. -/
namespace Shell.AssignmentWord
open Shell.CTypes Shell.Tokenlist Shell.Parsetypes Shell.Lexer Shell.Parser Shell.Variables

/-- `NAME=value`: a name in front of the first equals sign. -/
def IsAssignment (word : Str) : Prop :=
  chr '=' ∈ word ∧ validVariableName (word.takeWhile (· != chr '=')) = true

instance (word : Str) : Decidable (IsAssignment word) := inferInstanceAs (Decidable (_ ∧ _))

/-- The token is the first argument of a command that starts with it. -/
def CalledFirst (tok : Token) : Prop :=
  ∀ {fuel : Nat} {ts ts' : TokenStream} {command : Command}, tsPeek ts = tok →
    parseCommand fuel ts = .ok (command, ts') → command.argv.head? = some tok.value

/-- A word token is an assignment exactly if its text is, and is run otherwise. -/
structure Classified (tok : Token) : Prop where
  type : tok.type = .assignmentWord ↔ IsAssignment tok.value
  command : ¬ IsAssignment tok.value → tok.type = .word ∧ CalledFirst tok

/-- No backslash, dollar sign or backquote. -/
structure Plain (text : Str) : Prop where
  escape : chr '\\' ∉ text
  dollar : chr '$' ∉ text
  backquote : chr '`' ∉ text

theorem Plain.of_append {front text : Str} (h : Plain (front ++ text)) : Plain text where
  escape hmem := h.escape (List.mem_append_right _ hmem)
  dollar hmem := h.dollar (List.mem_append_right _ hmem)
  backquote hmem := h.backquote (List.mem_append_right _ hmem)

/-! ## The words of a text -/

def closeWord (w : Str) : List Str := if w = [] then [] else [w]

/-- The words of a text, cut at whitespace and operators outside of quotes; `w` is the
word so far. A quote that stays open leaves no word. -/
def wordsOf : Option QuoteFlag → Str → Str → List Str
  | none, w, [] => closeWord w
  | some _, _, [] => []
  | none, w, c :: l =>
    if isspace (toInt c) ∨ isoperator (toInt c) then closeWord w ++ wordsOf none [] l
    else if c = chr '\'' then wordsOf (some .singleQuoted) (w ++ [c]) l
    else if c = chr '"' then wordsOf (some .doubleQuoted) (w ++ [c]) l
    else wordsOf none (w ++ [c]) l
  | some flag, w, c :: l =>
    if c = quoteByte flag then wordsOf none (w ++ [c]) l else wordsOf (some flag) (w ++ [c]) l

theorem wordsOf_separators {b : Str}
    (hb : ∀ c ∈ b, isspace (toInt c) = true ∨ isoperator (toInt c) = true) (l : Str) :
    wordsOf none [] (b ++ l) = wordsOf none [] l := by
  induction b with
  | nil => rfl
  | cons c b ih =>
    rw [List.cons_append, wordsOf, if_pos (hb c List.mem_cons_self),
      ih fun d hd => hb d (List.mem_cons_of_mem _ hd)]
    rfl

/-- A digit that belongs to a redirection is cut off as a word of its own. -/
theorem wordsOf_operator {text : Str} {type : TokenType} (h : OperatorText text type) (l : Str) :
    ∃ w, wordsOf none [] (text ++ l) = closeWord w ++ wordsOf none [] l ∧ chr '=' ∉ w := by
  obtain ⟨digits, ops, rfl, hdigits, hne, hops⟩ := h.split
  obtain ⟨c, ops, rfl⟩ := List.exists_cons_of_ne_nil hne
  have hop := hops c List.mem_cons_self
  have hrest := wordsOf_separators (fun d hd => .inr (hops d (List.mem_cons_of_mem _ hd))) l
  refine ⟨digits, ?_, ?_⟩
  · rcases hdigits with rfl | ⟨d, rfl⟩
    · rw [List.nil_append, List.cons_append, wordsOf, if_pos (.inr hop), hrest]
    · obtain ⟨hplain, -, -, hsingle, hdouble, -⟩ := digitByte_ordinary d
      have hspace := (digitByte_starts d).1.1
      rw [Ne, toInt_eq_ch (by decide)] at hsingle hdouble
      rw [List.append_assoc, List.singleton_append, wordsOf,
        if_neg (by rw [hplain, hspace]; decide), if_neg hsingle, if_neg hdouble, List.cons_append,
        wordsOf, if_pos (.inr hop), hrest]
      rfl
  · rcases hdigits with rfl | ⟨d, rfl⟩
    · exact List.not_mem_nil
    · intro hmem
      have hdigit := isdigit_digitByte d
      rw [← List.mem_singleton.mp hmem] at hdigit
      cases hdigit

/-! ## The walk over a word -/

def modeOf : Option QuoteFlag → Mode
  | none => .bare
  | some flag => .quoted flag

/-- A walk that ends in an open quote, or at the end of a word, with the words of its text. -/
def Cuts (w : Str) (p : TokenType) (l : Str) (r : Walk) (ws : List Str) : Prop :=
  r.type = .err ∧ ws = [] ∨
    ∃ text, l = text ++ r.rest ∧ r.ahead = 0 ∧
      r.type = (if chr '=' ∈ text then .assignmentWord else p) ∧
      ws = closeWord (w ++ text) ++ wordsOf none [] r.rest

theorem Cuts.cons {c : UInt8} {w l : Str} {p : TokenType} {r : Walk} {ws : List Str}
    (h : Cuts (w ++ [c]) (typeAfter c p) l r ws) : Cuts w p (c :: l) r ws := by
  rcases h with herr | ⟨text, rfl, hahead, htype, hws⟩
  · exact .inl herr
  · refine .inr ⟨c :: text, rfl, hahead, ?_, by rw [hws, List.append_assoc]; rfl⟩
    rw [htype, typeAfter]
    by_cases hc : c = chr '='
    · simp [hc]
    · simp [hc, Ne.symm hc]

theorem walk_cuts {l : Str} (hplain : Plain l) (quote : Option QuoteFlag) (p : TokenType)
    (w : Str) : Cuts w p l (walk (modeOf quote) p 0 l) (wordsOf quote w l) := by
  induction l generalizing quote p w with
  | nil =>
    cases quote with
    | none => exact .inr ⟨[], rfl, rfl, rfl, by simp [modeOf, walk, wordsOf, closeWord]⟩
    | some flag => exact .inl ⟨rfl, rfl⟩
  | cons c l ih =>
    have hl : Plain l := @Plain.of_append [c] l hplain
    have hescape : c ≠ chr '\\' := fun h => hplain.escape (h ▸ List.mem_cons_self)
    have hdollar : c ≠ chr '$' := fun h => hplain.dollar (h ▸ List.mem_cons_self)
    have hbackquote : c ≠ chr '`' := fun h => hplain.backquote (h ▸ List.mem_cons_self)
    -- a quote does not change the type
    have hquote : ∀ {flag : QuoteFlag}, c = quoteByte flag → typeAfter c p = p := by
      intro flag hc
      rw [hc]
      cases flag <;> rfl
    cases quote with
    | none =>
      rw [modeOf, walk, wordsOf]
      split
      · exact .inr ⟨[], rfl, rfl, rfl, by simp [wordsOf, *, closeWord]⟩
      rw [if_neg fun h => hdollar h.1]
      split
      · rename_i hc
        have hcuts := ih hl (some .singleQuoted) p (w ++ [c])
        exact .cons (by rwa [@hquote .singleQuoted hc])
      split
      · rename_i hc
        have hcuts := ih hl (some .doubleQuoted) p (w ++ [c])
        exact .cons (by rwa [@hquote .doubleQuoted hc])
      rw [if_neg fun h => hescape h.1, if_neg fun h => hescape h.1]
      exact .cons (ih hl none _ _)
    | some flag =>
      rw [modeOf, walk, wordsOf]
      split
      · rename_i hc
        have hcuts := ih hl none p (w ++ [c])
        exact .cons (by rwa [hquote hc])
      · exact .cons (ih hl (some flag) _ _)

/-! ## The word tokens of a run -/

/-- The words of a text that have an equals sign. -/
def equalsWords (words : List Str) : List Str := words.filter fun w => w.contains (chr '=')

def wordLexemes (lexemes : List Lexeme) : List Lexeme :=
  lexemes.filter fun lexeme => isWordTok lexeme.type

theorem mem_equalsWords {words : List Str} {w : Str} :
    w ∈ equalsWords words ↔ w ∈ words ∧ chr '=' ∈ w := by
  simp [equalsWords]

theorem isWordTok_operator {type : TokenType} (h : isControl type = true ∨ isRedir type = true) :
    isWordTok type = false := by
  cases type <;> first | rfl | exact h.elim (fun h => by cases h) fun h => by cases h

/-- A token that is no word leaves no word with an equals sign, and a word leaves itself. -/
theorem nextToken_words {b text l : Str} {type : TokenType} {ahead : Nat}
    (h : NextToken b text l type ahead) (hplain : Plain (b ++ text ++ l)) :
    (isWordTok type = false ∧ ∃ w, wordsOf none [] (b ++ text ++ l) =
      closeWord w ++ wordsOf none [] l ∧ chr '=' ∉ w) ∨
    (type = wordType text ∧ ahead = 0 ∧
      wordsOf none [] (b ++ text ++ l) = text :: wordsOf none [] l) := by
  cases h with
  | newline =>
    have hnewline : ∀ c ∈ [chr '\n'], isspace (toInt c) = true ∨ isoperator (toInt c) = true :=
      List.forall_mem_singleton.mpr (.inl rfl)
    exact .inl ⟨rfl, [], wordsOf_separators hnewline l, List.not_mem_nil⟩
  | operator hb htext =>
    obtain ⟨w, hwords, heq⟩ := wordsOf_operator htext l
    rw [List.append_assoc, wordsOf_separators fun c hc => .inl (hb.1 c hc)]
    exact .inl ⟨isWordTok_operator htext.kind, w, hwords, heq⟩
  | word hb hne hspace hwalk herr =>
    rw [List.append_assoc] at hplain ⊢
    rw [wordsOf_separators fun c hc => .inl (hb.1 c hc)]
    rcases walk_cuts hplain.of_append none .word [] with ⟨htype, -⟩ |
      ⟨text', hsplit, hahead, htype, hws⟩
    · rw [modeOf, hwalk] at htype
      exact absurd htype herr
    · rw [modeOf, hwalk] at hsplit hahead htype hws
      obtain rfl : text = text' := List.append_cancel_right hsplit
      rw [hws, List.nil_append, closeWord, if_neg hne]
      exact .inr ⟨htype, hahead, rfl⟩

/-- The words of a text are those of its lexemes, as far as the equals sign goes, and
their types are told by it. -/
theorem lexes_words {pos : Nat} {l : Str} {lexemes : List Lexeme} {ok : Bool}
    (h : Lexes pos l lexemes ok) (hplain : Plain l) :
    equalsWords (wordsOf none [] l) = equalsWords ((wordLexemes lexemes).map Lexeme.text) ∧
      ∀ lexeme ∈ wordLexemes lexemes, lexeme.type = wordType lexeme.text ∧ lexeme.ahead = 0 := by
  induction h with
  | @eof pos b hb =>
    have hnil := wordsOf_separators (fun c hc => .inl (hb.1 c hc)) []
    rw [List.append_nil] at hnil
    rw [hnil]
    exact ⟨rfl, fun _ h => by cases h⟩
  | @err pos b l hb hwalk =>
    rw [wordsOf_separators fun c hc => .inl (hb.1 c hc)]
    rcases walk_cuts hplain.of_append none .word [] with ⟨-, hws⟩ | ⟨text, -, -, htype, -⟩
    · rw [hws]
      exact ⟨rfl, fun _ h => by cases h⟩
    · rw [modeOf, hwalk] at htype
      split at htype
      · cases htype
      · cases htype
  | @cons pos ahead b text l type lexemes ok hnext _ ih =>
    obtain ⟨hwords, htypes⟩ := ih hplain.of_append
    rcases nextToken_words hnext hplain with ⟨hnot, w, hsplit, heq⟩ | ⟨htype, hahead, hsplit⟩
    · have hdrop : wordLexemes (⟨pos + b.length, type, text, ahead⟩ :: lexemes) =
          wordLexemes lexemes := List.filter_cons_of_neg (by simpa using hnot)
      have hclosed : equalsWords (closeWord w) = [] := by
        refine List.eq_nil_iff_forall_not_mem.mpr fun w' hw' => ?_
        obtain ⟨hmem, heq'⟩ := mem_equalsWords.mp hw'
        rw [closeWord] at hmem
        split at hmem
        · cases hmem
        · rw [List.mem_singleton.mp hmem] at heq'
          exact heq heq'
      rw [hsplit, hdrop, equalsWords, List.filter_append]
      exact ⟨by rw [← hwords, ← equalsWords, hclosed]; rfl, htypes⟩
    · have hkeep : wordLexemes (⟨pos + b.length, type, text, ahead⟩ :: lexemes) =
          ⟨pos + b.length, type, text, ahead⟩ :: wordLexemes lexemes :=
        List.filter_cons_of_pos (by rw [htype]; exact isWordTok_wordType text)
      rw [hsplit, hkeep]
      refine ⟨?_, fun lexeme hmem => ?_⟩
      · rw [List.map_cons, equalsWords, equalsWords, List.filter_cons, List.filter_cons]
        exact congrArg (fun ws => if text.contains (chr '=') = true then text :: ws else ws) hwords
      · rcases List.mem_cons.mp hmem with rfl | hmem
        · exact ⟨htype, hahead⟩
        · exact htypes lexeme hmem

def wordTokens (tokens : List Token) : List Token := tokens.filter fun tok => isWordTok tok.type

theorem renders_words {lexemes : List Lexeme} {calls : List (Nat × Token)}
    (h : List.Forall₂ Renders lexemes calls)
    (hahead : ∀ lexeme ∈ wordLexemes lexemes, lexeme.ahead = 0) :
    (wordTokens (calls.map Prod.snd)).map (fun tok => (tok.type, tok.value)) =
      (wordLexemes lexemes).map fun lexeme => (lexeme.type, lexeme.text) := by
  induction h with
  | nil => rfl
  | @cons lexeme call lexemes calls hrender _ ih =>
    have hmore : ∀ lexeme' ∈ wordLexemes lexemes, lexeme'.ahead = 0 := fun lexeme' hmem =>
      hahead lexeme' (List.mem_filter.mpr ⟨List.mem_cons_of_mem _ (List.mem_filter.mp hmem).1,
        (List.mem_filter.mp hmem).2⟩)
    rw [List.map_cons, wordTokens, wordLexemes, List.filter_cons, List.filter_cons, hrender.type]
    split
    · rename_i hword
      have hvalue := hrender.value
        (hahead lexeme (List.mem_filter.mpr ⟨List.mem_cons_self, hword⟩))
      rw [List.map_cons, List.map_cons, hrender.type, hvalue]
      exact congrArg _ (ih hmore)
    · exact ih hmore

/-- The word tokens of a run: their types, and which of the words have an equals sign. -/
theorem lxTokenize_words (beyond : Nat → UInt8) {text : Str} (hnul : NulFree text)
    (hplain : Plain text) {tokens : List Token} (htokens : tokens =
      (lxTokenize beyond tokenlistNewEmpty (csNew text)).2.tokens) :
    equalsWords (wordsOf none [] (beforeEoi text)) =
        equalsWords ((wordTokens tokens).map Token.value) ∧
      ∀ tok ∈ wordTokens tokens, tok.type = wordType tok.value := by
  obtain ⟨calls, lexemes, ok, -, hcalls, -, hlexes, hrenders⟩ := lxTokenize_lexes beyond hnul
  have hfront : ∀ {c : UInt8}, c ∈ beforeEoi text → c ∈ text :=
    fun hmem => (List.takeWhile_prefix _).subset hmem
  have hfrontPlain : Plain (beforeEoi text) := ⟨fun h => hplain.escape (hfront h),
    fun h => hplain.dollar (hfront h), fun h => hplain.backquote (hfront h)⟩
  obtain ⟨hwords, htypes⟩ := lexes_words hlexes hfrontPlain
  have hpairs := renders_words hrenders fun lexeme hmem => (htypes lexeme hmem).2
  rw [← hcalls, ← htokens] at hpairs
  constructor
  · have hvalues := congrArg (List.map Prod.snd) hpairs
    rw [List.map_map, List.map_map] at hvalues
    rw [hwords]
    exact congrArg equalsWords hvalues.symm
  · intro tok hmem
    have hpair := List.mem_map_of_mem (f := fun tok : Token => (tok.type, tok.value)) hmem
    rw [hpairs] at hpair
    obtain ⟨lexeme, hlexeme, heq⟩ := List.mem_map.mp hpair
    obtain ⟨htype, hvalue⟩ := Prod.mk.inj heq
    rw [← htype, ← hvalue]
    exact (htypes lexeme hlexeme).1

/-! ## The parser's side -/

theorem calledFirst_of_word {tok : Token} (htype : tok.type = .word) : CalledFirst tok := by
  intro fuel ts ts' command hpeek hparse
  cases fuel with
  | zero => cases hparse
  | succ fuel =>
    rw [parseCommand, commandLoop, hpeek, if_pos htype] at hparse
    obtain ⟨rest, hargv⟩ := (commandLoop_appends hparse).1
    rw [← hargv]
    rfl

theorem classified_iff {tok : Token} (hword : tok.type = wordType tok.value) :
    Classified tok ↔ (chr '=' ∈ tok.value → IsAssignment tok.value) := by
  constructor
  · intro hclass heq
    exact hclass.type.mp (hword.trans (if_pos heq))
  · intro hshape
    refine ⟨⟨fun htype => hshape ?_, fun hassign => hword.trans (if_pos hassign.1)⟩, fun hnot => ?_⟩
    · by_contra hne
      rw [hword, wordType, if_neg hne] at htype
      cases htype
    · have htype : tok.type = .word := hword.trans (if_neg fun heq => hnot (hshape heq))
      exact ⟨htype, calledFirst_of_word htype⟩

/-- **A run tells assignments from words exactly if every word with an equals sign is
one.** For every text without backslash, dollar sign and backquote; the words are those of
the text, up to a byte 255. -/
theorem lxTokenize_classified_iff (beyond : Nat → UInt8) {text : Str} (hnul : NulFree text)
    (hplain : Plain text) :
    (∀ tok ∈ (lxTokenize beyond tokenlistNewEmpty (csNew text)).2.tokens,
        isWordTok tok.type = true → Classified tok) ↔
      ∀ word ∈ wordsOf none [] (beforeEoi text), chr '=' ∈ word → IsAssignment word := by
  obtain ⟨hwords, htypes⟩ := lxTokenize_words beyond hnul hplain rfl
  constructor
  · intro hclass word hmem heq
    have hmem' := mem_equalsWords.mpr ⟨hmem, heq⟩
    rw [hwords] at hmem'
    obtain ⟨tok, htok, rfl⟩ := List.mem_map.mp (mem_equalsWords.mp hmem').1
    obtain ⟨hin, hword⟩ := List.mem_filter.mp htok
    exact (classified_iff (htypes tok htok)).mp (hclass tok hin hword) heq
  · intro hshape tok hin hword
    have htok : tok ∈ wordTokens _ := List.mem_filter.mpr ⟨hin, hword⟩
    refine (classified_iff (htypes tok htok)).mpr fun heq => ?_
    have hmem := mem_equalsWords.mpr ⟨List.mem_map_of_mem htok, heq⟩
    rw [← hwords] at hmem
    exact hshape tok.value (mem_equalsWords.mp hmem).1 heq

/-- Assignments, other words, one of them in quotes, and a bar. -/
theorem lxTokenize_classified_plain :
    (lxTokenize (fun _ => 0) tokenlistNewEmpty (csNew (str "x=1 y=a a 'b c' | d"))).2.tokens.map
        Token.value = [str "x=1", str "y=a", str "a", str "'b c'", str "|", str "d", []] ∧
      ∀ tok ∈
        (lxTokenize (fun _ => 0) tokenlistNewEmpty (csNew (str "x=1 y=a a 'b c' | d"))).2.tokens,
        isWordTok tok.type = true → Classified tok :=
  ⟨by decide +kernel,
    (lxTokenize_classified_iff (fun _ => 0) (by decide) ⟨by decide, by decide, by decide⟩).mpr
      (by decide)⟩

/-- The one word of `'x=1'` is quoted, and is an assignment all the same. -/
theorem lxTokenize_assigns_quoted :
    ∃ tok ∈ (lxTokenize (fun _ => 0) tokenlistNewEmpty (csNew (str "'x=1'"))).2.tokens,
      tok.type = .assignmentWord ∧ tok.value = str "'x=1'" ∧ ¬ Classified tok := by
  have htokens : (lxTokenize (fun _ => 0) tokenlistNewEmpty (csNew (str "'x=1'"))).2.tokens =
      [⟨.assignmentWord, str "'x=1'", 0⟩, ⟨.eof, [], 0⟩] := by decide +kernel
  rw [htokens]
  refine ⟨_, List.mem_cons_self, rfl, rfl, fun hclass => ?_⟩
  have hassign := hclass.type.mp rfl
  exact absurd hassign.2 (by decide)

end Shell.AssignmentWord
