import Mathlib.Data.List.Forall2
import Shell.LexerErrors

/-! # A text as lexemes

What the calls of `lx_token` make of a text, as a relation on lists of bytes: blanks,
the bytes of a token, what is left. The lexer sees the text up to its first byte 255;
every run of the lexer over a text is one of the relation over that part of it. -/
namespace Shell.Lexer
open Shell.CTypes Shell.Tokenlist Shell.Lib

/-! ## Calls of lx_token -/

/-- The calls of `lx_token` from a stream on, each with where its token begins, up to the
end of the input or to a call that fails. -/
inductive Calls {data : Str} (beyond : Nat → UInt8) :
    CharStream data → Int → List (Nat × Token) → Bool → Prop
  | eof {stream : CharStream data} {errno : Int} {tok : Token} :
    (lxToken beyond stream errno).tok = some tok → tok.type = .eof →
    Calls beyond stream errno [((lxScan stream).start, tok)] true
  | fail {stream : CharStream data} {errno : Int} : (lxToken beyond stream errno).tok = none →
    Calls beyond stream errno [] false
  | cons {stream : CharStream data} {errno : Int} {tok : Token} {calls : List (Nat × Token)}
      {ok : Bool} :
    (lxToken beyond stream errno).tok = some tok → tok.type ≠ .eof →
    Calls beyond (lxToken beyond stream errno).stream (lxToken beyond stream errno).errno calls ok →
    Calls beyond stream errno (((lxScan stream).start, tok) :: calls) ok

/-- The loop of `lx_tokenize` appends the tokens of its calls, and returns 0 only if none
of them fails. -/
theorem calls_of_tokenizeFrom {data : Str} (beyond : Nat → UInt8) (dst : TokenList)
    (stream : CharStream data) (errno : Int) :
    ∃ calls ok, Calls beyond stream errno calls ok ∧
      (tokenizeFrom beyond ⟨dst, stream, errno⟩).2.tokens = dst.tokens ++ calls.map Prod.snd ∧
      ((tokenizeFrom beyond ⟨dst, stream, errno⟩).1 = 0 → ok = true) := by
  induction hn : data.length - stream.pos using Nat.strong_induction_on
    generalizing dst stream errno with
  | _ n ih =>
    cases htok : (lxToken beyond stream errno).tok with
    | none =>
      rw [tokenizeFrom_none htok]
      exact ⟨[], false, .fail htok, (List.append_nil _).symm,
        fun hzero => absurd hzero (lxToken_none htok)⟩
    | some tok =>
      by_cases heof : tok.type = .eof
      · rw [tokenizeFrom_eof htok heof]
        exact ⟨[((lxScan stream).start, tok)], true, .eof htok heof, tokens_appendTok _ _,
          fun _ => rfl⟩
      · have hlt := lxToken_pos htok heof
        have := (lxToken beyond stream errno).stream.inBounds
        obtain ⟨calls, ok, hcalls, htokens, hzero⟩ := ih _ (by omega)
          (tokenlistAppendTok dst [tok]) (lxToken beyond stream errno).stream
          (lxToken beyond stream errno).errno rfl
        rw [tokenizeFrom_next htok heof]
        refine ⟨((lxScan stream).start, tok) :: calls, ok, .cons htok heof hcalls, ?_, hzero⟩
        rw [htokens, tokens_appendTok, List.append_assoc]
        rfl

/-! ## The relation on bytes -/

/-- The bytes of an operator, with the digit in front of a redirection. -/
structure OperatorText (text : Str) (type : TokenType) : Prop where
  split : ∃ digits ops, text = digits ++ ops ∧
    (digits = [] ∨ ∃ d : Fin 10, digits = [digitByte d]) ∧ ops ≠ [] ∧
      ∀ c ∈ ops, isoperator (toInt c) = true
  kind : isControl type = true ∨ isRedir type = true

/-- A token: the blanks in front of it, its bytes, what is left, its type, and how far
`*end` is ahead of the cursor behind it. -/
inductive NextToken : Str → Str → Str → TokenType → Nat → Prop
  | newline {l : Str} : NextToken [] [chr '\n'] l .newline 0
  | operator {b text l : Str} {type : TokenType} : OnlyBlanks b → OperatorText text type →
    NextToken b text l type 0
  | word {b text l : Str} {type : TokenType} {ahead : Nat} : OnlyBlanks b → text ≠ [] →
    isspace (peekOf (text ++ l)) = false → walk .bare .word 0 (text ++ l) = ⟨type, l, ahead⟩ →
    type ≠ .err → NextToken b text l type ahead

structure Lexeme where
  start : Nat
  type : TokenType
  text : Str
  ahead : Nat
  deriving DecidableEq, Repr

/-- A text from a position on as lexemes; `false` is a text that does not lex. -/
inductive Lexes : Nat → Str → List Lexeme → Bool → Prop
  | eof {pos : Nat} {b : Str} : OnlyBlanks b → Lexes pos b [⟨pos + b.length, .eof, [], 0⟩] true
  | err {pos : Nat} {b l : Str} : OnlyBlanks b → (walk .bare .word 0 l).type = .err →
    Lexes pos (b ++ l) [] false
  | cons {pos ahead : Nat} {b text l : Str} {type : TokenType} {lexemes : List Lexeme} {ok : Bool} :
    NextToken b text l type ahead → Lexes (pos + b.length + text.length) l lexemes ok →
    Lexes pos (b ++ text ++ l) (⟨pos + b.length, type, text, ahead⟩ :: lexemes) ok

/-- A token made from a lexeme: where `*end` is ahead, its text goes on behind the bytes
that were read for it. -/
structure Renders (lexeme : Lexeme) (call : Nat × Token) : Prop where
  start : call.1 = lexeme.start
  type : call.2.type = lexeme.type
  text : lexeme.text <+: call.2.value
  value : lexeme.ahead = 0 → call.2.value = lexeme.text

/-! ## The scans of a text without the byte 255 -/

section Scans
variable {front : Str} {t : CharStream front}

theorem lxScan_eof (hl : ∀ c ∈ t.rest, c ≠ 255) (heof : (lxScan t).type = .eof) :
    OnlyBlanks t.rest ∧ (lxScan t).start = t.pos + t.rest.length := by
  have hblanks := (lxScan_eof_iff hl).mp heof
  refine ⟨hblanks, ?_⟩
  have hscan := lxScan_skips (b := t.rest) (l := []) hblanks.1 hblanks.2 rfl
    (List.append_nil _).symm
  obtain ⟨here, hhere, hscan⟩ := hscan
  have hpos := pos_add_length_rest here
  rw [hhere, List.length_nil] at hpos
  rw [hscan, peekOf_nil, if_pos rfl, pos_add_length_rest]
  exact hpos

theorem lxScan_err (hl : ∀ c ∈ t.rest, c ≠ 255) (herr : (lxScan t).type = .err) :
    ∃ b l, t.rest = b ++ l ∧ OnlyBlanks b ∧ (walk .bare .word 0 l).type = .err := by
  rcases lxScan_first hl with ⟨l, -, htype, -, -⟩ | ⟨b, here, hb, -, hrest, hcase⟩
  · rw [htype] at herr
    cases herr
  · rcases hcase with hop | ⟨-, htype, -⟩ | hmatch
    · exact absurd herr hop.token.2
    · rw [htype] at herr
      cases herr
    · exact ⟨b, here.rest, hrest, hb, hmatch.type ▸ herr⟩

/-- Where a token begins, the text falls into what is skipped and what is read. -/
theorem split_of_start {b : Str} {here : CharStream front} (hrest : t.rest = b ++ here.rest)
    (hstart : (lxScan t).start = here.pos) (hread : here.pos ≤ (lxScan t).stream.pos) :
    skipped t = b ∧ consumed t ++ (lxScan t).stream.rest = here.rest := by
  have hlength := congrArg List.length hrest
  rw [List.length_append] at hlength
  have hpos := pos_add_length_rest t
  have hpos' := pos_add_length_rest here
  have hskip : skipped t = b := by
    have hcount : here.pos - t.pos = b.length := by omega
    rw [skipped, hstart, hcount, show front.drop t.pos = b ++ here.rest from hrest, List.take_left]
  have hsplit := rest_eq_skipped_consumed (hstart ▸ hread)
  rw [hrest, hskip, List.append_assoc] at hsplit
  exact ⟨hskip, (List.append_cancel_left hsplit).symm⟩

theorem lxScan_next (hl : ∀ c ∈ t.rest, c ≠ 255) (heof : (lxScan t).type ≠ .eof)
    (herr : (lxScan t).type ≠ .err) :
    NextToken (skipped t) (consumed t) (lxScan t).stream.rest (lxScan t).type
      ((lxScan t).stop - (lxScan t).stream.pos) := by
  obtain ⟨hstart, -⟩ := lxScan_span t heof herr
  have hin := (lxScan t).stream.inBounds
  have hconsumed : 0 < (consumed t).length := by
    rw [consumed, List.length_take, List.length_drop]
    omega
  rcases lxScan_first hl with ⟨l, hrest, htype, hread, hstop⟩ |
    ⟨b, here, hb, hspace, hrest, hcase⟩
  · have hsplit := rest_eq_skipped_consumed (Nat.le_of_lt hstart)
    rw [hrest, hread] at hsplit
    have hone : [chr '\n'] = skipped t ++ consumed t := List.append_cancel_right hsplit
    have hlength := congrArg List.length hone
    rw [List.length_append, List.length_singleton] at hlength
    have hskip : skipped t = [] := List.length_eq_zero_iff.mp (by omega)
    rw [hskip, List.nil_append] at hone
    rw [hskip, ← hone, htype, hstop, Nat.sub_self]
    exact .newline
  rcases hcase with hop | ⟨-, htype, -⟩ | hmatch
  · obtain ⟨hskip, hread⟩ := split_of_start hrest hop.start (hop.start ▸ Nat.le_of_lt hstart)
    obtain ⟨digits, ops, hsplit, hdigits, hne, hops⟩ := hop.split
    rw [hsplit] at hread
    rw [hskip, List.append_cancel_right hread, hop.stop, Nat.sub_self]
    exact .operator hb ⟨⟨digits, ops, rfl, hdigits, hne, hops⟩, hop.kind⟩
  · exact absurd htype heof
  · obtain ⟨hbegin, hwrest, hstop⟩ := hmatch.word (hmatch.type ▸ herr)
    obtain ⟨hskip, hread⟩ := split_of_start hrest hbegin (hbegin ▸ Nat.le_of_lt hstart)
    rw [hskip, hstop, Nat.add_sub_cancel_left]
    refine .word hb (List.ne_nil_of_length_pos hconsumed) (by rw [hread]; exact hspace) ?_ herr
    rw [hread, hmatch.type, hwrest]

end Scans

/-! ## The calls for any text -/

/-- The two streams read the same. -/
structure SameScan {text front : Str} (s : CharStream text) (t : CharStream front) : Prop where
  type : (lxScan s).type = (lxScan t).type
  pos : (lxScan s).stream.pos = (lxScan t).stream.pos
  start : (lxScan s).start = (lxScan t).start
  stop : (lxScan s).stop = (lxScan t).stop
  redir : isRedir (lxScan s).type = true → RedirText text (lxScan s).start (lxScan s).stop

section Texts
variable {text : Str} {beyond : Nat → UInt8} {s : CharStream text}
  {t : CharStream (beforeEoi text)}

theorem sameScan_of_pos (hpos : s.pos = t.pos) : SameScan s t := by
  have hfront := ne_255_of_mem_beforeEoi text
  have hl : ∀ c ∈ t.rest, c ≠ 255 := fun c hc => hfront c (List.mem_of_mem_drop hc)
  have hredir := lxScan_redirText hl
  have hsplit := beforeEoi_split text
  clear hfront hl
  revert t
  generalize beforeEoi text = front at hsplit
  intro t hpos hredir
  rcases hsplit with rfl | ⟨back, rfl⟩
  · obtain rfl : s = t := by
      cases s
      cases t
      cases hpos
      rfl
    exact ⟨rfl, rfl, rfl, rfl, hredir⟩
  · have hsame := lxScan_same hpos
    refine ⟨hsame.type, hsame.pos, hsame.start, hsame.stop, fun hr => ?_⟩
    rw [hsame.start, hsame.stop]
    exact (hredir (hsame.type ▸ hr)).append _

theorem ne_255_of_mem_rest (t : CharStream (beforeEoi text)) : ∀ c ∈ t.rest, c ≠ 255 :=
  fun c hc => ne_255_of_mem_beforeEoi text c (List.mem_of_mem_drop hc)

theorem pos_lxScan (hstart : (lxScan t).start ≤ (lxScan t).stream.pos) :
    (lxScan t).start = t.pos + (skipped t).length ∧
      (lxScan t).stream.pos = t.pos + (skipped t).length + (consumed t).length := by
  have hle := (lxScan_skipped t).1
  have hin := (lxScan t).stream.inBounds
  simp only [skipped, consumed, List.length_take, List.length_drop]
  omega

/-- The bytes read for a token, in the text with all that stands behind them. -/
theorem consumed_eq (hstart : (lxScan t).start ≤ (lxScan t).stream.pos) : consumed t =
    (text.drop (lxScan t).start).take ((lxScan t).stream.pos - (lxScan t).start) := by
  obtain ⟨tail, htail⟩ : beforeEoi text <+: text := List.takeWhile_prefix _
  have hin := (lxScan t).stream.inBounds
  have hdrop : text.drop (lxScan t).start = (beforeEoi text).drop (lxScan t).start ++ tail := by
    rw [← List.drop_append_of_le_length (by omega), htail]
  rw [consumed, hdrop, List.take_append_of_le_length (by rw [List.length_drop]; omega)]

theorem renders_next (hnul : NulFree text) (hsame : SameScan s t) {errno : Int} {tok : Token}
    (htok : (lxToken beyond s errno).tok = some tok) (heof : tok.type ≠ .eof) :
    Renders ⟨t.pos + (skipped t).length, (lxScan t).type, consumed t,
      (lxScan t).stop - (lxScan t).stream.pos⟩ ((lxScan s).start, tok) := by
  obtain ⟨hne, herr, hvalue⟩ := lxToken_value htok heof
  obtain ⟨hstart, hstop⟩ := lxScan_span t (hsame.type ▸ hne) (hsame.type ▸ herr)
  have hin := (lxScan s).stream.inBounds
  have hsame' := hsame.pos
  rw [tokenText_eq_take hnul (by rw [hsame.start]; omega), hsame.start, hsame.stop] at hvalue
  refine ⟨?_, (lxToken_type htok).trans hsame.type, ?_, fun hahead => ?_⟩
  · exact hsame.start.trans (pos_lxScan (Nat.le_of_lt hstart)).1
  · show consumed t <+: tok.value
    rw [hvalue, consumed_eq (Nat.le_of_lt hstart)]
    exact List.take_prefix_take_left (by omega)
  · have hahead' : (lxScan t).stop - (lxScan t).stream.pos = 0 := hahead
    have hstop' : (lxScan t).stop = (lxScan t).stream.pos := by omega
    show tok.value = consumed t
    rw [hvalue, hstop', consumed_eq (Nat.le_of_lt hstart)]

/-- **The calls of the lexer on a text are lexemes of the part in front of its first byte
255.** -/
theorem Calls.lexes (hnul : NulFree text) {errno : Int} {calls : List (Nat × Token)} {ok : Bool}
    (h : Calls beyond s errno calls ok) (hpos : s.pos = t.pos) :
    ∃ lexemes, Lexes t.pos t.rest lexemes ok ∧ List.Forall₂ Renders lexemes calls := by
  induction h generalizing t with
  | @eof s errno tok htok heof =>
    have hsame := sameScan_of_pos hpos
    have hscan : (lxScan s).type = .eof := (lxToken_type htok).symm.trans heof
    obtain ⟨hblanks, hstart⟩ := lxScan_eof (ne_255_of_mem_rest t) (hsame.type ▸ hscan)
    rw [lxToken_eof hscan] at htok
    obtain rfl := Option.some.inj htok
    exact ⟨_, .eof hblanks, .cons ⟨hsame.start.trans hstart, rfl, List.nil_prefix, fun _ => rfl⟩ .nil⟩
  | @fail s errno htok =>
    have hsame := sameScan_of_pos hpos
    have herr : (lxScan s).type = .err := by
      by_contra herr
      by_cases heof : (lxScan s).type = .eof
      · rw [lxToken_eof heof] at htok
        cases htok
      · obtain ⟨fd, errno', htoken, -⟩ := lxToken_token beyond errno heof herr hsame.redir
        rw [htoken] at htok
        cases htok
    obtain ⟨b, l, hrest, hb, hwalk⟩ := lxScan_err (ne_255_of_mem_rest t) (hsame.type ▸ herr)
    rw [hrest]
    exact ⟨[], .err hb hwalk, .nil⟩
  | @cons s errno tok calls ok htok heof _ ih =>
    have hsame := sameScan_of_pos hpos
    obtain ⟨hne, herr, -⟩ := lxToken_value htok heof
    obtain ⟨hstart, -⟩ := lxScan_span t (hsame.type ▸ hne) (hsame.type ▸ herr)
    have hnext := lxScan_next (ne_255_of_mem_rest t) (hsame.type ▸ hne) (hsame.type ▸ herr)
    obtain ⟨lexemes, hlexes, hrenders⟩ := @ih (lxScan t).stream (by
      rw [lxToken_stream]
      exact hsame.pos)
    rw [(pos_lxScan (Nat.le_of_lt hstart)).2] at hlexes
    rw [rest_eq_skipped_consumed (Nat.le_of_lt hstart)]
    exact ⟨_, .cons hnext hlexes, .cons (renders_next hnul hsame htok heof) hrenders⟩

/-- A run of `lx_tokenize` over a text, as calls and as lexemes. -/
theorem lxTokenize_lexes (beyond : Nat → UInt8) (hnul : NulFree text) :
    ∃ calls lexemes ok, Calls beyond (csNew text) 0 calls ok ∧
      (lxTokenize beyond tokenlistNewEmpty (csNew text)).2.tokens = calls.map Prod.snd ∧
      ((lxTokenize beyond tokenlistNewEmpty (csNew text)).1 = 0 → ok = true) ∧
      Lexes 0 (beforeEoi text) lexemes ok ∧ List.Forall₂ Renders lexemes calls := by
  obtain ⟨calls, ok, hcalls, htokens, hzero⟩ :=
    calls_of_tokenizeFrom beyond tokenlistNewEmpty (csNew text) 0
  obtain ⟨lexemes, hlexes, hrenders⟩ := hcalls.lexes (t := csNew (beforeEoi text)) hnul rfl
  exact ⟨calls, lexemes, ok, hcalls, htokens, hzero, hlexes, hrenders⟩

end Texts

end Shell.Lexer
