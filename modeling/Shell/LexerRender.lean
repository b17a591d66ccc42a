import Shell.LexerSteps

/-! # Rendering and lexing

Items are words made of plain bytes and quoted spans, operators and
redirections. `render` writes items down with blanks behind them, and the lexer
reads the items back wherever the blanks left out could not merge two of them. -/
namespace Shell.Lexer
open Shell.CTypes Shell.Tokenlist Shell.Lib

variable {data : Str}

/-! ## Items -/

inductive Piece
  | plain (c : UInt8)
  | quoted (flag : QuoteFlag) (body : Str)

def Piece.bytes : Piece → Str
  | .plain c => [c]
  | .quoted flag body => quoteByte flag :: (body ++ [quoteByte flag])

/-- A byte with no meaning to the lexer outside quotes. -/
structure PlainByte (c : UInt8) : Prop where
  space : isspace (toInt c) = false
  operator : isoperator (toInt c) = false
  not_special : c ∉ [chr '\'', chr '"', chr '\\', chr '$', chr '`', 0, 255]

def Piece.Valid : Piece → Prop
  | .plain c => PlainByte c
  | .quoted flag body => flag ≠ .unquoted ∧ ∀ c ∈ body, c ≠ quoteByte flag ∧ c ≠ 0 ∧ c ≠ 255

def wordBytes (pieces : List Piece) : Str := pieces.flatMap Piece.bytes

inductive Item
  | word (pieces : List Piece)
  | op (type : TokenType)
  | redir (digit : Option (Fin 10)) (type : TokenType)

/-- The text of an operator or redirection without a digit. -/
def operatorText : TokenType → Str
  | .pipe => [chr '|']
  | .or => [chr '|', chr '|']
  | .amp => [chr '&']
  | .and => [chr '&', chr '&']
  | .semi => [chr ';']
  | .lparen => [chr '(']
  | .rparen => [chr ')']
  | .lbrace => [chr '\x7b']
  | .rbrace => [chr '\x7d']
  | .redirIn => [chr '<']
  | .redirHeredoc => [chr '<', chr '<']
  | .redirOut => [chr '>']
  | .redirAppend => [chr '>', chr '>']
  | _ => []

def isControl : TokenType → Bool
  | .pipe | .or | .amp | .and | .semi | .lparen | .rparen | .lbrace | .rbrace => true
  | _ => false

def digitByte (d : Fin 10) : UInt8 := UInt8.ofNat (48 + d)

def Item.bytes : Item → Str
  | .word pieces => wordBytes pieces
  | .op type => operatorText type
  | .redir none type => operatorText type
  | .redir (some d) type => digitByte d :: operatorText type

def Item.Valid : Item → Prop
  | .word pieces => pieces ≠ [] ∧ ∀ piece ∈ pieces, piece.Valid
  | .op type => isControl type = true
  | .redir _ type => isRedir type = true

/-- A word with an `=` in it, quoted or not, is an assignment to the lexer. -/
def wordType (text : Str) : TokenType := if chr '=' ∈ text then .assignmentWord else .word

def defaultFd (type : TokenType) : Int :=
  if type = .redirIn ∨ type = .redirHeredoc then 0 else 1

def Item.token : Item → Token
  | .word pieces => ⟨wordType (wordBytes pieces), wordBytes pieces, 0⟩
  | .op type => ⟨type, operatorText type, 0⟩
  | .redir none type => ⟨type, operatorText type, defaultFd type⟩
  | .redir (some d) type => ⟨type, digitByte d :: operatorText type, (d : Nat)⟩

/-- Two items that may stand next to each other without a blank. -/
def MayGlue : Item → Item → Prop
  | .word _, .op _ => True
  | .word pieces, .redir none _ => ¬ ∀ c ∈ wordBytes pieces, isdigit (toInt c) = true
  | .op _, .word _ => True
  | .redir _ _, .word _ => True
  | _, _ => False

def Blank (b : Str) : Prop := ∀ c ∈ b, c = chr ' ' ∨ c = chr '\t'

/-- Blanks behind every item, left out only where two items may stand next to
each other, or behind the last one. -/
def Spaced : List (Item × Str) → Prop
  | [] => True
  | [(_, b)] => Blank b
  | (t, b) :: (u, b') :: rest => Blank b ∧ (b = [] → MayGlue t u) ∧ Spaced ((u, b') :: rest)

def render (items : List (Item × Str)) : Str := items.flatMap fun i => i.1.bytes ++ i.2

theorem isWordTok_wordType (text : Str) : isWordTok (wordType text) = true := by
  rw [wordType]
  split <;> rfl

/-- Items with a single blank between them. -/
def singleSpaced : List Item → List (Item × Str)
  | [] => []
  | [item] => [(item, [])]
  | item :: next :: rest => (item, [chr ' ']) :: singleSpaced (next :: rest)

theorem map_singleSpaced {γ : Type} (f : Item → γ) (l : List Item) :
    (singleSpaced l).map (fun i => f i.1) = l.map f := by
  induction l using singleSpaced.induct with
  | case1 => rfl
  | case2 item => rfl
  | case3 item next rest ih =>
    rw [singleSpaced, List.map_cons, ih]
    rfl

theorem forall_singleSpaced {P : Item → Prop} {l : List Item} (h : ∀ item ∈ l, P item) :
    ∀ i ∈ singleSpaced l, P i.1 := by
  intro i hi
  have hfst := map_singleSpaced id l
  rw [List.map_id] at hfst
  refine h i.1 ?_
  rw [← hfst]
  exact List.mem_map_of_mem hi

theorem spaced_singleSpaced (l : List Item) : Spaced (singleSpaced l) := by
  have hspace : Blank [chr ' '] := fun c hc => .inl (List.mem_singleton.mp hc)
  have hglue : ∀ t u : Item, [chr ' '] = ([] : Str) → MayGlue t u := fun _ _ h => by cases h
  induction l using singleSpaced.induct with
  | case1 => exact trivial
  | case2 item => exact fun c hc => by cases hc
  | case3 item next rest ih =>
    cases rest with
    | nil => exact ⟨hspace, hglue _ _, ih⟩
    | cons last rest => exact ⟨hspace, hglue _ _, ih⟩

theorem render_singleSpaced (l : List Item) :
    render (singleSpaced l) = [chr ' '].intercalate (l.map Item.bytes) := by
  induction l using singleSpaced.induct with
  | case1 => rfl
  | case2 item => simp [singleSpaced, render]
  | case3 item next rest ih =>
    have hcons : render (singleSpaced (item :: next :: rest)) =
        item.bytes ++ [chr ' '] ++ render (singleSpaced (next :: rest)) := rfl
    rw [hcons, ih]
    simp only [List.map_cons, List.intercalate_cons_cons]

/-! ## What an item starts with -/

/-- Where the lexer is neither at a blank nor at the end. -/
def Starts (l : Str) : Prop := isspace (peekOf l) = false ∧ peekOf l ≠ eoi

/-- Where a word ends. -/
def Ends (l : Str) : Prop := isspace (peekOf l) = true ∨ peekOf l = eoi ∨ isoperator (peekOf l) = true

theorem starts_piece {piece : Piece} (h : piece.Valid) (l : Str) :
    Starts (piece.bytes ++ l) ∧ isoperator (peekOf (piece.bytes ++ l)) = false := by
  cases piece with
  | plain c =>
    have h255 : c ≠ 255 := fun he => h.not_special (by simp [he])
    exact ⟨⟨h.space, fun he => h255 (toInt_eq_eoi.mp he)⟩, h.operator⟩
  | quoted flag body =>
    cases flag with
    | unquoted => exact absurd rfl h.1
    | singleQuoted => exact ⟨⟨rfl, ch_ne_eoi '\''⟩, rfl⟩
    | doubleQuoted => exact ⟨⟨rfl, ch_ne_eoi '"'⟩, rfl⟩

theorem starts_word {pieces : List Piece} (hne : pieces ≠ []) (h : ∀ p ∈ pieces, p.Valid)
    (l : Str) :
    Starts (wordBytes pieces ++ l) ∧ isoperator (peekOf (wordBytes pieces ++ l)) = false := by
  obtain ⟨p, ps, rfl⟩ := List.exists_cons_of_ne_nil hne
  rw [wordBytes, List.flatMap_cons, List.append_assoc]
  exact starts_piece (h p (by simp)) _

theorem operatorText_cons {type : TokenType} (h : isControl type = true ∨ isRedir type = true) :
    ∃ c l, operatorText type = c :: l ∧ isoperator (toInt c) = true := by
  cases type <;> first
    | exact ⟨_, _, rfl, rfl⟩
    | exact h.elim (fun h => by cases h) fun h => by cases h

theorem control_not_redir {type : TokenType} (h : isControl type = true) (l : Str) :
    peekOf (operatorText type ++ l) ≠ ch '<' ∧ peekOf (operatorText type ++ l) ≠ ch '>' := by
  have hfirst : (operatorText type).head?.all
      (fun c => decide (toInt c ≠ ch '<' ∧ toInt c ≠ ch '>')) = true := by
    revert h
    cases type <;> decide
  obtain ⟨c, tail, htext, -⟩ := operatorText_cons (.inl h)
  rw [htext] at hfirst ⊢
  exact of_decide_eq_true hfirst

theorem starts_of_operator {l : Str} (h : isoperator (peekOf l) = true) : Starts l := by
  unfold Starts
  generalize peekOf l = c at h ⊢
  simp only [isoperator, Bool.or_eq_true, beq_iff_eq] at h
  rcases h with (((((((rfl | rfl) | rfl) | rfl) | rfl) | rfl) | rfl) | rfl) | rfl <;> decide

/-! ## Words -/

section Word
variable {start : Nat} {s : ScanState data}

theorem scanLoop_piece {piece : Piece} {l : Str} (h : piece.Valid) (hs : s.flag = .unquoted)
    (hrest : s.stream.rest = piece.bytes ++ l)
    (hdigit : s.stop = start → ∀ c, piece.bytes = [c] → isdigit (toInt c) = true →
      peekOf l ≠ ch '<' ∧ peekOf l ≠ ch '>') :
    scanLoop start s = scanFrom start (peekOf l) (readAll s piece.bytes) := by
  cases piece with
  | plain c =>
    have hspecial := h.not_special
    simp only [List.mem_cons, List.not_mem_nil, or_false, not_or] at hspecial
    obtain ⟨hsingle, hdouble, hescape, hsub, hback, -, -⟩ := hspecial
    have hordinary : Ordinary c (peekOf l) (s.stop = start) := {
      operator := h.operator
      sub := fun he => absurd he hsub
      backquote := hback
      singleQuote := hsingle
      doubleQuote := hdouble
      escape := fun he => absurd he hescape
      digit := fun hstop hd => hdigit hstop c rfl hd }
    obtain ⟨stream, stop, _, p⟩ := s
    cases hs
    exact scanLoop_of_next (scanBody_ordinary hrest hordinary)
  | quoted flag body =>
    have hrest' : s.stream.rest = quoteByte flag :: (body ++ quoteByte flag :: l) := by
      simpa [Piece.bytes] using hrest
    exact scanLoop_quotes h.1 hs hrest' fun c hc => ⟨(h.2 c hc).1, (h.2 c hc).2.2⟩

theorem Piece.bytes_ne_nil (piece : Piece) : piece.bytes ≠ [] := by
  cases piece <;> simp [Piece.bytes]

theorem scanLoop_pieces {pieces : List Piece} {l : Str} (hne : pieces ≠ [])
    (h : ∀ p ∈ pieces, p.Valid) (hs : s.flag = .unquoted)
    (hrest : s.stream.rest = wordBytes pieces ++ l) (hstart : start ≤ s.stop)
    (hdigit : s.stop = start → ∀ c, wordBytes pieces = [c] → isdigit (toInt c) = true →
      peekOf l ≠ ch '<' ∧ peekOf l ≠ ch '>') :
    scanLoop start s = scanFrom start (peekOf l) (readAll s (wordBytes pieces)) := by
  induction pieces generalizing s with
  | nil => exact absurd rfl hne
  | cons piece pieces ih =>
    have hpiece := h piece (by simp)
    have hbytes : wordBytes (piece :: pieces) = piece.bytes ++ wordBytes pieces := rfl
    rw [hbytes] at hrest hdigit ⊢
    cases pieces with
    | nil =>
      rw [show wordBytes [] = [] from rfl, List.append_nil] at *
      exact scanLoop_piece hpiece hs hrest hdigit
    | cons next pieces =>
      have hvalid : ∀ p ∈ next :: pieces, p.Valid := fun p hp => h p (by simp [hp])
      obtain ⟨⟨hspace, heoi⟩, hop⟩ := starts_word (by simp) hvalid l
      have hround := @scanLoop_piece data start s piece _ hpiece hs
        (by rw [hrest, List.append_assoc]) fun _ _ _ _ => by
          constructor <;> intro he <;> rw [he] at hop <;> cases hop
      have hlong : piece.bytes.length ≠ 0 := by
        simpa using piece.bytes_ne_nil
      rw [hround, scanFrom_go, ih (by simp) hvalid, readAll_append]
      · rw [readAll_flag, hs]
      · exact readAll_rest (by rw [hrest, List.append_assoc])
      · rw [readAll_stop]
        omega
      · intro hstop
        rw [readAll_stop] at hstop
        omega
      · rw [readAll_flag, hs]
        simp [lxEndOfToken, hspace, heoi]

/-- A word read up to its end, from its first byte on. -/
theorem scanLoop_word {pieces : List Piece} {l : Str} {here : CharStream data} (hne : pieces ≠ [])
    (h : ∀ p ∈ pieces, p.Valid) (hrest : here.rest = wordBytes pieces ++ l) (hl : Ends l)
    (hdigit : ∀ c, wordBytes pieces = [c] → isdigit (toInt c) = true →
      peekOf l ≠ ch '<' ∧ peekOf l ≠ ch '>') :
    ∃ stream : CharStream data, stream.rest = l ∧
      scanLoop here.pos ⟨here, here.pos, .unquoted, .word⟩ =
        ⟨wordType (wordBytes pieces), stream, here.pos,
          here.pos + (wordBytes pieces).length⟩ := by
  have hrun := scanLoop_pieces (s := ⟨here, here.pos, .unquoted, .word⟩) hne h rfl hrest
    (Nat.le_refl _) fun _ => hdigit
  generalize hend : readAll (⟨here, here.pos, .unquoted, .word⟩ : ScanState data)
    (wordBytes pieces) = e at hrun
  have hflag : e.flag = .unquoted := by rw [← hend, readAll_flag]
  have hstop : e.stop = here.pos + (wordBytes pieces).length := by rw [← hend, readAll_stop]
  have htype : e.predictedType = wordType (wordBytes pieces) := by
    rw [← hend, readAll_type]
    rfl
  have herest : e.stream.rest = l := by
    rw [← hend]
    exact readAll_rest hrest
  refine ⟨e.stream, herest, ?_⟩
  rw [hrun, ← htype, ← hstop]
  by_cases hblank : (isspace (peekOf l) || peekOf l == eoi) = true
  · exact scanFrom_done hflag hblank
  · -- one more round, which finds an operator
    have hgo : lxEndOfToken (peekOf l) e.flag = false := by
      rw [hflag]
      simpa [lxEndOfToken] using hblank
    have hop : isoperator (peekOf l) = true := by
      simp only [Bool.or_eq_true, beq_iff_eq, not_or] at hblank
      exact (hl.resolve_left hblank.1).resolve_left hblank.2
    obtain ⟨c, l', rfl⟩ : ∃ c l', l = c :: l' := by
      cases l with
      | nil => cases hop
      | cons c l' => exact ⟨c, l', rfl⟩
    have hlong : (wordBytes pieces).length ≠ 0 := by
      obtain ⟨p, ps, rfl⟩ := List.exists_cons_of_ne_nil hne
      simp [wordBytes, p.bytes_ne_nil]
    rw [scanFrom_go hgo]
    obtain ⟨stream, stop, _, p⟩ := e
    cases hflag
    refine scanLoop_of_inr (scanBody_operator herest hop ?_)
    have hstop' : stop = here.pos + (wordBytes pieces).length := hstop
    show stop ≠ here.pos
    omega

end Word

/-! ## Operators and redirections -/

/-- No operator character is ahead, so a single operator is not doubled. -/
theorem peekOf_ne_of_not_operator {l : Str} (h : isoperator (peekOf l) = false) :
    peekOf l ≠ ch '|' ∧ peekOf l ≠ ch '&' ∧ peekOf l ≠ ch '<' ∧ peekOf l ≠ ch '>' := by
  refine ⟨?_, ?_, ?_, ?_⟩ <;> intro he <;> rw [he] at h <;> cases h

/-- No operator of one character is doubled in front of `l`. -/
def NotDoubled (type : TokenType) (l : Str) : Prop :=
  ∀ c, operatorText type = [c] → peekOf l ≠ toInt c

theorem notDoubled_of_not_operator {type : TokenType}
    (htype : isControl type = true ∨ isRedir type = true) {l : Str}
    (hl : isoperator (peekOf l) = false) : NotDoubled type l := by
  intro c hc hpeek
  obtain ⟨c', tail, htext, hop⟩ := operatorText_cons htype
  rw [hc] at htext
  obtain ⟨rfl, -⟩ := List.cons.inj htext
  rw [hpeek, hop] at hl
  cases hl

theorem lxScanOperator_eq {type : TokenType} (htype : isControl type = true ∨ isRedir type = true)
    {stream : CharStream data} {l : Str} (hrest : stream.rest = operatorText type ++ l)
    (hl : NotDoubled type l) (start stop : Nat) :
    ∃ stream' : CharStream data, stream'.rest = l ∧
      lxScanOperator stream (csPeek stream) start stop =
        ⟨type, stream', start, stop + (operatorText type).length⟩ := by
  cases type with
  | pipe | amp | semi | lparen | rparen | lbrace | rbrace | redirIn | redirOut =>
    -- one character is read
    have hnext := hl _ rfl
    refine ⟨csRead stream, by rw [rest_csRead, hrest]; rfl, ?_⟩
    revert hnext
    simp +decide [lxScanOperator, csPeek_eq, csPeekAhead_eq, hrest, operatorText]
      <;> exact fun h => h
  | or | and | redirHeredoc | redirAppend =>
    refine ⟨csRead (csRead stream), by rw [rest_csRead, rest_csRead, hrest]; rfl, ?_⟩
    simp +decide [lxScanOperator, csPeek_eq, csPeekAhead_eq, hrest, operatorText]
  | _ => exact htype.elim (fun h => by cases h) fun h => by cases h

theorem scanLoop_operator {type : TokenType} (htype : isControl type = true ∨ isRedir type = true)
    {here : CharStream data} {l : Str} (hrest : here.rest = operatorText type ++ l)
    (hl : NotDoubled type l) :
    ∃ stream : CharStream data, stream.rest = l ∧
      scanLoop here.pos ⟨here, here.pos, .unquoted, .word⟩ =
        ⟨type, stream, here.pos, here.pos + (operatorText type).length⟩ := by
  obtain ⟨c, tail, htext, hop⟩ := operatorText_cons htype
  have hpeek : csPeek here = toInt c := by rw [csPeek_eq, hrest, htext]; rfl
  obtain ⟨stream, hstream, hscan⟩ := lxScanOperator_eq htype hrest hl here.pos here.pos
  refine ⟨stream, hstream, ?_⟩
  rw [← hscan]
  refine scanLoop_of_inr ?_
  rw [hpeek]
  simp only [scanBody, scanUnquoted, hpeek, hop, if_true]

theorem isdigit_digitByte (d : Fin 10) : isdigit (toInt (digitByte d)) = true := by
  revert d
  decide

/-- A digit is none of the characters the tests before look for. -/
theorem digitByte_ordinary (d : Fin 10) :
    isoperator (toInt (digitByte d)) = false ∧ toInt (digitByte d) ≠ ch '$' ∧
      toInt (digitByte d) ≠ ch '`' ∧ toInt (digitByte d) ≠ ch '\'' ∧
      toInt (digitByte d) ≠ ch '"' ∧ toInt (digitByte d) ≠ ch '\\' := by
  revert d
  decide

theorem digitByte_starts (d : Fin 10) :
    (isspace (toInt (digitByte d)) = false ∧ toInt (digitByte d) ≠ eoi) ∧ digitByte d ≠ 0 := by
  revert d
  decide

/-- A digit in front of a redirection belongs to it. -/
theorem scanLoop_redir_digit {type : TokenType} (htype : isRedir type = true) (d : Fin 10)
    {here : CharStream data} {l : Str}
    (hrest : here.rest = digitByte d :: (operatorText type ++ l))
    (hl : NotDoubled type l) :
    ∃ stream : CharStream data, stream.rest = l ∧
      scanLoop here.pos ⟨here, here.pos, .unquoted, .word⟩ =
        ⟨type, stream, here.pos, here.pos + (digitByte d :: operatorText type).length⟩ := by
  have hnext : (csRead here).rest = operatorText type ++ l := by
    rw [rest_csRead, hrest]
    rfl
  have hpeek : csPeek here = toInt (digitByte d) := by rw [csPeek_eq, hrest]; rfl
  have hahead : csPeekAhead here 1 = ch '<' ∨ csPeekAhead here 1 = ch '>' := by
    rw [csPeekAhead_eq, hrest]
    cases type with
    | redirIn | redirHeredoc => exact .inl rfl
    | redirOut | redirAppend => exact .inr rfl
    | _ => cases htype
  obtain ⟨hop, hsub, hback, hsingle, hdouble, hescape⟩ := digitByte_ordinary d
  obtain ⟨stream, hstream, hscan⟩ :=
    lxScanOperator_eq (.inr htype) hnext hl here.pos (here.pos + 1)
  refine ⟨stream, hstream, ?_⟩
  have hlen : here.pos + 1 + (operatorText type).length =
      here.pos + (digitByte d :: operatorText type).length := by
    rw [List.length_cons]
    omega
  rw [← hlen, ← hscan]
  refine scanLoop_of_inr ?_
  simp only [scanBody, scanUnquoted, hpeek, hop, hsub, hback, hsingle, hdouble, hescape,
    isdigit_digitByte, hahead, Bool.false_eq_true, false_and, or_self, if_false, and_self, if_true]

/-! ## Blanks in front of a token -/

theorem blank_isspace {b : Str} (hb : Blank b) : ∀ c ∈ b, isspace (toInt c) = true := by
  intro c hc
  rcases hb c hc with rfl | rfl <;> rfl

theorem blank_head {b : Str} (hb : Blank b) : b.head? ≠ some (chr '\n') := by
  cases b with
  | nil => exact fun h => by cases h
  | cons c b =>
    intro h
    obtain rfl : c = chr '\n' := Option.some.inj h
    rcases hb (chr '\n') List.mem_cons_self with h | h <;> cases h

theorem lxScan_blanks {b l : Str} (hb : Blank b) (hl : isspace (peekOf l) = false)
    {stream : CharStream data} (hrest : stream.rest = b ++ l) :
    ∃ here : CharStream data, here.rest = l ∧ lxScan stream =
      if peekOf l = eoi then ⟨.eof, here, here.pos, here.pos⟩
      else scanLoop here.pos ⟨here, here.pos, .unquoted, .word⟩ := by
  exact lxScan_skips (blank_isspace hb) (blank_head hb) hl hrest

/-! ## Tokens -/

/-- What may stand behind an item for it to be read as that item. -/
def Follows (l : Str) : Item → Prop
  | .word pieces => Ends l ∧ ∀ c, wordBytes pieces = [c] → isdigit (toInt c) = true →
      peekOf l ≠ ch '<' ∧ peekOf l ≠ ch '>'
  | .op _ | .redir _ _ => isoperator (peekOf l) = false

theorem Item.starts {item : Item} (h : item.Valid) (l : Str) : Starts (item.bytes ++ l) := by
  cases item with
  | word pieces => exact (starts_word h.1 h.2 l).1
  | op type =>
    obtain ⟨c, tail, htext, hop⟩ := operatorText_cons (.inl h)
    rw [Item.bytes, htext]
    exact starts_of_operator hop
  | redir digit type =>
    cases digit with
    | none =>
      obtain ⟨c, tail, htext, hop⟩ := operatorText_cons (.inr h)
      rw [Item.bytes, htext]
      exact starts_of_operator hop
    | some d => exact (digitByte_starts d).1

theorem nulFree_operatorText (type : TokenType) : NulFree (operatorText type) := by
  cases type <;> decide

theorem Piece.nulFree {piece : Piece} (h : piece.Valid) : NulFree piece.bytes := by
  intro c hc
  cases piece with
  | plain b =>
    obtain rfl : c = b := by simpa [Piece.bytes] using hc
    exact fun h0 => h.not_special (by simp [h0])
  | quoted flag body =>
    have hquote : quoteByte flag ≠ 0 := by
      cases flag with
      | unquoted => exact absurd rfl h.1
      | singleQuoted => decide
      | doubleQuoted => decide
    simp only [Piece.bytes, List.mem_cons, List.mem_append, List.not_mem_nil, or_false] at hc
    rcases hc with rfl | hc | rfl
    · exact hquote
    · exact (h.2 c hc).2.1
    · exact hquote

theorem Item.nulFree {item : Item} (h : item.Valid) : NulFree item.bytes := by
  cases item with
  | word pieces =>
    intro c hc
    obtain ⟨piece, hpiece, hc⟩ := List.mem_flatMap.mp hc
    exact Piece.nulFree (h.2 piece hpiece) c hc
  | op type => exact nulFree_operatorText type
  | redir digit type =>
    cases digit with
    | none => exact nulFree_operatorText type
    | some d =>
      intro c hc
      rcases List.mem_cons.mp hc with rfl | hc
      · exact (digitByte_starts d).2
      · exact nulFree_operatorText type c hc

theorem operator_type_ne {type : TokenType} (h : isControl type = true ∨ isRedir type = true) :
    type ≠ .eof ∧ type ≠ .err := by
  constructor
  · rintro rfl
    exact h.elim (fun h => by cases h) fun h => by cases h
  · rintro rfl
    exact h.elim (fun h => by cases h) fun h => by cases h

theorem Item.type_ne {item : Item} (h : item.Valid) :
    item.token.type ≠ .eof ∧ item.token.type ≠ .err := by
  cases item with
  | word pieces =>
    simp only [Item.token, wordType]
    split <;> decide
  | op type => exact operator_type_ne (.inl h)
  | redir digit type => cases digit <;> exact operator_type_ne (.inr h)

/-- A scan that starts at an item reads just that item in front of `l`. -/
def Reads (data : Str) (item : Item) (l : Str) : Prop :=
  ∀ here : CharStream data, here.rest = item.bytes ++ l → ∃ stream : CharStream data,
    stream.rest = l ∧ scanLoop here.pos ⟨here, here.pos, .unquoted, .word⟩ =
      ⟨item.token.type, stream, here.pos, here.pos + item.bytes.length⟩

theorem reads_item {item : Item} (h : item.Valid) {l : Str} (hl : Follows l item) :
    Reads data item l := by
  intro here hhere
  cases item with
  | word pieces => exact scanLoop_word h.1 h.2 hhere hl.1 hl.2
  | op type => exact scanLoop_operator (.inl h) hhere (notDoubled_of_not_operator (.inl h) hl)
  | redir digit type =>
    have hnot := notDoubled_of_not_operator (.inr h) hl
    cases digit with
    | none => exact scanLoop_operator (.inr h) hhere hnot
    | some d => exact scanLoop_redir_digit h d hhere hnot

/-- The scan of an item, whitespace in front of it included. -/
theorem lxScan_item {item : Item} (h : item.Valid) {b l : Str}
    (hb : ∀ c ∈ b, isspace (toInt c) = true) (hnl : b.head? ≠ some (chr '\n'))
    (hreads : Reads data item l) {stream : CharStream data}
    (hrest : stream.rest = b ++ (item.bytes ++ l)) :
    ∃ here stream' : CharStream data, here.rest = item.bytes ++ l ∧ stream'.rest = l ∧
      lxScan stream = ⟨item.token.type, stream', here.pos, here.pos + item.bytes.length⟩ := by
  obtain ⟨hspace, heoi⟩ := item.starts h l
  obtain ⟨here, hhere, hscan⟩ := lxScan_skips hb hnl hspace hrest
  rw [if_neg heoi] at hscan
  obtain ⟨stream', hstream', hloop⟩ := hreads here hhere
  exact ⟨here, stream', hhere, hstream', by rw [hscan, hloop]⟩

theorem strtol_operatorText {type : TokenType} (h : isRedir type = true) :
    strtol (operatorText type) = (0, false, false) := by
  cases type with
  | redirIn | redirHeredoc | redirOut | redirAppend => decide
  | _ => cases h

theorem strtol_digit {type : TokenType} (h : isRedir type = true) (d : Fin 10) :
    strtol (digitByte d :: operatorText type) = (((d : Nat) : Int), false, true) := by
  revert d
  cases type with
  | redirIn | redirHeredoc | redirOut | redirAppend => decide
  | _ => cases h

theorem lxToken_item {item : Item} (h : item.Valid) {b l : Str}
    (hb : ∀ c ∈ b, isspace (toInt c) = true) (hnl : b.head? ≠ some (chr '\n'))
    (hreads : Reads data item l) {stream : CharStream data}
    (hrest : stream.rest = b ++ (item.bytes ++ l)) (beyond : Nat → UInt8) :
    ∃ stream' : CharStream data, stream'.rest = l ∧
      lxToken beyond stream 0 = ⟨some item.token, stream', 0⟩ := by
  obtain ⟨here, stream', hhere, hstream', hscan⟩ := lxScan_item h hb hnl hreads hrest
  obtain ⟨heof, herr⟩ := item.type_ne h
  have htext : tokenText data beyond here.pos (here.pos + item.bytes.length) = item.bytes :=
    tokenText_eq hhere rfl (item.nulFree h)
  refine ⟨stream', hstream', ?_⟩
  simp only [lxToken, hscan, heof, herr, htext, if_false]
  cases item with
  | word pieces =>
    have hredir : isRedir (wordType (wordBytes pieces)) = false := by
      unfold wordType
      split <;> rfl
    simp only [Item.token, hredir]
    rfl
  | op type =>
    have hredir : isRedir type = false := by cases type <;> first | rfl | cases h
    simp only [Item.token, hredir]
    rfl
  | redir digit type =>
    have hredir : isRedir type = true := h
    cases digit with
    | none =>
      simp only [Item.token, Item.bytes, hredir, strtol_operatorText hredir]
      rfl
    | some d =>
      have hd : ¬ INT_MAX ≤ ((d : Nat) : Int) := by
        have := d.isLt
        simp only [INT_MAX]
        omega
      simp only [Item.token, Item.bytes, hredir, strtol_digit hredir, hd]
      rfl

/-! ## Whole lines -/

theorem follows_blank {b l : Str} (hb : Blank b) (hne : b ≠ []) (item : Item) :
    Follows (b ++ l) item := by
  obtain ⟨c, b, rfl⟩ := List.exists_cons_of_ne_nil hne
  have hc : isspace (toInt c) = true ∧ isoperator (toInt c) = false := by
    rcases hb c (by simp) with rfl | rfl <;> exact ⟨rfl, rfl⟩
  obtain ⟨-, -, hless, hgreater⟩ := peekOf_ne_of_not_operator (l := (c :: b) ++ l) hc.2
  cases item with
  | word pieces => exact ⟨.inl hc.1, fun _ _ _ => ⟨hless, hgreater⟩⟩
  | op type => exact hc.2
  | redir digit type => exact hc.2

theorem follows_nil (item : Item) : Follows [] item := by
  obtain ⟨-, -, hless, hgreater⟩ := peekOf_ne_of_not_operator (l := []) rfl
  cases item with
  | word pieces => exact ⟨.inr (.inl rfl), fun _ _ _ => ⟨hless, hgreater⟩⟩
  | op type => rfl
  | redir digit type => rfl

theorem follows_glued {t u : Item} (hu : u.Valid) (hglue : MayGlue t u) (l : Str) :
    Follows (u.bytes ++ l) t := by
  cases t with
  | word pieces =>
    cases u with
    | word pieces' => cases hglue
    | op type =>
      obtain ⟨c, tail, htext, hop⟩ := operatorText_cons (.inl hu)
      rw [Item.bytes, htext]
      exact ⟨.inr (.inr hop), fun _ _ _ => htext ▸ control_not_redir hu l⟩
    | redir digit type =>
      cases digit with
      | none =>
        obtain ⟨c, tail, htext, hop⟩ := operatorText_cons (.inr hu)
        rw [Item.bytes, htext]
        refine ⟨.inr (.inr hop), fun d hd hdigit => absurd ?_ hglue⟩
        rw [hd]
        simpa using hdigit
      | some d => cases hglue
  | op type =>
    cases u with
    | word pieces => exact (starts_word hu.1 hu.2 l).2
    | op type' => cases hglue
    | redir digit type' => cases hglue
  | redir digit type =>
    cases u with
    | word pieces => exact (starts_word hu.1 hu.2 l).2
    | op type' => cases hglue
    | redir digit' type' => cases hglue

theorem Spaced.tail {i : Item × Str} {rest : List (Item × Str)} (h : Spaced (i :: rest)) :
    Blank i.2 ∧ Spaced rest := by
  obtain ⟨t, b⟩ := i
  cases rest with
  | nil => exact ⟨h, trivial⟩
  | cons i' rest => exact ⟨h.1, h.2.2⟩

theorem Spaced.follows {t : Item} {b : Str} {rest : List (Item × Str)}
    (h : Spaced ((t, b) :: rest)) (hvalid : ∀ i ∈ rest, i.1.Valid) :
    Follows (b ++ render rest) t := by
  by_cases hne : b = []
  · subst hne
    cases rest with
    | nil => exact follows_nil t
    | cons i rest =>
      obtain ⟨u, b'⟩ := i
      have hrender : render ((u, b') :: rest) = u.bytes ++ (b' ++ render rest) := by
        simp [render]
      rw [List.nil_append, hrender]
      exact follows_glued (hvalid (u, b') (by simp)) (h.2.1 rfl) _
  · exact follows_blank h.tail.1 hne t

theorem tokenize_items (beyond : Nat → UInt8) (items : List (Item × Str))
    (hvalid : ∀ i ∈ items, i.1.Valid) (hspaced : Spaced items) {b : Str} (hb : Blank b)
    (s : TokenizeState data) (herrno : s.errno = 0) (hrest : s.stream.rest = b ++ render items) :
    ∃ list, Loop.exec (tokenizeBody beyond) _ (tokenizeBody_decreasing beyond) s = (0, list) ∧
      list.tokens = s.dst.tokens ++ items.map (·.1.token) ++ [eofToken] := by
  induction items generalizing s b with
  | nil =>
    obtain ⟨here, -, hscan⟩ := lxScan_blanks (l := []) hb rfl hrest
    have htoken : lxToken beyond s.stream s.errno = ⟨some eofToken, here, 0⟩ := by
      rw [lxToken, hscan, herrno]
      rfl
    refine ⟨tokenlistAppendTok s.dst [eofToken], Loop.exec_of_inr _ ?_, by simp⟩
    rw [tokenizeBody, htoken]
    rfl
  | cons i items ih =>
    obtain ⟨t, b'⟩ := i
    have ht : t.Valid := hvalid (t, b') (by simp)
    have hvalid' : ∀ i ∈ items, i.1.Valid := fun i hi => hvalid i (by simp [hi])
    have hrest' : s.stream.rest = b ++ (t.bytes ++ (b' ++ render items)) := by
      rw [hrest]
      simp [render]
    obtain ⟨stream', hstream', htoken⟩ :=
      lxToken_item ht (blank_isspace hb) (blank_head hb) (reads_item ht (hspaced.follows hvalid'))
        hrest' beyond
    have hround : tokenizeBody beyond s =
        .inl ⟨tokenlistAppendTok s.dst [t.token], stream', 0⟩ := by
      rw [tokenizeBody, herrno, htoken]
      simp only [(t.type_ne ht).1, if_false]
    obtain ⟨list, hrun, hlist⟩ := ih hvalid' hspaced.tail.2 hspaced.tail.1
      ⟨tokenlistAppendTok s.dst [t.token], stream', 0⟩ rfl hstream'
    refine ⟨list, ?_, ?_⟩
    · rw [Loop.exec_of_inl _ hround, hrun]
    · rw [hlist, tokens_appendTok, List.map_cons]
      simp

/-- The lexer reads back what was rendered. -/
theorem lxTokenize_render (beyond : Nat → UInt8) (items : List (Item × Str))
    (hvalid : ∀ i ∈ items, i.1.Valid) (hspaced : Spaced items) :
    ∃ list, lxTokenize beyond tokenlistNewEmpty (csNew (render items)) = (0, list) ∧
      list.tokens = items.map (·.1.token) ++ [eofToken] := by
  obtain ⟨list, hrun, hlist⟩ := tokenize_items beyond items hvalid hspaced (b := [])
    (fun _ h => by cases h) ⟨tokenlistNewEmpty, csNew (render items), 0⟩ rfl (rest_csNew _)
  exact ⟨list, hrun, hlist⟩

/-! ## ASCII text without `=` in words -/

def Ascii (c : UInt8) : Prop := 1 ≤ c.toNat ∧ c.toNat ≤ 127

/-- A byte of a word that is not in a quoted span. -/
structure WordByte (c : UInt8) : Prop where
  ascii : Ascii c
  space : isspace (toInt c) = false
  operator : isoperator (toInt c) = false
  not_special : c ∉ [chr '\'', chr '"', chr '\\', chr '$', chr '`', chr '=']

def Piece.Plain : Piece → Prop
  | .plain c => WordByte c
  | .quoted flag body =>
    flag ≠ .unquoted ∧ ∀ c ∈ body, Ascii c ∧ c ≠ quoteByte flag ∧ c ≠ chr '='

def Item.Plain : Item → Prop
  | .word pieces => pieces ≠ [] ∧ ∀ piece ∈ pieces, piece.Plain
  | .op type => isControl type = true
  | .redir _ type => isRedir type = true

def Item.type : Item → TokenType
  | .word _ => .word
  | .op type => type
  | .redir _ type => type

def Item.fd : Item → Int
  | .word _ => 0
  | .op _ => 0
  | .redir none type => defaultFd type
  | .redir (some d) _ => ((d : Nat) : Int)

theorem Ascii.ne {c : UInt8} (h : Ascii c) : c ≠ 0 ∧ c ≠ 255 := by
  constructor <;> rintro rfl <;> revert h <;> simp [Ascii]

theorem Piece.Plain.valid {piece : Piece} (h : piece.Plain) :
    piece.Valid ∧ chr '=' ∉ piece.bytes := by
  cases piece with
  | plain c =>
    have hspecial := h.not_special
    simp only [List.mem_cons, List.not_mem_nil, or_false, not_or] at hspecial
    obtain ⟨hsingle, hdouble, hescape, hsub, hback, heq⟩ := hspecial
    obtain ⟨hzero, hmax⟩ := h.ascii.ne
    refine ⟨⟨h.space, h.operator, ?_⟩, ?_⟩
    · simp only [List.mem_cons, List.not_mem_nil, or_false, not_or]
      exact ⟨hsingle, hdouble, hescape, hsub, hback, hzero, hmax⟩
    · simpa [Piece.bytes] using Ne.symm heq
  | quoted flag body =>
    refine ⟨⟨h.1, fun c hc => ⟨(h.2 c hc).2.1, (h.2 c hc).1.ne⟩⟩, fun hmem => ?_⟩
    have hquote : chr '=' ≠ quoteByte flag := by cases flag <;> decide
    simp only [Piece.bytes, List.mem_cons, List.mem_append, List.not_mem_nil, or_false] at hmem
    rcases hmem with h1 | h2 | h3
    · exact hquote h1
    · exact (h.2 _ h2).2.2 rfl
    · exact hquote h3

theorem Item.Plain.valid {item : Item} (h : item.Plain) :
    item.Valid ∧ item.token = ⟨item.type, item.bytes, item.fd⟩ := by
  cases item with
  | word pieces =>
    have hnot : chr '=' ∉ wordBytes pieces := fun hmem => by
      obtain ⟨piece, hpiece, hmem⟩ := List.mem_flatMap.mp hmem
      exact (Piece.Plain.valid (h.2 piece hpiece)).2 hmem
    refine ⟨⟨h.1, fun p hp => (Piece.Plain.valid (h.2 p hp)).1⟩, ?_⟩
    rw [Item.token, wordType, if_neg hnot]
    rfl
  | op type => exact ⟨h, rfl⟩
  | redir digit type => cases digit <;> exact ⟨h, rfl⟩

/-- **Lexing undoes rendering.** Words of plain bytes and quoted spans,
operators and redirections, written down with blanks between them (left out
only next to a word, as `MayGlue` allows), are read back one token an item:
words as words, texts verbatim, redirections with their descriptor. -/
theorem lxTokenize_render_plain (beyond : Nat → UInt8) (items : List (Item × Str))
    (hplain : ∀ i ∈ items, i.1.Plain) (hspaced : Spaced items) :
    ∃ list, lxTokenize beyond tokenlistNewEmpty (csNew (render items)) = (0, list) ∧
      list.tokens = items.map (fun i => ⟨i.1.type, i.1.bytes, i.1.fd⟩) ++ [eofToken] := by
  obtain ⟨list, hrun, hlist⟩ := lxTokenize_render beyond items
    (fun i hi => (Item.Plain.valid (hplain i hi)).1) hspaced
  refine ⟨list, hrun, ?_⟩
  have htokens : items.map (·.1.token) =
      items.map (fun i => ⟨i.1.type, i.1.bytes, i.1.fd⟩) :=
    List.map_congr_left fun i hi => (Item.Plain.valid (hplain i hi)).2
  rw [hlist, htokens]

/-- `a' b'|c 2>d` is five tokens. -/
theorem lxTokenize_render_plain_redir :
    let items : List (Item × Str) :=
      [(.word [.plain 97, .quoted .singleQuoted [32, 98]], []), (.op .pipe, []),
        (.word [.plain 99], [32]), (.redir (some 2) .redirOut, []), (.word [.plain 100], [])]
    ∃ list, lxTokenize (fun _ => 0) tokenlistNewEmpty
        (csNew [97, 39, 32, 98, 39, 124, 99, 32, 50, 62, 100]) = (0, list) ∧
      list.tokens = items.map (fun i => ⟨i.1.type, i.1.bytes, i.1.fd⟩) ++ [eofToken] := by
  intro items
  have hbyte : ∀ c ∈ ([97, 99, 100] : List UInt8), WordByte c := by
    intro c hc
    simp only [List.mem_cons, List.not_mem_nil, or_false] at hc
    rcases hc with rfl | rfl | rfl <;> exact ⟨by simp [Ascii], rfl, rfl, by decide⟩
  refine lxTokenize_render_plain (fun _ => 0) items ?_ ?_
  · simp only [items, List.mem_cons, List.not_mem_nil, or_false, forall_eq_or_imp, forall_eq]
    refine ⟨⟨by simp, ?_⟩, rfl, ⟨by simp, ?_⟩, rfl, ⟨by simp, ?_⟩⟩
    · simp only [List.mem_cons, List.not_mem_nil, or_false, forall_eq_or_imp, forall_eq]
      refine ⟨hbyte 97 (by simp), by decide, ?_⟩
      simp only [List.mem_cons, List.not_mem_nil, or_false, forall_eq_or_imp, forall_eq]
      exact ⟨⟨by simp [Ascii], by decide, by decide⟩, ⟨by simp [Ascii], by decide, by decide⟩⟩
    · exact fun p hp => List.mem_singleton.mp hp ▸ hbyte 99 (by simp)
    · exact fun p hp => List.mem_singleton.mp hp ▸ hbyte 100 (by simp)
  · have hnil : Blank [] := fun _ h => by cases h
    have hspace : Blank [32] := fun c h => .inl (List.mem_singleton.mp h)
    exact ⟨hnil, fun _ => trivial, hnil, fun _ => trivial, hspace, nofun, hnil,
      fun _ => trivial, hnil⟩

end Shell.Lexer
