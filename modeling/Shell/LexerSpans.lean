import Shell.LexerEoi
import Shell.LexerRender

/-! # What the tokens take from the line

Where `*end` gets ahead of the cursor, the text of a token goes on with bytes that
belong to the next one. -/
namespace Shell.Lexer
open Shell.CTypes Shell.Tokenlist Shell.Lib

variable {data : Str} {beyond : Nat → UInt8} {stream here : CharStream data} {start stop : Nat}

/-! ## The first token of a text -/

/-- A scan that has read the operator at the cursor. -/
structure ReadsOperator (stream : CharStream data) (start : Nat) (r : Scanned data) : Prop where
  split : ∃ ops, stream.rest = ops ++ r.stream.rest ∧ ops ≠ [] ∧
    ∀ c ∈ ops, isoperator (toInt c) = true
  start : r.start = start
  stop : r.stop = r.stream.pos
  token : r.type ≠ .eof ∧ r.type ≠ .err

theorem lxScanOperator_reads (start : Nat) {c : UInt8} {l : Str} (hrest : stream.rest = c :: l)
    (hop : isoperator (toInt c) = true) (hstop : stop = stream.pos) :
    ReadsOperator stream start (lxScanOperator stream (toInt c) start stop) := by
  obtain ⟨hread, hpos⟩ := csRead_of_rest hrest
  have hone : ∀ {type : TokenType}, type ≠ .eof ∧ type ≠ .err →
      ReadsOperator stream start ⟨type, csRead stream, start, stop + 1⟩ := by
    intro type htype
    refine ⟨⟨[c], ?_, List.cons_ne_nil _ _, fun d hd => ?_⟩, rfl, ?_, htype⟩
    · rw [hread, hrest]
      rfl
    · rw [List.mem_singleton.mp hd]
      exact hop
    · rw [hpos, hstop]
  cases operatorReads (toInt c) with
  | one type htype scan =>
    rw [scan]
    exact hone htype
  | two double single hdouble hsingle hc scan =>
    rw [scan]
    split
    · rename_i hahead
      rw [csPeekAhead_eq, hrest, List.drop_succ_cons, List.drop_zero] at hahead
      cases l with
      | nil => exact absurd hahead.symm hc
      | cons d l =>
        obtain rfl : d = c := toInt_inj.mp hahead
        obtain ⟨hread', hpos'⟩ := csRead_of_rest hread
        refine ⟨⟨[d, d], ?_, List.cons_ne_nil _ _, fun e he => ?_⟩, rfl, ?_, hdouble⟩
        · rw [hread', hrest]
          rfl
        · rcases List.mem_cons.mp he with rfl | he
          · exact hop
          · rw [List.mem_singleton.mp he]
            exact hop
        · rw [hpos', hpos, hstop]
    · exact hone hsingle

theorem lxScanOperator_kind {c : UInt8} (hop : isoperator (toInt c) = true)
    (stream : CharStream data) (start stop : Nat) :
    isControl (lxScanOperator stream (toInt c) start stop).type = true ∨
      isRedir (lxScanOperator stream (toInt c) start stop).type = true := by
  have htwo : ∀ {second : Char} {double single : Scanned data},
      (isControl double.type = true ∨ isRedir double.type = true) →
      (isControl single.type = true ∨ isRedir single.type = true) →
      isControl (if csPeekAhead stream 1 = ch second then double else single).type = true ∨
        isRedir (if csPeekAhead stream 1 = ch second then double else single).type = true := by
    intro second double single hdouble hsingle
    split
    · exact hdouble
    · exact hsingle
  generalize toInt c = c at hop
  simp only [isoperator, Bool.or_eq_true, beq_iff_eq] at hop
  rcases hop with (((((((rfl | rfl) | rfl) | rfl) | rfl) | rfl) | rfl) | rfl) | rfl
  · exact htwo (.inl rfl) (.inl rfl)
  · exact htwo (.inl rfl) (.inl rfl)
  · exact .inl rfl
  · exact .inl rfl
  · exact .inl rfl
  · exact .inl rfl
  · exact .inl rfl
  · exact htwo (.inr rfl) (.inr rfl)
  · exact htwo (.inr rfl) (.inr rfl)

/-- A token that is an operator, with the digit in front of it that belongs to it. -/
structure OperatorScan (here : CharStream data) (r : Scanned data) : Prop where
  split : ∃ digits ops, here.rest = digits ++ ops ++ r.stream.rest ∧
    (digits = [] ∨ ∃ d : Fin 10, digits = [digitByte d]) ∧ ops ≠ [] ∧
      ∀ c ∈ ops, isoperator (toInt c) = true
  start : r.start = here.pos
  stop : r.stop = r.stream.pos
  token : r.type ≠ .eof ∧ r.type ≠ .err

structure OperatorToken (here : CharStream data) (r : Scanned data) : Prop
    extends OperatorScan here r where
  kind : isControl r.type = true ∨ isRedir r.type = true

theorem eq_digitByte {c : UInt8} (h : isdigit (toInt c) = true) : ∃ d, c = digitByte d := by
  rw [isdigit, Bool.and_eq_true, decide_eq_true_eq, decide_eq_true_eq] at h
  have hascii : c.toNat < 128 := by
    by_contra hge
    have := c.toNat_lt
    rw [toInt, if_neg hge] at h
    omega
  rw [toInt, if_pos hascii] at h
  refine ⟨⟨c.toNat - 48, by omega⟩, ?_⟩
  have hnat : 48 + (c.toNat - 48) = c.toNat := by omega
  rw [digitByte, hnat, UInt8.ofNat_toNat]

/-- A digit is read as any other byte by the walk. -/
theorem walk_digit (d : Fin 10) (p : TokenType) (k : Nat) (l : Str) :
    walk .bare p k (digitByte d :: l) = walk .bare (typeAfter (digitByte d) p) k l := by
  obtain ⟨hop, hsub, hback, hsingle, hdouble, hescape⟩ := digitByte_ordinary d
  have hspace := (digitByte_starts d).1.1
  rw [Ne, toInt_eq_ch (by decide)] at hsub hback hsingle hdouble hescape
  rw [walk, if_neg (by rw [hspace, hop]; decide), if_neg fun h => hsub h.1, if_neg hback,
    if_neg hsingle, if_neg hdouble, if_neg fun h => hescape h.1, if_neg fun h => hescape h.1]

/-- The first token of a text is an operator, or ends where the walk over the text
does. -/
theorem scanLoop_first {c : UInt8} {l : Str} (hrest : here.rest = c :: l)
    (hspace : isspace (toInt c) = false) (hl : ∀ d ∈ c :: l, d ≠ 255) :
    OperatorToken here (scanLoop here.pos ⟨here, here.pos, .unquoted, .word⟩) ∨
      Matches here.pos (scanLoop here.pos ⟨here, here.pos, .unquoted, .word⟩)
        (walk .bare .word 0 (c :: l)) := by
  have hpeek : csPeek here = toInt c := by rw [csPeek_eq, hrest, peekOf_cons]
  have hahead : csPeekAhead here 1 = peekOf l := by rw [csPeekAhead_eq, hrest]; rfl
  have hc : c ≠ 255 := hl c List.mem_cons_self
  obtain ⟨hread, hpos⟩ := csRead_of_rest hrest
  by_cases hop : isoperator (toInt c) = true
  · left
    have hscan : scanLoop here.pos ⟨here, here.pos, .unquoted, .word⟩ =
        lxScanOperator here (toInt c) here.pos here.pos := by
      refine scanLoop_of_inr ?_
      simp only [scanBody, scanUnquoted, hpeek, hop, if_true]
    rw [hscan]
    obtain ⟨⟨ops, hsplit, hne, hops⟩, hstart, hstop, htoken⟩ :=
      lxScanOperator_reads here.pos hrest hop rfl
    exact ⟨⟨⟨[], ops, by simpa using hsplit, .inl rfl, hne, hops⟩, hstart, hstop, htoken⟩,
      lxScanOperator_kind hop here here.pos here.pos⟩
  by_cases hdigit : isdigit (toInt c) = true
  · obtain ⟨d, rfl⟩ := eq_digitByte hdigit
    obtain ⟨hop', hsub, hback, hsingle, hdouble, hescape⟩ := digitByte_ordinary d
    by_cases hredir : peekOf l = ch '<' ∨ peekOf l = ch '>'
    · left
      cases l with
      | nil => exact absurd (hredir.elim ne_eoi_of_eq_ch ne_eoi_of_eq_ch) (fun h => h rfl)
      | cons e l =>
        rw [peekOf_cons] at hredir
        have hope : isoperator (toInt e) = true := by rcases hredir with h | h <;> rw [h] <;> rfl
        have hscan : scanLoop here.pos ⟨here, here.pos, .unquoted, .word⟩ =
            lxScanOperator (csRead here) (toInt e) here.pos (here.pos + 1) := by
          refine scanLoop_of_inr ?_
          simp only [scanBody, scanUnquoted, hpeek, hahead, peekOf_cons, hop', hsub, hback, hsingle,
            hdouble, hescape, hdigit, hredir, Bool.false_eq_true, false_and, or_self, if_false,
            and_self, if_true, csPeek_eq (csRead here), hread]
        rw [hscan]
        obtain ⟨⟨ops, hsplit, hne, hops⟩, hstart, hstop, htoken⟩ :=
          lxScanOperator_reads here.pos hread hope hpos.symm
        refine ⟨⟨⟨[digitByte d], ops, ?_, .inr ⟨d, rfl⟩, hne, hops⟩, hstart, hstop, htoken⟩,
          lxScanOperator_kind hope (csRead here) here.pos (here.pos + 1)⟩
        rw [hrest, ← hread, hsplit, List.append_assoc]
        rfl
    · right
      rw [Ne, toInt_eq_ch (by decide)] at hsub hback hsingle hdouble hescape
      have hordinary : Ordinary (digitByte d) (peekOf l) (here.pos = here.pos) :=
        { operator := hop', sub := fun h => absurd h hsub, backquote := hback,
          singleQuote := hsingle, doubleQuote := hdouble, escape := fun h => absurd h hescape,
          digit := fun _ _ => not_or.mp hredir }
      rw [scanLoop_of_next (scanBody_ordinary hrest hordinary), walk_digit]
      exact walks data here.pos (fun d hd => hl d (List.mem_cons_of_mem _ hd))
        (.bare hread hpos.symm (Nat.le_succ _) (.inl (Nat.lt_succ_self _)))
  · right
    have hbegins : Begins (c :: l) := by
      intro d hd
      obtain rfl := Option.some.inj hd
      exact ⟨by simpa using hop, by simpa using hdigit⟩
    rw [← scanFrom_bare hspace hc (l := l)]
    exact walks data here.pos hl (.bare hrest rfl (Nat.le_refl _) (.inr hbegins))

/-- Behind a part of a text without the byte 255 there is none, and no end of input. -/
theorem ne_255_behind {text front l : Str} {c : UInt8} (hl : ∀ d ∈ text, d ≠ 255)
    (h : text = front ++ c :: l) : (∀ d ∈ c :: l, d ≠ 255) ∧ ¬ toInt c = eoi := by
  have hbehind : ∀ d ∈ c :: l, d ≠ 255 := by
    intro d hd
    exact hl d (by rw [h]; exact List.mem_append_right _ hd)
  refine ⟨hbehind, ?_⟩
  rw [toInt_eq_eoi]
  exact hbehind c List.mem_cons_self

/-- A scan ends at an operator or where the walk does, blanks in front of it aside. -/
theorem lxScan_first (hl : ∀ c ∈ stream.rest, c ≠ 255) :
    (∃ l, stream.rest = chr '\n' :: l ∧ (lxScan stream).type = .newline ∧
      (lxScan stream).stream.rest = l ∧ (lxScan stream).stop = (lxScan stream).stream.pos) ∨
    ∃ (b : Str) (here : CharStream data), OnlyBlanks b ∧ isspace (peekOf here.rest) = false ∧
      stream.rest = b ++ here.rest ∧ (OperatorToken here (lxScan stream) ∨
        (here.rest = [] ∧ (lxScan stream).type = .eof ∧ (lxScan stream).stream = here) ∨
        Matches here.pos (lxScan stream) (walk .bare .word 0 here.rest)) := by
  rcases lxScan_cases stream with ⟨l, hrest, hscan⟩ | ⟨b, here, hb, hhead, hrest, hspace, hscan⟩
  · obtain ⟨hread, hpos⟩ := csRead_of_rest hrest
    refine .inl ⟨l, hrest, ?_⟩
    rw [hscan]
    exact ⟨rfl, hread, hpos.symm⟩
  refine .inr ⟨b, here, ⟨hb, hhead⟩, hspace, hrest, ?_⟩
  cases hhere : here.rest with
  | nil =>
    rw [hscan, hhere, peekOf_nil, if_pos rfl]
    exact .inr (.inl ⟨rfl, rfl, rfl⟩)
  | cons c l =>
    obtain ⟨hl', hpeek⟩ := ne_255_behind hl (hrest.trans (congrArg (b ++ ·) hhere))
    rw [hhere, peekOf_cons] at hspace
    rw [hscan, hhere, peekOf_cons, if_neg hpeek]
    rcases scanLoop_first hhere hspace hl' with hop | hmatch
    · exact .inl hop
    · exact .inr (.inr hmatch)

/-! ## Escaped blanks -/

/-- A word that has an escaped blank runs to the end of the text, with a character
that is not whitespace behind the blank. `escaped` says that there is one in the
word so far. -/
def escapedLast : Mode → Bool → Str → Bool
  | .bare, _, [] => true
  | .bare, escaped, c :: l =>
    if isspace (toInt c) ∨ isoperator (toInt c) then !escaped && escapedLast .bare false l
    else if c = chr '$' ∧ l.head? = some (chr '(') then escapedLast .paren escaped l
    else if c = chr '`' then escapedLast (.sub 1) escaped l
    else if c = chr '\'' then escapedLast (.quoted .singleQuoted) escaped l
    else if c = chr '"' then escapedLast (.quoted .doubleQuoted) escaped l
    else if c = chr '\\' ∧ l.head? = some (chr 'n') then !escaped && escapedLast .bare false l
    else if c = chr '\\' ∧ l.head? = some (chr ' ') then escapedLast .blank true l
    else escapedLast .bare escaped l
  | .quoted _, _, [] => true
  | .quoted flag, escaped, c :: l =>
    if c = quoteByte flag then escapedLast .bare escaped l
    else escapedLast (.quoted flag) escaped l
  | .sub _, _, [] => true
  | .sub depth, escaped, c :: l =>
    if depthAfter c depth = 0 then escapedLast .bare escaped l
    else escapedLast (.sub (depthAfter c depth)) escaped l
  | .paren, _, [] => true
  | .paren, escaped, _ :: l => escapedLast (.sub 1) escaped l
  | .blank, _, [] => true
  | .blank, escaped, _ :: l => if endsBlank l then false else escapedLast .bare escaped l

/-- What the walk over the first token says about the escaped blanks in it. -/
theorem escapedLast_walk {mode : Mode} {p : TokenType} {k : Nat} {l : Str}
    (hblank : mode = .blank → 0 < k) (herr : (walk mode p k l).type ≠ .err) :
    escapedLast mode (decide (0 < k)) l = true ↔
      ((walk mode p k l).ahead = 0 ∨ (walk mode p k l).rest = []) ∧
        escapedLast .bare false (walk mode p k l).rest = true := by
  revert herr
  induction l generalizing mode p k with
  | nil =>
    cases mode with
    | bare => simp [walk, escapedLast]
    | quoted | sub | paren | blank => exact fun herr => absurd rfl herr
  | cons c l ih =>
    cases mode with
    | quoted flag =>
      rw [walk, escapedLast]
      split
      · exact ih fun h => by cases h
      · exact ih fun h => by cases h
    | sub depth =>
      rw [walk, escapedLast]
      split
      · exact ih fun h => by cases h
      · exact ih fun h => by cases h
    | paren => exact ih fun h => by cases h
    | blank =>
      have hk : k ≠ 0 := Nat.pos_iff_ne_zero.mp (hblank rfl)
      rw [walk, escapedLast]
      split
      · simp [hk]
      · exact ih fun h => by cases h
    | bare =>
      rw [walk, escapedLast]
      split
      · rename_i hends
        -- the word ends here, and what follows starts afresh
        rw [escapedLast, if_pos hends]
        by_cases hk : k = 0
        · simp [hk]
        · simp [hk]
      split
      · exact ih fun h => by cases h
      split
      · exact ih fun h => by cases h
      split
      · exact ih fun h => by cases h
      split
      · exact ih fun h => by cases h
      split
      · rename_i hn
        have hne : l ≠ [] := by
          rintro rfl
          cases hn.2
        by_cases hk : k = 0
        · simp [hk]
        · simp [hk, hne]
      split
      · intro herr
        rw [← ih (fun _ => Nat.succ_pos k) herr]
        simp
      · exact ih fun h => by cases h

theorem escapedLast_space {c : UInt8} {l : Str}
    (h : isspace (toInt c) = true ∨ isoperator (toInt c) = true) :
    escapedLast .bare false (c :: l) = escapedLast .bare false l := by
  rw [escapedLast, if_pos h]
  rfl

theorem escapedLast_append {b l : Str}
    (h : ∀ c ∈ b, isspace (toInt c) = true ∨ isoperator (toInt c) = true) :
    escapedLast .bare false (b ++ l) = escapedLast .bare false l := by
  induction b with
  | nil => rfl
  | cons c b ih =>
    rw [List.cons_append, escapedLast_space (h c List.mem_cons_self),
      ih fun d hd => h d (List.mem_cons_of_mem _ hd)]

theorem escapedLast_digit (d : Fin 10) (l : Str) :
    escapedLast .bare false (digitByte d :: l) = escapedLast .bare false l := by
  obtain ⟨hop, hsub, hback, hsingle, hdouble, hescape⟩ := digitByte_ordinary d
  have hspace := (digitByte_starts d).1.1
  rw [Ne, toInt_eq_ch (by decide)] at hsub hback hsingle hdouble hescape
  rw [escapedLast, if_neg (by rw [hspace, hop]; decide), if_neg fun h => hsub h.1, if_neg hback,
    if_neg hsingle, if_neg hdouble, if_neg fun h => hescape h.1, if_neg fun h => hescape h.1]

/-- Where the scan of a token leaves `*end`, for a text without the byte 255. -/
theorem lxScan_escapedLast (hl : ∀ c ∈ stream.rest, c ≠ 255) (heof : (lxScan stream).type ≠ .eof)
    (herr : (lxScan stream).type ≠ .err) :
    escapedLast .bare false stream.rest = true ↔
      ((lxScan stream).stop = (lxScan stream).stream.pos ∨ (lxScan stream).stream.rest = []) ∧
        escapedLast .bare false (lxScan stream).stream.rest = true := by
  rcases lxScan_first hl with ⟨l, hrest, -, hread, hstop⟩ | ⟨b, here, hb, -, hrest, hcase⟩
  · rw [hread, hrest, escapedLast_space (.inl rfl)]
    exact ⟨fun h => ⟨.inl hstop, h⟩, And.right⟩
  rw [hrest, escapedLast_append fun c hc => .inl (hb.1 c hc)]
  rcases hcase with hop | ⟨-, htype, -⟩ | hmatch
  · obtain ⟨digits, ops, hsplit, hdigits, -, hops⟩ := hop.split
    have hdrop : escapedLast .bare false here.rest =
        escapedLast .bare false (lxScan stream).stream.rest := by
      rw [hsplit, List.append_assoc]
      rcases hdigits with rfl | ⟨d, rfl⟩
      · exact escapedLast_append fun c hc => .inr (hops c hc)
      · rw [List.singleton_append, escapedLast_digit]
        exact escapedLast_append fun c hc => .inr (hops c hc)
    rw [hdrop]
    exact ⟨fun h => ⟨.inl hop.stop, h⟩, And.right⟩
  · exact absurd htype heof
  · have herr' : (walk .bare .word 0 here.rest).type ≠ .err := hmatch.type ▸ herr
    obtain ⟨-, hmrest, hmstop⟩ := hmatch.word herr'
    have hwalk := escapedLast_walk (k := 0) (fun h => by cases h) herr'
    rw [show decide (0 < 0) = false from rfl] at hwalk
    rw [hwalk, hmrest, hmstop]
    simp

/-! ## Texts -/

/-- What a call of `lx_token` skips in front of its token. -/
def skipped (stream : CharStream data) : Str :=
  (data.drop stream.pos).take ((lxScan stream).start - stream.pos)

/-- What the scanner reads for the token. -/
def consumed (stream : CharStream data) : Str :=
  (data.drop (lxScan stream).start).take ((lxScan stream).stream.pos - (lxScan stream).start)

/-- The text of a token is what the scanner has read exactly where `*end` is on the
cursor, or ahead of it at the end of the data. -/
theorem tokenText_eq_consumed_iff (hdata : NulFree data)
    (hstart : (lxScan stream).start < (lxScan stream).stream.pos)
    (hstop : (lxScan stream).stream.pos ≤ (lxScan stream).stop) :
    tokenText data beyond (lxScan stream).start (lxScan stream).stop = consumed stream ↔
      (lxScan stream).stop = (lxScan stream).stream.pos ∨ (lxScan stream).stream.rest = [] := by
  have hin := (lxScan stream).stream.inBounds
  have hrest := pos_add_length_rest (lxScan stream).stream
  rw [tokenText_eq_take hdata (by omega), consumed]
  constructor
  · intro h
    have hlength := congrArg List.length h
    simp only [List.length_take, List.length_drop] at hlength
    by_cases hnil : (lxScan stream).stream.rest = []
    · exact .inr hnil
    · have := List.length_pos_iff.mpr hnil
      omega
  · rintro (heq | hnil)
    · rw [heq]
    · rw [hnil, List.length_nil] at hrest
      rw [List.take_of_length_le (by rw [List.length_drop]; omega),
        List.take_of_length_le (by rw [List.length_drop]; omega)]

theorem lxScan_skipped (stream : CharStream data) :
    stream.pos ≤ (lxScan stream).start ∧ ∀ c ∈ skipped stream, isspace (toInt c) = true := by
  rcases lxScan_cases stream with ⟨l, -, hscan⟩ | ⟨b, here, hb, -, hrest, -, hscan⟩
  · rw [skipped, hscan]
    simp
  · have hlength := congrArg List.length hrest
    rw [List.length_append] at hlength
    have hpos := pos_add_length_rest stream
    have hhere := pos_add_length_rest here
    have hstart : (lxScan stream).start = here.pos := by
      rw [hscan]
      split
      · rfl
      · exact (scanLoop_leads here.pos (s := ⟨here, here.pos, .unquoted, .word⟩) (Nat.le_refl _)).1
    have hskip : here.pos - stream.pos = b.length := by omega
    rw [skipped, hstart, hskip]
    refine ⟨by omega, fun c hc => hb c ?_⟩
    rw [show data.drop stream.pos = b ++ here.rest from hrest, List.take_left] at hc
    exact hc

/-- The line in front of a call: what it skips, what it reads, and what is left. -/
theorem rest_eq_skipped_consumed (hle : (lxScan stream).start ≤ (lxScan stream).stream.pos) :
    stream.rest = skipped stream ++ consumed stream ++ (lxScan stream).stream.rest := by
  have hstart := (lxScan_skipped stream).1
  have hread : (lxScan stream).stream.rest =
      (data.drop (lxScan stream).start).drop ((lxScan stream).stream.pos - (lxScan stream).start) := by
    rw [List.drop_drop, Nat.add_sub_cancel' hle]
    rfl
  have hskip : data.drop (lxScan stream).start =
      (data.drop stream.pos).drop ((lxScan stream).start - stream.pos) := by
    rw [List.drop_drop, Nat.add_sub_cancel' hstart]
  rw [List.append_assoc, consumed, hread, List.take_append_drop, skipped, hskip,
    List.take_append_drop]
  rfl

/-! ## The spans of a run -/

/-- Each token of a run has as text what the scanner read for it, behind whitespace;
behind the last token there is only whitespace. -/
inductive SpansOf (beyond : Nat → UInt8) : CharStream data → Int → List Token → Prop
  | eof {stream : CharStream data} {errno : Int} {tok : Token} : tok.type = .eof →
    (∀ c ∈ stream.rest, isspace (toInt c) = true) → SpansOf beyond stream errno [tok]
  | cons {stream : CharStream data} {errno : Int} {tok : Token} {toks : List Token} :
    tok.type ≠ .eof → (∀ c ∈ skipped stream, isspace (toInt c) = true) →
    tok.value = consumed stream →
    SpansOf beyond (lxToken beyond stream errno).stream (lxToken beyond stream errno).errno toks →
    SpansOf beyond stream errno (tok :: toks)

/-- A line as the texts of its tokens with whitespace around them. -/
inductive Interleaved : Str → List Token → Prop
  | eof {b : Str} {tok : Token} : tok.type = .eof → (∀ c ∈ b, isspace (toInt c) = true) →
    Interleaved b [tok]
  | cons {b l : Str} {tok : Token} {toks : List Token} : tok.type ≠ .eof →
    (∀ c ∈ b, isspace (toInt c) = true) → Interleaved l toks →
    Interleaved (b ++ tok.value ++ l) (tok :: toks)

/-- No byte of the line is in two texts. -/
theorem Interleaved.length_le {l : Str} {toks : List Token} (h : Interleaved l toks) :
    ((toks.filter fun tok => tok.type != .eof).flatMap Token.value).length ≤ l.length := by
  induction h with
  | eof htype _ => simp [htype]
  | @cons b l tok toks htype _ _ ih =>
    have hne : (tok.type != .eof) = true := by simpa using htype
    simp only [List.filter_cons, hne, if_true, List.flatMap_cons, List.length_append]
    omega

theorem SpansOf.interleaved {errno : Int} {toks : List Token} (h : SpansOf beyond stream errno toks)
    (ht : Tokenized beyond stream errno toks) : Interleaved stream.rest toks := by
  induction ht with
  | eof _ _ _ =>
    cases h with
    | eof htype hrest => exact .eof htype hrest
    | cons htype _ _ hmore => cases hmore
  | @cons stream errno tok toks htok heof _ ih =>
    cases h with
    | eof htype _ => exact absurd htype heof
    | cons _ hskip hvalue hmore =>
      obtain ⟨hne, herr, -⟩ := lxToken_value htok heof
      rw [rest_eq_skipped_consumed (Nat.le_of_lt (lxScan_span stream hne herr).1), ← hvalue]
      rw [lxToken_stream] at ih hmore
      exact .cons heof hskip (ih hmore)

/-- Without the byte 255, a run has spans exactly where its escaped blanks stand in a
word that reaches the end. -/
theorem Tokenized.spansOf_iff {errno : Int} {toks : List Token} (hdata : NulFree data)
    (hl : ∀ c ∈ stream.rest, c ≠ 255) (ht : Tokenized beyond stream errno toks) :
    SpansOf beyond stream errno toks ↔ escapedLast .bare false stream.rest = true := by
  induction ht with
  | @eof stream errno tok htok heof _ =>
    have hscan : (lxScan stream).type = .eof := by
      rw [← lxToken_type htok, heof]
    have hblanks := ((lxScan_eof_iff hl).mp hscan).1
    have hlast : escapedLast .bare false stream.rest = true := by
      rw [← List.append_nil stream.rest, escapedLast_append fun c hc => .inl (hblanks c hc)]
      rfl
    exact ⟨fun _ => hlast, fun _ => .eof heof hblanks⟩
  | @cons stream errno tok toks htok heof hmore ih =>
    obtain ⟨hne, herr, hvalue⟩ := lxToken_value htok heof
    obtain ⟨hstart, hstop⟩ := lxScan_span stream hne herr
    have hrest := rest_eq_skipped_consumed (Nat.le_of_lt hstart)
    rw [lxToken_stream] at ih
    rw [lxScan_escapedLast hl hne herr, ← tokenText_eq_consumed_iff hdata hstart hstop,
      ← ih fun c hc => hl c (by rw [hrest]; exact List.mem_append_right _ hc), ← hvalue,
      ← lxToken_stream beyond stream errno]
    constructor
    · intro h
      cases h with
      | eof htype _ => exact absurd htype heof
      | cons _ _ hvalue' hmore' => exact ⟨hvalue', hmore'⟩
    · intro hcond
      obtain ⟨hvalue', hmore'⟩ := hcond
      exact .cons heof (lxScan_skipped stream).2 hvalue' hmore'

/-- The byte 255 is never read, and it is no whitespace. -/
theorem not_spansOf_of_255 {front back : Str} {stream : CharStream (front ++ 255 :: back)}
    {errno : Int} {toks : List Token} (hpos : stream.pos ≤ front.length) :
    ¬ SpansOf beyond stream errno toks := by
  intro h
  induction h with
  | @eof stream errno tok _ hrest =>
    have hmem : 255 ∈ stream.rest := by
      rw [CharStream.rest, List.drop_append_of_le_length hpos]
      simp
    exact absurd (hrest 255 hmem) (by decide)
  | @cons stream errno tok toks _ _ _ _ ih =>
    refine ih ?_
    have hsame := lxScan_same (t := ⟨stream.pos, hpos⟩) (s := stream) rfl
    rw [lxToken_stream, hsame.pos]
    exact (lxScan _).stream.inBounds

/-- **The tokens cover the line.** On a line that lexes, every token has as text what
the scanner read for it, and there is only whitespace between them, exactly where
the line has no byte 255 and an escaped blank only in a word that reaches its end. -/
theorem lxTokenize_spans_iff (beyond : Nat → UInt8) {line : Str} (hline : NulFree line)
    {list : TokenList} (h : lxTokenize beyond tokenlistNewEmpty (csNew line) = (0, list)) :
    SpansOf beyond (csNew line) 0 list.tokens ∧ Interleaved line list.tokens ↔
      255 ∉ line ∧ escapedLast .bare false line = true := by
  have ht := lxTokenize_tokenized h
  by_cases hmem : (255 : UInt8) ∈ line
  · obtain ⟨front, back, rfl⟩ := List.append_of_mem hmem
    exact ⟨fun hspans => absurd hspans.1 (not_spansOf_of_255 (Nat.zero_le _)),
      fun hnot => absurd hmem hnot.1⟩
  · have hl : ∀ c ∈ (csNew line).rest, c ≠ 255 := by
      rintro c hc rfl
      exact hmem hc
    have hiff := ht.spansOf_iff hline hl
    exact ⟨fun hspans => ⟨hmem, hiff.mp hspans.1⟩,
      fun hlast => ⟨hiff.mpr hlast.2, (hiff.mpr hlast.2).interleaved ht⟩⟩

/-- `a b`, whose tokens cover it. -/
theorem lxTokenize_spans_iff_two :
    ∃ list, lxTokenize (fun _ => 0) tokenlistNewEmpty (csNew (str "a b")) = (0, list) ∧
      Interleaved (str "a b") list.tokens := by
  have hiff := lxTokenize_spans_iff (fun _ => 0) (show NulFree (str "a b") by decide) rfl
  exact ⟨_, rfl, (hiff.mpr ⟨by decide, rfl⟩).2⟩

/-- `a\ b|c`: the text of the first token takes in the bar, which is the second. -/
theorem lxTokenize_spans_escaped :
    ∃ list, lxTokenize (fun _ => 0) tokenlistNewEmpty (csNew (str "a\\ b|c")) = (0, list) ∧
      list.tokens.map Token.value = [str "a\\ b|", str "|", str "c", []] ∧
      ¬ Interleaved (str "a\\ b|c") list.tokens := by
  refine ⟨_, rfl, by decide, fun h => ?_⟩
  exact absurd h.length_le (by decide)

end Shell.Lexer
