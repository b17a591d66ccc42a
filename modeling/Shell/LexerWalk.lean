import Shell.LexerSteps

/-! # A scan as a walk over the text

Outside of the first character, `lx_scan` is an automaton over the bytes in front
of the cursor. `walk` is that automaton, by recursion on the bytes; it also
counts how far `*end` gets ahead of the cursor, one for each escaped blank. -/
namespace Shell.Lexer
open Shell.CTypes Shell.Tokenlist Shell.Lib

inductive Mode
  | bare
  | quoted (flag : QuoteFlag)
  /-- Inside a command substitution. -/
  | sub (depth : Nat)
  /-- Behind the dollar sign of a command substitution. -/
  | paren
  /-- In front of an escaped blank. -/
  | blank
  deriving DecidableEq, Repr

/-- Not in the middle of a step: a byte is read as it is, or closes what is open. -/
def Mode.Settled : Mode → Prop
  | .bare | .quoted _ => True
  | .sub depth => depth ≠ 0
  | .paren | .blank => False

/-- Where a scan ends: what is left of the text, and how far ahead `*end` is. -/
structure Walk where
  type : TokenType
  rest : Str
  ahead : Nat
  deriving DecidableEq, Repr

/-- A byte that is read, as to the type of the token. -/
def typeAfter (c : UInt8) (p : TokenType) : TokenType :=
  if c = chr '=' then .assignmentWord else p

theorem isWordTok_typeAfter {p : TokenType} (c : UInt8) (hp : isWordTok p = true) :
    isWordTok (typeAfter c p) = true := by
  unfold typeAfter
  split
  · rfl
  · exact hp

/-- The depth behind a byte of a substitution. -/
def depthAfter (c : UInt8) (depth : Nat) : Nat :=
  if c = chr ')' ∨ c = chr '`' then depth - 1 else if c = chr '(' then depth + 1 else depth

/-- What ends a token in front of `l`. -/
def endsBlank (l : Str) : Bool := isspace (peekOf l) || peekOf l == eoi

def walk : Mode → TokenType → Nat → Str → Walk
  | .bare, p, k, [] => ⟨p, [], k⟩
  | .bare, p, k, c :: l =>
    if isspace (toInt c) ∨ isoperator (toInt c) then ⟨p, c :: l, k⟩
    else if c = chr '$' ∧ l.head? = some (chr '(') then walk .paren p k l
    else if c = chr '`' then walk (.sub 1) p k l
    else if c = chr '\'' then walk (.quoted .singleQuoted) p k l
    else if c = chr '"' then walk (.quoted .doubleQuoted) p k l
    else if c = chr '\\' ∧ l.head? = some (chr 'n') then ⟨.newline, l, k⟩
    else if c = chr '\\' ∧ l.head? = some (chr ' ') then walk .blank p (k + 1) l
    else walk .bare (typeAfter c p) k l
  | .quoted _, _, k, [] => ⟨.err, [], k⟩
  | .quoted flag, p, k, c :: l =>
    if c = quoteByte flag then walk .bare p k l else walk (.quoted flag) (typeAfter c p) k l
  | .sub _, _, k, [] => ⟨.err, [], k⟩
  | .sub depth, p, k, c :: l =>
    if depthAfter c depth = 0 then walk .bare p k l
    else walk (.sub (depthAfter c depth)) p k l
  | .paren, _, k, [] => ⟨.err, [], k⟩
  | .paren, p, k, _ :: l => walk (.sub 1) p k l
  | .blank, _, k, [] => ⟨.err, [], k⟩
  | .blank, p, k, c :: l => if endsBlank l then ⟨p, c :: l, k⟩ else walk .bare p k l

theorem walk_bare_backslash (p : TokenType) (k : Nat) (l : Str) :
    walk .bare p k (chr '\\' :: l) =
      if l.head? = some (chr 'n') then ⟨.newline, l, k⟩
      else if l.head? = some (chr ' ') then walk .blank p (k + 1) l
      else walk .bare p k l := by
  rw [walk, if_neg (by decide), if_neg fun h => absurd h.1 (by decide), if_neg (by decide),
    if_neg (by decide), if_neg (by decide)]
  simp only [true_and]
  rfl

theorem walk_quoted_backslash {flag : QuoteFlag} (p : TokenType) (k : Nat) (l : Str) :
    walk (.quoted flag) p k (chr '\\' :: l) = walk (.quoted flag) p k l := by
  have hne : chr '\\' ≠ quoteByte flag := by cases flag <;> decide
  rw [walk, if_neg hne]
  rfl

theorem walk_sub_backslash {depth : Nat} (hdepth : depth ≠ 0) (p : TokenType) (k : Nat)
    (l : Str) : walk (.sub depth) p k (chr '\\' :: l) = walk (.sub depth) p k l :=
  if_neg hdepth

variable {data : Str} {start stop d k : Nat} {stream : CharStream data} {p : TokenType}
  {flag : QuoteFlag} {l : Str}

/-- A scan has ended where the walk does. -/
structure Matches (start : Nat) (r : Scanned data) (w : Walk) : Prop where
  type : r.type = w.type
  word : w.type ≠ .err → r.start = start ∧ r.stream.rest = w.rest ∧ r.stop = r.stream.pos + w.ahead

/-- The first character of the text is treated as in the middle of a token. -/
def Begins (l : Str) : Prop :=
  ∀ c ∈ l.head?, isoperator (toInt c) = false ∧ isdigit (toInt c) = false

/-- The scan from inside a command substitution on; `err` is what it returns at
the end of the input. -/
def scanInSub (start : Nat) (p : TokenType) (err : Scanned data) (t : SubState data) :
    Scanned data :=
  match Loop.exec subBody _ subBody_decreasing t with
  | none => err
  | some (stream, stop) => scanFrom start (csPeek stream) ⟨stream, stop, .unquoted, p⟩

/-- The scans that are in a mode in front of `l`, with what they return. -/
inductive At (data : Str) (start : Nat) : Mode → TokenType → Nat → Str → Scanned data → Prop
  | bare {stream : CharStream data} {stop k : Nat} {p : TokenType} {l : Str} :
    stream.rest = l → stop = stream.pos + k → start ≤ stop → start < stop ∨ Begins l →
    At data start .bare p k l (scanFrom start (peekOf l) ⟨stream, stop, .unquoted, p⟩)
  | quoted {stream : CharStream data} {stop k : Nat} {p : TokenType} {l : Str} {flag : QuoteFlag} :
    stream.rest = l → stop = stream.pos + k → start < stop → flag ≠ .unquoted →
    At data start (.quoted flag) p k l (scanFrom start (peekOf l) ⟨stream, stop, flag, p⟩)
  | sub {stream : CharStream data} {stop k : Nat} {p : TokenType} {l : Str} {depth : Nat}
      {err : Scanned data} :
    stream.rest = l → stop = stream.pos + k → start < stop → depth ≠ 0 → err.type = .err →
    At data start (.sub depth) p k l (scanInSub start p err ⟨stream, stop, depth⟩)
  | paren {stream : CharStream data} {stop k : Nat} {p : TokenType} {l : Str}
      {err : Scanned data} :
    stream.rest = chr '(' :: l → stop = stream.pos + k → start ≤ stop → err.type = .err →
    At data start .paren p k (chr '(' :: l)
      (scanInSub start p err ⟨csRead stream, stop + 1, 1⟩)
  | blank {stream : CharStream data} {stop k : Nat} {p : TokenType} {l : Str} :
    stream.rest = chr ' ' :: l → stop = stream.pos + k → start < stop →
    At data start .blank p k (chr ' ' :: l)
      (scanFrom start (peekOf l) ⟨stream, stop, .unquoted, p⟩)

/-! ## Rounds outside quotes -/

theorem csRead_of_rest {c : UInt8} (h : stream.rest = c :: l) :
    (csRead stream).rest = l ∧ (csRead stream).pos = stream.pos + 1 := by
  refine ⟨by rw [rest_csRead, h]; rfl, ?_⟩
  have hne : ¬ stream.pos = data.length := fun he => by
    rw [CharStream.rest, he, List.drop_length] at h
    cases h
  rw [csRead, dif_neg hne]

theorem scanFrom_bare {c : UInt8} (hspace : isspace (toInt c) = false) (hc : c ≠ 255) :
    scanFrom start (peekOf (c :: l)) ⟨stream, stop, .unquoted, p⟩ =
      scanLoop start ⟨stream, stop, .unquoted, p⟩ := by
  refine scanFrom_go ?_
  have heoi : ¬ toInt c = eoi := by rwa [toInt_eq_eoi]
  simpa [lxEndOfToken, hspace] using heoi

theorem scanLoop_scanSub {s : ScanState data} {t : SubState data} (hflag : s.flag = .unquoted)
    (hround : scanBody start s = scanSub start s)
    (ht : (if csPeek s.stream = ch '$' then (csRead (csRead s.stream), s.stop + 1 + 1)
      else (csRead s.stream, s.stop + 1)) = (t.stream, t.stop)) (hdepth : t.depth = 1) :
    scanLoop start s = scanInSub start s.predictedType ⟨.err, t.stream, start, t.stop⟩ t := by
  obtain ⟨stream, stop, flag, p⟩ := s
  obtain ⟨stream', stop', depth⟩ := t
  cases hflag
  cases hdepth
  rw [scanSub, ht] at hround
  rw [scanInSub]
  simp only [skipSub] at hround
  split at hround
  · rename_i hskip
    rw [hskip]
    exact scanLoop_of_inr hround
  · rename_i stream'' stop'' hskip
    rw [hskip]
    exact scanLoop_of_next hround

theorem scanLoop_paren (hrest : stream.rest = chr '$' :: chr '(' :: l) :
    scanLoop start ⟨stream, stop, .unquoted, p⟩ =
      scanInSub start p ⟨.err, csRead (csRead stream), start, stop + 1 + 1⟩
        ⟨csRead (csRead stream), stop + 1 + 1, 1⟩ := by
  have hpeek : csPeek stream = ch '$' := by rw [csPeek_eq, hrest]; rfl
  have hahead : csPeekAhead stream 1 = ch '(' := by rw [csPeekAhead_eq, hrest]; rfl
  refine scanLoop_scanSub rfl ?_ (by rw [if_pos hpeek]) rfl
  simp only [scanBody, scanUnquoted, hpeek, hahead]
  rfl

theorem scanLoop_backquote (hrest : stream.rest = chr '`' :: l) :
    scanLoop start ⟨stream, stop, .unquoted, p⟩ =
      scanInSub start p ⟨.err, csRead stream, start, stop + 1⟩
        ⟨csRead stream, stop + 1, 1⟩ := by
  have hpeek : csPeek stream = ch '`' := by rw [csPeek_eq, hrest]; rfl
  refine scanLoop_scanSub rfl ?_ (by rw [hpeek]; rfl) rfl
  simp only [scanBody, scanUnquoted, hpeek]
  rfl

theorem scanLoop_escaped_n (hrest : stream.rest = chr '\\' :: chr 'n' :: l) :
    scanLoop start ⟨stream, stop, .unquoted, p⟩ =
      ⟨.newline, csRead stream, start, stop + 1⟩ := by
  have hpeek : csPeek stream = ch '\\' := by rw [csPeek_eq, hrest]; rfl
  have hahead : csPeekAhead stream 1 = ch 'n' := by rw [csPeekAhead_eq, hrest]; rfl
  refine scanLoop_of_inr ?_
  simp only [scanBody, scanUnquoted, hpeek, hahead]
  rfl

theorem scanLoop_escaped_blank (hrest : stream.rest = chr '\\' :: chr ' ' :: l) :
    scanLoop start ⟨stream, stop, .unquoted, p⟩ =
      scanFrom start (peekOf l) ⟨csRead stream, stop + 1 + 1, .unquoted, p⟩ := by
  have hpeek : csPeek stream = ch '\\' := by rw [csPeek_eq, hrest]; rfl
  have hahead : csPeekAhead stream 1 = ch ' ' := by rw [csPeekAhead_eq, hrest]; rfl
  have hnext : csPeekAhead (csRead stream) 1 = peekOf l := by
    rw [csPeekAhead_eq, (csRead_of_rest hrest).1]
    rfl
  refine scanLoop_of_next ?_
  simp only [scanBody, scanUnquoted, hpeek, hahead, hnext]
  rfl

theorem scanLoop_escaped_quote {q : UInt8} (hq : q = chr '\'' ∨ q = chr '"')
    (hrest : stream.rest = chr '\\' :: q :: l) :
    scanLoop start ⟨stream, stop, .unquoted, p⟩ =
      scanFrom start (peekOf (q :: l)) ⟨csRead stream, stop + 1, .unquoted, p⟩ := by
  have hpeek : csPeek stream = ch '\\' := by rw [csPeek_eq, hrest]; rfl
  have hahead : csPeekAhead stream 1 = toInt q := by rw [csPeekAhead_eq, hrest]; rfl
  refine scanLoop_of_next ?_
  rcases hq with rfl | rfl
  · simp only [scanBody, scanUnquoted, hpeek, hahead]
    rfl
  · simp only [scanBody, scanUnquoted, hpeek, hahead]
    rfl

/-! ## Rounds inside a substitution -/

theorem scanInSub_of_inl {err : Scanned data} {t t' : SubState data} (h : subBody t = .inl t') :
    scanInSub start p err t = scanInSub start p err t' := by
  rw [scanInSub, Loop.exec_of_inl subBody_decreasing h]
  rfl

theorem scanInSub_zero (err : Scanned data) :
    scanInSub start p err ⟨stream, stop, 0⟩ =
      scanFrom start (csPeek stream) ⟨stream, stop, .unquoted, p⟩ := by
  rw [scanInSub, Loop.exec_of_inr subBody_decreasing (r := some (stream, stop)) rfl]

theorem scanInSub_nil {err : Scanned data} {depth : Nat} (hrest : stream.rest = [])
    (hdepth : depth ≠ 0) : scanInSub start p err ⟨stream, stop, depth⟩ = err := by
  have hpeek : csPeek stream = eoi := by rw [csPeek_eq, hrest]; rfl
  have hround : subBody ⟨stream, stop, depth⟩ = .inr none := by
    simp only [subBody, hpeek, hdepth, if_false]
    rfl
  rw [scanInSub, Loop.exec_of_inr subBody_decreasing hround]

theorem scanInSub_cons {err : Scanned data} {c : UInt8} {depth : Nat}
    (hrest : stream.rest = c :: l) (hdepth : depth ≠ 0) (hc : c ≠ 255) :
    scanInSub start p err ⟨stream, stop, depth⟩ =
      scanInSub start p err ⟨csRead stream, stop + 1, depthAfter c depth⟩ := by
  have hpeek : csPeek stream = toInt c := by rw [csPeek_eq, hrest]; rfl
  have heoi : ¬ toInt c = eoi := by rwa [toInt_eq_eoi]
  refine scanInSub_of_inl ?_
  simp only [subBody, hpeek, hdepth, heoi, if_false, depthAfter, toInt_eq_ch (l := ')') (by decide),
    toInt_eq_ch (l := '`') (by decide), toInt_eq_ch (l := '(') (by decide)]
  split
  · rfl
  · split <;> rfl

/-! ## The walk -/

/-- A scan that continues from a mode in front of `l` ends where the walk does. -/
def Walks (data : Str) (start : Nat) (l : Str) : Prop :=
  ∀ {mode : Mode} {p : TokenType} {k : Nat} {r : Scanned data},
    At data start mode p k l r → Matches start r (walk mode p k l)

theorem matches_done (hrest : stream.rest = l) (hstop : stop = stream.pos + k)
    (hend : endsBlank l = true) :
    Matches start (scanFrom start (peekOf l) ⟨stream, stop, .unquoted, p⟩) ⟨p, l, k⟩ := by
  rw [scanFrom_done rfl hend]
  exact ⟨rfl, fun _ => ⟨rfl, hrest, hstop⟩⟩

theorem head?_of_peekOf {x : Char} (hx : x.toNat < 128) (hpeek : peekOf l = ch x) :
    l.head? = some (chr x) := by
  cases l with
  | nil => exact absurd hpeek.symm (ch_ne_eoi x)
  | cons d l' => exact congrArg some ((toInt_eq_ch hx).mp hpeek)

/-- A byte that no branch of the walk in front of its last one takes. -/
theorem ordinary_of_walk {c : UInt8} {atStart : Prop} (hop : isoperator (toInt c) = false)
    (hsub : ¬ (c = chr '$' ∧ l.head? = some (chr '('))) (hback : c ≠ chr '`')
    (hsingle : c ≠ chr '\'') (hdouble : c ≠ chr '"')
    (hn : ¬ (c = chr '\\' ∧ l.head? = some (chr 'n')))
    (hblank : ¬ (c = chr '\\' ∧ l.head? = some (chr ' ')))
    (hquote : ¬ (c = chr '\\' ∧ ∃ q l', l = q :: l' ∧ (q = chr '\'' ∨ q = chr '"')))
    (hdigit : atStart → isdigit (toInt c) = false) : Ordinary c (peekOf l) atStart := by
  have hnotQuote : ∀ {x : Char}, x.toNat < 128 → (chr x = chr '\'' ∨ chr x = chr '"') →
      c = chr '\\' → peekOf l ≠ ch x := by
    intro x hx hq he hpeek
    obtain ⟨l', hl⟩ := List.head?_eq_some_iff.mp (head?_of_peekOf hx hpeek)
    exact hquote ⟨he, chr x, l', hl, hq⟩
  exact {
    operator := hop
    sub := fun he hpeek => hsub ⟨he, head?_of_peekOf (by decide) hpeek⟩
    backquote := hback
    singleQuote := hsingle
    doubleQuote := hdouble
    escape := fun he => ⟨fun hpeek => hn ⟨he, head?_of_peekOf (by decide) hpeek⟩,
      hnotQuote (by decide) (.inl rfl) he, hnotQuote (by decide) (.inr rfl) he,
      fun hpeek => hblank ⟨he, head?_of_peekOf (by decide) hpeek⟩⟩
    digit := fun hs hd => by
      rw [hdigit hs] at hd
      cases hd }

theorem matches_bare_cons {c : UInt8} (hc : c ≠ 255) (hnext : Walks data start l)
    (hrest : stream.rest = c :: l) (hstop : stop = stream.pos + k) (hle : start ≤ stop)
    (hstart : start < stop ∨ Begins (c :: l)) :
    Matches start (scanFrom start (peekOf (c :: l)) ⟨stream, stop, .unquoted, p⟩)
      (walk .bare p k (c :: l)) := by
  obtain ⟨hread, hpos⟩ := csRead_of_rest hrest
  have hstop' : stop + 1 = (csRead stream).pos + k := by omega
  have hlt : start < stop + 1 := Nat.lt_succ_of_le hle
  by_cases hspace : isspace (toInt c) = true
  · rw [walk, if_pos (.inl hspace)]
    exact matches_done hrest hstop (by simp [endsBlank, hspace])
  rw [Bool.not_eq_true] at hspace
  rw [scanFrom_bare hspace hc]
  by_cases hop : isoperator (toInt c) = true
  · have hne : stop ≠ start := by
      rcases hstart with hlt | hbegins
      · omega
      · rw [(hbegins c rfl).1] at hop
        cases hop
    rw [walk, if_pos (.inr hop), scanLoop_of_inr (scanBody_operator hrest hop hne)]
    exact ⟨rfl, fun _ => ⟨rfl, hrest, hstop⟩⟩
  rw [walk, if_neg (by simp [hspace, hop])]
  rw [Bool.not_eq_true] at hop
  split
  · -- `$(`
    rename_i hsub
    obtain ⟨rfl, hhead⟩ := hsub
    obtain ⟨l', rfl⟩ : ∃ l', l = chr '(' :: l' := by
      cases l with
      | nil => cases hhead
      | cons d l' => cases hhead; exact ⟨l', rfl⟩
    rw [scanLoop_paren hrest]
    exact hnext (.paren hread hstop' (by omega) rfl)
  rename_i hsub
  split
  · rename_i hback
    subst hback
    rw [scanLoop_backquote hrest]
    exact hnext (.sub hread hstop' hlt (by decide) rfl)
  rename_i hback
  split
  · rename_i hquote
    subst hquote
    rw [scanLoop_of_next (@scanBody_open _ _ _ _ _ .singleQuoted _ (by decide) hrest)]
    exact hnext (.quoted hread hstop' hlt (by decide))
  rename_i hsingle
  split
  · rename_i hquote
    subst hquote
    rw [scanLoop_of_next (@scanBody_open _ _ _ _ _ .doubleQuoted _ (by decide) hrest)]
    exact hnext (.quoted hread hstop' hlt (by decide))
  rename_i hdouble
  split
  · rename_i hn
    obtain ⟨rfl, hhead⟩ := hn
    obtain ⟨l', rfl⟩ := List.head?_eq_some_iff.mp hhead
    rw [scanLoop_escaped_n hrest]
    exact ⟨rfl, fun _ => ⟨rfl, hread, hstop'⟩⟩
  rename_i hn
  split
  · rename_i hblank
    obtain ⟨rfl, hhead⟩ := hblank
    obtain ⟨l', rfl⟩ := List.head?_eq_some_iff.mp hhead
    rw [scanLoop_escaped_blank hrest]
    exact hnext (.blank hread (by omega) (by omega))
  rename_i hblank
  by_cases hquote : c = chr '\\' ∧ ∃ q l', l = q :: l' ∧ (q = chr '\'' ∨ q = chr '"')
  · obtain ⟨rfl, q, l', rfl, hq⟩ := hquote
    rw [scanLoop_escaped_quote hq hrest]
    exact hnext (.bare hread hstop' (by omega) (.inl hlt))
  have hdigit : stop = start → isdigit (toInt c) = false := by
    intro hs
    rcases hstart with hlt | hbegins
    · omega
    · exact (hbegins c rfl).2
  have hordinary := ordinary_of_walk hop hsub hback hsingle hdouble hn hblank hquote hdigit
  rw [scanLoop_of_next (scanBody_ordinary hrest hordinary)]
  exact hnext (.bare hread hstop' (Nat.le_of_lt hlt) (.inl hlt))

theorem walks (data : Str) (start : Nat) {l : Str} (hl : ∀ c ∈ l, c ≠ 255) :
    Walks data start l := by
  induction l with
  | nil =>
    intro mode p k r h
    cases h with
    | bare hrest hstop _ _ => exact matches_done hrest hstop rfl
    | quoted hrest hstop hlt hflag =>
      rw [peekOf_nil, scanFrom_err hflag]
      exact ⟨rfl, fun h => absurd rfl h⟩
    | sub hrest hstop hlt hdepth herr =>
      rw [scanInSub_nil hrest hdepth]
      exact ⟨herr, fun h => absurd rfl h⟩
  | cons c l ih =>
    have hc : c ≠ 255 := hl c (by simp)
    have hnext : Walks data start l := ih fun d hd => hl d (by simp [hd])
    intro mode p k r h
    cases h with
    | bare hrest hstop hle hstart => exact matches_bare_cons hc hnext hrest hstop hle hstart
    | @quoted stream stop _ _ _ flag hrest hstop hlt hflag =>
      obtain ⟨hread, hpos⟩ := csRead_of_rest hrest
      have hstop' : stop + 1 = (csRead stream).pos + k := by omega
      have hlt' : start < stop + 1 := by omega
      have hgo : lxEndOfToken (peekOf (c :: l)) flag = false := by
        rw [lxEndOfToken_quoted hflag]
        simpa [toInt_eq_eoi] using hc
      rw [scanFrom_go hgo, walk]
      split
      · rename_i hclose
        subst hclose
        rw [scanLoop_of_next (scanBody_close hflag hrest)]
        have hnot : readOne ⟨stream, stop, .unquoted, p⟩ (quoteByte flag) =
            ⟨csRead stream, stop + 1, .unquoted, p⟩ := by cases flag <;> rfl
        rw [hnot]
        exact hnext (.bare hread hstop' (Nat.le_of_lt hlt') (.inl hlt'))
      · rename_i hclose
        rw [scanLoop_of_next (scanBody_quoted hflag hrest hclose hc)]
        exact hnext (.quoted hread hstop' hlt' hflag)
    | @sub stream stop _ _ _ depth err hrest hstop hlt hdepth herr =>
      obtain ⟨hread, hpos⟩ := csRead_of_rest hrest
      have hstop' : stop + 1 = (csRead stream).pos + k := by omega
      have hlt' : start < stop + 1 := by omega
      rw [scanInSub_cons hrest hdepth hc, walk]
      split
      · rename_i hzero
        rw [hzero, scanInSub_zero, csPeek_eq, hread]
        exact hnext (.bare hread hstop' (Nat.le_of_lt hlt') (.inl hlt'))
      · exact hnext (.sub hread hstop' hlt' ‹_› herr)
    | paren hrest hstop hle herr =>
      obtain ⟨hread, hpos⟩ := csRead_of_rest hrest
      exact hnext (.sub hread (by omega) (by omega) (by decide) herr)
    | @blank stream stop _ _ _ hrest hstop hlt =>
      obtain ⟨hread, hpos⟩ := csRead_of_rest hrest
      rw [walk]
      cases hend : endsBlank l with
      | true =>
        rw [if_pos rfl, scanFrom_done rfl hend]
        exact ⟨rfl, fun _ => ⟨rfl, hrest, hstop⟩⟩
      | false =>
        have hgo : lxEndOfToken (peekOf l) .unquoted = false := hend
        have hordinary : Ordinary (chr ' ') (peekOf l) (stop = start) :=
          ⟨rfl, nofun, by decide, by decide, by decide, nofun, fun _ h => by cases h⟩
        rw [if_neg (by decide), scanFrom_go hgo,
          scanLoop_of_next (scanBody_ordinary hrest hordinary)]
        have hstop' : stop + 1 = (csRead stream).pos + k := by omega
        have hlt' : start < stop + 1 := by omega
        exact hnext (.bare hread hstop' (Nat.le_of_lt hlt') (.inl hlt'))

/-! ## The first token -/

theorem lxScan_walk {c : UInt8} {text : Str} (hspace : isspace (toInt c) = false)
    (hbegins : Begins (c :: text)) (htext : ∀ d ∈ c :: text, d ≠ 255) :
    Matches 0 (lxScan (csNew (c :: text))) (walk .bare .word 0 (c :: text)) := by
  have hc : c ≠ 255 := htext c (by simp)
  have hpeek : csPeek (csNew (c :: text)) = toInt c := by rw [csPeek_eq, rest_csNew]; rfl
  have heoi : ¬ toInt c = eoi := by rwa [toInt_eq_eoi]
  have hscan : lxScan (csNew (c :: text)) =
      scanFrom 0 (peekOf (c :: text)) ⟨csNew (c :: text), 0, .unquoted, .word⟩ := by
    rw [scanFrom_bare hspace hc]
    simp only [lxScan, hpeek, hspace, heoi, Bool.false_eq_true, false_and, if_false]
    rfl
  rw [hscan]
  exact walks _ 0 htext (.bare (rest_csNew _) rfl (Nat.le_refl _) (.inr hbegins))

/-! ## A text that is one token -/

/-- A round of the loop of `lx_scan` does not lead to the end of the input. -/
def NotEof : ScanState data ⊕ Scanned data → Prop
  | .inl s => s.predictedType ≠ .eof
  | .inr r => r.type ≠ .eof

theorem scanNext_notEof {nextc : Int} {s : ScanState data} (h : s.predictedType ≠ .eof) :
    NotEof (scanNext start nextc s) := by
  unfold scanNext
  split
  · split
    · intro heof
      cases heof
    · exact h
  · exact h

theorem scanRead_notEof {c nextc : Int} {s : ScanState data} (h : s.predictedType ≠ .eof) :
    NotEof (scanRead start c nextc s) := by
  refine scanNext_notEof ?_
  show (if c = ch '=' then TokenType.assignmentWord else s.predictedType) ≠ .eof
  split
  · decide
  · exact h

theorem scanQuoted_notEof {quote : Char} {s : ScanState data} (h : s.predictedType ≠ .eof) :
    NotEof (scanQuoted start quote s) := by
  simp only [scanQuoted]
  split
  · exact scanRead_notEof h
  · split
    · intro heof
      cases heof
    · exact scanRead_notEof h

theorem scanSub_notEof {s : ScanState data} (h : s.predictedType ≠ .eof) :
    NotEof (scanSub start s) := by
  simp only [scanSub]
  split
  · intro heof
    cases heof
  · exact scanNext_notEof h

theorem lxScanOperator_type_ne (stream : CharStream data) (c : Int) (start stop : Nat) :
    (lxScanOperator stream c start stop).type ≠ .eof := by
  cases operatorReads c with
  | one type htype scan =>
    rw [scan]
    exact htype.1
  | two double single hdouble hsingle _ scan =>
    rw [scan]
    split
    · exact hdouble.1
    · exact hsingle.1

theorem scanBody_notEof (start : Nat) {s : ScanState data} (h : s.predictedType ≠ .eof) :
    NotEof (scanBody start s) := by
  unfold scanBody
  split
  · exact scanQuoted_notEof h
  · exact scanQuoted_notEof h
  have hround := scanUnquoted_round start s
  generalize scanUnquoted start s = r at hround
  cases hround with
  | operator | redir => exact lxScanOperator_type_ne _ _ _ _
  | ends => exact h
  | read => exact scanRead_notEof h
  | sub => exact scanSub_notEof h
  | newline => exact nofun
  | quote | blank => exact scanNext_notEof h

theorem scanLoop_type_ne (start : Nat) {s : ScanState data} (h : s.predictedType ≠ .eof) :
    (scanLoop start s).type ≠ .eof := by
  obtain ⟨t, ht, hexit⟩ := Loop.exec_invariant (fun s : ScanState data => s.predictedType ≠ .eof)
    (scanBody_decreasing start) (s := s)
    (fun s s' hs hb => by
      have hnot := scanBody_notEof start hs
      rwa [hb] at hnot) h
  have hnot := scanBody_notEof start ht
  rw [hexit] at hnot
  exact hnot

/-- Nothing but blanks, on the same line. -/
def OnlyBlanks (l : Str) : Prop :=
  (∀ c ∈ l, isspace (toInt c) = true) ∧ l.head? ≠ some (chr '\n')

theorem onlyBlanks_nil : OnlyBlanks [] := by
  constructor
  · intro c hc
    cases hc
  · intro h
    cases h

/-- A scan finds a newline, or skips other whitespace up to a token or the end. -/
theorem lxScan_cases (stream : CharStream data) :
    (∃ l, stream.rest = chr '\n' :: l ∧
      lxScan stream = ⟨.newline, csRead stream, stream.pos, stream.pos + 1⟩) ∨
    ∃ (b : Str) (here : CharStream data), (∀ c ∈ b, isspace (toInt c) = true) ∧
      b.head? ≠ some (chr '\n') ∧ stream.rest = b ++ here.rest ∧
      isspace (peekOf here.rest) = false ∧
      lxScan stream = if peekOf here.rest = eoi then ⟨.eof, here, here.pos, here.pos⟩
        else scanLoop here.pos ⟨here, here.pos, .unquoted, .word⟩ := by
  by_cases hnl : stream.rest.head? = some (chr '\n')
  · obtain ⟨l, hrest⟩ := List.head?_eq_some_iff.mp hnl
    have hpeek : csPeek stream = ch '\n' := by rw [csPeek_eq, hrest]; rfl
    refine .inl ⟨l, hrest, ?_⟩
    rw [lxScan, hpeek]
    rfl
  right
  have hsplit := List.takeWhile_append_dropWhile (p := fun c => isspace (toInt c))
    (l := stream.rest)
  generalize hb : stream.rest.takeWhile (fun c => isspace (toInt c)) = b at hsplit
  generalize hd : stream.rest.dropWhile (fun c => isspace (toInt c)) = l at hsplit
  have hspaces : ∀ c ∈ b, isspace (toInt c) = true := by
    intro c hc
    rw [← hb] at hc
    exact List.mem_takeWhile_imp (p := fun c => isspace (toInt c)) hc
  have hnext : isspace (peekOf l) = false := by
    cases l with
    | nil => rfl
    | cons c l =>
      have := List.head?_dropWhile_not (fun c => isspace (toInt c)) stream.rest
      simpa [hd] using this
  have hhead : b.head? ≠ some (chr '\n') := by
    intro hbn
    obtain ⟨b', rfl⟩ := List.head?_eq_some_iff.mp hbn
    exact hnl (by rw [← hsplit]; rfl)
  obtain ⟨here, rfl, hscan⟩ := lxScan_skips hspaces hhead hnext hsplit.symm
  exact ⟨b, here, hspaces, hhead, hsplit.symm, hnext, hscan⟩

theorem lxScan_eof_iff (hl : ∀ c ∈ stream.rest, c ≠ 255) :
    (lxScan stream).type = .eof ↔ OnlyBlanks stream.rest := by
  rcases lxScan_cases stream with ⟨l, hrest, hscan⟩ | ⟨b, here, hspaces, hhead, hrest, hnext, hscan⟩
  · rw [hscan, hrest]
    constructor
    · intro h
      cases h
    · exact fun h => absurd rfl h.2
  have hnl : stream.rest.head? ≠ some (chr '\n') := by
    rw [hrest]
    cases b with
    | nil =>
      rw [List.nil_append]
      intro hnl
      obtain ⟨l, hl⟩ := List.head?_eq_some_iff.mp hnl
      rw [hl] at hnext
      cases hnext
    | cons c b => exact hhead
  rw [hscan]
  cases hl' : here.rest with
  | nil =>
    rw [hl', List.append_nil] at hrest
    exact ⟨fun _ => ⟨hrest ▸ hspaces, hnl⟩, fun _ => rfl⟩
  | cons c l =>
    have hmem : c ∈ stream.rest := by rw [hrest, hl']; simp
    have heoi : ¬ toInt c = eoi := by rw [toInt_eq_eoi]; exact hl c hmem
    rw [peekOf_cons, if_neg heoi]
    constructor
    · exact fun h => absurd h (scanLoop_type_ne _ (show TokenType.word ≠ .eof by decide))
    · intro h
      rw [hl', peekOf_cons, h.1 c hmem] at hnext
      cases hnext

end Shell.Lexer
