import Shell.Lib.Loop
import Shell.Tokenlist

/-! # The lexer (lexer.h, lexer.c)

A stream is a cursor in its data; `char*` pointers into the data are indices.
The scanner moves `stop` on by itself, beside the cursor, and `stop` can get
ahead of it: then the text of a token takes in bytes that have not been read,
and at the end of the data the NUL and the bytes `beyond` it. -/
namespace Shell.Lexer
open Shell.CTypes Shell.Tokenlist Shell.Lib

/-! ## Streams -/

structure CharStream (data : Str) where
  pos : Nat
  inBounds : pos ≤ data.length

variable {data : Str}

def csNew (data : Str) : CharStream data := ⟨0, Nat.zero_le _⟩

def eoi : Int := -1

def csPeekAhead (stream : CharStream data) (n : Nat) : Int :=
  match data[stream.pos + n]? with
  | some b => toInt b
  | none => eoi

def csPeek (stream : CharStream data) : Int :=
  match data[stream.pos]? with
  | some b => toInt b
  | none => eoi

/-- The stream after `cs_read`; no caller uses the character it returns. -/
def csRead (stream : CharStream data) : CharStream data :=
  if h : stream.pos = data.length then stream
  else ⟨stream.pos + 1, by have := stream.inBounds; omega⟩

/-- The bytes in front of the cursor. -/
def CharStream.rest (stream : CharStream data) : Str := data.drop stream.pos

theorem csPeek_eq_eoi {stream : CharStream data} (h : stream.pos = data.length) :
    csPeek stream = eoi := by
  rw [csPeek, List.getElem?_eq_none (by omega)]

theorem pos_csRead {stream : CharStream data} (h : csPeek stream ≠ eoi) :
    (csRead stream).pos = stream.pos + 1 := by
  have hlt : ¬ stream.pos = data.length := fun he => h (csPeek_eq_eoi he)
  rw [csRead, dif_neg hlt]

theorem le_pos_csRead (stream : CharStream data) : stream.pos ≤ (csRead stream).pos := by
  unfold csRead
  split
  · exact Nat.le_refl _
  · exact Nat.le_succ _

/-- Reading a character leaves fewer of them. -/
theorem unread_csRead {stream : CharStream data} (h : csPeek stream ≠ eoi) :
    data.length - (csRead stream).pos < data.length - stream.pos := by
  have hpos := pos_csRead h
  have := (csRead stream).inBounds
  omega

/-! ## Characters -/

def isspace (c : Int) : Bool := c == 32 || (9 ≤ c && c ≤ 13)

def isdigit (c : Int) : Bool := 48 ≤ c && c ≤ 57

def isoperator (c : Int) : Bool :=
  c == ch '|' || c == ch '&' || c == ch ';' || c == ch '(' || c == ch ')' || c == ch '\x7b' ||
    c == ch '\x7d' || c == ch '<' || c == ch '>'

inductive QuoteFlag
  | unquoted
  | singleQuoted
  | doubleQuoted
  deriving DecidableEq, Repr

def toggleFlag (c : Int) : QuoteFlag → QuoteFlag
  | .unquoted =>
    if c = ch '\'' then .singleQuoted else if c = ch '"' then .doubleQuoted else .unquoted
  | .singleQuoted => if c = ch '\'' then .unquoted else .singleQuoted
  | .doubleQuoted => if c = ch '"' then .unquoted else .doubleQuoted

def lxEndOfToken (c : Int) (flag : QuoteFlag) : Bool :=
  if flag = .unquoted then isspace c || c == eoi else c == eoi

/-! ## Scanning -/

/-- What a scan returns, with the stream behind it and `*begin` and `*end`. -/
structure Scanned (data : Str) where
  type : TokenType
  stream : CharStream data
  start : Nat
  stop : Nat

/-- An operator of one or two characters, from its first character `c` on. -/
def lxScanOperator (stream : CharStream data) (c : Int) (start stop : Nat) : Scanned data :=
  let two (second : Char) (double single : TokenType) : Scanned data :=
    if csPeekAhead stream 1 = ch second then
      ⟨double, csRead (csRead stream), start, stop + 1 + 1⟩
    else ⟨single, csRead stream, start, stop + 1⟩
  let one (type : TokenType) : Scanned data := ⟨type, csRead stream, start, stop + 1⟩
  if c = ch '|' then two '|' .or .pipe
  else if c = ch '&' then two '&' .and .amp
  else if c = ch ';' then one .semi
  else if c = ch '<' then two '<' .redirHeredoc .redirIn
  else if c = ch '>' then two '>' .redirAppend .redirOut
  else if c = ch '(' then one .lparen
  else if c = ch ')' then one .rparen
  else if c = ch '\x7b' then one .lbrace
  else if c = ch '\x7d' then one .rbrace
  else one .word

/-- The loop of `consume_ws`, which keeps `*begin` and `*end` on the cursor. -/
def wsBody (stream : CharStream data) : CharStream data ⊕ CharStream data :=
  if isspace (csPeek stream) then .inl (csRead stream) else .inr stream

theorem isspace_ne_eoi {c : Int} (h : isspace c = true) : c ≠ eoi := by
  rintro rfl
  cases h

theorem wsBody_decreasing :
    Loop.Decreasing (@wsBody data) fun stream => data.length - stream.pos := by
  intro stream stream' h
  unfold wsBody at h
  split at h
  · cases h
    exact unread_csRead (isspace_ne_eoi ‹_›)
  · cases h

def consumeWs (stream : CharStream data) : CharStream data :=
  Loop.exec wsBody _ wsBody_decreasing stream

/-- A command substitution being skipped. -/
structure SubState (data : Str) where
  stream : CharStream data
  stop : Nat
  depth : Nat

/-- One round of the loop over a command substitution; `none` is the end of the
input inside of it. -/
def subBody (s : SubState data) : SubState data ⊕ Option (CharStream data × Nat) :=
  if s.depth = 0 then .inr (some (s.stream, s.stop))
  else
    let c := csPeek s.stream
    if c = ch ')' ∨ c = ch '`' then .inl ⟨csRead s.stream, s.stop + 1, s.depth - 1⟩
    else if c = ch '(' then .inl ⟨csRead s.stream, s.stop + 1, s.depth + 1⟩
    else if c = eoi then .inr none
    else .inl ⟨csRead s.stream, s.stop + 1, s.depth⟩

theorem ne_eoi_of_eq_ch {c : Int} {l : Char} (h : c = ch l) : c ≠ eoi := by
  rw [h, ch, eoi]
  omega

/-- A round that goes on has read one character that is not the end of input. -/
theorem subBody_inl {s s' : SubState data} (h : subBody s = .inl s') :
    csPeek s.stream ≠ eoi ∧ s'.stream = csRead s.stream ∧ s'.stop = s.stop + 1 := by
  simp only [subBody] at h
  split at h
  · cases h
  · split at h
    · cases h
      exact ⟨by rename_i hc; exact hc.elim ne_eoi_of_eq_ch ne_eoi_of_eq_ch, rfl, rfl⟩
    · split at h
      · cases h
        exact ⟨ne_eoi_of_eq_ch ‹_›, rfl, rfl⟩
      · split at h
        · cases h
        · cases h
          exact ⟨‹_›, rfl, rfl⟩

theorem subBody_decreasing :
    Loop.Decreasing (@subBody data) fun s => data.length - s.stream.pos := by
  intro s s' h
  obtain ⟨hc, hstream, -⟩ := subBody_inl h
  simp only [hstream]
  exact unread_csRead hc

def skipSub (stream : CharStream data) (stop : Nat) : Option (CharStream data × Nat) :=
  Loop.exec subBody _ subBody_decreasing ⟨stream, stop, 1⟩

structure ScanState (data : Str) where
  stream : CharStream data
  stop : Nat
  flag : QuoteFlag
  predictedType : TokenType

/-- The end of a round: the loop condition on the character ahead, and what
follows the loop. -/
def scanNext (start : Nat) (nextc : Int) (s : ScanState data) : ScanState data ⊕ Scanned data :=
  if lxEndOfToken nextc s.flag then
    if s.flag = .doubleQuoted ∨ s.flag = .singleQuoted then
      .inr ⟨.err, s.stream, start, s.stop⟩
    else .inr ⟨s.predictedType, s.stream, start, s.stop⟩
  else .inl s

/-- The last lines of the loop body: note `=`, read the character. -/
def scanRead (start : Nat) (c nextc : Int) (s : ScanState data) : ScanState data ⊕ Scanned data :=
  let predictedType := if c = ch '=' then .assignmentWord else s.predictedType
  scanNext start nextc
    { s with stream := csRead s.stream, stop := s.stop + 1, predictedType := predictedType }

/-- A round inside quotes. -/
def scanQuoted (start : Nat) (quote : Char) (s : ScanState data) :
    ScanState data ⊕ Scanned data :=
  let c := csPeek s.stream
  let nextc := csPeekAhead s.stream 1
  if c = ch quote then scanRead start c nextc { s with flag := toggleFlag c s.flag }
  else if c = eoi then .inr ⟨.err, s.stream, start, s.stop⟩
  else scanRead start c nextc s

/-- A round at `$(` or a backquote. -/
def scanSub (start : Nat) (s : ScanState data) : ScanState data ⊕ Scanned data :=
  let (stream, stop) :=
    if csPeek s.stream = ch '$' then (csRead (csRead s.stream), s.stop + 1 + 1)
    else (csRead s.stream, s.stop + 1)
  match skipSub stream stop with
  | none => .inr ⟨.err, stream, start, stop⟩
  | some (stream, stop) =>
    scanNext start (csPeek stream) { s with stream := stream, stop := stop }

/-- A round outside quotes. -/
def scanUnquoted (start : Nat) (s : ScanState data) : ScanState data ⊕ Scanned data :=
  let c := csPeek s.stream
  let nextc := csPeekAhead s.stream 1
  if isoperator c then
    if s.stop = start then .inr (lxScanOperator s.stream c start s.stop)
    else .inr ⟨s.predictedType, s.stream, start, s.stop⟩
  else if c = ch '$' ∧ nextc ≠ ch '(' then scanRead start c nextc s
  else if c = ch '$' ∨ c = ch '`' then scanSub start s
  else if c = ch '\'' ∨ c = ch '"' then
    scanRead start c nextc { s with flag := toggleFlag c s.flag }
  else if c = ch '\\' ∧ nextc = ch 'n' then
    .inr ⟨.newline, csRead s.stream, start, s.stop + 1⟩
  else if c = ch '\\' ∧ (nextc = ch '\'' ∨ nextc = ch '"') then
    -- the quote is left to the next round, which toggles on it
    scanNext start nextc { s with stream := csRead s.stream, stop := s.stop + 1 }
  else if c = ch '\\' ∧ nextc = ch ' ' then
    -- the blank is counted here but not read
    scanNext start (csPeekAhead (csRead s.stream) 1)
      { s with stream := csRead s.stream, stop := s.stop + 1 + 1 }
  else if (isdigit c ∧ s.stop = start) ∧ (nextc = ch '<' ∨ nextc = ch '>') then
    .inr (lxScanOperator (csRead s.stream) (csPeek (csRead s.stream)) start (s.stop + 1))
  else scanRead start c nextc s

/-- One round of the loop of `lx_scan`. -/
def scanBody (start : Nat) (s : ScanState data) : ScanState data ⊕ Scanned data :=
  match s.flag with
  | .singleQuoted => scanQuoted start '\'' s
  | .doubleQuoted => scanQuoted start '"' s
  | .unquoted => scanUnquoted start s

/-- What an operator scan does, by its character alone: it reads one character, or two if
the second is the same. -/
inductive OperatorReads (c : Int) : Prop
  | one (type : TokenType) (token : type ≠ .eof ∧ type ≠ .err)
    (scan : ∀ {data : Str} (stream : CharStream data) (start stop : Nat),
      lxScanOperator stream c start stop = ⟨type, csRead stream, start, stop + 1⟩)
  | two (double single : TokenType) (tokens : double ≠ .eof ∧ double ≠ .err)
    (token : single ≠ .eof ∧ single ≠ .err) (hc : c ≠ eoi)
    (scan : ∀ {data : Str} (stream : CharStream data) (start stop : Nat),
      lxScanOperator stream c start stop =
        if csPeekAhead stream 1 = c then ⟨double, csRead (csRead stream), start, stop + 1 + 1⟩
        else ⟨single, csRead stream, start, stop + 1⟩)

theorem operatorReads (c : Int) : OperatorReads c := by
  by_cases hop : isoperator c = true
  · simp only [isoperator, Bool.or_eq_true, beq_iff_eq] at hop
    rcases hop with (((((((rfl | rfl) | rfl) | rfl) | rfl) | rfl) | rfl) | rfl) | rfl
    · exact .two .or .pipe ⟨nofun, nofun⟩ ⟨nofun, nofun⟩ (ne_eoi_of_eq_ch rfl) fun _ _ _ => rfl
    · exact .two .and .amp ⟨nofun, nofun⟩ ⟨nofun, nofun⟩ (ne_eoi_of_eq_ch rfl) fun _ _ _ => rfl
    · exact .one .semi ⟨nofun, nofun⟩ fun _ _ _ => rfl
    · exact .one .lparen ⟨nofun, nofun⟩ fun _ _ _ => rfl
    · exact .one .rparen ⟨nofun, nofun⟩ fun _ _ _ => rfl
    · exact .one .lbrace ⟨nofun, nofun⟩ fun _ _ _ => rfl
    · exact .one .rbrace ⟨nofun, nofun⟩ fun _ _ _ => rfl
    · exact .two .redirHeredoc .redirIn ⟨nofun, nofun⟩ ⟨nofun, nofun⟩ (ne_eoi_of_eq_ch rfl)
        fun _ _ _ => rfl
    · exact .two .redirAppend .redirOut ⟨nofun, nofun⟩ ⟨nofun, nofun⟩ (ne_eoi_of_eq_ch rfl)
        fun _ _ _ => rfl
  · simp only [isoperator, Bool.or_eq_true, beq_iff_eq, not_or] at hop
    refine .one .word ⟨nofun, nofun⟩ fun stream start stop => ?_
    simp only [lxScanOperator, hop, if_false]

/-- What a round outside of quotes can do. -/
inductive UnquotedRound (start : Nat) (s : ScanState data) : ScanState data ⊕ Scanned data → Prop
  | operator : UnquotedRound start s (.inr (lxScanOperator s.stream (csPeek s.stream) start s.stop))
  | ends (hstop : s.stop ≠ start) :
    UnquotedRound start s (.inr ⟨s.predictedType, s.stream, start, s.stop⟩)
  | read (flag : QuoteFlag) : UnquotedRound start s
      (scanRead start (csPeek s.stream) (csPeekAhead s.stream 1) { s with flag := flag })
  | sub (hc : csPeek s.stream ≠ eoi) : UnquotedRound start s (scanSub start s)
  | newline : UnquotedRound start s (.inr ⟨.newline, csRead s.stream, start, s.stop + 1⟩)
  | quote (hc : csPeek s.stream ≠ eoi) : UnquotedRound start s
      (scanNext start (csPeekAhead s.stream 1)
        { s with stream := csRead s.stream, stop := s.stop + 1 })
  | blank (hc : csPeek s.stream ≠ eoi) : UnquotedRound start s
      (scanNext start (csPeekAhead (csRead s.stream) 1)
        { s with stream := csRead s.stream, stop := s.stop + 1 + 1 })
  | redir : UnquotedRound start s
      (.inr (lxScanOperator (csRead s.stream) (csPeek (csRead s.stream)) start (s.stop + 1)))

theorem scanUnquoted_round (start : Nat) (s : ScanState data) :
    UnquotedRound start s (scanUnquoted start s) := by
  unfold scanUnquoted
  refine iteInduction (fun _ => iteInduction (fun _ => .operator) .ends) fun _ => ?_
  refine iteInduction (fun _ => .read s.flag) fun _ => ?_
  refine iteInduction (fun h => .sub (h.elim ne_eoi_of_eq_ch ne_eoi_of_eq_ch)) fun _ => ?_
  refine iteInduction (fun _ => .read _) fun _ => ?_
  refine iteInduction (fun _ => .newline) fun _ => ?_
  refine iteInduction (fun h => .quote (ne_eoi_of_eq_ch h.1)) fun _ => ?_
  refine iteInduction (fun h => .blank (ne_eoi_of_eq_ch h.1)) fun _ => ?_
  exact iteInduction (fun _ => .redir) fun _ => .read s.flag

theorem skipSub_pos {stream stream' : CharStream data} {stop stop' : Nat}
    (h : skipSub stream stop = some (stream', stop')) : stream.pos ≤ stream'.pos := by
  obtain ⟨t, ht, hexit⟩ := Loop.exec_invariant (fun s : SubState data =>
    stream.pos ≤ s.stream.pos) subBody_decreasing (s := ⟨stream, stop, 1⟩)
    (fun s s' hs hb => by
      rw [(subBody_inl hb).2.1]
      exact Nat.le_trans hs (le_pos_csRead _)) (Nat.le_refl _)
  rw [show Loop.exec subBody _ subBody_decreasing ⟨stream, stop, 1⟩ = some (stream', stop') from h]
    at hexit
  simp only [subBody] at hexit
  split at hexit
  · cases hexit
    exact ht
  · repeat' split at hexit
    all_goals cases hexit

/-- Passing on to another round: the state is the one the round ended in, and
the character ahead was not the end of input. -/
theorem scanNext_inl {start : Nat} {nextc : Int} {s s' : ScanState data}
    (h : scanNext start nextc s = .inl s') : s' = s ∧ nextc ≠ eoi := by
  unfold scanNext at h
  split at h
  · split at h <;> cases h
  · cases h
    refine ⟨rfl, ?_⟩
    rintro rfl
    rename_i hend
    exact hend (by unfold lxEndOfToken; split <;> rfl)

theorem pos_csRead_of_ahead {stream : CharStream data} (h : csPeekAhead stream 1 ≠ eoi) :
    (csRead stream).pos = stream.pos + 1 := by
  have hne : ¬ stream.pos = data.length := fun he =>
    h (by rw [csPeekAhead, List.getElem?_eq_none (by omega)])
  rw [csRead, dif_neg hne]

theorem scanRead_inl {start : Nat} {c : Int} {s t s' : ScanState data}
    (h : scanRead start c (csPeekAhead s.stream 1) t = .inl s') (ht : t.stream = s.stream) :
    s.stream.pos < s'.stream.pos := by
  obtain ⟨rfl, hne⟩ := scanNext_inl h
  simp only [ht, pos_csRead_of_ahead hne]
  exact Nat.lt_succ_self _

theorem scanQuoted_inl {start : Nat} {quote : Char} {s s' : ScanState data}
    (h : scanQuoted start quote s = .inl s') : s.stream.pos < s'.stream.pos := by
  simp only [scanQuoted] at h
  split at h
  · exact scanRead_inl h rfl
  · split at h
    · cases h
    · exact scanRead_inl h rfl

theorem lt_pos_csRead {stream : CharStream data} (h : csPeek stream ≠ eoi) :
    stream.pos < (csRead stream).pos := by
  rw [pos_csRead h]
  exact Nat.lt_succ_self _

theorem scanSub_inl {start : Nat} {s s' : ScanState data} (hc : csPeek s.stream ≠ eoi)
    (h : scanSub start s = .inl s') : s.stream.pos < s'.stream.pos := by
  have skipped : ∀ {stream : CharStream data} {stop : Nat},
      s.stream.pos < stream.pos → ∀ {stream' stop'}, skipSub stream stop = some (stream', stop') →
      s.stream.pos < stream'.pos :=
    fun hlt _ _ hskip => Nat.lt_of_lt_of_le hlt (skipSub_pos hskip)
  simp only [scanSub] at h
  split at h
  · cases h
  · rename_i stream' stop' hskip
    obtain ⟨rfl, -⟩ := scanNext_inl h
    split at hskip
    · exact skipped (Nat.lt_of_lt_of_le (lt_pos_csRead hc) (le_pos_csRead _)) hskip
    · exact skipped (lt_pos_csRead hc) hskip

theorem scanUnquoted_inl {start : Nat} {s s' : ScanState data}
    (h : scanUnquoted start s = .inl s') : s.stream.pos < s'.stream.pos := by
  have hround := scanUnquoted_round start s
  generalize scanUnquoted start s = r at h hround
  cases hround with
  | operator | ends | newline | redir => cases h
  | read flag => exact scanRead_inl h rfl
  | sub hc => exact scanSub_inl hc h
  | quote hc | blank hc =>
    obtain ⟨rfl, -⟩ := scanNext_inl h
    exact lt_pos_csRead hc

/-- Every round that goes on has read something. -/
theorem scanBody_inl {start : Nat} {s s' : ScanState data} (h : scanBody start s = .inl s') :
    s.stream.pos < s'.stream.pos := by
  unfold scanBody at h
  split at h
  · exact scanQuoted_inl h
  · exact scanQuoted_inl h
  · exact scanUnquoted_inl h

theorem scanBody_decreasing (start : Nat) :
    Loop.Decreasing (@scanBody data start) fun s => data.length - s.stream.pos := by
  intro s s' h
  have hlt := scanBody_inl h
  have := s'.stream.inBounds
  simp only
  omega

/-- The `do` loop of `lx_scan`. -/
def scanLoop (start : Nat) (s : ScanState data) : Scanned data :=
  Loop.exec (scanBody start) _ (scanBody_decreasing start) s

def lxScan (stream : CharStream data) : Scanned data :=
  let nextc := csPeek stream
  if isspace nextc ∧ nextc = ch '\n' then
    ⟨.newline, csRead stream, stream.pos, stream.pos + 1⟩
  else
    let stream := if isspace nextc then consumeWs stream else stream
    if csPeek stream = eoi then ⟨.eof, stream, stream.pos, stream.pos⟩
    else scanLoop stream.pos ⟨stream, stream.pos, .unquoted, .word⟩

/-! ## Tokens -/

def isRedir : TokenType → Bool
  | .redirAppend | .redirHeredoc | .redirIn | .redirOut => true
  | _ => false

def EINVAL : Int := 22
def ERANGE : Int := 34
def INT_MAX : Int := 2 ^ 31 - 1
def LONG_MAX : Int := 2 ^ 63 - 1
def LONG_MIN : Int := -2 ^ 63

/-- `strtol(s, &end, 10)`: the value, clamped to `long`, whether it was
clamped, and whether there were digits at all. -/
def strtol (s : Str) : Int × Bool × Bool :=
  let s := s.dropWhile fun b => isspace (toInt b)
  let (negative, s) := match s with
    | 43 :: rest => (false, rest)
    | 45 :: rest => (true, rest)
    | s => (false, s)
  let digits := s.takeWhile fun b => isdigit (toInt b)
  let value := digits.foldl (fun n b => n * 10 + (toInt b - ch '0')) (0 : Int)
  let value := if negative then -value else value
  let clamped := max LONG_MIN (min LONG_MAX value)
  (clamped, clamped != value, !digits.isEmpty)

/-- The bytes `memcpy` takes: those of the data, its NUL, and what lies behind. -/
def cellAt (data : Str) (beyond : Nat → UInt8) (i : Nat) : UInt8 :=
  ((data ++ [0])[i]?).getD (beyond i)

/-- `arr[distance] = '\0'` and the C string in `arr`. -/
def tokenText (data : Str) (beyond : Nat → UInt8) (start stop : Nat) : Str :=
  ((List.range' start (stop - start)).map (cellAt data beyond)).takeWhile (· != 0)

/-- The token, or null; the stream; and `errno`. -/
structure Lexed (data : Str) where
  tok : Option Token
  stream : CharStream data
  errno : Int

def lxToken (beyond : Nat → UInt8) (stream : CharStream data) (errno : Int) : Lexed data :=
  let r := lxScan stream
  if r.type = .eof then ⟨some ⟨r.type, [], 0⟩, r.stream, errno⟩
  else if r.type = .err then ⟨none, r.stream, EINVAL⟩
  else
    let arr := tokenText data beyond r.start r.stop
    if isRedir r.type then
      let (fdl, erange, digits) := strtol arr
      if INT_MAX ≤ fdl ∨ erange then ⟨none, r.stream, ERANGE⟩
      else
        let fdl := if digits then fdl
          else if r.type = .redirIn ∨ r.type = .redirHeredoc then 0 else 1
        ⟨some ⟨r.type, arr, fdl⟩, r.stream, 0⟩
    else ⟨some ⟨r.type, arr, 0⟩, r.stream, errno⟩

/-- What `lx_tokenize` goes round with. -/
structure TokenizeState (data : Str) where
  dst : TokenList
  stream : CharStream data
  errno : Int

def tokenizeBody (beyond : Nat → UInt8) (s : TokenizeState data) :
    TokenizeState data ⊕ (Int × TokenList) :=
  let r := lxToken beyond s.stream s.errno
  match r.tok with
  | none => .inr (r.errno, s.dst)
  | some tok =>
    let dst := tokenlistAppendTok s.dst [tok]
    if tok.type = .eof then .inr (r.errno, dst) else .inl ⟨dst, r.stream, r.errno⟩

/-! ## Every token reads something -/

theorem consumeWs_pos (stream : CharStream data) : stream.pos ≤ (consumeWs stream).pos := by
  obtain ⟨t, ht, hexit⟩ := Loop.exec_invariant (fun s : CharStream data => stream.pos ≤ s.pos)
    wsBody_decreasing (s := stream) (fun s s' hs hb => by
      unfold wsBody at hb
      split at hb
      · cases hb
        exact Nat.le_trans hs (le_pos_csRead _)
      · cases hb) (Nat.le_refl _)
  change wsBody t = .inr (consumeWs stream) at hexit
  generalize consumeWs stream = stream' at hexit ⊢
  unfold wsBody at hexit
  split at hexit
  · cases hexit
  · cases hexit
    exact ht

theorem scanNext_inr {start : Nat} {nextc : Int} {s : ScanState data} {r : Scanned data}
    (h : scanNext start nextc s = .inr r) : r.stream = s.stream := by
  unfold scanNext at h
  split at h
  · split at h <;> (cases h; rfl)
  · cases h

theorem lxScanOperator_pos (stream : CharStream data) (c : Int) (start stop : Nat) :
    (csRead stream).pos ≤ (lxScanOperator stream c start stop).stream.pos := by
  cases operatorReads c with
  | one type _ scan => exact Nat.le_of_eq (by rw [scan])
  | two double single _ _ _ scan =>
    rw [scan]
    split
    · exact le_pos_csRead _
    · exact Nat.le_refl _

/-- The last round reads a character too, unless it ends the token in front of
an operator. -/
theorem scanBody_inr {start : Nat} {s : ScanState data} {r : Scanned data}
    (h : scanBody start s = .inr r) (herr : r.type ≠ .err) :
    s.stream.pos ≤ r.stream.pos ∧
      (csPeek s.stream ≠ eoi → s.stop = start → s.stream.pos < r.stream.pos) := by
  -- all that matters is that the stream returned lies behind one read character
  suffices hread : (csRead s.stream).pos ≤ r.stream.pos ∨ (r.stream = s.stream ∧ s.stop ≠ start) by
    rcases hread with hle | ⟨heq, hstop⟩
    · exact ⟨Nat.le_trans (le_pos_csRead _) hle,
        fun hc _ => Nat.lt_of_lt_of_le (lt_pos_csRead hc) hle⟩
    · exact ⟨Nat.le_of_eq (by rw [heq]), fun _ hs => absurd hs hstop⟩
  have next : ∀ {nextc : Int} {t : ScanState data}, scanNext start nextc t = .inr r →
      (csRead s.stream).pos ≤ t.stream.pos → (csRead s.stream).pos ≤ r.stream.pos :=
    fun ht hle => by rwa [scanNext_inr ht]
  have quoted : ∀ {quote : Char}, scanQuoted start quote s = .inr r →
      (csRead s.stream).pos ≤ r.stream.pos := by
    intro quote hq
    simp only [scanQuoted] at hq
    split at hq
    · exact next hq (Nat.le_refl _)
    · split at hq
      · cases hq
        exact absurd rfl herr
      · exact next hq (Nat.le_refl _)
  unfold scanBody at h
  split at h
  · exact .inl (quoted h)
  · exact .inl (quoted h)
  have hround := scanUnquoted_round start s
  generalize scanUnquoted start s = r' at h hround
  cases hround with
  | ends hstop =>
    cases h
    exact .inr ⟨rfl, hstop⟩
  | operator =>
    cases h
    exact .inl (lxScanOperator_pos _ _ _ _)
  | newline =>
    cases h
    exact .inl (Nat.le_refl _)
  | redir =>
    cases h
    exact .inl (Nat.le_trans (le_pos_csRead _) (lxScanOperator_pos _ _ _ _))
  | read | quote | blank => exact .inl (next h (Nat.le_refl _))
  | sub =>
    left
    simp only [scanSub] at h
    split at h
    · cases h
      exact absurd rfl herr
    · rename_i stream' stop' hskip
      refine next h ?_
      split at hskip
      · exact Nat.le_trans (le_pos_csRead _) (skipSub_pos hskip)
      · exact skipSub_pos hskip

/-- The first round of a token reads a character, or the scan fails. -/
theorem scanLoop_pos {here : CharStream data} {p : TokenType} (hpeek : csPeek here ≠ eoi)
    (herr : (scanLoop here.pos ⟨here, here.pos, .unquoted, p⟩).type ≠ .err) :
    here.pos < (scanLoop here.pos ⟨here, here.pos, .unquoted, p⟩).stream.pos := by
  obtain ⟨t, ht, hexit⟩ := Loop.exec_invariant
    (fun s : ScanState data =>
      (csPeek s.stream ≠ eoi ∧ s.stream.pos = here.pos ∧ s.stop = here.pos) ∨
        here.pos < s.stream.pos)
    (scanBody_decreasing here.pos) (s := ⟨here, here.pos, .unquoted, p⟩)
    (fun s s' hs hb => by
      have hlt := scanBody_inl hb
      omega)
    (.inl ⟨hpeek, rfl, rfl⟩)
  change scanBody here.pos t = .inr (scanLoop here.pos _) at hexit
  obtain ⟨hge, hgt⟩ := scanBody_inr hexit herr
  rcases ht with ⟨hpeek, hpos, hstop⟩ | hlt
  · have := hgt hpeek hstop
    omega
  · omega

theorem lxScan_pos (stream : CharStream data) (heof : (lxScan stream).type ≠ .eof)
    (herr : (lxScan stream).type ≠ .err) : stream.pos < (lxScan stream).stream.pos := by
  simp only [lxScan] at heof herr ⊢
  split
  · rename_i hnl
    exact lt_pos_csRead (isspace_ne_eoi hnl.1)
  · rename_i hnl
    simp only [hnl, if_false] at heof herr
    generalize hws : (if isspace (csPeek stream) then consumeWs stream else stream) = here
      at heof herr ⊢
    have hle : stream.pos ≤ here.pos := by
      rw [← hws]
      split
      · exact consumeWs_pos stream
      · exact Nat.le_refl _
    by_cases hc : csPeek here = eoi
    · simp only [hc, if_true, ne_eq, not_true_eq_false] at heof
    · simp only [hc, if_false] at herr ⊢
      exact Nat.lt_of_le_of_lt hle (scanLoop_pos hc herr)

theorem lxToken_stream (beyond : Nat → UInt8) (stream : CharStream data) (errno : Int) :
    (lxToken beyond stream errno).stream = (lxScan stream).stream := by
  simp only [lxToken]
  repeat' split
  all_goals rfl

/-- The text of a token that is not the end of the input. -/
theorem lxToken_value {beyond : Nat → UInt8} {stream : CharStream data} {errno : Int}
    {tok : Token} (h : (lxToken beyond stream errno).tok = some tok) (heof : tok.type ≠ .eof) :
    (lxScan stream).type ≠ .eof ∧ (lxScan stream).type ≠ .err ∧
      tok.value = tokenText data beyond (lxScan stream).start (lxScan stream).stop := by
  simp only [lxToken] at h
  split at h
  · rename_i he
    cases h
    exact absurd he heof
  rename_i hne
  split at h
  · cases h
  rename_i herr
  refine ⟨hne, herr, ?_⟩
  split at h
  · split at h
    · cases h
    · cases h
      rfl
  · cases h
    rfl

theorem lxToken_pos {beyond : Nat → UInt8} {stream : CharStream data} {errno : Int} {tok : Token}
    (h : (lxToken beyond stream errno).tok = some tok) (heof : tok.type ≠ .eof) :
    stream.pos < (lxToken beyond stream errno).stream.pos := by
  obtain ⟨hne, herr, -⟩ := lxToken_value h heof
  rw [lxToken_stream]
  exact lxScan_pos stream hne herr

theorem tokenizeBody_decreasing (beyond : Nat → UInt8) :
    Loop.Decreasing (@tokenizeBody data beyond) fun s =>
      data.length - s.stream.pos := by
  intro s s' h
  simp only [tokenizeBody] at h
  split at h
  · cases h
  · rename_i tok htok
    split at h
    · cases h
    · cases h
      have hlt := lxToken_pos htok ‹_›
      have := (lxToken beyond s.stream s.errno).stream.inBounds
      simp only
      omega

/-- `errno` and the tokens; on a failure the tokens read before it stay in `dst`. -/
def lxTokenize (beyond : Nat → UInt8) (dst : TokenList) (stream : CharStream data) :
    Int × TokenList :=
  Loop.exec (tokenizeBody beyond) _ (tokenizeBody_decreasing beyond) ⟨dst, stream, 0⟩

end Shell.Lexer
