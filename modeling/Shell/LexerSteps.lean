import Mathlib.Data.List.TakeWhile
import Shell.Lexer

/-! # Rounds of the scanner

What one round of `lx_scan` does, in terms of the bytes in front of the cursor,
one lemma for each way through the loop body. A scan is then followed by
rewriting with these rounds. -/
namespace Shell.Lexer
open Shell.CTypes Shell.Tokenlist Shell.Lib

variable {data : Str}

/-! ## Characters -/

theorem toInt_inj {a b : UInt8} : toInt a = toInt b ↔ a = b := by
  refine ⟨fun h => ?_, congrArg toInt⟩
  have ha := a.toNat_lt
  have hb := b.toNat_lt
  simp only [toInt] at h
  refine UInt8.toNat.inj ?_
  split at h <;> split at h <;> omega

/-- Comparing a character with an ASCII literal is comparing bytes. -/
theorem toInt_eq_ch {c : UInt8} {l : Char} (hl : l.toNat < 128) :
    toInt c = ch l ↔ c = chr l := by
  have hchr : toInt (chr l) = ch l := by
    have hmod : (chr l).toNat = l.toNat := by
      rw [chr, UInt8.toNat_ofNat']
      omega
    rw [toInt, hmod, if_pos hl, ch]
  rw [← hchr, toInt_inj]

theorem toInt_eq_eoi {c : UInt8} : toInt c = eoi ↔ c = 255 := by
  rw [show eoi = toInt 255 from rfl, toInt_inj]

theorem ch_ne_eoi (l : Char) : ch l ≠ eoi := ne_eoi_of_eq_ch rfl

/-! ## Streams by what is left of them -/

/-- The character at the head of `l`, or the end of input. -/
def peekOf : Str → Int
  | [] => eoi
  | b :: _ => toInt b

@[simp] theorem peekOf_nil : peekOf [] = eoi := rfl

@[simp] theorem peekOf_cons (b : UInt8) (l : Str) : peekOf (b :: l) = toInt b := rfl

theorem csPeekAhead_eq (stream : CharStream data) (n : Nat) :
    csPeekAhead stream n = peekOf (stream.rest.drop n) := by
  rw [csPeekAhead, CharStream.rest, List.drop_drop]
  cases h : data[stream.pos + n]? with
  | none => rw [List.drop_eq_nil_of_le (List.getElem?_eq_none_iff.mp h)]; rfl
  | some b =>
    obtain ⟨hlt, rfl⟩ := List.getElem?_eq_some_iff.mp h
    rw [List.drop_eq_getElem_cons hlt]
    rfl

theorem csPeek_eq (stream : CharStream data) : csPeek stream = peekOf stream.rest :=
  csPeekAhead_eq stream 0

theorem rest_csRead (stream : CharStream data) : (csRead stream).rest = stream.rest.tail := by
  unfold csRead
  split
  · rename_i h
    rw [CharStream.rest, h, List.drop_length]
    rfl
  · rw [CharStream.rest, CharStream.rest, List.tail_drop]

theorem rest_csNew (data : Str) : (csNew data).rest = data := rfl

/-- Cursors in the same data are told apart by what is in front of them. -/
theorem pos_add_length_rest (stream : CharStream data) :
    stream.pos + stream.rest.length = data.length := by
  have := stream.inBounds
  rw [CharStream.rest, List.length_drop]
  omega

/-! ## Whitespace -/

theorem consumeWs_rest {b l : Str} (hb : ∀ c ∈ b, isspace (toInt c) = true)
    (hl : isspace (peekOf l) = false) {stream : CharStream data} (hrest : stream.rest = b ++ l) :
    (consumeWs stream).rest = l := by
  induction b generalizing stream with
  | nil =>
    have hround : wsBody stream = .inr stream := by
      rw [wsBody, csPeek_eq, hrest, List.nil_append, hl]
      rfl
    rw [consumeWs, Loop.exec_of_inr _ hround]
    exact hrest
  | cons c b ih =>
    have hround : wsBody stream = .inl (csRead stream) := by
      rw [wsBody, csPeek_eq, hrest, List.cons_append, peekOf_cons, if_pos (hb c (by simp))]
    rw [consumeWs, Loop.exec_of_inl _ hround]
    refine ih (fun d hd => hb d (by simp [hd])) ?_
    rw [rest_csRead, hrest]
    rfl

/-- A scan skips whitespace that does not start with a newline. -/
theorem lxScan_skips {b l : Str} (hb : ∀ c ∈ b, isspace (toInt c) = true)
    (hnl : b.head? ≠ some (chr '\n')) (hl : isspace (peekOf l) = false)
    {stream : CharStream data} (hrest : stream.rest = b ++ l) :
    ∃ here : CharStream data, here.rest = l ∧ lxScan stream =
      if peekOf l = eoi then ⟨.eof, here, here.pos, here.pos⟩
      else scanLoop here.pos ⟨here, here.pos, .unquoted, .word⟩ := by
  have hnot : ¬ (isspace (csPeek stream) = true ∧ csPeek stream = ch '\n') := by
    rw [csPeek_eq, hrest]
    cases b with
    | nil => rw [List.nil_append, hl]; exact fun h => by cases h.1
    | cons c b =>
      rw [List.cons_append, peekOf_cons, toInt_eq_ch (by decide)]
      exact fun h => hnl (congrArg some h.2)
  generalize hhere :
    (if isspace (csPeek stream) = true then consumeWs stream else stream) = here
  have hrest' : here.rest = l := by
    rw [← hhere]
    split
    · exact consumeWs_rest hb hl hrest
    · rename_i hspace
      cases b with
      | nil => exact hrest
      | cons c b =>
        rw [csPeek_eq, hrest, List.cons_append, peekOf_cons] at hspace
        exact absurd (hb c (by simp)) hspace
  refine ⟨here, hrest', ?_⟩
  simp only [lxScan, hnot, if_false, hhere, csPeek_eq here, hrest']

/-! ## Token texts -/

def eofToken : Token := ⟨.eof, [], 0⟩

theorem takeWhile_nulFree {tok : Str} (h : NulFree tok) (l : Str) :
    (tok ++ l).takeWhile (· != 0) = tok ++ l.takeWhile (· != 0) :=
  List.takeWhile_append_of_pos fun b hb => by simpa using h b hb

/-- The cells up to `n`, as long as they are in the data. -/
theorem map_cellAt {beyond : Nat → UInt8} {start n : Nat} (h : start + n ≤ data.length) :
    (List.range' start n).map (cellAt data beyond) = (data.drop start).take n := by
  apply List.ext_getElem?
  intro i
  rw [List.getElem?_map]
  by_cases hi : i < n
  · have hlt : start + i < data.length := by omega
    rw [List.getElem?_range' hi, List.getElem?_take_of_lt hi, List.getElem?_drop,
      List.getElem?_eq_getElem hlt, Option.map_some, cellAt, Nat.one_mul,
      List.getElem?_append_left hlt, List.getElem?_eq_getElem hlt]
    rfl
  · rw [List.getElem?_eq_none (by simpa using hi), List.getElem?_eq_none (by simp; omega)]
    rfl

theorem takeWhile_nul (l r : Str) : (l ++ 0 :: r).takeWhile (· != 0) = l.takeWhile (· != 0) := by
  induction l with
  | nil => rfl
  | cons c l ih => rw [List.cons_append, List.takeWhile_cons, List.takeWhile_cons, ih]

/-- The text of a token ends at the NUL of the data, if not before: what lies behind it
does not matter. -/
theorem tokenText_eq_takeWhile {beyond : Nat → UInt8} {start : Nat} (hstart : start ≤ data.length)
    (stop : Nat) : tokenText data beyond start stop =
      ((data.drop start).take (stop - start)).takeWhile (· != 0) := by
  by_cases hin : start + (stop - start) ≤ data.length
  · rw [tokenText, map_cellAt hin]
  · obtain ⟨n, hn⟩ : ∃ n, stop - start = (data.length - start) + (n + 1) :=
      ⟨stop - start - (data.length - start) - 1, by omega⟩
    have hend : cellAt data beyond (start + (data.length - start)) = 0 := by
      rw [Nat.add_sub_cancel' hstart, cellAt, List.getElem?_append_right (Nat.le_refl _), Nat.sub_self]
      rfl
    have hall : (data.drop start).take (stop - start) = data.drop start :=
      List.take_of_length_le (by rw [List.length_drop]; omega)
    rw [hall, tokenText, hn, ← List.range'_append_1, List.map_append, map_cellAt (by omega),
      List.take_of_length_le (by rw [List.length_drop]), List.range'_succ, List.map_cons, hend,
      takeWhile_nul]

theorem tokenText_eq_take {beyond : Nat → UInt8} {start : Nat} (hnul : NulFree data)
    (hstart : start ≤ data.length) (stop : Nat) :
    tokenText data beyond start stop = (data.drop start).take (stop - start) := by
  have htake : NulFree ((data.drop start).take (stop - start)) :=
    fun b hb => hnul b (List.mem_of_mem_drop (List.mem_of_mem_take hb))
  rw [tokenText_eq_takeWhile hstart, ← List.append_nil (List.take _ _), takeWhile_nulFree htake]
  rfl

/-- The text of a token that ends inside the data. -/
theorem tokenText_eq {beyond : Nat → UInt8} {start stop : Nat} {tok r : Str}
    (hdata : data.drop start = tok ++ r) (hstop : stop = start + tok.length)
    (hnul : NulFree tok) : tokenText data beyond start stop = tok := by
  cases tok with
  | nil =>
    rw [tokenText, hstop, List.length_nil, Nat.add_zero, Nat.sub_self]
    rfl
  | cons c tok =>
    have hstart : start ≤ data.length := by
      have := congrArg List.length hdata
      rw [List.length_drop, List.length_append, List.length_cons] at this
      omega
    rw [tokenText_eq_takeWhile hstart, hstop, Nat.add_sub_cancel_left, hdata, List.take_left,
      ← List.append_nil (c :: tok), takeWhile_nulFree hnul]
    rfl

/-- A token that reaches the end of the data has all of it as text. -/
theorem tokenText_to_end {beyond : Nat → UInt8} {stop : Nat} (hstop : data.length ≤ stop)
    (hnul : NulFree data) : tokenText data beyond 0 stop = data := by
  rw [tokenText_eq_take hnul (Nat.zero_le _), List.drop_zero, Nat.sub_zero,
    List.take_of_length_le hstop]

/-! ## Rounds -/

variable {start stop : Nat} {stream : CharStream data} {s s' : ScanState data} {p : TokenType}
  {flag : QuoteFlag}

theorem scanLoop_of_inl (h : scanBody start s = .inl s') :
    scanLoop start s = scanLoop start s' :=
  Loop.exec_of_inl (scanBody_decreasing start) h

theorem scanLoop_of_inr {r : Scanned data} (h : scanBody start s = .inr r) :
    scanLoop start s = r :=
  Loop.exec_of_inr (scanBody_decreasing start) h

/-- The state after a byte has been read by the last lines of the body. -/
def readOne (s : ScanState data) (c : UInt8) : ScanState data :=
  { s with stream := csRead s.stream, stop := s.stop + 1,
           predictedType := if c = chr '=' then .assignmentWord else s.predictedType }

theorem scanRead_eq (c : UInt8) (nextc : Int) (s : ScanState data) :
    scanRead start (toInt c) nextc s = scanNext start nextc (readOne s c) := by
  simp only [scanRead, readOne, toInt_eq_ch (l := '=') (by decide)]

/-- The scan from the end of a round on, `nextc` being the character ahead. -/
def scanFrom (start : Nat) (nextc : Int) (s : ScanState data) : Scanned data :=
  match scanNext start nextc s with
  | .inl s => scanLoop start s
  | .inr r => r

theorem scanLoop_of_next {nextc : Int} (h : scanBody start s = scanNext start nextc s') :
    scanLoop start s = scanFrom start nextc s' := by
  cases hn : scanNext start nextc s' with
  | inl t => rw [scanLoop_of_inl (h.trans hn), scanFrom, hn]
  | inr r => rw [scanLoop_of_inr (h.trans hn), scanFrom, hn]

theorem scanFrom_go {nextc : Int} (h : lxEndOfToken nextc s.flag = false) :
    scanFrom start nextc s = scanLoop start s := by
  rw [scanFrom, scanNext, h]
  rfl

theorem scanFrom_done {nextc : Int} (hflag : s.flag = .unquoted)
    (h : (isspace nextc || nextc == eoi) = true) :
    scanFrom start nextc s = ⟨s.predictedType, s.stream, start, s.stop⟩ := by
  rw [scanFrom, scanNext, hflag, if_pos (show lxEndOfToken nextc .unquoted = true from h)]
  rfl

theorem scanFrom_err (hflag : s.flag ≠ .unquoted) :
    scanFrom start eoi s = ⟨.err, s.stream, start, s.stop⟩ := by
  have hend : lxEndOfToken eoi s.flag = true := by
    rw [lxEndOfToken, if_neg hflag]
    rfl
  have hquoted : s.flag = .doubleQuoted ∨ s.flag = .singleQuoted := by
    cases h : s.flag with
    | unquoted => exact absurd h hflag
    | singleQuoted => exact .inr rfl
    | doubleQuoted => exact .inl rfl
  rw [scanFrom, scanNext, if_pos hend, if_pos hquoted]

theorem lxEndOfToken_quoted (hflag : flag ≠ .unquoted) (nextc : Int) :
    lxEndOfToken nextc flag = (nextc == eoi) := by
  rw [lxEndOfToken, if_neg hflag]

/-- A byte read outside quotes without any special meaning, `next` being the
character behind it. -/
structure Ordinary (c : UInt8) (next : Int) (atStart : Prop) : Prop where
  operator : isoperator (toInt c) = false
  sub : c = chr '$' → next ≠ ch '('
  backquote : c ≠ chr '`'
  singleQuote : c ≠ chr '\''
  doubleQuote : c ≠ chr '"'
  escape : c = chr '\\' → next ≠ ch 'n' ∧ next ≠ ch '\'' ∧ next ≠ ch '"' ∧ next ≠ ch ' '
  digit : atStart → isdigit (toInt c) = true → next ≠ ch '<' ∧ next ≠ ch '>'

theorem scanBody_ordinary {c : UInt8} {l : Str} (hrest : stream.rest = c :: l)
    (hc : Ordinary c (peekOf l) (stop = start)) :
    scanBody start ⟨stream, stop, .unquoted, p⟩ =
      scanNext start (peekOf l) (readOne ⟨stream, stop, .unquoted, p⟩ c) := by
  rw [← scanRead_eq]
  have hpeek : csPeek stream = toInt c := by rw [csPeek_eq, hrest, peekOf_cons]
  have hahead : csPeekAhead stream 1 = peekOf l := by rw [csPeekAhead_eq, hrest]; rfl
  have hsub : ¬ (toInt c = ch '$' ∨ toInt c = ch '`') ∨ (toInt c = ch '$' ∧ peekOf l ≠ ch '(') := by
    rw [toInt_eq_ch (by decide), toInt_eq_ch (by decide)]
    by_cases h : c = chr '$'
    · exact .inr ⟨h, hc.sub h⟩
    · exact .inl (not_or.mpr ⟨h, hc.backquote⟩)
  simp only [scanBody, scanUnquoted, hpeek, hahead, hc.operator, Bool.false_eq_true, if_false]
  rcases hsub with hsub | hsub
  · have hdollar : ¬ (toInt c = ch '$' ∧ peekOf l ≠ ch '(') := fun h => hsub (.inl h.1)
    have hquote : ¬ (toInt c = ch '\'' ∨ toInt c = ch '"') := by
      rw [toInt_eq_ch (by decide), toInt_eq_ch (by decide)]
      exact not_or.mpr ⟨hc.singleQuote, hc.doubleQuote⟩
    have hescape : toInt c = ch '\\' →
        peekOf l ≠ ch 'n' ∧ peekOf l ≠ ch '\'' ∧ peekOf l ≠ ch '"' ∧ peekOf l ≠ ch ' ' := by
      rw [toInt_eq_ch (by decide)]
      exact hc.escape
    rw [if_neg hdollar, if_neg hsub, if_neg hquote, if_neg fun h => (hescape h.1).1 h.2,
      if_neg fun h => h.2.elim (hescape h.1).2.1 (hescape h.1).2.2.1,
      if_neg fun h => (hescape h.1).2.2.2 h.2,
      if_neg fun h => h.2.elim (hc.digit h.1.2 h.1.1).1 (hc.digit h.1.2 h.1.1).2]
  · rw [if_pos hsub]

/-- The byte that opens and closes the quotes of a flag. -/
def quoteByte : QuoteFlag → UInt8
  | .unquoted => 0
  | .singleQuoted => chr '\''
  | .doubleQuoted => chr '"'

/-- A byte inside quotes that is not the closing one. -/
theorem scanBody_quoted {c : UInt8} {l : Str} (hflag : flag ≠ .unquoted)
    (hrest : stream.rest = c :: l) (hc : c ≠ quoteByte flag) (heoi : c ≠ 255) :
    scanBody start ⟨stream, stop, flag, p⟩ =
      scanNext start (peekOf l) (readOne ⟨stream, stop, flag, p⟩ c) := by
  have hpeek : csPeek stream = toInt c := by rw [csPeek_eq, hrest, peekOf_cons]
  have hahead : csPeekAhead stream 1 = peekOf l := by rw [csPeekAhead_eq, hrest]; rfl
  have hne : ¬ toInt c = eoi := by rwa [toInt_eq_eoi]
  rw [← scanRead_eq]
  cases flag with
  | unquoted => exact absurd rfl hflag
  | singleQuoted =>
    have hq : ¬ toInt c = ch '\'' := by rwa [toInt_eq_ch (by decide)]
    simp only [scanBody, scanQuoted, hpeek, hahead, hq, hne, if_false]
  | doubleQuoted =>
    have hq : ¬ toInt c = ch '"' := by rwa [toInt_eq_ch (by decide)]
    simp only [scanBody, scanQuoted, hpeek, hahead, hq, hne, if_false]

theorem scanBody_close {l : Str} (hflag : flag ≠ .unquoted)
    (hrest : stream.rest = quoteByte flag :: l) :
    scanBody start ⟨stream, stop, flag, p⟩ =
      scanNext start (peekOf l) (readOne ⟨stream, stop, .unquoted, p⟩ (quoteByte flag)) := by
  have hpeek : csPeek stream = toInt (quoteByte flag) := by rw [csPeek_eq, hrest, peekOf_cons]
  have hahead : csPeekAhead stream 1 = peekOf l := by rw [csPeekAhead_eq, hrest]; rfl
  rw [← scanRead_eq]
  cases flag with
  | unquoted => exact absurd rfl hflag
  | singleQuoted => simp only [scanBody, scanQuoted, hpeek, hahead]; rfl
  | doubleQuoted => simp only [scanBody, scanQuoted, hpeek, hahead]; rfl

theorem scanBody_open {l : Str} (hflag : flag ≠ .unquoted)
    (hrest : stream.rest = quoteByte flag :: l) :
    scanBody start ⟨stream, stop, .unquoted, p⟩ =
      scanNext start (peekOf l) (readOne ⟨stream, stop, flag, p⟩ (quoteByte flag)) := by
  have hpeek : csPeek stream = toInt (quoteByte flag) := by rw [csPeek_eq, hrest, peekOf_cons]
  have hahead : csPeekAhead stream 1 = peekOf l := by rw [csPeekAhead_eq, hrest]; rfl
  rw [← scanRead_eq]
  cases flag with
  | unquoted => exact absurd rfl hflag
  | singleQuoted => simp only [scanBody, scanUnquoted, hpeek, hahead]; rfl
  | doubleQuoted => simp only [scanBody, scanUnquoted, hpeek, hahead]; rfl

/-- A token that has begun ends in front of an operator. -/
theorem scanBody_operator {c : UInt8} {l : Str} (hrest : stream.rest = c :: l)
    (hc : isoperator (toInt c) = true) (hstop : stop ≠ start) :
    scanBody start ⟨stream, stop, .unquoted, p⟩ = .inr ⟨p, stream, start, stop⟩ := by
  have hpeek : csPeek stream = toInt c := by rw [csPeek_eq, hrest, peekOf_cons]
  simp only [scanBody, scanUnquoted, hpeek, hc, if_true, hstop, if_false]

/-! ## Runs of bytes -/

/-- The state after all of `l` has been read. -/
def readAll (s : ScanState data) (l : Str) : ScanState data := l.foldl readOne s

@[simp] theorem readAll_cons (s : ScanState data) (c : UInt8) (l : Str) :
    readAll s (c :: l) = readAll (readOne s c) l := rfl

theorem readAll_append (s : ScanState data) (l l' : Str) :
    readAll s (l ++ l') = readAll (readAll s l) l' := List.foldl_append ..

@[simp] theorem readOne_stop (s : ScanState data) (c : UInt8) :
    (readOne s c).stop = s.stop + 1 := rfl

@[simp] theorem readOne_flag (s : ScanState data) (c : UInt8) : (readOne s c).flag = s.flag := rfl

theorem readOne_rest {s : ScanState data} {c : UInt8} {l : Str} (h : s.stream.rest = c :: l) :
    (readOne s c).stream.rest = l := by
  rw [readOne, rest_csRead, h]
  rfl

@[simp] theorem readAll_stop (s : ScanState data) (l : Str) :
    (readAll s l).stop = s.stop + l.length := by
  induction l generalizing s with
  | nil => rfl
  | cons c l ih =>
    rw [readAll_cons, ih, readOne_stop, List.length_cons]
    omega

@[simp] theorem readAll_flag (s : ScanState data) (l : Str) : (readAll s l).flag = s.flag := by
  induction l generalizing s with
  | nil => rfl
  | cons c l ih => rw [readAll_cons, ih, readOne_flag]

theorem readAll_rest {s : ScanState data} {l r : Str} (h : s.stream.rest = l ++ r) :
    (readAll s l).stream.rest = r := by
  induction l generalizing s with
  | nil => exact h
  | cons c l ih => exact ih (readOne_rest h)

/-- `=` anywhere among the bytes read makes the token an assignment. -/
theorem readAll_type (s : ScanState data) (l : Str) :
    (readAll s l).predictedType =
      if chr '=' ∈ l then .assignmentWord else s.predictedType := by
  induction l generalizing s with
  | nil => rfl
  | cons c l ih =>
    rw [readAll_cons, ih, readOne]
    by_cases hc : c = chr '='
    · simp [hc]
    · simp [hc, Ne.symm hc]

/-- The quote flag does not matter to reading. -/
theorem readAll_withFlag (s : ScanState data) (f : QuoteFlag) (l : Str) :
    readAll { s with flag := f } l = { readAll s l with flag := f } := by
  induction l generalizing s with
  | nil => rfl
  | cons c l ih => exact ih (readOne s c)

theorem withFlag_self {f : QuoteFlag} (h : s.flag = f) : { s with flag := f } = s := by
  obtain ⟨stream, stop, flag, p⟩ := s
  cases h
  rfl

theorem quoteByte_ne_255 (flag : QuoteFlag) : quoteByte flag ≠ 255 := by
  cases flag <;> decide

/-- From inside quotes on, to the end of the closing quote's round. -/
theorem scanLoop_inside {body l : Str} (hflag : flag ≠ .unquoted) (hs : s.flag = flag)
    (hrest : s.stream.rest = body ++ quoteByte flag :: l)
    (hbody : ∀ c ∈ body, c ≠ quoteByte flag ∧ c ≠ 255) :
    scanLoop start s = scanFrom start (peekOf l)
      { readAll s (body ++ [quoteByte flag]) with flag := .unquoted } := by
  induction body generalizing s with
  | nil =>
    obtain ⟨stream, stop, _, p⟩ := s
    cases hs
    exact scanLoop_of_next (scanBody_close hflag hrest)
  | cons c body ih =>
    obtain ⟨hc, heoi⟩ := hbody c (by simp)
    have hround : scanLoop start s =
        scanFrom start (peekOf (body ++ quoteByte flag :: l)) (readOne s c) := by
      obtain ⟨stream, stop, _, p⟩ := s
      cases hs
      exact scanLoop_of_next (scanBody_quoted hflag hrest hc heoi)
    have hnext : peekOf (body ++ quoteByte flag :: l) ≠ eoi := by
      cases body with
      | nil => exact fun h => quoteByte_ne_255 flag (toInt_eq_eoi.mp h)
      | cons d body => exact fun h => (hbody d (by simp)).2 (toInt_eq_eoi.mp h)
    have hinside := ih (s := readOne s c) hs (readOne_rest hrest) fun d hd => hbody d (by simp [hd])
    rw [hround, scanFrom_go, hinside]
    · rfl
    · rw [readOne_flag, hs, lxEndOfToken_quoted hflag]
      simpa using hnext

/-- Quotes around `body`, from the opening one on. -/
theorem scanLoop_quotes {body l : Str} (hflag : flag ≠ .unquoted) (hs : s.flag = .unquoted)
    (hrest : s.stream.rest = quoteByte flag :: (body ++ quoteByte flag :: l))
    (hbody : ∀ c ∈ body, c ≠ quoteByte flag ∧ c ≠ 255) :
    scanLoop start s = scanFrom start (peekOf l)
      (readAll s (quoteByte flag :: (body ++ [quoteByte flag]))) := by
  have hround : scanLoop start s = scanFrom start (peekOf (body ++ quoteByte flag :: l))
      (readOne { s with flag := flag } (quoteByte flag)) := by
    obtain ⟨stream, stop, _, p⟩ := s
    cases hs
    exact scanLoop_of_next (scanBody_open hflag hrest)
  have hnext : peekOf (body ++ quoteByte flag :: l) ≠ eoi := by
    cases body with
    | nil => exact fun h => quoteByte_ne_255 flag (toInt_eq_eoi.mp h)
    | cons d body => exact fun h => (hbody d (by simp)).2 (toInt_eq_eoi.mp h)
  have hrest' : (readOne { s with flag := flag } (quoteByte flag)).stream.rest =
      body ++ quoteByte flag :: l := readOne_rest (s := { s with flag := flag }) hrest
  have hinside := @scanLoop_inside data start _ flag body l hflag rfl hrest' hbody
  have hback : { readAll { s with flag := flag } (quoteByte flag :: (body ++ [quoteByte flag])) with
      flag := QuoteFlag.unquoted } = readAll s (quoteByte flag :: (body ++ [quoteByte flag])) := by
    rw [readAll_withFlag s flag (quoteByte flag :: (body ++ [quoteByte flag]))]
    exact withFlag_self ((readAll_flag s _).trans hs)
  rw [hround, scanFrom_go, hinside, ← hback]
  · rfl
  · rw [readOne_flag, lxEndOfToken_quoted hflag]
    simpa using hnext

end Shell.Lexer
