import Shell.CommandLine
import Shell.LexerSpans

/-! # Lines that do not lex

The lexer fails on a quote or a substitution that is still open where the text
ends for it, and on nothing else: the file descriptor of a redirection is one
digit at most, so it is never out of range. -/
namespace Shell.Lexer
open Shell.CTypes Shell.Tokenlist Shell.Lib

variable {data : Str} {beyond : Nat → UInt8} {stream : CharStream data}

/-- What of a text the lexer sees: the byte 255 reads as the end of the input. -/
def beforeEoi (text : Str) : Str := text.takeWhile (· != 255)

/-- Every quote and every substitution that is opened is closed again. -/
def terminated : Mode → Str → Bool
  | .bare, [] => true
  | .bare, c :: l =>
    if c = chr '$' ∧ l.head? = some (chr '(') then terminated .paren l
    else if c = chr '`' then terminated (.sub 1) l
    else if c = chr '\'' then terminated (.quoted .singleQuoted) l
    else if c = chr '"' then terminated (.quoted .doubleQuoted) l
    else terminated .bare l
  | .quoted _, [] => false
  | .quoted flag, c :: l =>
    if c = quoteByte flag then terminated .bare l else terminated (.quoted flag) l
  | .sub _, [] => false
  | .sub depth, c :: l =>
    if depthAfter c depth = 0 then terminated .bare l else terminated (.sub (depthAfter c depth)) l
  | .paren, [] => false
  | .paren, _ :: l => terminated (.sub 1) l
  | .blank, [] => false
  | .blank, _ :: l => terminated .bare l

/-! ## One token -/

/-- A byte that opens nothing. -/
theorem terminated_bare {c : UInt8} (hsub : c ≠ chr '$') (hback : c ≠ chr '`')
    (hsingle : c ≠ chr '\'') (hdouble : c ≠ chr '"') (l : Str) :
    terminated .bare (c :: l) = terminated .bare l := by
  rw [terminated, if_neg fun h => hsub h.1, if_neg hback, if_neg hsingle, if_neg hdouble]

theorem terminated_blank (l : Str) : terminated .bare (chr ' ' :: l) = terminated .bare l :=
  terminated_bare (by decide) (by decide) (by decide) (by decide) l

/-- The walk over a token fails on what is open at the end of the text, and leaves the
rest of the text with nothing open. -/
theorem terminated_walk {mode : Mode} {p : TokenType} {k : Nat} {l : Str} (hp : p ≠ .err)
    (hblank : mode = .blank → ∀ c ∈ l.head?, c = chr ' ') :
    terminated mode l = ((walk mode p k l).type != .err && terminated .bare (walk mode p k l).rest) := by
  induction l generalizing mode p k with
  | nil =>
    cases mode with
    | bare => simp [walk, terminated, hp]
    | quoted | sub | paren | blank => rfl
  | cons c l ih =>
    have htype : typeAfter c p ≠ .err := by
      unfold typeAfter
      split
      · exact fun h => by cases h
      · exact hp
    have hnot : ∀ {mode : Mode}, mode ≠ .blank → mode = .blank → ∀ c ∈ l.head?, c = chr ' ' :=
      fun hne he => absurd he hne
    have hdone : terminated .bare (c :: l) = (p != .err && terminated .bare (c :: l)) := by
      simp [hp]
    cases mode with
    | quoted flag =>
      rw [walk, terminated]
      split
      · exact ih hp (hnot (by simp))
      · exact ih htype (hnot (by simp))
    | sub depth =>
      rw [walk, terminated]
      split
      · exact ih hp (hnot (by simp))
      · exact ih hp (hnot (by simp))
    | paren => exact ih hp (hnot (by simp))
    | blank =>
      obtain rfl : c = chr ' ' := hblank rfl c rfl
      rw [walk, terminated]
      split
      · rw [terminated_blank]
        simp [hp]
      · exact ih hp (hnot (by simp))
    | bare =>
      rw [walk]
      split
      · exact hdone
      rw [terminated]
      split
      · exact ih hp (hnot (by simp))
      split
      · exact ih hp (hnot (by simp))
      split
      · exact ih hp (hnot (by simp))
      split
      · exact ih hp (hnot (by simp))
      split
      · simp
      split
      · rename_i hb
        obtain ⟨l', rfl⟩ := List.head?_eq_some_iff.mp hb.2
        have hnext := @ih .blank p (k + 1) hp fun _ c hc => by
          rw [← Option.some.inj hc]
        rw [← hnext, terminated_blank, terminated]
      · exact ih htype (hnot (by simp))

theorem terminated_append {b l : Str}
    (h : ∀ c ∈ b, isspace (toInt c) = true ∨ isoperator (toInt c) = true) :
    terminated .bare (b ++ l) = terminated .bare l := by
  induction b with
  | nil => rfl
  | cons c b ih =>
    have hc := h c List.mem_cons_self
    rw [List.cons_append, terminated_bare, ih fun d hd => h d (List.mem_cons_of_mem _ hd)]
    all_goals
      rintro rfl
      revert hc
      decide

theorem terminated_digit (d : Fin 10) (l : Str) :
    terminated .bare (digitByte d :: l) = terminated .bare l := by
  obtain ⟨-, hsub, hback, hsingle, hdouble, -⟩ := digitByte_ordinary d
  rw [Ne, toInt_eq_ch (by decide)] at hsub hback hsingle hdouble
  exact terminated_bare hsub hback hsingle hdouble l

theorem lxScan_terminated (hl : ∀ c ∈ stream.rest, c ≠ 255) :
    terminated .bare stream.rest =
      ((lxScan stream).type != .err && terminated .bare (lxScan stream).stream.rest) := by
  rcases lxScan_first hl with ⟨l, hrest, htype, hread, -⟩ | ⟨b, here, hb, -, hrest, hcase⟩
  · rw [hrest, htype, hread]
    exact terminated_bare (by decide) (by decide) (by decide) (by decide) l
  rw [hrest, terminated_append fun c hc => .inl (hb.1 c hc)]
  rcases hcase with hop | ⟨hnil, htype, hstream⟩ | hmatch
  · obtain ⟨digits, ops, hsplit, hdigits, -, hops⟩ := hop.split
    have hne : ((lxScan stream).type != .err) = true := by simpa using hop.token.2
    rw [hne, Bool.true_and, hsplit, List.append_assoc]
    rcases hdigits with rfl | ⟨d, rfl⟩
    · exact terminated_append fun c hc => .inr (hops c hc)
    · rw [List.singleton_append, terminated_digit]
      exact terminated_append fun c hc => .inr (hops c hc)
  · rw [htype, hstream, hnil]
    rfl
  · have hwalk := @terminated_walk .bare .word 0 here.rest (by decide) fun h => by cases h
    rw [hwalk, hmatch.type]
    cases herr : (walk .bare .word 0 here.rest).type != .err with
    | false => rfl
    | true =>
      obtain ⟨-, hwrest, -⟩ := hmatch.word (by simpa using herr)
      rw [hwrest]

/-! ## File descriptors -/

/-- The text of a redirection: operators, with one digit in front at most. -/
structure RedirText (data : Str) (start stop : Nat) : Prop where
  split : ∃ digits ops l, data.drop start = digits ++ ops ++ l ∧
    (digits = [] ∨ ∃ d : Fin 10, digits = [digitByte d]) ∧ ops ≠ [] ∧
      (∀ c ∈ ops, isoperator (toInt c) = true) ∧ stop = start + (digits ++ ops).length

theorem isRedir_walk {mode : Mode} {p : TokenType} {k : Nat} {l : Str} (hp : isRedir p = false) :
    isRedir (walk mode p k l).type = false := by
  induction l generalizing mode p k with
  | nil => cases mode <;> first | exact hp | rfl
  | cons c l ih =>
    have htype : isRedir (typeAfter c p) = false := by
      unfold typeAfter
      split
      · rfl
      · exact hp
    cases mode with
    | quoted | sub | paren | blank | bare =>
      rw [walk]
      repeat' split
      all_goals first | exact ih hp | exact ih htype | exact hp | rfl

theorem lxScan_redirText (hl : ∀ c ∈ stream.rest, c ≠ 255)
    (hredir : isRedir (lxScan stream).type = true) :
    RedirText data (lxScan stream).start (lxScan stream).stop := by
  rcases lxScan_first hl with ⟨l, -, htype, -, -⟩ | ⟨b, here, -, -, -, hop | ⟨-, htype, -⟩ | hmatch⟩
  · rw [htype] at hredir
    cases hredir
  · obtain ⟨digits, ops, hsplit, hdigits, hne, hops⟩ := hop.split
    rw [hop.start, hop.stop]
    refine ⟨digits, ops, _, hsplit, hdigits, hne, hops, ?_⟩
    have hlength := congrArg List.length hsplit
    rw [List.length_append] at hlength
    have hpos := pos_add_length_rest here
    have hpos' := pos_add_length_rest (lxScan stream).stream
    omega
  · rw [htype] at hredir
    cases hredir
  · rw [hmatch.type, isRedir_walk rfl] at hredir
    cases hredir

theorem tokenText_redir (beyond : Nat → UInt8) {start stop : Nat} (h : RedirText data start stop) :
    ∃ digits ops, tokenText data beyond start stop = digits ++ ops ∧
      (digits = [] ∨ ∃ d : Fin 10, digits = [digitByte d]) ∧ ops ≠ [] ∧
        ∀ c ∈ ops, isoperator (toInt c) = true := by
  obtain ⟨digits, ops, l, hsplit, hdigits, hne, hops, hstop⟩ := h.split
  refine ⟨digits, ops, tokenText_eq hsplit hstop ?_, hdigits, hne, hops⟩
  intro c hc
  rcases List.mem_append.mp hc with hc | hc
  · rcases hdigits with rfl | ⟨d, rfl⟩
    · cases hc
    · rw [List.mem_singleton.mp hc]
      exact (digitByte_starts d).2
  · rintro rfl
    exact absurd (hops 0 hc) (by decide)

theorem operator_ne {c : UInt8} (h : isoperator (toInt c) = true) :
    isspace (toInt c) = false ∧ isdigit (toInt c) = false ∧ c ≠ 43 ∧ c ≠ 45 := by
  simp only [isoperator, Bool.or_eq_true, beq_iff_eq] at h
  rcases h with (((((((h | h) | h) | h) | h) | h) | h) | h) | h
  all_goals
    rw [toInt_eq_ch (by decide)] at h
    subst h
    decide

/-- What `strtol` makes of such a text is a digit, or nothing. -/
theorem strtol_redir {digits ops : Str}
    (hdigits : digits = [] ∨ ∃ d : Fin 10, digits = [digitByte d]) (hne : ops ≠ [])
    (hops : ∀ c ∈ ops, isoperator (toInt c) = true) :
    (strtol (digits ++ ops)).1 < INT_MAX ∧ (strtol (digits ++ ops)).2.1 = false := by
  obtain ⟨c, ops, rfl⟩ := List.exists_cons_of_ne_nil hne
  obtain ⟨hspace, hdigit, hplus, hminus⟩ := operator_ne (hops c List.mem_cons_self)
  rcases hdigits with rfl | ⟨d, rfl⟩
  · simp [strtol, hspace, hdigit, hplus, hminus]
    decide
  · have hd := isdigit_digitByte d
    have hdspace := (digitByte_starts d).1.1
    obtain ⟨hdplus, hdminus⟩ : digitByte d ≠ 43 ∧ digitByte d ≠ 45 := by
      clear hd hdspace
      revert d
      decide
    have hone : strtol ([digitByte d] ++ c :: ops) = strtol [digitByte d] := by
      simp [strtol, hd, hdspace, hdplus, hdminus, hdigit]
    rw [hone]
    clear hone hd hdspace hdplus hdminus
    revert d
    decide

/-! ## Runs -/

theorem tokenizeBody_err (beyond : Nat → UInt8) (dst : TokenList)
    (h : (lxScan stream).type = .err) :
    tokenizeBody beyond ⟨dst, stream, 0⟩ = .inr (EINVAL, dst) := by
  have htoken : lxToken beyond stream 0 = ⟨none, (lxScan stream).stream, EINVAL⟩ := by
    rw [lxToken, h]
    rfl
  rw [tokenizeBody, htoken]

theorem tokenizeBody_eof (beyond : Nat → UInt8) (dst : TokenList)
    (h : (lxScan stream).type = .eof) :
    ∃ list, tokenizeBody beyond ⟨dst, stream, 0⟩ = .inr (0, list) := by
  rw [tokenizeBody, lxToken_eof h]
  exact ⟨_, rfl⟩

/-- A scan that finds a token makes one: no descriptor is out of range. -/
theorem lxToken_token (beyond : Nat → UInt8) (errno : Int)
    (heof : (lxScan stream).type ≠ .eof) (herr : (lxScan stream).type ≠ .err)
    (hredir : isRedir (lxScan stream).type = true →
      RedirText data (lxScan stream).start (lxScan stream).stop) :
    ∃ fd errno', lxToken beyond stream errno = ⟨some ⟨(lxScan stream).type,
      tokenText data beyond (lxScan stream).start (lxScan stream).stop, fd⟩,
      (lxScan stream).stream, errno'⟩ ∧ (errno' = 0 ∨ errno' = errno) := by
  simp only [lxToken, if_neg heof, if_neg herr]
  split
  · rename_i hr
    obtain ⟨digits, ops, htext, hdigits, hne, hops⟩ := tokenText_redir beyond (hredir hr)
    obtain ⟨hmax, hrange⟩ := strtol_redir hdigits hne hops
    rw [htext, hrange, if_neg (by simpa using hmax)]
    exact ⟨_, _, rfl, .inl rfl⟩
  · exact ⟨_, _, rfl, .inr rfl⟩

theorem tokenizeBody_token (beyond : Nat → UInt8) (dst : TokenList)
    (heof : (lxScan stream).type ≠ .eof) (herr : (lxScan stream).type ≠ .err)
    (hredir : isRedir (lxScan stream).type = true →
      RedirText data (lxScan stream).start (lxScan stream).stop) :
    ∃ tok, tokenizeBody beyond ⟨dst, stream, 0⟩ =
      .inl ⟨tokenlistAppendTok dst [tok], (lxScan stream).stream, 0⟩ := by
  obtain ⟨fd, errno', htoken, herrno⟩ := lxToken_token beyond 0 heof herr hredir
  obtain rfl : errno' = 0 := herrno.elim id id
  simp only [tokenizeBody, htoken, if_neg heof]
  exact ⟨_, rfl⟩

theorem tokenizeFrom_errno_iff (beyond : Nat → UInt8) (dst : TokenList)
    (hdata : ∀ c ∈ data, c ≠ 255) :
    (tokenizeFrom beyond ⟨dst, stream, 0⟩).1 = 0 ↔ terminated .bare stream.rest = true := by
  induction hn : data.length - stream.pos using Nat.strong_induction_on
    generalizing dst stream with
  | _ n ih =>
    have hl : ∀ c ∈ stream.rest, c ≠ 255 := fun c hc => hdata c (List.mem_of_mem_drop hc)
    rw [lxScan_terminated hl, tokenizeFrom]
    by_cases herr : (lxScan stream).type = .err
    · rw [Loop.exec_of_inr _ (tokenizeBody_err beyond dst herr), herr]
      simp [EINVAL]
    have hne : ((lxScan stream).type != .err) = true := by simpa using herr
    rw [hne, Bool.true_and]
    by_cases heof : (lxScan stream).type = .eof
    · obtain ⟨list, hround⟩ := tokenizeBody_eof beyond dst heof
      rw [Loop.exec_of_inr _ hround]
      have hblanks := (lxScan_eof_iff hl).mp heof
      have hall := lxScan_terminated hl
      rw [hne, Bool.true_and, ← List.append_nil stream.rest,
        terminated_append fun c hc => .inl (hblanks.1 c hc)] at hall
      rw [← hall]
      exact ⟨fun _ => rfl, fun _ => rfl⟩
    · obtain ⟨tok, hround⟩ := tokenizeBody_token beyond dst heof herr
        (lxScan_redirText hl)
      have hlt := lxScan_pos stream heof herr
      have := (lxScan stream).stream.inBounds
      rw [Loop.exec_of_inl _ hround]
      exact ih _ (by omega) _ rfl

theorem RedirText.append {front : Str} {start stop : Nat} (h : RedirText front start stop)
    (back : Str) : RedirText (front ++ back) start stop := by
  obtain ⟨digits, ops, l, hsplit, hdigits, hne, hops, hstop⟩ := h.split
  have hstart : start ≤ front.length := by
    by_contra hgt
    rw [List.drop_eq_nil_of_le (by omega)] at hsplit
    have := List.append_eq_nil_iff.mp (List.append_eq_nil_iff.mp hsplit.symm).1
    exact hne this.2
  refine ⟨digits, ops, l ++ back, ?_, hdigits, hne, hops, hstop⟩
  rw [List.drop_append_of_le_length hstart, hsplit, List.append_assoc]

/-- What stands behind the byte 255 does not decide whether a text lexes. -/
theorem tokenizeFrom_same {front back : Str} {s : CharStream (front ++ 255 :: back)}
    {t : CharStream front} (beyond : Nat → UInt8) (dst dst' : TokenList)
    (hfront : ∀ c ∈ front, c ≠ 255)
    (hpos : s.pos = t.pos) : (tokenizeFrom beyond ⟨dst, s, 0⟩).1 =
      (tokenizeFrom beyond ⟨dst', t, 0⟩).1 := by
  refine Loop.exec_rel
    (R := fun (a : TokenizeState (front ++ 255 :: back)) (b : TokenizeState front) =>
      a.stream.pos = b.stream.pos ∧ a.errno = 0 ∧ b.errno = 0)
    (Q := fun (a b : Int × TokenList) => a.1 = b.1)
    (tokenizeBody_decreasing beyond) (tokenizeBody_decreasing beyond) ?_ ⟨hpos, rfl, rfl⟩
  rintro ⟨dstA, a, _⟩ ⟨dstB, b, _⟩ ⟨hab, rfl, rfl⟩
  have hsame := lxScan_same hab
  have htype := hsame.type
  have hl : ∀ c ∈ b.rest, c ≠ 255 := fun c hc => hfront c (List.mem_of_mem_drop hc)
  by_cases herr : (lxScan b).type = .err
  · rw [tokenizeBody_err _ _ herr, tokenizeBody_err _ _ (htype.trans herr)]
    exact .inr rfl
  by_cases heof : (lxScan b).type = .eof
  · obtain ⟨list, hround⟩ := tokenizeBody_eof beyond dstB heof
    obtain ⟨list', hround'⟩ := tokenizeBody_eof beyond dstA (htype.trans heof)
    rw [hround, hround']
    exact .inr rfl
  · have hredir := lxScan_redirText hl
    obtain ⟨tok, hround⟩ := tokenizeBody_token beyond dstB heof herr hredir
    obtain ⟨tok', hround'⟩ := tokenizeBody_token beyond dstA
      (htype ▸ heof) (htype ▸ herr) fun hr => by
        rw [hsame.start, hsame.stop]
        exact (hredir (htype ▸ hr)).append _
    rw [hround, hround']
    exact .inl ⟨hsame.pos, rfl, rfl⟩

/-- What the lexer sees of a text is all of it, or stands in front of a byte 255. -/
theorem beforeEoi_split (text : Str) :
    text = beforeEoi text ∨ ∃ back, text = beforeEoi text ++ 255 :: back := by
  have hsplit := List.takeWhile_append_dropWhile (p := (· != (255 : UInt8))) (l := text)
  cases hd : text.dropWhile (· != 255) with
  | nil =>
    rw [hd, List.append_nil] at hsplit
    exact .inl hsplit.symm
  | cons c back =>
    have hc := List.head?_dropWhile_not (· != (255 : UInt8)) text
    rw [hd] at hc hsplit
    obtain rfl : c = 255 := by simpa using hc
    exact .inr ⟨back, hsplit.symm⟩

theorem ne_255_of_mem_beforeEoi (text : Str) : ∀ c ∈ beforeEoi text, c ≠ 255 := by
  intro c hc
  simpa using List.mem_takeWhile_imp hc

/-- Into any list, a text lexes exactly if nothing is open where it ends. -/
theorem tokenizeFrom_csNew_iff (beyond : Nat → UInt8) (dst : TokenList) (text : Str) :
    (tokenizeFrom beyond ⟨dst, csNew text, 0⟩).1 = 0 ↔
      terminated .bare (beforeEoi text) = true := by
  have hfront := ne_255_of_mem_beforeEoi text
  rcases beforeEoi_split text with htext | ⟨back, htext⟩
  · rw [← htext] at hfront ⊢
    exact tokenizeFrom_errno_iff beyond dst hfront
  · generalize beforeEoi text = front at hfront htext ⊢
    subst htext
    have hiff := @tokenizeFrom_errno_iff front (csNew front) beyond dst hfront
    rw [rest_csNew] at hiff
    rw [tokenizeFrom_same (s := csNew (front ++ 255 :: back)) (t := csNew front) beyond dst dst
      hfront rfl]
    exact hiff

/-- **A text lexes exactly if nothing is open where it ends.** -/
theorem lxTokenize_errno_iff (beyond : Nat → UInt8) (text : Str) :
    (lxTokenize beyond tokenlistNewEmpty (csNew text)).1 = 0 ↔
      terminated .bare (beforeEoi text) = true :=
  tokenizeFrom_csNew_iff beyond tokenlistNewEmpty text

end Shell.Lexer

namespace Shell.Parser
open Shell.CTypes Shell.Tokenlist Shell.Lexer

/-- `lex_and_parse` returns a null list exactly for a text in which something stays
open. -/
theorem lexAndParse_eq_none_iff (beyond : Nat → UInt8) (text : Str) :
    lexAndParse beyond text = .ok none ↔ terminated .bare (beforeEoi text) = false := by
  rw [← Bool.not_eq_true, ← lxTokenize_errno_iff beyond text, lexAndParse]
  cases hlex : lxTokenize beyond tokenlistNewEmpty (csNew text) with
  | mk errno tokens =>
    by_cases herrno : errno = 0
    · simp only [herrno, ne_eq, not_true_eq_false, if_false, iff_false]
      split
      · exact fun h => by cases h
      · rename_i ts _
        cases parseList ts.tokens.length ts with
        | error => exact fun h => by cases h
        | ok => exact fun h => by cases h
    · simp [herrno]

end Shell.Parser
