import Shell.LexerErrors

/-! # What a failed call of lx_tokenize leaves (lexer.h promises to clean up)

The tokens are linked into the caller's list one by one, and none is taken out again
when a later one fails. Nor does the return value tell whether the whole text lexes:
what stands behind a byte 0xFF is not read. -/
namespace Shell.Lexer
open Shell.CTypes Shell.Tokenlist Shell.Lib

variable {data : Str} {stream : CharStream data}

/-- The return value says whether the text lexes, and a list that it does not lex into
is as it was. -/
def Atomic (beyond : Nat → UInt8) (dst : TokenList) (text : Str) : Prop :=
  ((lxTokenize beyond dst (csNew text)).1 ≠ 0 ↔ terminated .bare text = false) ∧
    ((lxTokenize beyond dst (csNew text)).1 ≠ 0 →
      (lxTokenize beyond dst (csNew text)).2 = dst)

/-- The first token of a text is a word that is still open where the text ends. -/
def openFirst (text : Str) : Bool :=
  text.head? != some (chr '\n') &&
    (walk .bare .word 0 (text.dropWhile fun c => isspace (toInt c))).type == .err

theorem walk_operatorScan {here : CharStream data} {r : Scanned data}
    (h : OperatorScan here r) : (walk .bare .word 0 here.rest).type = .word := by
  obtain ⟨digits, ops, hsplit, hdigits, hne, hops⟩ := h.split
  obtain ⟨c, ops, rfl⟩ := List.exists_cons_of_ne_nil hne
  have hop := hops c List.mem_cons_self
  rw [hsplit, List.append_assoc, List.cons_append]
  rcases hdigits with rfl | ⟨d, rfl⟩
  · rw [List.nil_append, walk, if_pos (.inr hop)]
  · have htype : ∀ d : Fin 10, typeAfter (digitByte d) .word = .word := by decide
    rw [List.singleton_append, walk_digit, htype, walk, if_pos (.inr hop)]

theorem lxScan_err_iff (hl : ∀ c ∈ stream.rest, c ≠ 255) :
    (lxScan stream).type = .err ↔ openFirst stream.rest = true := by
  unfold openFirst
  rw [Bool.and_eq_true, bne_iff_ne, beq_iff_eq]
  rcases lxScan_cases stream with ⟨l, hrest, hscan⟩ | ⟨b, here, hb, hhead, hrest, hspace, hscan⟩
  · rw [hscan, hrest]
    exact iff_of_false (fun h => by cases h) fun h => h.1 rfl
  have hfirst : stream.rest.head? ≠ some (chr '\n') := by
    rw [hrest]
    cases b with
    | cons c b => exact hhead
    | nil =>
      cases hhere : here.rest with
      | nil => exact fun h => by cases h
      | cons c l =>
        rw [hhere, peekOf_cons] at hspace
        intro hc
        rw [Option.some.inj hc] at hspace
        exact absurd hspace (by decide)
  have hdrop : stream.rest.dropWhile (fun c => isspace (toInt c)) = here.rest := by
    rw [hrest, List.dropWhile_append_of_pos hb]
    cases hhere : here.rest with
    | nil => rfl
    | cons c l =>
      rw [hhere, peekOf_cons] at hspace
      exact List.dropWhile_cons_of_neg (by rw [hspace]; exact Bool.false_ne_true)
  rw [hdrop, hscan, and_iff_right hfirst]
  cases hhere : here.rest with
  | nil =>
    rw [peekOf_nil, if_pos rfl]
    exact iff_of_false (fun h => by cases h) fun h => by cases h
  | cons c l =>
    obtain ⟨hl', hpeek⟩ := ne_255_behind hl (hrest.trans (congrArg (b ++ ·) hhere))
    rw [hhere, peekOf_cons] at hspace
    rw [peekOf_cons, if_neg hpeek]
    rcases scanLoop_first hhere hspace hl' with hop | hmatch
    · rw [← hhere, walk_operatorScan hop.toOperatorScan]
      exact iff_of_false hop.token.2 fun h => by cases h
    · rw [hmatch.type]

/-- The first scan, in what the lexer sees of a text. -/
theorem lxScan_csNew (text : Str) :
    ((lxScan (csNew text)).type = .err ↔ openFirst (beforeEoi text) = true) ∧
      (isRedir (lxScan (csNew text)).type = true →
        RedirText text (lxScan (csNew text)).start (lxScan (csNew text)).stop) := by
  have hfront := ne_255_of_mem_beforeEoi text
  rcases beforeEoi_split text with htext | ⟨back, htext⟩
  · rw [← htext] at hfront ⊢
    have hl : ∀ c ∈ (csNew text).rest, c ≠ 255 := by rwa [rest_csNew]
    have hiff := lxScan_err_iff hl
    rw [rest_csNew] at hiff
    exact ⟨hiff, lxScan_redirText hl⟩
  · generalize beforeEoi text = front at hfront htext ⊢
    subst htext
    have hl : ∀ c ∈ (csNew front).rest, c ≠ 255 := by rwa [rest_csNew]
    have hsame := lxScan_same (s := csNew (front ++ 255 :: back)) (t := csNew front) rfl
    have hiff := lxScan_err_iff hl
    rw [rest_csNew] at hiff
    refine ⟨hsame.type ▸ hiff, fun hredir => ?_⟩
    rw [hsame.start, hsame.stop]
    exact (lxScan_redirText hl (hsame.type ▸ hredir)).append _

/-- The first round appends a token, unless it is the one that fails. -/
theorem tokenizeFrom_of_not_openFirst (beyond : Nat → UInt8) (dst : TokenList) {text : Str}
    (h : ¬ openFirst (beforeEoi text) = true) :
    ∃ tok, dst.tokens ++ [tok] <+: (lxTokenize beyond dst (csNew text)).2.tokens := by
  obtain ⟨hopen, hredir⟩ := lxScan_csNew text
  have herr : (lxScan (csNew text)).type ≠ .err := fun he => h (hopen.mp he)
  by_cases heof : (lxScan (csNew text)).type = .eof
  · have hround : tokenizeBody beyond ⟨dst, csNew text, 0⟩ =
        .inr (0, tokenlistAppendTok dst [⟨.eof, [], 0⟩]) := by
      rw [tokenizeBody, lxToken_eof heof]
      rfl
    rw [lxTokenize, Loop.exec_of_inr _ hround]
    exact ⟨_, List.prefix_refl _⟩
  · obtain ⟨tok, htok⟩ : ∃ tok, tokenizeBody beyond ⟨dst, csNew text, 0⟩ =
        .inl ⟨tokenlistAppendTok dst [tok], (lxScan (csNew text)).stream, 0⟩ :=
      tokenizeBody_token beyond dst heof herr hredir
    rw [lxTokenize, Loop.exec_of_inl _ htok]
    exact ⟨tok, tokenizeFrom_prefix beyond
      ⟨tokenlistAppendTok dst [tok], (lxScan (csNew text)).stream, 0⟩⟩

theorem lxTokenize_of_openFirst (beyond : Nat → UInt8) (dst : TokenList) {text : Str}
    (h : openFirst (beforeEoi text) = true) : lxTokenize beyond dst (csNew text) = (EINVAL, dst) := by
  have hround := tokenizeBody_err beyond dst ((lxScan_csNew text).1.mpr h)
  rw [lxTokenize, Loop.exec_of_inr _ hround]

/-- **When a call is atomic.** For every list and every text the call does as promised
exactly when the text lexes, with the part in front of its first byte 0xFF, or when it
does not and already the first token of that part fails. -/
theorem lxTokenize_atomic_iff (beyond : Nat → UInt8) (dst : TokenList) (text : Str) :
    Atomic beyond dst text ↔
      (terminated .bare text = true ∧ terminated .bare (beforeEoi text) = true) ∨
        (terminated .bare text = false ∧ openFirst (beforeEoi text) = true) := by
  have herrno : (lxTokenize beyond dst (csNew text)).1 = 0 ↔
      terminated .bare (beforeEoi text) = true := tokenizeFrom_csNew_iff beyond dst text
  constructor
  · intro hatomic
    obtain ⟨hreturn, hleft⟩ := hatomic
    by_cases hlexes : (lxTokenize beyond dst (csNew text)).1 = 0
    · have hwhole : ¬ terminated .bare text = false := fun hopen => hreturn.mpr hopen hlexes
      exact .inl ⟨Bool.not_eq_false _ ▸ hwhole, herrno.mp hlexes⟩
    · refine .inr ⟨hreturn.mp hlexes, ?_⟩
      by_contra hfirst
      obtain ⟨tok, hprefix⟩ := tokenizeFrom_of_not_openFirst beyond dst hfirst
      have hlength := hprefix.length_le
      rw [hleft hlexes, List.length_append, List.length_singleton] at hlength
      omega
  · intro hcond
    rcases hcond with ⟨hwhole, hlexes⟩ | ⟨hwhole, hfirst⟩
    · have hzero := herrno.mpr hlexes
      refine ⟨iff_of_false (fun hfail => hfail hzero) ?_, fun hfail => absurd hzero hfail⟩
      rw [hwhole]
      exact Bool.noConfusion
    · unfold Atomic
      rw [lxTokenize_of_openFirst beyond dst hfirst, hwhole]
      exact ⟨iff_of_true (show EINVAL ≠ 0 by decide) rfl, fun _ => rfl⟩

/-- The word of `a 'b` stays in the list, and a quote that is left open behind a byte
0xFF is not noticed. -/
theorem lxTokenize_leaves_word :
    (¬ Atomic (fun _ => 0) tokenlistNewEmpty (str "a 'b") ∧
      (lxTokenize (fun _ => 0) tokenlistNewEmpty (csNew (str "a 'b"))).1 = EINVAL ∧
      (lxTokenize (fun _ => 0) tokenlistNewEmpty (csNew (str "a 'b"))).2.tokens =
        [⟨.word, str "a", 0⟩]) ∧
    ¬ Atomic (fun _ => 0) tokenlistNewEmpty (str "a" ++ 255 :: str "'b") := by
  have hrun : (lxTokenize (fun _ => 0) tokenlistNewEmpty (csNew (str "a 'b"))).1 = EINVAL ∧
      (lxTokenize (fun _ => 0) tokenlistNewEmpty (csNew (str "a 'b"))).2.tokens =
        [⟨.word, str "a", 0⟩] := by decide +kernel
  have hzero : (lxTokenize (fun _ => 0) tokenlistNewEmpty
      (csNew (str "a" ++ 255 :: str "'b"))).1 = 0 := by decide +kernel
  refine ⟨⟨fun hatomic => ?_, hrun⟩, fun hatomic => hatomic.1.mpr (by decide) hzero⟩
  have hempty := hatomic.2 (by rw [hrun.1]; decide)
  rw [hempty] at hrun
  cases hrun.2

end Shell.Lexer
