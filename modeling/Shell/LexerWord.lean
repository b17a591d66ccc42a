import Shell.LexerWalk

/-! # Lines that are one word

When the lexer makes one word of a whole line is decided by where the walk over
the line ends: in a word, with nothing but blanks left. -/
namespace Shell.Lexer
open Shell.CTypes Shell.Tokenlist Shell.Lib

variable {data : Str} {stream : CharStream data} {beyond : Nat → UInt8}

/-- The line is lexed as one word, with this text, and the end of the input. -/
def LexesAs (beyond : Nat → UInt8) (line text : Str) : Prop :=
  ∃ list tok, lxTokenize beyond tokenlistNewEmpty (csNew line) = (0, list) ∧
    list.tokens = [tok, eofToken] ∧ isWordTok tok.type = true ∧ tok.value = text

theorem isWordTok_ne {type : TokenType} (h : isWordTok type = true) :
    type ≠ .eof ∧ type ≠ .err ∧ isRedir type = false := by
  cases type with
  | word | assignmentWord => exact ⟨nofun, nofun, rfl⟩
  | _ => cases h

/-! ## What a call of `lx_token` returns -/

theorem lxToken_word {errno : Int} (h : isWordTok (lxScan stream).type = true) :
    lxToken beyond stream errno =
      ⟨some ⟨(lxScan stream).type,
        tokenText data beyond (lxScan stream).start (lxScan stream).stop, 0⟩,
        (lxScan stream).stream, errno⟩ := by
  obtain ⟨heof, herr, hredir⟩ := isWordTok_ne h
  simp only [lxToken, heof, herr, hredir, if_false]
  rfl

theorem lxToken_eof {errno : Int} (h : (lxScan stream).type = .eof) :
    lxToken beyond stream errno = ⟨some eofToken, (lxScan stream).stream, errno⟩ := by
  rw [lxToken, h]
  rfl

theorem lxToken_type {errno : Int} {tok : Token} (h : (lxToken beyond stream errno).tok = some tok) :
    tok.type = (lxScan stream).type := by
  simp only [lxToken] at h
  split at h
  · cases h
    rfl
  split at h
  · cases h
  split at h
  · split at h
    · cases h
    · cases h
      rfl
  · cases h
    rfl

theorem lxToken_none {errno : Int} (h : (lxToken beyond stream errno).tok = none) :
    (lxToken beyond stream errno).errno ≠ 0 := by
  simp only [lxToken] at h ⊢
  split at h
  · cases h
  rename_i heof
  rw [if_neg heof]
  split at h
  · rename_i herr
    rw [if_pos herr]
    exact show EINVAL ≠ 0 by decide
  rename_i herr
  rw [if_neg herr]
  split at h
  · rename_i hredir
    rw [if_pos hredir]
    split at h
    · rename_i hrange
      rw [if_pos hrange]
      exact show ERANGE ≠ 0 by decide
    · cases h
  · cases h

/-! ## The loop of `lx_tokenize` -/

/-- The loop from a state on. -/
def tokenizeFrom (beyond : Nat → UInt8) (s : TokenizeState data) : Int × TokenList :=
  Loop.exec (tokenizeBody beyond) _ (tokenizeBody_decreasing beyond) s

/-- The tokens that have been read stay in front. -/
theorem tokenizeFrom_prefix (beyond : Nat → UInt8) (s : TokenizeState data) :
    s.dst.tokens <+: (tokenizeFrom beyond s).2.tokens := by
  obtain ⟨t, ht, hexit⟩ := Loop.exec_invariant
    (fun t : TokenizeState data => s.dst.tokens <+: t.dst.tokens)
    (tokenizeBody_decreasing beyond) (s := s)
    (fun t t' ht hb => by
      simp only [tokenizeBody] at hb
      split at hb
      · cases hb
      · split at hb
        · cases hb
        · cases hb
          exact ht.trans (List.prefix_append _ _)) (List.prefix_refl _)
  change tokenizeBody beyond t = .inr (tokenizeFrom beyond s) at hexit
  generalize tokenizeFrom beyond s = r at hexit ⊢
  simp only [tokenizeBody] at hexit
  split at hexit
  · cases hexit
    exact ht
  · split at hexit
    · cases hexit
      exact ht.trans (List.prefix_append _ _)
    · cases hexit

theorem tokenizeFrom_none {dst : TokenList} {errno : Int}
    (h : (lxToken beyond stream errno).tok = none) :
    tokenizeFrom beyond ⟨dst, stream, errno⟩ = ((lxToken beyond stream errno).errno, dst) := by
  have hround : tokenizeBody beyond ⟨dst, stream, errno⟩ =
      .inr ((lxToken beyond stream errno).errno, dst) := by
    simp only [tokenizeBody, h]
  rw [tokenizeFrom, Loop.exec_of_inr _ hround]

theorem tokenizeFrom_eof {dst : TokenList} {errno : Int} {tok : Token}
    (h : (lxToken beyond stream errno).tok = some tok) (heof : tok.type = .eof) :
    tokenizeFrom beyond ⟨dst, stream, errno⟩ =
      ((lxToken beyond stream errno).errno, tokenlistAppendTok dst [tok]) := by
  have hround : tokenizeBody beyond ⟨dst, stream, errno⟩ =
      .inr ((lxToken beyond stream errno).errno, tokenlistAppendTok dst [tok]) := by
    simp only [tokenizeBody, h, heof, if_true]
  rw [tokenizeFrom, Loop.exec_of_inr _ hround]

theorem tokenizeFrom_next {dst : TokenList} {errno : Int} {tok : Token}
    (h : (lxToken beyond stream errno).tok = some tok) (hne : tok.type ≠ .eof) :
    tokenizeFrom beyond ⟨dst, stream, errno⟩ = tokenizeFrom beyond
      ⟨tokenlistAppendTok dst [tok], (lxToken beyond stream errno).stream,
        (lxToken beyond stream errno).errno⟩ := by
  have hround : tokenizeBody beyond ⟨dst, stream, errno⟩ =
      .inl ⟨tokenlistAppendTok dst [tok], (lxToken beyond stream errno).stream,
        (lxToken beyond stream errno).errno⟩ := by
    simp only [tokenizeBody, h, hne, if_false]
  rw [tokenizeFrom, Loop.exec_of_inl _ hround, tokenizeFrom]

/-- A successful run from a state on has read a token, which is next in the list,
and has gone on behind it unless it was the last. -/
theorem tokenizeFrom_zero {dst list : TokenList} {errno : Int}
    (h : tokenizeFrom beyond ⟨dst, stream, errno⟩ = (0, list)) :
    ∃ tok, (lxToken beyond stream errno).tok = some tok ∧ dst.tokens ++ [tok] <+: list.tokens ∧
      (tok.type ≠ .eof → tokenizeFrom beyond ⟨tokenlistAppendTok dst [tok],
        (lxToken beyond stream errno).stream, (lxToken beyond stream errno).errno⟩ =
          (0, list)) := by
  cases htok : (lxToken beyond stream errno).tok with
  | none =>
    rw [tokenizeFrom_none htok] at h
    exact absurd (congrArg Prod.fst h) (lxToken_none htok)
  | some tok =>
    by_cases heof : tok.type = .eof
    · rw [tokenizeFrom_eof htok heof] at h
      obtain rfl := congrArg Prod.snd h
      exact ⟨tok, rfl, List.prefix_refl _, fun hne => absurd heof hne⟩
    · rw [tokenizeFrom_next htok heof] at h
      refine ⟨tok, rfl, ?_, fun _ => h⟩
      have hprefix := tokenizeFrom_prefix beyond ⟨tokenlistAppendTok dst [tok],
        (lxToken beyond stream errno).stream, (lxToken beyond stream errno).errno⟩
      rw [h] at hprefix
      exact hprefix

theorem lexesAs_iff {text : Str} (hstart : (lxScan (csNew data)).type ≠ .eof) :
    LexesAs beyond data text ↔ isWordTok (lxScan (csNew data)).type = true ∧
      (lxScan (lxScan (csNew data)).stream).type = .eof ∧
      tokenText data beyond (lxScan (csNew data)).start (lxScan (csNew data)).stop = text := by
  constructor
  · intro hcond
    obtain ⟨list, tok, hrun, htokens, hword, htext⟩ := hcond
    -- the first token is the one in the list
    obtain ⟨first, hfirst, hprefix, hnext⟩ := tokenizeFrom_zero hrun
    rw [htokens] at hprefix
    obtain rfl : first = tok := (List.cons_prefix_cons.mp hprefix).1
    have htype := lxToken_type hfirst
    have hrun' := hnext (by rw [htype]; exact hstart)
    rw [htype] at hword
    rw [lxToken_word hword] at hfirst hrun'
    obtain rfl := Option.some.inj hfirst
    refine ⟨hword, ?_, htext⟩
    -- and the second one the end of the input
    obtain ⟨second, hsecond, hprefix', -⟩ := tokenizeFrom_zero hrun'
    rw [htokens] at hprefix'
    obtain ⟨-, htail⟩ := List.cons_prefix_cons.mp hprefix'
    obtain rfl : second = eofToken := (List.cons_prefix_cons.mp htail).1
    exact (lxToken_type hsecond).symm
  · intro hcond
    obtain ⟨hword, heof, htext⟩ := hcond
    have hfirst : tokenizeBody beyond ⟨tokenlistNewEmpty, csNew data, 0⟩ = .inl
        ⟨tokenlistAppendTok tokenlistNewEmpty [⟨(lxScan (csNew data)).type, text, 0⟩],
          (lxScan (csNew data)).stream, 0⟩ := by
      simp only [tokenizeBody, lxToken_word hword, htext, hstart, if_false]
    have hsecond : tokenizeBody beyond
        ⟨tokenlistAppendTok tokenlistNewEmpty [⟨(lxScan (csNew data)).type, text, 0⟩],
          (lxScan (csNew data)).stream, 0⟩ = .inr (0, tokenlistAppendTok (tokenlistAppendTok
            tokenlistNewEmpty [⟨(lxScan (csNew data)).type, text, 0⟩]) [eofToken]) := by
      simp only [tokenizeBody, lxToken_eof heof]
      rfl
    have hrun := (Loop.exec_of_inl (tokenizeBody_decreasing beyond) hfirst).trans
      (Loop.exec_of_inr (tokenizeBody_decreasing beyond) hsecond)
    exact ⟨_, ⟨(lxScan (csNew data)).type, text, 0⟩, hrun, rfl, hword, rfl⟩

/-- **A line is one word when the walk over it ends in a word and leaves only blanks.**
The text of the word is the line up to where `*end` is then. -/
theorem lexesAs_iff_walk {c : UInt8} {line text : Str} (hspace : isspace (toInt c) = false)
    (hbegins : Begins (c :: line)) (hline : ∀ d ∈ c :: line, d ≠ 255) {w : Walk}
    (hw : walk .bare .word 0 (c :: line) = w) :
    LexesAs beyond (c :: line) text ↔ isWordTok w.type = true ∧ OnlyBlanks w.rest ∧
      ∃ stop, stop + w.rest.length = (c :: line).length + w.ahead ∧
        tokenText (c :: line) beyond 0 stop = text := by
  have hmatches := lxScan_walk hspace hbegins hline
  rw [hw] at hmatches
  have hstart : (lxScan (csNew (c :: line))).type ≠ .eof := by
    rw [ne_eq, lxScan_eof_iff (by rwa [rest_csNew]), rest_csNew]
    intro h
    rw [h.1 c (by simp)] at hspace
    cases hspace
  rw [lexesAs_iff hstart, hmatches.type]
  refine and_congr_right fun hword => ?_
  obtain ⟨hfrom, hrest, hstop⟩ := hmatches.word (isWordTok_ne hword).2.1
  have hlen := pos_add_length_rest (lxScan (csNew (c :: line))).stream
  have hsub : ∀ d ∈ (lxScan (csNew (c :: line))).stream.rest, d ≠ 255 :=
    fun d hd => hline d (List.mem_of_mem_drop hd)
  rw [lxScan_eof_iff hsub, hfrom, hrest] at *
  refine and_congr_right fun _ => ⟨fun h => ⟨_, by omega, h⟩, ?_⟩
  intro hcond
  obtain ⟨stop, hstop', htext⟩ := hcond
  obtain rfl : stop = (lxScan (csNew (c :: line))).stop := by omega
  exact htext

/-! ## Where a walk ends -/

/-- In a word, and all that is left is behind `*end`. -/
def Whole (w : Walk) : Prop :=
  isWordTok w.type = true ∧ OnlyBlanks w.rest ∧ w.rest.length ≤ w.ahead

/-- In no word, or with more than blanks left. -/
def NotWord (w : Walk) : Prop := ¬ (isWordTok w.type = true ∧ OnlyBlanks w.rest)

theorem notWord_of_rest {p : TokenType} {k : Nat} {c : UInt8} {l : Str}
    (hc : isspace (toInt c) = false) (hmem : c ∈ l) : NotWord ⟨p, l, k⟩ := fun h => by
  have := h.2.1 c hmem
  rw [hc] at this
  cases this

theorem notWord_of_type {p : TokenType} (k : Nat) (hp : isWordTok p = false) (l : Str) :
    NotWord ⟨p, l, k⟩ := fun h => by
  have := h.1
  rw [hp] at this
  cases this

theorem lexesAs_of_whole {c : UInt8} {line : Str} (hspace : isspace (toInt c) = false)
    (hbegins : Begins (c :: line)) (hline : ∀ d ∈ c :: line, d ≠ 0 ∧ d ≠ 255)
    (hw : Whole (walk .bare .word 0 (c :: line))) : LexesAs beyond (c :: line) (c :: line) := by
  obtain ⟨hword, hblanks, hahead⟩ := hw
  have hiff := @lexesAs_iff_walk beyond c line (c :: line) hspace hbegins
    (fun d hd => (hline d hd).2) _ rfl
  refine hiff.mpr ⟨hword, hblanks, _, Nat.sub_add_cancel (Nat.le_trans hahead
    (Nat.le_add_left _ _)), ?_⟩
  exact tokenText_to_end (by omega) fun d hd => (hline d hd).1

theorem not_lexesAs {c : UInt8} {line text : Str} (hspace : isspace (toInt c) = false)
    (hbegins : Begins (c :: line)) (hline : ∀ d ∈ c :: line, d ≠ 255)
    (hw : NotWord (walk .bare .word 0 (c :: line))) : ¬ LexesAs beyond (c :: line) text :=
  fun h => by
    have hiff := @lexesAs_iff_walk beyond c line text hspace hbegins hline _ rfl
    exact hw ⟨(hiff.mp h).1, (hiff.mp h).2.1⟩

end Shell.Lexer
