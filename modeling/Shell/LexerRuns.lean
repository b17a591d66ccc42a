import Shell.LexerWord

/-! # Runs of lx_tokenize

A run that returns 0 as a list of `lx_token` calls, and what holds of every token
that such a run makes. -/
namespace Shell.Lexer
open Shell.CTypes Shell.Tokenlist Shell.Lib

variable {data : Str} {beyond : Nat → UInt8} {stream : CharStream data} {start : Nat}

/-! ## Calls of lx_token -/

/-- The calls of `lx_token` from a stream on, to the end of the input. -/
inductive Tokenized (beyond : Nat → UInt8) : CharStream data → Int → List Token → Prop
  | eof {stream : CharStream data} {errno : Int} {tok : Token} :
    (lxToken beyond stream errno).tok = some tok → tok.type = .eof →
    (lxToken beyond stream errno).errno = 0 → Tokenized beyond stream errno [tok]
  | cons {stream : CharStream data} {errno : Int} {tok : Token} {toks : List Token} :
    (lxToken beyond stream errno).tok = some tok → tok.type ≠ .eof →
    Tokenized beyond (lxToken beyond stream errno).stream (lxToken beyond stream errno).errno toks →
    Tokenized beyond stream errno (tok :: toks)

theorem tokenized_of_tokenizeFrom {dst list : TokenList} {errno : Int}
    (h : tokenizeFrom beyond ⟨dst, stream, errno⟩ = (0, list)) :
    ∃ toks, Tokenized beyond stream errno toks ∧ list.tokens = dst.tokens ++ toks := by
  induction hn : data.length - stream.pos using Nat.strong_induction_on
    generalizing dst stream errno with
  | _ n ih =>
    obtain ⟨tok, htok, -, hmore⟩ := tokenizeFrom_zero h
    by_cases heof : tok.type = .eof
    · rw [tokenizeFrom_eof htok heof] at h
      obtain ⟨herrno, rfl⟩ := Prod.mk.inj h
      exact ⟨[tok], .eof htok heof herrno, rfl⟩
    · have hlt := lxToken_pos htok heof
      have := (lxToken beyond stream errno).stream.inBounds
      obtain ⟨toks, htoks, hlist⟩ := ih _ (by omega) (hmore heof) rfl
      refine ⟨tok :: toks, .cons htok heof htoks, ?_⟩
      rw [hlist, tokens_appendTok, List.append_assoc, List.singleton_append]

theorem lxTokenize_tokenized {list : TokenList}
    (h : lxTokenize beyond tokenlistNewEmpty (csNew data) = (0, list)) :
    Tokenized beyond (csNew data) 0 list.tokens := by
  obtain ⟨toks, htoks, hlist⟩ := tokenized_of_tokenizeFrom h
  rwa [hlist]

/-! ## Where a token lies -/

theorem pos_csRead_le (stream : CharStream data) : (csRead stream).pos ≤ stream.pos + 1 := by
  unfold csRead
  split
  · exact Nat.le_succ _
  · exact Nat.le_refl _

/-- A round keeps `*begin` where it is, and `*end` at the cursor or ahead of it. -/
def Leads (start : Nat) : ScanState data ⊕ Scanned data → Prop
  | .inl s => s.stream.pos ≤ s.stop
  | .inr r => r.start = start ∧ r.stream.pos ≤ r.stop

theorem scanNext_leads {nextc : Int} {s : ScanState data} (h : s.stream.pos ≤ s.stop) :
    Leads start (scanNext start nextc s) := by
  unfold scanNext
  split
  · split
    · exact ⟨rfl, h⟩
    · exact ⟨rfl, h⟩
  · exact h

theorem scanRead_leads {c nextc : Int} {s : ScanState data} (h : s.stream.pos ≤ s.stop) :
    Leads start (scanRead start c nextc s) :=
  scanNext_leads (Nat.le_trans (pos_csRead_le s.stream) (Nat.succ_le_succ h))

theorem scanQuoted_leads {quote : Char} {s : ScanState data} (h : s.stream.pos ≤ s.stop) :
    Leads start (scanQuoted start quote s) := by
  simp only [scanQuoted]
  split
  · exact scanRead_leads h
  · split
    · exact ⟨rfl, h⟩
    · exact scanRead_leads h

theorem skipSub_leads {stream' : CharStream data} {stop stop' : Nat} (h : stream.pos ≤ stop)
    (hskip : skipSub stream stop = some (stream', stop')) : stream'.pos ≤ stop' := by
  obtain ⟨t, ht, hexit⟩ := Loop.exec_invariant (fun s : SubState data => s.stream.pos ≤ s.stop)
    subBody_decreasing (s := ⟨stream, stop, 1⟩)
    (fun s s' hs hb => by
      obtain ⟨-, hstream, hstop⟩ := subBody_inl hb
      rw [hstream, hstop]
      exact Nat.le_trans (pos_csRead_le _) (Nat.succ_le_succ hs)) h
  rw [show Loop.exec subBody _ subBody_decreasing ⟨stream, stop, 1⟩ = some (stream', stop') from hskip]
    at hexit
  simp only [subBody] at hexit
  split at hexit
  · cases hexit
    exact ht
  · repeat' split at hexit
    all_goals cases hexit

theorem scanSub_leads {s : ScanState data} (h : s.stream.pos ≤ s.stop) :
    Leads start (scanSub start s) := by
  have hone := Nat.le_trans (pos_csRead_le s.stream) (Nat.succ_le_succ h)
  have htwo := Nat.le_trans (pos_csRead_le (csRead s.stream)) (Nat.succ_le_succ hone)
  simp only [scanSub]
  generalize hread : (if csPeek s.stream = ch '$' then (csRead (csRead s.stream), s.stop + 1 + 1)
    else (csRead s.stream, s.stop + 1)) = read
  have hle : read.1.pos ≤ read.2 := by
    rw [← hread]
    split
    · exact htwo
    · exact hone
  split
  · exact ⟨rfl, hle⟩
  · exact scanNext_leads (skipSub_leads hle ‹_›)

theorem lxScanOperator_leads {stop : Nat} (c : Int) (h : stream.pos ≤ stop) :
    (lxScanOperator stream c start stop).start = start ∧
      (lxScanOperator stream c start stop).stream.pos ≤
        (lxScanOperator stream c start stop).stop := by
  have hone := Nat.le_trans (pos_csRead_le stream) (Nat.succ_le_succ h)
  have htwo := Nat.le_trans (pos_csRead_le (csRead stream)) (Nat.succ_le_succ hone)
  cases operatorReads c with
  | one type _ scan =>
    rw [scan]
    exact ⟨rfl, hone⟩
  | two double single _ _ _ scan =>
    rw [scan]
    split
    · exact ⟨rfl, htwo⟩
    · exact ⟨rfl, hone⟩

theorem scanBody_leads (start : Nat) {s : ScanState data} (h : s.stream.pos ≤ s.stop) :
    Leads start (scanBody start s) := by
  have hone := Nat.le_trans (pos_csRead_le s.stream) (Nat.succ_le_succ h)
  unfold scanBody
  split
  · exact scanQuoted_leads h
  · exact scanQuoted_leads h
  have hround := scanUnquoted_round start s
  generalize scanUnquoted start s = r at hround
  cases hround with
  | operator => exact lxScanOperator_leads _ h
  | ends => exact ⟨rfl, h⟩
  | read => exact scanRead_leads h
  | sub => exact scanSub_leads h
  | newline => exact ⟨rfl, hone⟩
  | quote => exact scanNext_leads hone
  | blank => exact scanNext_leads (Nat.le_succ_of_le hone)
  | redir => exact lxScanOperator_leads _ hone

theorem scanLoop_leads (start : Nat) {s : ScanState data} (h : s.stream.pos ≤ s.stop) :
    (scanLoop start s).start = start ∧ (scanLoop start s).stream.pos ≤ (scanLoop start s).stop := by
  obtain ⟨t, ht, hexit⟩ := Loop.exec_invariant (fun s : ScanState data => s.stream.pos ≤ s.stop)
    (scanBody_decreasing start) (s := s)
    (fun s s' hs hb => by
      have hleads := scanBody_leads start hs
      rwa [hb] at hleads) h
  have hleads := scanBody_leads start ht
  rw [hexit] at hleads
  exact hleads

/-- The scan of a token starts inside the data, passes its start, and does not leave
`*end` behind. -/
theorem lxScan_span (stream : CharStream data) (heof : (lxScan stream).type ≠ .eof)
    (herr : (lxScan stream).type ≠ .err) :
    (lxScan stream).start < (lxScan stream).stream.pos ∧
      (lxScan stream).stream.pos ≤ (lxScan stream).stop := by
  rcases lxScan_cases stream with ⟨l, hrest, hscan⟩ | ⟨b, here, -, -, -, -, hscan⟩
  · obtain ⟨-, hpos⟩ := csRead_of_rest hrest
    rw [hscan]
    simp only [hpos]
    exact ⟨Nat.lt_succ_self _, Nat.le_refl _⟩
  · rw [hscan] at heof herr ⊢
    by_cases hpeek : peekOf here.rest = eoi
    · rw [if_pos hpeek] at heof
      exact absurd rfl heof
    · rw [if_neg hpeek] at herr ⊢
      obtain ⟨hstart, hstop⟩ := scanLoop_leads here.pos
        (s := ⟨here, here.pos, .unquoted, .word⟩) (Nat.le_refl _)
      rw [hstart]
      exact ⟨scanLoop_pos (by rwa [csPeek_eq]) herr, hstop⟩

/-! ## The tokens of a run -/

theorem tokenText_ne_nil {stop : Nat} (hdata : NulFree data) (hstart : start < data.length)
    (hstop : start < stop) : tokenText data beyond start stop ≠ [] := by
  obtain ⟨n, hn⟩ : ∃ n, stop - start = n + 1 := ⟨stop - start - 1, by omega⟩
  have hcell : cellAt data beyond start = data[start] := by
    rw [cellAt, List.getElem?_append_left hstart, List.getElem?_eq_getElem hstart, Option.getD_some]
  have hne : (data[start] != 0) = true := by
    simpa using hdata _ (List.getElem_mem hstart)
  rw [tokenText, hn, List.range'_succ, List.map_cons, hcell, List.takeWhile_cons, if_pos hne]
  exact List.cons_ne_nil _ _

/-- A token that is not the end of the input has a text. -/
theorem lxToken_value_ne_nil {errno : Int} {tok : Token} (hdata : NulFree data)
    (h : (lxToken beyond stream errno).tok = some tok) (heof : tok.type ≠ .eof) :
    tok.value ≠ [] := by
  obtain ⟨hne, herr, hvalue⟩ := lxToken_value h heof
  obtain ⟨hlt, hle⟩ := lxScan_span stream hne herr
  have hbound := (lxScan stream).stream.inBounds
  rw [hvalue]
  exact tokenText_ne_nil hdata (by omega) (by omega)

theorem Tokenized.wellFormed {errno : Int} {toks : List Token} (hdata : NulFree data)
    (h : Tokenized beyond stream errno toks) :
    ∃ front last, toks = front ++ [last] ∧ last.type = .eof ∧
      ∀ tok ∈ front, tok.type ≠ .eof ∧ tok.value ≠ [] := by
  induction h with
  | eof htok heof _ => exact ⟨[], _, rfl, heof, fun tok hmem => absurd hmem List.not_mem_nil⟩
  | @cons stream errno tok toks htok heof _ ih =>
    obtain ⟨front, last, rfl, hlast, hfront⟩ := ih
    refine ⟨tok :: front, last, rfl, hlast, fun t ht => ?_⟩
    rcases List.mem_cons.mp ht with rfl | ht
    · exact ⟨heof, lxToken_value_ne_nil hdata htok heof⟩
    · exact hfront t ht

/-- **Lexing ends.** On every line: the loop of `lx_tokenize` ends; a call of `lx_token`
that returns a token reads at least one character and stays inside the line; and a
run that returns 0 leaves a list of tokens with a text and one end of input, the
last, and counts them. -/
theorem lxTokenize_ends (beyond : Nat → UInt8) {line : Str} (hline : NulFree line) :
    (∀ dst, Loop.run (tokenizeBody beyond) (fun s => line.length - s.stream.pos)
      ⟨dst, csNew line, 0⟩ = some (lxTokenize beyond dst (csNew line))) ∧
    (∀ (stream : CharStream line) errno tok, (lxToken beyond stream errno).tok = some tok →
      tok.type ≠ .eof → stream.pos + 1 ≤ (lxToken beyond stream errno).stream.pos ∧
        (lxToken beyond stream errno).stream.pos ≤ line.length) ∧
    ∀ list, lxTokenize beyond tokenlistNewEmpty (csNew line) = (0, list) →
      list.size = list.tokens.length ∧ ∃ front last, list.tokens = front ++ [last] ∧
        last.type = .eof ∧ ∀ tok ∈ front, tok.type ≠ .eof ∧ tok.value ≠ [] := by
  refine ⟨fun dst => Loop.run_eq_exec (tokenizeBody_decreasing beyond) _,
    fun stream errno tok htok heof => ⟨lxToken_pos htok heof, Lexed.stream _ |>.inBounds⟩,
    fun list h => ⟨list.size_eq, (lxTokenize_tokenized h).wellFormed hline⟩⟩

/-- Words, a quote and an operator. -/
theorem lxTokenize_ends_words :
    ∃ list, lxTokenize (fun _ => 0) tokenlistNewEmpty (csNew (str "echo 'a b' | cat")) = (0, list) ∧
      list.size = 5 ∧ list.size = list.tokens.length ∧
      ∃ front last, list.tokens = front ++ [last] ∧ last.type = .eof ∧
        ∀ tok ∈ front, tok.type ≠ .eof ∧ tok.value ≠ [] := by
  have hrun := (lxTokenize_ends (fun _ => 0) (show NulFree (str "echo 'a b' | cat") by decide)).2.2
  have hzero : (lxTokenize (fun _ => 0) tokenlistNewEmpty (csNew (str "echo 'a b' | cat"))).1 = 0 ∧
      (lxTokenize (fun _ => 0) tokenlistNewEmpty (csNew (str "echo 'a b' | cat"))).2.size = 5 := by
    decide +kernel
  exact ⟨_, Prod.ext hzero.1 rfl, hzero.2, hrun _ (Prod.ext hzero.1 rfl)⟩

end Shell.Lexer
