import Shell.LexerRuns
import Shell.ParserReference

/-! # A redirection without its word (ts_expect and parse_command)

`ts_expect` returns null, and `parse_command` reads through that pointer before any of
the loops above it could look. Every level reads its run of tokens from the left, so
the first redirection without a word is reached whatever stands around it. -/
namespace Shell.Parser
open Shell.CTypes Shell.Tokenlist Shell.Parsetypes Shell.Lib.Separated

/-- The run of tokens that `parse_list` works on. -/
def parsedPart (ts : TokenStream) : List Token := ts.rest.takeWhile fun t => isListTok t.type

/-- A redirection of the run that no word stands directly behind. -/
def MissingWord (l : List Token) : Prop :=
  ∃ before r after, l = before ++ r :: after ∧ isRedirect r.type = true ∧
    ∀ w, after.head? = some w → w.type ≠ .word

/-- The pointer that `parse_list` returns, which no return makes null. -/
def parseListPtr (fuel : Nat) (ts : TokenStream) : Except Fault (Option ShList) :=
  (parseList fuel ts).map fun r => some r.1

/-- `parse_list` returns, and returns null when a word is missing. -/
structure Reports (fuel : Nat) (ts : TokenStream) : Prop where
  returns : ∃ list, parseListPtr fuel ts = .ok list
  null : MissingWord (parsedPart ts) → parseListPtr fuel ts = .ok none

theorem Targeted.not_missing {l : List Token} (h : Targeted l) : ¬ MissingWord l := by
  intro hmissing
  obtain ⟨before, r, after, hl, hr, hnext⟩ := hmissing
  induction h generalizing before with
  | nil => simp at hl
  | @redir r' w l' hr' hw _ ih =>
    match before, hl with
    | [], hl =>
      obtain ⟨rfl, rfl⟩ := List.cons.inj hl
      exact hnext w rfl hw
    | [a], hl =>
      obtain ⟨-, hl⟩ := List.cons.inj hl
      obtain ⟨rfl, -⟩ := List.cons.inj hl
      rw [hw] at hr
      cases hr
    | a :: b :: before, hl =>
      exact ih before (List.cons.inj (List.cons.inj hl).2).2
  | @plain t l' ht _ ih =>
    match before, hl with
    | [], hl =>
      obtain ⟨rfl, -⟩ := List.cons.inj hl
      rw [ht] at hr
      cases hr
    | a :: before, hl => exact ih before (List.cons.inj hl).2

theorem targeted_of_not_missing {l : List Token} (hnone : ¬ MissingWord l) : Targeted l := by
  induction hn : l.length using Nat.strong_induction_on generalizing l with
  | _ n ih =>
    have hbehind : ∀ front back, l = front ++ back → back.length < n → Targeted back := by
      intro front back hl hlt
      refine ih _ hlt (fun hmissing => hnone ?_) rfl
      obtain ⟨before, r, after, rfl, hr, hnext⟩ := hmissing
      exact ⟨front ++ before, r, after, by rw [hl, List.append_assoc], hr, hnext⟩
    cases l with
    | nil => exact .nil
    | cons t rest =>
      rw [List.length_cons] at hn
      cases ht : isRedirect t.type with
      | false => exact .plain ht (hbehind [t] rest rfl (by omega))
      | true =>
        cases rest with
        | nil => exact absurd ⟨[], t, [], rfl, ht, fun w hw => by cases hw⟩ hnone
        | cons w rest =>
          rw [List.length_cons] at hn
          by_cases hw : w.type = .word
          · exact .redir ht hw (hbehind [t, w] rest rfl (by omega))
          · refine absurd ⟨[], t, w :: rest, rfl, ht, fun w' hw' => ?_⟩ hnone
            obtain rfl := Option.some.inj hw'
            exact hw

theorem targeted_iff (l : List Token) : Targeted l ↔ ¬ MissingWord l :=
  ⟨Targeted.not_missing, targeted_of_not_missing⟩

/-! ## One command -/

/-- `p` runs into the null pointer on `l` in front of a token that satisfies `stops`. -/
def Fails {α : Type} (p : Parse α) (l : List Token) (stops : TokenType → Prop) : Prop :=
  ∀ (ts : TokenStream) (t : Token) (more : List Token), ts.rest = l ++ t :: more → stops t.type →
    p ts = .error .nullDeref

theorem commandLoop_fails {c : List Token} (hc : ∀ t ∈ c, isCommandTok t.type = true)
    (hmissing : ¬ Targeted c) : ∀ (fuel : Nat) (acc : Command), c.length < fuel →
      Fails (commandLoop fuel acc) c fun t => isCommandTok t = false := by
  induction hn : c.length using Nat.strong_induction_on generalizing c with
  | _ n ih =>
    intro fuel acc hfuel ts u more hrest hu
    obtain ⟨fuel, rfl⟩ : ∃ n, fuel = n + 1 := ⟨fuel - 1, by omega⟩
    cases c with
    | nil => exact absurd .nil hmissing
    | cons t l =>
      rw [List.length_cons] at hn
      obtain ⟨hpeek, -, -, hrest1⟩ := rest_cons_append hrest
      have hl : ∀ t ∈ l, isCommandTok t.type = true := fun t ht => hc t (List.mem_cons_of_mem _ ht)
      cases ht : isRedirect t.type with
      | false =>
        have hbehind : ¬ Targeted l := fun h => hmissing (.plain ht h)
        have next := fun acc' =>
          ih l.length (by omega) hl hbehind rfl fuel acc' (by omega) _ u more hrest1 hu
        have htype : t.type = .word ∨ t.type = .assignmentWord := by
          have := hc t List.mem_cons_self
          simpa [isCommandTok, ht] using this
        rcases htype with hw | ha
        · simp only [commandLoop, hpeek, hw, if_true]
          exact next _
        · by_cases hacc : acc.argv = []
          · simp only [commandLoop, hpeek, ha, reduceCtorEq, if_true, if_false, hacc]
            exact next _
          · simp only [commandLoop, hpeek, ha, reduceCtorEq, if_true, if_false, hacc]
            exact next _
      | true =>
        have hword : t.type ≠ .word := fun h => by rw [h] at ht; cases ht
        have hassign : t.type ≠ .assignmentWord := fun h => by rw [h] at ht; cases ht
        cases l with
        | nil =>
          have hnext : tsPeek (tsRead ts).2 = u := TokenStream.peek_of_rest hrest1
          have hnot : u.type ≠ .word := fun h => by rw [h] at hu; cases hu
          simp [commandLoop, hpeek, hword, hassign, ht, tsExpect, tsCheck, hnext, hnot]
        | cons w l =>
          obtain ⟨hpeek1, hread1, -, hrest2⟩ := rest_cons_append hrest1
          by_cases hw : w.type = .word
          · have hbehind : ¬ Targeted l := fun h => hmissing (.redir ht hw h)
            rw [List.length_cons] at hn
            have next := ih l.length (by omega) (fun t ht => hl t (List.mem_cons_of_mem _ ht)) hbehind
              rfl fuel { acc with redirs := acc.redirs ++
                [{ fd := t.fd, mode := fromRedirTok t.type, target := w.value }] } (by omega)
              _ u more hrest2 hu
            rw [← next]
            simp [commandLoop, hpeek, hword, hassign, ht, tsExpect, tsCheck, hpeek1, hw, hread1]
          · simp [commandLoop, hpeek, hword, hassign, ht, tsExpect, tsCheck, hpeek1, hw]

/-! ## Separated lists -/

variable {α β : Type} {isSep allowed : TokenType → Bool} {stop : TokenStream → Bool}
  {item : Parse α} {ref : List Token → α} {itemFuel : Nat} {close : Bool} {t : Token}
  {more : List Token}

/-- The item parser runs into the null pointer on every piece that misses a word. -/
def FailsPieces (item : Parse α) (allowed : TokenType → Bool) (itemFuel : Nat) : Prop :=
  ∀ c, (∀ x ∈ c, allowed x.type = true) → ¬ Targeted c → c.length < itemFuel →
    Fails item c fun t => allowed t = false

theorem not_targeted_cases {c l : List Token} {s : Token} (hs : isCommandTok s.type = false)
    (h : ¬ Targeted (c ++ s :: l)) : ¬ Targeted c ∨ Targeted c ∧ ¬ Targeted l := by
  have hnot : isRedirect s.type = false := (Bool.or_eq_false_iff.mp hs).2
  by_cases hc : Targeted c
  · exact .inr ⟨hc, fun hl => h (hc.append (.plain hnot hl))⟩
  · exact .inl hc

/-- Pieces are read one by one until the first that fails. -/
theorem sepLoop_fails (op : TokenType → β) (last : β)
    (hset : LoopSetting isSep allowed stop close t more)
    (hitem : ReadsPieces item allowed ref itemFuel) (hfail : FailsPieces item allowed itemFuel)
    (l : List Token) :
    (∀ x ∈ l, allowed x.type = true ∨ isSep x.type = true) → ¬ Targeted l → l.length < itemFuel →
    ∀ (fuel : Nat) (chain : Chain α β) (ts : TokenStream) (s : Token), l.length + 1 < fuel →
      isSep s.type = true → ts.rest = (s :: l) ++ t :: more →
      sepLoop isSep op last stop item fuel chain ts = .error .nullDeref := by
  induction l using pieces_induction (p := fun t : Token => isSep t.type) with
  | single c hc =>
    intro hall hmissing hlen fuel chain ts s hfuel hs hrest
    obtain ⟨fuel, rfl⟩ : ∃ n, fuel = n + 1 := ⟨fuel - 1, by omega⟩
    obtain ⟨hpeek, -, -, hrest1⟩ := rest_cons_append hrest
    have hne : c.isEmpty = false := by
      cases c with
      | nil => exact absurd .nil hmissing
      | cons => rfl
    have hstop := (hset.stop_eq _ c hrest1 hall).trans (by rw [hne, Bool.and_false])
    have hallowed : ∀ x ∈ c, allowed x.type = true := fun x hx =>
      (hall x hx).resolve_right (by simp [hc x hx])
    have hrun := hfail c hallowed hmissing hlen _ t more hrest1 hset.end_not_allowed
    simp only [sepLoop, hpeek, hs, if_true, hstop, Bool.false_eq_true, if_false, hrun]
  | cons c s' l hc hs' ih =>
    intro hall hmissing hlen fuel chain ts s hfuel hs hrest
    have hlens : (c ++ s' :: l).length = c.length + (l.length + 1) := by simp
    obtain ⟨fuel, rfl⟩ : ∃ n, fuel = n + 1 := ⟨fuel - 1, by omega⟩
    obtain ⟨hpeek, -, -, hrest1⟩ := rest_cons_append hrest
    have hne : (close && (c ++ s' :: l).isEmpty) = false := by
      cases close <;> cases c <;> rfl
    have hstop := (hset.stop_eq _ _ hrest1 hall).trans hne
    have hallowed : ∀ x ∈ c, allowed x.type = true := fun x hx =>
      (hall x (by simp [hx])).resolve_right (by simp [hc x hx])
    have hrest1' : (tsRead ts).2.rest = c ++ s' :: (l ++ t :: more) := by
      rw [hrest1, List.append_assoc, List.cons_append]
    have hsep := hset.sep_not_allowed _ hs'
    rcases not_targeted_cases (hset.sep_not_command _ hs') hmissing with hpiece | ⟨hpiece, hl⟩
    · have hrun := hfail c hallowed hpiece (by omega) _ s' _ hrest1' hsep
      simp only [sepLoop, hpeek, hs, if_true, hstop, Bool.false_eq_true, if_false, hrun]
    · obtain ⟨ts1, hrun1, hmoved1⟩ := hitem c hallowed hpiece (by omega) _ s' _ hrest1' hsep
      have hrun := ih (fun x hx => hall x (by simp [hx])) hl (by omega) fuel
        ((chain.mark (op s.type)).push (ref c) last) ts1 s' (by omega) hs' (hmoved1.rest_eq hrest1')
      simp only [sepLoop, hpeek, hs, if_true, hstop, Bool.false_eq_true, if_false, hrun1, hrun]

theorem sepList_fails (op : TokenType → β) (last : β)
    (hset : LoopSetting isSep allowed stop close t more)
    (hitem : ReadsPieces item allowed ref itemFuel) (hfail : FailsPieces item allowed itemFuel)
    {l : List Token} (hall : ∀ x ∈ l, allowed x.type = true ∨ isSep x.type = true)
    (hmissing : ¬ Targeted l) (hlen : l.length < itemFuel) {fuel : Nat} (hfuel : l.length < fuel)
    {ts : TokenStream} (hrest : ts.rest = l ++ t :: more) :
    sepList isSep op last stop item fuel ts = .error .nullDeref := by
  induction l using pieces_induction (p := fun t : Token => isSep t.type) with
  | single c hc =>
    have hallowed : ∀ x ∈ c, allowed x.type = true := fun x hx =>
      (hall x hx).resolve_right (by simp [hc x hx])
    have hrun := hfail c hallowed hmissing hlen _ t more hrest hset.end_not_allowed
    simp only [sepList, hrun]
  | cons c s l hc hs _ =>
    have hlens : (c ++ s :: l).length = c.length + (l.length + 1) := by simp
    have hallowed : ∀ x ∈ c, allowed x.type = true := fun x hx =>
      (hall x (by simp [hx])).resolve_right (by simp [hc x hx])
    have hrest' : ts.rest = c ++ s :: (l ++ t :: more) := by
      rw [hrest, List.append_assoc, List.cons_append]
    have hsep := hset.sep_not_allowed _ hs
    rcases not_targeted_cases (hset.sep_not_command _ hs) hmissing with hpiece | ⟨hpiece, hl⟩
    · have hrun := hfail c hallowed hpiece (by omega) _ s _ hrest' hsep
      simp only [sepList, hrun]
    · obtain ⟨ts1, hrun1, hmoved1⟩ := hitem c hallowed hpiece (by omega) _ s _ hrest' hsep
      have hrun := sepLoop_fails op last hset hitem hfail l (fun x hx => hall x (by simp [hx])) hl
        (by omega) fuel (.start (ref c) last) ts1 s (by omega) hs (hmoved1.rest_eq hrest')
      simp only [sepList, hrun1, hrun]

/-! ## The three levels -/

theorem parsePipeline_fails (fuel : Nat) :
    FailsPieces (parsePipeline fuel) isPipelineTok fuel := by
  intro c hc hmissing hlen ts t more hrest ht
  have hfail : FailsPieces (parseCommand fuel) isCommandTok fuel :=
    fun _ hc' hmissing' hlen' => commandLoop_fails hc' hmissing' fuel _ hlen'
  have hrun := sepList_fails (fun _ => ()) () (pipelineSetting ht)
    (fun _ hc' hwf' hlen' => parseCommand_spec hc' hwf' hlen') hfail
    (fun x hx => Bool.or_eq_true_iff.mp (hc x hx)) hmissing hlen hlen hrest
  simp only [parsePipeline, hrun, bind, Except.bind]

theorem parseAndOr_fails (fuel : Nat) : FailsPieces (parseAndOr fuel) isAndOrTok fuel := by
  intro c hc hmissing hlen ts t more hrest ht
  have hrun := sepList_fails andOrOp AndOrOp.none (andOrSetting ht) (parsePipeline_spec fuel)
    (parsePipeline_fails fuel) (fun x hx => Bool.or_eq_true_iff.mp (hc x hx)) hmissing hlen hlen hrest
  simp only [parseAndOr, hrun, bind, Except.bind]

theorem parseList_fails {l : List Token} {t : Token} {more : List Token}
    (hall : ∀ x ∈ l, isListTok x.type = true) (hmissing : ¬ Targeted l)
    (ht : isListTok t.type = false) (hend : more = [] → t.type = .eof) {ts : TokenStream}
    (hrest : ts.rest = l ++ t :: more) {fuel : Nat} (hlen : l.length < fuel) :
    parseList fuel ts = .error .nullDeref := by
  have hrun := sepList_fails listSep ListSep.none (listSetting ht hend) (parseAndOr_spec fuel)
    (parseAndOr_fails fuel) (fun x hx => Bool.or_eq_true_iff.mp (hall x hx)) hmissing hlen hlen hrest
  simp only [parseList, hrun, bind, Except.bind]

/-- **When a missing word is reported.** On the tokens of every line that lexes,
`parse_list` returns, and null where a word is missing, exactly when none is missing.
It follows a null pointer otherwise. -/
theorem parseList_reports_iff {beyond : Nat → UInt8} {line : Str} (hline : NulFree line)
    {list : TokenList} (hlex : Lexer.lxTokenize beyond tokenlistNewEmpty (Lexer.csNew line) = (0, list))
    {fuel : Nat} (hfuel : list.tokens.length ≤ fuel) :
    ∃ ts, tsNew list = some ts ∧ (Reports fuel ts ↔ ¬ MissingWord (parsedPart ts)) ∧
      (MissingWord (parsedPart ts) → parseList fuel ts = .error .nullDeref) := by
  obtain ⟨front, eof, htokens, heof, -⟩ := (Lexer.lxTokenize_tokenized hlex).wellFormed hline
  have hpos : 0 < list.tokens.length := by rw [htokens, List.length_append]; simp
  refine ⟨⟨list.tokens, 0, hpos⟩, dif_pos hpos, ?_⟩
  generalize hts : (⟨list.tokens, 0, hpos⟩ : TokenStream) = ts
  have hlist : ts.tokens = list.tokens := by rw [← hts]
  have hlast : ts.tokens.getLast? = some eof := by rw [hlist, htokens]; simp
  obtain ⟨t, more, hrest, ht, hend⟩ := rest_split ts hlast heof
  have hall : ∀ x ∈ parsedPart ts, isListTok x.type = true := fun x hx => by
    simpa using List.mem_takeWhile_imp hx
  have hlen : (parsedPart ts).length < fuel :=
    (length_run_lt hrest).trans_le (by rw [hlist]; exact hfuel)
  have hfails : MissingWord (parsedPart ts) → parseList fuel ts = .error .nullDeref :=
    fun hmissing => parseList_fails hall (fun h => (targeted_iff _).mp h hmissing) ht hend hrest hlen
  refine ⟨⟨fun hreports hmissing => ?_, fun hnone => ⟨?_, fun hmissing => absurd hmissing hnone⟩⟩,
    hfails⟩
  · have hnull := hreports.null hmissing
    rw [parseListPtr, hfails hmissing] at hnull
    cases hnull
  · obtain ⟨ts', hrun, -⟩ := parseList_spec hall ((targeted_iff _).mpr hnone) ht hend hrest hlen
    exact ⟨_, by rw [parseListPtr, hrun]; rfl⟩

theorem rest_tsNew {list : TokenList} {ts : TokenStream} (h : tsNew list = some ts) :
    ts.rest = list.tokens := by
  unfold tsNew at h
  split at h
  · obtain rfl := Option.some.inj h
    rfl
  · cases h

/-- An assignment, an argument behind a redirection, a pipe and a second command. -/
theorem parseList_reports_word :
    ∃ list ts, Lexer.lxTokenize (fun _ => 0) tokenlistNewEmpty
        (Lexer.csNew (str "x=1 a > f 'b c' | d ; e")) = (0, list) ∧
      tsNew list = some ts ∧ Reports 10 ts := by
  obtain ⟨list, hlex, htokens⟩ : ∃ list,
      Lexer.lxTokenize (fun _ => 0) tokenlistNewEmpty
        (Lexer.csNew (str "x=1 a > f 'b c' | d ; e")) = (0, list) ∧
      list.tokens = [⟨.assignmentWord, str "x=1", 0⟩, ⟨.word, str "a", 0⟩, ⟨.redirOut, str ">", 1⟩,
        ⟨.word, str "f", 0⟩, ⟨.word, str "'b c'", 0⟩, ⟨.pipe, str "|", 0⟩, ⟨.word, str "d", 0⟩,
        ⟨.semi, str ";", 0⟩, ⟨.word, str "e", 0⟩, ⟨.eof, [], 0⟩] := by
    have hrun : (Lexer.lxTokenize (fun _ => 0) tokenlistNewEmpty
          (Lexer.csNew (str "x=1 a > f 'b c' | d ; e"))).1 = 0 ∧
        (Lexer.lxTokenize (fun _ => 0) tokenlistNewEmpty
          (Lexer.csNew (str "x=1 a > f 'b c' | d ; e"))).2.tokens =
          [⟨.assignmentWord, str "x=1", 0⟩, ⟨.word, str "a", 0⟩, ⟨.redirOut, str ">", 1⟩,
            ⟨.word, str "f", 0⟩, ⟨.word, str "'b c'", 0⟩, ⟨.pipe, str "|", 0⟩, ⟨.word, str "d", 0⟩,
            ⟨.semi, str ";", 0⟩, ⟨.word, str "e", 0⟩, ⟨.eof, [], 0⟩] := by
      decide +kernel
    exact ⟨_, Prod.ext hrun.1 rfl, hrun.2⟩
  have hlength : list.tokens.length ≤ 10 := by rw [htokens]; decide
  obtain ⟨ts, hts, hreports, -⟩ :=
    parseList_reports_iff (show NulFree (str "x=1 a > f 'b c' | d ; e") by decide) hlex hlength
  refine ⟨list, ts, hlex, hts, hreports.mpr ?_⟩
  rw [parsedPart, rest_tsNew hts, htokens]
  exact Targeted.not_missing (.plain rfl (.plain rfl (.redir rfl rfl
    (.plain rfl (.plain rfl (.plain rfl (.plain rfl (.plain rfl .nil))))))))

/-- `a >` in front of the end of the input: no null list, but a null pointer followed. -/
theorem parseList_null_target :
    ∃ list ts, Lexer.lxTokenize (fun _ => 0) tokenlistNewEmpty (Lexer.csNew (str "a >")) = (0, list) ∧
      tsNew list = some ts ∧ MissingWord (parsedPart ts) ∧ ¬ Reports 3 ts ∧
      parseList 3 ts = .error .nullDeref := by
  obtain ⟨list, hlex, htokens⟩ : ∃ list,
      Lexer.lxTokenize (fun _ => 0) tokenlistNewEmpty (Lexer.csNew (str "a >")) = (0, list) ∧
        list.tokens = [⟨.word, str "a", 0⟩, ⟨.redirOut, str ">", 1⟩, ⟨.eof, [], 0⟩] := by
    have hrun : (Lexer.lxTokenize (fun _ => 0) tokenlistNewEmpty (Lexer.csNew (str "a >"))).1 = 0 ∧
        (Lexer.lxTokenize (fun _ => 0) tokenlistNewEmpty (Lexer.csNew (str "a >"))).2.tokens =
          [⟨.word, str "a", 0⟩, ⟨.redirOut, str ">", 1⟩, ⟨.eof, [], 0⟩] := by decide +kernel
    exact ⟨_, Prod.ext hrun.1 rfl, hrun.2⟩
  obtain ⟨size, tokens, hsize⟩ := list
  obtain rfl : tokens = _ := htokens
  have hmissing : MissingWord [⟨.word, str "a", 0⟩, ⟨.redirOut, str ">", 1⟩] :=
    ⟨[_], _, [], rfl, rfl, fun w hw => by cases hw⟩
  have hnull : parseList 3 ⟨[⟨.word, str "a", 0⟩, ⟨.redirOut, str ">", 1⟩, ⟨.eof, [], 0⟩], 0, by simp⟩ =
      .error .nullDeref := rfl
  refine ⟨_, _, hlex, rfl, hmissing, ?_, hnull⟩
  intro hreports
  have hptr := hreports.null hmissing
  rw [parseListPtr, hnull] at hptr
  cases hptr

end Shell.Parser
