import Shell.LooseVariables
import Shell.QuotedArguments

/-! # Braces in an unquoted word

The lexer takes braces for operators, so it splits an unquoted `${NAME}` in front
of and behind each brace. `parse_list` stops at the opening one, and what stands
behind it is lost: the command line gets no further than the dollar sign. -/
namespace Shell.BracedWord
open Shell.CTypes Shell.Tokenlist Shell.Parsetypes Shell.Lexer Shell.Parser Shell.Lib
open Shell.Expand Shell.Exec Shell.Variables Shell.LooseVariables Shell.QuotedArguments
open Shell.Lib.Traverse

variable {σ : Type} {data : Str}

/-- `${NAME}` inside a word. -/
def bracedWord (pre name post : Str) : Str :=
  pre ++ chr '$' :: chr '\x7b' :: (name ++ chr '\x7d' :: post)

/-- The line `cmd pre${NAME}post`. -/
def bracedLine (pre name post : Str) : Str := str "cmd" ++ chr ' ' :: bracedWord pre name post

/-! ## Bytes of names -/

theorem isalnum_range {c : UInt8} (h : isalnum c = true) :
    (48 ≤ c.toNat ∧ c.toNat ≤ 57) ∨ (65 ≤ c.toNat ∧ c.toNat ≤ 90) ∨
      (97 ≤ c.toNat ∧ c.toNat ≤ 122) := by
  simp only [isalnum, isalpha, Bool.or_eq_true, Bool.and_eq_true, decide_eq_true_eq,
    UInt8.le_iff_toNat_le] at h
  have ha : (chr 'a').toNat = 97 := rfl
  have hz : (chr 'z').toNat = 122 := rfl
  have hA : (chr 'A').toNat = 65 := rfl
  have hZ : (chr 'Z').toNat = 90 := rfl
  have h0 : (chr '0').toNat = 48 := rfl
  have h9 : (chr '9').toNat = 57 := rfl
  omega

/-- A letter, digit or underscore means nothing to the lexer. -/
theorem plainByte_of_name {c : UInt8} (h : isalnum c = true ∨ c = chr '_') : PlainByte c := by
  have hrange : (48 ≤ c.toNat ∧ c.toNat ≤ 57) ∨ (65 ≤ c.toNat ∧ c.toNat ≤ 90) ∨
      c.toNat = 95 ∨ (97 ≤ c.toNat ∧ c.toNat ≤ 122) := by
    rcases h with h | rfl
    · have := isalnum_range h
      omega
    · exact .inr (.inr (.inl rfl))
  have hint : toInt c = c.toNat := if_pos (by omega)
  constructor
  · simp only [isspace, hint, Bool.or_eq_false_iff, Bool.and_eq_false_iff, beq_eq_false_iff_ne,
      decide_eq_false_iff_not]
    omega
  · simp only [isoperator, hint, ch, Bool.or_eq_false_iff, beq_eq_false_iff_ne]
    simp
    omega
  · intro hmem
    simp only [List.mem_cons, List.not_mem_nil, or_false] at hmem
    rcases hmem with rfl | rfl | rfl | rfl | rfl | rfl | rfl <;> revert hrange <;> decide

theorem wordItem_name {l : Str} (hne : l ≠ []) (h : ∀ c ∈ l, isalnum c = true ∨ c = chr '_') :
    (wordItem l).Valid := by
  refine wordItem_valid hne fun c hc => ?_
  have hplain := plainByte_of_name (h c hc)
  exact ⟨hplain.space, hplain.operator, hplain.not_special⟩

theorem wordType_name {l : Str} (h : ∀ c ∈ l, isalnum c = true ∨ c = chr '_') :
    wordType l = .word := if_neg fun hmem => by
  rcases h _ hmem with h | h
  · revert h
    decide
  · revert h
    decide

theorem wordItem_token_name {l : Str} (h : ∀ c ∈ l, isalnum c = true ∨ c = chr '_') :
    (wordItem l).token = ⟨.word, l, 0⟩ := by
  rw [wordItem_token, wordType_name h]

/-! ## The word in front of the brace -/

/-- A dollar sign in front of an operator ends the word. -/
theorem scanLoop_dollar {start : Nat} {s : ScanState data} {l : Str} (hs : s.flag = .unquoted)
    (hrest : s.stream.rest = chr '$' :: l) (hstart : start ≤ s.stop)
    (hop : isoperator (peekOf l) = true) (hparen : peekOf l ≠ ch '(') :
    ∃ stream : CharStream data, stream.rest = l ∧
      scanLoop start s = ⟨s.predictedType, stream, start, s.stop + 1⟩ := by
  obtain ⟨stream, stop, _, p⟩ := s
  cases hs
  have hordinary : Ordinary (chr '$') (peekOf l) (stop = start) :=
    ⟨rfl, fun _ => hparen, by decide, by decide, by decide, fun h => absurd h (by decide),
      fun _ h => by cases h⟩
  have hgo : lxEndOfToken (peekOf l) .unquoted = false := by
    obtain ⟨hspace, heoi⟩ := starts_of_operator hop
    simp [lxEndOfToken, hspace, heoi]
  obtain ⟨c, l', rfl⟩ : ∃ c l', l = c :: l' := by
    cases l with
    | nil => cases hop
    | cons c l' => exact ⟨c, l', rfl⟩
  have hnext : (csRead stream).rest = c :: l' := by rw [rest_csRead, hrest]; rfl
  have hstop : stop + 1 ≠ start := Nat.ne_of_gt (Nat.lt_succ_of_le hstart)
  refine ⟨csRead stream, hnext, ?_⟩
  rw [scanLoop_of_next (scanBody_ordinary hrest hordinary), scanFrom_go hgo]
  exact scanLoop_of_inr (scanBody_operator hnext hop hstop)

/-- The token that ends at the brace of `pre${`, blanks in front of it included. -/
theorem lxToken_dollar (beyond : Nat → UInt8) {pre : Str} (hpre : ∀ c ∈ pre, isalnum c = true)
    {b l : Str} (hb : Blank b) {stream : CharStream data}
    (hrest : stream.rest = b ++ (pre ++ chr '$' :: chr '\x7b' :: l)) :
    ∃ stream' : CharStream data, stream'.rest = chr '\x7b' :: l ∧
      lxToken beyond stream 0 = ⟨some ⟨.word, pre ++ [chr '$'], 0⟩, stream', 0⟩ := by
  have hname : ∀ c ∈ pre, isalnum c = true ∨ c = chr '_' := fun c hc => .inl (hpre c hc)
  have hstarts : Starts (pre ++ chr '$' :: chr '\x7b' :: l) := by
    cases pre with
    | nil => exact ⟨rfl, ch_ne_eoi '$'⟩
    | cons c pre =>
      have hc := plainByte_of_name (hname c List.mem_cons_self)
      exact ⟨hc.space, fun h => hc.not_special (by simp [toInt_eq_eoi.mp h])⟩
  have hparen : peekOf (chr '\x7b' :: l) ≠ ch '(' :=
    show toInt (chr '\x7b') ≠ ch '(' by decide
  have hredir : peekOf (chr '$' :: chr '\x7b' :: l) ≠ ch '<' ∧
      peekOf (chr '$' :: chr '\x7b' :: l) ≠ ch '>' :=
    show toInt (chr '$') ≠ ch '<' ∧ toInt (chr '$') ≠ ch '>' by decide
  obtain ⟨here, hhere, hscan⟩ := lxScan_blanks hb hstarts.1 hrest
  rw [if_neg hstarts.2] at hscan
  have hloop : ∃ stream' : CharStream data, stream'.rest = chr '\x7b' :: l ∧
      scanLoop here.pos ⟨here, here.pos, .unquoted, .word⟩ =
        ⟨.word, stream', here.pos, here.pos + (pre ++ [chr '$']).length⟩ := by
    by_cases hne : pre = []
    · subst hne
      exact scanLoop_dollar (s := ⟨here, here.pos, .unquoted, .word⟩) rfl hhere (Nat.le_refl _) rfl
        hparen
    · have hvalid := wordItem_name hne hname
      have hbytes : wordBytes (pre.map .plain) = pre := wordItem_bytes pre
      have hrun := scanLoop_pieces (s := ⟨here, here.pos, .unquoted, .word⟩) (l := chr '$' ::
        chr '\x7b' :: l) hvalid.1 hvalid.2 rfl (by rw [hbytes]; exact hhere) (Nat.le_refl _)
        fun _ _ _ _ => hredir
      rw [hbytes] at hrun
      generalize hend : readAll (⟨here, here.pos, .unquoted, .word⟩ : ScanState data) pre = e at hrun
      have hflag : e.flag = .unquoted := by rw [← hend, readAll_flag]
      have hstop : e.stop = here.pos + pre.length := by rw [← hend, readAll_stop]
      have htype : e.predictedType = .word := by
        rw [← hend, readAll_type]
        exact wordType_name hname
      have herest : e.stream.rest = chr '$' :: chr '\x7b' :: l := by
        rw [← hend]
        exact readAll_rest hhere
      obtain ⟨stream', hstream', hdollar⟩ := scanLoop_dollar hflag herest
        (show here.pos ≤ e.stop by omega) rfl hparen
      refine ⟨stream', hstream', ?_⟩
      have hgo : lxEndOfToken (peekOf (chr '$' :: chr '\x7b' :: l)) e.flag = false := by
        rw [hflag]
        rfl
      rw [hrun, scanFrom_go hgo, hdollar, htype, hstop, List.length_append, Nat.add_assoc]
      rfl
  obtain ⟨stream', hstream', hloop⟩ := hloop
  have hnul : NulFree (pre ++ [chr '$']) := by
    intro c hc
    rcases List.mem_append.mp hc with hc | hc
    · exact fun h => (plainByte_of_name (hname c hc)).not_special (by simp [h])
    · rw [List.mem_singleton.mp hc]
      decide
  have htext : tokenText data beyond here.pos (here.pos + (pre ++ [chr '$']).length) =
      pre ++ [chr '$'] :=
    tokenText_eq (r := chr '\x7b' :: l)
      (show here.rest = _ by rw [hhere, List.append_assoc]; rfl) rfl hnul
  refine ⟨stream', hstream', ?_⟩
  rw [lxToken, hscan, hloop]
  simp only [htext]
  rfl

/-! ## The tokens of the line -/

/-- What the lexer makes of what stands behind the dollar sign. -/
def restItems (name post : Str) : List (Item × Str) :=
  (.op .lbrace, []) :: (wordItem name, []) :: (.op .rbrace, []) ::
    if post = [] then [] else [(wordItem post, [])]

theorem render_restItems (name post : Str) :
    render (restItems name post) = chr '\x7b' :: (name ++ chr '\x7d' :: post) := by
  have hbytes : render (restItems name post) = chr '\x7b' :: ((wordItem name).bytes ++
      chr '\x7d' :: render (if post = [] then [] else [(wordItem post, [])])) := by
    simp [restItems, render, Item.bytes, operatorText]
  rw [hbytes, wordItem_bytes]
  split
  · rename_i hpost
    rw [hpost]
    rfl
  · simp [render, wordItem_bytes]

theorem restItems_valid {name post : Str} (hname : validVariableName name = true)
    (hpost : ∀ c ∈ post, isalnum c = true) :
    (∀ i ∈ restItems name post, i.1.Valid) ∧ Spaced (restItems name post) := by
  have hbytes := validVariableName_bytes hname
  have hword := wordItem_name hbytes.1 hbytes.2
  have hnil : Blank [] := fun _ h => by cases h
  by_cases hne : post = []
  · simp only [restItems, hne, if_true]
    refine ⟨?_, hnil, fun _ => trivial, hnil, fun _ => trivial, hnil⟩
    simpa using ⟨rfl, hword, rfl⟩
  · have hlast := wordItem_name hne fun c hc => .inl (hpost c hc)
    simp only [restItems, hne, if_false]
    refine ⟨?_, hnil, fun _ => trivial, hnil, fun _ => trivial, hnil, fun _ => trivial, hnil⟩
    simpa using ⟨rfl, hword, rfl, hlast⟩

/-- The whole line: the command, what stands in front of the brace, and the rest. -/
theorem lxTokenize_bracedLine (beyond : Nat → UInt8) {pre name post : Str}
    (hname : validVariableName name = true) (hpre : ∀ c ∈ pre, isalnum c = true)
    (hpost : ∀ c ∈ post, isalnum c = true) :
    ∃ list, lxTokenize beyond tokenlistNewEmpty (csNew (bracedLine pre name post)) = (0, list) ∧
      list.tokens = ⟨.word, str "cmd", 0⟩ :: ⟨.word, pre ++ [chr '$'], 0⟩ ::
        (restItems name post).map (·.1.token) ++ [eofToken] := by
  have hnil : Blank [] := fun _ h => by cases h
  have hspace : Blank [chr ' '] := fun c hc => .inl (List.mem_singleton.mp hc)
  have hcmd : ∀ c ∈ str "cmd", isalnum c = true := List.all_eq_true.mp rfl
  have hvalid : (wordItem (str "cmd")).Valid :=
    wordItem_name (by decide) fun c hc => .inl (hcmd c hc)
  have hfollows : Follows (chr ' ' :: bracedWord pre name post) (wordItem (str "cmd")) :=
    follows_blank (b := [chr ' ']) hspace (by simp) _
  -- the command
  have hstart : (csNew (bracedLine pre name post)).rest =
      [] ++ ((wordItem (str "cmd")).bytes ++ chr ' ' :: bracedWord pre name post) := by
    rw [rest_csNew, wordItem_bytes]
    rfl
  obtain ⟨stream, hstream, hfirst⟩ := lxToken_item hvalid (blank_isspace hnil) (blank_head hnil)
    (reads_item hvalid hfollows) hstart beyond
  rw [wordItem_token_name fun c hc => .inl (hcmd c hc)] at hfirst
  -- the word up to the brace
  obtain ⟨stream', hstream', hsecond⟩ := lxToken_dollar beyond hpre hspace hstream
  obtain ⟨hitems, hspaced⟩ := restItems_valid hname hpost
  rw [← render_restItems] at hstream'
  obtain ⟨list, hrun, hlist⟩ := tokenize_items beyond _ hitems hspaced hnil
    ⟨tokenlistAppendTok (tokenlistAppendTok tokenlistNewEmpty [⟨.word, str "cmd", 0⟩])
      [⟨.word, pre ++ [chr '$'], 0⟩], stream', 0⟩ rfl hstream'
  have hround : tokenizeBody beyond ⟨tokenlistNewEmpty, csNew (bracedLine pre name post), 0⟩ =
      .inl ⟨tokenlistAppendTok tokenlistNewEmpty [⟨.word, str "cmd", 0⟩], stream, 0⟩ := by
    rw [tokenizeBody, hfirst]
    rfl
  have hround' : tokenizeBody beyond
      ⟨tokenlistAppendTok tokenlistNewEmpty [⟨.word, str "cmd", 0⟩], stream, 0⟩ =
      .inl ⟨tokenlistAppendTok (tokenlistAppendTok tokenlistNewEmpty [⟨.word, str "cmd", 0⟩])
        [⟨.word, pre ++ [chr '$'], 0⟩], stream', 0⟩ := by
    rw [tokenizeBody, hsecond]
    rfl
  refine ⟨list, ?_, hlist⟩
  rw [lxTokenize, Loop.exec_of_inl _ hround, Loop.exec_of_inl _ hround']
  exact hrun

/-- No token has both the dollar sign and the brace in its text. -/
theorem bracedLine_split {pre name post : Str} (hname : validVariableName name = true)
    (hpre : ∀ c ∈ pre, isalnum c = true) (hpost : ∀ c ∈ post, isalnum c = true) :
    ∀ tok ∈ ⟨.word, str "cmd", 0⟩ :: ⟨.word, pre ++ [chr '$'], 0⟩ ::
        (restItems name post).map (·.1.token) ++ [eofToken],
      chr '$' ∉ tok.value ∨ chr '\x7b' ∉ tok.value := by
  have hletters : ∀ {l : Str} {c : UInt8}, (∀ d ∈ l, isalnum d = true) → isalnum c = false →
      c ∉ l := fun hl hc hmem => by
    rw [hl _ hmem] at hc
    cases hc
  have hdollar : chr '$' ∉ name := not_mem_of_validVariableName hname (by decide) (by decide)
  have hnameToken := wordItem_token_name (validVariableName_bytes hname).2
  have hpostToken := wordItem_token_name (l := post) fun c hc => .inl (hpost c hc)
  intro tok htok
  simp only [List.cons_append, List.mem_cons, List.mem_append, List.mem_map, List.not_mem_nil,
    or_false] at htok
  rcases htok with rfl | rfl | ⟨i, hi, rfl⟩ | rfl
  · exact .inl (by decide)
  · refine .inr fun hmem => ?_
    rcases List.mem_append.mp hmem with hmem | hmem
    · exact hletters hpre (by decide) hmem
    · exact absurd (List.mem_singleton.mp hmem) (by decide)
  · refine .inl ?_
    simp only [restItems, List.mem_cons] at hi
    rcases hi with rfl | rfl | rfl | hi
    · exact show chr '$' ∉ [chr '\x7b'] by decide
    · rw [hnameToken]
      exact hdollar
    · exact show chr '$' ∉ [chr '\x7d'] by decide
    · split at hi
      · cases hi
      · rw [List.mem_singleton.mp hi, hpostToken]
        exact hletters hpost (by decide)
  · exact .inl (by decide)

theorem lexAndParse_bracedLine (beyond : Nat → UInt8) {pre name post : Str}
    (hname : validVariableName name = true) (hpre : ∀ c ∈ pre, isalnum c = true)
    (hpost : ∀ c ∈ post, isalnum c = true) :
    lexAndParse beyond (bracedLine pre name post) = .ok (some (singleCommand
      { argv := [str "cmd", pre ++ [chr '$']], assignmentList := [], redirs := [] })) := by
  obtain ⟨list, hlex, hlist⟩ := lxTokenize_bracedLine beyond hname hpre hpost
  have hpos : 0 < list.tokens.length := by rw [hlist]; exact Nat.succ_pos _
  let words : List Token := [⟨.word, str "cmd", 0⟩, ⟨.word, pre ++ [chr '$'], 0⟩]
  let more := (restItems name post).tail.map (·.1.token) ++ [eofToken]
  have hrest : TokenStream.rest ⟨list.tokens, 0, hpos⟩ =
      words ++ ⟨.lbrace, [chr '\x7b'], 0⟩ :: more := hlist
  have hwords : ∀ t ∈ words, isWordTok t.type = true := by
    intro t ht
    rcases List.mem_cons.mp ht with rfl | ht
    · rfl
    · rw [List.mem_singleton.mp ht]
      rfl
  have hnot := fun t ht => isWordTok_not (hwords t ht)
  have hlen : words.length < list.tokens.length := by
    rw [hlist]
    simp [words, restItems]
  obtain ⟨ts, hparse, -⟩ := parseList_spec (fun t ht => (hnot t ht).2.2.2.2)
    (targeted_words fun t ht => (hnot t ht).1) (t := ⟨.lbrace, [chr '\x7b'], 0⟩) rfl
    (fun h => absurd h (by simp [more])) hrest hlen
  have hlist' : refList words .lbrace = singleCommand
      { argv := words.map Token.value, assignmentList := [], redirs := [] } :=
    refList_words rfl fun t ht => hwords t (List.mem_cons_of_mem _ ht)
  simp only [lexAndParse, hlex, tsNew, dif_pos hpos, ne_eq, not_true_eq_false, if_false]
  rw [hparse, hlist']
  rfl

/-! ## The expansion -/

/-- A dollar sign at the end of the word stands for nothing. -/
theorem expandWord_dollar (env : Env σ) (s : σ) {pre : Str} (hpre : ∀ c ∈ pre, isalnum c = true) :
    expandWord exact env (pre ++ [chr '$']) s = some (pre, s) := by
  have hplain : ∀ c ∈ pre, Spells exact env (pre ++ [chr '$']).length .unquoted s [c] c := by
    intro c hc
    refine spells_plain fun hmem => ?_
    have hc' := hpre c hc
    simp only [List.mem_cons, List.not_mem_nil, or_false] at hmem
    rcases hmem with rfl | rfl | rfl | rfl | rfl <;> revert hc' <;> decide
  have htext := expandFrom_spelled pre hplain [chr '$'] []
  rw [List.flatMap_singleton', exact_foldlM, List.nil_append, Option.bind_some] at htext
  have hend : expandBody exact env (pre ++ [chr '$']).length ⟨[chr '$'], .unquoted, pre, s⟩ =
      .inl ⟨[], .unquoted, pre, s⟩ := rfl
  rw [expandFrom_of_inl hend, expandFrom_nil] at htext
  exact htext

theorem expandList_dollar (env : Env σ) (s : σ) {pre : Str} (hpre : ∀ c ∈ pre, isalnum c = true) :
    expandList exact env (singleCommand
        { argv := [str "cmd", pre ++ [chr '$']], assignmentList := [], redirs := [] }) s =
      some (singleCommand { argv := [str "cmd", pre], assignmentList := [], redirs := [] }, s) := by
  have hcmd : expandWord exact env (str "cmd") s = some (str "cmd", s) := by
    rw [expandWord_plain (List.all_iff_forall_prop.mp rfl), exact_copy]
    rfl
  refine expandList_single ?_
  simp only [mapState, hcmd, expandWord_dollar env s hpre, Option.bind_some]
  rfl

/-- **An unquoted `${NAME}` is lost to the parser.** The command gets the value and what
stands behind it only where both are empty, and no token of the line holds the word. -/
theorem expandList_bracedLine_iff {env : Env σ} {s : σ} {pre name post v : Str}
    (hname : validVariableName name = true) (_ : env.varLookup s name = some v)
    (hpre : ∀ c ∈ pre, isalnum c = true) (hpost : ∀ c ∈ post, isalnum c = true)
    (beyond : Nat → UInt8) :
    ((∃ list s', lexAndParse beyond (bracedLine pre name post) = .ok (some list) ∧
        expandList exact env list s = some (singleCommand
          { argv := [str "cmd", pre ++ v ++ post], assignmentList := [], redirs := [] }, s')) ↔
      v = [] ∧ post = []) ∧
    ∃ list, lxTokenize beyond tokenlistNewEmpty (csNew (bracedLine pre name post)) = (0, list) ∧
      ∀ tok ∈ list.tokens, tok.value ≠ bracedWord pre name post := by
  have hexpand := expandList_dollar env s hpre
  constructor
  · rw [lexAndParse_bracedLine beyond hname hpre hpost]
    constructor
    · intro hcond
      obtain ⟨list, s', hlist, hrun⟩ := hcond
      obtain rfl := Option.some.inj (Except.ok.inj hlist)
      rw [hexpand] at hrun
      have hargv := congrArg (fun r => r.map fun r => r.1) hrun
      simpa [singleCommand] using hargv
    · intro hcond
      obtain ⟨rfl, rfl⟩ := hcond
      refine ⟨_, s, rfl, ?_⟩
      rw [hexpand, List.append_nil, List.append_nil]
  · obtain ⟨list, hlex, hlist⟩ := lxTokenize_bracedLine beyond hname hpre hpost
    refine ⟨list, hlex, fun tok htok heq => ?_⟩
    rw [hlist] at htok
    have hmem : chr '$' ∈ tok.value ∧ chr '\x7b' ∈ tok.value := by
      rw [heq]
      simp [bracedWord]
    rcases bracedLine_split hname hpre hpost tok htok with h | h
    · exact h hmem.1
    · exact h hmem.2

/-- `cmd a${X}` with `X` set to nothing: the argument is right. -/
theorem expandList_bracedLine_empty :
    ∃ list s', lexAndParse (fun _ => 0) (str "cmd a$\x7bX\x7d") = .ok (some list) ∧
      expandList exact (tableEnv fun _ => some []) list () = some (singleCommand
        { argv := [str "cmd", str "a"], assignmentList := [], redirs := [] }, s') :=
  have hv : (tableEnv fun _ => some []).varLookup () (str "X") = some [] := rfl
  have hpre : ∀ c ∈ str "a", isalnum c = true := List.all_eq_true.mp rfl
  have hpost : ∀ c ∈ ([] : Str), isalnum c = true := fun _ h => nomatch h
  (expandList_bracedLine_iff rfl hv hpre hpost fun _ => 0).1.mpr ⟨rfl, rfl⟩

/-- `cmd a${X}b` with `X` set to `c` runs `cmd` with the argument `a`. -/
theorem expandList_bracedLine_lost :
    let env := tableEnv fun name => if name = str "X" then some (str "c") else none
    ∀ beyond, ∃ list, lexAndParse beyond (str "cmd a$\x7bX\x7db") = .ok (some list) ∧
      expandList exact env list () = some (singleCommand
        { argv := [str "cmd", str "a"], assignmentList := [], redirs := [] }, ()) := by
  intro env beyond
  have hpre : ∀ c ∈ str "a", isalnum c = true := List.all_eq_true.mp rfl
  have hpost : ∀ c ∈ str "b", isalnum c = true := List.all_eq_true.mp rfl
  have hparse := lexAndParse_bracedLine beyond (show validVariableName (str "X") = true from rfl)
    hpre hpost
  exact ⟨_, hparse, expandList_dollar env () hpre⟩

end Shell.BracedWord
