import Shell.Repl

/-! # How deep substitutions nest

The words of a list are texts of the tokens it was parsed from, and these are no
longer than the text that was lexed. The body of a substitution is shorter than the
word it stands in, so a text of `n` bytes nests substitutions at most `n` deep: from
there on the depth of `shellEnv` makes no difference. -/

namespace Shell.Lexer
open Shell.CTypes Shell.Tokenlist

variable {data : Str} {beyond : Nat → UInt8} {stream : CharStream data}

theorem Tokenized.length_le {errno : Int} {toks : List Token}
    (h : Tokenized beyond stream errno toks) : ∀ tok ∈ toks, tok.value.length ≤ data.length := by
  induction h with
  | @eof stream errno tok htok heof _ =>
    have hscan : (lxScan stream).type = .eof := by rw [← lxToken_type htok, heof]
    rw [lxToken_eof hscan] at htok
    intro t ht
    rw [List.mem_singleton.mp ht, ← Option.some.inj htok]
    exact Nat.zero_le _
  | @cons stream errno tok toks htok heof _ ih =>
    intro t ht
    rcases List.mem_cons.mp ht with rfl | ht
    · obtain ⟨hne, herr, hvalue⟩ := lxToken_value htok heof
      have hstart := (lxScan_span stream hne herr).1
      have hin := (lxScan stream).stream.inBounds
      rw [hvalue, tokenText_eq_takeWhile (by omega)]
      refine Nat.le_trans (List.takeWhile_sublist _).length_le ?_
      rw [List.length_take, List.length_drop]
      omega
    · exact ih t ht

end Shell.Lexer

namespace Shell.Parser
open Shell.CTypes Shell.Tokenlist Shell.Parsetypes Shell.Lexer Shell.Exec

/-! ## The words of a list -/

/-- What an expansion runs over. -/
structure EachWord (P : Str → Prop) (command : Command) : Prop where
  assignments : ∀ word ∈ command.assignmentList, P word
  targets : ∀ redirect ∈ command.redirs, P redirect.target
  argv : ∀ word ∈ command.argv, P word

/-- On a stream over these tokens, what `item` returns satisfies `P`. -/
def Yields {α : Type} (toks : List Token) (P : α → Prop) (item : Parse α) : Prop :=
  ∀ ts r, ts.tokens = toks → item ts = .ok r → r.2.tokens = toks ∧ P r.1

variable {α β : Type} {toks : List Token} {ts : TokenStream}

theorem forall_mem_snoc {P : α → Prop} {l : List α} {a : α} (hl : ∀ x ∈ l, P x) (ha : P a) :
    ∀ x ∈ l ++ [a], P x :=
  List.forall_mem_append.mpr ⟨hl, List.forall_mem_singleton.mpr ha⟩

theorem tokens_tsRead (ts : TokenStream) : (tsRead ts).2.tokens = ts.tokens := by
  unfold tsRead
  split <;> rfl

theorem tsPeek_mem (ts : TokenStream) : tsPeek ts ∈ ts.tokens := List.get_mem _ _

theorem tsExpect_some {type : TokenType} {target : Token} {ts' : TokenStream}
    (h : tsExpect ts type = (some target, ts')) : target ∈ ts.tokens ∧ ts'.tokens = ts.tokens := by
  unfold tsExpect at h
  split at h
  · cases h
  · cases h
    have hpeek : (tsRead ts).1 = tsPeek ts := by
      unfold tsRead
      split <;> rfl
    exact ⟨hpeek ▸ tsPeek_mem ts, tokens_tsRead ts⟩

theorem commandLoop_yields {P : Str → Prop} (htoks : ∀ tok ∈ toks, P tok.value) (fuel : Nat)
    {c : Command} (hc : EachWord P c) : Yields toks (EachWord P) (commandLoop fuel c) := by
  induction fuel generalizing c with
  | zero =>
    intro ts r _ h
    cases h
  | succ fuel ih =>
    intro ts r hts h
    have hread : (tsRead ts).2.tokens = toks := (tokens_tsRead ts).trans hts
    have hvalue : P (tsPeek ts).value := htoks _ (hts ▸ tsPeek_mem ts)
    have hargv : EachWord P { c with argv := c.argv ++ [(tsPeek ts).value] } :=
      ⟨hc.assignments, hc.targets, forall_mem_snoc hc.argv hvalue⟩
    have hassign : EachWord P
        { c with assignmentList := c.assignmentList ++ [(tsPeek ts).value] } :=
      ⟨forall_mem_snoc hc.assignments hvalue, hc.targets, hc.argv⟩
    have hredir : ∀ redirect, P redirect.target →
        EachWord P { c with redirs := c.redirs ++ [redirect] } := fun redirect htarget =>
      ⟨hc.assignments, forall_mem_snoc hc.targets htarget, hc.argv⟩
    simp only [commandLoop] at h
    split at h
    · exact ih hargv _ _ hread h
    split at h
    · split at h
      · exact ih hassign _ _ hread h
      · exact ih hargv _ _ hread h
    split at h
    · split at h
      · cases h
      · rename_i target ts' hexpect
        obtain ⟨htarget, hts'⟩ := tsExpect_some hexpect
        exact ih (hredir _ (htoks target (hread ▸ htarget))) _ _ (hts'.trans hread) h
    · cases h
      exact ⟨hts, hc⟩

variable {P : α → Prop} {isSep : TokenType → Bool} {op : TokenType → β} {last : β}
  {stop : TokenStream → Bool} {item : Parse α}

/-- The three levels above a command collect what their items return. -/
theorem sepList_yields (hitem : Yields toks P item) (fuel : Nat) {ts : TokenStream}
    (hts : ts.tokens = toks) {r : Chain α β × TokenStream}
    (h : sepList isSep op last stop item fuel ts = .ok r) :
    r.2.tokens = toks ∧ ∀ e ∈ r.1.toList, P e.1 := by
  obtain ⟨htokens, -, hall⟩ := sepList_forall (I := fun ts => ts.tokens = toks)
    (fun ts hts => (tokens_tsRead ts).trans hts) hitem hts h
  exact ⟨htokens, hall⟩

theorem parsePipeline_yields {Q : Command → Prop} {fuel : Nat}
    (hcommand : Yields toks Q (parseCommand fuel)) :
    Yields toks (fun pipeline => ∀ command ∈ pipeline.commands, Q command)
      (parsePipeline fuel) := by
  intro ts r hts h
  obtain ⟨⟨chain, ts'⟩, hchain, h⟩ := bind_eq_ok h
  cases h
  obtain ⟨htokens, hitems⟩ := sepList_yields hcommand fuel hts hchain
  exact ⟨htokens, List.forall_mem_map.mpr hitems⟩

theorem parseAndOr_yields {Q : Pipeline → Prop} {fuel : Nat}
    (hpipeline : Yields toks Q (parsePipeline fuel)) :
    Yields toks (fun andor => ∀ element ∈ andor.elements, Q element.pipeline)
      (parseAndOr fuel) := by
  intro ts r hts h
  obtain ⟨⟨chain, ts'⟩, hchain, h⟩ := bind_eq_ok h
  cases h
  obtain ⟨htokens, hitems⟩ := sepList_yields hpipeline fuel hts hchain
  exact ⟨htokens, List.forall_mem_map.mpr hitems⟩

theorem parseList_yields {Q : AndOr Pipeline → Prop} {fuel : Nat}
    (handor : Yields toks Q (parseAndOr fuel)) :
    Yields toks (fun list => ∀ element ∈ list.elements, Q element.andOr) (parseList fuel) := by
  intro ts r hts h
  obtain ⟨⟨chain, ts'⟩, hchain, h⟩ := bind_eq_ok h
  cases h
  obtain ⟨htokens, hitems⟩ := sepList_yields handor fuel hts hchain
  exact ⟨htokens, List.forall_mem_map.mpr hitems⟩

/-- The words of a list are no longer than the text it was read from. -/
theorem lexAndParse_words {beyond : Nat → UInt8} {text : Str} {list : ShList}
    (h : lexAndParse beyond text = .ok (some list)) :
    ∀ command ∈ listCommands list, EachWord (fun word => word.length ≤ text.length) command := by
  unfold lexAndParse at h
  generalize hlex : lxTokenize beyond tokenlistNewEmpty (csNew text) = r at h
  obtain ⟨errno, tokens⟩ := r
  simp only at h
  split at h
  · cases h
  · rename_i herrno
    rw [Decidable.not_not.mp herrno] at hlex
    have hlen := (lxTokenize_tokenized hlex).length_le
    split at h
    · cases h
    · rename_i ts hts
      have htokens : ts.tokens = tokens.tokens := by
        unfold tsNew at hts
        split at hts
        · cases hts
          rfl
        · cases hts
      cases hparse : parseList ts.tokens.length ts with
      | error e =>
        rw [hparse] at h
        cases h
      | ok r =>
        rw [hparse] at h
        cases h
        rw [← htokens] at hlen
        have hempty : EachWord (fun word => word.length ≤ text.length)
            { argv := [], assignmentList := [], redirs := [] } :=
          ⟨List.forall_mem_nil _, List.forall_mem_nil _, List.forall_mem_nil _⟩
        have hcommand := commandLoop_yields hlen ts.tokens.length hempty
        intro command hmem
        obtain ⟨element, helement, hmem⟩ := List.mem_flatMap.mp hmem
        obtain ⟨element', helement', hmem⟩ := List.mem_flatMap.mp hmem
        exact (parseList_yields (parseAndOr_yields (parsePipeline_yields hcommand)) ts r rfl
          hparse).2 element helement element' helement' command hmem

end Shell.Parser

namespace Shell.Exec
open Shell.CTypes Shell.Parsetypes Shell.Parser Shell.Expand Shell.Lib Shell.Lib.Traverse

variable {β σ : Type} {b : Builder β} {env : Env σ}

/-! ## The bodies of its substitutions -/

theorem length_scanTo_fst {stop : UInt8} {i rest : Str} (h : (scanTo stop i).2 = some rest) :
    (scanTo stop i).1.length < i.length := by
  induction i with
  | nil => cases h
  | cons c i ih =>
    simp only [scanTo] at h ⊢
    by_cases hc : c = stop
    · rw [if_pos hc]
      exact Nat.succ_pos _
    · rw [if_neg hc] at h ⊢
      exact Nat.succ_lt_succ (ih h)

theorem wordCall_shorter {w : WordState β σ} :
    ∀ call ∈ wordCall w, call.1.length < w.i.length := by
  intro call hcall
  unfold wordCall at hcall
  split at hcall
  · rename_i hi
    split at hcall
    · split at hcall
      · rename_i body rest hscan
        have hlt := length_scanTo_fst (congrArg Prod.snd hscan)
        rw [hscan] at hlt
        rw [List.mem_singleton.mp hcall, hi]
        exact Nat.lt_succ_of_lt (Nat.lt_succ_of_lt hlt)
      · cases hcall
    · cases hcall
  · cases hcall

theorem wordCalls_shorter {word : Str} {n : Nat} (hn : word.length ≤ n) (s : σ) :
    ∀ call ∈ wordCalls b env word s, call.1.length < n := by
  refine Loop.forall_seen wordCall (I := fun w => w.i.length ≤ n)
    (expandBody_decreasing b env word.length) ?_ ?_ hn
  · intro w w' hw h
    exact Nat.le_trans (Nat.le_of_lt (expandBody_decreasing b env word.length w w' h)) hw
  · intro w hw call hcall
    exact Nat.lt_of_lt_of_le (wordCall_shorter call hcall) hw

theorem commandCalls_shorter {command : Command} {n : Nat}
    (h : EachWord (fun word => word.length ≤ n) command) (s : σ) :
    ∀ call ∈ commandCalls b env command s, call.1.length < n := by
  rw [commandCalls, List.forall_mem_append]
  refine ⟨forall_mapSeen (fun word hword => wordCalls_shorter (h.assignments word hword)) s, ?_⟩
  split
  · exact fun _ hcall => by cases hcall
  rw [List.forall_mem_append]
  refine ⟨forall_mapSeen (fun redirect hr => wordCalls_shorter (h.targets redirect hr)) _, ?_⟩
  split
  · exact fun _ hcall => by cases hcall
  exact forall_mapSeen (fun word hword => wordCalls_shorter (h.argv word hword)) _

theorem listCalls_shorter {list : ShList} {n : Nat}
    (h : ∀ command ∈ listCommands list, EachWord (fun word => word.length ≤ n) command) (s : σ) :
    ∀ call ∈ listCalls b env list s, call.1.length < n := by
  refine forall_mapSeen (fun element helement s => ?_) s
  refine forall_mapSeen (fun element' helement' s => ?_) s
  refine forall_mapSeen (fun command hcommand s => ?_) s
  exact commandCalls_shorter (h command (List.mem_flatMap.mpr
    ⟨element, helement, List.mem_flatMap.mpr ⟨element', helement', hcommand⟩⟩)) s

/-! ## Deep enough -/

variable {host : ReplHost σ}

/-- A call that returns the same, and hands on the same, at both depths. -/
structure SameAt (b : Builder β) (host : ReplHost σ) (depth depth' : Nat) (call : Str × σ) :
    Prop where
  call_eq : SameCall (shellEnv b host.toHost depth).cmdsub (shellEnv b host.toHost depth').cmdsub call
  handed_eq : handedBy b host depth call = handedBy b host depth' call

/-- A text that is no longer than what the depths agree on. -/
theorem text_deep {depth depth' n : Nat}
    (hbelow : ∀ call, call.1.length < n → SameAt b host depth depth' call)
    (beyond : Nat → UInt8) {text : Str} (htext : text.length ≤ n) (s : σ) :
    (∀ list, lexAndParse beyond text = .ok list →
      executeListPtr b (shellEnv b host.toHost depth) host.toHost list s =
        executeListPtr b (shellEnv b host.toHost depth') host.toHost list s) ∧
    handedFrom b (shellEnv b host.toHost depth) (handedBy b host depth) beyond text s =
      handedFrom b (shellEnv b host.toHost depth') (handedBy b host depth') beyond text s := by
  unfold handedFrom
  cases hlex : lexAndParse beyond text with
  | error e => exact ⟨fun _ h => (by cases h), rfl⟩
  | ok list =>
    cases list with
    | none =>
      refine ⟨?_, rfl⟩
      intro list' h
      cases h
      rfl
    | some list =>
      have hshort : ∀ call ∈ listCalls b (shellEnv b host.toHost depth) list s,
          call.1.length < n := fun call hcall =>
        Nat.lt_of_lt_of_le (listCalls_shorter (lexAndParse_words hlex) s call hcall) htext
      have hhanded : (listCalls b (shellEnv b host.toHost depth) list s).flatMap
            (handedBy b host depth) =
          (listCalls b (shellEnv b host.toHost depth) list s).flatMap (handedBy b host depth') :=
        List.flatMap_congr fun call hcall => (hbelow call (hshort call hcall)).handed_eq
      have hcalls : ∀ call ∈ listCalls b (shellEnv b host.toHost depth) list s,
          SameCall (shellEnv b host.toHost depth).cmdsub (shellEnv b host.toHost depth').cmdsub
            call := fun call hcall => (hbelow call (hshort call hcall)).call_eq
      have hvars := (shellEnv_toVars b host depth).trans (shellEnv_toVars b host depth').symm
      obtain ⟨hexecute, hseen⟩ := executeList_eq host.toHost hvars hcalls
      refine ⟨?_, ?_⟩
      · intro list' h
        cases h
        exact hexecute
      · simp only [← hseen, hhanded]

/-- By length: the body of a call is a text below. -/
theorem sameAt_of_length {n depth depth' : Nat} (hdepth : n ≤ depth) (hdepth' : n ≤ depth')
    (call : Str × σ) (hcall : call.1.length < n) : SameAt b host depth depth' call := by
  induction n generalizing depth depth' call with
  | zero => exact absurd hcall (Nat.not_lt_zero _)
  | succ n ih =>
    obtain ⟨d, rfl⟩ := Nat.exists_eq_add_of_le' hdepth
    obtain ⟨d', rfl⟩ := Nat.exists_eq_add_of_le' hdepth'
    obtain ⟨body, s⟩ := call
    have hbelow : ∀ call : Str × σ, call.1.length < n → SameAt b host (d + n) (d' + n) call :=
      ih (Nat.le_add_left n d) (Nat.le_add_left n d')
    have hdeep := text_deep hbelow (host.beyond s) (Nat.le_of_lt_succ hcall)
    constructor
    · show (shellEnv b host.toHost (d + n + 1)).cmdsub body s =
        (shellEnv b host.toHost (d' + n + 1)).cmdsub body s
      rw [shellEnv_cmdsub, shellEnv_cmdsub]
      cases hlex : lexAndParse (host.beyond s) body with
      | error e => rfl
      | ok list => exact captureListOutput_eq fun child _ => (hdeep child).1 list hlex
    · show handedBy b host (d + n + 1) (body, s) = handedBy b host (d' + n + 1) (body, s)
      rw [handedBy, handedBy]
      cases host.forked s with
      | none => rfl
      | some child => exact (hdeep child).2

theorem round_deep (b : Builder β) (host : ReplHost σ) {n depth depth' : Nat}
    (hdepth : n ≤ depth) (hdepth' : n ≤ depth') {line : Option Str}
    (hline : ∀ text ∈ line, text.length ≤ n) (s : σ) :
    replRound (executeListPtr b (shellEnv b host.toHost depth) host.toHost) host line s =
        replRound (executeListPtr b (shellEnv b host.toHost depth') host.toHost) host line s ∧
      roundHanded b host depth line s = roundHanded b host depth' line s := by
  -- an empty line runs nothing, and `rfl` would compare what is not run
  cases line with
  | none => simp only [replRound, roundHanded, and_self]
  | some text =>
    cases text with
    | nil => simp only [replRound, roundHanded, and_self]
    | cons c l =>
      have htext := hline _ rfl
      have hbelow : ∀ call : Str × σ, call.1.length < n → SameAt b host depth depth' call :=
        sameAt_of_length hdepth hdepth'
      simp only [replRound, roundHanded]
      generalize host.addHistory (c :: l) (host.checkBackgroundJobs s) = s
      obtain ⟨hrun, hhanded⟩ := text_deep hbelow (host.beyond s) htext s
      refine ⟨?_, hhanded⟩
      cases hlex : lexAndParse (host.beyond s) (c :: l) with
      | error e => rfl
      | ok list => exact congrArg (Option.map _) (hrun list hlex)

/-- **The depth is no bound on the shell**: from the length of the longest line on it
makes no difference. -/
theorem repl_deep {n depth depth' : Nat} (hdepth : n ≤ depth) (hdepth' : n ≤ depth')
    {lines : List (Option Str)} (hlines : ∀ line ∈ lines, ∀ text ∈ line, text.length ≤ n)
    (s : σ) :
    repl b host depth lines s = repl b host depth' lines s ∧
      replHanded b host depth lines s = replHanded b host depth' lines s := by
  induction lines generalizing s with
  | nil => simp only [repl, replHanded, and_self]
  | cons line lines ih =>
    obtain ⟨hline, hlines⟩ := List.forall_mem_cons.mp hlines
    obtain ⟨hround, hhanded⟩ := round_deep b host hdepth hdepth' hline s
    rw [repl, repl, replHanded, replHanded, ← hround, ← hhanded]
    cases replRound (executeListPtr b (shellEnv b host.toHost depth) host.toHost) host line s with
    | none => simp only [Option.bind_none, and_self]
    | some t =>
      obtain ⟨hrest, hhandedRest⟩ := ih hlines t
      simp only [Option.bind_some, hrest, hhandedRest, and_self]

end Shell.Exec
