import Mathlib.Data.List.Chain
import Shell.Parser

/-! # What the parser returns

The reference decomposition of a run of tokens cuts it at its separators, level
by level, with no cursor and no accumulator. On streams in which every
redirection has its target, each parsing function consumes its run of tokens
and returns the reference decomposition of it. -/
namespace Shell.Parser
open Shell.CTypes Shell.Tokenlist Shell.Parsetypes Shell.Lib.Separated

/-! ## The reference decomposition -/

def isAssignment (t : Token) : Bool := t.type == .assignmentWord

/-- The redirections of a command, each with the word behind it. -/
def redirections : List Token → List Redirect
  | r :: target :: rest =>
    if isRedirect r.type then
      { fd := r.fd, mode := fromRedirTok r.type, target := target.value } :: redirections rest
    else redirections (target :: rest)
  | _ => []

/-- The tokens of a command that are neither redirections nor their targets. -/
def plainWords : List Token → List Token
  | r :: target :: rest =>
    if isRedirect r.type then plainWords rest else r :: plainWords (target :: rest)
  | rest => rest

def refCommand (c : List Token) : Command where
  argv := ((plainWords c).dropWhile isAssignment).map Token.value
  assignmentList := ((plainWords c).takeWhile isAssignment).map Token.value
  redirs := redirections c

def refPipeline (l : List Token) : Pipeline :=
  let commands := l.splitOnP fun t => isPipe t.type
  { size := commands.length, commands := commands.map refCommand }

def refAndOr (l : List Token) : AndOr Pipeline :=
  let elements := separated (fun t => isAndOrOp t.type) (fun t => andOrOp t.type) .none l
  { count := elements.length, elements := elements.map fun e => ⟨refPipeline e.1, e.2⟩ }

/-- `stop` is the type of the token that ends the list. -/
def refList (l : List Token) (stop : TokenType) : ShList :=
  let close := stop == .eof || stop == .newline
  let elements := closed (fun t => isListSep t.type) (fun t => listSep t.type) .none close l
  { count := elements.length, elements := elements.map fun e => ⟨refAndOr e.1, e.2⟩ }

/-! ## Runs of tokens -/

def isCommandTok (type : TokenType) : Bool :=
  type == .word || type == .assignmentWord || isRedirect type

def isPipelineTok (type : TokenType) : Bool := isCommandTok type || isPipe type

def isAndOrTok (type : TokenType) : Bool := isPipelineTok type || isAndOrOp type

def isListTok (type : TokenType) : Bool := isAndOrTok type || isListSep type

/-- Every redirection is followed by a word. -/
inductive Targeted : List Token → Prop
  | nil : Targeted []
  | redir {r w : Token} {l : List Token} : isRedirect r.type = true → w.type = .word →
      Targeted l → Targeted (r :: w :: l)
  | plain {t : Token} {l : List Token} : isRedirect t.type = false → Targeted l →
      Targeted (t :: l)

/-- `p` reads exactly `l` in front of a token that satisfies `stops`, and
returns `a`. -/
def Parses {α : Type} (p : Parse α) (l : List Token) (a : α) (stops : TokenType → Prop) : Prop :=
  ∀ (ts : TokenStream) (t : Token) (more : List Token), ts.rest = l ++ t :: more → stops t.type →
    ∃ ts', p ts = .ok (a, ts') ∧ ts.Moved l.length ts'

theorem Targeted.cut {l r : List Token} {s : Token} (hs : isCommandTok s.type = false)
    (h : Targeted (l ++ s :: r)) : Targeted l ∧ Targeted r := by
  generalize hl : l ++ s :: r = whole at h
  have hnotRedir : isRedirect s.type = false := by
    simp only [isCommandTok, Bool.or_eq_false_iff] at hs
    exact hs.2
  have hnotWord : s.type ≠ .word := fun hw => by simp [isCommandTok, hw] at hs
  induction h generalizing l with
  | nil => simp at hl
  | @redir r' w l' hr hw _ ih =>
    match l, hl with
    | [], hl =>
      obtain ⟨rfl, -⟩ := List.cons.inj hl
      rw [hnotRedir] at hr
      cases hr
    | [a], hl =>
      obtain ⟨-, h2⟩ := List.cons.inj hl
      obtain ⟨rfl, -⟩ := List.cons.inj h2
      exact absurd hw hnotWord
    | a :: b :: l, hl =>
      obtain ⟨rfl, h2⟩ := List.cons.inj hl
      obtain ⟨rfl, h3⟩ := List.cons.inj h2
      obtain ⟨hleft, hright⟩ := ih h3
      exact ⟨.redir hr hw hleft, hright⟩
  | @plain t l' ht htail ih =>
    match l, hl with
    | [], hl =>
      obtain ⟨-, rfl⟩ := List.cons.inj hl
      exact ⟨.nil, htail⟩
    | a :: l, hl =>
      obtain ⟨rfl, h2⟩ := List.cons.inj hl
      obtain ⟨hleft, hright⟩ := ih h2
      exact ⟨.plain ht hleft, hright⟩

theorem Targeted.append {l r : List Token} (h : Targeted l) (hr : Targeted r) :
    Targeted (l ++ r) := by
  induction h with
  | nil => exact hr
  | redir hredir hw _ ih => exact .redir hredir hw ih
  | plain hplain _ ih => exact .plain hplain ih

/-- The way the property reads on a stream that ends in a token that is no
redirection. -/
theorem Targeted.of_isChain : ∀ {l : List Token} {last : Token},
    l.getLast? = some last → isRedirect last.type = false →
    l.IsChain (fun a b => isRedirect a.type = true → b.type = .word) → Targeted l
  | [], _, _, _, _ => .nil
  | [t], last, hlast, hnot, _ => by
    obtain rfl : t = last := by simpa using hlast
    exact .plain hnot .nil
  | t :: u :: l, last, hlast, hnot, hchain => by
    have hrest : Targeted (u :: l) :=
      of_isChain (by simpa using hlast) hnot (List.isChain_cons_cons.mp hchain).2
    cases ht : isRedirect t.type with
    | false => exact .plain ht hrest
    | true =>
      have hu : u.type = .word := (List.isChain_cons_cons.mp hchain).1 ht
      cases hrest with
      | redir hr _ _ => rw [hu] at hr; cases hr
      | plain _ hl => exact .redir ht hu hl

/-! ## Commands -/

theorem plainWords_cons {t : Token} (ht : isRedirect t.type = false) (l : List Token) :
    plainWords (t :: l) = t :: plainWords l := by
  cases l with
  | nil => rfl
  | cons u l => simp only [plainWords, ht, Bool.false_eq_true, if_false]

theorem redirections_cons {t : Token} (ht : isRedirect t.type = false) (l : List Token) :
    redirections (t :: l) = redirections l := by
  cases l with
  | nil => rfl
  | cons u l => simp only [redirections, ht, Bool.false_eq_true, if_false]

/-- `c` read after what `acc` has collected. -/
def collect (acc : Command) (c : List Token) : Command where
  argv := acc.argv ++
    ((if acc.argv = [] then (plainWords c).dropWhile isAssignment else plainWords c).map
      Token.value)
  assignmentList := acc.assignmentList ++
    ((if acc.argv = [] then (plainWords c).takeWhile isAssignment else []).map Token.value)
  redirs := acc.redirs ++ redirections c

theorem collect_word {t : Token} (ht : t.type = .word) (acc : Command) (c : List Token) :
    collect acc (t :: c) = collect { acc with argv := acc.argv ++ [t.value] } c := by
  have hr : isRedirect t.type = false := by rw [ht]; rfl
  have ha : isAssignment t = false := by simp [isAssignment, ht]
  by_cases hacc : acc.argv = []
  · simp [collect, plainWords_cons hr, redirections_cons hr, hacc, ha]
  · simp [collect, plainWords_cons hr, redirections_cons hr, hacc]

theorem collect_assignment_first {t : Token} (ht : t.type = .assignmentWord) {acc : Command}
    (hacc : acc.argv = []) (c : List Token) :
    collect acc (t :: c) =
      collect { acc with assignmentList := acc.assignmentList ++ [t.value] } c := by
  have hr : isRedirect t.type = false := by rw [ht]; rfl
  have ha : isAssignment t = true := by simp [isAssignment, ht]
  simp [collect, plainWords_cons hr, redirections_cons hr, hacc, ha]

theorem collect_assignment_later {t : Token} (ht : t.type = .assignmentWord) {acc : Command}
    (hacc : acc.argv ≠ []) (c : List Token) :
    collect acc (t :: c) = collect { acc with argv := acc.argv ++ [t.value] } c := by
  have hr : isRedirect t.type = false := by rw [ht]; rfl
  simp [collect, plainWords_cons hr, redirections_cons hr, hacc]

theorem collect_redir {r w : Token} (hr : isRedirect r.type = true) (acc : Command)
    (c : List Token) :
    collect acc (r :: w :: c) =
      collect { acc with redirs := acc.redirs ++
        [{ fd := r.fd, mode := fromRedirTok r.type, target := w.value }] } c := by
  simp [collect, plainWords, redirections, hr]

/-- Reading one token that is followed by another. -/
theorem rest_cons_append {ts : TokenStream} {a : Token} {l : List Token} {t : Token}
    {more : List Token} (h : ts.rest = (a :: l) ++ t :: more) :
    tsPeek ts = a ∧ (tsRead ts).1 = a ∧ ts.Moved 1 (tsRead ts).2 ∧
      (tsRead ts).2.rest = l ++ t :: more := by
  have hne : l ++ t :: more ≠ [] := by simp
  obtain ⟨u, us, hus⟩ := List.exists_cons_of_ne_nil hne
  have hrest : ts.rest = a :: u :: us := by rw [h, List.cons_append, hus]
  obtain ⟨hread, hmoved⟩ := TokenStream.read_of_rest hrest
  refine ⟨TokenStream.peek_of_rest hrest, hread, hmoved, ?_⟩
  have hmoved' : ts.Moved [a].length (tsRead ts).2 := hmoved
  exact hmoved'.rest_eq (by simpa using h)

/-- The loop only appends. -/
theorem commandLoop_appends : ∀ {fuel : Nat} {c c' : Command} {ts ts' : TokenStream},
    commandLoop fuel c ts = .ok (c', ts') → c.argv <+: c'.argv ∧ c.redirs <+: c'.redirs
  | 0, _, _, _, _, h => by cases h
  | fuel + 1, c, c', ts, ts', h => by
    rw [commandLoop] at h
    split at h
    · obtain ⟨hargv, hredirs⟩ := commandLoop_appends h
      exact ⟨(List.prefix_append _ _).trans hargv, hredirs⟩
    · split at h
      · split at h
        · obtain ⟨hargv, hredirs⟩ := commandLoop_appends h
          exact ⟨hargv, hredirs⟩
        · obtain ⟨hargv, hredirs⟩ := commandLoop_appends h
          exact ⟨(List.prefix_append _ _).trans hargv, hredirs⟩
      · split at h
        · split at h
          · cases h
          · obtain ⟨hargv, hredirs⟩ := commandLoop_appends h
            exact ⟨hargv, (List.prefix_append _ _).trans hredirs⟩
        · obtain ⟨rfl, -⟩ := Prod.mk.inj (Except.ok.inj h)
          exact ⟨List.prefix_refl _, List.prefix_refl _⟩

theorem commandLoop_spec {c : List Token} (hc : ∀ t ∈ c, isCommandTok t.type = true)
    (hwf : Targeted c) : ∀ (fuel : Nat) (acc : Command), c.length < fuel →
      Parses (commandLoop fuel acc) c (collect acc c) fun t => isCommandTok t = false := by
  induction hwf with
  | nil =>
    intro fuel acc hfuel ts t more hrest ht
    obtain ⟨fuel, rfl⟩ : ∃ n, fuel = n + 1 := ⟨fuel - 1, by simp at hfuel; omega⟩
    have hpeek : tsPeek ts = t := TokenStream.peek_of_rest hrest
    simp only [isCommandTok, Bool.or_eq_false_iff, beq_eq_false_iff_ne] at ht
    refine ⟨ts, ?_, .refl ts⟩
    simp [commandLoop, hpeek, ht, collect, plainWords, redirections]
  | @redir r w l hr hw hl ih =>
    intro fuel acc hfuel ts t more hrest ht
    obtain ⟨fuel, rfl⟩ : ∃ n, fuel = n + 1 := ⟨fuel - 1, by simp at hfuel; omega⟩
    obtain ⟨hpeek, -, hmoved, hrest1⟩ := rest_cons_append hrest
    obtain ⟨hpeek1, hread1, hmoved1, hrest2⟩ := rest_cons_append hrest1
    have hword : r.type ≠ .word := fun h => by rw [h] at hr; cases hr
    have hassign : r.type ≠ .assignmentWord := fun h => by rw [h] at hr; cases hr
    obtain ⟨ts', hrun, hmoved'⟩ := ih (fun t ht => hc t (by simp [ht])) fuel
      { acc with redirs := acc.redirs ++
        [{ fd := r.fd, mode := fromRedirTok r.type, target := w.value }] }
      (by simp at hfuel; omega) _ t more hrest2 ht
    refine ⟨ts', ?_, ?_⟩
    · rw [collect_redir hr, ← hrun]
      simp [commandLoop, hpeek, hword, hassign, hr, tsExpect, tsCheck, hpeek1, hw, hread1]
    · have := (hmoved.trans hmoved1).trans hmoved'
      rwa [show 1 + 1 + l.length = (r :: w :: l).length by simp; omega] at this
  | @plain t l hr hl ih =>
    intro fuel acc hfuel ts u more hrest hu
    obtain ⟨fuel, rfl⟩ : ∃ n, fuel = n + 1 := ⟨fuel - 1, by simp at hfuel; omega⟩
    obtain ⟨hpeek, -, hmoved, hrest1⟩ := rest_cons_append hrest
    -- every branch goes round again on `l` with more collected
    have next : ∀ acc', collect acc (t :: l) = collect acc' l →
        commandLoop (fuel + 1) acc ts = commandLoop fuel acc' (tsRead ts).2 →
        ∃ ts', commandLoop (fuel + 1) acc ts = .ok (collect acc (t :: l), ts') ∧
          ts.Moved (t :: l).length ts' := by
      intro acc' hcollect hstep
      obtain ⟨ts', hrun, hmoved'⟩ := ih (fun t ht => hc t (by simp [ht])) fuel acc'
        (by simp at hfuel; omega) _ u more hrest1 hu
      refine ⟨ts', by rw [hstep, hrun, hcollect], ?_⟩
      have := hmoved.trans hmoved'
      rwa [Nat.add_comm] at this
    have htype : t.type = .word ∨ t.type = .assignmentWord := by
      have := hc t (by simp)
      simpa [isCommandTok, hr] using this
    rcases htype with hw | ha
    · refine next _ (collect_word hw acc l) ?_
      simp [commandLoop, hpeek, hw]
    · by_cases hacc : acc.argv = []
      · refine next _ (collect_assignment_first ha hacc l) ?_
        simp [commandLoop, hpeek, ha, hacc]
      · refine next _ (collect_assignment_later ha hacc l) ?_
        simp [commandLoop, hpeek, ha, hacc]

theorem parseCommand_spec {c : List Token} (hc : ∀ t ∈ c, isCommandTok t.type = true)
    (hwf : Targeted c) {fuel : Nat} (hfuel : c.length < fuel) :
    Parses (parseCommand fuel) c (refCommand c) fun t => isCommandTok t = false := by
  have hstart : collect { argv := [], assignmentList := [], redirs := [] } c = refCommand c := by
    simp [collect, refCommand]
  rw [← hstart]
  exact commandLoop_spec hc hwf fuel _ hfuel

/-! ## Separated lists -/

variable {α β : Type} {isSep allowed : TokenType → Bool} {op : TokenType → β} {last : β}
  {stop : TokenStream → Bool} {item : Parse α} {ref : List Token → α} {itemFuel : Nat}

namespace Chain

@[simp] theorem toList_start (a : α) (b : β) : (start a b).toList = [(a, b)] := rfl

@[simp] theorem toList_push (c : Chain α β) (a : α) (b : β) :
    (c.push a b).toList = c.toList ++ [(a, b)] := rfl

@[simp] theorem toList_push_mark (c : Chain α β) (a : α) (b b' : β) :
    ((c.push a b).mark b').toList = c.toList ++ [(a, b')] := rfl

/-- The count kept beside the list is its length. -/
def Counted (c : Chain α β) : Prop := c.count = c.toList.length

theorem counted_start (a : α) (b : β) : (start a b).Counted := rfl

theorem Counted.mark {c : Chain α β} (h : c.Counted) (b : β) : (c.mark b).Counted := by
  simpa [Counted, Chain.mark, toList] using h

theorem Counted.push {c : Chain α β} (h : c.Counted) (a : α) (b : β) : (c.push a b).Counted := by
  simpa [Counted, Chain.push, toList] using h

end Chain

theorem sepLoop_counted : ∀ (fuel : Nat) (chain : Chain α β) (ts : TokenStream)
    (r : Chain α β × TokenStream), chain.Counted →
    sepLoop isSep op last stop item fuel chain ts = .ok r → r.1.Counted
  | 0, _, _, _, _, h => by cases h
  | fuel + 1, chain, ts, r, hc, h => by
    simp only [sepLoop] at h
    split at h
    · split at h
      · cases h
        exact hc.mark _
      · split at h
        · cases h
        · exact sepLoop_counted fuel _ _ r ((hc.mark _).push _ _) h
    · cases h
      exact hc

section Items
variable {P : α → Prop} {I : TokenStream → Prop} {ts : TokenStream} {r : Chain α β × TokenStream}

/-- What holds of every item holds of all items of the chain; `I` is what the items keep. -/
theorem sepLoop_forall (hread : ∀ ts, I ts → I (tsRead ts).2)
    (hitem : ∀ ts r, I ts → item ts = .ok r → I r.2 ∧ P r.1) (fuel : Nat) {chain : Chain α β}
    (hchain : ∀ e ∈ chain.toList, P e.1) (hts : I ts)
    (h : sepLoop isSep op last stop item fuel chain ts = .ok r) :
    I r.2 ∧ ∀ e ∈ r.1.toList, P e.1 := by
  induction fuel generalizing chain ts with
  | zero => cases h
  | succ fuel ih =>
    simp only [sepLoop] at h
    split at h
    · have hmark : ∀ e ∈ (chain.mark (op (tsPeek ts).type)).toList, P e.1 := by
        simp only [Chain.toList, Chain.mark, List.forall_mem_append, List.forall_mem_singleton]
          at hchain ⊢
        exact hchain
      split at h
      · cases h
        exact ⟨hread ts hts, hmark⟩
      · split at h
        · cases h
        · rename_i a ts' ha
          obtain ⟨hts', hP⟩ := hitem _ _ (hread ts hts) ha
          refine ih ?_ hts' h
          rw [Chain.toList_push]
          exact List.forall_mem_append.mpr ⟨hmark, by simpa using hP⟩
    · cases h
      exact ⟨hts, hchain⟩

theorem sepList_forall (hread : ∀ ts, I ts → I (tsRead ts).2)
    (hitem : ∀ ts r, I ts → item ts = .ok r → I r.2 ∧ P r.1) {fuel : Nat} (hts : I ts)
    (h : sepList isSep op last stop item fuel ts = .ok r) :
    I r.2 ∧ r.1.Counted ∧ ∀ e ∈ r.1.toList, P e.1 := by
  unfold sepList at h
  split at h
  · cases h
  · rename_i a ts' ha
    obtain ⟨hts', hP⟩ := hitem _ _ hts ha
    have hstart : ∀ e ∈ (Chain.start a last).toList, P e.1 := by simpa using hP
    obtain ⟨hr, hall⟩ := sepLoop_forall hread hitem fuel hstart hts' h
    exact ⟨hr, sepLoop_counted fuel _ _ r (Chain.counted_start _ _) h, hall⟩

end Items

theorem bind_eq_ok {ε γ δ : Type} {x : Except ε γ} {f : γ → Except ε δ} {d : δ}
    (h : x >>= f = .ok d) : ∃ c, x = .ok c ∧ f c = .ok d := by
  cases x with
  | error e => cases h
  | ok c => exact ⟨c, rfl, h⟩

/-- The item parser reads every piece of allowed tokens and stops in front of
any other token. -/
def ReadsPieces (item : Parse α) (allowed : TokenType → Bool) (ref : List Token → α)
    (itemFuel : Nat) : Prop :=
  ∀ c, (∀ x ∈ c, allowed x.type = true) → Targeted c → c.length < itemFuel →
    Parses item c (ref c) fun t => allowed t = false

/-- What a loop over separated items is started on: `l` in front of a token `t`
that is neither allowed nor a separator, where a separator directly in front of
`t` ends the loop when `close` is set. -/
structure LoopSetting (isSep allowed : TokenType → Bool) (stop : TokenStream → Bool)
    (close : Bool) (t : Token) (more : List Token) : Prop where
  sep_not_allowed : ∀ type, isSep type = true → allowed type = false
  sep_not_command : ∀ type, isSep type = true → isCommandTok type = false
  end_not_sep : isSep t.type = false
  end_not_allowed : allowed t.type = false
  stop_eq : ∀ (ts : TokenStream) (l : List Token), ts.rest = l ++ t :: more →
    (∀ x ∈ l, allowed x.type = true ∨ isSep x.type = true) → stop ts = (close && l.isEmpty)

/-- The elements the reference decomposition gives for `l`. -/
def refElements (isSep : TokenType → Bool) (op : TokenType → β) (last : β) (close : Bool)
    (ref : List Token → α) (l : List Token) : List (α × β) :=
  (closed (fun t => isSep t.type) (fun t => op t.type) last close l).map fun e => (ref e.1, e.2)

section Loop
variable {close : Bool} {t : Token} {more : List Token}

theorem refElements_single {c : List Token} (hc : ∀ x ∈ c, isSep x.type = false) :
    refElements isSep op last close ref c = [(ref c, last)] := by
  rw [refElements, closed_single hc]
  rfl

theorem refElements_append_cons {c : List Token} {s : Token} (hc : ∀ x ∈ c, isSep x.type = false)
    (hs : isSep s.type = true) (l : List Token) :
    refElements isSep op last close ref (c ++ s :: l) =
      (ref c, op s.type) ::
        if close && l.isEmpty then [] else refElements isSep op last close ref l := by
  rw [refElements, closed_append_cons (p := fun t : Token => isSep t.type) hc hs]
  split <;> rfl

theorem sepLoop_end (op : TokenType → β) (last : β) (item : Parse α)
    (hset : LoopSetting isSep allowed stop close t more) {ts : TokenStream}
    (hrest : ts.rest = t :: more) (fuel : Nat) (chain : Chain α β) :
    sepLoop isSep op last stop item (fuel + 1) chain ts = .ok (chain, ts) := by
  simp [sepLoop, TokenStream.peek_of_rest hrest, hset.end_not_sep]

/-- One separator `s` and what is behind it, once the pieces so far are in `chain`. -/
theorem sepLoop_spec (op : TokenType → β) (last : β)
    (hset : LoopSetting isSep allowed stop close t more)
    (hitem : ReadsPieces item allowed ref itemFuel) (l : List Token) :
    (∀ x ∈ l, allowed x.type = true ∨ isSep x.type = true) → Targeted l → l.length < itemFuel →
    ∀ (fuel : Nat) (chain : Chain α β) (ts : TokenStream) (s : Token), l.length + 1 < fuel →
      isSep s.type = true → ts.rest = (s :: l) ++ t :: more →
      ∃ chain' ts', sepLoop isSep op last stop item fuel chain ts = .ok (chain', ts') ∧
        ts.Moved (l.length + 1) ts' ∧
        chain'.toList = (chain.mark (op s.type)).toList ++
          if close && l.isEmpty then [] else refElements isSep op last close ref l := by
  induction l using pieces_induction (p := fun t : Token => isSep t.type) with
  | single c hc =>
    intro hall hwf hlen fuel chain ts s hfuel hs hrest
    obtain ⟨fuel, rfl⟩ : ∃ n, fuel = n + 2 := ⟨fuel - 2, by omega⟩
    obtain ⟨hpeek, -, hmoved, hrest1⟩ := rest_cons_append hrest
    have hstop := hset.stop_eq _ c hrest1 hall
    by_cases hq : (close && c.isEmpty) = true
    · obtain rfl : c = [] := by
        rw [Bool.and_eq_true, List.isEmpty_iff] at hq
        exact hq.2
      refine ⟨chain.mark (op s.type), _, ?_, hmoved, ?_⟩
      · simp only [sepLoop, hpeek, hs, if_true, hstop, hq]
      · rw [if_pos hq, List.append_nil]
    · have hallowed : ∀ x ∈ c, allowed x.type = true := fun x hx =>
        (hall x hx).resolve_right (by simp [hc x hx])
      obtain ⟨ts', hrun, hmoved'⟩ := hitem c hallowed hwf hlen _ t more hrest1 hset.end_not_allowed
      have hend := sepLoop_end op last item hset
        (hmoved'.rest_eq hrest1) fuel ((chain.mark (op s.type)).push (ref c) last)
      refine ⟨(chain.mark (op s.type)).push (ref c) last, ts', ?_, ?_, ?_⟩
      · simp only [sepLoop, hpeek, hs, if_true, hstop, hq, hrun]
        exact hend
      · exact Nat.add_comm 1 _ ▸ hmoved.trans hmoved'
      · rw [if_neg hq, refElements_single hc, Chain.toList_push]
  | cons c s' l hc hs' ih =>
    intro hall hwf hlen fuel chain ts s hfuel hs hrest
    have hlens : (c ++ s' :: l).length = c.length + (l.length + 1) := by simp
    obtain ⟨fuel, rfl⟩ : ∃ n, fuel = n + 1 := ⟨fuel - 1, by omega⟩
    obtain ⟨hpeek, -, hmoved, hrest1⟩ := rest_cons_append hrest
    have hne : (close && (c ++ s' :: l).isEmpty) = false := by
      cases close <;> cases c <;> rfl
    have hstop := (hset.stop_eq _ _ hrest1 hall).trans hne
    have hallowed : ∀ x ∈ c, allowed x.type = true := fun x hx =>
      (hall x (by simp [hx])).resolve_right (by simp [hc x hx])
    obtain ⟨hwfc, hwfl⟩ := Targeted.cut (hset.sep_not_command _ hs') hwf
    have hrest1' : (tsRead ts).2.rest = c ++ s' :: (l ++ t :: more) := by
      rw [hrest1, List.append_assoc, List.cons_append]
    obtain ⟨ts1, hrun1, hmoved1⟩ := hitem c hallowed hwfc (by omega) _ s' _ hrest1'
      (hset.sep_not_allowed _ hs')
    obtain ⟨chain', ts', hrun, hmoved', hlist⟩ := ih (fun x hx => hall x (by simp [hx])) hwfl
      (by omega) fuel ((chain.mark (op s.type)).push (ref c) last) ts1 s' (by omega) hs'
      (hmoved1.rest_eq hrest1')
    refine ⟨chain', ts', ?_, ?_, ?_⟩
    · simp only [sepLoop, hpeek, hs, if_true, hstop, Bool.false_eq_true, if_false, hrun1, hrun]
    · have := (hmoved.trans hmoved1).trans hmoved'
      rwa [show 1 + c.length + (l.length + 1) = (c ++ s' :: l).length + 1 by omega] at this
    · rw [hlist, hne, if_neg Bool.false_ne_true, refElements_append_cons hc hs',
        Chain.toList_push_mark, List.append_assoc, List.singleton_append]

/-- The first piece, then the loop. -/
theorem sepList_spec (op : TokenType → β) (last : β)
    (hset : LoopSetting isSep allowed stop close t more)
    (hitem : ReadsPieces item allowed ref itemFuel) {l : List Token}
    (hall : ∀ x ∈ l, allowed x.type = true ∨ isSep x.type = true) (hwf : Targeted l)
    (hlen : l.length < itemFuel) {fuel : Nat} (hfuel : l.length < fuel) {ts : TokenStream}
    (hrest : ts.rest = l ++ t :: more) :
    ∃ chain ts', sepList isSep op last stop item fuel ts = .ok (chain, ts') ∧
      ts.Moved l.length ts' ∧ chain.toList = refElements isSep op last close ref l ∧
      chain.count = (refElements isSep op last close ref l).length := by
  have counted : ∀ {chain ts'}, sepList isSep op last stop item fuel ts = .ok (chain, ts') →
      chain.toList = refElements isSep op last close ref l →
      chain.count = (refElements isSep op last close ref l).length := by
    intro chain ts' hrun hlist
    rw [← hlist]
    unfold sepList at hrun
    split at hrun
    · cases hrun
    · exact sepLoop_counted _ _ _ (chain, ts') (Chain.counted_start _ _) hrun
  induction l using pieces_induction (p := fun t : Token => isSep t.type) with
  | single c hc =>
    have hallowed : ∀ x ∈ c, allowed x.type = true := fun x hx =>
      (hall x hx).resolve_right (by simp [hc x hx])
    obtain ⟨fuel, rfl⟩ : ∃ n, fuel = n + 1 := ⟨fuel - 1, by omega⟩
    obtain ⟨ts', hrun, hmoved⟩ := hitem c hallowed hwf hlen _ t more hrest hset.end_not_allowed
    have hend := sepLoop_end op last item hset
      (hmoved.rest_eq hrest) fuel (.start (ref c) last)
    have hrun' : sepList isSep op last stop item (fuel + 1) ts =
        .ok (.start (ref c) last, ts') := by
      simp only [sepList, hrun, hend]
    have hlist : (Chain.start (ref c) last).toList = refElements isSep op last close ref c := by
      rw [refElements_single hc, Chain.toList_start]
    exact ⟨_, ts', hrun', hmoved, hlist, counted hrun' hlist⟩
  | cons c s l hc hs _ =>
    have hlens : (c ++ s :: l).length = c.length + (l.length + 1) := by simp
    have hallowed : ∀ x ∈ c, allowed x.type = true := fun x hx =>
      (hall x (by simp [hx])).resolve_right (by simp [hc x hx])
    obtain ⟨hwfc, hwfl⟩ := Targeted.cut (hset.sep_not_command _ hs) hwf
    have hrest' : ts.rest = c ++ s :: (l ++ t :: more) := by
      rw [hrest, List.append_assoc, List.cons_append]
    obtain ⟨ts1, hrun1, hmoved1⟩ := hitem c hallowed hwfc (by omega) _ s _ hrest'
      (hset.sep_not_allowed _ hs)
    obtain ⟨chain, ts', hrun, hmoved', hlist⟩ := sepLoop_spec op last hset hitem l
      (fun x hx => hall x (by simp [hx])) hwfl (by omega) fuel (.start (ref c) last) ts1 s
      (by omega) hs (hmoved1.rest_eq hrest')
    have hrun' : sepList isSep op last stop item fuel ts = .ok (chain, ts') := by
      simp only [sepList, hrun1, hrun]
    have hlist' : chain.toList = refElements isSep op last close ref (c ++ s :: l) := by
      rw [hlist, refElements_append_cons hc hs]
      rfl
    refine ⟨chain, ts', hrun', ?_, hlist', counted hrun' hlist'⟩
    have := hmoved1.trans hmoved'
    rwa [← hlens] at this

end Loop

/-! ## The three levels -/

theorem isCommandTok_of_isPipe {type : TokenType} (h : isPipe type = true) :
    isCommandTok type = false := by
  cases type <;> first | rfl | cases h

theorem isPipelineTok_of_isAndOrOp {type : TokenType} (h : isAndOrOp type = true) :
    isPipelineTok type = false := by
  cases type <;> first | rfl | cases h

theorem isAndOrTok_of_isListSep {type : TokenType} (h : isListSep type = true) :
    isAndOrTok type = false := by
  cases type <;> first | rfl | cases h

theorem not_isCommandTok_of_not_isAndOrTok {type : TokenType} (h : isAndOrTok type = false) :
    isCommandTok type = false := by
  simp only [isAndOrTok, isPipelineTok, Bool.or_eq_false_iff] at h
  exact h.1.1

theorem pipelineSetting {t : Token} {more : List Token} (ht : isPipelineTok t.type = false) :
    LoopSetting isPipe isCommandTok (fun _ => false) false t more where
  sep_not_allowed := fun _ => isCommandTok_of_isPipe
  sep_not_command := fun _ => isCommandTok_of_isPipe
  end_not_sep := (Bool.or_eq_false_iff.mp ht).2
  end_not_allowed := (Bool.or_eq_false_iff.mp ht).1
  stop_eq := fun _ _ _ _ => rfl

theorem parsePipeline_spec (fuel : Nat) :
    ReadsPieces (parsePipeline fuel) isPipelineTok refPipeline fuel := by
  intro c hc hwf hlen ts t more hrest ht
  have hitem : ReadsPieces (parseCommand fuel) isCommandTok refCommand fuel :=
    fun _ hc' hwf' hlen' => parseCommand_spec hc' hwf' hlen'
  obtain ⟨chain, ts', hrun, hmoved, hlist, hcount⟩ := sepList_spec (fun _ => ()) ()
    (pipelineSetting ht) hitem (fun x hx => Bool.or_eq_true_iff.mp (hc x hx)) hwf hlen hlen hrest
  have hcommands : (refElements isPipe (fun _ => ()) () false refCommand c).map Prod.fst =
      (refPipeline c).commands := by
    have hfst := map_fst_separated (p := fun t : Token => isPipe t.type)
      (fun _ => ()) () c
    simp only [refPipeline, ← hfst, refElements, closed, Bool.false_and, Bool.false_eq_true,
      if_false, List.map_map]
    rfl
  refine ⟨ts', ?_, hmoved⟩
  have hsize : chain.count = (refPipeline c).size := by
    rw [hcount, ← List.length_map Prod.fst, hcommands]
    exact List.length_map _
  simp only [parsePipeline, hrun, bind, Except.bind, hlist, hcommands, hsize]
  rfl

theorem andOrSetting {t : Token} {more : List Token} (ht : isAndOrTok t.type = false) :
    LoopSetting isAndOrOp isPipelineTok (fun _ => false) false t more where
  sep_not_allowed := fun _ => isPipelineTok_of_isAndOrOp
  sep_not_command := fun _ h => (Bool.or_eq_false_iff.mp (isPipelineTok_of_isAndOrOp h)).1
  end_not_sep := (Bool.or_eq_false_iff.mp ht).2
  end_not_allowed := (Bool.or_eq_false_iff.mp ht).1
  stop_eq := fun _ _ _ _ => rfl

theorem parseAndOr_spec (fuel : Nat) :
    ReadsPieces (parseAndOr fuel) isAndOrTok refAndOr fuel := by
  intro c hc hwf hlen ts t more hrest ht
  obtain ⟨chain, ts', hrun, hmoved, hlist, hcount⟩ := sepList_spec andOrOp
    AndOrOp.none (andOrSetting ht) (parsePipeline_spec fuel)
    (fun x hx => Bool.or_eq_true_iff.mp (hc x hx)) hwf hlen hlen hrest
  refine ⟨ts', ?_, hmoved⟩
  simp only [parseAndOr, hrun, bind, Except.bind, hlist, hcount, refAndOr, refElements, closed,
    Bool.false_and, Bool.false_eq_true, if_false, List.map_map, List.length_map]
  rfl

theorem tsAtEnd_eq (ts : TokenStream) : tsAtEnd ts = (ts.rest.length == 1) := by
  have := ts.inBounds
  rw [tsAtEnd, TokenStream.rest, List.length_drop, Bool.eq_iff_iff, beq_iff_eq, beq_iff_eq]
  omega

theorem atListEnd_eq {ts : TokenStream} {l : List Token} {t : Token} {more : List Token}
    (hrest : ts.rest = l ++ t :: more)
    (hall : ∀ x ∈ l, isAndOrTok x.type = true ∨ isListSep x.type = true)
    (hend : more = [] → t.type = .eof) :
    atListEnd ts = ((t.type == .eof || t.type == .newline) && l.isEmpty) := by
  cases l with
  | nil =>
    have hpeek : tsPeek ts = t := TokenStream.peek_of_rest hrest
    rw [atListEnd, tsAtEnd_eq, hrest, tsCheck, tsCheck, hpeek, List.isEmpty_nil, Bool.and_true]
    cases more with
    | nil => simp [hend rfl]
    | cons u more => simp
  | cons x l =>
    have hpeek : tsPeek ts = x := TokenStream.peek_of_rest hrest
    have hx := hall x (by simp)
    have heof : x.type ≠ .eof := fun h => by rw [h] at hx; revert hx; decide
    have hnewline : x.type ≠ .newline := fun h => by rw [h] at hx; revert hx; decide
    rw [atListEnd, tsAtEnd_eq, hrest, tsCheck, tsCheck, hpeek]
    simp [heof, hnewline]

theorem listSetting {t : Token} {more : List Token} (ht : isListTok t.type = false)
    (hend : more = [] → t.type = .eof) :
    LoopSetting isListSep isAndOrTok atListEnd (t.type == .eof || t.type == .newline) t more where
  sep_not_allowed := fun _ => isAndOrTok_of_isListSep
  sep_not_command := fun _ h => not_isCommandTok_of_not_isAndOrTok (isAndOrTok_of_isListSep h)
  end_not_sep := (Bool.or_eq_false_iff.mp ht).2
  end_not_allowed := (Bool.or_eq_false_iff.mp ht).1
  stop_eq := fun _ _ hrest hall => atListEnd_eq hrest hall hend

theorem parseList_spec {l : List Token} {t : Token} {more : List Token}
    (hall : ∀ x ∈ l, isListTok x.type = true) (hwf : Targeted l) (ht : isListTok t.type = false)
    (hend : more = [] → t.type = .eof) {ts : TokenStream} (hrest : ts.rest = l ++ t :: more)
    {fuel : Nat} (hlen : l.length < fuel) :
    ∃ ts', parseList fuel ts = .ok (refList l t.type, ts') ∧ ts.Moved l.length ts' := by
  have hall' : ∀ x ∈ l, isAndOrTok x.type = true ∨ isListSep x.type = true := fun x hx => by
    simpa [isListTok] using hall x hx
  obtain ⟨chain, ts', hrun, hmoved, hlist, hcount⟩ := sepList_spec listSep
    ListSep.none (listSetting ht hend) (parseAndOr_spec fuel) hall' hwf hlen hlen hrest
  refine ⟨ts', ?_, hmoved⟩
  simp only [parseList, hrun, bind, Except.bind, hlist, hcount, refList, refElements,
    List.map_map, List.length_map]
  rfl

/-- A stream that ends in an EOF token has a token behind its run of list tokens. -/
theorem rest_split (ts : TokenStream) {eof : Token} (hlast : ts.tokens.getLast? = some eof)
    (heof : eof.type = .eof) :
    ∃ t more, ts.rest = (ts.rest.takeWhile fun t => isListTok t.type) ++ t :: more ∧
      isListTok t.type = false ∧ (more = [] → t.type = .eof) := by
  generalize hl : (ts.rest.takeWhile fun t => isListTok t.type) = l
  have hsplit := List.takeWhile_append_dropWhile (p := fun t => isListTok t.type) (l := ts.rest)
  have hrestLast : ts.rest.getLast? = some eof := by
    rw [TokenStream.rest, List.getLast?_drop, if_neg (by have := ts.inBounds; omega), hlast]
  -- the run is followed by a token, if only the last one
  obtain ⟨t, more, hrest⟩ : ∃ t more, ts.rest = l ++ t :: more := by
    rw [hl] at hsplit
    cases hd : ts.rest.dropWhile fun t => isListTok t.type with
    | cons t more => exact ⟨t, more, by rw [← hd, hsplit]⟩
    | nil =>
      rw [hd, List.append_nil] at hsplit
      have hmem : eof ∈ ts.rest.takeWhile fun t => isListTok t.type := by
        rw [hl, hsplit]
        exact List.mem_of_getLast? hrestLast
      have := List.mem_takeWhile_imp hmem
      rw [heof] at this
      cases this
  refine ⟨t, more, hrest, ?_, fun hm => ?_⟩
  · have hd : ts.rest.dropWhile (fun t => isListTok t.type) = t :: more := by
      rw [hl, hrest] at hsplit
      rw [hrest]
      exact List.append_cancel_left hsplit
    have := List.head?_dropWhile_not (fun t => isListTok t.type) ts.rest
    simpa [hd] using this
  · rw [hrest, hm] at hrestLast
    obtain rfl : t = eof := by simpa using hrestLast
    exact heof

theorem length_run_lt {ts : TokenStream} {l : List Token} {t : Token} {more : List Token}
    (hrest : ts.rest = l ++ t :: more) : l.length < ts.tokens.length := by
  have hlength := congrArg List.length hrest
  simp only [TokenStream.rest, List.length_drop, List.length_append, List.length_cons] at hlength
  omega

/-- What `parse_list` reads on such a stream, and where it stops. -/
theorem parseList_moved (ts : TokenStream) {eof : Token}
    (hlast : ts.tokens.getLast? = some eof) (heof : eof.type = .eof)
    (hredir : ts.tokens.IsChain fun a b => isRedirect a.type = true → b.type = .word)
    {fuel : Nat} (hfuel : ts.tokens.length ≤ fuel) :
    ∃ ts', parseList fuel ts =
        .ok (refList (ts.rest.takeWhile fun t => isListTok t.type) (tsPeek ts').type, ts') ∧
      ts.Moved (ts.rest.takeWhile fun t => isListTok t.type).length ts' := by
  obtain ⟨t, more, hrest, ht, hend⟩ := rest_split ts hlast heof
  have hall : ∀ x ∈ ts.rest.takeWhile fun t => isListTok t.type, isListTok x.type = true :=
    fun x hx => by simpa using List.mem_takeWhile_imp hx
  have hnotRedir : isRedirect eof.type = false := by rw [heof]; rfl
  have hwf : Targeted (ts.rest.takeWhile fun t => isListTok t.type) := by
    have hrestLast : ts.rest.getLast? = some eof := by
      rw [TokenStream.rest, List.getLast?_drop, if_neg (by have := ts.inBounds; omega), hlast]
    have hwhole := Targeted.of_isChain hrestLast hnotRedir (hredir.drop ts.pos)
    have htCommand := not_isCommandTok_of_not_isAndOrTok (Bool.or_eq_false_iff.mp ht).1
    rw [hrest] at hwhole
    exact (hwhole.cut htCommand).1
  generalize (ts.rest.takeWhile fun t => isListTok t.type) = l at hrest hall hwf
  have hlen : l.length < fuel := (length_run_lt hrest).trans_le hfuel
  obtain ⟨ts', hrun, hmoved⟩ := parseList_spec hall hwf ht hend hrest hlen
  have hpeek : tsPeek ts' = t := TokenStream.peek_of_rest (hmoved.rest_eq hrest)
  exact ⟨ts', by rw [hrun, hpeek], hmoved⟩

/-- **The parser computes the reference decomposition.** On a stream that ends
in an EOF token and in which every redirection is followed by a word,
`parse_list` consumes exactly the longest run of list tokens from the cursor on
and returns the reference decomposition of that run. Every stream carries that
its cursor is in bounds, so the cursor is inside the tokens at every step. -/
theorem parseList_eq_refList (ts : TokenStream) {eof : Token}
    (hlast : ts.tokens.getLast? = some eof) (heof : eof.type = .eof)
    (hredir : ts.tokens.IsChain fun a b => isRedirect a.type = true → b.type = .word)
    {fuel : Nat} (hfuel : ts.tokens.length ≤ fuel) :
    ∃ ts', parseList fuel ts =
        .ok (refList (ts.rest.takeWhile fun t => isListTok t.type) (tsPeek ts').type, ts') ∧
      ts'.tokens = ts.tokens ∧
      ts'.pos = ts.pos + (ts.rest.takeWhile fun t => isListTok t.type).length ∧
      ts'.pos < ts'.tokens.length := by
  obtain ⟨ts', hrun, hmoved⟩ := parseList_moved ts hlast heof hredir hfuel
  exact ⟨ts', hrun, hmoved.tokens_eq, hmoved.pos_eq, ts'.inBounds⟩

/-- `a >f ; b &` in front of the end of the input. -/
theorem parseList_eq_refList_amp :
    let word (b : UInt8) : Token := { type := .word, value := [b], fd := 0 }
    let mark (type : TokenType) : Token := { type := type, value := [], fd := 0 }
    let out : Token := { type := .redirOut, value := [], fd := 1 }
    let eof := mark .eof
    let run := [word 97, out, word 102, mark .semi, word 98, mark .amp]
    ∃ ts', parseList 7 ⟨run ++ [eof], 0, by decide⟩ = .ok (refList run .eof, ts') ∧
      ts'.pos = 6 := by
  intro word mark out eof run
  obtain ⟨ts', hrun, htokens, hpos, -⟩ := parseList_eq_refList ⟨run ++ [eof], 0, by decide⟩
    rfl rfl (by simp [run, eof, mark, word, out, isRedirect]) (Nat.le_refl _)
  have hpos' : ts'.pos = 6 := hpos
  have hrest : ts'.rest = [eof] := by
    rw [TokenStream.rest, htokens, hpos']
    rfl
  refine ⟨ts', ?_, hpos'⟩
  rw [TokenStream.peek_of_rest hrest] at hrun
  exact hrun

end Shell.Parser
