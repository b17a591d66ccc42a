import Shell.ExpandCursor

/-! # Where the cursor of the word expansion ends (expand.c)

`Mode` is what matters of an expansion for where it ends: a backslash outside of
single quotes takes the next byte with it, and when there is none the cursor
leaves the word. -/
namespace Shell.ExpandCursor
open Shell.CTypes Shell.Lib Shell.Expand
open Shell.Lexer (QuoteFlag LexesAs Begins Whole onlyBlanks_nil lexesAs_of_whole)

/-- What the next byte of a word is read as. `flag` is the quoting around it. -/
inductive Mode
  | text (flag : QuoteFlag)
  | escape (flag : QuoteFlag)
  | dollar (flag : QuoteFlag)
  | loose (flag : QuoteFlag) (name : Str)
  | braced (flag : QuoteFlag)
  | cmdsub (flag : QuoteFlag)
  deriving DecidableEq

section Modes
variable (lookupn : Str → Nat → Option Str)

/-- A byte of a name without braces: the name ends where it is that of a variable. -/
def Mode.nextLoose (flag : QuoteFlag) (name : Str) (c : UInt8) : Mode :=
  if c = chr ' ' then .text flag
  else match lookupn (name ++ [c]) (name.length + 1) with
    | some _ => .text flag
    | none => .loose flag (name ++ [c])

def Mode.next : Mode → UInt8 → Mode
  | .text .unquoted, c =>
    if c = chr '$' then .dollar .unquoted
    else if c = chr '\\' then .escape .unquoted
    else if c = chr '\'' then .text .singleQuoted
    else if c = chr '"' then .text .doubleQuoted
    else .text .unquoted
  | .text .singleQuoted, c => if c = chr '\'' then .text .unquoted else .text .singleQuoted
  | .text .doubleQuoted, c =>
    if c = chr '"' then .text .unquoted
    else if c = chr '\\' then .escape .doubleQuoted
    else if c = chr '$' then .dollar .doubleQuoted
    else .text .doubleQuoted
  | .escape flag, _ => .text flag
  | .dollar flag, c =>
    if c = chr '(' then .cmdsub flag
    else if c = chr '\x7b' then .braced flag
    else Mode.nextLoose lookupn flag [] c
  | .loose flag name, c => Mode.nextLoose lookupn flag name c
  | .braced flag, c => if c = chr '\x7d' then .text flag else .braced flag
  | .cmdsub flag, c => if c = chr ')' then .text flag else .cmdsub flag

def Mode.isEscape : Mode → Bool
  | .escape _ => true
  | _ => false

/-- From `m` on, the bytes end behind a backslash that escapes the next byte. -/
def Mode.endsEscaping (m : Mode) (word : Str) : Bool := (word.foldl (Mode.next lookupn) m).isEscape

/-- The last byte of the word is a backslash with nothing to escape: it stands outside
of single quotes, variables and substitutions, and no backslash escapes it. -/
def endsEscaping (word : Str) : Bool := Mode.endsEscaping lookupn (.text .unquoted) word

end Modes

/-! ## What the expansion skips -/

variable {t : Surroundings} {flag : QuoteFlag} {lookupn : Str → Nat → Option Str}

theorem endsEscaping_cons (m : Mode) (c : UInt8) (i : Str) :
    m.endsEscaping lookupn (c :: i) = (m.next lookupn c).endsEscaping lookupn i := rfl

theorem endsEscaping_scanTo {m : Mode} (stop : UInt8) (hm : m.isEscape = false)
    (hnext : ∀ c, m.next lookupn c = if c = stop then .text flag else m) (i : Str) :
    m.endsEscaping lookupn i =
      (Mode.text flag).endsEscaping lookupn ((scanTo stop i).2.getD []) := by
  induction i with
  | nil => exact hm
  | cons c i ih =>
    rw [endsEscaping_cons, hnext, scanTo]
    by_cases hc : c = stop
    · rw [if_pos hc, if_pos hc]
      rfl
    · rw [if_neg hc, if_neg hc, ih]

theorem next_space (flag : QuoteFlag) : (Mode.text flag).next lookupn (chr ' ') = .text flag := by
  cases flag <;> rfl

theorem expandLooseLoop_ends (sb i name : Str) (flag : QuoteFlag) :
    ∃ r sb', expandLooseLoop exact t.env () sb i name name.length = some (r, sb') ∧
      (Mode.loose flag name).endsEscaping t.varLookupn i =
        (Mode.text flag).endsEscaping t.varLookupn r := by
  induction i generalizing name with
  | nil => exact ⟨[], sb, rfl, rfl⟩
  | cons c i ih =>
    by_cases hspace : c = chr ' '
    · refine ⟨c :: i, sb, by rw [expandLooseLoop, if_pos hspace], ?_⟩
      rw [endsEscaping_cons, endsEscaping_cons, hspace, next_space, Mode.next, Mode.nextLoose,
        if_pos rfl]
    · rw [expandLooseLoop_exact hspace, endsEscaping_cons, Mode.next, Mode.nextLoose,
        if_neg hspace]
      have hlookup : t.env.varLookupn () = t.varLookupn := rfl
      rw [hlookup]
      cases t.varLookupn (name ++ [c]) (name.length + 1) with
      | some val => exact ⟨i, sb ++ val, rfl, rfl⟩
      | none =>
        have hnext := ih (name ++ [c])
        rwa [List.length_append, List.length_singleton] at hnext

theorem expandBracedVariable_ends (sb i : Str) (flag : QuoteFlag) :
    ∃ r sb', Expand.expandBracedVariable exact t.env i () sb = some (r, sb') ∧
      (Mode.braced flag).endsEscaping t.varLookupn i =
        (Mode.text flag).endsEscaping t.varLookupn r := by
  have htake : ∀ l, exact.takestring l = some l := fun _ => rfl
  have hscan := endsEscaping_scanTo (m := .braced flag) (chr '\x7d') rfl
    (fun c => (rfl : Mode.next t.varLookupn (.braced flag) c = _)) i
  rw [hscan]
  simp only [Expand.expandBracedVariable, exact_foldlM, htake, Option.bind_eq_bind,
    Option.bind_some]
  cases t.env.varLookup () (exact.newSized 16 ++ (scanTo (chr '\x7d') i).1) with
  | none => exact ⟨_, sb, rfl, rfl⟩
  | some val => exact ⟨_, sb ++ val, rfl, rfl⟩

theorem expandVariable_ends (sb i : Str) (flag : QuoteFlag) (hi : i.head? ≠ some (chr '(')) :
    ∃ r sb', Expand.expandVariable exact t.env i () sb = some (r, sb') ∧
      (Mode.dollar flag).endsEscaping t.varLookupn i =
        (Mode.text flag).endsEscaping t.varLookupn r := by
  cases i with
  | nil => exact ⟨[], sb, rfl, rfl⟩
  | cons c i =>
    have hparen : c ≠ chr '(' := fun h => hi (congrArg some h)
    rw [endsEscaping_cons, Mode.next, if_neg hparen, Expand.expandVariable]
    by_cases hbrace : c = chr '\x7b'
    · rw [if_pos hbrace, if_pos hbrace]
      exact expandBracedVariable_ends sb i flag
    · rw [if_neg hbrace, if_neg hbrace]
      exact expandLooseLoop_ends sb (c :: i) [] flag

theorem expandDollarsign_ends (sb i : Str) (flag : QuoteFlag) :
    ∃ r sb', Expand.expandDollarsign exact t.env i () sb = some (r, sb', ()) ∧
      (Mode.dollar flag).endsEscaping t.varLookupn i =
        (Mode.text flag).endsEscaping t.varLookupn r := by
  by_cases hparen : i.head? = some (chr '(')
  · obtain ⟨i, rfl⟩ : ∃ i', i = chr '(' :: i' := by
      cases i with
      | nil => cases hparen
      | cons c i => exact ⟨i, by rw [Option.some.inj hparen]⟩
    have hends : (Mode.cmdsub flag).endsEscaping t.varLookupn i =
        (Mode.text flag).endsEscaping t.varLookupn ((scanTo (chr ')') i).2.getD []) :=
      endsEscaping_scanTo _ rfl (fun _ => rfl) i
    have hdollar : (Mode.dollar flag).endsEscaping t.varLookupn (chr '(' :: i) =
        (Mode.cmdsub flag).endsEscaping t.varLookupn i := rfl
    have hlist : Expand.expandDollarsign exact t.env (chr '(' :: i) () sb =
        Expand.expandCmdsub exact t.env i () sb := rfl
    rw [hdollar, hends, hlist, Expand.expandCmdsub]
    rcases hscan : scanTo (chr ')') i with ⟨body, _ | rest⟩
    · exact ⟨[], sb, rfl, rfl⟩
    · exact ⟨rest, sb ++ t.captureListOutput body, rfl, rfl⟩
  · obtain ⟨r, sb', hrun, hends⟩ := expandVariable_ends (t := t) sb i flag hparen
    refine ⟨r, sb', ?_, hends⟩
    cases i with
    | nil => rw [Expand.expandDollarsign, hrun]; rfl
    | cons c i =>
      have hc : c ≠ chr '(' := fun h => hparen (congrArg some h)
      rw [Expand.expandDollarsign, if_neg hc, hrun]
      rfl

/-! ## Where the word ends -/

/-- What a round over the list makes of it: how the rest ends is how it ends itself,
or there is nothing behind a backslash. -/
inductive Ends (t : Surroundings) (flag : QuoteFlag) (l : Str) :
    WordState Str Unit ⊕ Option (Str × Unit) → Prop
  | on {r : Str} {flag' : QuoteFlag} (sb : Str)
      (h : (Mode.text flag).endsEscaping t.varLookupn l =
        (Mode.text flag').endsEscaping t.varLookupn r) :
    Ends t flag l (.inl ⟨r, flag', sb, ()⟩)
  | past (h : (Mode.text flag).endsEscaping t.varLookupn l = true) : Ends t flag l (.inr none)

theorem dollarOne_ends {l : Str} (sb : Str) {i : Str}
    (h : (Mode.text flag).endsEscaping t.varLookupn l =
      (Mode.dollar flag).endsEscaping t.varLookupn i) :
    Ends t flag l (Expand.goOn (Expand.dollarOne exact t.env ⟨l, flag, sb, ()⟩ i)) := by
  obtain ⟨r, sb', hrun, hends⟩ := expandDollarsign_ends (t := t) sb i flag
  simp only [Expand.dollarOne, hrun, Option.map_some, Expand.goOn]
  exact .on sb' (h.trans hends)

theorem escapeOne_ends {l : Str} (sb : Str) {i : Str}
    (h : (Mode.text flag).endsEscaping t.varLookupn l =
      (Mode.escape flag).endsEscaping t.varLookupn i) :
    Ends t flag l (Expand.goOn (Expand.escapeOne exact ⟨l, flag, sb, ()⟩ i)) := by
  cases i with
  | nil => exact .past h
  | cons c i => exact .on (sb ++ [c]) h

theorem expandBody_ends (len : Nat) (flag : QuoteFlag) (sb : Str) (c : UInt8) (i : Str) :
    Ends t flag (c :: i) (expandBody exact t.env len ⟨c :: i, flag, sb, ()⟩) := by
  have append : Expand.goOn (appendOne exact (⟨c :: i, flag, sb, ()⟩ : WordState Str Unit)
      c i) = .inl ⟨i, flag, sb ++ [c], ()⟩ := rfl
  have tilde : Expand.goOn (tildeOne exact t.env ⟨c :: i, flag, sb, ()⟩ i) =
      .inl ⟨i, flag, expandTilde t sb, ()⟩ := by
    simp only [tildeOne, expandTilde_eq, Option.map_some, Expand.goOn]
  have next : (Mode.text flag).endsEscaping t.varLookupn (c :: i) = _ :=
    endsEscaping_cons (.text flag) c i
  cases flag with
  | unquoted =>
    simp only [Mode.next] at next
    simp only [expandBody]
    by_cases htilde : c = chr '~'
    · have hmode : (Mode.text .unquoted).endsEscaping t.varLookupn (c :: i) =
          (Mode.text .unquoted).endsEscaping t.varLookupn i := by rw [htilde]; rfl
      rw [if_pos htilde, tilde, append]
      split
      · exact .on _ hmode
      · exact .on _ hmode
    rw [if_neg htilde]
    by_cases hdollar : c = chr '$'
    · rw [if_pos hdollar] at next ⊢
      exact dollarOne_ends sb next
    rw [if_neg hdollar] at next ⊢
    by_cases hescape : c = chr '\\'
    · rw [if_pos hescape] at next ⊢
      exact escapeOne_ends sb next
    rw [if_neg hescape] at next ⊢
    by_cases hsingle : c = chr '\''
    · rw [if_pos hsingle] at next ⊢
      exact .on sb next
    rw [if_neg hsingle] at next ⊢
    by_cases hdouble : c = chr '"'
    · rw [if_pos hdouble] at next ⊢
      exact .on sb next
    rw [if_neg hdouble] at next ⊢
    exact .on (sb ++ [c]) next
  | singleQuoted =>
    simp only [Mode.next] at next
    simp only [expandBody]
    by_cases hsingle : c = chr '\''
    · rw [if_pos hsingle] at next ⊢
      exact .on sb next
    rw [if_neg hsingle] at next ⊢
    exact .on (sb ++ [c]) next
  | doubleQuoted =>
    simp only [Mode.next] at next
    simp only [expandBody]
    by_cases hdouble : c = chr '"'
    · rw [if_pos hdouble] at next ⊢
      exact .on sb next
    rw [if_neg hdouble] at next ⊢
    by_cases hescape : c = chr '\\'
    · rw [if_pos hescape] at next ⊢
      exact escapeOne_ends sb next
    rw [if_neg hescape] at next ⊢
    by_cases hdollar : c = chr '$'
    · rw [if_pos hdollar] at next ⊢
      exact dollarOne_ends sb next
    rw [if_neg hdollar] at next ⊢
    exact .on (sb ++ [c]) next

/-- Only an escape at the end keeps the expansion from a result. -/
theorem expandFrom_isNone (len : Nat) (i : Str) (flag : QuoteFlag) (sb : Str) :
    (expandFrom exact t.env len ⟨i, flag, sb, ()⟩).isNone =
      (Mode.text flag).endsEscaping t.varLookupn i := by
  induction hn : i.length using Nat.strong_induction_on generalizing i flag sb with
  | _ n ih =>
    cases i with
    | nil =>
      rw [expandFrom_nil]
      rfl
    | cons c i =>
      generalize hround : expandBody exact t.env len ⟨c :: i, flag, sb, ()⟩ = r
      have hends := expandBody_ends (t := t) len flag sb c i
      rw [hround] at hends
      cases hends with
      | @on r flag' sb' hrest =>
        have hlt : r.length < (c :: i).length := expandBody_decreasing exact t.env len _ _ hround
        rw [expandFrom_of_inl hround, hrest]
        exact ih r.length (hn ▸ hlt) r flag' sb' rfl
      | past hend =>
        rw [expandFrom, Loop.exec_of_inr _ hround, hend]
        rfl

/-- **The cursor ends at the NUL unless the word ends in an unescaped backslash.** -/
theorem expandWordAt_ends_iff (t : Surroundings) {word : Str} (hword : NulFree word) :
    (∃ result, expandWordAt t word = some (result, word.length)) ↔
      endsEscaping t.varLookupn word = false := by
  have hnone := expandFrom_isNone (t := t) word.length word .unquoted []
  rw [expandWordAt_eq t hword]
  rw [endsEscaping, ← hnone, Option.isNone_eq_false_iff]
  have hrun : expandWord exact t.env word () =
    expandFrom exact t.env word.length ⟨word, .unquoted, [], ()⟩ := rfl
  rw [hrun]
  cases expandFrom exact t.env word.length ⟨word, .unquoted, [], ()⟩ with
  | none => simp
  | some r => simp

/-- `a\\b`, where the backslash has a byte to escape. -/
theorem expandWordAt_ends_escape :
    let t : Surroundings := ⟨fun _ => none, fun _ _ => none, fun _ => []⟩
    ∃ result, expandWordAt t (str "a\\b") = some (result, 3) :=
  (expandWordAt_ends_iff ⟨fun _ => none, fun _ _ => none, fun _ => []⟩ (by decide)).mpr rfl

/-- The line `a\\` is one word, and its expansion reads behind the NUL. -/
theorem expandWordAt_reads_past :
    (∀ beyond, LexesAs beyond (str "a\\") (str "a\\")) ∧
      ∀ t, expandWordAt t (str "a\\") = none := by
  constructor
  · intro beyond
    have hbegins : Begins (str "a\\") := fun c hc => by
      obtain rfl : chr 'a' = c := Option.some.inj hc
      exact ⟨rfl, rfl⟩
    have hwhole : Whole ⟨.word, [], 0⟩ := ⟨rfl, onlyBlanks_nil, Nat.le_refl 0⟩
    exact lexesAs_of_whole rfl hbegins (List.all_iff_forall_prop.mp rfl) hwhole
  · intro t
    have hword : NulFree (str "a\\") := by decide
    rw [expandWordAt_eq t hword, Option.map_eq_none_iff, ← Option.isNone_iff_eq_none]
    exact (expandFrom_isNone 2 (str "a\\") .unquoted []).trans rfl

end Shell.ExpandCursor
