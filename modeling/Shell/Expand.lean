import Shell.Lexer
import Shell.Stringbuilder

/-! # Word expansion (expand.c)

A cursor into a C string is what is left of the string; `[]` is the NUL. The
expander is written over a string builder: `exact` appends exactly, `heap` is
the builder of stringbuilder.c, where a write outside of the block and a
missing NUL are `none`, as is a cursor moved past the NUL. Variables and command
substitution come from an environment with a state of its own. -/
namespace Shell.Expand
open Shell.CTypes Shell.Lib Shell.Stringbuilder
open Shell.Lexer (QuoteFlag)

/-! ## Builders -/

structure Builder (β : Type) where
  newSized : Nat → β
  appends : β → Str → Option β
  appendc : β → UInt8 → Option β
  /-- The first bytes of `sb->str`, for `var_lookupn`. -/
  firstn : β → Nat → Str
  takestring : β → Option Str

def exact : Builder Str where
  newSized _ := []
  appends sb s := some (sb ++ s)
  appendc sb c := some (sb ++ [c])
  firstn sb n := sb.take n
  takestring sb := some sb

def inBlock (o : Outcome) : Option StringBuilder :=
  if ∀ i ∈ o.writes, i < o.sb.capacity then some o.sb else none

def heap (garbage : Cells) : Builder StringBuilder where
  newSized n := sbNewSized n garbage
  appends sb s := (sbAppends garbage sb s).bind inBlock
  appendc sb c := inBlock (sbAppendc garbage sb c)
  firstn sb n := (List.range n).map sb.str
  takestring sb := cstr sb

/-! ## Variables and substitutions -/

/-- The shell's variables, in a state of any type. -/
structure Vars (σ : Type) where
  varLookup : σ → Str → Option Str
  varLookupn : σ → Str → Nat → Option Str
  varAssign : σ → Str → Str → σ
  /-- What the two blocks of `assignment_split` hold when they are new. -/
  fresh : σ → Cells × Cells

structure Env (σ : Type) extends Vars σ where
  /-- `lex_and_parse` of the text and `capture_list_output` of the list. -/
  cmdsub : Str → σ → Option (Str × σ)

variable {β σ : Type}

def expandTilde (b : Builder β) (env : Env σ) (s : σ) (sb : β) : Option β :=
  match env.varLookup s (str "HOME") with
  | some value => b.appends sb value
  | none => some sb

/-- What stands in front of the byte `stop`, and what behind it. -/
def scanTo (stop : UInt8) : Str → Str × Option Str
  | [] => ([], none)
  | c :: i =>
    if c = stop then ([], some i) else (c :: (scanTo stop i).1, (scanTo stop i).2)

def expandBracedVariable (b : Builder β) (env : Env σ) (i : Str) (s : σ) (sb : β) :
    Option (Str × β) := do
  let (name, rest) := scanTo (chr '\x7d') i
  let tmp ← name.foldlM b.appendc (b.newSized 16)
  let varname ← b.takestring tmp
  let i := rest.getD []
  match env.varLookup s varname with
  | some val => return (i, ← b.appends sb val)
  | none => return (i, sb)

/-- The loop of `expand_loose_variable`: the shortest prefix that is a variable. -/
def expandLooseLoop (b : Builder β) (env : Env σ) (s : σ) (sb : β) :
    Str → β → Nat → Option (Str × β)
  | [], _, _ => some ([], sb)
  | c :: i, tmp, count =>
    if c = chr ' ' then some (c :: i, sb)
    else do
      let tmp ← b.appendc tmp c
      match env.varLookupn s (b.firstn tmp (count + 1)) (count + 1) with
      | some val => return (i, ← b.appends sb val)
      | none => expandLooseLoop b env s sb i tmp (count + 1)

def expandLooseVariable (b : Builder β) (env : Env σ) (i : Str) (s : σ) (sb : β) :
    Option (Str × β) :=
  expandLooseLoop b env s sb i (b.newSized 16) 0

/-- `expand_variable`, from behind the dollar sign on. -/
def expandVariable (b : Builder β) (env : Env σ) (i : Str) (s : σ) (sb : β) : Option (Str × β) :=
  match i with
  | [] => expandLooseVariable b env [] s sb
  | c :: rest =>
    if c = chr '\x7b' then expandBracedVariable b env rest s sb
    else expandLooseVariable b env (c :: rest) s sb

/-- `expand_cmdsub`, from behind `$(` on. Without a `)` nothing is substituted. -/
def expandCmdsub (b : Builder β) (env : Env σ) (i : Str) (s : σ) (sb : β) :
    Option (Str × β × σ) :=
  match scanTo (chr ')') i with
  | (_, none) => some ([], sb, s)
  | (body, some rest) => do
    let (result, s) ← env.cmdsub body s
    return (rest, ← b.appends sb result, s)

/-- `expand_dollarsign`, from behind the dollar sign on. -/
def expandDollarsign (b : Builder β) (env : Env σ) (i : Str) (s : σ) (sb : β) :
    Option (Str × β × σ) :=
  match i with
  | [] => (expandVariable b env [] s sb).map fun r => (r.1, r.2, s)
  | c :: rest =>
    if c = chr '(' then expandCmdsub b env rest s sb
    else (expandVariable b env (c :: rest) s sb).map fun r => (r.1, r.2, s)

/-! ## Words -/

structure WordState (β σ : Type) where
  i : Str
  flag : QuoteFlag
  sb : β
  s : σ

/-- The next round, or undefined behaviour. -/
def goOn (w : Option (WordState β σ)) : WordState β σ ⊕ Option (Str × σ) :=
  match w with
  | some w => .inl w
  | none => .inr none

def appendOne (b : Builder β) (w : WordState β σ) (c : UInt8) (i : Str) :
    Option (WordState β σ) :=
  (b.appendc w.sb c).map fun sb => { w with i := i, sb := sb }

/-- A backslash: the byte behind it is appended, and behind the last byte of the
string the cursor leaves it. -/
def escapeOne (b : Builder β) (w : WordState β σ) (i : Str) : Option (WordState β σ) :=
  match i with
  | [] => none
  | c :: i => appendOne b w c i

def dollarOne (b : Builder β) (env : Env σ) (w : WordState β σ) (i : Str) :
    Option (WordState β σ) :=
  (expandDollarsign b env i w.s w.sb).map fun r => { w with i := r.1, sb := r.2.1, s := r.2.2 }

def tildeOne (b : Builder β) (env : Env σ) (w : WordState β σ) (i : Str) :
    Option (WordState β σ) :=
  (expandTilde b env w.s w.sb).map fun sb => { w with i := i, sb := sb }

/-- One round of the loop of `expand_word` on a word of `len` bytes. -/
def expandBody (b : Builder β) (env : Env σ) (len : Nat) (w : WordState β σ) :
    WordState β σ ⊕ Option (Str × σ) :=
  match w.i with
  | [] => .inr ((b.takestring w.sb).map fun result => (result, w.s))
  | c :: i =>
    match w.flag with
    | .unquoted =>
      if c = chr '~' then
        if i.length + 1 = len then goOn (tildeOne b env w i) else goOn (appendOne b w c i)
      else if c = chr '$' then goOn (dollarOne b env w i)
      else if c = chr '\\' then goOn (escapeOne b w i)
      else if c = chr '\'' then .inl { w with i := i, flag := .singleQuoted }
      else if c = chr '"' then .inl { w with i := i, flag := .doubleQuoted }
      else goOn (appendOne b w c i)
    | .singleQuoted =>
      if c = chr '\'' then .inl { w with i := i, flag := .unquoted }
      else goOn (appendOne b w c i)
    | .doubleQuoted =>
      if c = chr '"' then .inl { w with i := i, flag := .unquoted }
      else if c = chr '\\' then goOn (escapeOne b w i)
      else if c = chr '$' then goOn (dollarOne b env w i)
      else goOn (appendOne b w c i)

theorem scanTo_append {stop : UInt8} {name value : Str} (h : stop ∉ name) :
    scanTo stop (name ++ stop :: value) = (name, some value) := by
  induction name with
  | nil => rw [List.nil_append, scanTo, if_pos rfl]
  | cons c name ih =>
    have hc : c ≠ stop := fun heq => h (heq ▸ List.mem_cons_self)
    rw [List.cons_append, scanTo, if_neg hc, ih fun hmem => h (List.mem_cons_of_mem _ hmem)]

theorem length_scanTo {stop : UInt8} {i rest : Str} (h : (scanTo stop i).2 = some rest) :
    rest.length ≤ i.length := by
  induction i with
  | nil => cases h
  | cons c i ih =>
    simp only [scanTo] at h
    split at h
    · cases h
      exact Nat.le_succ _
    · exact Nat.le_succ_of_le (ih h)

theorem length_expandLooseLoop {b : Builder β} {env : Env σ} {s : σ} {sb : β} {i : Str} {tmp : β}
    {count : Nat} {r : Str × β} (h : expandLooseLoop b env s sb i tmp count = some r) :
    r.1.length ≤ i.length := by
  induction i generalizing tmp count with
  | nil =>
    cases h
    exact Nat.le_refl _
  | cons c i ih =>
    simp only [expandLooseLoop] at h
    split at h
    · cases h
      exact Nat.le_refl _
    · obtain ⟨tmp', -, h⟩ := Option.bind_eq_some_iff.mp h
      split at h
      · obtain ⟨sb', -, h⟩ := Option.bind_eq_some_iff.mp h
        cases h
        exact Nat.le_succ _
      · exact Nat.le_succ_of_le (ih h)

theorem length_expandBracedVariable {b : Builder β} {env : Env σ} {i : Str} {s : σ} {sb : β}
    {r : Str × β} (h : expandBracedVariable b env i s sb = some r) : r.1.length ≤ i.length := by
  have hrest : ((scanTo (chr '\x7d') i).2.getD []).length ≤ i.length := by
    cases hscan : (scanTo (chr '\x7d') i).2 with
    | none => exact Nat.zero_le _
    | some rest => exact length_scanTo hscan
  obtain ⟨tmp, -, h⟩ := Option.bind_eq_some_iff.mp h
  obtain ⟨varname, -, h⟩ := Option.bind_eq_some_iff.mp h
  split at h
  · obtain ⟨sb', -, h⟩ := Option.bind_eq_some_iff.mp h
    cases h
    exact hrest
  · cases h
    exact hrest

theorem length_expandVariable {b : Builder β} {env : Env σ} {i : Str} {s : σ} {sb : β}
    {r : Str × β} (h : expandVariable b env i s sb = some r) : r.1.length ≤ i.length := by
  unfold expandVariable at h
  split at h
  · exact length_expandLooseLoop h
  · split at h
    · exact Nat.le_succ_of_le (length_expandBracedVariable h)
    · exact length_expandLooseLoop h

theorem length_expandCmdsub {b : Builder β} {env : Env σ} {i : Str} {s : σ} {sb : β}
    {r : Str × β × σ} (h : expandCmdsub b env i s sb = some r) : r.1.length ≤ i.length := by
  unfold expandCmdsub at h
  split at h
  · cases h
    exact Nat.zero_le _
  · rename_i body rest hscan
    obtain ⟨out, -, h⟩ := Option.bind_eq_some_iff.mp h
    obtain ⟨sb', -, h⟩ := Option.bind_eq_some_iff.mp h
    cases h
    exact length_scanTo (by rw [hscan])

theorem length_expandDollarsign {b : Builder β} {env : Env σ} {i : Str} {s : σ} {sb : β}
    {r : Str × β × σ} (h : expandDollarsign b env i s sb = some r) : r.1.length ≤ i.length := by
  unfold expandDollarsign at h
  split at h
  · obtain ⟨r', hr, rfl⟩ := Option.map_eq_some_iff.mp h
    exact length_expandVariable (r := r') hr
  · split at h
    · exact Nat.le_succ_of_le (length_expandCmdsub h)
    · obtain ⟨r', hr, rfl⟩ := Option.map_eq_some_iff.mp h
      exact length_expandVariable (r := r') hr

theorem goOn_inl {w : Option (WordState β σ)} {w' : WordState β σ} (h : goOn w = .inl w') :
    w = some w' := by
  cases w with
  | none => cases h
  | some w => cases h; rfl

theorem expandBody_decreasing (b : Builder β) (env : Env σ) (len : Nat) :
    Loop.Decreasing (expandBody b env len) fun w => w.i.length := by
  intro w w' h
  cases hi : w.i with
  | nil => simp [expandBody, hi] at h
  | cons c i =>
    have append : ∀ {c'}, goOn (appendOne b w c' i) = .inl w' → w'.i.length < (c :: i).length := by
      intro c' h
      obtain ⟨sb, -, rfl⟩ := Option.map_eq_some_iff.mp (goOn_inl h)
      exact Nat.lt_succ_self _
    have escape : goOn (escapeOne b w i) = .inl w' → w'.i.length < (c :: i).length := by
      intro h
      cases i with
      | nil => cases h
      | cons c' i =>
        obtain ⟨sb, -, rfl⟩ := Option.map_eq_some_iff.mp (goOn_inl h)
        exact Nat.lt_succ_of_lt (Nat.lt_succ_self _)
    have dollar : goOn (dollarOne b env w i) = .inl w' → w'.i.length < (c :: i).length := by
      intro h
      obtain ⟨r, hr, rfl⟩ := Option.map_eq_some_iff.mp (goOn_inl h)
      exact Nat.lt_succ_of_le (length_expandDollarsign hr)
    have tilde : goOn (tildeOne b env w i) = .inl w' → w'.i.length < (c :: i).length := by
      intro h
      obtain ⟨sb, -, rfl⟩ := Option.map_eq_some_iff.mp (goOn_inl h)
      exact Nat.lt_succ_self _
    have quote : ∀ {flag}, (.inl { w with i := i, flag := flag } : _ ⊕ Option (Str × σ)) = .inl w' →
        w'.i.length < (c :: i).length := by
      intro flag h
      cases h
      exact Nat.lt_succ_self _
    simp only [expandBody, hi] at h
    show w'.i.length < w.i.length
    rw [hi]
    split at h
    · split at h
      · split at h
        · exact tilde h
        · exact append h
      split at h
      · exact dollar h
      split at h
      · exact escape h
      split at h
      · exact quote h
      split at h
      · exact quote h
      · exact append h
    · split at h
      · exact quote h
      · exact append h
    · split at h
      · exact quote h
      split at h
      · exact escape h
      split at h
      · exact dollar h
      · exact append h

/-- The expansion and the state behind it. -/
def expandWord (b : Builder β) (env : Env σ) (word : Str) (s : σ) : Option (Str × σ) :=
  Loop.exec (expandBody b env word.length) _ (expandBody_decreasing b env word.length)
    ⟨word, .unquoted, b.newSized word.length, s⟩

end Shell.Expand
