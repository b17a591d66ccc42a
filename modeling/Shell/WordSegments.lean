import Shell.ExpandQuoting

/-! # Words made of segments (expand_word in expand.c)

A word is a row of plain characters, escapes, quoted texts and braced variables.
`expand_word` reads one segment after the other: each is read to its end, back
into the unquoted state, whatever the values of the variables hold. -/
namespace Shell.Expand
open Shell.CTypes Shell.Lib
open Shell.Lexer (QuoteFlag)

/-- A name that can stand between braces. -/
structure BracedName where
  name : Str
  nulFree : NulFree name
  noBrace : chr '\x7d' ∉ name

/-- `${NAME}`. -/
def BracedName.text (n : BracedName) : Str := chr '$' :: chr '\x7b' :: (n.name ++ [chr '\x7d'])

/-- The value of the variable, or nothing. -/
def BracedName.value (lookup : Str → Option Str) (n : BracedName) : Str :=
  (lookup n.name).getD []

/-- A piece of a text between double quotes. -/
inductive Inner
  | plain (c : UInt8) (h : c ∉ [0, chr '"', chr '\\', chr '$'])
  | escaped (c : UInt8) (h : c ≠ 0)
  | braced (n : BracedName)

def Inner.text : Inner → Str
  | .plain c _ => [c]
  | .escaped c _ => [chr '\\', c]
  | .braced n => n.text

def Inner.value (lookup : Str → Option Str) : Inner → Str
  | .plain c _ => [c]
  | .escaped c _ => [c]
  | .braced n => n.value lookup

inductive Segment
  | plain (c : UInt8) (h : c ∉ [0, chr '$', chr '\\', chr '\'', chr '"'])
  | escaped (c : UInt8) (h : c ≠ 0)
  | single (l : Str) (h : NulFree l ∧ chr '\'' ∉ l)
  | braced (n : BracedName)
  | double (l : List Inner)

def Segment.text : Segment → Str
  | .plain c _ => [c]
  | .escaped c _ => [chr '\\', c]
  | .single l _ => chr '\'' :: (l ++ [chr '\''])
  | .braced n => n.text
  | .double l => chr '"' :: (l.flatMap Inner.text ++ [chr '"'])

/-- What a segment stands for, were it not at the front of the word. -/
def Segment.value (lookup : Str → Option Str) : Segment → Str
  | .plain c _ => [c]
  | .escaped c _ => [c]
  | .single l _ => l
  | .braced n => n.value lookup
  | .double l => l.flatMap (Inner.value lookup)

def wordText (segments : List Segment) : Str := segments.flatMap Segment.text

/-- A plain `~` stands for the value of HOME at the front of the word, and for
itself elsewhere. -/
def wordValue (lookup : Str → Option Str) : List Segment → Str
  | [] => []
  | segment :: segments =>
    (if segment.text = str "~" then (lookup (str "HOME")).getD [] else segment.value lookup) ++
      segments.flatMap (Segment.value lookup)

/-! ## One segment -/

variable {σ : Type} {env : Env σ} {len : Nat} {flag : QuoteFlag} {s : σ}

/-- In one round `c` is read off `e`, in front of `i`, and appended. -/
theorem expandFrom_append {e i : Str} {c : UInt8} {sb : Str}
    (h : expandBody exact env len ⟨e, flag, sb, s⟩ =
      goOn (appendOne exact ⟨e, flag, sb, s⟩ c i)) :
    expandFrom exact env len ⟨e, flag, sb, s⟩ =
      expandFrom exact env len ⟨i, flag, sb ++ [c], s⟩ :=
  expandFrom_of_inl h

theorem expandBracedVariable_exact (n : BracedName) (i sb : Str) :
    expandBracedVariable exact env (n.name ++ chr '\x7d' :: i) s sb =
      some (i, sb ++ n.value (env.varLookup s)) := by
  have htake : exact.takestring n.name = some n.name := rfl
  have hnew : exact.newSized 16 = [] := rfl
  rw [expandBracedVariable, scanTo_append n.noBrace]
  simp only [exact_foldlM, hnew, List.nil_append, Option.bind_eq_bind, Option.bind_some, htake,
    Option.getD_some, BracedName.value]
  cases env.varLookup s n.name with
  | none =>
    rw [Option.getD_none, List.append_nil]
    rfl
  | some value => rfl

/-- A braced variable, outside of single quotes. -/
theorem expandFrom_braced (n : BracedName) (hflag : flag ≠ .singleQuoted) (i sb : Str) :
    expandFrom exact env len ⟨n.text ++ i, flag, sb, s⟩ =
      expandFrom exact env len ⟨i, flag, sb ++ n.value (env.varLookup s), s⟩ := by
  have htext : n.text ++ i = chr '$' :: chr '\x7b' :: (n.name ++ chr '\x7d' :: i) := by
    simp [BracedName.text]
  have hdollar : dollarOne exact env ⟨n.text ++ i, flag, sb, s⟩
      (chr '\x7b' :: (n.name ++ chr '\x7d' :: i)) =
      some ⟨i, flag, sb ++ n.value (env.varLookup s), s⟩ := by
    have hvariable : expandDollarsign exact env (chr '\x7b' :: (n.name ++ chr '\x7d' :: i)) s sb =
        (expandBracedVariable exact env (n.name ++ chr '\x7d' :: i) s sb).map
          fun r => (r.1, r.2, s) := rfl
    rw [dollarOne, hvariable, expandBracedVariable_exact]
    rfl
  refine expandFrom_of_inl ?_
  rw [htext] at hdollar ⊢
  cases flag with
  | unquoted =>
    exact congrArg goOn hdollar
  | singleQuoted => exact absurd rfl hflag
  | doubleQuoted => exact congrArg goOn hdollar

theorem expandFrom_inner (x : Inner) (i sb : Str) :
    expandFrom exact env len ⟨x.text ++ i, .doubleQuoted, sb, s⟩ =
      expandFrom exact env len ⟨i, .doubleQuoted, sb ++ x.value (env.varLookup s), s⟩ := by
  cases x with
  | plain c h =>
    refine expandFrom_append (spells_double (c := c) ?_ sb i)
    exact fun hmem => h (List.mem_cons_of_mem _ hmem)
  | escaped c h => exact expandFrom_append (spells_double_escape c sb i)
  | braced n => exact expandFrom_braced n (by decide) i sb

theorem expandFrom_inners (l : List Inner) (i sb : Str) :
    expandFrom exact env len ⟨l.flatMap Inner.text ++ i, .doubleQuoted, sb, s⟩ =
      expandFrom exact env len
        ⟨i, .doubleQuoted, sb ++ l.flatMap (Inner.value (env.varLookup s)), s⟩ := by
  induction l generalizing sb with
  | nil => simp
  | cons x l ih =>
    rw [List.flatMap_cons, List.append_assoc, expandFrom_inner, ih, List.flatMap_cons,
      List.append_assoc]

/-- A text between single quotes. -/
theorem expandFrom_single {l : Str} (h : chr '\'' ∉ l) (i sb : Str) :
    expandFrom exact env len ⟨chr '\'' :: (l ++ chr '\'' :: i), .unquoted, sb, s⟩ =
      expandFrom exact env len ⟨i, .unquoted, sb ++ l, s⟩ := by
  have hopen : expandFrom exact env len ⟨chr '\'' :: (l ++ chr '\'' :: i), .unquoted, sb, s⟩ =
      expandFrom exact env len ⟨l ++ chr '\'' :: i, .singleQuoted, sb, s⟩ :=
    expandFrom_of_inl rfl
  have hclose : expandFrom exact env len ⟨chr '\'' :: i, .singleQuoted, sb ++ l, s⟩ =
      expandFrom exact env len ⟨i, .unquoted, sb ++ l, s⟩ :=
    expandFrom_of_inl rfl
  have htext := @expandFrom_spelled _ σ exact env len .singleQuoted s (fun c => [c]) l
    (fun c hc => spells_single fun he => h (he ▸ hc)) (chr '\'' :: i) sb
  rw [List.flatMap_singleton', exact_foldlM] at htext
  rw [hopen, htext, Option.bind_some, hclose]

/-- Any segment, a `~` at the front of the word apart. -/
theorem expandFrom_segment (x : Segment) (i sb : Str)
    (h : x.text = str "~" → i.length + 1 ≠ len) :
    expandFrom exact env len ⟨x.text ++ i, .unquoted, sb, s⟩ =
      expandFrom exact env len ⟨i, .unquoted, sb ++ x.value (env.varLookup s), s⟩ := by
  cases x with
  | plain c hc =>
    refine expandFrom_append ?_
    by_cases htilde : c = chr '~'
    · have hlen : i.length + 1 ≠ len := h (by rw [Segment.text, htilde]; rfl)
      simp only [Segment.text, List.cons_append, List.nil_append, expandBody, htilde, if_true,
        hlen, if_false]
    · refine spells_plain ?_ sb i
      simp only [List.mem_cons, not_or] at hc ⊢
      exact ⟨htilde, hc.2⟩
  | escaped c hc => exact expandFrom_append (spells_escape c sb i)
  | single l hl =>
    have htext : (Segment.single l hl).text ++ i = chr '\'' :: (l ++ chr '\'' :: i) := by
      simp [Segment.text]
    rw [htext, expandFrom_single hl.2]
    rfl
  | braced n => exact expandFrom_braced n (by decide) i sb
  | double l =>
    have htext : (Segment.double l).text ++ i =
        chr '"' :: (l.flatMap Inner.text ++ chr '"' :: i) := by
      simp [Segment.text]
    have hopen : expandFrom exact env len
        ⟨chr '"' :: (l.flatMap Inner.text ++ chr '"' :: i), .unquoted, sb, s⟩ =
        expandFrom exact env len ⟨l.flatMap Inner.text ++ chr '"' :: i, .doubleQuoted, sb, s⟩ :=
      expandFrom_of_inl rfl
    rw [htext, hopen, expandFrom_inners]
    exact expandFrom_of_inl rfl

theorem expandFrom_tilde (i sb : Str) :
    expandFrom exact env (i.length + 1) ⟨chr '~' :: i, .unquoted, sb, s⟩ =
      expandFrom exact env (i.length + 1)
        ⟨i, .unquoted, sb ++ (env.varLookup s (str "HOME")).getD [], s⟩ := by
  have htilde : tildeOne exact env ⟨chr '~' :: i, .unquoted, sb, s⟩ i =
      some ⟨i, .unquoted, sb ++ (env.varLookup s (str "HOME")).getD [], s⟩ := by
    simp only [tildeOne, expandTilde]
    cases env.varLookup s (str "HOME") with
    | none =>
      rw [Option.getD_none, List.append_nil]
      rfl
    | some value => rfl
  refine expandFrom_of_inl ?_
  simp only [expandBody, if_true, htilde, goOn]

/-! ## The word -/

theorem Segment.length_text_pos (x : Segment) : 0 < x.text.length := by
  cases x <;> exact Nat.succ_pos _

/-- The segments behind the first. -/
theorem expandFrom_segments (segments : List Segment) (sb : Str)
    (h : (wordText segments).length < len) :
    expandFrom exact env len ⟨wordText segments, .unquoted, sb, s⟩ =
      some (sb ++ segments.flatMap (Segment.value (env.varLookup s)), s) := by
  induction segments generalizing sb with
  | nil =>
    rw [List.flatMap_nil, List.append_nil]
    exact expandFrom_nil sb
  | cons x segments ih =>
    have htext : wordText (x :: segments) = x.text ++ wordText segments := List.flatMap_cons
    rw [htext, List.length_append] at h
    rw [htext, expandFrom_segment x _ sb, ih, List.flatMap_cons, List.append_assoc]
    · exact Nat.lt_of_le_of_lt (Nat.le_add_left _ _) h
    · intro htilde
      rw [htilde] at h
      have hone : (str "~").length = 1 := rfl
      omega

/-- **A word expands to the values of its segments.** -/
theorem expandWord_segments (env : Env σ) (s : σ) (segments : List Segment) :
    expandWord exact env (wordText segments) s =
      some (wordValue (env.varLookup s) segments, s) := by
  rw [expandWord_eq]
  cases segments with
  | nil => exact expandFrom_nil _
  | cons x segments =>
    have htext : wordText (x :: segments) = x.text ++ wordText segments := List.flatMap_cons
    have hnew : exact.newSized (wordText (x :: segments)).length = [] := rfl
    rw [hnew, wordValue, htext]
    by_cases htilde : x.text = str "~"
    · rw [htilde, if_pos rfl, List.length_append, Nat.add_comm]
      refine (expandFrom_tilde _ _).trans ?_
      rw [expandFrom_segments segments _ (Nat.lt_succ_self _), List.nil_append]
    · rw [if_neg htilde, expandFrom_segment x _ _ fun h => absurd h htilde, expandFrom_segments]
      · rfl
      · have hpos := Segment.length_text_pos x
        rw [List.length_append]
        omega

end Shell.Expand
