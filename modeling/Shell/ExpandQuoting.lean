import Shell.Expand
import Shell.LexerWord
import Shell.StringbuilderRuns

/-! # Quote removal

Every way of quoting writes a byte as some bytes that `expand_word` reads back
in one round. So the expansion of a quoted text is what a new builder holds
after the bytes of the text, one `appendc` each. -/
namespace Shell.Expand
open Shell.CTypes Shell.Lib Shell.Stringbuilder
open Shell.Lexer (QuoteFlag quoteByte LexesAs)

variable {β σ : Type}

/-! ## Copies -/

/-- The text in a new builder of size `n` after the bytes of `l`. -/
def Builder.copy (b : Builder β) (n : Nat) (l : Str) : Option Str :=
  (l.foldlM b.appendc (b.newSized n)).bind b.takestring

theorem exact_foldlM (l sb : Str) : l.foldlM exact.appendc sb = some (sb ++ l) := by
  induction l generalizing sb with
  | nil => rw [List.append_nil]; rfl
  | cons c l ih =>
    have hstep : (c :: l).foldlM exact.appendc sb = l.foldlM exact.appendc (sb ++ [c]) := rfl
    rw [hstep, ih, List.append_assoc]
    rfl

theorem exact_copy (n : Nat) (l : Str) : exact.copy n l = some l := by
  rw [Builder.copy, exact_foldlM]
  rfl

/-- One byte of a name without braces, with the exact builder. -/
theorem expandLooseLoop_exact {env : Env σ} {s : σ} {sb : Str} {c : UInt8} (hc : c ≠ chr ' ')
    {i name : Str} :
    expandLooseLoop exact env s sb (c :: i) name name.length =
      match env.varLookupn s (name ++ [c]) (name.length + 1) with
      | some val => some (i, sb ++ val)
      | none => expandLooseLoop exact env s sb i (name ++ [c]) (name.length + 1) := by
  have happend : exact.appendc name c = some (name ++ [c]) := rfl
  have hfirst : exact.firstn (name ++ [c]) (name.length + 1) = name ++ [c] :=
    List.take_of_length_le (by simp)
  rw [expandLooseLoop, if_neg hc]
  simp only [happend, hfirst, Option.bind_eq_bind, Option.bind_some]
  rfl

theorem inBlock_eq {o : Outcome} (h : ∀ i ∈ o.writes, i < o.sb.capacity) :
    inBlock o = some o.sb := if_pos h

theorem heap_appendc (garbage : Cells) (sb : StringBuilder) (c : UInt8) :
    (heap garbage).appendc sb c = inBlock (sbAppendc garbage sb c) := by
  simp only [heap]

/-- Appending to a builder with room keeps its text exact, and the block. -/
theorem heap_foldlM (garbage : Cells) (l : Str) {sb : StringBuilder} {text : Str}
    (h : Holds sb text) (hroom : text.length + l.length < sb.capacity) :
    ∃ sb', l.foldlM (heap garbage).appendc sb = some sb' ∧ Holds sb' (text ++ l) := by
  induction l generalizing sb text with
  | nil => exact ⟨sb, rfl, by rwa [List.append_nil]⟩
  | cons c l ih =>
    rw [List.length_cons] at hroom
    have hsize := h.size
    obtain ⟨hholds, hwrites, hcap⟩ := holds_appendc garbage c h (by omega)
    have hstep : inBlock (sbAppendc garbage sb c) = some (sbAppendc garbage sb c).sb := by
      refine inBlock_eq ?_
      rw [hwrites, hcap]
      intro i hi
      rw [List.mem_singleton.mp hi]
      omega
    obtain ⟨sb', hrun, hfinal⟩ := ih hholds (by
      rw [List.length_append, List.length_singleton, hcap]
      omega)
    refine ⟨sb', ?_, ?_⟩
    · rw [List.foldlM_cons, heap_appendc, hstep]
      exact hrun
    · rwa [List.append_assoc] at hfinal

theorem heap_copy (garbage : Cells) {n : Nat} {l : Str} (hl : NulFree l) (hlen : l.length < n)
    (hn : n < 2 ^ 63) : (heap garbage).copy n l = some l := by
  have hcap : (sbNewSized n garbage).capacity = n := if_neg (by omega)
  obtain ⟨sb, hrun, hholds⟩ := heap_foldlM garbage l (holds_new garbage hn)
    (by rw [hcap, List.length_nil]; omega)
  rw [Builder.copy, show (heap garbage).newSized n = sbNewSized n garbage from rfl, hrun]
  exact hholds.cstr hl

/-! ## The loop of `expand_word` -/

variable {b : Builder β} {env : Env σ} {len : Nat} {flag : QuoteFlag} {s : σ}

/-- The loop from a state on. -/
def expandFrom (b : Builder β) (env : Env σ) (len : Nat) (w : WordState β σ) : Option (Str × σ) :=
  Loop.exec (expandBody b env len) _ (expandBody_decreasing b env len) w

theorem expandWord_eq (word : Str) : expandWord b env word s =
    expandFrom b env word.length ⟨word, .unquoted, b.newSized word.length, s⟩ := rfl

theorem expandFrom_nil (sb : β) :
    expandFrom b env len ⟨[], flag, sb, s⟩ =
      (b.takestring sb).map fun result => (result, s) :=
  Loop.exec_of_inr _ rfl

theorem expandFrom_of_inl {w w' : WordState β σ} (h : expandBody b env len w = .inl w') :
    expandFrom b env len w = expandFrom b env len w' :=
  Loop.exec_of_inl (expandBody_decreasing b env len) h

/-- In one round `e` is read and `c` is appended. -/
def Spells (b : Builder β) (env : Env σ) (len : Nat) (flag : QuoteFlag) (s : σ) (e : Str)
    (c : UInt8) : Prop :=
  ∀ sb i, expandBody b env len ⟨e ++ i, flag, sb, s⟩ =
    goOn (appendOne b ⟨e ++ i, flag, sb, s⟩ c i)

theorem expandFrom_spelled {spell : UInt8 → Str} (l : Str)
    (h : ∀ c ∈ l, Spells b env len flag s (spell c) c) (rest : Str) (sb : β) :
    expandFrom b env len ⟨l.flatMap spell ++ rest, flag, sb, s⟩ =
      (l.foldlM b.appendc sb).bind fun sb => expandFrom b env len ⟨rest, flag, sb, s⟩ := by
  induction l generalizing sb with
  | nil => rfl
  | cons c l ih =>
    have hround := h c (by simp) sb (l.flatMap spell ++ rest)
    rw [List.flatMap_cons, List.append_assoc, List.foldlM_cons]
    cases hc : b.appendc sb c with
    | none =>
      rw [appendOne, hc] at hround
      exact Loop.exec_of_inr _ hround
    | some sb' =>
      rw [appendOne, hc] at hround
      rw [expandFrom_of_inl hround]
      exact ih (fun d hd => h d (by simp [hd])) sb'

/-- A text that is spelled out, and nothing behind it. -/
theorem expandFrom_text {spell : UInt8 → Str} (n : Nat) (l : Str)
    (h : ∀ c ∈ l, Spells b env len flag s (spell c) c) :
    expandFrom b env len ⟨l.flatMap spell, flag, b.newSized n, s⟩ =
      (b.copy n l).map fun result => (result, s) := by
  have hspelled := expandFrom_spelled l h [] (b.newSized n)
  rw [List.append_nil] at hspelled
  simp only [hspelled, expandFrom_nil, Builder.copy, Option.map_bind]
  rfl

/-- A text between quotes. -/
theorem expandWord_quoted {spell : UInt8 → Str} (hflag : flag ≠ .unquoted) (l : Str)
    (h : ∀ len, ∀ c ∈ l, Spells b env len flag s (spell c) c) :
    expandWord b env (quoteByte flag :: (l.flatMap spell ++ [quoteByte flag])) s =
      (b.copy ((l.flatMap spell).length + 2) l).map fun result => (result, s) := by
  have hopen : ∀ len sb i, expandBody b env len ⟨quoteByte flag :: i, .unquoted, sb, s⟩ =
      .inl ⟨i, flag, sb, s⟩ := by
    intro len sb i
    cases flag with
    | unquoted => exact absurd rfl hflag
    | singleQuoted => rfl
    | doubleQuoted => rfl
  have hclose : ∀ len sb, expandBody b env len ⟨[quoteByte flag], flag, sb, s⟩ =
      .inl ⟨[], .unquoted, sb, s⟩ := by
    intro len sb
    cases flag with
    | unquoted => exact absurd rfl hflag
    | singleQuoted => rfl
    | doubleQuoted => rfl
  have hlen : (quoteByte flag :: (l.flatMap spell ++ [quoteByte flag])).length =
      (l.flatMap spell).length + 2 := by simp
  rw [expandWord_eq, hlen]
  refine (expandFrom_of_inl (hopen _ _ _)).trans ?_
  rw [expandFrom_spelled l (h _)]
  simp only [expandFrom_of_inl (hclose _ _), expandFrom_nil, Builder.copy, Option.map_bind]
  rfl

/-! ## Ways to write a byte -/

theorem spells_plain {c : UInt8}
    (hc : c ∉ [chr '~', chr '$', chr '\\', chr '\'', chr '"']) :
    Spells b env len .unquoted s [c] c := by
  intro sb i
  simp only [List.mem_cons, List.not_mem_nil, or_false, not_or] at hc
  obtain ⟨htilde, hdollar, hescape, hsingle, hdouble⟩ := hc
  simp only [expandBody, List.cons_append, List.nil_append, htilde, hdollar, hescape, hsingle,
    hdouble, if_false]

theorem spells_escape (c : UInt8) : Spells b env len .unquoted s [chr '\\', c] c :=
  fun _ _ => rfl

theorem spells_single {c : UInt8} (hc : c ≠ chr '\'') :
    Spells b env len .singleQuoted s [c] c := by
  intro sb i
  simp only [expandBody, List.cons_append, List.nil_append, hc, if_false]

theorem spells_double {c : UInt8} (hc : c ∉ [chr '"', chr '\\', chr '$']) :
    Spells b env len .doubleQuoted s [c] c := by
  intro sb i
  simp only [List.mem_cons, List.not_mem_nil, or_false, not_or] at hc
  obtain ⟨hdouble, hescape, hdollar⟩ := hc
  simp only [expandBody, List.cons_append, List.nil_append, hdouble, hescape, hdollar, if_false]

theorem spells_double_escape (c : UInt8) :
    Spells b env len .doubleQuoted s [chr '\\', c] c := fun _ _ => rfl

theorem expandWord_plain {l : Str}
    (hl : ∀ c ∈ l, c ∉ [chr '~', chr '$', chr '\\', chr '\'', chr '"']) :
    expandWord b env l s = (b.copy l.length l).map fun result => (result, s) := by
  have htext := @expandFrom_text β σ b env l.length .unquoted s (fun c => [c]) l.length l
    fun c hc => spells_plain (hl c hc)
  rw [List.flatMap_singleton'] at htext
  exact htext

theorem expandWord_escaped (l : Str) :
    expandWord b env (l.flatMap fun c => [chr '\\', c]) s =
      (b.copy (2 * l.length) l).map fun result => (result, s) := by
  have hlen : (l.flatMap fun c => [chr '\\', c]).length = 2 * l.length := by
    induction l with
    | nil => rfl
    | cons c l ih => simp only [List.flatMap_cons, List.length_append, ih, List.length_cons,
        List.length_nil]; omega
  rw [expandWord_eq, hlen]
  exact expandFrom_text _ l fun c _ => spells_escape c

/-- A backslash at the end takes the cursor past the end of the word. -/
theorem expandWord_cut (l : Str) :
    expandWord b env ((l.flatMap fun c => [chr '\\', c]) ++ [chr '\\']) s = none := by
  rw [expandWord_eq, expandFrom_spelled l fun c _ => spells_escape c]
  refine Option.bind_eq_none_iff.mpr fun sb _ => ?_
  exact Loop.exec_of_inr _ rfl

/-- Single quotes around any text without one. -/
theorem expandWord_single {l : Str} (hl : chr '\'' ∉ l) :
    expandWord b env (chr '\'' :: (l ++ [chr '\''])) s =
      (b.copy (l.length + 2) l).map fun result => (result, s) := by
  have hquoted := @expandWord_quoted β σ b env .singleQuoted s (fun c => [c]) (by decide) l
    fun _ c hc => spells_single fun he => hl (he ▸ hc)
  rw [List.flatMap_singleton'] at hquoted
  exact hquoted

/-! ## Lexing and expansion together -/

/-- The line is one word to the lexer, and that word expands to `s`. -/
def ReadsBack (b : Builder β) (env : Env σ) (s : σ) (beyond : Nat → UInt8) (line value : Str) :
    Prop :=
  ∃ text, LexesAs beyond line text ∧ expandWord b env text s = some (value, s)

/-- An environment without variables. -/
def noVars : Env Unit where
  varLookup _ _ := none
  varLookupn _ _ _ := none
  varAssign s _ _ := s
  fresh _ := (fun _ => 1, fun _ => 1)
  cmdsub _ s := some ([], s)

end Shell.Expand
