import Shell.ExpandQuoting

/-! # A double-quoted text with its specials escaped

`expand_word` takes the backslashes off again. The lexer has no escapes inside
double quotes: an escaped double quote closes them, and the text goes on outside
of quotes. `quotesHold` follows the lexer over the text that was quoted. -/
namespace Shell.DoubleQuotedWord
open Shell.CTypes Shell.Tokenlist Shell.Lexer Shell.Expand Shell.Stringbuilder

variable {β σ : Type}

/-- The bytes that get a backslash. -/
def special (c : UInt8) : Bool := c ∈ [chr '"', chr '\\', chr '$', chr '`']

def protect (c : UInt8) : Str := if special c then [chr '\\', c] else [c]

/-- The quoted text from behind the opening quote on. -/
def closing (s : Str) : Str := s.flatMap protect ++ [chr '"']

def doubleQuoted (s : Str) : Str := chr '"' :: closing s

/-- Whether the lexer, from a mode in front of the rest `s` of the text on, gets
to the closing quote inside double quotes. -/
def quotesHold : Mode → Str → Bool
  | .quoted flag, [] => flag == .doubleQuoted
  | .quoted flag, c :: s =>
    if c = quoteByte flag then quotesHold .bare s else quotesHold (.quoted flag) s
  | .bare, [] => false
  | .bare, c :: s =>
    if isspace (toInt c) ∨ isoperator (toInt c) then false
    else if c = chr '$' ∧ s.head? = some (chr '(') then quotesHold .paren s
    else if c = chr '`' then quotesHold (.sub 1) s
    else if c = chr '\'' then quotesHold (.quoted .singleQuoted) s
    else if c = chr '"' then quotesHold (.quoted .doubleQuoted) s
    else if c = chr '\\' ∧ s.head? = some (chr 'n') then false
    else if c = chr '\\' ∧ s.head? = some (chr ' ') then quotesHold .blank s
    else quotesHold .bare s
  | .sub _, [] => false
  | .sub depth, c :: s =>
    if depthAfter c depth = 0 then quotesHold .bare s
    else quotesHold (.sub (depthAfter c depth)) s
  | .paren, [] => false
  | .paren, _ :: s => quotesHold (.sub 1) s
  | .blank, [] => false
  | .blank, _ :: s => if isspace (peekOf s) then false else quotesHold .bare s

/-! ## The walk over the quoted text -/

variable {p : TokenType} {k : Nat}

theorem closing_cons (c : UInt8) (s : Str) : closing (c :: s) = protect c ++ closing s := by
  rw [closing, closing, List.flatMap_cons, List.append_assoc]

theorem protect_special {c : UInt8} (h : special c = true) : protect c = [chr '\\', c] := if_pos h

theorem protect_other {c : UInt8} (h : special c = false) : protect c = [c] :=
  if_neg (by rw [h]; exact Bool.false_ne_true)

theorem special_cases {c : UInt8} (h : special c = true) :
    c = chr '"' ∨ c = chr '\\' ∨ c = chr '$' ∨ c = chr '`' := by
  simpa [special] using h

/-- What is in front of the lexer is the next byte of the text, or a backslash
that is in front of a special one, or the closing quote. -/
theorem head_closing (s : Str) {c : UInt8} (hc : special c = false) (hq : c ≠ chr '"') :
    (closing s).head? = some c ↔ s.head? = some c := by
  cases s with
  | nil => exact ⟨fun h => absurd (Option.some.inj h).symm hq, nofun⟩
  | cons d s =>
    rw [closing_cons]
    cases hd : special d with
    | true =>
      rw [protect_special hd]
      constructor
      · intro h
        obtain rfl : chr '\\' = c := Option.some.inj h
        cases hc
      · intro h
        obtain rfl : d = c := Option.some.inj h
        rw [hd] at hc
        cases hc
    | false =>
      rw [protect_other hd]
      rfl

theorem isspace_closing (s : Str) : isspace (peekOf (closing s)) = isspace (peekOf s) := by
  cases s with
  | nil => rfl
  | cons d s =>
    rw [closing_cons]
    cases hd : special d with
    | true =>
      rw [protect_special hd]
      rcases special_cases hd with rfl | rfl | rfl | rfl <;> rfl
    | false =>
      rw [protect_other hd]
      rfl

theorem peekOf_closing_ne {s : Str} (hs : ∀ c ∈ s, c ≠ 255) : peekOf (closing s) ≠ eoi := by
  cases s with
  | nil => exact ch_ne_eoi '"'
  | cons d s =>
    rw [closing_cons]
    cases hd : special d with
    | true =>
      rw [protect_special hd]
      exact ch_ne_eoi '\\'
    | false =>
      rw [protect_other hd]
      exact fun h => hs d (by simp) (toInt_eq_eoi.mp h)

theorem quote_mem_closing (s : Str) : chr '"' ∈ closing s := by simp [closing]

/-- To the lexer a protected byte is the byte itself. -/
theorem walk_protect (mode : Mode) (hmode : mode.Settled) (c : UInt8) (l : Str) :
    walk mode p k (protect c ++ l) = walk mode p k (c :: l) := by
  cases hc : special c with
  | false =>
    rw [protect_other hc]
    rfl
  | true =>
    rw [protect_special hc, List.cons_append, List.cons_append, List.nil_append]
    cases mode with
    | bare =>
      rw [walk_bare_backslash, List.head?_cons]
      rcases special_cases hc with rfl | rfl | rfl | rfl <;> rfl
    | quoted flag => exact walk_quoted_backslash p k _
    | sub depth => exact walk_sub_backslash hmode p k _
    | paren => cases hmode
    | blank => cases hmode

def Verdict (w : Walk) : Bool → Prop
  | true => Whole w
  | false => NotWord w

/-- What is known in front of `s` in a mode. -/
def Enters (mode : Mode) (s : Str) : Prop :=
  match mode with
  | .sub depth => depth ≠ 0
  | .paren => s.head? = some (chr '(')
  | .blank => s.head? = some (chr ' ')
  | _ => True

theorem verdict_bare_cons {c : UInt8} {s : Str} (hp : isWordTok p = true)
    (hnext : ∀ {mode : Mode} {p : TokenType} {k : Nat}, Enters mode s → isWordTok p = true →
      Verdict (walk mode p k (closing s)) (quotesHold mode s)) :
    Verdict (walk .bare p k (c :: closing s)) (quotesHold .bare (c :: s)) := by
  have hleft : ∀ {q : TokenType} {j : Nat} {l : Str}, chr '"' ∈ l → NotWord ⟨q, l, j⟩ :=
    fun hmem => notWord_of_rest (c := chr '"') rfl hmem
  have hmem := quote_mem_closing s
  rw [walk, quotesHold]
  simp only [head_closing s (c := chr '(') rfl (by decide),
    head_closing s (c := chr 'n') rfl (by decide), head_closing s (c := chr ' ') rfl (by decide)]
  split
  · exact hleft (by simp [hmem])
  split
  · rename_i hparen
    exact hnext hparen.2 hp
  split
  · exact hnext Nat.one_ne_zero hp
  split
  · exact hnext trivial hp
  split
  · exact hnext trivial hp
  split
  · exact hleft hmem
  split
  · rename_i hblank
    exact hnext hblank.2 hp
  · exact hnext trivial (isWordTok_typeAfter c hp)

theorem verdict_closing {s : Str} {mode : Mode} (hmode : Enters mode s)
    (hs : ∀ c ∈ s, c ≠ 255) (hp : isWordTok p = true) :
    Verdict (walk mode p k (closing s)) (quotesHold mode s) := by
  induction s generalizing mode p k with
  | nil =>
    cases mode with
    | bare => exact notWord_of_type _ rfl _
    | quoted flag =>
      cases flag with
      | unquoted => exact notWord_of_type _ rfl _
      | singleQuoted => exact notWord_of_type _ rfl _
      | doubleQuoted => exact ⟨hp, onlyBlanks_nil, Nat.zero_le _⟩
    | sub depth =>
      have hclosing : closing [] = [chr '"'] := rfl
      have hdepth : depthAfter (chr '"') depth = depth := rfl
      rw [hclosing, walk, hdepth, if_neg hmode]
      exact notWord_of_type _ rfl _
    | paren => cases hmode
    | blank => cases hmode
  | cons c s ih =>
    have hnext := fun {mode : Mode} {p : TokenType} {k : Nat} (hm : Enters mode s) =>
      @ih p k mode hm fun d hd => hs d (by simp [hd])
    cases mode with
    | bare =>
      rw [closing_cons, walk_protect .bare trivial]
      exact verdict_bare_cons hp hnext
    | quoted flag =>
      rw [closing_cons, walk_protect (.quoted flag) trivial, walk, quotesHold]
      split
      · exact hnext trivial hp
      · exact hnext trivial (isWordTok_typeAfter c hp)
    | sub depth =>
      rw [closing_cons, walk_protect (.sub depth) hmode, walk, quotesHold]
      split
      · exact hnext trivial hp
      · rename_i hdepth
        exact hnext hdepth hp
    | paren =>
      obtain rfl : c = chr '(' := Option.some.inj hmode
      rw [closing_cons]
      exact hnext Nat.one_ne_zero hp
    | blank =>
      obtain rfl : c = chr ' ' := Option.some.inj hmode
      have hend : endsBlank (closing s) = isspace (peekOf s) := by
        have hne := peekOf_closing_ne fun d hd => hs d (List.mem_cons_of_mem _ hd)
        rw [endsBlank, isspace_closing, beq_eq_false_iff_ne.mpr hne, Bool.or_false]
      rw [closing_cons, protect_other rfl, List.cons_append, List.nil_append, walk, hend,
        quotesHold]
      split
      · exact notWord_of_rest (c := chr '"') rfl (by simp [quote_mem_closing])
      · exact hnext trivial hp

/-! ## The line -/

theorem mem_closing {s : Str} {d : UInt8} (hd : d ∈ closing s) :
    d = chr '\\' ∨ d = chr '"' ∨ d ∈ s := by
  rcases List.mem_append.mp hd with hd | hd
  · obtain ⟨c, hc, hd⟩ := List.mem_flatMap.mp hd
    cases hspecial : special c with
    | true =>
      rw [protect_special hspecial] at hd
      simp only [List.mem_cons, List.not_mem_nil, or_false] at hd
      rcases hd with rfl | rfl
      · exact .inl rfl
      · exact .inr (.inr hc)
    | false =>
      rw [protect_other hspecial] at hd
      exact .inr (.inr (List.mem_singleton.mp hd ▸ hc))
  · exact .inr (.inl (List.mem_singleton.mp hd))

theorem spells_protect {b : Builder β} {env : Env σ} {len : Nat} {st : σ} (c : UInt8) :
    Spells b env len .doubleQuoted st (protect c) c := by
  cases hc : special c with
  | true =>
    rw [protect_special hc]
    exact spells_double_escape c
  | false =>
    rw [protect_other hc]
    refine spells_double fun hmem => ?_
    simp only [List.mem_cons, List.not_mem_nil, or_false] at hmem
    rcases hmem with rfl | rfl | rfl <;> cases hc

theorem length_le_protect (s : Str) : s.length ≤ (s.flatMap protect).length := by
  induction s with
  | nil => exact Nat.le_refl _
  | cons c s ih =>
    have hone : 1 ≤ (protect c).length := by
      cases hc : special c with
      | true => rw [protect_special hc]; exact Nat.le_succ 1
      | false => rw [protect_other hc]; exact Nat.le_refl _
    rw [List.flatMap_cons, List.length_append, List.length_cons]
    omega

theorem readsBack_doubleQuoted_iff {b : Builder β} {s : Str} (hbytes : ∀ c ∈ s, c ≠ 0 ∧ c ≠ 255)
    (hcopy : b.copy ((s.flatMap protect).length + 2) s = some s) (beyond : Nat → UInt8)
    (env : Env σ) (st : σ) :
    ReadsBack b env st beyond (doubleQuoted s) s ↔
      quotesHold (.quoted .doubleQuoted) s = true := by
  have hline : ∀ d ∈ doubleQuoted s, d ≠ 0 ∧ d ≠ 255 := by
    intro d hd
    rcases List.mem_cons.mp hd with rfl | hd
    · decide
    rcases mem_closing hd with rfl | rfl | hd
    · decide
    · decide
    · exact hbytes d hd
  have hbegins : Begins (doubleQuoted s) := fun d hd => by
    obtain rfl : chr '"' = d := Option.some.inj hd
    exact ⟨rfl, rfl⟩
  have hverdict : Verdict (walk .bare .word 0 (doubleQuoted s))
      (quotesHold (.quoted .doubleQuoted) s) :=
    @verdict_closing .word 0 s (.quoted .doubleQuoted) trivial (fun c hc => (hbytes c hc).2) rfl
  cases hok : quotesHold (.quoted .doubleQuoted) s with
  | true =>
    rw [hok] at hverdict
    refine ⟨fun _ => rfl, fun _ => ⟨doubleQuoted s, ?_, ?_⟩⟩
    · exact lexesAs_of_whole rfl hbegins hline hverdict
    · have hexpand := @expandWord_quoted β σ b env .doubleQuoted st protect (by decide) s
        fun _ c _ => spells_protect c
      rw [hcopy] at hexpand
      exact hexpand
  | false =>
    rw [hok] at hverdict
    refine ⟨?_, fun h => by cases h⟩
    intro hcond
    obtain ⟨text, hlex, -⟩ := hcond
    exact absurd hlex (not_lexesAs rfl hbegins (fun d hd => (hline d hd).2) hverdict)

/-- **When double quotes protect a text.** The double-quoted text, with a backslash
before each of its specials, is one word that expands to the text if and only if
the lexer gets to the closing quote inside double quotes. -/
theorem doubleQuoted_protects_iff {s : Str} (hbytes : ∀ c ∈ s, c ≠ 0 ∧ c ≠ 255)
    (beyond : Nat → UInt8) (env : Env σ) (st : σ) :
    (ReadsBack exact env st beyond (doubleQuoted s) s ↔
        quotesHold (.quoted .doubleQuoted) s = true) ∧
      ((doubleQuoted s).length < 2 ^ 63 → ∀ garbage,
        (ReadsBack (heap garbage) env st beyond (doubleQuoted s) s ↔
          quotesHold (.quoted .doubleQuoted) s = true)) := by
  refine ⟨readsBack_doubleQuoted_iff hbytes (exact_copy _ s) beyond env st, fun hlen garbage => ?_⟩
  have hle := length_le_protect s
  have hlength : (doubleQuoted s).length = (s.flatMap protect).length + 2 := by
    simp [doubleQuoted, closing]
  have hcopy := heap_copy garbage (l := s) (fun c hc => (hbytes c hc).1)
    (show s.length < (s.flatMap protect).length + 2 by omega) (by omega)
  exact readsBack_doubleQuoted_iff hbytes hcopy beyond env st

/-- `"a \$b"` is the word `a $b`. -/
theorem doubleQuoted_protects_iff_dollar :
    ReadsBack exact noVars () (fun _ => 0) [34, 97, 32, 92, 36, 98, 34] (str "a $b") :=
  (doubleQuoted_protects_iff (s := str "a $b") (List.all_iff_forall_prop.mp rfl) (fun _ => 0)
    noVars ()).1.mpr rfl

/-- In `"\""` the escaped quote closes the first one, and the last stays open. -/
theorem doubleQuoted_not_protected :
    ¬ ReadsBack exact noVars () (fun _ => 0) [34, 92, 34, 34] (str "\"") := by
  intro h
  have hiff := readsBack_doubleQuoted_iff (s := str "\"") (List.all_iff_forall_prop.mp rfl)
    (exact_copy _ _) (fun _ => 0) noVars ()
  cases hiff.mp h

end Shell.DoubleQuotedWord
