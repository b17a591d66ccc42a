import Shell.ExpandQuoting
import Shell.LexerWord

/-! # A backslash before every byte

`expand_word` takes a backslash off any byte outside quotes. The lexer does not:
it knows only some escapes, and what it takes the other bytes for decides
whether the text is one word. `EscapesHold` follows it over the bytes behind the
backslashes. -/
namespace Shell.EscapedWord
open Shell.CTypes Shell.Tokenlist Shell.Lexer Shell.Expand Shell.Stringbuilder

variable {β σ : Type}

def escaped (s : Str) : Str := s.flatMap fun c => [chr '\\', c]

/-- Whether the lexer ends in one word when each byte is read behind a backslash.
Quotes open and close as if they were not escaped, and so do backquotes. Behind
a blank `*end` is ahead, which lets any whitespace be the last byte. -/
def escapesHold : Mode → Bool → Str → Bool
  | .bare, _, [] => true
  | .bare, ahead, c :: s =>
    if c = chr ' ' then escapesHold .bare true s
    else if isspace (toInt c) then ahead && s.isEmpty
    else if isoperator (toInt c) || c == chr 'n' then false
    else if c = chr '`' then escapesHold (.sub 1) ahead s
    else if c = chr '\'' then escapesHold (.quoted .singleQuoted) ahead s
    else if c = chr '"' then escapesHold (.quoted .doubleQuoted) ahead s
    else escapesHold .bare ahead s
  | .quoted _, _, [] => false
  | .quoted flag, ahead, c :: s =>
    if c = quoteByte flag then escapesHold .bare ahead s
    else escapesHold (.quoted flag) ahead s
  | .sub _, _, [] => false
  | .sub depth, ahead, c :: s =>
    if depthAfter c depth = 0 then escapesHold .bare ahead s
    else escapesHold (.sub (depthAfter c depth)) ahead s
  | .paren, _, _ => false
  | .blank, _, _ => false

/-! ## The walk over an escaped text -/

variable {p : TokenType} {k : Nat}

theorem escaped_cons (c : UInt8) (s : Str) : escaped (c :: s) = chr '\\' :: c :: escaped s := rfl

theorem head_escaped (s : Str) {c : UInt8} (hc : c ≠ chr '\\') : (escaped s).head? ≠ some c := by
  cases s with
  | nil => exact nofun
  | cons d s => exact fun h => hc (Option.some.inj h).symm

theorem endsBlank_escaped (s : Str) : endsBlank (escaped s) = s.isEmpty := by
  cases s <;> rfl

/-- The walk does not end in one word, or it cuts off the last byte. -/
def Broken (w : Walk) : Prop := NotWord w ∨ w.rest.length = w.ahead + 1

def Verdict (w : Walk) : Bool → Prop
  | true => Whole w
  | false => Broken w

/-- One whitespace byte is left, with `*end` ahead of it or not. -/
theorem verdict_last {c : UInt8} (hc : isspace (toInt c) = true) (hnl : c ≠ chr '\n')
    (hp : isWordTok p = true) : Verdict ⟨p, [c], k⟩ (0 < k) := by
  by_cases hk : 0 < k
  · rw [decide_eq_true hk]
    refine ⟨hp, ⟨?_, fun h => hnl (Option.some.inj h)⟩, hk⟩
    exact fun d hd => List.mem_singleton.mp hd ▸ hc
  · rw [decide_eq_false hk]
    obtain rfl : k = 0 := by omega
    exact .inr rfl

theorem verdict_bare_cons {c : UInt8} {s : Str} (hnl : c ≠ chr '\n') (hp : isWordTok p = true)
    (hnext : ∀ {mode : Mode} {p : TokenType} {k : Nat}, mode.Settled → isWordTok p = true →
      Verdict (walk mode p k (escaped s)) (escapesHold mode (0 < k) s)) :
    Verdict (walk .bare p k (escaped (c :: s))) (escapesHold .bare (0 < k) (c :: s)) := by
  rw [escaped_cons, walk_bare_backslash]
  simp only [List.head?_cons, Option.some.injEq]
  by_cases hblank : c = chr ' '
  · subst hblank
    have hover : decide (0 < k + 1) = true := by simp
    rw [if_neg (by decide), if_pos rfl, walk, endsBlank_escaped, escapesHold, if_pos rfl]
    cases s with
    | nil => exact hover ▸ verdict_last rfl (by decide) hp
    | cons d s => exact hover ▸ hnext trivial hp
  by_cases hn : c = chr 'n'
  · subst hn
    rw [if_pos rfl]
    exact .inl (notWord_of_type _ rfl _)
  rw [if_neg hn, if_neg hblank, walk, escapesHold, if_neg hblank]
  by_cases hspace : isspace (toInt c) = true
  · rw [if_pos (.inl hspace), if_pos hspace]
    cases s with
    | nil =>
      rw [List.isEmpty_nil, Bool.and_true]
      exact verdict_last hspace hnl hp
    | cons d s =>
      rw [List.isEmpty_cons, Bool.and_false]
      exact .inl (notWord_of_rest (c := chr '\\') rfl (by simp [escaped_cons]))
  by_cases hop : isoperator (toInt c) = true
  · rw [if_pos (.inr hop), if_neg hspace, hop]
    exact .inl (notWord_of_rest (c := c) (by simpa using hspace) (by simp))
  have hends : ¬ (isspace (toInt c) = true ∨ isoperator (toInt c) = true) :=
    not_or.mpr ⟨hspace, hop⟩
  have hstop : ¬ (isoperator (toInt c) || c == chr 'n') = true := by simp [hop, hn]
  have hparen : ¬ (c = chr '$' ∧ (escaped s).head? = some (chr '(')) :=
    fun h => head_escaped s (by decide) h.2
  have hnewline : ¬ (c = chr '\\' ∧ (escaped s).head? = some (chr 'n')) :=
    fun h => head_escaped s (by decide) h.2
  have hspace' : ¬ (c = chr '\\' ∧ (escaped s).head? = some (chr ' ')) :=
    fun h => head_escaped s (by decide) h.2
  rw [if_neg hends, if_neg hparen, if_neg hnewline, if_neg hspace', if_neg hspace, if_neg hstop]
  split
  · exact hnext Nat.one_ne_zero hp
  split
  · exact hnext trivial hp
  split
  · exact hnext trivial hp
  exact hnext trivial (isWordTok_typeAfter c hp)

theorem verdict_escaped {s : Str} (hs : ∀ c ∈ s, c ≠ chr '\n') {mode : Mode} {p : TokenType}
    {k : Nat} (hmode : mode.Settled) (hp : isWordTok p = true) :
    Verdict (walk mode p k (escaped s)) (escapesHold mode (0 < k) s) := by
  induction s generalizing mode p k with
  | nil =>
    cases mode with
    | bare => exact ⟨hp, onlyBlanks_nil, Nat.zero_le _⟩
    | quoted flag => exact .inl (notWord_of_type _ rfl _)
    | sub depth => exact .inl (notWord_of_type _ rfl _)
    | paren => cases hmode
    | blank => cases hmode
  | cons c s ih =>
    have hnext := @ih (fun d hd => hs d (by simp [hd]))
    cases mode with
    | bare => exact verdict_bare_cons (hs c (by simp)) hp hnext
    | quoted flag =>
      rw [escaped_cons, walk_quoted_backslash, walk, escapesHold]
      split
      · exact hnext trivial hp
      · exact hnext trivial (isWordTok_typeAfter c hp)
    | sub depth =>
      rw [escaped_cons, walk_sub_backslash hmode, walk, escapesHold]
      split
      · exact hnext trivial hp
      · rename_i hdepth
        exact hnext hdepth hp
    | paren => cases hmode
    | blank => cases hmode

/-! ## The line -/

theorem escaped_append (s : Str) (c : UInt8) :
    escaped (s ++ [c]) = escaped s ++ [chr '\\', c] := by simp [escaped]

theorem mem_escaped {s : Str} {d : UInt8} (hd : d ∈ escaped s) : d = chr '\\' ∨ d ∈ s := by
  obtain ⟨c, hc, hd⟩ := List.mem_flatMap.mp hd
  simp only [List.mem_cons, List.not_mem_nil, or_false] at hd
  rcases hd with rfl | rfl
  · exact .inl rfl
  · exact .inr hc

/-- A text without its last byte. -/
theorem tokenText_cut {beyond : Nat → UInt8} {line : Str} {d : UInt8} (hline : NulFree line) :
    tokenText (line ++ [d]) beyond 0 line.length = line :=
  tokenText_eq rfl (by rw [Nat.zero_add]) hline

theorem readsBack_escaped_iff {b : Builder β} {s : Str} (hs : s ≠ [])
    (hbytes : ∀ c ∈ s, c ≠ 0 ∧ c ≠ chr '\n' ∧ c ≠ 255)
    (hcopy : b.copy (2 * s.length) s = some s) (beyond : Nat → UInt8) (env : Env σ) (st : σ) :
    ReadsBack b env st beyond (escaped s) s ↔ escapesHold .bare false s = true := by
  obtain ⟨c, s', rfl⟩ := List.exists_cons_of_ne_nil hs
  have hline : ∀ d ∈ escaped (c :: s'), d ≠ 0 ∧ d ≠ 255 := by
    intro d hd
    rcases mem_escaped hd with rfl | hd
    · decide
    · exact ⟨(hbytes d hd).1, (hbytes d hd).2.2⟩
  have hbegins : Begins (escaped (c :: s')) := fun d hd => by
    obtain rfl : chr '\\' = d := Option.some.inj hd
    exact ⟨rfl, rfl⟩
  have hverdict := @verdict_escaped (c :: s') (fun d hd => (hbytes d hd).2.1) .bare .word 0
    trivial rfl
  rw [show decide (0 < 0) = false from rfl] at hverdict
  cases hok : escapesHold .bare false (c :: s') with
  | true =>
    rw [hok] at hverdict
    refine ⟨fun _ => rfl, fun _ => ⟨escaped (c :: s'), ?_, ?_⟩⟩
    · exact lexesAs_of_whole rfl hbegins hline hverdict
    · rw [escaped, expandWord_escaped, hcopy]
      rfl
  | false =>
    rw [hok] at hverdict
    refine ⟨?_, fun h => by cases h⟩
    intro hcond
    obtain ⟨text, hlex, hexpand⟩ := hcond
    rcases hverdict with hnot | hcut
    · exact absurd hlex (not_lexesAs rfl hbegins (fun d hd => (hline d hd).2) hnot)
    have hiff := @lexesAs_iff_walk beyond (chr '\\') (c :: escaped s') text rfl hbegins
      (fun d hd => (hline d hd).2) _ rfl
    obtain ⟨-, -, stop, hstop, htext⟩ := hiff.mp hlex
    rw [← escaped_cons] at hstop htext
    -- the text lacks its last byte and ends in a backslash
    obtain ⟨t, d, hsplit⟩ := (List.eq_nil_or_concat' (c :: s')).resolve_left hs
    have hsplit' : escaped (c :: s') = (escaped t ++ [chr '\\']) ++ [d] := by
      rw [hsplit, escaped_append, List.append_assoc]
      rfl
    obtain rfl : stop = (escaped t ++ [chr '\\']).length := by
      rw [hcut, hsplit', List.length_append, List.length_singleton] at hstop
      omega
    have hnul : NulFree (escaped t ++ [chr '\\']) := fun e he =>
      (hline e (by rw [hsplit']; exact List.mem_append_left _ he)).1
    rw [hsplit', tokenText_cut hnul] at htext
    rw [← htext, escaped, expandWord_cut] at hexpand
    cases hexpand

/-- **When a backslash protects every byte.** The text with a backslash before
every byte of `s` is one word that expands to `s` if and only if the escapes of
`s` hold, whatever lies behind the end of the line. -/
theorem escaped_protects_iff {s : Str} (hs : s ≠ [])
    (hbytes : ∀ c ∈ s, c ≠ 0 ∧ c ≠ chr '\n' ∧ c ≠ 255) (beyond : Nat → UInt8) (env : Env σ)
    (st : σ) :
    (ReadsBack exact env st beyond (escaped s) s ↔ escapesHold .bare false s = true) ∧
      (2 * s.length < 2 ^ 63 → ∀ garbage,
        (ReadsBack (heap garbage) env st beyond (escaped s) s ↔
          escapesHold .bare false s = true)) := by
  refine ⟨readsBack_escaped_iff hs hbytes (exact_copy _ s) beyond env st, fun hlen garbage => ?_⟩
  have hpos : 0 < s.length := List.length_pos_iff.mpr hs
  have hcopy := heap_copy garbage (l := s) (fun c hc => (hbytes c hc).1)
    (show s.length < 2 * s.length by omega) hlen
  exact readsBack_escaped_iff hs hbytes hcopy beyond env st

/-- `\a\ \$` is the word `a $`. -/
theorem escaped_protects_iff_dollar :
    ReadsBack exact noVars () (fun _ => 0) [92, 97, 92, 32, 92, 36] (str "a $") :=
  (escaped_protects_iff (s := str "a $") (by decide) (List.all_iff_forall_prop.mp rfl) (fun _ => 0)
    noVars ()).1.mpr rfl

/-- `\n` is a newline to the lexer, and `\'` opens a quote. -/
theorem escaped_not_protected :
    ¬ ReadsBack exact noVars () (fun _ => 0) [92, 110] (str "n") ∧
      ¬ ReadsBack exact noVars () (fun _ => 0) [92, 39] (str "'") := by
  have hcopy : ∀ s, exact.copy (2 * s.length) s = some s := fun s => exact_copy _ s
  constructor
  · intro h
    have hiff := readsBack_escaped_iff (s := str "n") (by decide)
      (List.all_iff_forall_prop.mp rfl) (hcopy _) (fun _ => 0) noVars ()
    cases hiff.mp h
  · intro h
    have hiff := readsBack_escaped_iff (s := str "'") (by decide)
      (List.all_iff_forall_prop.mp rfl) (hcopy _) (fun _ => 0) noVars ()
    cases hiff.mp h

end Shell.EscapedWord
