import Shell.LexerLexemes

/-! # Newlines as tokens (lx_scan, consume_ws)

A newline is a token where a scan starts at it. `consume_ws` skips newlines with the
other whitespace, and an escaped letter n ends a word as a newline token too. The
positions of both are told by automata over the text. -/
namespace Shell.Lexer
open Shell.CTypes Shell.Tokenlist Shell.Lib

/-- The quotes and substitutions behind `c`, in front of `l`. -/
def modeAfter : Mode → UInt8 → Str → Mode
  | .bare, c, l =>
    if c = chr '$' ∧ l.head? = some (chr '(') then .paren
    else if c = chr '`' then .sub 1
    else if c = chr '\'' then .quoted .singleQuoted
    else if c = chr '"' then .quoted .doubleQuoted
    else .bare
  | .quoted flag, c, _ => if c = quoteByte flag then .bare else .quoted flag
  | .sub depth, c, _ => if depthAfter c depth = 0 then .bare else .sub (depthAfter c depth)
  | .paren, _, _ => .sub 1
  | .blank, _, _ => .bare

/-- The positions of the newline bytes outside of quotes and substitutions. -/
def newlinesAt : Mode → Nat → Str → List Nat
  | _, _, [] => []
  | mode, pos, c :: l =>
    if mode = .bare ∧ c = chr '\n' then pos :: newlinesAt .bare (pos + 1) l
    else newlinesAt (modeAfter mode c l) (pos + 1) l

/-- None of them stands right behind other whitespace, and no letter n outside of quotes
behind a backslash; `blank` says that whitespace stands in front of the text. -/
def newlinesStand : Mode → Bool → Str → Bool
  | _, _, [] => true
  | mode, blank, c :: l =>
    if mode = .bare then
      if c = chr '\n' then !blank && newlinesStand .bare false l
      else if c = chr '\\' ∧ l.head? = some (chr 'n') then false
      else newlinesStand (modeAfter .bare c l) (isspace (toInt c)) l
    else newlinesStand (modeAfter mode c l) false l

/-- The newline tokens of a run: where they begin, and their texts. -/
def newlineCalls (calls : List (Nat × Token)) : List (Nat × Str) :=
  (calls.filter fun call => call.2.type == .newline).map fun call => (call.1, call.2.value)

/-- A newline byte as a token. -/
def asToken (i : Nat) : Nat × Str := (i, [chr '\n'])

/-! ## Bytes outside of words -/

theorem modeAfter_bare {c : UInt8} (hsub : c ≠ chr '$') (hback : c ≠ chr '`')
    (hsingle : c ≠ chr '\'') (hdouble : c ≠ chr '"') (l : Str) : modeAfter .bare c l = .bare := by
  rw [modeAfter, if_neg fun h => hsub h.1, if_neg hback, if_neg hsingle, if_neg hdouble]

theorem modeAfter_separator {c : UInt8}
    (h : isspace (toInt c) = true ∨ isoperator (toInt c) = true) (l : Str) :
    modeAfter .bare c l = .bare := by
  apply modeAfter_bare
  all_goals
    intro hc
    rw [hc] at h
    revert h
    decide

theorem newlinesAt_bounds (mode : Mode) (pos : Nat) (l : Str) :
    ∀ i ∈ newlinesAt mode pos l, pos ≤ i ∧ i < pos + l.length := by
  induction l generalizing mode pos with
  | nil => exact fun i hi => by cases hi
  | cons c l ih =>
    intro i hi
    rw [newlinesAt] at hi
    rw [List.length_cons]
    split at hi
    · rcases List.mem_cons.mp hi with rfl | hi
      · omega
      · have := ih _ _ i hi
        omega
    · have := ih _ _ i hi
      omega

/-- Whitespace has its newlines to itself. -/
theorem newlinesAt_blanks {b : Str} (hb : ∀ c ∈ b, isspace (toInt c) = true) (pos : Nat) (l : Str) :
    newlinesAt .bare pos (b ++ l) =
      newlinesAt .bare pos b ++ newlinesAt .bare (pos + b.length) l := by
  induction b generalizing pos with
  | nil => rfl
  | cons c b ih =>
    have hmode := modeAfter_separator (.inl (hb c List.mem_cons_self))
    have hpos : pos + 1 + b.length = pos + (c :: b).length := by
      rw [List.length_cons]
      omega
    rw [List.cons_append, newlinesAt, newlinesAt, hmode, hmode,
      ih fun d hd => hb d (List.mem_cons_of_mem _ hd), hpos]
    split
    · rfl
    · rfl

theorem newlinesAt_eq_nil_iff {b : Str} (hb : ∀ c ∈ b, isspace (toInt c) = true) (pos : Nat) :
    newlinesAt .bare pos b = [] ↔ chr '\n' ∉ b := by
  induction b generalizing pos with
  | nil => exact iff_of_true rfl List.not_mem_nil
  | cons c b ih =>
    rw [newlinesAt, modeAfter_separator (.inl (hb c List.mem_cons_self))]
    by_cases hc : c = chr '\n'
    · rw [if_pos ⟨rfl, hc⟩, hc]
      exact iff_of_false (List.cons_ne_nil _ _) fun h => h List.mem_cons_self
    · rw [if_neg fun h => hc h.2, ih fun d hd => hb d (List.mem_cons_of_mem _ hd), List.mem_cons,
        not_or, and_iff_right (Ne.symm hc)]

theorem ne_newline {c : UInt8} (h : isspace (toInt c) = false) : c ≠ chr '\n' := by
  intro hc
  rw [hc] at h
  cases h

/-- Whitespace in front does not matter to what is none. -/
theorem newlinesStand_blank {l : Str} (hl : isspace (peekOf l) = false) :
    newlinesStand .bare true l = newlinesStand .bare false l := by
  cases l with
  | nil => rfl
  | cons c l =>
    have hc := ne_newline hl
    rw [newlinesStand, newlinesStand, if_pos rfl, if_pos rfl, if_neg hc, if_neg hc]

theorem newlinesStand_space {c : UInt8} (hspace : isspace (toInt c) = true) (hc : c ≠ chr '\n')
    (blank : Bool) (l : Str) :
    newlinesStand .bare blank (c :: l) = newlinesStand .bare true l := by
  have hescape : c ≠ chr '\\' := by
    intro hc
    rw [hc] at hspace
    cases hspace
  rw [newlinesStand, if_pos rfl, if_neg hc, if_neg fun h => hescape h.1,
    modeAfter_separator (.inl hspace), hspace]

theorem newlinesStand_spaces {b l : Str} (hb : ∀ c ∈ b, isspace (toInt c) = true)
    (hl : isspace (peekOf l) = false) :
    newlinesStand .bare true (b ++ l) = true ↔
      chr '\n' ∉ b ∧ newlinesStand .bare false l = true := by
  induction b with
  | nil =>
    rw [List.nil_append, newlinesStand_blank hl]
    exact ⟨fun h => ⟨List.not_mem_nil, h⟩, And.right⟩
  | cons c b ih =>
    by_cases hc : c = chr '\n'
    · rw [hc, List.cons_append, newlinesStand, if_pos rfl, if_pos rfl]
      exact iff_of_false (fun h => by cases h) fun h => h.1 List.mem_cons_self
    · rw [List.cons_append, newlinesStand_space (hb c List.mem_cons_self) hc,
        ih fun d hd => hb d (List.mem_cons_of_mem _ hd), List.mem_cons, not_or,
        and_iff_right (Ne.symm hc)]

/-- What a scan skips holds a newline, or leaves the text as it was. -/
theorem newlinesStand_onlyBlanks {b l : Str} (hb : OnlyBlanks b)
    (hl : isspace (peekOf l) = false) :
    newlinesStand .bare false (b ++ l) = true ↔
      chr '\n' ∉ b ∧ newlinesStand .bare false l = true := by
  cases b with
  | nil => exact ⟨fun h => ⟨List.not_mem_nil, h⟩, And.right⟩
  | cons c b =>
    have hc : c ≠ chr '\n' := fun h => hb.2 (congrArg some h)
    rw [List.cons_append, newlinesStand_space (hb.1 c List.mem_cons_self) hc,
      newlinesStand_spaces (fun d hd => hb.1 d (List.mem_cons_of_mem _ hd)) hl, List.mem_cons,
      not_or, and_iff_right (Ne.symm hc)]

/-! ## Tokens -/

/-- The bytes that a scan reads up to `w.rest` are in no newline's way: none of them is
one, and the token is none either unless it ends at an escaped n. -/
structure Passes (mode : Mode) (l : Str) (w : Walk) : Prop where
  positions : ∃ text, l = text ++ w.rest ∧
    ∀ pos, newlinesAt mode pos l = newlinesAt .bare (pos + text.length) w.rest
  stand : newlinesStand mode false l =
    (w.type != .newline && newlinesStand .bare false w.rest)

theorem Passes.stop {l : Str} {w : Walk} (hrest : w.rest = l) (htype : w.type ≠ .newline) :
    Passes .bare l w := by
  subst hrest
  refine ⟨⟨[], rfl, fun _ => rfl⟩, ?_⟩
  rw [bne_iff_ne.mpr htype, Bool.true_and]

theorem Passes.cons {mode : Mode} {c : UInt8} {l : Str} {w : Walk}
    (h : Passes (modeAfter mode c l) l w)
    (hc : mode = .bare → c ≠ chr '\n' ∧ ¬ (c = chr '\\' ∧ l.head? = some (chr 'n')) ∧
      (isspace (toInt c) = true → isspace (peekOf l) = false)) : Passes mode (c :: l) w := by
  obtain ⟨⟨text, hsplit, hpos⟩, hstand⟩ := h
  constructor
  · refine ⟨c :: text, congrArg (c :: ·) hsplit, fun pos => ?_⟩
    rw [newlinesAt, if_neg fun h => (hc h.1).1 h.2, hpos, List.length_cons]
    congr 1
    omega
  · rw [← hstand, newlinesStand]
    split
    · rename_i hmode
      obtain ⟨hnewline, hescape, hspace⟩ := hc hmode
      rw [if_neg hnewline, if_neg hescape, hmode]
      cases hblank : isspace (toInt c) with
      | false => rfl
      | true => rw [modeAfter_separator (.inl hblank), newlinesStand_blank (hspace hblank)]
    · rfl

/-- Operators and digits. -/
theorem Passes.cons_plain {c : UInt8} {l : Str} {w : Walk} (h : Passes .bare l w)
    (hspace : isspace (toInt c) = false) (hescape : c ≠ chr '\\')
    (hmode : modeAfter .bare c l = .bare) : Passes .bare (c :: l) w := by
  refine .cons (by rwa [hmode]) fun _ => ⟨ne_newline hspace, fun h => hescape h.1, fun h => ?_⟩
  rw [hspace] at h
  cases h

theorem operator_passes {text : Str} {type : TokenType} (h : OperatorText text type) (l : Str) :
    Passes .bare (text ++ l) ⟨type, l, 0⟩ := by
  obtain ⟨digits, ops, rfl, hdigits, -, hops⟩ := h.split
  have htype : type ≠ .newline := by
    intro hnewline
    have hkind := h.kind
    rw [hnewline] at hkind
    exact hkind.elim (fun h => by cases h) fun h => by cases h
  have hpasses : Passes .bare (ops ++ l) ⟨type, l, 0⟩ := by
    clear h
    induction ops with
    | nil => exact .stop rfl htype
    | cons c ops ih =>
      have hop := hops c List.mem_cons_self
      have hescape : c ≠ chr '\\' := by
        intro hc
        rw [hc] at hop
        cases hop
      exact .cons_plain (ih fun d hd => hops d (List.mem_cons_of_mem _ hd)) (operator_ne hop).1
        hescape (modeAfter_separator (.inr hop) _)
  rcases hdigits with rfl | ⟨d, rfl⟩
  · exact hpasses
  · obtain ⟨-, hsub, hback, hsingle, hdouble, hescape⟩ := digitByte_ordinary d
    rw [Ne, toInt_eq_ch (by decide)] at hsub hback hsingle hdouble hescape
    exact .cons_plain hpasses (digitByte_starts d).1.1 hescape
      (modeAfter_bare hsub hback hsingle hdouble _)

/-- An escaped blank is whitespace to the positions. -/
def outside : Mode → Mode
  | .blank => .bare
  | mode => mode

/-- What the walk makes of the rest of a token, in every mode it can be in. -/
def TokenPasses (l : Str) : Prop :=
  ∀ {mode : Mode} {p : TokenType} {k : Nat}, p ≠ .newline →
    (mode = .blank → ∀ c ∈ l.head?, c = chr ' ') → (walk mode p k l).type ≠ .err →
    Passes (outside mode) l (walk mode p k l)

theorem typeAfter_ne_newline {p : TokenType} (hp : p ≠ .newline) (c : UInt8) :
    typeAfter c p ≠ .newline := by
  unfold typeAfter
  split
  · exact fun h => by cases h
  · exact hp

theorem passes_bare_cons {c : UInt8} {l : Str} {p : TokenType} {k : Nat} (hnext : TokenPasses l)
    (hp : p ≠ .newline) (herr : (walk .bare p k (c :: l)).type ≠ .err) :
    Passes .bare (c :: l) (walk .bare p k (c :: l)) := by
  have hbare : ∀ {mode : Mode}, mode ≠ .blank → mode = .blank → ∀ c ∈ l.head?, c = chr ' ' :=
    fun hne he => absurd he hne
  revert herr
  rw [walk]
  split
  · exact fun _ => .stop rfl hp
  rename_i hplain
  have hspace : isspace (toInt c) = false := Bool.eq_false_iff.mpr fun h => hplain (.inl h)
  have hstep : ∀ {w : Walk}, Passes (modeAfter .bare c l) l w →
      ¬ (c = chr '\\' ∧ l.head? = some (chr 'n')) → Passes .bare (c :: l) w := by
    intro w h hescape
    refine .cons h fun _ => ⟨ne_newline hspace, hescape, fun h => ?_⟩
    rw [hspace] at h
    cases h
  -- a quote or a substitution opens at a byte that is no backslash
  have hopens : ∀ {mode : Mode} {opening : Char}, modeAfter .bare c l = outside mode →
      mode ≠ .blank → c = chr opening → chr opening ≠ chr '\\' →
      (walk mode p k l).type ≠ .err → Passes .bare (c :: l) (walk mode p k l) := by
    intro mode opening hmode hne hc hescape herr
    refine hstep ?_ fun h => hescape (hc.symm.trans h.1)
    rw [hmode]
    exact hnext hp (hbare hne) herr
  split
  · rename_i hsub
    exact hopens (by rw [modeAfter, if_pos hsub]; rfl) (by simp) hsub.1 (by decide)
  rename_i hsub
  split
  · rename_i hback
    exact hopens (by rw [modeAfter, if_neg hsub, if_pos hback]; rfl) (by simp) hback (by decide)
  rename_i hback
  split
  · rename_i hsingle
    refine hopens ?_ (by simp) hsingle (by decide)
    rw [modeAfter, if_neg hsub, if_neg hback, if_pos hsingle]
    rfl
  rename_i hsingle
  split
  · rename_i hdouble
    refine hopens ?_ (by simp) hdouble (by decide)
    rw [modeAfter, if_neg hsub, if_neg hback, if_neg hsingle, if_pos hdouble]
    rfl
  rename_i hdouble
  have hmode : modeAfter .bare c l = .bare := by
    rw [modeAfter, if_neg hsub, if_neg hback, if_neg hsingle, if_neg hdouble]
  rw [hmode] at hstep
  split
  · -- the token ends behind the backslash
    rename_i hescape
    intro _
    refine ⟨⟨[c], rfl, fun pos => ?_⟩, ?_⟩
    · rw [newlinesAt, if_neg fun h => ne_newline hspace h.2, hmode]
      rfl
    · rw [newlinesStand, if_pos rfl, if_neg (ne_newline hspace), if_pos hescape]
      rfl
  rename_i hescape
  split
  · rename_i hblank
    intro herr
    refine hstep (@hnext .blank p (k + 1) hp (fun _ d hd => ?_) herr) hescape
    rw [hblank.2] at hd
    exact (Option.some.inj hd).symm
  · intro herr
    exact hstep (@hnext .bare _ k (typeAfter_ne_newline hp c) (hbare (by simp)) herr) hescape

theorem walk_passes (l : Str) : TokenPasses l := by
  induction l with
  | nil =>
    intro mode p k hp _ herr
    cases mode with
    | bare => exact .stop rfl hp
    | quoted | sub | paren | blank => exact absurd rfl herr
  | cons c l ih =>
    intro mode p k hp hblank
    have hnot : ∀ {mode : Mode}, mode ≠ .blank → mode = .blank → ∀ c ∈ l.head?, c = chr ' ' :=
      fun hne he => absurd he hne
    cases mode with
    | bare => exact passes_bare_cons ih hp
    | quoted flag =>
      intro herr
      refine .cons ?_ fun h => by cases h
      show Passes (modeAfter (.quoted flag) c l) l _
      revert herr
      rw [modeAfter, walk]
      split
      · exact ih hp (hnot (by simp))
      · exact ih (typeAfter_ne_newline hp c) (hnot (by simp))
    | sub depth =>
      intro herr
      refine .cons ?_ fun h => by cases h
      show Passes (modeAfter (.sub depth) c l) l _
      revert herr
      rw [modeAfter, walk]
      split
      · exact ih hp (hnot (by simp))
      · exact ih hp (hnot (by simp))
    | paren => exact fun herr => .cons (@ih (.sub 1) p k hp (hnot (by simp)) herr) fun h => by cases h
    | blank =>
      obtain rfl : c = chr ' ' := hblank rfl c rfl
      rw [walk]
      split
      · exact fun _ => .stop rfl hp
      · rename_i hends
        intro herr
        have hspace : isspace (peekOf l) = false := by
          rw [endsBlank, Bool.or_eq_true, not_or] at hends
          exact Bool.eq_false_iff.mpr hends.1
        exact .cons (@ih .bare p k hp (hnot (by simp)) herr) fun _ =>
          ⟨by decide, fun h => absurd h.1 (by decide), fun _ => hspace⟩

/-! ## Runs -/

theorem newlineCalls_cons (call : Nat × Token) (calls : List (Nat × Token)) :
    newlineCalls (call :: calls) =
      if call.2.type = .newline then (call.1, call.2.value) :: newlineCalls calls
      else newlineCalls calls := by
  rw [newlineCalls, List.filter_cons]
  by_cases htype : call.2.type = .newline
  · rw [if_pos (by rw [htype]; rfl), if_pos htype]
    rfl
  · rw [if_neg (by simpa using htype), if_neg htype]
    rfl

theorem NextToken.text_ne_nil {b text l : Str} {type : TokenType} {ahead : Nat}
    (h : NextToken b text l type ahead) : text ≠ [] := by
  cases h with
  | newline => exact List.cons_ne_nil _ _
  | operator _ htext =>
    obtain ⟨digits, ops, rfl, -, hne, -⟩ := htext.split
    exact fun hnil => hne (List.append_eq_nil_iff.mp hnil).2
  | word _ hne _ _ _ => exact hne

theorem Lexes.newline_bounds {pos : Nat} {l : Str} {lexemes : List Lexeme} {ok : Bool}
    (h : Lexes pos l lexemes ok) {calls : List (Nat × Token)}
    (hrenders : List.Forall₂ Renders lexemes calls) :
    ∀ call ∈ newlineCalls calls, pos ≤ call.1 ∧ call.1 < pos + l.length := by
  induction h generalizing calls with
  | eof _ =>
    cases hrenders with
    | cons hrender hmore =>
      cases hmore
      intro call hcall
      rw [newlineCalls_cons, hrender.type] at hcall
      cases hcall
  | err _ _ =>
    cases hrenders
    exact fun call hcall => by cases hcall
  | @cons pos ahead b text l type lexemes ok hnext _ ih =>
    cases hrenders with
    | @cons _ call' _ calls hrender hmore =>
      intro call hcall
      have hpos := List.length_pos_iff.mpr hnext.text_ne_nil
      have hstart : call'.1 = pos + b.length := hrender.start
      simp only [List.length_append]
      rw [newlineCalls_cons] at hcall
      split at hcall
      · rcases List.mem_cons.mp hcall with rfl | hcall
        · simp only [hstart]
          omega
        · have := ih hmore call hcall
          omega
      · have := ih hmore call hcall
        omega

/-- A token that is not a newline byte, with the blanks in front of it. -/
structure PassesToken (b text l : Str) (type : TokenType) : Prop where
  blanks : OnlyBlanks b
  space : isspace (peekOf (text ++ l)) = false
  positions : ∀ pos, newlinesAt .bare pos (text ++ l) = newlinesAt .bare (pos + text.length) l
  stand : newlinesStand .bare false (text ++ l) =
    (type != .newline && newlinesStand .bare false l)

theorem nextToken_passes {b text l : Str} {type : TokenType} {ahead : Nat}
    (h : NextToken b text l type ahead) :
    (b = [] ∧ text = [chr '\n'] ∧ type = .newline ∧ ahead = 0) ∨ PassesToken b text l type := by
  have hpasses : ∀ {text : Str} {type : TokenType} {ahead : Nat},
      Passes .bare (text ++ l) ⟨type, l, ahead⟩ →
      (∀ pos, newlinesAt .bare pos (text ++ l) = newlinesAt .bare (pos + text.length) l) ∧
        newlinesStand .bare false (text ++ l) =
          (type != .newline && newlinesStand .bare false l) := by
    intro text type ahead hpass
    obtain ⟨⟨text', hsplit, hpos⟩, hstand⟩ := hpass
    obtain rfl : text = text' := List.append_cancel_right hsplit
    exact ⟨hpos, hstand⟩
  cases h with
  | newline => exact .inl ⟨rfl, rfl, rfl, rfl⟩
  | operator hb htext =>
    obtain ⟨hpos, hstand⟩ := hpasses (operator_passes htext l)
    refine .inr ⟨hb, ?_, hpos, hstand⟩
    obtain ⟨digits, ops, rfl, hdigits, hne, hops⟩ := htext.split
    rcases hdigits with rfl | ⟨d, rfl⟩
    · obtain ⟨c, ops, rfl⟩ := List.exists_cons_of_ne_nil hne
      exact (operator_ne (hops c List.mem_cons_self)).1
    · exact (digitByte_starts d).1.1
  | word hb hne hspace hwalk herr =>
    have hpass := @walk_passes (text ++ l) .bare .word 0 (by decide) (fun h => by cases h)
      (by rw [hwalk]; exact herr)
    rw [hwalk] at hpass
    obtain ⟨hpos, hstand⟩ := hpasses hpass
    exact .inr ⟨hb, hspace, hpos, hstand⟩

theorem PassesToken.calls_iff {b text l : Str} {type : TokenType} {pos ahead : Nat}
    (h : PassesToken b text l type) (hne : text ≠ []) {call : Nat × Token}
    {calls : List (Nat × Token)} (hrender : Renders ⟨pos + b.length, type, text, ahead⟩ call)
    (hbounds : ∀ call ∈ newlineCalls calls, pos + b.length ≤ call.1) :
    newlineCalls (call :: calls) = (newlinesAt .bare pos (b ++ text ++ l)).map asToken ↔
      chr '\n' ∉ b ∧ type ≠ .newline ∧ newlineCalls calls =
        (newlinesAt .bare (pos + b.length + text.length) l).map asToken := by
  have htype : call.2.type = type := hrender.type
  rw [List.append_assoc, newlinesAt_blanks h.blanks.1, h.positions, newlineCalls_cons, htype,
    List.map_append]
  constructor
  · intro heq
    have hword : type ≠ .newline := by
      intro hnewline
      rw [if_pos hnewline] at heq
      have hmem : (call.1, call.2.value) ∈ (newlinesAt .bare pos b).map asToken ++
          (newlinesAt .bare (pos + b.length + text.length) l).map asToken :=
        heq ▸ List.mem_cons_self
      rw [← List.map_append] at hmem
      obtain ⟨i, -, hi⟩ := List.mem_map.mp hmem
      have hvalue : [chr '\n'] = call.2.value := (Prod.mk.inj hi).2
      have hprefix : text <+: call.2.value := hrender.text
      obtain ⟨c, text, rfl⟩ := List.exists_cons_of_ne_nil hne
      rw [← hvalue, List.cons_prefix_cons] at hprefix
      exact ne_newline h.space hprefix.1
    rw [if_neg hword] at heq
    have hb : newlinesAt .bare pos b = [] := by
      refine List.eq_nil_iff_forall_not_mem.mpr fun i hi => ?_
      have hmem : asToken i ∈ newlineCalls calls :=
        heq ▸ List.mem_append_left _ (List.mem_map_of_mem hi)
      have hlow : pos + b.length ≤ i := hbounds _ hmem
      have := (newlinesAt_bounds .bare pos b i hi).2
      omega
    rw [hb] at heq
    exact ⟨(newlinesAt_eq_nil_iff h.blanks.1 pos).mp hb, hword, heq⟩
  · intro hcond
    obtain ⟨hb, hword, heq⟩ := hcond
    rw [if_neg hword, (newlinesAt_eq_nil_iff h.blanks.1 pos).mpr hb]
    exact heq

/-- On a text that lexes, the newline tokens are the newlines where all of these stand. -/
theorem Lexes.newlines_iff {pos : Nat} {l : Str} {lexemes : List Lexeme} {ok : Bool}
    (h : Lexes pos l lexemes ok) (hok : ok = true) {calls : List (Nat × Token)}
    (hrenders : List.Forall₂ Renders lexemes calls) :
    newlineCalls calls = (newlinesAt .bare pos l).map asToken ↔
      newlinesStand .bare false l = true := by
  induction h generalizing calls with
  | @eof pos b hb =>
    have hstand := @newlinesStand_onlyBlanks b [] hb rfl
    rw [List.append_nil] at hstand
    rw [hstand, ← newlinesAt_eq_nil_iff hb.1 pos]
    cases hrenders with
    | cons hrender hmore =>
      cases hmore
      rw [newlineCalls_cons, hrender.type]
      exact ⟨fun heq => ⟨List.map_eq_nil_iff.mp heq.symm, rfl⟩, fun hnil => by rw [hnil.1]; rfl⟩
  | err _ _ => cases hok
  | @cons pos ahead b text l type lexemes ok hnext hlexes ih =>
    cases hrenders with
    | @cons _ call _ calls hrender hmore =>
      rcases nextToken_passes hnext with ⟨rfl, rfl, rfl, hahead⟩ | hpasses
      · have hvalue := hrender.value hahead
        have hstart : call.1 = pos := hrender.start
        have htype : call.2.type = .newline := hrender.type
        have hfirst : newlinesAt .bare pos ([] ++ [chr '\n'] ++ l) =
            pos :: newlinesAt .bare (pos + 1) l := rfl
        rw [hfirst, newlineCalls_cons, if_pos htype, hstart, hvalue, List.map_cons]
        rw [show newlinesStand .bare false ([] ++ [chr '\n'] ++ l) =
          newlinesStand .bare false l from rfl, ← ih hok hmore]
        exact ⟨fun heq => (List.cons.inj heq).2, fun heq => congrArg (asToken pos :: ·) heq⟩
      · have hbounds : ∀ call ∈ newlineCalls calls, pos + b.length ≤ call.1 := by
          intro call hcall
          have := (hlexes.newline_bounds hmore call hcall).1
          omega
        rw [hpasses.calls_iff hnext.text_ne_nil hrender hbounds, ih hok hmore, List.append_assoc,
          newlinesStand_onlyBlanks hpasses.blanks hpasses.space, hpasses.stand, Bool.and_eq_true,
          bne_iff_ne]

/-! ## Texts -/

/-- What of a text the lexer does not see. -/
def afterEoi (text : Str) : Str := text.dropWhile (· != 255)

/-- The newline tokens of a run are the newline bytes outside of quotes and substitutions:
as many, in order, each begun at its byte and with that byte as text. -/
def NewlinesTokenized (beyond : Nat → UInt8) (text : Str) (tokens : List Token) : Prop :=
  ∃ calls, Calls beyond (csNew text) 0 calls true ∧ tokens = calls.map Prod.snd ∧
    newlineCalls calls = (newlinesAt .bare 0 text).map asToken

theorem terminated_cons (mode : Mode) (c : UInt8) (l : Str) :
    terminated mode (c :: l) = terminated (modeAfter mode c l) l := by
  cases mode with
  | paren | blank => rfl
  | quoted | sub | bare =>
    rw [terminated, modeAfter]
    repeat' split
    all_goals rfl

theorem modeAfter_append (mode : Mode) (c : UInt8) (front : Str) {back : Str}
    (hback : back.head? ≠ some (chr '(')) :
    modeAfter mode c (front ++ back) = modeAfter mode c front := by
  cases mode with
  | quoted | sub | paren | blank => rfl
  | bare =>
    cases front with
    | nil =>
      have hnot : ¬ (c = chr '$' ∧ back.head? = some (chr '(')) := fun h => hback h.2
      have hnil : ¬ (c = chr '$' ∧ ([] : Str).head? = some (chr '(')) := fun h => by cases h.2
      rw [List.nil_append, modeAfter, modeAfter, if_neg hnot, if_neg hnil]
    | cons d front => rfl

/-- Where nothing is open, the newlines of a text are those of its two parts. -/
theorem newlinesAt_append {mode : Mode} {front back : Str} (hterm : terminated mode front = true)
    (hback : back.head? ≠ some (chr '(')) (pos : Nat) :
    newlinesAt mode pos (front ++ back) =
      newlinesAt mode pos front ++ newlinesAt .bare (pos + front.length) back := by
  induction front generalizing mode pos with
  | nil =>
    cases mode with
    | bare => rfl
    | quoted | sub | paren | blank => cases hterm
  | cons c front ih =>
    rw [terminated_cons] at hterm
    have hpos : pos + 1 + front.length = pos + (c :: front).length := by
      rw [List.length_cons]
      omega
    rw [List.cons_append, newlinesAt, newlinesAt, modeAfter_append _ _ _ hback, ih hterm, hpos]
    split
    · rename_i hnewline
      rw [hnewline.1, hnewline.2, modeAfter_separator (.inl rfl)] at hterm
      rw [ih hterm, hpos]
      rfl
    · rfl

theorem newlineCalls_texts (calls : List (Nat × Token)) :
    (newlineCalls calls).map Prod.snd =
      ((calls.map Prod.snd).filter fun tok => tok.type == .newline).map Token.value := by
  induction calls with
  | nil => rfl
  | cons call calls ih =>
    rw [newlineCalls_cons, List.map_cons, List.filter_cons]
    by_cases htype : call.2.type = .newline
    · rw [if_pos htype, if_pos (by rw [htype]; rfl), List.map_cons, List.map_cons, ih]
    · rw [if_neg htype, if_neg (by simpa using htype), ih]

/-- The newline tokens by number and by text. -/
theorem NewlinesTokenized.texts {beyond : Nat → UInt8} {text : Str} {tokens : List Token}
    (h : NewlinesTokenized beyond text tokens) :
    (tokens.filter fun tok => tok.type == .newline).map Token.value =
      List.replicate (newlinesAt .bare 0 text).length [chr '\n'] := by
  obtain ⟨calls, -, rfl, hnewlines⟩ := h
  rw [← newlineCalls_texts, hnewlines, List.map_map, List.map_eq_replicate_iff]
  exact fun _ _ => rfl

theorem Calls.newlines_iff {beyond : Nat → UInt8} {text : Str} (hnul : NulFree text)
    (hterm : terminated .bare (beforeEoi text) = true) {calls : List (Nat × Token)}
    (h : Calls beyond (csNew text) 0 calls true) :
    newlineCalls calls = (newlinesAt .bare 0 text).map asToken ↔
      newlinesStand .bare false (beforeEoi text) = true ∧
        newlinesAt .bare (beforeEoi text).length (afterEoi text) = [] := by
  obtain ⟨lexemes, hlexes, hrenders⟩ := h.lexes (t := csNew (beforeEoi text)) hnul rfl
  have hback : (afterEoi text).head? ≠ some (chr '(') := by
    intro hparen
    have hnot := List.head?_dropWhile_not (· != (255 : UInt8)) text
    rw [← afterEoi, hparen] at hnot
    cases hnot
  have hsplit : beforeEoi text ++ afterEoi text = text := List.takeWhile_append_dropWhile
  have hpositions := newlinesAt_append hterm hback 0
  rw [hsplit, Nat.zero_add] at hpositions
  have hfront := hlexes.newlines_iff rfl hrenders
  rw [rest_csNew] at hfront
  rw [hpositions, List.map_append, ← hfront]
  constructor
  · intro heq
    have hnone : newlinesAt .bare (beforeEoi text).length (afterEoi text) = [] := by
      refine List.eq_nil_iff_forall_not_mem.mpr fun i hi => ?_
      have hmem : asToken i ∈ newlineCalls calls :=
        heq ▸ List.mem_append_right _ (List.mem_map_of_mem hi)
      have hlt := (hlexes.newline_bounds hrenders _ hmem).2
      rw [rest_csNew] at hlt
      have hle := (newlinesAt_bounds .bare _ _ i hi).1
      have hstart : (asToken i).1 < 0 + (beforeEoi text).length := hlt
      have hi' : (asToken i).1 = i := rfl
      omega
    rw [hnone, List.map_nil, List.append_nil] at heq
    exact ⟨heq, hnone⟩
  · intro hcond
    rw [hcond.2, List.map_nil, List.append_nil]
    exact hcond.1

/-- **When the newlines of a text are its newline tokens.** For every text that lexes:
exactly if none of them stands behind other whitespace or behind a byte 255, and no
backslash outside of quotes stands in front of the letter n. -/
theorem lxTokenize_newlines_iff (beyond : Nat → UInt8) {text : Str} (hnul : NulFree text)
    {list : TokenList} (h : lxTokenize beyond tokenlistNewEmpty (csNew text) = (0, list)) :
    NewlinesTokenized beyond text list.tokens ↔
      newlinesStand .bare false (beforeEoi text) = true ∧
        newlinesAt .bare (beforeEoi text).length (afterEoi text) = [] := by
  have hterm : terminated .bare (beforeEoi text) = true :=
    (lxTokenize_errno_iff beyond text).mp (congrArg Prod.fst h)
  constructor
  · intro htokenized
    obtain ⟨calls, hcalls, -, hnewlines⟩ := htokenized
    exact (hcalls.newlines_iff hnul hterm).mp hnewlines
  · intro hcond
    obtain ⟨calls, ok, hcalls, htokens, hzero⟩ :=
      calls_of_tokenizeFrom beyond tokenlistNewEmpty (csNew text) 0
    have hrun : tokenizeFrom beyond ⟨tokenlistNewEmpty, csNew text, 0⟩ = (0, list) := h
    rw [hrun] at htokens hzero
    rw [hzero rfl] at hcalls
    exact ⟨calls, hcalls, htokens, (hcalls.newlines_iff hnul hterm).mpr hcond⟩

theorem lxTokenize_newlines_lines :
    ∃ list, lxTokenize (fun _ => 0) tokenlistNewEmpty (csNew (str "a\nb")) = (0, list) ∧
      NewlinesTokenized (fun _ => 0) (str "a\nb") list.tokens := by
  have herrno : (lxTokenize (fun _ => 0) tokenlistNewEmpty (csNew (str "a\nb"))).1 = 0 := by
    decide +kernel
  have hcond := lxTokenize_newlines_iff (fun _ => 0) (show NulFree (str "a\nb") by decide)
    (Prod.ext herrno rfl)
  exact ⟨_, Prod.ext herrno rfl, hcond.mpr (by decide)⟩

/-- The newline of `a`, blank, newline, `b` is skipped, and `a\nb` with a backslash and a
letter n has a newline token of another text. -/
theorem lxTokenize_newlines_lost :
    ∃ list list', lxTokenize (fun _ => 0) tokenlistNewEmpty (csNew (str "a \nb")) = (0, list) ∧
      list.tokens = [⟨.word, str "a", 0⟩, ⟨.word, str "b", 0⟩, ⟨.eof, [], 0⟩] ∧
      ¬ NewlinesTokenized (fun _ => 0) (str "a \nb") list.tokens ∧
      lxTokenize (fun _ => 0) tokenlistNewEmpty (csNew (str "a\\nb")) = (0, list') ∧
      list'.tokens = [⟨.newline, str "a\\", 0⟩, ⟨.word, str "nb", 0⟩, ⟨.eof, [], 0⟩] ∧
      ¬ NewlinesTokenized (fun _ => 0) (str "a\\nb") list'.tokens := by
  have hskipped : (lxTokenize (fun _ => 0) tokenlistNewEmpty (csNew (str "a \nb"))).1 = 0 ∧
      (lxTokenize (fun _ => 0) tokenlistNewEmpty (csNew (str "a \nb"))).2.tokens =
        [⟨.word, str "a", 0⟩, ⟨.word, str "b", 0⟩, ⟨.eof, [], 0⟩] := by decide +kernel
  have hescaped : (lxTokenize (fun _ => 0) tokenlistNewEmpty (csNew (str "a\\nb"))).1 = 0 ∧
      (lxTokenize (fun _ => 0) tokenlistNewEmpty (csNew (str "a\\nb"))).2.tokens =
        [⟨.newline, str "a\\", 0⟩, ⟨.word, str "nb", 0⟩, ⟨.eof, [], 0⟩] := by decide +kernel
  obtain ⟨list, hlist, htokens⟩ : ∃ list,
      lxTokenize (fun _ => 0) tokenlistNewEmpty (csNew (str "a \nb")) = (0, list) ∧
        list.tokens = _ := ⟨_, Prod.ext hskipped.1 rfl, hskipped.2⟩
  obtain ⟨list', hlist', htokens'⟩ : ∃ list,
      lxTokenize (fun _ => 0) tokenlistNewEmpty (csNew (str "a\\nb")) = (0, list) ∧
        list.tokens = _ := ⟨_, Prod.ext hescaped.1 rfl, hescaped.2⟩
  refine ⟨list, list', hlist, htokens, ?_, hlist', htokens', ?_⟩
  · rw [htokens]
    exact fun h => absurd h.texts (by decide)
  · rw [htokens']
    exact fun h => absurd h.texts (by decide)

end Shell.Lexer
