import Shell.ExpandQuoting

/-! # Where a command substitution ends

The lexer counts the parentheses of a substitution, so that `$(b)` is one word
for every balanced `b`. `expand_cmdsub` looks for the first closing parenthesis.
The two agree where there is no parenthesis inside. -/
namespace Shell.NestedSubstitution
open Shell.CTypes Shell.Tokenlist Shell.Lexer Shell.Expand

inductive Balanced : Str → Prop
  | nil : Balanced []
  | byte {c : UInt8} {l : Str} (hopen : c ≠ chr '(') (hclose : c ≠ chr ')') (h : Balanced l) :
    Balanced (c :: l)
  | parens {l r : Str} (hl : Balanced l) (hr : Balanced r) :
    Balanced (chr '(' :: (l ++ chr ')' :: r))

/-- A text without parentheses is balanced. -/
theorem Balanced.of_not_mem {l : Str} (hopen : chr '(' ∉ l) (hclose : chr ')' ∉ l) :
    Balanced l := by
  induction l with
  | nil => exact .nil
  | cons c l ih =>
    obtain ⟨hc, hl⟩ := not_or.mp (mt List.mem_cons.mpr hopen)
    obtain ⟨hc', hl'⟩ := not_or.mp (mt List.mem_cons.mpr hclose)
    exact .byte (Ne.symm hc) (Ne.symm hc') (ih hl hl')

/-- The bytes that a substitution cannot hold for the lexer. -/
def Substitutable (b : Str) : Prop := ∀ c ∈ b, c ∉ [chr '`', 0, 255]

instance (b : Str) : Decidable (Substitutable b) :=
  List.decidableBAll (fun c => c ∉ [chr '`', 0, 255]) b

/-- `$(b)`. -/
def substitution (b : Str) : Str := chr '$' :: chr '(' :: (b ++ [chr ')'])

/-! ## The lexer -/

/-- A balanced text leaves the depth as it is. -/
theorem walk_balanced {l : Str} (h : Balanced l) (hl : Substitutable l) (depth : Nat)
    (p : TokenType) (k : Nat) (r : Str) :
    walk (.sub (depth + 1)) p k (l ++ r) = walk (.sub (depth + 1)) p k r := by
  induction h generalizing depth r with
  | nil => rfl
  | @byte c l hopen hclose _ ih =>
    have hback : c ≠ chr '`' := fun h => hl c List.mem_cons_self (by simp [h])
    have hdepth : depthAfter c (depth + 1) = depth + 1 := by
      rw [depthAfter, if_neg (not_or.mpr ⟨hclose, hback⟩), if_neg hopen]
    rw [List.cons_append, walk, hdepth, if_neg (Nat.succ_ne_zero depth)]
    exact ih (fun d hd => hl d (List.mem_cons_of_mem _ hd)) depth r
  | @parens l r' _ _ ihl ihr =>
    have hopen : depthAfter (chr '(') (depth + 1) = depth + 1 + 1 := rfl
    have hclose : depthAfter (chr ')') (depth + 1 + 1) = depth + 1 := rfl
    have htext : chr '(' :: (l ++ chr ')' :: r') ++ r = chr '(' :: (l ++ (chr ')' :: (r' ++ r))) := by
      simp
    rw [htext, walk, hopen, if_neg (Nat.succ_ne_zero _),
      ihl (fun d hd => hl d (by simp [hd])), walk, hclose, if_neg (Nat.succ_ne_zero _)]
    exact ihr (fun d hd => hl d (by simp [hd])) depth r

theorem walk_substitution {b : Str} (h : Balanced b) (hb : Substitutable b) (p : TokenType)
    (k : Nat) (l : Str) : walk .bare p k (substitution b ++ l) = walk .bare p k l := by
  have htext : substitution b ++ l = chr '$' :: chr '(' :: (b ++ chr ')' :: l) := by
    simp [substitution]
  have hdollar : walk .bare p k (chr '$' :: chr '(' :: (b ++ chr ')' :: l)) =
      walk (.sub (0 + 1)) p k (b ++ chr ')' :: l) := rfl
  rw [htext, hdollar, walk_balanced h hb]
  rfl

theorem lexesAs_substitution {b : Str} (h : Balanced b) (hb : Substitutable b)
    (beyond : Nat → UInt8) : LexesAs beyond (substitution b) (substitution b) := by
  have hbegins : Begins (substitution b) := fun c hc => by
    obtain rfl : chr '$' = c := Option.some.inj hc
    exact ⟨rfl, rfl⟩
  have hwalk := walk_substitution h hb .word 0 []
  rw [List.append_nil] at hwalk
  refine lexesAs_of_whole rfl hbegins (fun c hc => ?_) ?_
  · simp only [List.mem_cons, List.mem_append, List.not_mem_nil, or_false] at hc
    rcases hc with rfl | rfl | hc | rfl
    · decide
    · decide
    · have := hb c hc
      simp only [List.mem_cons, List.not_mem_nil, or_false, not_or] at this
      exact this.2
    · decide
  · rw [← substitution, hwalk]
    exact ⟨rfl, onlyBlanks_nil, Nat.le_refl 0⟩

/-! ## The expansion -/

/-- From behind `$(` on, `body` is what is lexed and parsed and run, its output is
appended, and the cursor is left in front of `rest`. -/
def Substitutes (i body rest : Str) : Prop :=
  ∀ (σ : Type) (env : Env σ) (s : σ) (sb : Str),
    expandCmdsub exact env i s sb = (env.cmdsub body s).map fun r => (rest, sb ++ r.1, r.2)

theorem not_mem_scanTo (stop : UInt8) (i : Str) : stop ∉ (scanTo stop i).1 := by
  induction i with
  | nil => exact List.not_mem_nil
  | cons c i ih =>
    rw [scanTo]
    split
    · exact List.not_mem_nil
    · rename_i hc
      exact fun hmem => (List.mem_cons.mp hmem).elim (fun h => hc h.symm) ih

/-- A balanced text with an opening parenthesis has a closing one. -/
theorem Balanced.open_not_mem {b : Str} (h : Balanced b) (hclose : chr ')' ∉ b) : chr '(' ∉ b := by
  induction h with
  | nil => exact List.not_mem_nil
  | byte hopen _ _ ih =>
    intro hmem
    rcases List.mem_cons.mp hmem with h | hmem
    · exact hopen h.symm
    · exact ih (fun hc => hclose (List.mem_cons_of_mem _ hc)) hmem
  | parens _ _ _ _ => exact absurd (by simp) hclose

/-- An environment that notes the texts it is given. -/
def noting : Env (List Str) where
  varLookup _ _ := none
  varLookupn _ _ _ := none
  varAssign s _ _ := s
  fresh _ := (fun _ => 0, fun _ => 0)
  cmdsub body noted := some ([], noted ++ [body])

theorem substitutes_iff {b : Str} (h : Balanced b) (rest : Str) :
    Substitutes (b ++ chr ')' :: rest) b rest ↔ chr '(' ∉ b ∧ chr ')' ∉ b := by
  constructor
  · intro hsub
    have hclose : chr ')' ∉ b := by
      have hnoted := hsub (List Str) noting [] []
      rw [expandCmdsub] at hnoted
      have hscan := not_mem_scanTo (chr ')') (b ++ chr ')' :: rest)
      rcases hfound : scanTo (chr ')') (b ++ chr ')' :: rest) with ⟨body, _ | rest'⟩
      · rw [hfound] at hnoted
        cases hnoted
      · rw [hfound] at hnoted hscan
        have hbody : [body] = [b] := congrArg (fun r => r.2.2) (Option.some.inj hnoted)
        rwa [List.singleton_inj.mp hbody] at hscan
    exact ⟨h.open_not_mem hclose, hclose⟩
  · rintro ⟨-, hclose⟩ σ env s sb
    simp only [expandCmdsub, scanTo_append hclose]
    cases env.cmdsub b s with
    | none => rfl
    | some r => rfl

/-- **Lexer and expander agree on where a substitution ends when nothing is nested.**
To the lexer `$(b)` is one word for every balanced `b`; the expander takes `b` and goes
on behind its parenthesis exactly when `b` has no parentheses. -/
theorem substitution_agrees_iff {b : Str} (h : Balanced b) (hb : Substitutable b)
    (beyond : Nat → UInt8) (rest : Str) :
    LexesAs beyond (substitution b) (substitution b) ∧
      (Substitutes (b ++ chr ')' :: rest) b rest ↔ chr '(' ∉ b ∧ chr ')' ∉ b) :=
  ⟨lexesAs_substitution h hb beyond, substitutes_iff h rest⟩

/-- `$(a b)`. -/
theorem substitution_agrees_flat :
    LexesAs (fun _ => 0) (str "$(a b)") (str "$(a b)") ∧
      Substitutes (str "a b)c") (str "a b") (str "c") := by
  have hbalanced : Balanced (str "a b") := .of_not_mem (by decide) (by decide)
  obtain ⟨hlex, hsub⟩ := substitution_agrees_iff hbalanced (by decide) (fun _ => 0) (str "c")
  exact ⟨hlex, hsub.mpr (by decide)⟩

/-- `$(a(b)c)` is one word, and `a(b` is what its expansion runs. -/
theorem substitution_nested :
    LexesAs (fun _ => 0) (str "$(a(b)c)") (str "$(a(b)c)") ∧
      expandCmdsub exact noting (str "a(b)c)") [] [] =
        some (str "c)", [], [str "a(b"]) := by
  have hbalanced : Balanced (str "a(b)c") :=
    .byte (by decide) (by decide) (.parens (.of_not_mem (l := str "b") (by decide) (by decide))
      (.of_not_mem (l := str "c") (by decide) (by decide)))
  exact ⟨lexesAs_substitution hbalanced (by decide) _, rfl⟩

end Shell.NestedSubstitution
