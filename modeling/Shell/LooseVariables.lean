import Shell.ExpandQuoting
import Shell.Variables

/-! # Variables without braces (expand_variable in expand.c)

Behind a dollar sign `expand_variable` takes the shortest text that is the name of
a variable, and when there is none all up to a space or the end of the word. It
does not look at which bytes can be part of a name. -/
namespace Shell.LooseVariables
open Shell.CTypes Shell.Expand Shell.Variables

variable {σ : Type} {env : Env σ} {s : σ} {sb name rest : Str}

/-- No variable's name is a proper prefix of the text. -/
def NoPrefixSet (lookup : Str → Option Str) (name : Str) : Prop :=
  ∀ p, p ≠ [] → p <+: name → p ≠ name → lookup p = none

/-- The name is set, or the word ends behind it or goes on with a space. -/
def Delimited (lookup : Str → Option Str) (name rest : Str) : Prop :=
  lookup name ≠ none ∨ rest = [] ∨ rest.head? = some (chr ' ')

theorem noPrefixSet_cons {lookup : Str → Option Str} {c d : UInt8} {l tmp : Str} :
    NoPrefixSet (fun p => lookup (tmp ++ p)) (c :: d :: l) ↔
      lookup (tmp ++ [c]) = none ∧ NoPrefixSet (fun p => lookup (tmp ++ [c] ++ p)) (d :: l) := by
  constructor
  · intro h
    refine ⟨h [c] (List.cons_ne_nil _ _) ⟨d :: l, rfl⟩ (by simp), fun p hp hstarts hne => ?_⟩
    have hlookup := h (c :: p) (List.cons_ne_nil _ _)
      (List.cons_prefix_cons.mpr ⟨rfl, hstarts⟩) (fun heq => hne (List.cons.inj heq).2)
    simpa only [List.append_assoc, List.singleton_append] using hlookup
  · rintro ⟨hc, h⟩ p hp hstarts hne
    obtain ⟨e, q, rfl⟩ := List.exists_cons_of_ne_nil hp
    obtain ⟨rfl, hq⟩ := List.cons_prefix_cons.mp hstarts
    cases q with
    | nil => exact hc
    | cons f q =>
      have hlookup := h (f :: q) (List.cons_ne_nil _ _) hq fun heq => hne (congrArg _ heq)
      simpa only [List.append_assoc, List.singleton_append] using hlookup

theorem rest_ne_of_length {r r' sb' : Str} (h : r.length ≠ r'.length) :
    some (r, sb) ≠ some (r', sb') := fun heq =>
  h (congrArg (fun r => r.1.length) (Option.some.inj heq))

/-- The loop leaves all of `rest` only in front of a space or of the end. -/
theorem expandLooseLoop_rest_iff (tmp : Str) :
    expandLooseLoop exact env s sb rest tmp tmp.length = some (rest, sb) ↔
      rest = [] ∨ rest.head? = some (chr ' ') := by
  cases rest with
  | nil => simp [expandLooseLoop]
  | cons c rest =>
    by_cases hspace : c = chr ' '
    · simp [expandLooseLoop, hspace]
    · simp only [List.cons_ne_nil, List.head?_cons, Option.some.injEq, hspace, or_self, iff_false]
      rw [expandLooseLoop_exact hspace]
      intro h
      split at h
      · exact rest_ne_of_length (Nat.succ_ne_self _).symm h
      · have hlen := length_expandLooseLoop h
        simp at hlen

/-- The loop in front of the bytes of a name, `tmp` being those it has read. -/
theorem expandLooseLoop_name_iff
    (hlookupn : ∀ p n, env.varLookupn s p n = env.varLookup s (p.take n))
    (hname : name ≠ []) (hspace : chr ' ' ∉ name) (tmp : Str) :
    expandLooseLoop exact env s sb (name ++ rest) tmp tmp.length =
        some (rest, sb ++ (env.varLookup s (tmp ++ name)).getD []) ↔
      NoPrefixSet (fun p => env.varLookup s (tmp ++ p)) name ∧
        Delimited (fun p => env.varLookup s (tmp ++ p)) name rest := by
  induction name generalizing tmp with
  | nil => exact absurd rfl hname
  | cons c name ih =>
    have hc : c ≠ chr ' ' := fun h => hspace (h ▸ List.mem_cons_self)
    have htake : (tmp ++ [c]).take (tmp.length + 1) = tmp ++ [c] :=
      List.take_of_length_le (by simp)
    have hnext : (tmp ++ [c]).length = tmp.length + 1 := by simp
    rw [List.cons_append, expandLooseLoop_exact hc, hlookupn, htake, ← hnext]
    cases name with
    | nil =>
      have hnone : NoPrefixSet (fun p => env.varLookup s (tmp ++ p)) [c] := by
        intro p hp hstarts hne
        obtain ⟨e, q, rfl⟩ := List.exists_cons_of_ne_nil hp
        obtain ⟨rfl, hq⟩ := List.cons_prefix_cons.mp hstarts
        rw [List.prefix_nil.mp hq] at hne
        exact absurd rfl hne
      simp only [Delimited, hnone, true_and, List.nil_append]
      cases hval : env.varLookup s (tmp ++ [c]) with
      | some val => simp
      | none =>
        simp only [Option.getD_none, List.append_nil, ne_eq, not_true_eq_false, false_or]
        exact expandLooseLoop_rest_iff (tmp ++ [c])
    | cons d name =>
      rw [noPrefixSet_cons]
      cases hval : env.varLookup s (tmp ++ [c]) with
      | some val =>
        simp only [reduceCtorEq, false_and, iff_false]
        refine rest_ne_of_length ?_
        rw [List.length_append, List.length_cons]
        omega
      | none =>
        have hrest := ih (List.cons_ne_nil _ _) (fun h => hspace (List.mem_cons_of_mem _ h))
          (tmp ++ [c])
        simp only [Delimited, List.append_assoc] at hrest ⊢
        simpa using hrest

theorem validVariableName_bytes (hname : validVariableName name = true) :
    name ≠ [] ∧ ∀ c ∈ name, isalnum c = true ∨ c = chr '_' := by
  rw [validVariableName, Bool.and_eq_true, List.all_eq_true] at hname
  obtain ⟨hstart, htail⟩ := hname
  cases name with
  | nil => cases hstart
  | cons c name =>
    refine ⟨List.cons_ne_nil _ _, fun d hd => ?_⟩
    rcases List.mem_cons.mp hd with rfl | hd
    · rw [validVariableStart, Bool.or_eq_true, beq_iff_eq] at hstart
      exact hstart.imp_left fun h => by rw [isalnum, h, Bool.true_or]
    · simpa using htail d hd

/-- No byte of a name is of another kind. -/
theorem not_mem_of_validVariableName (hname : validVariableName name = true) {c : UInt8}
    (hc : isalnum c = false) (hc' : c ≠ chr '_') : c ∉ name := fun hmem => by
  rcases (validVariableName_bytes hname).2 c hmem with h | h
  · rw [hc] at h
    cases h
  · exact hc' h

/-- **`$NAME` is read as that variable exactly when no prefix of the name is one, and
it is set or a space or the end of the word follows.** -/
theorem expandVariable_name_iff
    (hlookupn : ∀ p n, env.varLookupn s p n = env.varLookup s (p.take n))
    (hname : validVariableName name = true) (rest sb : Str) :
    expandVariable exact env (name ++ rest) s sb =
        some (rest, sb ++ (env.varLookup s name).getD []) ↔
      NoPrefixSet (env.varLookup s) name ∧ Delimited (env.varLookup s) name rest := by
  have hspace := not_mem_of_validVariableName hname (c := chr ' ') (by decide) (by decide)
  have hbrace := not_mem_of_validVariableName hname (c := chr '\x7b') (by decide) (by decide)
  have hne := (validVariableName_bytes hname).1
  obtain ⟨c, name, rfl⟩ := List.exists_cons_of_ne_nil hne
  have hc : c ≠ chr '\x7b' := fun h => hbrace (h ▸ List.mem_cons_self)
  rw [List.cons_append, expandVariable, if_neg hc]
  exact expandLooseLoop_name_iff hlookupn hne hspace []

/-- The variables of a table. -/
def tableEnv (lookup : Str → Option Str) : Env Unit where
  varLookup _ := lookup
  varLookupn _ p n := lookup (p.take n)
  varAssign s _ _ := s
  fresh _ := (fun _ => 0, fun _ => 0)
  cmdsub _ s := some ([], s)

/-- `$AB/c` with only `AB` set. -/
theorem expandVariable_name_set :
    let lookup : Str → Option Str := fun p => if p = str "AB" then some (str "x") else none
    expandVariable exact (tableEnv lookup) (str "AB" ++ str "/c") () [] =
      some (str "/c", str "x") := by
  intro lookup
  refine (expandVariable_name_iff (fun _ _ => rfl) (by decide) _ _).mpr ⟨?_, .inl (by decide)⟩
  intro p _ _ hne
  exact if_neg hne

/-- `$AB/c` with `AB` unset takes all of the word, and with `A` set as well as `AB` only
the `A`. -/
theorem expandVariable_name_missed :
    expandVariable exact (tableEnv fun _ => none) (str "AB" ++ str "/c") () [] = some ([], []) ∧
      expandVariable exact
          (tableEnv fun p => if p = str "AB" then some (str "x")
            else if p = str "A" then some (str "y") else none)
          (str "AB" ++ str "/c") () [] =
        some (str "B/c", str "y") := by
  decide

end Shell.LooseVariables
