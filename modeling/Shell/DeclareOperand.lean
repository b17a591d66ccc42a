import Shell.AssignmentSplit

/-! # One operand of `declare` (builtin_declare in builtins.c)

`builtin_declare` works on a copy of its operand, whose front `strsep` makes the
name. Without an `=` the copy is freed and then goes on being used: what its block
reads as from there on is a parameter. -/
namespace Shell.DeclareOperand
open Shell.CTypes Shell.Expand Shell.Variables Shell.AssignmentSplit

/-- The copy that `name` points to. -/
structure Copy where
  name : Str
  live : Bool
  /-- It was read or freed again after it had been freed. -/
  misused : Bool

def Copy.use (copy : Copy) : Copy := { copy with misused := copy.misused || !copy.live }

/-- `free((char*) name)`, where the block then reads as `freed`. -/
def Copy.free (copy : Copy) (freed : Str) : Copy :=
  { name := freed, live := false, misused := copy.misused || !copy.live }

structure Report where
  ret : Int
  err : Str
  /-- `none` where `ht_put` copies a null value. -/
  tables : Option Tables
  copy : Copy
  /-- What `ht_put` is given. -/
  put : Option (Str × Option Str)

/-- `fprintf(stderr, "declare: `%s=%s': not a valid identifier\n", name, declaration)` -/
def notIdentifier (name : Str) (declaration : Option Str) : Str :=
  str "declare: `" ++ name ++ str "=" ++ declaration.getD (str "(null)") ++
    str "': not a valid identifier\n"

/-- `builtin_declare` with one operand. -/
def builtinDeclareOperand (freed operand : Str) (s : Tables) : Report :=
  let (name, declaration) := scanTo (chr '=') operand
  let copy : Copy := { name := name, live := true, misused := false }
  let whole := name = operand
  let copy := if whole then copy.free freed else copy
  let err := if whole then str "declare: invalid declaration.\n" else []
  -- the branch above does not return
  if validVariableName copy.name then
    let table := varTableCheck s.expand
    { ret := 0, err := err,
      tables := declaration.map fun value =>
        { s with expand := some (htPut table copy.name value false) },
      copy := copy.use.free freed, put := some (copy.name, declaration) }
  else
    { ret := -1, err := err ++ notIdentifier copy.name declaration, tables := some s,
      copy := copy.use.free freed, put := none }

/-! ## What it is for -/

def IsLetter (c : UInt8) : Prop :=
  chr 'a' ≤ c ∧ c ≤ chr 'z' ∨ chr 'A' ≤ c ∧ c ≤ chr 'Z' ∨ c = chr '_'

def IsDigit (c : UInt8) : Prop := chr '0' ≤ c ∧ c ≤ chr '9'

/-- `[A-Za-z_][A-Za-z0-9_]*` -/
inductive IsName : Str → Prop
  | mk {c : UInt8} {rest : Str} :
    IsLetter c → (∀ d ∈ rest, IsLetter d ∨ IsDigit d) → IsName (c :: rest)

/-- The operand is `NAME=value`. -/
def Declares (operand name value : Str) : Prop :=
  operand = name ++ chr '=' :: value ∧ IsName name

/-- `NAME=value` binds the name and nothing else; any other operand is refused, and
neither the freed copy nor a null value is used. -/
structure Declared (freed operand : Str) (s : Tables) : Prop where
  binds : ∀ name value, Declares operand name value →
    (builtinDeclareOperand freed operand s).ret = 0 ∧
    ∃ s', (builtinDeclareOperand freed operand s).tables = some s' ∧ s'.vars = s.vars ∧
      ∀ key, varTableCheck s'.expand key =
        if key = name then some (value, false) else varTableCheck s.expand key
  refuses : (¬ ∃ name value, Declares operand name value) →
    (builtinDeclareOperand freed operand s).ret ≠ 0 ∧
    (builtinDeclareOperand freed operand s).tables = some s ∧
    (builtinDeclareOperand freed operand s).copy.misused = false ∧
    ∀ name, (builtinDeclareOperand freed operand s).put ≠ some (name, none)

/-! ## Names -/

theorem isLetter_iff {c : UInt8} : (isalpha c || c == chr '_') = true ↔ IsLetter c := by
  simp [isalpha, IsLetter, or_assoc]

theorem isLetter_or_isDigit_iff {c : UInt8} :
    (isalnum c || c == chr '_') = true ↔ IsLetter c ∨ IsDigit c := by
  simp only [isalnum, isalpha, IsLetter, IsDigit, Bool.or_eq_true, Bool.and_eq_true,
    decide_eq_true_eq, beq_iff_eq]
  tauto

theorem validVariableName_iff {name : Str} : validVariableName name = true ↔ IsName name := by
  cases name with
  | nil =>
    constructor
    · intro h
      cases h
    · intro h
      cases h
  | cons c rest =>
    rw [validVariableName, validVariableStart, Bool.and_eq_true, isLetter_iff, List.tail_cons,
      List.all_eq_true]
    simp only [isLetter_or_isDigit_iff]
    constructor
    · intro h
      exact .mk h.1 h.2
    · intro h
      cases h with
      | mk hstart hrest => exact ⟨hstart, hrest⟩

/-- No letter and no digit is `=`, so the first `=` ends the name. -/
theorem not_mem_of_isName {name : Str} (h : IsName name) : chr '=' ∉ name := by
  have hletter : ¬ IsLetter (chr '=') := by unfold IsLetter; decide
  have hdigit : ¬ IsDigit (chr '=') := by unfold IsDigit; decide
  cases h with
  | mk hstart hrest =>
    intro hmem
    rcases List.mem_cons.mp hmem with heq | hmem
    · exact hletter (heq ▸ hstart)
    · exact (hrest _ hmem).elim hletter hdigit

theorem scanTo_none {operand : Str} (h : chr '=' ∉ operand) :
    scanTo (chr '=') operand = (operand, none) := by
  induction operand with
  | nil => rfl
  | cons c operand ih =>
    rw [List.mem_cons, not_or] at h
    rw [scanTo, if_neg (Ne.symm h.1), ih h.2]

/-! ## Operands with and without an `=` -/

variable {freed operand : Str} {s : Tables}

theorem beforeEquals_ne (h : chr '=' ∈ operand) : beforeEquals operand ≠ operand := by
  intro heq
  exact not_mem_beforeEquals operand (heq.symm ▸ h)

/-- The name of a `NAME=value` is what stands in front of its first `=`. -/
theorem declares_iff_parts {name value : Str} : Declares operand name value ↔
    chr '=' ∈ operand ∧ name = beforeEquals operand ∧ value = afterEquals operand ∧ IsName name := by
  constructor
  · intro h
    obtain ⟨rfl, hname⟩ := h
    have hmem : chr '=' ∈ name ++ chr '=' :: value := by simp
    have hscan : scanTo (chr '=') (name ++ chr '=' :: value) = (name, some value) :=
      scanTo_append (not_mem_of_isName hname)
    rw [scanTo_equals hmem] at hscan
    obtain ⟨hbefore, hafter⟩ := Prod.mk.inj hscan
    exact ⟨hmem, hbefore.symm, (Option.some.inj hafter).symm, hname⟩
  · intro h
    obtain ⟨hmem, rfl, rfl, hname⟩ := h
    exact ⟨(parts_append hmem).symm, hname⟩

/-- A copy that was split is live until the call returns. -/
theorem builtinDeclareOperand_equals (h : chr '=' ∈ operand) :
    builtinDeclareOperand freed operand s =
      if validVariableName (beforeEquals operand) then
        { ret := 0, err := [],
          tables := some { s with
            expand := some (htPut (varTableCheck s.expand) (beforeEquals operand)
              (afterEquals operand) false) },
          copy := { name := freed, live := false, misused := false },
          put := some (beforeEquals operand, some (afterEquals operand)) }
      else
        { ret := -1, err := notIdentifier (beforeEquals operand) (some (afterEquals operand)),
          tables := some s, copy := { name := freed, live := false, misused := false },
          put := none } := by
  simp only [builtinDeclareOperand, scanTo_equals h, beforeEquals_ne h, if_false, Option.map_some,
    List.nil_append, Copy.use, Copy.free, Bool.not_true, Bool.or_false]

theorem misused_of_not_mem (h : chr '=' ∉ operand) :
    (builtinDeclareOperand freed operand s).copy.misused = true := by
  simp only [builtinDeclareOperand, scanTo_none h, if_true]
  split <;> rfl

theorem declared_of_mem (h : chr '=' ∈ operand) : Declared freed operand s := by
  constructor
  · intro name value hdeclares
    obtain ⟨-, rfl, rfl, hname⟩ := declares_iff_parts.mp hdeclares
    rw [builtinDeclareOperand_equals h, if_pos (validVariableName_iff.mpr hname)]
    exact ⟨rfl, _, rfl, rfl, fun key => rfl⟩
  · intro hnone
    have hinvalid : ¬ validVariableName (beforeEquals operand) = true := by
      intro hvalid
      exact hnone ⟨_, _, declares_iff_parts.mpr ⟨h, rfl, rfl, validVariableName_iff.mp hvalid⟩⟩
    rw [builtinDeclareOperand_equals h, if_neg hinvalid]
    exact ⟨by simp, rfl, rfl, fun name => by simp⟩

theorem not_declared_of_not_mem (h : chr '=' ∉ operand) : ¬ Declared freed operand s := by
  intro hdeclared
  have hrefuses := hdeclared.refuses fun hdeclares => by
    obtain ⟨name, value, hdeclares⟩ := hdeclares
    exact h (declares_iff_parts.mp hdeclares).1
  have hunused := hrefuses.2.2.1
  rw [misused_of_not_mem h] at hunused
  cases hunused

/-- **When `declare` treats its operand as it should.** Without an `=` it goes on
with the copy it has freed. -/
theorem declared_iff (operand : Str) :
    (∀ freed s, Declared freed operand s) ↔ chr '=' ∈ operand := by
  constructor
  · intro h
    by_contra hnot
    exact not_declared_of_not_mem hnot (h [] { vars := none, expand := none })
  · intro h freed s
    exact declared_of_mem h

/-- `declare foo`: the copy is freed, and if its block still reads as a name, the
name is stored with a null value. -/
theorem not_declared_foo : ¬ Declared (str "foo") (str "foo") { vars := none, expand := none } ∧
    (builtinDeclareOperand (str "foo") (str "foo") { vars := none, expand := none }).put =
      some (str "foo", none) :=
  ⟨not_declared_of_not_mem (by decide), rfl⟩

end Shell.DeclareOperand
