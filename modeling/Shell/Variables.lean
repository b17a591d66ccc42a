import Shell.Exec
import Shell.StringbuilderRuns

/-! # Shell variables (vars.c, and `declare` of builtins.c)

The source has two objects called `variable_table`: a static one in vars.c, that
`var_lookup` and `var_assign` use, and one in expand.c, that `declare` uses. Both
are created when they are needed first. A hash table is a map here. -/
namespace Shell.Variables
open Shell.CTypes Shell.Stringbuilder Shell.Expand Shell.Exec

/-- A value, and whether it is exported. -/
abbrev Table := Str → Option (Str × Bool)

def htNew : Table := fun _ => none

def htPut (table : Table) (key value : Str) (exported : Bool) : Table := fun k =>
  if k = key then some (value, exported) else table k

def htGet (table : Table) (key : Str) : Option Str := (table key).map Prod.fst

def htContains (table : Table) (key : Str) : Bool := (table key).isSome

structure Tables where
  /-- `variable_table` of vars.c. -/
  vars : Option Table
  /-- `variable_table` of expand.c. -/
  expand : Option Table

def varTableCheck (variableTable : Option Table) : Table := variableTable.getD htNew

/-! ## vars.c -/

def varLookup (s : Tables) (name : Str) : Option Str := htGet (varTableCheck s.vars) name

def varLookupn (s : Tables) (name : Str) (count : Nat) : Option Str := varLookup s (name.take count)

def varAssign (s : Tables) (name value : Str) : Tables :=
  { s with vars := some (htPut (varTableCheck s.vars) name value false) }

def shellVars (fresh : Cells × Cells) : Vars Tables where
  varLookup := varLookup
  varLookupn := varLookupn
  varAssign := varAssign
  fresh _ := fresh

/-! ## builtins.c -/

def isalpha (c : UInt8) : Bool :=
  chr 'a' ≤ c && c ≤ chr 'z' || chr 'A' ≤ c && c ≤ chr 'Z'

def isalnum (c : UInt8) : Bool := isalpha c || chr '0' ≤ c && c ≤ chr '9'

def validVariableStart : Str → Bool
  | [] => false
  | c :: _ => isalpha c || c == chr '_'

def validVariableName (name : Str) : Bool :=
  validVariableStart name && name.tail.all fun c => isalnum c || c == chr '_'

structure Declared where
  ret : Int
  out : Str
  err : Str
  tables : Tables

def builtinDeclare (argv : List Str) (s : Tables) : Option Declared :=
  match argv with
  | [_, declaration] =>
    match scanTo (chr '=') declaration with
    -- the name is freed, and then tested and stored
    | (_, none) => none
    | (name, some declaration) =>
      if validVariableName name then
        let table := htPut (varTableCheck s.expand) name declaration false
        some { ret := 0, out := [], err := [], tables := { s with expand := some table } }
      else
        let err := str "declare: `" ++ name ++ str "=" ++ declaration ++
          str "': not a valid identifier\n"
        some { ret := -1, out := [], err := err, tables := s }
  | [_, option, variableName] =>
    if option.take 2 = str "-p" then
      let table := varTableCheck s.expand
      let tables := { s with expand := some table }
      match htGet table variableName with
      | none =>
        let err := str "declare: " ++ variableName ++ str ": not found\n"
        some { ret := -1, out := [], err := err, tables := tables }
      | some value =>
        let out := str "declare -- " ++ variableName ++ str "=\"" ++ value ++ str "\"\n"
        some { ret := 0, out := out, err := [], tables := tables }
    else some { ret := 0, out := [], err := [], tables := s }
  | _ => some { ret := 0, out := [], err := [], tables := s }

/-- The lookup of `declare -p`. -/
def declareLookup (s : Tables) (name : Str) : Option Str := htGet (varTableCheck s.expand) name

/-! ## Runs -/

/-- The parts of a `NAME=value`. -/
structure Setting where
  name : Str
  value : Str
  noEquals : chr '=' ∉ name
  nameNulFree : NulFree name
  valueNulFree : NulFree value

def Setting.text (p : Setting) : Str := p.name ++ chr '=' :: p.value

inductive VarCall
  /-- A `declare NAME=value` that succeeds. -/
  | declare (p : Setting) (valid : validVariableName p.name = true)
  /-- A command `NAME=value`, and what its two new blocks hold. -/
  | assign (p : Setting) (fresh : Cells × Cells)

def VarCall.setting : VarCall → Setting
  | .declare p _ => p
  | .assign p _ => p

def runCall (s : Tables) : VarCall → Option Tables
  | .declare p _ => (builtinDeclare [str "declare", p.text] s).map Declared.tables
  | .assign p fresh => executeAssignment (shellVars fresh) p.text s

def runCalls (s : Tables) (calls : List VarCall) : Option Tables := calls.foldlM runCall s

/-- The tables behind `var_init_from_environ`. -/
def startTables (environ : Table) : Tables where
  vars := some environ
  expand := none

/-- The value that the last call for the name gives. -/
def lastValue (name : Str) (calls : List VarCall) : Option Str :=
  calls.reverse.findSome? fun call =>
    if call.setting.name = name then some call.setting.value else none

def lastDeclared (name : Str) (calls : List VarCall) : Option Str :=
  calls.reverse.findSome? fun
    | .declare p _ => if p.name = name then some p.value else none
    | .assign _ _ => none

/-- The value of the last assignment, and what the new block for it holds. -/
def lastAssigned (name : Str) (calls : List VarCall) : Option (Str × Cells) :=
  calls.reverse.findSome? fun
    | .declare _ _ => none
    | .assign p fresh => if p.name = name then some (p.value, fresh.2) else none

/-! ## What is stored -/

/-- A `declare NAME=value` succeeds exactly where the name is valid. -/
theorem builtinDeclare_setting (p : Setting) (s : Tables) :
    ∃ declared, builtinDeclare [str "declare", p.text] s = some declared ∧
      (declared.ret = 0 ↔ validVariableName p.name = true) ∧
      (validVariableName p.name = true → declared.tables =
        { s with expand := some (htPut (varTableCheck s.expand) p.name p.value false) }) := by
  simp only [builtinDeclare, Setting.text, scanTo_append p.noEquals]
  by_cases h : validVariableName p.name = true
  · rw [if_pos h]
    exact ⟨_, rfl, ⟨fun _ => h, fun _ => rfl⟩, fun _ => rfl⟩
  · rw [if_neg h]
    refine ⟨_, rfl, ⟨fun hret => ?_, fun hvalid => absurd hvalid h⟩, fun hvalid => absurd hvalid h⟩
    simp at hret

/-- The new block of `assignment_split` reads as `text` once the value is copied to
its front: the bytes that it held behind the value, up to a NUL, belong to it. -/
structure BlockHolds (cells : Cells) (value text : Str) : Prop where
  start : value <+: text
  rest : ∀ i, value.length ≤ i → (h : i < text.length) → cells i = text[i] ∧ cells i ≠ 0
  nul : cells text.length = 0
  inside : text.length < 8 * value.length + 1

theorem storeBytes_of_lt {cells : Cells} {bytes : List UInt8} {i : Nat} (h : i < bytes.length) :
    storeBytes cells 0 bytes i = bytes[i] := by
  simp [storeBytes, List.getElem?_eq_getElem h]

theorem storeBytes_of_le {cells : Cells} {bytes : List UInt8} {i : Nat} (h : bytes.length ≤ i) :
    storeBytes cells 0 bytes i = cells i := by
  simp [storeBytes, List.getElem?_eq_none h]

/-- What a block reads as: the text in front of its first NUL. -/
theorem cstr_eq_some_iff {cells : Cells} {size : Nat} {text : Str} :
    (Block.mk cells size).cstr = some text ↔ text.length < size ∧ cells text.length = 0 ∧
      ∀ i, (h : i < text.length) → cells i = text[i] ∧ cells i ≠ 0 := by
  rw [Block.cstr, Option.map_eq_some_iff]
  constructor
  · intro hcond
    obtain ⟨n, hn, rfl⟩ := hcond
    unfold firstNul at hn
    rw [List.find?_range'_eq_some] at hn
    obtain ⟨hz, hmem, hbefore⟩ := hn
    simp only [List.mem_range'_1, List.length_map, List.length_range] at hmem ⊢
    refine ⟨by omega, by simpa using hz, fun i hi => ⟨by simp, ?_⟩⟩
    simpa using hbefore i (Nat.zero_le i) hi
  · intro hcond
    obtain ⟨hlt, hz, htext⟩ := hcond
    refine ⟨text.length, firstNul_eq (Nat.zero_le _) hlt hz fun i _ hi => (htext i hi).2, ?_⟩
    apply List.ext_getElem
    · simp
    · intro i hi hi'
      simpa using (htext i hi').1

theorem cstr_nameBlock {new : Cells} {name : Str} (h : NulFree name) :
    (Block.mk (storeBytes new 0 (name ++ [0])) (name.length + 1)).cstr = some name := by
  refine cstr_eq_some_iff.mpr ⟨Nat.lt_succ_self _, ?_, fun i hi => ?_⟩
  · rw [storeBytes_of_lt (by simp)]
    simp
  · rw [storeBytes_of_lt (by simp; omega), List.getElem_append_left hi]
    exact ⟨rfl, h _ (List.getElem_mem hi)⟩

theorem cstr_valueBlock {new : Cells} {value text : Str} (h : NulFree value) :
    (Block.mk (storeBytes new 0 value) (8 * value.length + 1)).cstr = some text ↔
      BlockHolds new value text := by
  rw [cstr_eq_some_iff]
  constructor
  · intro hcond
    obtain ⟨hlt, hz, htext⟩ := hcond
    have hle : value.length ≤ text.length := by
      by_contra hgt
      rw [storeBytes_of_lt (by omega)] at hz
      exact h _ (List.getElem_mem _) hz
    refine ⟨?_, fun i hi hit => ?_, ?_, hlt⟩
    · rw [List.prefix_iff_eq_take]
      apply List.ext_getElem
      · simp [hle]
      · intro i hi hi'
        have := (htext i (by omega)).1
        rw [storeBytes_of_lt hi] at this
        simpa using this
    · have := htext i hit
      rwa [storeBytes_of_le hi] at this
    · rwa [storeBytes_of_le hle] at hz
  · intro hblock
    have hle := hblock.start.length_le
    refine ⟨hblock.inside, ?_, fun i hi => ?_⟩
    · rw [storeBytes_of_le hle]
      exact hblock.nul
    · by_cases hlt : i < value.length
      · rw [storeBytes_of_lt hlt]
        exact ⟨hblock.start.getElem hlt, h _ (List.getElem_mem hlt)⟩
      · rw [storeBytes_of_le (by omega)]
        exact hblock.rest i (by omega) hi

theorem BlockHolds.eq {cells : Cells} {value text text' : Str} (hvalue : NulFree value)
    (h : BlockHolds cells value text) (h' : BlockHolds cells value text') : text = text' :=
  Option.some.inj (((cstr_valueBlock hvalue).mpr h).symm.trans ((cstr_valueBlock hvalue).mpr h'))

/-- `NAME=value` as a command stores what the new block then reads as. -/
theorem executeAssignment_eq_some_iff {p : Setting} {fresh : Cells × Cells} {s s' : Tables} :
    executeAssignment (shellVars fresh) p.text s = some s' ↔
      ∃ text, BlockHolds fresh.2 p.value text ∧ s' = varAssign s p.name text := by
  have hsplit : executeAssignment (shellVars fresh) p.text s =
      (Block.mk (storeBytes fresh.2 0 p.value) (8 * p.value.length + 1)).cstr.map
        (varAssign s p.name) := by
    simp only [executeAssignment, assignmentSplit, Setting.text, scanTo_append p.noEquals, shellVars,
      cstr_nameBlock p.nameNulFree]
    cases (Block.mk (storeBytes fresh.2 0 p.value) (8 * p.value.length + 1)).cstr <;> rfl
  rw [hsplit, Option.map_eq_some_iff]
  simp only [cstr_valueBlock p.valueNulFree, eq_comm]

/-! ## What a run leaves in the two tables -/

variable {environ : Table} {calls : List VarCall} {call : VarCall} {name value : Str} {s s' : Tables}

@[simp] theorem htGet_htPut {table : Table} {key : Str} {exported : Bool} :
    htGet (htPut table key value exported) name =
      if name = key then some value else htGet table name := by
  unfold htGet htPut
  split <;> rfl

theorem runCalls_append :
    runCalls s (calls ++ [call]) = (runCalls s calls).bind fun s => runCall s call := by
  rw [runCalls, List.foldlM_append]
  cases hrun : List.foldlM runCall s calls with
  | none => simp [runCalls, hrun]
  | some s' => simp [runCalls, hrun]

theorem runCall_declare {p : Setting} {valid : validVariableName p.name = true} :
    runCall s (.declare p valid) =
      some { s with expand := some (htPut (varTableCheck s.expand) p.name p.value false) } := by
  obtain ⟨declared, hdeclared, -, htables⟩ := builtinDeclare_setting p s
  rw [runCall, hdeclared, Option.map_some, htables valid]

theorem declareLookup_runCall (h : runCall s call = some s') :
    declareLookup s' name = (lastDeclared name [call]).or (declareLookup s name) := by
  cases call with
  | declare p valid =>
    rw [runCall_declare] at h
    rw [← Option.some.inj h]
    simp only [declareLookup, varTableCheck, Option.getD_some, htGet_htPut, lastDeclared,
      List.reverse_singleton, List.findSome?_cons, List.findSome?_nil, @eq_comm _ name]
    by_cases heq : p.name = name
    · simp only [if_pos heq, Option.some_or]
    · simp only [if_neg heq, Option.none_or]
  | assign p fresh =>
    obtain ⟨text, -, rfl⟩ := executeAssignment_eq_some_iff.mp h
    rfl

theorem lastDeclared_append :
    lastDeclared name (calls ++ [call]) = (lastDeclared name [call]).or (lastDeclared name calls) := by
  simp only [lastDeclared, List.reverse_append, List.findSome?_append]

/-- `declare -p` finds what was declared last. -/
theorem declareLookup_runCalls (h : runCalls (startTables environ) calls = some s) :
    declareLookup s name = lastDeclared name calls := by
  induction calls using List.reverseRecOn generalizing s with
  | nil =>
    obtain rfl := Option.some.inj h
    rfl
  | append_singleton calls call ih =>
    rw [runCalls_append, Option.bind_eq_some_iff] at h
    obtain ⟨s', hcalls, hcall⟩ := h
    rw [declareLookup_runCall hcall, ih hcalls, lastDeclared_append]

/-- What `var_lookup` finds: the text of the block of the last assignment, or what
the environment held. -/
def Stored (environ : Table) (name : Str) (calls : List VarCall) (text : Str) : Prop :=
  match lastAssigned name calls with
  | some (value, cells) => BlockHolds cells value text
  | none => htGet environ name = some text

theorem lastAssigned_append :
    lastAssigned name (calls ++ [call]) = (lastAssigned name [call]).or (lastAssigned name calls) := by
  simp only [lastAssigned, List.reverse_append, List.findSome?_append]

theorem varLookup_runCalls (h : runCalls (startTables environ) calls = some s) (text : Str) :
    varLookup s name = some text ↔ Stored environ name calls text := by
  induction calls using List.reverseRecOn generalizing s with
  | nil =>
    obtain rfl := Option.some.inj h
    rfl
  | append_singleton calls call ih =>
    rw [runCalls_append, Option.bind_eq_some_iff] at h
    obtain ⟨s', hcalls, hcall⟩ := h
    have hold := ih hcalls
    rw [Stored, lastAssigned_append]
    cases call with
    | declare p valid =>
      rw [runCall_declare] at hcall
      rw [← Option.some.inj hcall]
      exact hold
    | assign p fresh =>
      obtain ⟨new, hnew, rfl⟩ := executeAssignment_eq_some_iff.mp hcall
      simp only [lastAssigned, List.reverse_singleton, List.findSome?_cons, List.findSome?_nil,
        varLookup, varAssign, varTableCheck, Option.getD_some, htGet_htPut, @eq_comm _ name]
      by_cases heq : p.name = name
      · simp only [if_pos heq, Option.some_or]
        constructor
        · intro htext
          rwa [← Option.some.inj htext]
        · intro hblock
          rw [hnew.eq p.valueNulFree hblock]
      · simp only [if_neg heq, Option.none_or]
        exact hold

/-- A run goes through when every assignment leaves a NUL in its new block. -/
theorem runCalls_isSome_iff :
    (∃ s', runCalls s calls = some s') ↔
      ∀ p fresh, VarCall.assign p fresh ∈ calls → ∃ text, BlockHolds fresh.2 p.value text := by
  induction calls generalizing s with
  | nil => exact ⟨fun _ p fresh h => absurd h List.not_mem_nil, fun _ => ⟨s, rfl⟩⟩
  | cons call calls ih =>
    rw [runCalls, List.foldlM_cons]
    cases call with
    | declare p valid =>
      rw [runCall_declare]
      refine ih.trans (forall₂_congr fun q fresh => ?_)
      simp only [List.mem_cons, reduceCtorEq, false_or]
    | assign p fresh =>
      have hhead : (∃ s', runCall s (.assign p fresh) = some s') ↔
          ∃ text, BlockHolds fresh.2 p.value text := by
        simp only [runCall, executeAssignment_eq_some_iff]
        exact ⟨fun ⟨_, text, h, _⟩ => ⟨text, h⟩, fun ⟨text, h⟩ => ⟨_, text, h, rfl⟩⟩
      simp only [List.mem_cons, VarCall.assign.injEq]
      constructor
      · intro hcond
        obtain ⟨s', h⟩ := hcond
        obtain ⟨t, hcall, hcalls⟩ := Option.bind_eq_some_iff.mp h
        rintro q fresh' (⟨rfl, rfl⟩ | hmem)
        · exact hhead.mp ⟨t, hcall⟩
        · exact ih.mp ⟨s', hcalls⟩ q fresh' hmem
      · intro h
        obtain ⟨t, hcall⟩ := hhead.mpr (h p fresh (.inl ⟨rfl, rfl⟩))
        obtain ⟨s', hcalls⟩ := (ih (s := t)).mpr fun q fresh' hmem => h q fresh' (.inr hmem)
        exact ⟨s', by rw [hcall]; exact hcalls⟩

/-- **One variable, two tables.** Both lookups find the value that the last call for
a name gave exactly where every assignment leaves a NUL in its new block, the last
declaration of the name gave that value, and the block of its last assignment
reads as it. -/
theorem lookups_agree_iff (environ : Table) (calls : List VarCall) (name : Str) :
    (∃ s v, runCalls (startTables environ) calls = some s ∧ lastValue name calls = some v ∧
      varLookup s name = some v ∧ declareLookup s name = some v) ↔
    (∀ p fresh, VarCall.assign p fresh ∈ calls → ∃ text, BlockHolds fresh.2 p.value text) ∧
      ∃ v, lastValue name calls = some v ∧ lastDeclared name calls = some v ∧
        Stored environ name calls v := by
  rw [← runCalls_isSome_iff (s := startTables environ)]
  constructor
  · intro hcond
    obtain ⟨s, v, hrun, hlast, hvar, hdeclare⟩ := hcond
    rw [varLookup_runCalls hrun] at hvar
    rw [declareLookup_runCalls hrun] at hdeclare
    exact ⟨⟨s, hrun⟩, v, hlast, hdeclare, hvar⟩
  · intro hcond
    obtain ⟨⟨s, hrun⟩, v, hlast, hdeclare, hvar⟩ := hcond
    rw [← varLookup_runCalls hrun] at hvar
    rw [← declareLookup_runCalls hrun] at hdeclare
    exact ⟨s, v, hrun, hlast, hvar, hdeclare⟩

/-- `x=1`, as a setting. -/
def settingX : Setting where
  name := str "x"
  value := str "1"
  noEquals := by decide
  nameNulFree := by decide
  valueNulFree := by decide

/-- What `declare x=1` declares, `$x` does not find. -/
theorem lookups_disagree :
    ∃ s, runCalls (startTables htNew) [.declare settingX rfl] = some s ∧
      lastValue (str "x") [.declare settingX rfl] = some (str "1") ∧
      varLookup s (str "x") = none ∧ declareLookup s (str "x") = some (str "1") :=
  ⟨_, rfl, by decide, by decide, by decide⟩

end Shell.Variables
