import Shell.CTypes

/-! # The history builtin (builtin_history in builtins.c)

The history list and the history files belong to the line editor: what its calls
return comes from `Readline`. `append_history` returns 0 when it has written the
entries, and another value when it has written none. -/
namespace Shell.History
open Shell.CTypes

def INT_MAX : Nat := 2 ^ 31 - 1

def LONG_MAX : Nat := 2 ^ 63 - 1

/-! ## strtol with base 0 -/

def isdigit (c : UInt8) : Bool := chr '0' ≤ c && c ≤ chr '9'

/-- The value of a digit of any base, and 36 for any other byte. -/
def digit (c : UInt8) : Nat :=
  if chr '0' ≤ c ∧ c ≤ chr '9' then c.toNat - 48
  else if chr 'a' ≤ c ∧ c ≤ chr 'z' then c.toNat - 87
  else if chr 'A' ≤ c ∧ c ≤ chr 'Z' then c.toNat - 55
  else 36

/-- The digits of the base at the front of the text, behind a number read so far. -/
def numeral (base : Nat) : Nat → Str → Nat
  | acc, [] => acc
  | acc, c :: text => if digit c < base then numeral base (acc * base + digit c) text else acc

/-- The base that a text which starts with a digit is in, and its digits. -/
def numeralBase : Str → Nat × Str
  | c :: p :: d :: text =>
    if c = chr '0' then
      if (p = chr 'x' ∨ p = chr 'X') ∧ digit d < 16 then (16, d :: text)
      else if (p = chr 'b' ∨ p = chr 'B') ∧ digit d < 2 then (2, d :: text)
      else (8, c :: p :: d :: text)
    else (10, c :: p :: d :: text)
  | c :: text => if c = chr '0' then (8, c :: text) else (10, c :: text)
  | [] => (10, [])

/-- `strtol(text, &end, 0)` for a text that starts with a digit; `none` is `ERANGE`. -/
def strtol (text : Str) : Option Nat :=
  let (base, digits) := numeralBase text
  let value := numeral base 0 digits
  if value ≤ LONG_MAX then some value else none

/-! ## The builtin -/

/-- The history list, the static counter, and what `append_history` has written. -/
structure State where
  entries : List Str
  entriesAppended : Int
  appended : List Str

/-- What the calls for a file return, and what `read_history` adds to the list. -/
structure Readline where
  readHistory : Str → Int × List Str
  writeHistory : Str → Int
  appendHistory : Str → Int

structure Result where
  ret : Int
  out : Str
  err : Str
  state : State

/-- `hist_list[i]`; `none` outside of the list. -/
def entryAt (entries : List Str) (i : Int) : Option Str :=
  if i < 0 then none else entries[i.toNat]?

/-- `\t%-3d%s\n` -/
def historyLine (position : Int) (line : Str) : Str :=
  let number := str (toString position)
  str "\t" ++ number ++ List.replicate (3 - number.length) (chr ' ') ++ line ++ str "\n"

/-- The rounds of the loop from `offset` on. -/
def printEntries (entries : List Str) : Nat → Int → Option Str
  | 0, _ => some []
  | rounds + 1, i => do
    let line ← entryAt entries i
    let rest ← printEntries entries rounds (i + 1)
    return historyLine (i + 1) line ++ rest

/-- From `max_display` on. -/
def display (s : State) (maxDisplay : Int) (length : Int) (entries : List Str) : Option Result :=
  let maxDisplay := if maxDisplay = -1 then 0 else maxDisplay
  let offset := length - maxDisplay
  (printEntries entries (length - offset).toNat offset).map fun out =>
    { ret := 0, out := out, err := [], state := s }

/-- `strncmp(argument, option, strlen(argument)) == 0` -/
def abbreviates (argument option : Str) : Bool := argument.isPrefixOf option

/-- The last `n` entries. -/
def lastEntries (n : Int) (entries : List Str) : List Str :=
  entries.drop (entries.length - n.toNat)

def failed (s : State) (err : Str) : Option Result :=
  some { ret := -1, out := [], err := err, state := s }

def builtinHistory (rl : Readline) (argv : List Str) (s : State) : Option Result :=
  let length : Int := s.entries.length
  match argv with
  | [_, arg] =>
    if arg.head?.any isdigit then
      match strtol arg with
      | none => failed s (str "Passed invalid arg " ++ arg ++
          str " to history builtin. Expecting a positive integer.\n")
      | some tmp =>
        if tmp < INT_MAX then display s tmp length s.entries
        else failed s (str "Passed invalid integer " ++ str (toString tmp) ++
          str " to history builtin, expecting a value lower than " ++ str (toString INT_MAX) ++
          str "(INT_MAX)\n")
    else display s (-1) length s.entries
  | [_, option, file] =>
    if abbreviates option (str "-r") then
      let (status, lines) := rl.readHistory file
      let s := { s with entries := s.entries ++ lines }
      if status = -1 then failed s (str "Failed to read history from file " ++ file ++ str "\n")
      else display s (-1) length s.entries
    else if abbreviates option (str "-w") then
      if rl.writeHistory file = -1 then
        failed s (str "Failed to write history to file " ++ file ++ str "\n")
      else display s (-1) length s.entries
    else if abbreviates option (str "-a") then
      let count := length - s.entriesAppended
      let status := rl.appendHistory file
      let s := if status = 0 then
          { s with appended := s.appended ++ lastEntries count s.entries } else s
      if status = -1 then failed s (str "Failed to append history to file " ++ file ++ str "\n")
      else display { s with entriesAppended := s.entriesAppended + count } (-1) length s.entries
    else display s (-1) length s.entries
  | [] | [_] => display s length length s.entries
  | _ => display s (-1) length s.entries

/-! ## What `history N` shows -/

/-- An operand that is a decimal number below `INT_MAX`. -/
structure Operand where
  digits : Str
  nonempty : digits ≠ []
  decimal : ∀ c ∈ digits, isdigit c = true
  bound : numeral 10 0 digits < INT_MAX

def Operand.value (operand : Operand) : Nat := numeral 10 0 operand.digits

/-- The last `n` entries, each with its position in the whole list. -/
def shown (entries : List Str) (n : Nat) : Str :=
  (entries.zipIdx.drop (entries.length - n)).flatMap fun e => historyLine (e.2 + 1) e.1

/-- `history N` reads entries of the list only, and prints the last `min N L`. -/
def ShowsLast (rl : Readline) (command : Str) (operand : Operand) (s : State) : Prop :=
  ∃ r, builtinHistory rl [command, operand.digits] s = some r ∧
    r.out = shown s.entries (min operand.value s.entries.length)

theorem le_numeral {base : Nat} (hbase : 0 < base) (text : Str) (acc : Nat) :
    acc ≤ numeral base acc text := by
  induction text generalizing acc with
  | nil => exact le_rfl
  | cons c text ih =>
    rw [numeral]
    split
    · have hmul : acc ≤ acc * base := Nat.le_mul_of_pos_right _ hbase
      exact Nat.le_trans (show acc ≤ acc * base + digit c by omega) (ih _)
    · exact le_rfl

/-- Digits read in base 8 give no more than in base 10. -/
theorem numeral_le {acc acc' : Nat} (text : Str) (h : acc ≤ acc') :
    numeral 8 acc text ≤ numeral 10 acc' text := by
  induction text generalizing acc acc' with
  | nil => exact h
  | cons c text ih =>
    rw [numeral, numeral]
    by_cases h8 : digit c < 8
    · rw [if_pos h8, if_pos (by omega)]
      exact ih (by omega)
    · rw [if_neg h8]
      split
      · exact Nat.le_trans (show acc ≤ acc' * 10 + digit c by omega) (le_numeral (by omega) text _)
      · exact h

/-- Among digits no `x` and no `b` can follow. -/
theorem numeralBase_digits {digits : Str} (h : ∀ c ∈ digits, isdigit c = true) :
    numeralBase digits = (if digits.head? = some (chr '0') then 8 else 10, digits) := by
  unfold numeralBase
  split
  · rename_i c p d text
    have hp : isdigit p = true := h p (by simp)
    have hx : ¬ (p = chr 'x' ∨ p = chr 'X') := by rintro (rfl | rfl) <;> cases hp
    have hb : ¬ (p = chr 'b' ∨ p = chr 'B') := by rintro (rfl | rfl) <;> cases hp
    simp only [hx, hb, false_and, if_false, List.head?_cons, Option.some.injEq]
    split <;> rfl
  · simp only [List.head?_cons, Option.some.injEq]
    split <;> rfl
  · rfl

/-- What `strtol` makes of a decimal operand: one with a leading zero is octal. -/
def Operand.base0 (operand : Operand) : Nat :=
  if operand.digits.head? = some (chr '0') then numeral 8 0 operand.digits else operand.value

theorem Operand.base0_le (operand : Operand) : operand.base0 ≤ operand.value := by
  rw [base0]
  split
  · exact numeral_le operand.digits le_rfl
  · exact le_rfl

theorem strtol_digits (operand : Operand) : strtol operand.digits = some operand.base0 := by
  have hle := operand.base0_le
  have hbound := operand.bound
  rw [Operand.value] at hle
  have hvalue : numeral (if operand.digits.head? = some (chr '0') then 8 else 10) 0 operand.digits =
      operand.base0 := by
    rw [Operand.base0, Operand.value]
    split <;> rfl
  simp only [strtol, numeralBase_digits operand.decimal, hvalue]
  rw [if_pos]
  unfold INT_MAX at hbound
  unfold LONG_MAX
  omega

theorem head_isdigit (operand : Operand) : operand.digits.head?.any isdigit = true := by
  cases hdigits : operand.digits with
  | nil => exact absurd hdigits operand.nonempty
  | cons c text => exact operand.decimal c (by rw [hdigits]; exact List.mem_cons_self)

theorem builtinHistory_operand (rl : Readline) (command : Str) (operand : Operand) (s : State) :
    builtinHistory rl [command, operand.digits] s =
      display s operand.base0 s.entries.length s.entries := by
  have hlt : operand.base0 < INT_MAX := Nat.lt_of_le_of_lt operand.base0_le operand.bound
  simp only [builtinHistory, head_isdigit, if_true, strtol_digits, hlt]

/-! ## The loop -/

theorem printEntries_negative {entries : List Str} {rounds : Nat} {i : Int} (h : i < 0)
    (hrounds : 0 < rounds) : printEntries entries rounds i = none := by
  obtain ⟨n, rfl⟩ : ∃ n, rounds = n + 1 := ⟨rounds - 1, by omega⟩
  simp [printEntries, entryAt, h]

theorem printEntries_eq (entries : List Str) (rounds i : Nat) (h : i + rounds = entries.length) :
    printEntries entries rounds i =
      some ((entries.zipIdx.drop i).flatMap fun e => historyLine (e.2 + 1) e.1) := by
  induction rounds generalizing i with
  | zero =>
    rw [List.drop_of_length_le (by rw [List.length_zipIdx]; omega)]
    rfl
  | succ rounds ih =>
    have hi : i < entries.length := by omega
    have hentry : entryAt entries i = some entries[i] := by
      rw [entryAt, if_neg (by omega), Int.toNat_natCast, List.getElem?_eq_getElem hi]
    have hrest := ih (i + 1) (by omega)
    rw [Int.natCast_succ] at hrest
    have hcons : entries.zipIdx.drop i = (entries[i], i) :: entries.zipIdx.drop (i + 1) := by
      rw [List.drop_eq_getElem_cons (by rw [List.length_zipIdx]; exact hi), List.getElem_zipIdx]
      simp
    simp only [printEntries, hentry, hrest, hcons, List.flatMap_cons, Option.bind_eq_bind,
      Option.bind_some]
    rfl

theorem display_of_le (s : State) {n : Nat} (h : n ≤ s.entries.length) :
    display s n s.entries.length s.entries =
      some { ret := 0, out := shown s.entries n, err := [], state := s } := by
  have hoffset : (s.entries.length : Int) - n = (s.entries.length - n : Nat) := by omega
  have hrounds : ((s.entries.length : Int) - (s.entries.length - n : Nat)).toNat = n := by omega
  have hprint := printEntries_eq s.entries n (s.entries.length - n) (by omega)
  simp only [display, if_neg (show ¬ (n : Int) = -1 by omega), hoffset, hrounds, hprint,
    Option.map_some, shown]

theorem display_of_gt (s : State) {n : Nat} (h : s.entries.length < n) :
    display s n s.entries.length s.entries = none := by
  have hrounds : 0 < ((s.entries.length : Int) - (s.entries.length - n)).toNat := by omega
  have hprint : printEntries s.entries ((s.entries.length : Int) - (s.entries.length - n)).toNat
      (s.entries.length - n) = none := printEntries_negative (by omega) hrounds
  simp only [display, if_neg (show ¬ (n : Int) = -1 by omega), hprint, Option.map_none]

/-- Another entry makes the text longer. -/
theorem length_shown_lt (entries : List Str) {m n : Nat} (hlt : m < n) (hle : n ≤ entries.length) :
    (shown entries m).length < (shown entries n).length := by
  have hi : entries.length - n < entries.zipIdx.length := by rw [List.length_zipIdx]; omega
  have hdrop : entries.zipIdx.drop (entries.length - m) =
      (entries.zipIdx.drop (entries.length - n)).drop (n - m) := by
    rw [List.drop_drop]
    congr 1
    omega
  have hline : ∀ e : Str × Nat, 0 < (historyLine (e.2 + 1) e.1).length := by
    intro e
    simp [historyLine, str]
  have hsplit := List.take_append_drop (n - m) (entries.zipIdx.drop (entries.length - n))
  rw [shown, shown, hdrop]
  conv => rhs; rw [← hsplit]
  rw [List.flatMap_append, List.length_append]
  have hfirst : ∃ e rest, (entries.zipIdx.drop (entries.length - n)).take (n - m) = e :: rest := by
    apply List.exists_cons_of_length_pos
    rw [List.length_take, List.length_drop]
    omega
  obtain ⟨e, rest, hcons⟩ := hfirst
  rw [hcons, List.flatMap_cons, List.length_append]
  have hpos := hline e
  omega

theorem shown_inj {entries : List Str} {m n : Nat} (hm : m ≤ entries.length)
    (hn : n ≤ entries.length) (h : shown entries m = shown entries n) : m = n := by
  have hlen := congrArg List.length h
  rcases Nat.lt_trichotomy m n with hlt | rfl | hgt
  · have := length_shown_lt entries hlt hn
    omega
  · rfl
  · have := length_shown_lt entries hgt hm
    omega

/-- The operand has no leading zero and is not over the length of the list, or its
value as an octal number is the number of entries to show. -/
def Operand.Fits (operand : Operand) (length : Nat) : Prop :=
  if operand.digits.head? = some (chr '0') then
    numeral 8 0 operand.digits = min operand.value length
  else operand.value ≤ length

theorem Operand.fits_iff (operand : Operand) (length : Nat) :
    operand.Fits length ↔ operand.base0 = min operand.value length := by
  rw [Fits, base0]
  split
  · exact Iff.rfl
  · omega

/-- **When `history N` shows what it should.** The operand is read with base 0, and
nothing keeps the offset from being negative. -/
theorem showsLast_iff (rl : Readline) (command : Str) (operand : Operand) (s : State) :
    ShowsLast rl command operand s ↔ operand.Fits s.entries.length := by
  have hle := operand.base0_le
  rw [operand.fits_iff, ShowsLast, builtinHistory_operand]
  rcases Nat.lt_or_ge s.entries.length operand.base0 with hgt | hle'
  · rw [display_of_gt s hgt]
    constructor
    · intro h
      obtain ⟨r, hr, -⟩ := h
      cases hr
    · intro h
      omega
  · rw [display_of_le s hle']
    constructor
    · intro h
      obtain ⟨r, hr, hout⟩ := h
      obtain rfl := Option.some.inj hr
      exact shown_inj hle' (Nat.min_le_right _ _) hout
    · intro h
      exact ⟨_, rfl, congrArg (shown s.entries) h⟩

theorem numeral_five_lt : numeral 10 0 [chr '5'] < INT_MAX := by
  simp [numeral, digit, chr, INT_MAX]

/-- `history 5` on a list of two entries reads `hist_list[-3]`. -/
theorem not_showsLast_five : ¬ ShowsLast
    { readHistory := fun _ => (0, []), writeHistory := fun _ => 0, appendHistory := fun _ => 0 }
    (str "history")
    { digits := [chr '5']
      nonempty := List.cons_ne_nil _ _
      decimal := List.forall_mem_singleton.mpr rfl
      bound := numeral_five_lt }
    { entries := [str "ls", str "history 5"], entriesAppended := 0, appended := [] } := by
  intro h
  obtain ⟨r, hr, -⟩ := h
  rw [builtinHistory_operand, display_of_gt] at hr
  · cases hr
  · simp [Operand.base0, Operand.value, numeral, digit, chr]

end Shell.History
