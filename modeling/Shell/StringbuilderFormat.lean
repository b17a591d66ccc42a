import Mathlib.Data.List.TakeDrop
import Mathlib.Data.Nat.Log
import Shell.StringbuilderRuns
import Shell.Lib.Rounding

/-! # Appending a number and a formatted text (stringbuilder.c)

The growth branch is the same in all three appends, and for the count it is given
it finds the least power of two with room for as many bytes and a NUL. That count
is the length of the text only in `sb_appends`: `sb_appendl` takes the digits from
a logarithm and `sb_format` from an `int`. What is appended is another matter:
`sb_appendl` gives `snprintf` one byte less than there is, and `sb_format` counts
the NUL in `size`. -/
namespace Shell.Stringbuilder
open Shell.CTypes Shell.Lib

/-! ## The C library -/

def INT_MAX : Nat := 2 ^ 31 - 1

/-- The bytes `(v)snprintf` writes of `text` when it may write `n`. -/
def snprintf (n : Nat) (text : Str) : Str := if n = 0 then [] else text.take (n - 1) ++ [0]

/-- What `(v)snprintf` returns: a length over `INT_MAX` is an error. -/
def snprintfResult (text : Str) : Int := if text.length ≤ INT_MAX then text.length else -1

/-- `(size_t) i` -/
def toSize (i : Int) : Nat := (i % 2 ^ 64).toNat

/-- The text of `%ld`. -/
def decimal (l : Int) : Str := str (toString l)

/-- `(size_t)log10((double)n)`: the conversion rounds, the logarithm is the real
one, and that of 0 has no value as a `size_t`. -/
def log10 (n : Nat) : Option Nat := if n = 0 then none else some (Nat.log 10 (Rounding.round 52 n))

/-- A C library's `(size_t)log10((double)n)`: that of 0 has no value, and the
conversion and the logarithm may round a long up to the next integer only. -/
structure LogNear (log : Nat → Option Nat) : Prop where
  zero : log 0 = none
  near : ∀ n, n ≠ 0 → n < 2 ^ 63 →
    ∃ k, log n = some k ∧ Nat.log 10 n ≤ k ∧ k ≤ Nat.log 10 n + 1

/-! ## The operations -/

/-- `long_digits`; the negation of `LONG_MIN` has no value. -/
def longDigits (log : Nat → Option Nat) (l : Int) : Option Nat :=
  if 0 ≤ l then (log l.toNat).map (· + 1)
  else if l = -2 ^ 63 then none
  else (log (-l).toNat).map (· + 1 + 1)

/-- The bytes at `&sb->str[sb->size]`. -/
def store (o : Outcome) (bytes : Str) : Outcome :=
  { sb := { o.sb with str := storeBytes o.sb.str o.sb.size bytes },
    writes := o.writes ++ List.range' o.sb.size bytes.length }

def addSize (o : Outcome) (n : Nat) : Outcome :=
  { o with sb := { o.sb with size := (o.sb.size + n) % 2 ^ 64 } }

def sbAppendl (log : Nat → Option Nat) (garbage : Cells) (sb : StringBuilder) (l : Int) :
    Option Outcome :=
  (longDigits log l).bind fun longDigits =>
    (if sb.capacity ≤ (longDigits + sizeSub sb.size 1) % 2 ^ 64 then sbGrow garbage sb longDigits
      else some { sb := sb, writes := [] }).map fun o =>
    let space := sizeSub (sizeSub o.sb.capacity o.sb.size) 1
    addSize (store o (snprintf space (decimal l))) longDigits

/-- `vsnprintf(current_position, space_remaining, fmt, args)` -/
def vsnprintf (o : Outcome) (text : Str) : Outcome :=
  store o (snprintf (sizeSub o.sb.capacity o.sb.size) text)

/-- `text` is what the format and the arguments give; the result is that of
`vsnprintf`. -/
def sbFormat (garbage : Cells) (sb : StringBuilder) (text : Str) : Option (Outcome × Int) :=
  let first := vsnprintf { sb := sb, writes := [] } text
  let charsNeeded := snprintfResult text
  (if sizeSub sb.capacity sb.size ≤ toSize charsNeeded then
      (sbGrow garbage first.sb (toSize charsNeeded)).map fun o =>
        vsnprintf { o with writes := first.writes ++ o.writes } text
    else some first).map fun o => (addSize o (toSize charsNeeded + 1), charsNeeded)

/-! ## The digits of a number -/

/-- Conversion to `double` does not change how many digits the number has. -/
def LogExact (l : Int) : Prop := Nat.log 10 (Rounding.round 52 l.natAbs) = Nat.log 10 l.natAbs

theorem logExact_of_lt {l : Int} (h : l.natAbs < 2 ^ 53) : LogExact l := by
  have hexact := Rounding.round_exact (p := 52) 0 h
  rw [pow_zero, Nat.mul_one] at hexact
  rw [LogExact, hexact]

theorem length_repr {n : Nat} (hn : n ≠ 0) : n.repr.length = Nat.log 10 n + 1 := by
  have hup : n.repr.length ≤ Nat.log 10 n + 1 :=
    (Nat.length_repr_le_iff (by omega)).mpr (Nat.lt_pow_succ_log_self (by omega) n)
  have hlow : ¬ n.repr.length ≤ Nat.log 10 n := by
    intro hle
    have hpos : 0 < n.repr.length := Nat.length_repr_pos
    have hlt : n < 10 ^ Nat.log 10 n := (Nat.length_repr_le_iff (by omega)).mp hle
    have hge := Nat.pow_log_le_self 10 hn
    omega
  omega

theorem length_decimal {l : Int} (hl : l ≠ 0) :
    (decimal l).length = Nat.log 10 l.natAbs + 1 + (if l < 0 then 1 else 0) := by
  have hne : l.natAbs ≠ 0 := by omega
  rw [decimal, str, List.length_map, String.length_toList, Int.toString_eq_repr, Int.repr_eq_if]
  split
  · rename_i hge
    rw [show l.toNat = l.natAbs by omega, length_repr hne, if_neg (by omega)]
  · rename_i hneg
    rw [show (-l).toNat = l.natAbs by omega, String.length_append, length_repr hne, if_pos (by omega)]
    exact Nat.add_comm _ _

theorem longDigits_eq {log : Nat → Option Nat} {l : Int} {k : Nat} (hmin : l ≠ -2 ^ 63)
    (hlog : log l.natAbs = some k) : longDigits log l = some (k + 1 + (if l < 0 then 1 else 0)) := by
  rw [longDigits]
  split
  · rename_i hge
    rw [show l.toNat = l.natAbs by omega, hlog, Option.map_some, if_neg (by omega)]
  · rename_i hneg
    rw [show (-l).toNat = l.natAbs by omega, hlog, Option.map_some,
      if_pos (by omega)]

theorem longDigits_none {log : Nat → Option Nat} {l : Int} (hlog : LogNear log)
    (h : l = 0 ∨ l = -2 ^ 63) : longDigits log l = none := by
  rw [longDigits]
  rcases h with rfl | rfl
  · rw [if_pos le_rfl, Int.toNat_zero, hlog.zero, Option.map_none]
  · rw [if_neg (by omega), if_pos rfl]

/-- The conversion rounds up by less than a factor of ten, hence by a digit at most. -/
theorem log_round_le {n : Nat} (hn : n ≠ 0) :
    Nat.log 10 (Rounding.round 52 n) ≤ Nat.log 10 n + 1 := by
  have hround := Rounding.round_le 52 n
  rw [← Nat.log_mul_base (by omega) hn]
  exact Nat.log_mono_right (by omega)

/-- No long falls below a power of ten: those up to 2 ^ 63 are doubles. -/
theorem le_log_round {n : Nat} (hn : n ≠ 0) (hlt : n < 2 ^ 63) :
    Nat.log 10 n ≤ Nat.log 10 (Rounding.round 52 n) := by
  have hpow := Nat.pow_log_le_self 10 hn
  have hfew : Nat.log 10 n < 19 := Nat.log_lt_of_lt_pow hn (by omega)
  have hsplit : 10 ^ Nat.log 10 n = 5 ^ Nat.log 10 n * 2 ^ Nat.log 10 n := by
    rw [← Nat.mul_pow]
  have hsignificand : 5 ^ Nat.log 10 n < 2 ^ (52 + 1) :=
    (Nat.pow_le_pow_right (by omega) (show Nat.log 10 n ≤ 18 by omega)).trans_lt (by omega)
  rw [hsplit] at hpow
  have hkept := Rounding.le_round_of_le hsignificand hpow
  rw [← hsplit] at hkept
  have hmono := Nat.log_mono_right (b := 10) hkept
  rwa [Nat.log_pow (by omega)] at hmono

theorem log10_near : LogNear log10 := by
  refine ⟨if_pos rfl, ?_⟩
  intro n hn hlt
  exact ⟨_, if_neg hn, le_log_round hn hlt, log_round_le hn⟩

/-- The double nearest to eighteen nines has a digit more. -/
theorem not_logExact_nines : ¬ LogExact 999999999999999999 := by
  have hlog : Nat.log2 999999999999999999 = 59 := (Nat.log2_eq_iff (by omega)).mpr (by omega)
  have hround : Rounding.round 52 999999999999999999 = 10 ^ 18 := by
    simp only [Rounding.round, Rounding.ulpExp, hlog]
    rw [if_pos (by omega)]
    omega
  have hlt : Nat.log 10 999999999999999999 < 18 := Nat.log_lt_of_lt_pow (by omega) (by omega)
  intro h
  change Nat.log 10 (Rounding.round 52 999999999999999999) = Nat.log 10 999999999999999999 at h
  rw [hround, Nat.log_pow (by omega)] at h
  omega

/-! ## The growth branch -/

inductive Append where
  | appends (s : Str)
  | appendl (l : Int64)
  | format (text : Str)

/-- What is being appended. -/
def Append.text : Append → Str
  | .appends s => s
  | .appendl l => decimal l.toInt
  | .format text => text

/-- The length of it that the code counts: `space_needed`, `long_digits` or
`chars_needed`. -/
def Append.count (log : Nat → Option Nat) : Append → Option Nat
  | .appends s => some s.length
  | .appendl l => longDigits log l.toInt
  | .format text => some (toSize (snprintfResult text))

/-- The test in front of the growth branch. -/
def Append.Grows (sb : StringBuilder) (count : Nat) : Append → Prop
  | .appends _ => sizeSub sb.capacity (sizeSub sb.size 1) ≤ count
  | .appendl _ => sb.capacity ≤ (count + sizeSub sb.size 1) % 2 ^ 64
  | .format _ => sizeSub sb.capacity sb.size ≤ count

def Append.run (log : Nat → Option Nat) (garbage : Cells) (sb : StringBuilder) :
    Append → Option Outcome
  | .appends s => sbAppends garbage sb s
  | .appendl l => sbAppendl log garbage sb l.toInt
  | .format text => (sbFormat garbage sb text).map Prod.fst

/-- `g` is the least growth that leaves more than `need` bytes behind `size`,
and neither the shifts nor the subtractions up to it wrap. -/
structure LeastGrowth (capacity size need g : Nat) : Prop where
  one_le : 1 ≤ g
  enough : need < capacity * 2 ^ g - size
  least : ∀ j, 1 ≤ j → j < g → capacity * 2 ^ j - size ≤ need
  exact : ∀ j ≤ g, capacity * 2 ^ j < 2 ^ 64
  noUnderflow : ∀ j, 1 ≤ j → j ≤ g → size ≤ capacity * 2 ^ j

theorem leastGrowth_of_growing {capacity size need g : Nat} (h : Growing capacity size need g)
    (hsize : size ≤ 2 * capacity) (hroom : size + need < capacity * 2 ^ g) :
    LeastGrowth capacity size need g := by
  refine ⟨h.one_le, by omega, ?_, ?_, ?_⟩
  · intro j h1 h2
    have hshort := h.short j h1 h2
    omega
  · intro j hj
    have hpow : capacity * 2 ^ j ≤ capacity * 2 ^ g :=
      Nat.mul_le_mul_left _ (Nat.pow_le_pow_right (by omega) hj)
    have hexact := h.exact
    omega
  · intro j h1 _
    have hpow : 2 ^ 1 ≤ 2 ^ j := Nat.pow_le_pow_right (by omega) h1
    calc size ≤ capacity * 2 ^ 1 := by omega
      _ ≤ capacity * 2 ^ j := Nat.mul_le_mul_left _ hpow

/-- The block grown by `2 ^ g` and cleared from `size` on. -/
def grown (garbage : Cells) (sb : StringBuilder) (g : Nat) : Outcome :=
  { sb := { capacity := sb.capacity * 2 ^ g, size := sb.size,
            str := memsetZero (realloc sb.str sb.capacity garbage) sb.size
              (sb.capacity * 2 ^ g - sb.size) },
    writes := List.range' sb.size (sb.capacity * 2 ^ g - sb.size) }

@[simp] theorem grown_capacity (garbage : Cells) (sb : StringBuilder) (g : Nat) :
    (grown garbage sb g).sb.capacity = sb.capacity * 2 ^ g := rfl

@[simp] theorem grown_size (garbage : Cells) (sb : StringBuilder) (g : Nat) :
    (grown garbage sb g).sb.size = sb.size := rfl

theorem sbGrow_eq {sb : StringBuilder} {need g : Nat} (garbage : Cells) (hcap : sb.capacity ≠ 0)
    (hg : growthFactor sb.capacity sb.size need = some g)
    (hleast : LeastGrowth sb.capacity sb.size need g) :
    sbGrow garbage sb need = some (grown garbage sb g) := by
  have hexact := hleast.exact g le_rfl
  have hcount := sizeSub_eq (hleast.noUnderflow g hleast.one_le le_rfl) hexact
  simp only [sbGrow, hcap, if_false, hg, Option.map_some, sizeShl_eq hexact, hcount, grown]

/-- `strcat` finds its NUL right at `size`. -/
theorem sbCat_grown (garbage : Cells) {sb : StringBuilder} {g : Nat} (s : Str)
    (hroom : sb.size < sb.capacity * 2 ^ g) :
    ∃ o, sbCat (grown garbage sb g) s = some o ∧ o.sb.capacity = sb.capacity * 2 ^ g := by
  have hzero : (grown garbage sb g).sb.str sb.size = 0 := by
    have hin : sb.size ≤ sb.size ∧ sb.size < sb.size + (sb.capacity * 2 ^ g - sb.size) := by omega
    simp only [grown, memsetZero, hin, and_self, if_true]
  have hfind : firstNul (grown garbage sb g).sb.str sb.size (sb.capacity * 2 ^ g) = some sb.size :=
    firstNul_eq le_rfl hroom hzero (fun i h1 h2 => by omega)
  rw [sbCat, grown_size, grown_capacity, hfind, Option.map_some]
  exact ⟨_, rfl, rfl⟩

theorem sbAppends_grown {garbage : Cells} {sb : StringBuilder} {s : Str} {o : Outcome}
    (hgrows : Append.Grows sb s.length (.appends s))
    (hgrow : sbGrow garbage sb s.length = some o) : sbAppends garbage sb s = sbCat o s := by
  rw [Append.Grows] at hgrows
  rw [sbAppends, if_pos hgrows, hgrow, Option.bind_some]

theorem sbAppendl_grown {log : Nat → Option Nat} {garbage : Cells} {sb : StringBuilder} {l : Int64}
    {count : Nat} {o : Outcome} (hcount : longDigits log l.toInt = some count)
    (hgrows : Append.Grows sb count (.appendl l)) (hgrow : sbGrow garbage sb count = some o) :
    ∃ o', sbAppendl log garbage sb l.toInt = some o' ∧ o'.sb.capacity = o.sb.capacity := by
  rw [Append.Grows] at hgrows
  rw [sbAppendl, hcount, Option.bind_some, if_pos hgrows, hgrow, Option.map_some]
  exact ⟨_, rfl, rfl⟩

theorem sbFormat_grown {garbage : Cells} {sb : StringBuilder} {text : Str} {o : Outcome}
    (hgrows : Append.Grows sb (toSize (snprintfResult text)) (.format text))
    (hgrow : sbGrow garbage (vsnprintf { sb := sb, writes := [] } text).sb
      (toSize (snprintfResult text)) = some o) :
    ∃ o' r, sbFormat garbage sb text = some (o', r) ∧ o'.sb.capacity = o.sb.capacity := by
  rw [Append.Grows] at hgrows
  rw [sbFormat, if_pos hgrows, hgrow, Option.map_some, Option.map_some]
  exact ⟨_, _, rfl, rfl⟩

/-- Whenever one of the three appends grows the buffer, the loop ends with the
least growth that has room for what was counted, without wrapping. -/
theorem grows_of_count (log : Nat → Option Nat) (garbage : Cells) {sb : StringBuilder} {a : Append}
    {count : Nat} (hcount : a.count log = some count) (hcap : 1 ≤ sb.capacity)
    (hlt : sb.capacity < 2 ^ 62) (hsize : sb.size ≤ sb.capacity + 1)
    (hfit : sb.size + count < 2 ^ 63) (hgrows : a.Grows sb count) :
    ∃ g, growthFactor sb.capacity sb.size count = some g ∧
      LeastGrowth sb.capacity sb.size count g ∧
      ∃ o, a.run log garbage sb = some o ∧ o.sb.capacity = sb.capacity * 2 ^ g := by
  obtain ⟨g, hg, hgrowing, hroom⟩ := growthFactor_spec hcap (by omega) (by omega) hfit
  have hleast := leastGrowth_of_growing hgrowing (by omega) hroom
  have hgrow := sbGrow_eq garbage (by omega) hg hleast
  refine ⟨g, hg, hleast, ?_⟩
  cases a with
  | appends s =>
    obtain rfl : s.length = count := Option.some.inj hcount
    have hrun := sbAppends_grown hgrows hgrow
    obtain ⟨o, ho, hocap⟩ := sbCat_grown garbage s (show sb.size < sb.capacity * 2 ^ g by omega)
    exact ⟨o, hrun.trans ho, hocap⟩
  | appendl l => exact sbAppendl_grown hcount hgrows hgrow
  | format text =>
    obtain rfl : toSize (snprintfResult text) = count := Option.some.inj hcount
    -- the first `vsnprintf` leaves the capacity and the size
    have hgrow' : sbGrow garbage (vsnprintf { sb := sb, writes := [] } text).sb
        (toSize (snprintfResult text)) =
          some (grown garbage (vsnprintf { sb := sb, writes := [] } text).sb g) :=
      sbGrow_eq garbage (show sb.capacity ≠ 0 by omega) hg hleast
    obtain ⟨o, r, ho, hocap⟩ := sbFormat_grown hgrows hgrow'
    refine ⟨o, ?_, hocap⟩
    rw [Append.run, ho, Option.map_some]

/-- What the growth branch is for: where it is taken, its loop ends with the least
growth that has room for the text, and the new block holds the text and its NUL. -/
def GrowsLeast (log : Nat → Option Nat) (garbage : Cells) (sb : StringBuilder) (a : Append) :
    Prop :=
  ∃ count, a.count log = some count ∧ (a.Grows sb count →
    ∃ g, growthFactor sb.capacity sb.size count = some g ∧
      LeastGrowth sb.capacity sb.size a.text.length g ∧
      ∃ o, a.run log garbage sb = some o ∧ o.sb.capacity = sb.capacity * 2 ^ g ∧
        sb.size + a.text.length + 1 ≤ o.sb.capacity)

/-- The code counts the text, or the growth cannot tell the difference. -/
def Append.Counted (log : Nat → Option Nat) (sb : StringBuilder) : Append → Prop
  | .appends _ => True
  | .appendl l => l.toInt ≠ 0 ∧ l.toInt ≠ -2 ^ 63 ∧
      (log l.toInt.natAbs = some (Nat.log 10 l.toInt.natAbs) ∨
        ∀ g, 1 ≤ g → sb.size + (decimal l.toInt).length + 1 ≠ sb.capacity * 2 ^ g)
  | .format text => text.length ≤ INT_MAX

theorem growsLeast_of_count (log : Nat → Option Nat) (garbage : Cells) {sb : StringBuilder}
    {a : Append} (hcount : a.count log = some a.text.length) (hcap : 1 ≤ sb.capacity)
    (hlt : sb.capacity < 2 ^ 62) (hsize : sb.size ≤ sb.capacity + 1)
    (hfit : sb.size + a.text.length < 2 ^ 62) : GrowsLeast log garbage sb a := by
  refine ⟨_, hcount, fun hgrows => ?_⟩
  obtain ⟨g, hg, hleast, o, ho, hocap⟩ :=
    grows_of_count log garbage hcount hcap hlt hsize (by omega) hgrows
  have henough := hleast.enough
  exact ⟨g, hg, hleast, o, ho, hocap, by omega⟩

/-- A byte too many is counted: the growth is the least one for the text unless a
smaller one has room for the text exactly. -/
theorem leastGrowth_succ_iff {capacity size need g : Nat}
    (h : LeastGrowth capacity size (need + 1) g) :
    LeastGrowth capacity size need g ↔ ∀ j, 1 ≤ j → size + need + 1 ≠ capacity * 2 ^ j := by
  have henough := h.enough
  constructor
  · intro hleast j h1 heq
    have hlt : j < g := by
      by_contra hge
      have hmul : capacity * 2 ^ g ≤ capacity * 2 ^ j :=
        Nat.mul_le_mul_left _ (Nat.pow_le_pow_right (by omega) (by omega))
      omega
    have hshort := hleast.least j h1 hlt
    omega
  · intro hne
    refine ⟨h.one_le, by omega, ?_, h.exact, h.noUnderflow⟩
    intro j h1 h2
    have hshort := h.least j h1 h2
    have hunder := h.noUnderflow j h1 (by omega)
    have hj := hne j h1
    omega

/-- The loop does not end on a count that no `size_t` exceeds. -/
theorem growthFactor_none (capacity size : Nat) : growthFactor capacity size (2 ^ 64 - 1) = none := by
  obtain ⟨r, hr⟩ := Loop.run_isSome (growthStep_decreasing capacity size (2 ^ 64 - 1)) 1
  obtain ⟨g, -, hb⟩ := Loop.run_invariant (fun _ => True)
    (growthStep_decreasing capacity size (2 ^ 64 - 1)) (fun _ _ _ _ => trivial) trivial hr
  unfold growthStep at hb
  split at hb
  · obtain rfl := Sum.inr.inj hb
    simp only [growthFactor, hr, Option.join_some]
  · rw [if_pos (by unfold sizeSub; omega)] at hb
    cases hb

theorem format_growsLeast_iff (log : Nat → Option Nat) (garbage : Cells) {sb : StringBuilder}
    {text : Str} (hcap : 1 ≤ sb.capacity) (hlt : sb.capacity < 2 ^ 62)
    (hsize : sb.size ≤ sb.capacity + 1) (hfit : sb.size + text.length < 2 ^ 62) :
    GrowsLeast log garbage sb (.format text) ↔ Append.Counted log sb (.format text) := by
  rw [Append.Counted]
  constructor
  · intro hgrows
    by_contra hlong
    have hall : toSize (snprintfResult text) = 2 ^ 64 - 1 := by
      rw [snprintfResult, if_neg hlong, toSize]
      omega
    obtain ⟨count, hcount, hbranch⟩ := hgrows
    obtain rfl := Option.some.inj hcount
    rw [hall] at hbranch
    obtain ⟨g, hg, -⟩ := hbranch (by unfold Append.Grows sizeSub; omega)
    rw [growthFactor_none] at hg
    cases hg
  · intro hint
    refine growsLeast_of_count log garbage ?_ hcap hlt hsize hfit
    rw [Append.count, snprintfResult, if_pos hint, toSize, Append.text]
    exact congrArg some (by rw [INT_MAX] at hint; omega)

theorem appendl_growsLeast_iff {log : Nat → Option Nat} (hlog : LogNear log) (garbage : Cells)
    {sb : StringBuilder} {l : Int64} (hcap : 1 ≤ sb.capacity) (hlt : sb.capacity < 2 ^ 62)
    (hsize : sb.size ≤ sb.capacity + 1) (hfit : sb.size + (decimal l.toInt).length < 2 ^ 62) :
    GrowsLeast log garbage sb (.appendl l) ↔ Append.Counted log sb (.appendl l) := by
  rw [Append.Counted]
  by_cases hnone : l.toInt = 0 ∨ l.toInt = -2 ^ 63
  · constructor
    · intro hgrows
      obtain ⟨count, hcount, -⟩ := hgrows
      rw [Append.count, longDigits_none hlog hnone] at hcount
      cases hcount
    · intro hcond
      exact absurd hnone (not_or.mpr ⟨hcond.1, hcond.2.1⟩)
  · obtain ⟨hzero, hmin⟩ := not_or.mp hnone
    have hlower := l.le_toInt
    have hupper := l.toInt_lt
    obtain ⟨k, hk, hge, hle⟩ := hlog.near l.toInt.natAbs (by omega) (by omega)
    have hlen := length_decimal hzero
    have hdigits := longDigits_eq hmin hk
    rcases Nat.eq_or_lt_of_le hge with heq | hmore
    · -- the count is the length of the text
      have hcount : Append.count log (.appendl l) = some (decimal l.toInt).length := by
        rw [Append.count, hdigits, hlen, heq]
      have hgrows := growsLeast_of_count log garbage hcount hcap hlt hsize hfit
      exact iff_of_true hgrows ⟨hzero, hmin, .inl (heq ▸ hk)⟩
    · have hcount : Append.count log (.appendl l) = some ((decimal l.toInt).length + 1) := by
        rw [Append.count, hdigits, hlen]
        exact congrArg some (by omega)
      have hwrong : ¬ log l.toInt.natAbs = some (Nat.log 10 l.toInt.natAbs) := by
        rw [hk, Option.some.injEq]
        omega
      simp only [hzero, hmin, hwrong, ne_eq, not_false_eq_true, true_and, false_or]
      constructor
      · intro hgrows j h1 hexact
        obtain ⟨count, hcount', hbranch⟩ := hgrows
        obtain rfl := Option.some.inj (hcount.symm.trans hcount')
        have hpow : 2 ^ 1 ≤ 2 ^ j := Nat.pow_le_pow_right (by omega) h1
        have hmul : sb.capacity * 2 ^ 1 ≤ sb.capacity * 2 ^ j := Nat.mul_le_mul_left _ hpow
        have htaken : Append.Grows sb ((decimal l.toInt).length + 1) (.appendl l) := by
          unfold Append.Grows sizeSub
          omega
        obtain ⟨g, hg, hleast, -⟩ := hbranch htaken
        obtain ⟨g', hg', hleast', -⟩ :=
          grows_of_count log garbage hcount hcap hlt hsize (by omega) htaken
        obtain rfl := Option.some.inj (hg.symm.trans hg')
        exact (leastGrowth_succ_iff hleast').mp hleast j h1 hexact
      · intro hne
        refine ⟨_, hcount, fun hgrows => ?_⟩
        obtain ⟨g, hg, hleast, o, ho, hocap⟩ :=
          grows_of_count log garbage hcount hcap hlt hsize (by omega) hgrows
        have henough := hleast.enough
        exact ⟨g, hg, (leastGrowth_succ_iff hleast).mpr hne, o, ho, hocap,
          by rw [Append.text]; omega⟩

/-- **When the growth is the least one.** For every logarithm of a C library, the
growth branch does what it is for exactly where the length it works with is
counted right, or a byte too many of it makes no difference. -/
theorem growsLeast_iff {log : Nat → Option Nat} (hlog : LogNear log) (garbage : Cells)
    {sb : StringBuilder} {a : Append} (hcap : 1 ≤ sb.capacity) (hlt : sb.capacity < 2 ^ 62)
    (hsize : sb.size ≤ sb.capacity + 1) (hfit : sb.size + a.text.length < 2 ^ 62) :
    GrowsLeast log garbage sb a ↔ a.Counted log sb := by
  cases a with
  | appends s =>
    have hgrows := growsLeast_of_count log garbage (a := .appends s) rfl hcap hlt hsize hfit
    exact iff_of_true hgrows trivial
  | appendl l => exact appendl_growsLeast_iff hlog garbage hcap hlt hsize hfit
  | format text => exact format_growsLeast_iff log garbage hcap hlt hsize hfit

/-- A block with `text` at its start and NULs behind it. -/
def holding (capacity : Nat) (text : Str) : StringBuilder :=
  { capacity := capacity, size := text.length, str := storeBytes (fun _ => 0) 0 text }

/-- Six bytes of a block of eight are used when -42 is appended, and three of
eleven when eighteen nines are, whose nineteenth digit is counted too. -/
theorem growsLeast_iff_old :
    (Append.Grows (holding 8 (str "cd /tm")) 3 (.appendl (-42)) ∧
      GrowsLeast log10 (fun _ => 7) (holding 8 (str "cd /tm")) (.appendl (-42))) ∧
    ¬ GrowsLeast log10 (fun _ => 7) (holding 11 (str "cd ")) (.appendl 999999999999999999) := by
  have hdouble : log10 42 = some (Nat.log 10 42) :=
    congrArg some (logExact_of_lt (l := 42) (by simp))
  have hold := @growsLeast_iff _ log10_near (fun _ => 7) (holding 8 (str "cd /tm"))
    (.appendl (-42)) (by simp [holding]) (by simp [holding]) (by simp [holding, str])
    (show 6 + 3 < 2 ^ 62 by omega)
  have hnines := @growsLeast_iff _ log10_near (fun _ => 7) (holding 11 (str "cd "))
    (.appendl 999999999999999999) (by simp [holding]) (by simp [holding])
    (by simp [holding, str]) (show 3 + 18 < 2 ^ 62 by omega)
  refine ⟨⟨show 8 ≤ (3 + sizeSub 6 1) % 2 ^ 64 by unfold sizeSub; omega, ?_⟩, ?_⟩
  · exact hold.mpr ⟨show (-42 : Int) ≠ 0 by omega, show (-42 : Int) ≠ -2 ^ 63 by omega, .inl hdouble⟩
  · intro hgrows
    rcases (hnines.mp hgrows).2.2 with hexact | hroom
    · exact not_logExact_nines (Option.some.inj hexact)
    · exact hroom 1 le_rfl (show 3 + 18 + 1 = 11 * 2 ^ 1 by omega)

/-- 0 has no count at all, and eighteen nines double a block of eleven that has
three bytes used once too often. -/
theorem not_growsLeast_digits :
    ¬ GrowsLeast log10 (fun _ => 0) (holding 16 []) (.appendl 0) ∧
    ¬ GrowsLeast log10 (fun _ => 0) (holding 11 (str "cd ")) (.appendl 999999999999999999) := by
  constructor
  · intro hgrows
    have hcond := (@appendl_growsLeast_iff _ log10_near (fun _ => 0) (holding 16 []) 0
      (by simp [holding]) (by simp [holding]) (by simp [holding])
      (show 0 + 1 < 2 ^ 62 by omega)).mp hgrows
    exact hcond.1 rfl
  · intro hgrows
    have hcond := (@appendl_growsLeast_iff _ log10_near (fun _ => 0) (holding 11 (str "cd "))
      999999999999999999 (by simp [holding]) (by simp [holding]) (by simp [holding, str])
      (show 3 + 18 < 2 ^ 62 by omega)).mp hgrows
    rcases hcond.2.2 with hexact | hroom
    · exact not_logExact_nines (Option.some.inj hexact)
    · exact hroom 1 le_rfl (show 3 + 18 + 1 = 11 * 2 ^ 1 by omega)

/-! ## What is appended -/

/-- The block starts with `old`, and `size` is behind it. -/
structure Starts (sb : StringBuilder) (old : Str) : Prop where
  size : sb.size = old.length
  chars : ∀ i, i < old.length → old[i]? = some (sb.str i)
  nulFree : NulFree old

/-- The capacity a number of `d` digits is written to: the old one, or the first
doubling over the digits. -/
inductive Holding (sb : StringBuilder) (d : Nat) : Nat → Prop
  | kept : sb.size + d ≤ sb.capacity → Holding sb d sb.capacity
  | doubled (g : Nat) : sb.capacity < sb.size + d → sb.capacity * 2 ^ g ≤ sb.size + d →
    sb.size + d < sb.capacity * 2 ^ (g + 1) → Holding sb d (sb.capacity * 2 ^ (g + 1))

theorem Holding.fits_iff {sb : StringBuilder} {d capacity : Nat} (h : Holding sb d capacity) :
    sb.size + d + 2 ≤ capacity ↔
      sb.size + d ≠ sb.capacity ∧ ∀ g, sb.size + d + 1 ≠ sb.capacity * 2 ^ g := by
  cases h with
  | kept hle =>
    constructor
    · intro hroom
      refine ⟨by omega, fun g => ?_⟩
      have hmul : sb.capacity ≤ sb.capacity * 2 ^ g :=
        Nat.le_mul_of_pos_right _ (Nat.two_pow_pos g)
      omega
    · intro hcond
      obtain ⟨hnum, hnul⟩ := hcond
      have hne := hnul 0
      rw [pow_zero, Nat.mul_one] at hne
      omega
  | doubled g hfull hshort hlt =>
    constructor
    · intro hroom
      refine ⟨by omega, fun j heq => ?_⟩
      -- a doubling that holds the digits is at least the first one
      rcases Nat.lt_or_ge g j with hgj | hjg
      · have hmul : sb.capacity * 2 ^ (g + 1) ≤ sb.capacity * 2 ^ j :=
          Nat.mul_le_mul_left _ (Nat.pow_le_pow_right (by omega) hgj)
        omega
      · have hmul : sb.capacity * 2 ^ j ≤ sb.capacity * 2 ^ g :=
          Nat.mul_le_mul_left _ (Nat.pow_le_pow_right (by omega) hjg)
        omega
    · intro hcond
      have hne := hcond.2 (g + 1)
      omega

/-- An empty builder on a cleared block. -/
def blank (capacity : Nat) : StringBuilder := { capacity := capacity, size := 0, str := fun _ => 0 }

end Shell.Stringbuilder
