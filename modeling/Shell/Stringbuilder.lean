import Shell.CTypes
import Shell.Lib.Loop

/-! # The growable string buffer (stringbuilder.c)

The block behind `str` is a function from indices to bytes. Only the cells
below `capacity` belong to the block; a write at any other index is kept in
the model too, and every operation reports the indices it wrote, so that an
out-of-bounds write can be seen. What `realloc` leaves in the grown part is a
parameter. `none` stands for undefined behaviour that returns no value: a
shift by 64 or more, or a search for a NUL that leaves the block. -/
namespace Shell.Stringbuilder
open Shell.CTypes Shell.Lib

abbrev Cells := Nat → UInt8

structure StringBuilder where
  capacity : Nat
  size : Nat
  str : Cells

/-- A builder after an operation, and the indices of `str` it wrote. -/
structure Outcome where
  sb : StringBuilder
  writes : List Nat

/-! ## The C library on cells -/

def calloc (n : Nat) (garbage : Cells) : Cells := fun i => if i < n then 0 else garbage i

def realloc (cells : Cells) (old : Nat) (garbage : Cells) : Cells := fun i =>
  if i < old then cells i else garbage i

def memsetZero (cells : Cells) (start n : Nat) : Cells := fun i =>
  if start ≤ i ∧ i < start + n then 0 else cells i

def storeBytes (cells : Cells) (start : Nat) (bytes : List UInt8) : Cells := fun i =>
  if start ≤ i then (bytes[i - start]?).getD (cells i) else cells i

/-- The first NUL at or after `start` inside a block of `bound` cells. -/
def firstNul (cells : Cells) (start bound : Nat) : Option Nat :=
  (List.range' start (bound - start)).find? fun i => cells i == 0

/-- The block read as a C string; `none` when it holds no NUL. -/
def cstr (sb : StringBuilder) : Option Str :=
  (firstNul sb.str 0 sb.capacity).map fun n => (List.range n).map sb.str

/-! ## The operations -/

def sbNewSized (initialCapacity : Nat) (garbage : Cells) : StringBuilder :=
  let initialCapacity := if initialCapacity = 0 then 16 else initialCapacity
  { capacity := initialCapacity, size := 0, str := calloc initialCapacity garbage }

/-- `while ((capacity << growth_factor) - size <= needed) ++growth_factor;` -/
def growthStep (capacity size needed growthFactor : Nat) : Nat ⊕ Option Nat :=
  if 64 ≤ growthFactor then .inr none
  else if sizeSub (sizeShl capacity growthFactor) size ≤ needed then .inl (growthFactor + 1)
  else .inr (some growthFactor)

def growthFactor (capacity size needed : Nat) : Option Nat :=
  (Loop.run (growthStep capacity size needed) (64 - ·) 1).join

/-- The growth branch, the same lines in `sb_appends`, `sb_appendl` and
`sb_format`: grow by a power of two, then zero everything from `size` on. -/
def sbGrow (garbage : Cells) (sb : StringBuilder) (needed : Nat) : Option Outcome :=
  let capacity := if sb.capacity = 0 then 16 else sb.capacity
  (growthFactor capacity sb.size needed).map fun g =>
    let grown := sizeShl capacity g
    let count := sizeSub grown sb.size
    { sb := { capacity := grown, size := sb.size,
              str := memsetZero (realloc sb.str sb.capacity garbage) sb.size count },
      writes := List.range' sb.size count }

/-- `strcat(&sb->str[sb->size], str); sb->size += strlen(str);` -/
def sbCat (o : Outcome) (str : Str) : Option Outcome :=
  (firstNul o.sb.str o.sb.size o.sb.capacity).map fun pos =>
    { sb := { o.sb with str := storeBytes o.sb.str pos (str ++ [0]),
                        size := (o.sb.size + str.length) % 2 ^ 64 },
      writes := o.writes ++ List.range' pos (str.length + 1) }

def sbAppends (garbage : Cells) (sb : StringBuilder) (str : Str) : Option Outcome :=
  let spaceNeeded := str.length
  if sizeSub sb.capacity (sizeSub sb.size 1) ≤ spaceNeeded then
    (sbGrow garbage sb spaceNeeded).bind fun o => sbCat o str
  else sbCat { sb := sb, writes := [] } str

def sbAppendc (garbage : Cells) (sb : StringBuilder) (c : UInt8) : Outcome :=
  -- the doubled block is not cleared, unlike in `sbGrow`
  let sb := if sizeSub sb.size 1 = sb.capacity then
      let capacity := if sb.capacity = 0 then 16 else sb.capacity
      { sb with capacity := sizeShl capacity 1, str := realloc sb.str sb.capacity garbage }
    else sb
  { sb := { sb with str := storeBytes sb.str sb.size [c], size := (sb.size + 1) % 2 ^ 64 },
    writes := [sb.size] }

/-- Hands the block out and starts on a cleared one of the same capacity. -/
def sbTakestring (garbage : Cells) (sb : StringBuilder) : Cells × StringBuilder :=
  (sb.str, { sb with size := 0, str := calloc sb.capacity garbage })

end Shell.Stringbuilder
