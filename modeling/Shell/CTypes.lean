import Mathlib.Algebra.Group.Int.Defs
import Mathlib.Algebra.Group.Nat.Defs
import Mathlib.Data.Bool.AllAny
import Mathlib.Data.List.Basic
import Mathlib.Data.Nat.Basic

/-! # C scalars and strings

A C string is the list of its bytes without the terminating NUL. `char` is
signed, so a byte widened to `int` is negative from 128 on, and byte 255 is
the value -1. `size_t` is a natural number below 2 ^ 64 with wrapping
subtraction and shift. -/
namespace Shell.CTypes

abbrev Str := List UInt8

/-- No byte of the list ends a C string early. -/
def NulFree (s : Str) : Prop := ∀ b ∈ s, b ≠ 0

instance (s : Str) : Decidable (NulFree s) := List.decidableBAll (fun b => b ≠ 0) s

/-- `(int) c` for a signed `char`. -/
def toInt (b : UInt8) : Int := if b.toNat < 128 then b.toNat else b.toNat - 256

/-- The byte of an ASCII character literal. -/
def chr (c : Char) : UInt8 := UInt8.ofNat c.toNat

/-- The `int` value of an ASCII character literal. -/
def ch (c : Char) : Int := c.toNat

/-- The bytes of an ASCII string literal. -/
def str (s : String) : Str := s.toList.map chr

def sizeSub (a b : Nat) : Nat := (a + 2 ^ 64 - b) % 2 ^ 64

def sizeShl (a n : Nat) : Nat := a * 2 ^ n % 2 ^ 64

theorem sizeSub_eq {a b : Nat} (hb : b ≤ a) (ha : a < 2 ^ 64) : sizeSub a b = a - b := by
  unfold sizeSub; omega

theorem sizeShl_eq {a n : Nat} (h : a * 2 ^ n < 2 ^ 64) : sizeShl a n = a * 2 ^ n :=
  Nat.mod_eq_of_lt h

end Shell.CTypes
