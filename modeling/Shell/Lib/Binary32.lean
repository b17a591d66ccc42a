import Shell.Lib.Rounding

/-! # Rounding a natural number to binary32

`f32 n` is `n` converted to a 24-bit significand, to nearest with ties to even.
A number whose significand fits is exact, rounding never crosses such a number,
and it moves up by less than one part in 2 ^ 24. -/
namespace Shell.Lib.Binary32

/-- The exponent of the last significand bit: 0 below 2 ^ 24. -/
def ulpExp (n : Nat) : Nat := Nat.log2 n - 23

def f32 (n : Nat) : Nat :=
  let u := 2 ^ ulpExp n
  let q := n / u
  let r := n % u
  if u < 2 * r ∨ (2 * r = u ∧ q % 2 = 1) then (q + 1) * u else q * u

theorem f32_eq_round (n : Nat) : f32 n = Rounding.round 23 n := rfl

/-- Rounding up adds at most half a unit in the last place. -/
theorem f32_le (n : Nat) : f32 n ≤ n + n / 2 ^ 24 := by
  rw [f32_eq_round]
  exact Rounding.round_le 23 n

/-- Rounding never crosses a number that is exact. -/
theorem le_f32_of_le {t j n : Nat} (ht : t < 2 ^ 24) (hle : t * 2 ^ j ≤ n) : t * 2 ^ j ≤ f32 n := by
  rw [f32_eq_round]
  exact Rounding.le_round_of_le ht hle

theorem f32_exact {t : Nat} (j : Nat) (ht : t < 2 ^ 24) : f32 (t * 2 ^ j) = t * 2 ^ j := by
  rw [f32_eq_round]
  exact Rounding.round_exact j ht

end Shell.Lib.Binary32
