import Mathlib.Data.Nat.Log
import Mathlib.Tactic.Ring

/-! # Rounding a natural number to a binary significand

`round p n` is `n` converted to a significand of `p + 1` bits, to nearest with
ties to even. A number whose significand fits is exact, rounding never crosses
such a number, and it moves up by less than one part in 2 ^ (p + 1). -/
namespace Shell.Lib.Rounding

variable {p : Nat}

/-- The exponent of the last significand bit: 0 below 2 ^ (p + 1). -/
def ulpExp (p n : Nat) : Nat := Nat.log2 n - p

def round (p n : Nat) : Nat :=
  let u := 2 ^ ulpExp p n
  let q := n / u
  let r := n % u
  if u < 2 * r ∨ (2 * r = u ∧ q % 2 = 1) then (q + 1) * u else q * u

theorem le_of_ulpExp_pos {n : Nat} (h : 0 < ulpExp p n) : 2 ^ p * 2 ^ ulpExp p n ≤ n := by
  unfold ulpExp at *
  have hn : n ≠ 0 := by rintro rfl; simp at h
  rw [← pow_add, show p + (Nat.log2 n - p) = Nat.log2 n by omega]
  exact (Nat.le_log2 hn).mp le_rfl

/-- Rounding up adds at most half a unit in the last place. -/
theorem round_le (p n : Nat) : round p n ≤ n + n / 2 ^ (p + 1) := by
  rcases Nat.eq_zero_or_pos (ulpExp p n) with h0 | hpos
  · simp [round, h0, Nat.mod_one]
  · have hle := le_of_ulpExp_pos hpos
    have hdiv := Nat.div_add_mod n (2 ^ ulpExp p n)
    have hcomm := Nat.mul_comm (2 ^ ulpExp p n) (n / 2 ^ ulpExp p n)
    have hhalf : 2 ^ ulpExp p n ≤ 2 * (n / 2 ^ (p + 1)) + 1 := by
      rw [pow_succ, ← Nat.div_div_eq_div_mul]
      have hquot : 2 ^ ulpExp p n ≤ n / 2 ^ p :=
        (Nat.le_div_iff_mul_le (Nat.two_pow_pos _)).mpr (by rwa [Nat.mul_comm])
      omega
    simp only [round]
    split
    · rw [Nat.add_mul, Nat.one_mul]
      omega
    · omega

/-- Rounding never crosses a number that is exact. -/
theorem le_round_of_le {t j n : Nat} (ht : t < 2 ^ (p + 1)) (hle : t * 2 ^ j ≤ n) :
    t * 2 ^ j ≤ round p n := by
  have hq : n / 2 ^ ulpExp p n * 2 ^ ulpExp p n ≤ round p n := by
    simp only [round]
    split
    · exact Nat.mul_le_mul_right _ (by omega)
    · exact le_rfl
  rcases Nat.lt_or_ge j (ulpExp p n) with hlt | hge
  · -- the exact number lies below the binade of `n`
    have hpos : 0 < ulpExp p n := by omega
    have hn := le_of_ulpExp_pos hpos
    have hbelow : t * 2 ^ j ≤ 2 ^ p * 2 ^ ulpExp p n := by
      calc t * 2 ^ j ≤ 2 ^ (p + 1) * 2 ^ j := Nat.mul_le_mul_right _ ht.le
        _ = 2 ^ p * 2 ^ (j + 1) := by rw [pow_succ, pow_succ]; ring
        _ ≤ 2 ^ p * 2 ^ ulpExp p n :=
          Nat.mul_le_mul_left _ (Nat.pow_le_pow_right (by omega) hlt)
    have hdiv : 2 ^ p ≤ n / 2 ^ ulpExp p n :=
      (Nat.le_div_iff_mul_le (Nat.two_pow_pos _)).mpr hn
    exact hbelow.trans ((Nat.mul_le_mul_right _ hdiv).trans hq)
  · -- it is a multiple of the unit in the last place
    obtain ⟨d, rfl⟩ : ∃ d, j = d + ulpExp p n := ⟨j - ulpExp p n, by omega⟩
    rw [pow_add, ← Nat.mul_assoc] at hle ⊢
    have hdiv : t * 2 ^ d ≤ n / 2 ^ ulpExp p n :=
      (Nat.le_div_iff_mul_le (Nat.two_pow_pos _)).mpr hle
    exact (Nat.mul_le_mul_right _ hdiv).trans hq

theorem round_exact {t : Nat} (j : Nat) (ht : t < 2 ^ (p + 1)) :
    round p (t * 2 ^ j) = t * 2 ^ j := by
  refine le_antisymm ?_ (le_round_of_le ht le_rfl)
  -- the significand is a multiple of the unit, so there is no remainder to round
  have hdvd : 2 ^ ulpExp p (t * 2 ^ j) ∣ t * 2 ^ j := by
    rcases Nat.eq_zero_or_pos t with rfl | hpos
    · simp
    · refine (Nat.pow_dvd_pow 2 ?_).trans (Nat.dvd_mul_left (2 ^ j) t)
      have hne : t * 2 ^ j ≠ 0 := (Nat.mul_pos hpos (Nat.two_pow_pos j)).ne'
      have hlt : t * 2 ^ j < 2 ^ (p + 1 + j) := by
        rw [pow_add 2 (p + 1) j]; exact Nat.mul_lt_mul_of_pos_right ht (Nat.two_pow_pos j)
      have hlog := (Nat.log2_lt hne).mpr hlt
      unfold ulpExp
      omega
  have hmod : t * 2 ^ j % 2 ^ ulpExp p (t * 2 ^ j) = 0 := Nat.mod_eq_zero_of_dvd hdvd
  have hdiv := Nat.div_mul_cancel hdvd
  have hupos := Nat.two_pow_pos (ulpExp p (t * 2 ^ j))
  simp only [round, hmod]
  rw [if_neg (by omega), hdiv]

end Shell.Lib.Rounding
