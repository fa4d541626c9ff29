import Mathlib.Tactic

/-!
# The top bits of a number

Clearing the lowest bits of a number gives the number that a bitwise search for it has
found when it has come down to them: the next bit belongs to the number exactly when
adding it does not overshoot.
-/

namespace Janus86
namespace TopBits

/-- The number without its lowest `k` bits. -/
def topBits (x k : ℕ) : ℕ := x / 2 ^ k * 2 ^ k

variable {x k m : ℕ}

theorem topBits_le (x k : ℕ) : topBits x k ≤ x := Nat.div_mul_le_self x (2 ^ k)

theorem lt_topBits_add (x k : ℕ) : x < topBits x k + 2 ^ k :=
  Nat.lt_div_mul_add (Nat.two_pow_pos k)

/-- The search starts at the highest bit. -/
theorem topBits_highest (hlow : 2 ^ m ≤ x) (hhigh : x < 2 ^ (m + 1)) :
    topBits x m = 2 ^ m := by
  have hquot : x / 2 ^ m = 1 := by
    rw [Nat.div_eq_iff (Nat.two_pow_pos m)]
    rw [pow_succ] at hhigh
    omega
  rw [topBits, hquot, Nat.one_mul]

/-- A step of the search. -/
theorem topBits_step (x k : ℕ) :
    topBits x k =
      if topBits x (k + 1) + 2 ^ k ≤ x then topBits x (k + 1) + 2 ^ k
      else topBits x (k + 1) := by
  have hhalf : x / 2 ^ (k + 1) = x / 2 ^ k / 2 := by
    rw [pow_succ, Nat.div_div_eq_div_mul]
  have hpair : topBits x (k + 1) = 2 * (x / 2 ^ k / 2) * 2 ^ k := by
    rw [topBits, hhalf, pow_succ]
    ring
  have hquot := Nat.div_add_mod (x / 2 ^ k) 2
  rcases Nat.mod_two_eq_zero_or_one (x / 2 ^ k) with hbit | hbit
  · have hsame : topBits x (k + 1) = topBits x k := by
      rw [hpair, topBits]
      congr 1
      omega
    rw [if_neg, hsame]
    have hlt := lt_topBits_add x k
    omega
  · have hnext : topBits x (k + 1) + 2 ^ k = topBits x k := by
      calc topBits x (k + 1) + 2 ^ k = (2 * (x / 2 ^ k / 2) + 1) * 2 ^ k := by
            rw [hpair]
            ring
        _ = topBits x k := by
            rw [topBits]
            congr 1
            omega
    rw [if_pos, hnext]
    exact hnext ▸ topBits_le x k

theorem testBit_topBits (x k : ℕ) : (topBits x (k + 1)).testBit k = false := by
  rw [topBits, Nat.testBit_mul_two_pow]
  simp

theorem topBits_or (x k : ℕ) : topBits x (k + 1) ||| 2 ^ k = topBits x (k + 1) + 2 ^ k := by
  rw [topBits, Nat.mul_comm]
  exact (Nat.two_pow_add_eq_or_of_lt (Nat.pow_lt_pow_right (by omega) (by omega)) _).symm

end TopBits
end Janus86
