import Mathlib.Tactic.Ring
import Phrasebook.Binary64.Rounding

/-!
What rounding to 53 bits keeps.

A number that is short already stays as it is, and a quotient that lies below a short number
by at least one step of its binade stays below it.  Both come from one fact: rounding never
crosses a multiple of its own step.
-/

namespace Phrasebook

/-- Rounding does not pass a natural number that bounds the quotient. -/
theorem roundDiv_le_of_le_mul {n d m : Nat} (hd : 0 < d) (h : n ≤ m * d) : roundDiv n d ≤ m := by
  have hdiv : n = d * (n / d) + n % d := (Nat.div_add_mod n d).symm
  have hmod : n % d < d := Nat.mod_lt n hd
  have hq : n / d ≤ m := Nat.div_le_of_le_mul (by rwa [Nat.mul_comm])
  rcases Nat.lt_or_eq_of_le hq with hlt | heq
  · exact Nat.le_trans (roundDiv_le n d) hlt
  · -- The quotient is the bound itself, so nothing is left to round up.
    have hr : n % d = 0 := by
      rw [heq, Nat.mul_comm] at hdiv
      omega
    simp only [roundDiv, hr, Nat.mul_zero, if_pos hd]
    exact hq

theorem roundDiv_mul {m d : Nat} (hd : 0 < d) : roundDiv (m * d) d = m := by
  simp [roundDiv, Nat.mul_div_cancel _ hd, hd]

/-- The step of the binade of a number below `2 ^ (53 + e)` is at most `2 ^ e`. -/
theorem log2_sub_le {q e : Nat} (h : q < 2 ^ (53 + e)) : q.log2 - 52 ≤ e := by
  by_cases hq : q = 0
  · simp [hq]
  · have := (Nat.log2_lt hq).mpr h
    omega

/-- **A short number is not rounded.** -/
theorem roundShort_of_isShort {n : Nat} (h : IsShort n) : roundShort n 1 = n := by
  obtain ⟨k, e, hk, rfl⟩ := h
  have hlt : k * 2 ^ e < 2 ^ (53 + e) := by
    rw [Nat.pow_add]
    exact Nat.mul_lt_mul_of_pos_right hk (Nat.two_pow_pos e)
  have hs := log2_sub_le hlt
  simp only [roundShort, Nat.div_one, Nat.one_mul]
  generalize (k * 2 ^ e).log2 - 52 = s at hs
  have hsplit : k * 2 ^ e = k * 2 ^ (e - s) * 2 ^ s := by
    rw [Nat.mul_assoc, ← Nat.pow_add, Nat.sub_add_cancel hs]
  rw [hsplit, roundDiv_mul (Nat.two_pow_pos s)]

/-- A quotient at most `k - 1` steps of `2 ^ e` high is rounded to at most that. -/
theorem roundShort_le {n d k e : Nat} (hd : 0 < d) (hk : k ≤ 2 ^ 53) (hpos : 0 < k)
    (h : n ≤ (k - 1) * 2 ^ e * d) : roundShort n d ≤ (k - 1) * 2 ^ e := by
  have hlt : n / d < 2 ^ (53 + e) := by
    have hdiv : n / d ≤ (k - 1) * 2 ^ e := Nat.div_le_of_le_mul (by rwa [Nat.mul_comm])
    have hmul : (k - 1) * 2 ^ e < 2 ^ 53 * 2 ^ e :=
      Nat.mul_lt_mul_of_pos_right (by omega) (Nat.two_pow_pos e)
    rw [Nat.pow_add]
    omega
  have hs := log2_sub_le hlt
  simp only [roundShort]
  generalize (n / d).log2 - 52 = s at hs
  have hsplit : (k - 1) * 2 ^ e = (k - 1) * 2 ^ (e - s) * 2 ^ s := by
    rw [Nat.mul_assoc, ← Nat.pow_add, Nat.sub_add_cancel hs]
  rw [hsplit]
  refine Nat.mul_le_mul_right _ (roundDiv_le_of_le_mul (Nat.mul_pos hd (Nat.two_pow_pos s)) ?_)
  calc n ≤ (k - 1) * 2 ^ e * d := h
    _ = (k - 1) * 2 ^ (e - s) * (d * 2 ^ s) := by rw [hsplit]; ring

end Phrasebook
