import Phrasebook.Numbers

/-!
Rounding to 53 significant bits.

A magnitude of binary64 is a whole number of units, the unit being the smallest
positive magnitude, 2^-1074.  So magnitudes are compared, added and subtracted as
natural numbers, and the one thing that separates their arithmetic from that of the
natural numbers is `roundShort`: an exact result, given as a quotient, goes to the
nearest number of at most 53 significant bits, and from the middle between two of them
to the even one.
-/

namespace Phrasebook

/-- The natural number nearest to `n / d`; a half goes to the even neighbour. -/
def roundDiv (n d : Nat) : Nat :=
  let q := n / d
  let r := n % d
  if 2 * r < d then q else if d < 2 * r then q + 1 else q + q % 2

theorem roundDiv_le (n d : Nat) : roundDiv n d ≤ n / d + 1 := by
  unfold roundDiv
  dsimp only
  repeat' split
  all_goals omega

/-- A number with at most 53 significant bits. -/
def IsShort (n : Nat) : Prop := ∃ k s : Nat, k < 2 ^ (53 : Nat) ∧ n = k * 2 ^ s

/-- The number with at most 53 significant bits that is nearest to `n / d`. -/
def roundShort (n d : Nat) : Nat :=
  let s := (n / d).log2 - 52
  roundDiv n (d * 2 ^ s) * 2 ^ s

theorem isShort_roundShort (n d : Nat) : IsShort (roundShort n d) := by
  unfold roundShort
  generalize hs : (n / d).log2 - 52 = s
  have hq : n / d < 2 ^ 53 * 2 ^ s := by
    have hlt : n / d < 2 ^ ((n / d).log2 + 1) := Nat.lt_log2_self
    have hle : 2 ^ ((n / d).log2 + 1) ≤ 2 ^ (53 + s) :=
      Nat.pow_le_pow_right (by decide) (by omega)
    rw [← Nat.pow_add]
    omega
  have hk : roundDiv n (d * 2 ^ s) ≤ 2 ^ 53 := by
    have hdiv : n / (d * 2 ^ s) < 2 ^ 53 := by
      rw [← Nat.div_div_eq_div_mul]
      exact Nat.div_lt_of_lt_mul (by rw [Nat.mul_comm]; exact hq)
    have := roundDiv_le n (d * 2 ^ s)
    omega
  rcases Nat.lt_or_eq_of_le hk with h | h
  · exact ⟨_, s, h, rfl⟩
  · refine ⟨2 ^ 52, s + 1, by decide, ?_⟩
    simp only [h, Nat.pow_succ]
    omega

end Phrasebook
