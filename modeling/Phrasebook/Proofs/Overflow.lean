import Phrasebook.Proofs.Possibilities

/-!
What sums and products of counts say about the true number.

A term is worked out twice: with counts, which stop at the largest word and at the cap, and with
natural numbers, which stop nowhere.  Stopping at the largest word loses nothing but the excess:
a value that is not marked is the true one, or the largest word if the true one is larger
(`value_eq_min`).  With a cap below the largest word an excess does not go unseen, for a value
that has come so far is above the cap, and is marked.  With the largest word itself as the cap
nothing is above it, and so nothing is ever marked.

That a marked value below the cap is a bound is what `Possibilities.Bounds` says, step by step.
-/

namespace Phrasebook

namespace Possibilities

/-! ### One step -/

variable {cap : Nat} {p q : Possibilities}

/-- No sum is above the cap. -/
theorem value_add_le (cap : Nat) (p q : Possibilities) : (p.add cap q).value ≤ cap := by
  rw [add, capped_eq]
  exact Nat.min_le_right _ _

/-- No product is above the cap. -/
theorem value_mul_le (cap : Nat) (p q : Possibilities) : (p.mul cap q).value ≤ cap := by
  rw [mul, capped_eq]
  exact Nat.min_le_right _ _

/-- What is capped without being marked was not marked, and keeps its value. -/
theorem of_unmarked_capped (h : (p.capped cap).approximate = false) :
    p.approximate = false ∧ (p.capped cap).value = p.value := by
  rw [capped_eq] at h ⊢
  obtain ⟨hle, hp⟩ := Bool.or_eq_false_iff.mp h
  exact ⟨hp, Nat.min_eq_left (Nat.le_of_not_lt (of_decide_eq_false hle))⟩

theorem of_unmarked_add (h : (p.add cap q).approximate = false) :
    p.approximate = false ∧ q.approximate = false ∧
      (p.add cap q).value = min (p.value + q.value) largest := by
  obtain ⟨happrox, hvalue⟩ := of_unmarked_capped h
  obtain ⟨hp, hq⟩ := Bool.or_eq_false_iff.mp happrox
  exact ⟨hp, hq, hvalue⟩

theorem of_unmarked_mul (h : (p.mul cap q).approximate = false) :
    p.approximate = false ∧ q.approximate = false ∧
      (p.mul cap q).value = min (p.value * q.value) largest := by
  obtain ⟨happrox, hvalue⟩ := of_unmarked_capped h
  obtain ⟨hp, hq⟩ := Bool.or_eq_false_iff.mp happrox
  exact ⟨hp, hq, hvalue⟩

/-- A cap that no word is above marks nothing. -/
theorem unmarked_capped (hcap : largest ≤ cap) (v : Nat) :
    (Possibilities.capped cap ⟨min v largest, false⟩).approximate = false := by
  have hle : min v largest ≤ cap := Nat.le_trans (Nat.min_le_right v largest) hcap
  rw [capped_of_le hle]

/-! ### Terms -/

/-- Sums and products of counts that are known exactly. -/
inductive Term where
  | count (n : UInt64)
  | sum (a b : Term)
  | product (a b : Term)

namespace Term

/-- The term as it is counted under a cap. -/
def eval (cap : Nat) : Term → Possibilities
  | count n => .exact n.toNat
  | sum a b => (a.eval cap).add cap (b.eval cap)
  | product a b => (a.eval cap).mul cap (b.eval cap)

/-- The true number. -/
def total : Term → Nat
  | count n => n.toNat
  | sum a b => a.total + b.total
  | product a b => a.total * b.total

theorem count_le_largest (n : UInt64) : n.toNat ≤ largest := Nat.le_sub_one_of_lt n.toNat_lt

/-! ### What is not marked -/

/-- A product that stops at a number does not care whether a factor stopped there. -/
theorem min_mul_min_right (a b l : Nat) : min (a * min b l) l = min (a * b) l := by
  rcases Nat.le_total b l with hb | hb
  · rw [Nat.min_eq_left hb]
  · rw [Nat.min_eq_right hb]
    rcases Nat.eq_zero_or_pos a with rfl | hpos
    · rw [Nat.zero_mul, Nat.zero_mul]
    · have hl : l ≤ a * l := Nat.le_mul_of_pos_left l hpos
      have hab : l ≤ a * b := Nat.le_trans hl (Nat.mul_le_mul_left a hb)
      rw [Nat.min_eq_right hl, Nat.min_eq_right hab]

theorem min_mul_min (a b l : Nat) : min (min a l * min b l) l = min (a * b) l :=
  calc min (min a l * min b l) l
      = min (b * min a l) l := by rw [min_mul_min_right, Nat.mul_comm]
    _ = min (a * b) l := by rw [min_mul_min_right, Nat.mul_comm]

/-- **A value that is not marked is the true number**, up to the largest word. -/
theorem value_eq_min {cap : Nat} {t : Term} (h : (t.eval cap).approximate = false) :
    (t.eval cap).value = min t.total largest := by
  induction t with
  | count n => exact (Nat.min_eq_left (count_le_largest n)).symm
  | sum a b iha ihb =>
      obtain ⟨ha, hb, hvalue⟩ := of_unmarked_add h
      rw [eval, hvalue, iha ha, ihb hb, total]
      omega
  | product a b iha ihb =>
      obtain ⟨ha, hb, hvalue⟩ := of_unmarked_mul h
      rw [eval, hvalue, iha ha, ihb hb, min_mul_min, total]

/-- A value that is not above a cap below the largest word did not stop there. -/
theorem eq_total_of_lt {cap v n : Nat} (hcap : cap < largest) (hle : v ≤ cap)
    (hmin : v = min n largest) : v = n := by
  omega

/-- With a cap below the largest word a value that is not marked is the true number. -/
theorem value_eq_total_of_lt {cap : Nat} (hcap : cap < largest) {t : Term}
    (h : (t.eval cap).approximate = false) : (t.eval cap).value = t.total := by
  have hmin := value_eq_min h
  cases t with
  | count n => rfl
  | sum a b => exact eq_total_of_lt hcap (value_add_le cap _ _) hmin
  | product a b => exact eq_total_of_lt hcap (value_mul_le cap _ _) hmin

/-! ### What is marked -/

/-- Below the largest word a term is counted as a bound. -/
theorem bounds_eval {cap : Nat} (hcap : cap < largest) (t : Term) :
    (t.eval cap).Bounds cap t.total := by
  induction t with
  | count n => exact Bounds.exact n.toNat
  | sum a b iha ihb => exact iha.add hcap ihb
  | product a b iha ihb => exact iha.mul hcap ihb

/-- With the largest word as the cap nothing is marked. -/
theorem unmarked_eval {cap : Nat} (hcap : largest ≤ cap) (t : Term) :
    (t.eval cap).approximate = false := by
  induction t with
  | count n => rfl
  | sum a b iha ihb =>
      rw [eval, add, iha, ihb]
      exact unmarked_capped hcap _
  | product a b iha ihb =>
      rw [eval, mul, iha, ihb]
      exact unmarked_capped hcap _

theorem total_le_value {cap : Nat} {t : Term} (hmarked : (t.eval cap).approximate = true)
    (huncapped : (t.eval cap).isCapped cap = false) : t.total ≤ (t.eval cap).value := by
  rcases Nat.lt_or_ge cap largest with hcap | hcap
  · rcases t.bounds_eval hcap with hcapped | hle
    · rw [huncapped] at hcapped
      injection hcapped
    · exact hle
  · rw [unmarked_eval hcap t] at hmarked
    injection hmarked

end Term

end Possibilities

/--
**An overflow is marked**, if the cap is below the largest word: a value that is not marked is the
true number.  With the largest word as the cap this is so for true numbers that are words.  Under
any cap, a value that is marked and did not hit the cap is no less than the true number, and no
sum or product is above the cap.
-/
theorem eval_eq_total_or_marked (cap : Nat) (t : Possibilities.Term) :
    (cap < Possibilities.largest ∨ t.total ≤ Possibilities.largest →
        (t.eval cap).approximate = false → (t.eval cap).value = t.total) ∧
      ((t.eval cap).approximate = true → (t.eval cap).isCapped cap = false →
        t.total ≤ (t.eval cap).value) ∧
      ∀ p q : Possibilities, (p.add cap q).value ≤ cap ∧ (p.mul cap q).value ≤ cap := by
  refine ⟨fun hseen hunmarked => ?_, Possibilities.Term.total_le_value, fun p q =>
    ⟨Possibilities.value_add_le cap p q, Possibilities.value_mul_le cap p q⟩⟩
  rcases hseen with hcap | htotal
  · exact Possibilities.Term.value_eq_total_of_lt hcap hunmarked
  · rw [Possibilities.Term.value_eq_min hunmarked, Nat.min_eq_left htotal]

/-! ### Twice the largest word -/

namespace Possibilities.Term

/-- Twice the largest word, which is no word. -/
def twiceLargest : Term := .product (.count 18446744073709551615) (.count 2)

/-- Five, and twice the largest word no times. -/
def noneOfMany : Term := .sum (.product twiceLargest (.count 0)) (.count 5)

end Possibilities.Term

/-- Under a cap of a thousand the overflow is marked, and what comes to five is counted as five,
marked, and not capped. -/
theorem eval_eq_total_or_marked_thousand :
    (Possibilities.Term.twiceLargest.eval 1000).isCapped 1000 = true ∧
      (Possibilities.Term.noneOfMany.eval 1000).approximate = true ∧
      (Possibilities.Term.noneOfMany.eval 1000).isCapped 1000 = false ∧
      Possibilities.Term.noneOfMany.total ≤ (Possibilities.Term.noneOfMany.eval 1000).value :=
  ⟨by decide, by decide, by decide,
    (eval_eq_total_or_marked 1000 Possibilities.Term.noneOfMany).2.1 (by decide) (by decide)⟩

/-- With the largest word as the cap, twice this word is counted as the word, and not marked. -/
theorem overflow_unmarked :
    (Possibilities.Term.twiceLargest.eval Possibilities.largest).approximate = false ∧
      (Possibilities.Term.twiceLargest.eval Possibilities.largest).value ≠
        Possibilities.Term.twiceLargest.total := by
  decide

end Phrasebook
