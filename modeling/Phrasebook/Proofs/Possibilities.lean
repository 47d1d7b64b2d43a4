import Phrasebook.Possibilities
import Mathlib.Tactic.Common

/-!
Counts as bounds.

A count that hit the cap says nothing, any other is an upper bound: this is `Bounds`.  Sums
and products of bounds are bounds again.  The one delicate case is a product of a count that
hit the cap with zero, which is an honest zero again; it is one for the product as well,
because what an honest zero bounds is zero.

The cap has to lie below the largest word.  Values stop there before the cap is looked at,
so otherwise a value that was cut off would pass for an honest one.

Sums and products can also be taken without any cap, with values that are natural numbers of
any size.  Capping at each step then comes to the same as capping once, at the end, if no
factor is zero: a value that was cut off at the cap stays there, and so does the true one
above it.
-/

namespace Phrasebook

namespace Possibilities

/-- Unless it hit the cap, the count is at least `n`. -/
def Bounds (cap : Nat) (p : Possibilities) (n : Nat) : Prop :=
  p.isCapped cap = true ∨ n ≤ p.value

variable {cap : Nat} {p q : Possibilities} {n m : Nat}

theorem isCapped_iff : p.isCapped cap = true ↔ p.approximate = true ∧ cap ≤ p.value := by
  simp [isCapped]

namespace Bounds

theorem mono (h : p.Bounds cap n) (hm : m ≤ n) : p.Bounds cap m := by
  rcases h with h | h
  · exact Or.inl h
  · exact Or.inr (by omega)

theorem exact (n : Nat) : (exact n).Bounds cap n := Or.inr (Nat.le_refl n)

/-- A value that stops at the largest word and then at the cap is a bound, if the value was,
or if it was about something approximate and reached the cap. -/
theorem capped {v : Nat} {approximate : Bool} (hcap : cap < largest)
    (h : n ≤ v ∨ approximate = true ∧ cap ≤ v) :
    (Possibilities.capped cap ⟨min v largest, approximate⟩).Bounds cap n := by
  unfold Possibilities.capped
  split
  · exact Or.inl (isCapped_iff.mpr ⟨rfl, Nat.le_refl cap⟩)
  · rename_i hle
    simp only at hle
    rcases h with h | ⟨happrox, hv⟩
    · exact Or.inr (by simp only; omega)
    · exact Or.inl (isCapped_iff.mpr ⟨happrox, by simp only; omega⟩)

theorem add (hcap : cap < largest) (hp : p.Bounds cap n) (hq : q.Bounds cap m) :
    (p.add cap q).Bounds cap (n + m) := by
  refine capped hcap ?_
  rcases hp with hp | hp
  · obtain ⟨happrox, hv⟩ := isCapped_iff.mp hp
    exact Or.inr ⟨by simp [happrox], by omega⟩
  · rcases hq with hq | hq
    · obtain ⟨happrox, hv⟩ := isCapped_iff.mp hq
      exact Or.inr ⟨by simp [happrox], by omega⟩
    · exact Or.inl (by omega)

theorem mul (hcap : cap < largest) (hp : p.Bounds cap n) (hq : q.Bounds cap m) :
    (p.mul cap q).Bounds cap (n * m) := by
  refine capped hcap ?_
  rcases hp with hp | hp
  · obtain ⟨happrox, hv⟩ := isCapped_iff.mp hp
    by_cases hqz : q.value = 0
    · rcases hq with hq | hq
      · -- Both hit the cap, which is therefore zero.
        obtain ⟨-, hv'⟩ := isCapped_iff.mp hq
        exact Or.inr ⟨by simp [happrox], by omega⟩
      · obtain rfl : m = 0 := by omega
        exact Or.inl (by simp)
    · have hle : p.value ≤ p.value * q.value := Nat.le_mul_of_pos_right _ (by omega)
      exact Or.inr ⟨by simp [happrox], by omega⟩
  · rcases hq with hq | hq
    · obtain ⟨happrox, hv⟩ := isCapped_iff.mp hq
      by_cases hpz : p.value = 0
      · obtain rfl : n = 0 := by omega
        exact Or.inl (by simp)
      · have hle : q.value ≤ p.value * q.value := Nat.le_mul_of_pos_left _ (by omega)
        exact Or.inr ⟨by simp [happrox], by omega⟩
    · exact Or.inl (Nat.mul_le_mul hp hq)

end Bounds

/-! ### Without a cap -/

/-- The sum of two counts, as it is without a cap. -/
def plus (p q : Possibilities) : Possibilities :=
  ⟨p.value + q.value, p.approximate || q.approximate⟩

/-- The product of two counts, as it is without a cap. -/
def times (p q : Possibilities) : Possibilities :=
  ⟨p.value * q.value, p.approximate || q.approximate⟩

@[simp] theorem plus_value (p q : Possibilities) : (p.plus q).value = p.value + q.value := rfl

@[simp] theorem times_value (p q : Possibilities) : (p.times q).value = p.value * q.value := rfl

@[simp] theorem exact_value (n : Nat) : (exact n).value = n := rfl

@[simp] theorem mark_value (p : Possibilities) : p.mark.value = p.value := rfl

@[simp] theorem plus_approximate (p q : Possibilities) :
    (p.plus q).approximate = (p.approximate || q.approximate) := rfl

@[simp] theorem times_approximate (p q : Possibilities) :
    (p.times q).approximate = (p.approximate || q.approximate) := rfl

@[simp] theorem exact_approximate (n : Nat) : (exact n).approximate = false := rfl

@[simp] theorem mark_approximate (p : Possibilities) : p.mark.approximate = true := rfl

theorem zero_plus (p : Possibilities) : (exact 0).plus p = p := by
  simp [plus]

theorem plus_zero (p : Possibilities) : p.plus (exact 0) = p := by
  simp [plus]

theorem one_times (p : Possibilities) : (exact 1).times p = p := by
  simp [times]

theorem times_one (p : Possibilities) : p.times (exact 1) = p := by
  simp [times]

theorem plus_assoc (p q r : Possibilities) : (p.plus q).plus r = p.plus (q.plus r) := by
  simp [plus, Nat.add_assoc, Bool.or_assoc]

theorem times_assoc (p q r : Possibilities) : (p.times q).times r = p.times (q.times r) := by
  simp [times, Nat.mul_assoc, Bool.or_assoc]

theorem plus_left_comm (p q r : Possibilities) : p.plus (q.plus r) = q.plus (p.plus r) := by
  simp [plus, Nat.add_left_comm, Bool.or_left_comm]

theorem times_left_comm (p q r : Possibilities) : p.times (q.times r) = q.times (p.times r) := by
  simp [times, Nat.mul_left_comm, Bool.or_left_comm]

/-! ### Capping once -/

/-- What a count is capped to: the smaller of value and cap, marked where the value is larger
than the cap. -/
theorem capped_eq (cap : Nat) (p : Possibilities) :
    p.capped cap = ⟨min p.value cap, decide (cap < p.value) || p.approximate⟩ := by
  unfold Possibilities.capped
  by_cases h : cap < p.value
  · rw [if_pos h]
    simp [upperBound, h, Nat.min_eq_right (Nat.le_of_lt h)]
  · rw [if_neg h]
    simp [h, Nat.min_eq_left (Nat.le_of_not_lt h)]

theorem capped_of_lt (h : cap < p.value) : p.capped cap = upperBound cap := by
  rw [Possibilities.capped, if_pos h]

theorem capped_of_le (h : p.value ≤ cap) : p.capped cap = p := by
  rw [Possibilities.capped, if_neg (by omega)]

/-- Stopping at the largest word first makes no difference. -/
theorem capped_min (hcap : cap < largest) (v : Nat) (approximate : Bool) :
    Possibilities.capped cap ⟨min v largest, approximate⟩ =
      Possibilities.capped cap ⟨v, approximate⟩ := by
  by_cases h : cap < v
  · rw [capped_of_lt (p := ⟨v, approximate⟩) h]
    exact capped_of_lt (Nat.lt_min.mpr ⟨h, hcap⟩)
  · rw [Nat.min_eq_left (by omega)]

/-- A value that is marked and has reached the cap is as good as any above the cap. -/
theorem capped_cut (hcap : cap < largest) {v : Nat} {approximate : Bool}
    (happrox : approximate = true) (hv : cap ≤ v) (hlt : cap < p.value) :
    Possibilities.capped cap ⟨min v largest, approximate⟩ = p.capped cap := by
  rw [capped_min hcap, capped_of_lt hlt, happrox]
  rcases Nat.lt_or_eq_of_le hv with h | rfl
  · exact capped_of_lt h
  · exact capped_of_le (Nat.le_refl cap)

/-- What stands for a count below a cap: the count itself, or the cap if the count is larger.
The count need not be capped, since what is counted without looking at the cap is not. -/
def StandsFor (cap : Nat) (p q : Possibilities) : Prop :=
  p = q ∨ cap < q.value ∧ p = upperBound cap

namespace StandsFor

variable {p' q' : Possibilities}

theorem refl (cap : Nat) (p : Possibilities) : StandsFor cap p p := Or.inl rfl

theorem of_capped (h : p = p'.capped cap) : StandsFor cap p p' := by
  subst h
  by_cases hlt : cap < p'.value
  · exact Or.inr ⟨hlt, capped_of_lt hlt⟩
  · exact Or.inl (capped_of_le (by omega))

theorem mark (h : StandsFor cap p p') : StandsFor cap p.mark p'.mark := by
  rcases h with rfl | ⟨hlt, rfl⟩
  · exact refl cap p.mark
  · exact Or.inr ⟨hlt, rfl⟩

/-- A sum that is capped at once is the true sum, capped. -/
theorem add (hcap : cap < largest) (hp : StandsFor cap p p') (hq : StandsFor cap q q') :
    p.add cap q = (p'.plus q').capped cap := by
  rcases hp with rfl | ⟨hlt, rfl⟩
  · rcases hq with rfl | ⟨hlt, rfl⟩
    · exact capped_min hcap _ _
    · exact capped_cut hcap (Bool.or_true _) (Nat.le_add_left _ _)
        (Nat.lt_add_left p.value hlt)
  · exact capped_cut hcap (Bool.true_or _) (Nat.le_add_right _ _)
      (Nat.lt_add_right q'.value hlt)

/-- A product that is capped at once is the true product, capped, if no factor is zero. -/
theorem mul (hcap : cap < largest) (hp : StandsFor cap p p') (hq : StandsFor cap q q')
    (hppos : 0 < p'.value) (hqpos : 0 < q'.value) :
    p.mul cap q = (p'.times q').capped cap := by
  rcases hp with rfl | ⟨hlt, rfl⟩
  · rcases hq with rfl | ⟨hlt, rfl⟩
    · exact capped_min hcap _ _
    · exact capped_cut hcap (Bool.or_true _) (Nat.le_mul_of_pos_left cap hppos)
        (Nat.lt_of_lt_of_le hlt (Nat.le_mul_of_pos_left _ hppos))
  · have hcut : cap ≤ cap * q.value := by
      rcases hq with rfl | ⟨-, rfl⟩
      · exact Nat.le_mul_of_pos_right cap hqpos
      · exact Nat.le_mul_self cap
    exact capped_cut hcap (Bool.true_or _) hcut
      (Nat.lt_of_lt_of_le hlt (Nat.le_mul_of_pos_right _ hqpos))

end StandsFor

end Possibilities

end Phrasebook
