import Phrasebook.Proofs.Ensures
import Phrasebook.Proofs.Rounding
import Phrasebook.Random.Dice

/-!
What random decisions can come to, whatever the stream.

A chance of zero never comes true and a chance of one always does.  A shuffle changes the
order and nothing else.  A choice among weights falls on a weight above zero: the partial
sums grow exactly where a weight is above zero, and the place drawn lies below the total.

The last step needs care.  The place is rounded, and on a scale of so few units that the
steps of binary64 no longer get finer with it, it may round up to the total itself and pick
the last weight, be it zero.  So a choice is `IsFair` by what it does, and it is so for
every total from the smallest normal number on.
-/

namespace Phrasebook

namespace Binary64

theorem unitsOfOne_pos : 0 < unitsOfOne := by decide +kernel

theorem units_zero : zero.units? = some 0 := by decide +kernel

theorem units_one : one.units? = some (unitsOfOne : Int) := by decide +kernel

@[simp] theorem zero_lt_one : zero.lt one = true := by decide +kernel

@[simp] theorem one_lt_zero : one.lt zero = false := by decide +kernel

@[simp] theorem isFinite_one : one.isFinite = true := by decide +kernel

theorem le_zero_iff {p : Binary64} : p.le zero = true ↔ ∃ u, p.units? = some u ∧ u ≤ 0 := by
  rw [le, units_zero]
  cases p.units? <;> simp

theorem zero_lt_iff {p : Binary64} : zero.lt p = true ↔ ∃ u, p.units? = some u ∧ 0 < u := by
  rw [lt, units_zero]
  cases p.units? <;> simp

theorem lt_one_iff {p : Binary64} :
    p.lt one = true ↔ ∃ u, p.units? = some u ∧ u < (unitsOfOne : Int) := by
  rw [lt, units_one]
  generalize (unitsOfOne : Int) = n
  cases p.units? <;> simp

/-- A number with a magnitude above zero is above zero itself. -/
theorem zero_lt_of_magnitude {p : Binary64} {m : Magnitude} (h : p.magnitude? = some m)
    (hm : 0 < m.units) : zero.lt p = true := by
  cases p with
  | infinite negative => simp [magnitude?] at h
  | nan => simp [magnitude?] at h
  | finite negative a =>
      cases negative with
      | false =>
          obtain rfl : a = m := by simpa [magnitude?] using h
          exact zero_lt_iff.mpr ⟨_, rfl, by omega⟩
      | true =>
          simp only [magnitude?, Bool.true_and] at h
          split at h
          · simp at h
          · obtain rfl : a = m := by simpa using h
            simp at *
            omega

end Binary64

namespace Dice

/-! ### Chances -/

/-- What is taken to be zero or less never comes true. -/
theorem le_zero_of_chance {p : Binary64} {s : Stream} (h : (chance p s).1 = true) :
    p.le .zero = false := by
  rw [Bool.eq_false_iff]
  intro hle
  obtain ⟨u, hu, hneg⟩ := Binary64.le_zero_iff.mp hle
  have hpos : ¬(unitsOfOne : Int) ≤ u := by
    have := Binary64.unitsOfOne_pos
    omega
  have hzero : u.toNat = 0 := by omega
  rw [chance, hu] at h
  simp only [Option.getD_some, if_neg hpos] at h
  change decide (_ < u.toNat * 2 ^ 64 / unitsOfOne) = true at h
  simp [hzero] at h

/-- What fails to come true is below one. -/
theorem lt_one_of_not_chance {p : Binary64} {s : Stream} (hp : p ≠ .nan)
    (h : (chance p s).1 = false) : p.lt .one = true := by
  obtain ⟨u, hu⟩ : ∃ u, p.units? = some u := by
    cases p with
    | nan => exact absurd rfl hp
    | finite negative m => cases negative <;> exact ⟨_, rfl⟩
    | infinite negative => cases negative <;> exact ⟨_, rfl⟩
  refine Binary64.lt_one_iff.mpr ⟨u, hu, ?_⟩
  by_contra hone
  rw [chance, hu] at h
  simp only [Option.getD_some, if_pos (Int.not_lt.mp hone)] at h
  change true = false at h
  simp at h

/-! ### Orders -/

theorem perm_swapIfInBounds {α : Type} (xs : Array α) (i j : Nat) :
    (xs.swapIfInBounds i j).toList.Perm xs.toList := by
  rw [Array.swapIfInBounds_def]
  split
  · split
    · exact (Array.swap_perm _ _).toList
    · exact List.Perm.refl _
  · exact List.Perm.refl _

theorem perm_shuffleFrom {α : Type} (left : Nat) :
    ∀ (chunk : Chunk) (xs : Array α) (s : Stream),
      ((shuffleFrom chunk xs left s).1).toList.Perm xs.toList := by
  induction left with
  | zero => intro chunk xs s; exact List.Perm.refl _
  | succ left ih =>
      intro chunk xs s
      exact (ih _ _ _).trans (perm_swapIfInBounds xs _ _)

/-- **A shuffle changes the order and nothing else.** -/
theorem perm_shuffle {α : Type} (xs : List α) (s : Stream) : ((shuffle xs s).1).Perm xs := by
  unfold shuffle
  split
  · exact List.Perm.refl _
  · exact perm_shuffleFrom xs.length _ xs.toArray s

/-! ### Choices by weight -/

/-- Whatever the stream, the choice falls on a weight above zero. -/
def IsFair (weights : List Binary64) : Prop :=
  ∀ (s : Stream) (i : Nat), (weighted weights s).1 = .ok i →
    ∃ w, weights[i]? = some w ∧ Binary64.zero.lt w = true

/-- A sum that grew was added something above zero. -/
theorem pos_of_add? {a w b : Magnitude} (h : a.add? w = some b) (hlt : a.units < b.units) :
    0 < w.units := by
  rcases Nat.eq_zero_or_pos w.units with hw | hw
  · exfalso
    have hb : b.units = roundShort (a.units + w.units) 1 := by
      unfold Magnitude.add? Magnitude.nearest? at h
      split at h
      · simp only [Option.some.injEq] at h
        rw [← h]
      · simp at h
    rw [hb, hw, Nat.add_zero, roundShort_of_isShort a.isShort] at hlt
    exact Nat.lt_irrefl _ hlt
  · exact hw

/-- Behind the partial sums that do not exceed `chosen` comes a weight above zero. -/
theorem pos_of_sums? {chosen : Nat} {rest : List Magnitude} :
    ∀ {sum total : Magnitude} {partialSums : List Magnitude},
      sums? sum rest = some (partialSums, total) → chosen < total.units →
      ∀ i, (partialSums.takeWhile fun s => s.units ≤ chosen).length = i →
        ∃ w, (sum :: rest)[i]? = some w ∧ 0 < w.units ∧ (i = 0 → chosen < sum.units) := by
  induction rest with
  | nil =>
      intro sum total partialSums h hlt i hi
      obtain ⟨rfl, rfl⟩ : [] = partialSums ∧ sum = total := by simpa [sums?] using h
      obtain rfl : 0 = i := hi
      exact ⟨sum, rfl, by omega, fun _ => hlt⟩
  | cons w rest ih =>
      intro sum total partialSums h hlt i hi
      simp only [sums?, Option.bind_eq_bind, Option.bind_eq_some_iff] at h
      obtain ⟨next, hnext, ⟨later, total'⟩, hlater, hpair⟩ := h
      obtain ⟨rfl, rfl⟩ : sum :: later = partialSums ∧ total' = total := by simpa using hpair
      by_cases hsum : sum.units ≤ chosen
      · rw [List.takeWhile_cons, if_pos (by simpa using hsum), List.length_cons] at hi
        obtain ⟨v, hv, hpos, hfirst⟩ := ih hlater hlt _ rfl
        cases i with
        | zero => omega
        | succ i =>
            obtain rfl : _ = i := Nat.succ.inj hi
            cases hcount : (later.takeWhile fun s => s.units ≤ chosen).length with
            | zero =>
                -- The first sum beyond `chosen` is the one that `w` was just added to.
                have hgrown := hfirst hcount
                exact ⟨w, rfl, pos_of_add? hnext (by omega), by omega⟩
            | succ j =>
                rw [hcount] at hv
                exact ⟨v, by simpa using hv, hpos, by omega⟩
      · rw [List.takeWhile_cons, if_neg (by simpa using hsum)] at hi
        obtain rfl : 0 = i := hi
        exact ⟨sum, rfl, by omega, fun _ => by omega⟩

/-- A short number from the smallest normal one on has a leading digit to give away. -/
theorem exists_normal {n : Nat} (h : IsShort n) (hn : 2 ^ 52 ≤ n) :
    ∃ k e, 2 ^ 52 ≤ k ∧ k < 2 ^ 53 ∧ n = k * 2 ^ e := by
  obtain ⟨k, e, hk, rfl⟩ := h
  induction e generalizing k with
  | zero => exact ⟨k, 0, by simpa using hn, hk, rfl⟩
  | succ e ih =>
      by_cases hk' : 2 ^ 52 ≤ k
      · exact ⟨k, e + 1, hk', hk, rfl⟩
      · have hdouble : k * 2 ^ (e + 1) = k * 2 * 2 ^ e := by rw [Nat.pow_succ]; ring
        rw [hdouble] at hn ⊢
        exact ih (k * 2) (by omega) hn

/-- On a scale of normal size every place lies below the end. -/
theorem place_lt {scale step : Nat} (hscale : IsShort scale) (hnormal : 2 ^ 52 ≤ scale)
    (hstep : step < steps) : place scale step < scale := by
  obtain ⟨k, e, hlow, hhigh, rfl⟩ := exists_normal hscale hnormal
  have hle : step * (k * 2 ^ e) ≤ (k - 1) * 2 ^ e * steps := by
    have hfactor : step * k ≤ (k - 1) * 2 ^ 52 := by
      have : step * k ≤ (2 ^ 52 - 1) * k := Nat.mul_le_mul_right k (by unfold steps at hstep; omega)
      omega
    calc step * (k * 2 ^ e) = step * k * 2 ^ e := by ring
      _ ≤ (k - 1) * 2 ^ 52 * 2 ^ e := Nat.mul_le_mul_right _ hfactor
      _ = (k - 1) * 2 ^ e * steps := by unfold steps; ring
  have hplace := roundShort_le (by unfold steps; omega) (by omega) (by omega) hle
  have hdrop : (k - 1) * 2 ^ e < k * 2 ^ e :=
    Nat.mul_lt_mul_of_pos_right (by omega) (Nat.two_pow_pos e)
  exact Nat.lt_of_le_of_lt hplace hdrop

theorem getElem?_of_mapM {α β : Type} {f : α → Option β} {xs : List α} :
    ∀ {ys : List β}, xs.mapM f = some ys → ∀ {i : Nat} {y : β}, ys[i]? = some y →
      ∃ x, xs[i]? = some x ∧ f x = some y := by
  induction xs with
  | nil =>
      intro ys h i y hy
      obtain rfl : ys = [] := by simpa [eq_comm] using h
      simp at hy
  | cons x xs ih =>
      intro ys h i y hy
      simp only [List.mapM_cons, Option.bind_eq_bind, Option.bind_eq_some_iff] at h
      obtain ⟨y', hy', ys', hys', hcons⟩ := h
      obtain rfl : y' :: ys' = ys := by simpa using hcons
      cases i with
      | zero =>
          obtain rfl : y' = y := by simpa using hy
          exact ⟨x, rfl, hy'⟩
      | succ i => exact ih hys' (by simpa using hy)

/-- The sums of a choice are those of the magnitudes of its weights. -/
theorem exists_of_sumsOf {weights : List Binary64} {partialSums : List Magnitude}
    {total : Magnitude} (h : sumsOf weights = .ok (partialSums, total)) :
    ∃ w rest, weights.mapM Binary64.magnitude? = some (w :: rest) ∧
      sums? w rest = some (partialSums, total) := by
  unfold sumsOf at h
  split at h
  · injection h
  · split at h
    · injection h
    · split at h
      · rename_i w rest hmap
        split at h
        · rename_i ps t hsums
          split at h
          · injection h
          · obtain ⟨rfl, rfl⟩ : ps = partialSums ∧ t = total := by simpa using h
            exact ⟨w, rest, hmap, hsums⟩
        · injection h
      · injection h

/-- A choice counts the sums that do not lie beyond a place on the scale. -/
theorem exists_of_weighted {weights : List Binary64} {s : Stream} {i : Nat}
    (h : (weighted weights s).1 = .ok i) :
    ∃ partialSums total step, sumsOf weights = .ok (partialSums, total) ∧ step < steps ∧
      (partialSums.takeWhile fun m => m.units ≤ place total.units step).length = i := by
  unfold weighted at h
  cases hsums : sumsOf weights with
  | error e => rw [hsums] at h; injection h
  | ok pair =>
      obtain ⟨partialSums, total⟩ := pair
      rw [hsums] at h
      refine ⟨partialSums, total, (drawLongWord s).1.toNat / 2 ^ 12, rfl, ?_, by injection h⟩
      have := (drawLongWord s).1.toNat_lt
      unfold steps
      omega

theorem length_of_sums? {rest : List Magnitude} :
    ∀ {sum total : Magnitude} {partialSums : List Magnitude},
      sums? sum rest = some (partialSums, total) → partialSums.length = rest.length := by
  induction rest with
  | nil =>
      intro sum total partialSums h
      obtain ⟨rfl, -⟩ : [] = partialSums ∧ sum = total := by simpa [sums?] using h
      rfl
  | cons w rest ih =>
      intro sum total partialSums h
      simp only [sums?, Option.bind_eq_bind, Option.bind_eq_some_iff] at h
      obtain ⟨next, -, ⟨later, total'⟩, hlater, hpair⟩ := h
      obtain ⟨rfl, -⟩ : sum :: later = partialSums ∧ total' = total := by simpa using hpair
      simp [ih hlater]

/-- Whatever the stream, the choice falls on one of the weights. -/
theorem lt_length_of_weighted {weights : List Binary64} {s : Stream} {i : Nat}
    (h : (weighted weights s).1 = .ok i) : i < weights.length := by
  obtain ⟨partialSums, total, step, hsums, -, hi⟩ := exists_of_weighted h
  obtain ⟨w, rest, hmap, hrest⟩ := exists_of_sumsOf hsums
  have hle : i ≤ rest.length := by
    rw [← hi, ← length_of_sums? hrest]
    exact (List.takeWhile_sublist _).length_le
  have hlt : i < (w :: rest).length := Nat.lt_succ_of_le hle
  obtain ⟨x, hx, -⟩ := getElem?_of_mapM hmap (List.getElem?_eq_getElem hlt)
  exact (List.getElem?_eq_some_iff.mp hx).choose

/--
**A choice whose weights add up to a normal number is fair.**  The smallest normal number,
2^-1022, is 2^52 units.
-/
theorem isFair_of_normal {weights : List Binary64}
    (h : ∀ partialSums total, sumsOf weights = .ok (partialSums, total) → 2 ^ 52 ≤ total.units) :
    IsFair weights := by
  intro s i hi
  obtain ⟨partialSums, total, step, hsums, hstep, hcount⟩ := exists_of_weighted hi
  have hplace := place_lt total.isShort (h partialSums total hsums) hstep
  obtain ⟨w, rest, hmap, hrest⟩ := exists_of_sumsOf hsums
  obtain ⟨m, hm, hpos, -⟩ := pos_of_sums? hrest hplace i hcount
  obtain ⟨v, hv, hmag⟩ := getElem?_of_mapM hmap hm
  exact ⟨v, hv, Binary64.zero_lt_of_magnitude hmag hpos⟩

/-- The same, for weights that are known. -/
theorem isFair_of_total {weights : List Binary64}
    (h : ((sumsOf weights).toOption.all fun sums => 2 ^ 52 ≤ sums.2.units) = true) :
    IsFair weights := by
  refine isFair_of_normal fun partialSums total hsums => ?_
  rw [hsums] at h
  simpa [Except.toOption] using h

end Dice

end Phrasebook
