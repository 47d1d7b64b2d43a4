import Phrasebook.Proofs.Checks

/-!
Which weights a choice can be made among.

A choice needs the sum of the weights, which is rounded at each step and must not leave the
range of finite numbers on the way.  That each weight is finite, not below zero and one of
them above it is checked of every rule set of a definition; that they have a finite sum is
not.  So of what can keep a choice from being made this alone is left, and whether it does is
a question about the weights only, not about the stream.

Few weights get so far.  Below 2^53 weights of at most 2^970 each have a finite sum, because
rounding does not pass the multiples of 2^970 that bound their partial sums.
-/

namespace Phrasebook

/-! ### Sums -/

/-- Only nothing is rounded to nothing. -/
theorem eq_zero_of_roundShort {n : Nat} (h : roundShort n 1 = 0) : n = 0 := by
  by_contra hn
  have hstep : 2 ^ (n.log2 - 52) ≤ n :=
    (Nat.pow_le_pow_right (by decide) (Nat.sub_le _ _)).trans (Nat.log2_self_le hn)
  have hquotient : 1 ≤ n / 2 ^ (n.log2 - 52) := Nat.div_pos hstep (Nat.two_pow_pos _)
  have hround : n / 2 ^ (n.log2 - 52) ≤ roundDiv n (2 ^ (n.log2 - 52)) := by
    unfold roundDiv
    dsimp only
    repeat' split
    all_goals omega
  have hpos : 0 < roundDiv n (2 ^ (n.log2 - 52)) * 2 ^ (n.log2 - 52) :=
    Nat.mul_pos (by omega) (Nat.two_pow_pos _)
  simp only [roundShort, Nat.div_one, Nat.one_mul] at h
  omega

namespace Magnitude

/-- The magnitude of zero. -/
def zero : Magnitude := ⟨0, ⟨0, 0, by decide, rfl⟩, by decide +kernel⟩

/-- The sum of magnitudes, rounded at each step, unless a step leaves the range. -/
def sum? (ms : List Magnitude) : Option Magnitude := ms.foldlM add? zero

theorem units_of_add? {a b c : Magnitude} (h : a.add? b = some c) :
    c.units = roundShort (a.units + b.units) 1 := by
  unfold add? nearest? at h
  split at h
  · rw [← Option.some.inj h]
  · injection h

/-- A sum that rounds to less than infinity is there. -/
theorem exists_add? {a b : Magnitude} (h : roundShort (a.units + b.units) 1 < unitsOfInfinity) :
    ∃ c, a.add? b = some c := by
  unfold add? nearest?
  rw [dif_pos h]
  exact ⟨_, rfl⟩

theorem zero_add? (m : Magnitude) : zero.add? m = some m := by
  have hunits : roundShort (zero.units + m.units) 1 = m.units := by
    rw [show zero.units = 0 from rfl, Nat.zero_add, roundShort_of_isShort m.isShort]
  obtain ⟨c, hc⟩ := exists_add? (hunits.trans_lt m.bounded)
  have hcm : c.units = m.units := (units_of_add? hc).trans hunits
  rw [hc]
  cases c
  cases m
  simp_all

/-- A sum of zero has nothing but zeros in it. -/
theorem eq_zero_of_foldlM_add? {ms : List Magnitude} {sum total : Magnitude}
    (h : ms.foldlM add? sum = some total) (htotal : total.units = 0) :
    sum.units = 0 ∧ ∀ m ∈ ms, m.units = 0 := by
  induction ms generalizing sum with
  | nil =>
      obtain rfl : sum = total := Option.some.inj h
      exact ⟨htotal, by simp⟩
  | cons m ms ih =>
      rw [List.foldlM_cons] at h
      obtain ⟨next, hnext, hrest⟩ := Option.bind_eq_some_iff.mp h
      obtain ⟨hzero, hall⟩ := ih hrest
      have hboth := eq_zero_of_roundShort ((units_of_add? hnext).symm.trans hzero)
      exact ⟨by omega, List.forall_mem_cons.mpr ⟨by omega, hall⟩⟩

/-- Magnitudes that do not exceed a power of two have a sum, if 2^53 times the power is still
finite and they are fewer. -/
theorem exists_sum?_of_le {ms : List Magnitude} {e : Nat} (hle : ∀ m ∈ ms, m.units ≤ 2 ^ e)
    (hlength : ms.length < 2 ^ 53) (hfinite : 2 ^ 53 * 2 ^ e ≤ unitsOfInfinity) :
    ∃ total, sum? ms = some total := by
  -- A partial sum of `n` of them is at most `n` times the power, which is not rounded.
  have hfold : ∀ (n : Nat) (sum : Magnitude), sum.units ≤ n * 2 ^ e →
      n + ms.length < 2 ^ 53 → ∃ total, ms.foldlM add? sum = some total := by
    clear hlength
    induction ms with
    | nil => exact fun n sum _ _ => ⟨sum, rfl⟩
    | cons m ms ih =>
        intro n sum hsum hn
        rw [List.length_cons] at hn
        obtain ⟨hm, hms⟩ := List.forall_mem_cons.mp hle
        have hexact : sum.units + m.units ≤ (n + 1) * 2 ^ e := by
          rw [Nat.add_mul]
          omega
        have hround : roundShort (sum.units + m.units) 1 ≤ (n + 1) * 2 ^ e :=
          roundShort_le (k := n + 2) (by decide) (by omega) (by omega)
            (hexact.trans_eq (Nat.mul_one _).symm)
        have hbelow : (n + 1) * 2 ^ e < unitsOfInfinity :=
          (Nat.mul_lt_mul_of_pos_right (by omega) (Nat.two_pow_pos e)).trans_le hfinite
        obtain ⟨next, hnext⟩ := exists_add? (hround.trans_lt hbelow)
        obtain ⟨total, htotal⟩ :=
          ih hms (n + 1) next ((units_of_add? hnext).trans_le hround) (by omega)
        rw [List.foldlM_cons, hnext]
        exact ⟨total, htotal⟩
  exact hfold 0 zero (Nat.zero_le _) (by simpa using hlength)

end Magnitude

/-! ### Weights -/

theorem exists_mapM {α β : Type} {f : α → Option β} {xs : List α}
    (h : ∀ x ∈ xs, ∃ y, f x = some y) : ∃ ys, xs.mapM f = some ys := by
  induction xs with
  | nil => exact ⟨[], rfl⟩
  | cons x xs ih =>
      obtain ⟨y, hy⟩ := h x (by simp)
      obtain ⟨ys, hys⟩ := ih fun x' hx' => h x' (List.mem_cons_of_mem x hx')
      exact ⟨y :: ys, by simp [hy, hys]⟩

theorem exists_mem_of_mapM {α β : Type} {f : α → Option β} {xs : List α} :
    ∀ {ys : List β}, xs.mapM f = some ys → ∀ x ∈ xs, ∃ y ∈ ys, f x = some y := by
  induction xs with
  | nil => simp
  | cons x xs ih =>
      intro ys h
      simp only [List.mapM_cons, Option.bind_eq_bind, Option.bind_eq_some_iff] at h
      obtain ⟨y, hy, ys', hys', hcons⟩ := h
      obtain rfl : y :: ys' = ys := Option.some.inj hcons
      refine List.forall_mem_cons.mpr ⟨⟨y, by simp, hy⟩, fun x' hx' => ?_⟩
      obtain ⟨y', hy', hx'⟩ := ih hys' x' hx'
      exact ⟨y', List.mem_cons_of_mem y hy', hx'⟩

theorem exists_magnitude? {w : Binary64} (hfinite : w.isFinite = true)
    (hnonneg : Binary64.zero.le w = true) :
    ∃ m, w.magnitude? = some m ∧ w.units? = some (m.units : Int) := by
  unfold Binary64.le at hnonneg
  rw [Binary64.units_zero] at hnonneg
  cases w with
  | infinite negative => simp [Binary64.isFinite] at hfinite
  | nan => simp [Binary64.isFinite] at hfinite
  | finite negative m =>
      cases negative with
      | false => exact ⟨m, by simp [Binary64.magnitude?], rfl⟩
      | true =>
          have hzero : m.units = 0 := by simpa [Binary64.units?] using hnonneg
          exact ⟨m, by simp [Binary64.magnitude?, hzero], by simp [Binary64.units?, hzero]⟩

/-- A weight above zero has a magnitude above zero. -/
theorem exists_pos_of_mapM {weights : List Binary64} {ms : List Magnitude}
    (hms : weights.mapM Binary64.magnitude? = some ms) {w : Binary64} (hw : w ∈ weights)
    (hfinite : w.isFinite = true) (hpositive : Binary64.zero.lt w = true) :
    ∃ m ∈ ms, 0 < m.units := by
  obtain ⟨m, hm, hmag⟩ := exists_mem_of_mapM hms w hw
  obtain ⟨u, hu, hlt⟩ := Binary64.zero_lt_iff.mp hpositive
  have hnonneg : Binary64.zero.le w = true := by
    rw [Binary64.le, Binary64.units_zero, hu]
    exact decide_eq_true (Int.le_of_lt hlt)
  obtain ⟨m', hm', hunits⟩ := exists_magnitude? hfinite hnonneg
  obtain rfl : m = m' := Option.some.inj (hmag.symm.trans hm')
  obtain rfl : (m.units : Int) = u := Option.some.inj (hunits.symm.trans hu)
  exact ⟨m, hm, Int.natCast_pos.mp hlt⟩

namespace Dice

/-- The weights add up to a finite number. -/
def HasTotal (weights : List Binary64) : Prop :=
  ∃ ms total, weights.mapM Binary64.magnitude? = some ms ∧ Magnitude.sum? ms = some total

/-- The running sums end with the sum. -/
theorem map_snd_sums? (sum : Magnitude) (rest : List Magnitude) :
    (sums? sum rest).map Prod.snd = rest.foldlM Magnitude.add? sum := by
  induction rest generalizing sum with
  | nil => rfl
  | cons m rest ih =>
      rw [List.foldlM_cons, sums?]
      cases hnext : sum.add? m with
      | none => rfl
      | some next =>
          have ih := ih next
          cases hsums : sums? next rest with
          | none =>
              rw [hsums] at ih
              simpa [hsums] using ih
          | some pair =>
              rw [hsums] at ih
              simpa [hsums] using ih

/-- The weight 2^970, of which 2^53 together are still finite. -/
def modest : Binary64 := .ofNat (Nat.pow 2 970)

/-- **Weights from 0 to 2^970, fewer than 2^53 in number, add up to a finite number.** -/
theorem hasTotal_of_le {weights : List Binary64}
    (h : ∀ w ∈ weights, w.isFinite = true ∧ Binary64.zero.le w = true ∧ w.le modest = true)
    (hlength : weights.length < 2 ^ 53) : HasTotal weights := by
  obtain ⟨ms, hms⟩ := exists_mapM (f := Binary64.magnitude?) fun w hw =>
    (exists_magnitude? (h w hw).1 (h w hw).2.1).imp fun _ hm => hm.1
  have hbound : modest.units? = some ((2 ^ 2044 : Nat) : Int) := by decide +kernel
  have hle : ∀ m ∈ ms, m.units ≤ 2 ^ 2044 := by
    intro m hm
    obtain ⟨i, hi, hget⟩ := List.getElem_of_mem hm
    obtain ⟨w, hw, hmag⟩ := getElem?_of_mapM hms (hget ▸ List.getElem?_eq_getElem hi)
    obtain ⟨hfinite, hnonneg, hw'⟩ := h w (List.mem_of_getElem? hw)
    obtain ⟨m', hm', hunits⟩ := exists_magnitude? hfinite hnonneg
    obtain rfl : m = m' := Option.some.inj (hmag.symm.trans hm')
    rw [Binary64.le, hunits, hbound] at hw'
    exact Int.ofNat_le.mp (of_decide_eq_true hw')
  have hfew : ms.length ≤ weights.length := by
    by_contra hmore
    obtain ⟨w, hw, -⟩ := getElem?_of_mapM hms (List.getElem?_eq_getElem (Nat.not_le.mp hmore))
    simp at hw
  obtain ⟨total, htotal⟩ :=
    Magnitude.exists_sum?_of_le hle (hfew.trans_lt hlength) (by decide +kernel)
  exact ⟨ms, total, hms, htotal⟩

/-- The sum of a first magnitude and others begins with the first. -/
theorem sum?_cons (m : Magnitude) (rest : List Magnitude) :
    Magnitude.sum? (m :: rest) = (sums? m rest).map Prod.snd := by
  rw [Magnitude.sum?, List.foldlM_cons, Magnitude.zero_add?, map_snd_sums?]
  rfl

/--
**Among weights that were checked there is a choice exactly if they have a finite sum.**  If
they have none, this is what is wrong.
-/
theorem sumsOf_of_hasWeights {rules : List Rule} (h : HasWeights rules) :
    (HasTotal (rules.map Rule.weight) → ∃ sums, sumsOf (rules.map Rule.weight) = .ok sums) ∧
      (¬ HasTotal (rules.map Rule.weight) → sumsOf (rules.map Rule.weight) = .error .overflow) := by
  obtain ⟨hweighted, rule, hrule, hpositive⟩ := h
  have hweights : ∀ w ∈ rules.map Rule.weight,
      w.isFinite = true ∧ Binary64.zero.le w = true := List.forall_mem_map.mpr hweighted
  have hmem : rule.weight ∈ rules.map Rule.weight := List.mem_map_of_mem hrule
  revert hweights hmem
  generalize rules.map Rule.weight = weights
  intro hweights hmem
  have hnonneg : ¬ (weights.any fun w => !Binary64.zero.le w) = true := by
    simpa using fun w hw => (hweights w hw).2
  have hnonempty : ¬ weights.isEmpty = true := by
    rw [List.isEmpty_iff]
    exact List.ne_nil_of_mem hmem
  obtain ⟨ms, hms⟩ := exists_mapM (f := Binary64.magnitude?) fun w hw =>
    (exists_magnitude? (hweights w hw).1 (hweights w hw).2).imp fun _ hm => hm.1
  obtain ⟨m, hm, hpos⟩ := exists_pos_of_mapM hms hmem (hweights _ hmem).1 hpositive
  cases ms with
  | nil => simp at hm
  | cons first rest =>
      have hsum := sum?_cons first rest
      unfold sumsOf
      rw [if_neg hnonneg, if_neg hnonempty]
      simp only [hms]
      cases hsums : sums? first rest with
      | none =>
          rw [hsums] at hsum
          refine ⟨?_, fun _ => rfl⟩
          rintro ⟨ms', total, hms', htotal⟩
          obtain rfl : first :: rest = ms' := Option.some.inj (hms.symm.trans hms')
          rw [hsum] at htotal
          injection htotal
      | some pair =>
          rw [hsums] at hsum
          have hzero : pair.2.units ≠ 0 := by
            intro hzero
            have hall := (Magnitude.eq_zero_of_foldlM_add? hsum hzero).2 m hm
            omega
          exact ⟨fun _ => ⟨pair, by simp [hzero]⟩, fun h => absurd ⟨_, pair.2, hms, hsum⟩ h⟩

end Dice

end Phrasebook
