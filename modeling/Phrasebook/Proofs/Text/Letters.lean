import Phrasebook.Casing
import Phrasebook.Proofs.Text.Words

/-!
Casings and words.

No case mapping makes a blank out of a letter, and none makes nothing of it.  So a casing
leaves a firm text firm, and firm texts with the same words keep having the same words.
Of a text that begins with a blank this is not true: a casing does nothing to it, although
it changes the firm text with the same words.
-/

namespace Phrasebook

namespace Text

/-! ### Images of letters -/

/-- The code points of the blank characters. -/
def blankCodes : List Nat :=
  [9, 10, 11, 12, 13, 0x20, 0x85, 0xA0, 0x1680, 0x2000, 0x2001, 0x2002, 0x2003, 0x2004, 0x2005,
   0x2006, 0x2007, 0x2008, 0x2009, 0x200A, 0x2028, 0x2029, 0x202F, 0x205F, 0x3000]

theorem toNat_mem_blankCodes {c : Char} (h : isBlank c = true) : c.toNat ∈ blankCodes := by
  simp only [isBlank, Bool.or_eq_true, Bool.and_eq_true, decide_eq_true_eq, beq_iff_eq] at h
  simp only [blankCodes, List.mem_cons, List.not_mem_nil, or_false]
  omega

theorem isBlank_ofNat_eq_false {n : Nat} (h : n ∉ blankCodes) : isBlank (Char.ofNat n) = false := by
  rw [Bool.eq_false_iff]
  intro hb
  have hmem := toNat_mem_blankCodes hb
  by_cases hn : n.isValidChar
  · have hval : (Char.ofNat n).toNat = n := by
      rw [Char.ofNat, dif_pos hn]
      rfl
    exact h (hval ▸ hmem)
  · rw [Char.ofNat, dif_neg hn] at hmem
    exact absurd hmem (by decide)

/-- None of the images on a run is blank. -/
def CaseRun.AvoidsBlanks (r : CaseRun) : Prop :=
  ∀ b ∈ blankCodes, ¬(r.image ≤ b ∧ b ≤ r.image + (r.last - r.first))

instance (r : CaseRun) : Decidable r.AvoidsBlanks :=
  inferInstanceAs (Decidable (∀ b ∈ blankCodes, ¬(r.image ≤ b ∧ b ≤ r.image + (r.last - r.first))))

theorem CaseRun.AvoidsBlanks.not_mem {r : CaseRun} (hr : r.AvoidsBlanks) {n image : Nat}
    (h : r.map? n = some image) : image ∉ blankCodes := by
  intro hmem
  unfold CaseRun.map? at h
  split at h
  · rename_i hn
    simp only [Option.some.injEq] at h
    exact hr image hmem ⟨by omega, by omega⟩
  · simp at h

/-- A mapping whose tables avoid blanks maps a character that is not blank to characters that
are not blank, and to at least one. -/
theorem mapCase_spec {runs : List CaseRun} {sequences : List (Nat × List Nat)}
    (hruns : ∀ r ∈ runs, r.AvoidsBlanks)
    (hseq : ∀ entry ∈ sequences, entry.2 ≠ [] ∧ ∀ n ∈ entry.2, n ∉ blankCodes) {c : Char}
    (hc : isBlank c = false) :
    mapCase runs sequences c ≠ [] ∧ ∀ d ∈ mapCase runs sequences c, isBlank d = false := by
  unfold mapCase
  split
  · rename_i image h
    obtain ⟨r, hr, hmap⟩ := List.exists_of_findSome?_eq_some h
    simpa using isBlank_ofNat_eq_false ((hruns r hr).not_mem hmap)
  · split
    · rename_i entry h
      obtain ⟨hne, hblank⟩ := hseq entry (List.mem_of_find?_eq_some h)
      refine ⟨by simpa using hne, fun d hd => ?_⟩
      obtain ⟨n, hn, rfl⟩ := List.mem_map.mp hd
      exact isBlank_ofNat_eq_false (hblank n hn)
    · simpa using hc

theorem capital_spec {c : Char} (hc : isBlank c = false) :
    capital c ≠ [] ∧ ∀ d ∈ capital c, isBlank d = false :=
  mapCase_spec (by decide +kernel) (by decide +kernel) hc

theorem small_spec {c : Char} (hc : isBlank c = false) :
    small c ≠ [] ∧ ∀ d ∈ small c, isBlank d = false :=
  mapCase_spec (by decide +kernel) (by decide +kernel) hc

/-- A mapping whose tables list no empty image maps no character to nothing. -/
theorem mapCase_ne_nil {runs : List CaseRun} {sequences : List (Nat × List Nat)}
    (hseq : ∀ entry ∈ sequences, entry.2 ≠ []) (c : Char) : mapCase runs sequences c ≠ [] := by
  unfold mapCase
  split
  · simp
  · split
    · rename_i entry h
      simpa using hseq entry (List.mem_of_find?_eq_some h)
    · simp

theorem capital_ne_nil (c : Char) : capital c ≠ [] := mapCase_ne_nil (by decide +kernel) c

theorem small_ne_nil (c : Char) : small c ≠ [] := mapCase_ne_nil (by decide +kernel) c

end Text

/-! ### Casings -/

namespace Casing

open Text

/-- A casing does nothing, or it puts an image in the place of the first letter. -/
theorem apply_cases (c : Casing) :
    (∀ t, c.apply t = t) ∨
      ∃ f : Char → Text, (∀ t, c.apply t = mapFirst f t) ∧
        ∀ a, isBlank a = false → f a ≠ [] ∧ ∀ d ∈ f a, isBlank d = false := by
  cases c with
  | unchanged => exact Or.inl fun _ => rfl
  | either => exact Or.inl fun _ => rfl
  | capitalize => exact Or.inr ⟨capital, fun _ => rfl, fun _ => capital_spec⟩
  | lowercase => exact Or.inr ⟨small, fun _ => rfl, fun _ => small_spec⟩

/-- A casing puts an image in the place of the first letter, be it the letter itself. -/
theorem exists_mapFirst (c : Casing) :
    ∃ f : Char → Text, (∀ a, f a ≠ []) ∧ ∀ t, c.apply t = mapFirst f t := by
  have hself : ∀ t : Text, t = mapFirst (fun a => [a]) t := by
    intro t
    cases t <;> rfl
  cases c with
  | unchanged => exact ⟨_, fun _ => by simp, hself⟩
  | either => exact ⟨_, fun _ => by simp, hself⟩
  | capitalize => exact ⟨capital, capital_ne_nil, fun _ => rfl⟩
  | lowercase => exact ⟨small, small_ne_nil, fun _ => rfl⟩

theorem isFirm_apply (c : Casing) {t : Text} (ht : t.IsFirm) : (c.apply t).IsFirm := by
  rcases c.apply_cases with h | ⟨f, h, hf⟩
  · rw [h]
    exact ht
  · rw [h]
    cases t with
    | nil => exact isFirm_nil
    | cons a t =>
        obtain ⟨hne, hblank⟩ := hf a (by simpa using ht)
        refine IsFirm.append ?_ hne t
        intro d hd
        exact hblank d (List.mem_of_mem_head? hd)

/-- **A casing keeps the words of firm texts the same.** -/
theorem words_apply_congr (c : Casing) {s t : Text} (hs : s.IsFirm) (ht : t.IsFirm)
    (h : s.words = t.words) : (c.apply s).words = (c.apply t).words := by
  rcases c.apply_cases with hc | ⟨f, hc, hf⟩
  · rw [hc, hc, h]
  · rw [hc, hc]
    cases s with
    | nil =>
        cases t with
        | nil => rfl
        | cons b t => exact absurd h.symm (words_ne_nil_of_cons (by simpa using ht))
    | cons a s =>
        cases t with
        | nil => exact absurd h (words_ne_nil_of_cons (by simpa using hs))
        | cons b t =>
            have ha : isBlank a = false := by simpa using hs
            obtain ⟨rfl, hfront⟩ := words_congr_head ha (by simpa using ht) h
            exact hfront (f a) (hf a ha).1 (hf a ha).2

/-- The words of a text that begins with a blank may be told apart from those of a firm one. -/
example : words " a".toList = words "a".toList ∧
    words (capitalize.apply " a".toList) ≠ words (capitalize.apply "a".toList) := by decide

end Casing

end Phrasebook
