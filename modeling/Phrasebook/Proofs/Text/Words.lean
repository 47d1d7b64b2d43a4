import Mathlib.Data.List.Basic
import Mathlib.Tactic.Common
import Phrasebook.Text.Blank

/-!
The words of a text.

`words` takes blanks for nothing but separators: put a blank between two texts, and the
words are those of the one and then those of the other.  A text is normalized by writing
its words with spaces between, so two texts have one normal form exactly when they have the
same words, and all that is said here about normal forms is said about words.

A text is *firm* if it does not begin with a blank.  Then its first character belongs to its
first word, and two firm texts with the same words begin alike.
-/

namespace Phrasebook.Text

/-! ### Pieces -/

theorem pieces_ne_nil (t : Text) : pieces t ≠ [] := by
  cases t with
  | nil => simp [pieces]
  | cons c rest =>
      rw [pieces]
      split
      · simp
      · split <;> simp

theorem exists_pieces_eq (t : Text) : ∃ piece later, pieces t = piece :: later :=
  List.exists_cons_of_ne_nil (pieces_ne_nil t)

theorem pieces_cons_blank {c : Char} (hc : isBlank c = true) (t : Text) :
    pieces (c :: t) = [] :: pieces t := by
  rw [pieces, if_pos hc]

/-- Characters that are not blank join the first piece of what follows. -/
theorem pieces_append {s : Text} (hs : ∀ c ∈ s, isBlank c = false) {t piece : Text}
    {later : List Text} (ht : pieces t = piece :: later) :
    pieces (s ++ t) = (s ++ piece) :: later := by
  induction s with
  | nil => exact ht
  | cons c s ih =>
      have hc : ¬isBlank c = true := by simp [hs c (by simp)]
      rw [List.cons_append, pieces, if_neg hc, ih fun d hd => hs d (by simp [hd])]
      rfl

theorem pieces_append_blank {c : Char} (hc : isBlank c = true) (a b : Text) :
    pieces (a ++ c :: b) = pieces a ++ pieces b := by
  induction a with
  | nil => exact pieces_cons_blank hc b
  | cons d a ih =>
      by_cases hd : isBlank d = true
      · rw [List.cons_append, pieces_cons_blank hd, pieces_cons_blank hd, ih, List.cons_append]
      · obtain ⟨piece, later, ha⟩ := exists_pieces_eq a
        rw [List.cons_append, pieces, if_neg hd, ih, pieces, if_neg hd, ha]
        rfl

/-- A piece holds no blank. -/
theorem not_isBlank_of_mem_pieces {t : Text} :
    ∀ piece ∈ pieces t, ∀ c ∈ piece, isBlank c = false := by
  induction t with
  | nil => simp [pieces]
  | cons d t ih =>
      intro piece hp c hc
      by_cases hd : isBlank d = true
      · rw [pieces_cons_blank hd] at hp
        rcases List.mem_cons.mp hp with rfl | hp
        · simp at hc
        · exact ih piece hp c hc
      · obtain ⟨first, later, ht⟩ := exists_pieces_eq t
        rw [pieces, if_neg hd, ht] at hp
        rcases List.mem_cons.mp hp with rfl | hp
        · rcases List.mem_cons.mp hc with rfl | hc
          · simpa using hd
          · exact ih first (by simp [ht]) c hc
        · exact ih piece (by simp [ht, hp]) c hc

/-! ### Words -/

/-- What a piece of a text may be as a word: not empty, and without a blank. -/
def IsWord (w : Text) : Prop := w ≠ [] ∧ ∀ c ∈ w, isBlank c = false

theorem isWord_of_mem_words {t w : Text} (h : w ∈ words t) : IsWord w := by
  obtain ⟨hp, hne⟩ := List.mem_filter.mp h
  exact ⟨by simpa using hne, not_isBlank_of_mem_pieces w hp⟩

@[simp] theorem words_nil : words [] = [] := rfl

/-- **A blank separates.** -/
theorem words_append_blank {c : Char} (hc : isBlank c = true) (a b : Text) :
    words (a ++ c :: b) = words a ++ words b := by
  rw [words, pieces_append_blank hc, List.filter_append]
  rfl

theorem words_of_isWord {w : Text} (hw : IsWord w) : words w = [w] := by
  have h : pieces (w ++ []) = [w ++ []] := pieces_append hw.2 rfl
  rw [List.append_nil] at h
  simp [words, h, hw.1]

theorem words_intercalate {ws : List Text} (hws : ∀ w ∈ ws, IsWord w) :
    words (List.intercalate [' '] ws) = ws := by
  induction ws with
  | nil => rfl
  | cons w rest ih =>
      have hw := words_of_isWord (hws w (by simp))
      cases rest with
      | nil => simpa [List.intercalate] using hw
      | cons v rest =>
          have hrest := ih fun u hu => hws u (by simp [hu])
          have hjoin : List.intercalate [' '] (w :: v :: rest) =
              w ++ ' ' :: List.intercalate [' '] (v :: rest) := by
            simp [List.intercalate]
          rw [hjoin, words_append_blank (by decide), hw, hrest]
          rfl

@[simp] theorem words_normalize (t : Text) : words (normalize t) = words t :=
  words_intercalate fun _ hw => isWord_of_mem_words hw

/-- Texts have one normal form exactly when they have the same words. -/
theorem normalize_eq_iff {s t : Text} : normalize s = normalize t ↔ words s = words t := by
  constructor
  · intro h
    rw [← words_normalize s, h, words_normalize]
  · intro h
    rw [normalize, h, normalize]

/-! ### Firm texts -/

/-- The text does not begin with a blank. -/
def IsFirm (t : Text) : Prop := ∀ c ∈ t.head?, isBlank c = false

@[simp] theorem isFirm_nil : IsFirm [] := by
  intro c hc
  simp at hc

@[simp] theorem isFirm_cons {c : Char} {t : Text} : IsFirm (c :: t) ↔ isBlank c = false := by
  simp [IsFirm]

/-- What stands behind a firm text that is not empty leaves it firm. -/
theorem IsFirm.append {s : Text} (hs : IsFirm s) (hne : s ≠ []) (t : Text) : IsFirm (s ++ t) := by
  cases s with
  | nil => exact absurd rfl hne
  | cons c s => simpa using hs

/-- Characters that are not blank begin the first word. -/
theorem words_append_of_pieces {s t piece : Text} {later : List Text} (hne : s ≠ [])
    (hs : ∀ c ∈ s, isBlank c = false) (ht : pieces t = piece :: later) :
    words (s ++ t) = (s ++ piece) :: later.filter fun p => !p.isEmpty := by
  simp [words, pieces_append hs ht, hne]

/--
**Firm texts with the same words begin alike.**  So a change that puts the same characters,
none of them blank, in the place of the first one keeps their words the same.
-/
theorem words_congr_head {c d : Char} {s t : Text} (hc : isBlank c = false)
    (hd : isBlank d = false) (h : words (c :: s) = words (d :: t)) :
    c = d ∧ ∀ front, front ≠ [] → (∀ a ∈ front, isBlank a = false) →
      words (front ++ s) = words (front ++ t) := by
  obtain ⟨p, ps, hp⟩ := exists_pieces_eq s
  obtain ⟨q, qs, hq⟩ := exists_pieces_eq t
  have hcs := words_append_of_pieces (s := [c]) (by simp) (by simpa using hc) hp
  have hdt := words_append_of_pieces (s := [d]) (by simp) (by simpa using hd) hq
  rw [List.singleton_append] at hcs hdt
  rw [hcs, hdt] at h
  simp only [List.singleton_append, List.cons.injEq] at h
  obtain ⟨⟨rfl, rfl⟩, hlater⟩ := h
  refine ⟨rfl, fun front hne hfront => ?_⟩
  rw [words_append_of_pieces hne hfront hp, words_append_of_pieces hne hfront hq, hlater]

theorem words_ne_nil_of_cons {c : Char} {t : Text} (hc : isBlank c = false) :
    words (c :: t) ≠ [] := by
  obtain ⟨piece, later, ht⟩ := exists_pieces_eq t
  have h := words_append_of_pieces (s := [c]) (by simp) (by simpa using hc) ht
  rw [List.singleton_append] at h
  simp [h]

/-! ### Trimming -/

theorem isFirm_trim (t : Text) : IsFirm (trim t) := by
  have hfront : ∀ c ∈ (t.dropWhile isBlank).head?, isBlank c = false := by
    intro c hc
    have := List.head?_dropWhile_not isBlank t
    rw [hc] at this
    simpa using this
  intro c hc
  refine hfront c ?_
  have hprefix : trim t <+: t.dropWhile isBlank := by
    have := (List.dropWhile_suffix (l := (t.dropWhile isBlank).reverse) isBlank).reverse
    rwa [List.reverse_reverse] at this
  obtain ⟨rest, hrest⟩ := hprefix
  rw [← hrest]
  cases htrim : trim t with
  | nil => rw [htrim] at hc; simp at hc
  | cons d s => rw [htrim] at hc; simpa using hc

end Phrasebook.Text
