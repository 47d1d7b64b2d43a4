import Mathlib.Data.List.MinMax
import Mathlib.Data.List.Nodup
import Mathlib.Tactic.Common
import Phrasebook.Generation.Scope

/-!
Parameters replaced one after the other, and all at once.

A word is rendered by one replacement for each parameter, and each of them reads what the earlier
ones have put in.  What is meant is `substitute`: a single pass over the word, which puts in the
argument of the longest name at each sign and never reads what it has put in.  The two come to the
same if nothing that is put in makes a parameter, be it by itself or with what stands around it
(`Undisturbed`).

Between the word and the single pass lie texts in which some parameters are still to be replaced.
Each of them is a pass over the word as well, one that puts in a name where its argument is still
pending, and a replacement leads from one to the next (`replace_fill`).
-/

namespace Phrasebook

namespace Text

/-! ### Replacing -/

variable {piece replacement : Text}

theorem replaceAfter_eq_drop (skip : Nat) (t : Text) :
    replaceAfter piece replacement skip t = replace (t.drop skip) piece replacement := by
  induction t generalizing skip with
  | nil => cases skip <;> simp [replaceAfter, replace]
  | cons c rest ih =>
      cases skip with
      | zero => rfl
      | succ skip => exact ih skip

theorem replace_cons_of_not_prefix {c : Char} {t : Text} (h : ¬ piece <+: c :: t) :
    replace (c :: t) piece replacement = c :: replace t piece replacement := by
  have hbegins : ¬ piece.isPrefixOf (c :: t) = true := by rwa [List.isPrefixOf_iff_prefix]
  rw [replace, replaceAfter, if_neg hbegins]
  rfl

theorem replace_of_prefix (hne : piece ≠ []) (t : Text) :
    replace (piece ++ t) piece replacement = replacement ++ replace t piece replacement := by
  obtain ⟨c, rest, rfl⟩ := List.exists_cons_of_ne_nil hne
  have hbegins : (c :: rest).isPrefixOf (c :: (rest ++ t)) = true :=
    List.isPrefixOf_iff_prefix.mpr (List.prefix_append (c :: rest) t)
  rw [List.cons_append, replace, replaceAfter, if_pos hbegins, replaceAfter_eq_drop]
  simp

end Text

/-! ### A pass over a text -/

/-- The binding with the longest name that a text begins with. -/
def longest? (bindings : List (Text × Text)) (t : Text) : Option (Text × Text) :=
  (bindings.filter (·.1.isPrefixOf t)).argmax (·.1.length)

/-- Puts in values in a text whose first `skip` characters belong to the name before it. -/
def fillAfter (value : Text × Text → Text) (bindings : List (Text × Text)) : Nat → Text → Text
  | _, [] => []
  | skip + 1, _ :: rest => fillAfter value bindings skip rest
  | 0, c :: rest =>
    if c = '$' then
      match longest? bindings rest with
      | some b => value b ++ fillAfter value bindings b.1.length rest
      | none => c :: fillAfter value bindings 0 rest
    else c :: fillAfter value bindings 0 rest

/-- A text with a value put in for every `$` that a bound name follows, the longest one, from left
to right. -/
def fill (value : Text × Text → Text) (bindings : List (Text × Text)) (t : Text) : Text :=
  fillAfter value bindings 0 t

/-- A text with an argument put in for every parameter, in a single pass. -/
def substitute (bindings : List (Text × Text)) (t : Text) : Text := fill Prod.snd bindings t

section

variable {bindings : List (Text × Text)} {value : Text × Text → Text} {b : Text × Text} {t : Text}

theorem longest?_spec (h : longest? bindings t = some b) :
    b ∈ bindings ∧ b.1 <+: t ∧ ∀ c ∈ bindings, c.1 <+: t → c.1.length ≤ b.1.length := by
  obtain ⟨hmem, hbegins⟩ := List.mem_filter.mp (List.argmax_mem h)
  refine ⟨hmem, List.isPrefixOf_iff_prefix.mp hbegins, fun c hc hct => ?_⟩
  have hkept : c ∈ bindings.filter (·.1.isPrefixOf t) :=
    List.mem_filter.mpr ⟨hc, List.isPrefixOf_iff_prefix.mpr hct⟩
  exact List.le_of_mem_argmax (f := fun b : Text × Text => b.1.length) hkept h

theorem not_prefix_of_longest?_eq_none (h : longest? bindings t = none) :
    ∀ c ∈ bindings, ¬ c.1 <+: t := by
  intro c hc hct
  have hempty : bindings.filter (·.1.isPrefixOf t) = [] := List.argmax_eq_none.mp h
  exact List.filter_eq_nil_iff.mp hempty c hc (List.isPrefixOf_iff_prefix.mpr hct)

/-- Of names that are not repeated only one is the longest. -/
theorem longest?_eq_some_iff (hnames : (bindings.map Prod.fst).Nodup) :
    longest? bindings t = some b ↔
      b ∈ bindings ∧ b.1 <+: t ∧ ∀ c ∈ bindings, c.1 <+: t → c.1.length ≤ b.1.length := by
  refine ⟨longest?_spec, fun ⟨hb, hbt, hlongest⟩ => ?_⟩
  cases hfound : longest? bindings t with
  | none => exact absurd hbt (not_prefix_of_longest?_eq_none hfound b hb)
  | some c =>
      obtain ⟨hc, hct, hclongest⟩ := longest?_spec hfound
      have hle := hlongest c hc hct
      have hname : c.1 = b.1 := (List.prefix_of_prefix_length_le hct hbt hle).eq_of_length
        (Nat.le_antisymm hle (hclongest b hb hbt))
      rw [List.inj_on_of_nodup_map hnames hc hb hname]

theorem longest?_of_perm {bindings' : List (Text × Text)} (h : bindings'.Perm bindings)
    (hnames : (bindings.map Prod.fst).Nodup) (t : Text) :
    longest? bindings' t = longest? bindings t := by
  have hnames' : (bindings'.map Prod.fst).Nodup := (h.map Prod.fst).nodup_iff.mpr hnames
  refine Option.ext fun b => ?_
  rw [longest?_eq_some_iff hnames, longest?_eq_some_iff hnames']
  simp only [h.mem_iff]

/-! ### What a pass puts in -/

theorem fillAfter_eq_drop (skip : Nat) (t : Text) :
    fillAfter value bindings skip t = fill value bindings (t.drop skip) := by
  induction t generalizing skip with
  | nil => cases skip <;> simp [fillAfter, fill]
  | cons c rest ih =>
      cases skip with
      | zero => rfl
      | succ skip => exact ih skip

theorem fill_nil : fill value bindings [] = [] := rfl

theorem fill_cons {c : Char} (hc : c ≠ '$') (t : Text) :
    fill value bindings (c :: t) = c :: fill value bindings t := by
  rw [fill, fillAfter, if_neg hc]
  rfl

theorem fill_sign (h : longest? bindings t = none) :
    fill value bindings ('$' :: t) = '$' :: fill value bindings t := by
  rw [fill, fillAfter, if_pos rfl, h]
  rfl

theorem fill_name (h : longest? bindings (b.1 ++ t) = some b) :
    fill value bindings ('$' :: (b.1 ++ t)) = value b ++ fill value bindings t := by
  rw [fill, fillAfter, if_pos rfl, h]
  simp only
  rw [fillAfter_eq_drop, List.drop_left]

/-- Along a pass: a character that is no sign, a sign that no name follows, or a sign with the
longest name behind it. -/
@[elab_as_elim]
theorem fill_induction (bindings : List (Text × Text)) {motive : Text → Prop} (nil : motive [])
    (char : ∀ c t, c ≠ '$' → motive t → motive (c :: t))
    (sign : ∀ t, longest? bindings t = none → motive t → motive ('$' :: t))
    (name : ∀ b t, longest? bindings (b.1 ++ t) = some b → motive t → motive ('$' :: (b.1 ++ t)))
    (t : Text) : motive t := by
  induction hlength : t.length using Nat.strong_induction_on generalizing t with
  | _ n ih =>
      cases t with
      | nil => exact nil
      | cons c t =>
          have hlt : t.length < n := by simp [← hlength]
          by_cases hc : c = '$'
          · subst hc
            cases hfound : longest? bindings t with
            | none => exact sign t hfound (ih t.length hlt t rfl)
            | some b =>
                obtain ⟨-, ⟨rest, rfl⟩, -⟩ := longest?_spec hfound
                refine name b rest hfound (ih rest.length ?_ rest rfl)
                rw [List.length_append] at hlt
                omega
          · exact char c t hc (ih t.length hlt t rfl)

/-- Only signs are looked at. -/
theorem fill_append {s : Text} (hs : '$' ∉ s) (t : Text) :
    fill value bindings (s ++ t) = s ++ fill value bindings t := by
  induction s with
  | nil => rfl
  | cons c s ih =>
      obtain ⟨hc, hs⟩ : '$' ≠ c ∧ '$' ∉ s := by simpa using hs
      rw [List.cons_append, fill_cons hc.symm, ih hs, List.cons_append]

theorem fill_congr {value' : Text × Text → Text} (h : ∀ b ∈ bindings, value b = value' b)
    (t : Text) : fill value bindings t = fill value' bindings t := by
  induction t using fill_induction bindings with
  | nil => rfl
  | char c t hc ih => rw [fill_cons hc, fill_cons hc, ih]
  | sign t hnone ih => rw [fill_sign hnone, fill_sign hnone, ih]
  | name b t hsome ih => rw [fill_name hsome, fill_name hsome, ih, h b (longest?_spec hsome).1]

/-- Where every name stands for itself, nothing changes. -/
theorem fill_placeholder (t : Text) :
    fill (fun b => Scope.placeholder b.1) bindings t = t := by
  induction t using fill_induction bindings with
  | nil => rfl
  | char c t hc ih => rw [fill_cons hc, ih]
  | sign t hnone ih => rw [fill_sign hnone, ih]
  | name b t hsome ih =>
      rw [fill_name hsome, ih]
      rfl

theorem fill_of_perm {bindings' : List (Text × Text)} (h : bindings'.Perm bindings)
    (hnames : (bindings.map Prod.fst).Nodup) (t : Text) :
    fill value bindings' t = fill value bindings t := by
  have hlongest := longest?_of_perm h hnames
  induction t using fill_induction bindings with
  | nil => rfl
  | char c t hc ih => rw [fill_cons hc, fill_cons hc, ih]
  | sign t hnone ih => rw [fill_sign hnone, fill_sign ((hlongest t).trans hnone), ih]
  | name b t hsome ih => rw [fill_name hsome, fill_name ((hlongest _).trans hsome), ih]

end

/-! ### Nothing is disturbed -/

/-- What is put in makes no parameter.  In an argument, a sign is not followed by a name, nor by
the beginning of one up to the end.  And where a sign and some text stand in front of a parameter,
they make no name with its argument that the text does not begin with already. -/
structure Undisturbed (bindings : List (Text × Text)) (t : Text) : Prop where
  names : ∀ b ∈ bindings, '$' ∉ b.1
  arguments : ∀ b ∈ bindings, ∀ rest, '$' :: rest <:+ b.2 →
    ∀ c ∈ bindings, ¬ c.1 <+: rest ∧ ¬ rest <+: c.1
  around : ∀ s rest, '$' ∉ s → '$' :: (s ++ '$' :: rest) <:+ t →
    ∀ b, longest? bindings rest = some b →
      ∀ c ∈ bindings, c.1 <+: s ++ b.2 ∨ s ++ b.2 <+: c.1 → c.1 <+: s

namespace Undisturbed

variable {bindings : List (Text × Text)} {t : Text}

theorem of_suffix {s : Text} (h : Undisturbed bindings t) (hs : s <:+ t) :
    Undisturbed bindings s where
  names := h.names
  arguments := h.arguments
  around s' rest hs' hsuffix := h.around s' rest hs' (hsuffix.trans hs)

theorem of_perm {bindings' : List (Text × Text)} (h : Undisturbed bindings t)
    (hperm : bindings'.Perm bindings) (hnames : (bindings.map Prod.fst).Nodup) :
    Undisturbed bindings' t where
  names b hb := h.names b (hperm.mem_iff.mp hb)
  arguments b hb rest hrest c hc :=
    h.arguments b (hperm.mem_iff.mp hb) rest hrest c (hperm.mem_iff.mp hc)
  around s rest hs hsuffix b hb c hc := by
    rw [longest?_of_perm hperm hnames] at hb
    exact h.around s rest hs hsuffix b hb c (hperm.mem_iff.mp hc)

end Undisturbed

/-- A text without a sign does not go beyond one. -/
theorem prefix_of_prefix_sign {q s t : Text} (hq : '$' ∉ q) (h : q <+: s ++ '$' :: t) :
    q <+: s := by
  rcases List.prefix_or_prefix_of_prefix h (List.prefix_append s _) with hqs | ⟨x, rfl⟩
  · exact hqs
  · cases x with
    | nil => simp
    | cons c x =>
        obtain ⟨rfl, -⟩ := List.cons_prefix_cons.mp ((List.prefix_append_right_inj s).mp h)
        exact absurd (by simp) hq

/-- **A pass makes no name behind a sign**, whether it puts in arguments or leaves names. -/
theorem prefix_of_prefix_fill {bindings : List (Text × Text)} {value : Text × Text → Text}
    (hvalue : ∀ b, value b = b.2 ∨ value b = Scope.placeholder b.1) {t : Text}
    (h : Undisturbed bindings ('$' :: t)) {c : Text × Text} (hc : c ∈ bindings)
    (hbegins : c.1 <+: fill value bindings t) : c.1 <+: t := by
  have hname := h.names c hc
  by_cases hsign : '$' ∈ t
  · obtain ⟨s, rest, rfl, hs⟩ := List.eq_append_cons_of_mem hsign
    rw [fill_append hs] at hbegins
    suffices c.1 <+: s from this.trans (List.prefix_append s _)
    cases hfound : longest? bindings rest with
    | none =>
        rw [fill_sign hfound] at hbegins
        exact prefix_of_prefix_sign hname hbegins
    | some b =>
        obtain ⟨-, ⟨rest, rfl⟩, -⟩ := longest?_spec hfound
        rw [fill_name hfound] at hbegins
        rcases hvalue b with hb | hb
        · rw [hb, ← List.append_assoc] at hbegins
          exact h.around s _ hs (List.suffix_refl _) b hfound c hc
            (List.prefix_or_prefix_of_prefix hbegins (List.prefix_append _ _))
        · rw [hb] at hbegins
          exact prefix_of_prefix_sign hname hbegins
  · have hfill : fill value bindings (t ++ []) = t ++ fill value bindings [] := fill_append hsign []
    rw [List.append_nil, fill_nil, List.append_nil] at hfill
    rwa [hfill] at hbegins

/-! ### One replacement after the other -/

/-- The argument of a binding, or its parameter if that is still to be replaced. -/
def pending (left : List (Text × Text)) (b : Text × Text) : Text :=
  if b ∈ left then Scope.placeholder b.1 else b.2

namespace Text

/-- What the piece does not begin in stays as it is. -/
theorem replace_append {q replacement a t : Text}
    (h : ∀ rest, '$' :: rest <:+ a → ¬ q <+: rest ++ t) :
    replace (a ++ t) (Scope.placeholder q) replacement =
      a ++ replace t (Scope.placeholder q) replacement := by
  induction a with
  | nil => rfl
  | cons c a ih =>
      rw [List.cons_append, replace_cons_of_not_prefix, ih, List.cons_append]
      · exact fun rest hrest => h rest (hrest.trans (List.suffix_cons c a))
      · intro hbegins
        obtain ⟨rfl, hq⟩ := List.cons_prefix_cons.mp hbegins
        exact h a (List.suffix_refl _) hq

end Text

theorem byteLength_append (s t : Text) :
    Scope.byteLength (s ++ t) = Scope.byteLength s + Scope.byteLength t := by
  simp [Scope.byteLength]

/-- A beginning that is not shorter in bytes is all. -/
theorem eq_of_prefix_of_byteLength_le {s t : Text} (h : s <+: t)
    (hle : Scope.byteLength t ≤ Scope.byteLength s) : s = t := by
  obtain ⟨x, rfl⟩ := h
  cases x with
  | nil => simp
  | cons c x =>
      have hpos := Char.utf8Size_pos c
      rw [byteLength_append] at hle
      simp [Scope.byteLength] at hle
      omega

/-- **One replacement leads from one pass to the next.** -/
theorem replace_fill {bindings : List (Text × Text)} (hnames : (bindings.map Prod.fst).Nodup)
    {b : Text × Text} {left : List (Text × Text)} (hb : b ∈ bindings) (hnew : b ∉ left)
    (horder : ∀ c ∈ left, Scope.byteLength c.1 ≤ Scope.byteLength b.1) {t : Text}
    (h : Undisturbed bindings t) :
    (fill (pending (b :: left)) bindings t).replace (Scope.placeholder b.1) b.2 =
      fill (pending left) bindings t := by
  have hvalue : ∀ c, pending (b :: left) c = c.2 ∨
      pending (b :: left) c = Scope.placeholder c.1 := by
    intro c
    unfold pending
    split
    · exact Or.inr rfl
    · exact Or.inl rfl
  induction t using fill_induction bindings with
  | nil => rfl
  | char c t hc ih =>
      rw [fill_cons hc, fill_cons hc, Text.replace_cons_of_not_prefix,
        ih (h.of_suffix (List.suffix_cons c t))]
      intro hbegins
      exact hc (List.cons_prefix_cons.mp hbegins).1.symm
  | sign t hnone ih =>
      rw [fill_sign hnone, fill_sign hnone, Text.replace_cons_of_not_prefix,
        ih (h.of_suffix (List.suffix_cons '$' t))]
      intro hbegins
      have hbt := prefix_of_prefix_fill hvalue h hb (List.cons_prefix_cons.mp hbegins).2
      exact not_prefix_of_longest?_eq_none hnone b hb hbt
  | name c t hsome ih =>
      obtain ⟨hc, hct, hlongest⟩ := longest?_spec hsome
      have hrest : Undisturbed bindings t :=
        h.of_suffix ((List.suffix_append c.1 t).trans (List.suffix_cons '$' _))
      rw [fill_name hsome, fill_name hsome]
      by_cases hcb : c = b
      · -- The pass leaves the name, and the replacement puts in its argument.
        subst hcb
        have hfirst : pending (c :: left) c = Scope.placeholder c.1 := if_pos (by simp)
        have hthen : pending left c = c.2 := if_neg hnew
        rw [hfirst, hthen, Text.replace_of_prefix (by simp [Scope.placeholder]), ih hrest]
      have hsame : pending (b :: left) c = pending left c := by simp [pending, hcb]
      rw [hsame, Text.replace_append, ih hrest]
      intro rest hsuffix hbegins
      by_cases hleft : c ∈ left
      · -- The name that is left is not longer, so the piece would be the longest name here.
        have hplaceholder : pending left c = Scope.placeholder c.1 := if_pos hleft
        rw [hplaceholder] at hsuffix
        obtain rfl : rest = c.1 := by
          rcases List.suffix_cons_iff.mp hsuffix with heq | hwithin
          · exact (List.cons.inj heq).2
          · exact absurd (hwithin.subset (by simp)) (h.names c hc)
        rw [← fill_append (h.names c hc)] at hbegins
        have hbt := prefix_of_prefix_fill hvalue h hb hbegins
        have hbc := List.prefix_of_prefix_length_le hbt hct (hlongest b hb hbt)
        have hname := eq_of_prefix_of_byteLength_le hbc (horder c hleft)
        exact hcb (List.inj_on_of_nodup_map hnames hc hb hname.symm)
      · -- What was put in begins no name.
        have hargument : pending left c = c.2 := if_neg hleft
        rw [hargument] at hsuffix
        obtain ⟨hnot, hnot'⟩ := h.arguments c hc rest hsuffix b hb
        exact (List.prefix_or_prefix_of_prefix hbegins (List.prefix_append rest _)).elim hnot hnot'

/-- **All replacements together are a single pass.** -/
theorem foldl_replace {bindings : List (Text × Text)} (hnames : (bindings.map Prod.fst).Nodup)
    {t : Text} (h : Undisturbed bindings t) {left : List (Text × Text)} (hleft : left ⊆ bindings)
    (hnodup : left.Nodup)
    (horder : left.Pairwise fun a b => Scope.byteLength b.1 ≤ Scope.byteLength a.1) :
    left.foldl (fun text b => text.replace (Scope.placeholder b.1) b.2)
      (fill (pending left) bindings t) = substitute bindings t := by
  induction left with
  | nil => exact fill_congr (fun b _ => if_neg (by simp)) t
  | cons b left ih =>
      obtain ⟨hb, hleft⟩ := List.cons_subset.mp hleft
      obtain ⟨hnew, hnodup⟩ := List.nodup_cons.mp hnodup
      obtain ⟨hshorter, horder⟩ := List.pairwise_cons.mp horder
      rw [List.foldl_cons, replace_fill hnames hb hnew hshorter h]
      exact ih hleft hnodup horder

/-! ### Rendering a word -/

/-- The bindings of a use, in the order in which they are replaced. -/
theorem Scope.pairwise_bindings (d : Definition) (arguments : List Text) :
    (ofDefinition d arguments).bindings.Pairwise
      fun a b => byteLength b.1 ≤ byteLength a.1 := by
  have hsorted : (ofDefinition d arguments).bindings.Pairwise
      fun a b => decide (byteLength b.1 ≤ byteLength a.1) = true :=
    List.pairwise_mergeSort (fun a b c hab hbc => by simp at hab hbc ⊢; omega)
      (fun a b => by simp; omega) _
  exact hsorted.imp of_decide_eq_true

theorem Scope.render_eq {d : Definition} {arguments : List Text}
    (hnames : ((d.parameters.zip arguments).map Prod.fst).Nodup) {word : Text}
    (h : Undisturbed (d.parameters.zip arguments) word.trim) :
    (ofDefinition d arguments).render word =
      substitute (d.parameters.zip arguments) word.trim := by
  have hperm : (ofDefinition d arguments).bindings.Perm (d.parameters.zip arguments) :=
    List.mergeSort_perm _ _
  have hnames' := (hperm.map Prod.fst).nodup_iff.mpr hnames
  have hfold := foldl_replace hnames' (h.of_perm hperm hnames) (List.Subset.refl _)
    (hnames'.of_map _) (pairwise_bindings d arguments)
  have hstart : fill (pending (ofDefinition d arguments).bindings)
      (ofDefinition d arguments).bindings word.trim = word.trim :=
    (fill_congr (fun b hb => if_pos hb) _).trans (fill_placeholder _)
  rw [hstart] at hfold
  unfold render
  rw [hfold]
  exact fill_of_perm hperm hnames _

/--
**A word is rendered by a single pass** over its trimmed text, which puts in the argument of the
longest parameter at each sign and never reads it, if nothing that is put in makes a parameter.
Then the order in which the parameters are declared does not matter.
-/
theorem render_eq_substitute {d : Definition} (hnodup : d.parameters.Nodup) {arguments : List Text}
    (hlength : arguments.length = d.parameters.length) {word : Text}
    (h : Undisturbed (d.parameters.zip arguments) word.trim) :
    (Scope.ofDefinition d arguments).render word =
        substitute (d.parameters.zip arguments) word.trim ∧
      ∀ (d' : Definition) (arguments' : List Text),
        (d'.parameters.zip arguments').Perm (d.parameters.zip arguments) →
          (Scope.ofDefinition d' arguments').render word =
            (Scope.ofDefinition d arguments).render word := by
  have hnames : ((d.parameters.zip arguments).map Prod.fst).Nodup := by
    rwa [List.map_fst_zip hlength.ge]
  refine ⟨Scope.render_eq hnames h, fun d' arguments' hperm => ?_⟩
  have hnames' := (hperm.map Prod.fst).nodup_iff.mpr hnames
  rw [Scope.render_eq hnames' (h.of_perm hperm hnames), Scope.render_eq hnames h]
  exact fill_of_perm hperm hnames _

/-- A text is cut in one way only at its first sign. -/
theorem eq_takeWhile_of_sign {s rest t : Text} (hs : '$' ∉ s) (h : s ++ '$' :: rest = t) :
    s = t.takeWhile (· ≠ '$') ∧ rest = (t.dropWhile (· ≠ '$')).tail := by
  subst h
  have hall : ∀ c ∈ s, decide (c ≠ '$') = true := by
    intro c hc
    simpa using fun heq : c = '$' => hs (heq ▸ hc)
  rw [List.takeWhile_append_of_pos hall, List.dropWhile_append_of_pos hall]
  simp

namespace Journey

/-- A phrase about the name of a city, and the city. -/
def place : Definition where
  kind := .phrase
  name := "place"
  rules := []
  variations := []
  parameters := ["city".toList, "city_name".toList]
  directive := none

/-- A city, and a name that has a sign in it. -/
def paris : List Text := ["paris".toList, "Paris, $5".toList]

theorem undisturbed :
    Undisturbed (place.parameters.zip paris) (Text.trim " $city_name or $city ".toList) := by
  have htrim : Text.trim " $city_name or $city ".toList = "$city_name or $city".toList := by decide
  rw [htrim]
  refine ⟨by decide, ?_, ?_⟩
  · intro b hb rest hrest c hc
    simp [place, paris] at hb hc
    rcases hb with rfl | rfl
    · simp [List.suffix_cons_iff] at hrest
    · simp [List.suffix_cons_iff] at hrest
      subst hrest
      rcases hc with rfl | rfl <;> decide
  · intro s rest hs hsuffix b hb c hc
    simp [List.suffix_cons_iff] at hsuffix
    rcases hsuffix with hfirst | hsecond
    · obtain ⟨rfl, -⟩ := eq_takeWhile_of_sign hs hfirst
      simp [place, paris] at hc
      rcases hc with rfl | rfl <;> exact fun _ => by decide
    · have hsign : '$' ∈ ['c', 'i', 't', 'y'] := by
        rw [← hsecond]
        simp
      exact absurd hsign (by decide)

/-- The phrase with its parameters declared the other way round. -/
def placeBackwards : Definition := { place with parameters := place.parameters.reverse }

end Journey

/-- The longer parameter is not taken for the shorter one, whichever is declared first. -/
theorem render_eq_substitute_paris :
    (Scope.ofDefinition Journey.place Journey.paris).render " $city_name or $city ".toList =
        "Paris, $5 or paris".toList ∧
      (Scope.ofDefinition Journey.placeBackwards Journey.paris.reverse).render
        " $city_name or $city ".toList = "Paris, $5 or paris".toList := by
  obtain ⟨hrender, horder⟩ := render_eq_substitute (d := Journey.place) (by decide) (by decide)
    Journey.undisturbed
  have hpass : substitute (Journey.place.parameters.zip Journey.paris)
      (Text.trim " $city_name or $city ".toList) = "Paris, $5 or paris".toList := by
    decide +kernel
  rw [horder Journey.placeBackwards Journey.paris.reverse (by decide), hrender, hpass]
  exact ⟨rfl, rfl⟩

namespace Swap

/-- A phrase of two parameters. -/
def pair : Definition where
  kind := .phrase
  name := "pair"
  rules := []
  variations := []
  parameters := ["a".toList, "b".toList]
  directive := none

/-- The phrase with its parameters declared the other way round. -/
def pairBackwards : Definition := { pair with parameters := pair.parameters.reverse }

/-- Each parameter is to stand for the other one. -/
def swapped : List Text := ["$b".toList, "$a".toList]

end Swap

/--
What is put in for the first parameter is read again for the second.  So arguments that are to swap
two parameters make the word the same twice, and the order of the parameters decides which of the
two it is.
-/
theorem render_ne_substitute :
    Swap.pair.parameters.Nodup ∧ Swap.swapped.length = Swap.pair.parameters.length ∧
      substitute (Swap.pair.parameters.zip Swap.swapped) (Text.trim "$a $b".toList) =
        "$b $a".toList ∧
      (Scope.ofDefinition Swap.pair Swap.swapped).render "$a $b".toList = "$a $a".toList ∧
      (Scope.ofDefinition Swap.pairBackwards Swap.swapped.reverse).render "$a $b".toList =
        "$b $b".toList := by
  have hforwards : (Scope.ofDefinition Swap.pair Swap.swapped).bindings =
      [("a".toList, "$b".toList), ("b".toList, "$a".toList)] :=
    List.mergeSort_of_pairwise (by decide)
  have hbackwards : (Scope.ofDefinition Swap.pairBackwards Swap.swapped.reverse).bindings =
      [("b".toList, "$a".toList), ("a".toList, "$b".toList)] :=
    List.mergeSort_of_pairwise (by decide)
  refine ⟨by decide, by decide, by decide +kernel, ?_, ?_⟩
  · rw [Scope.render, hforwards]
    decide
  · rw [Scope.render, hbackwards]
    decide

end Phrasebook
