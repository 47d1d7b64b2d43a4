import Mathlib.Data.List.Induction
import Phrasebook.Proofs.Synonyms

/-!
What a table of synonyms keeps of its history.

A table comes about by changes to an empty one: a pair is inserted, or another table is merged in.
All that counts of a change are the pairs that arrive with it, one after the other.  The invariant
is `Keeps`: for each surface the table has the values that arrived for it, each once and in the
order in which they came first, and nothing if none came.  One pair more keeps it, and so does any
list of pairs, which is what a table to be merged in amounts to.

Two things follow from it.  What arrived before is not news, so that a table which is merged in
again changes nothing.  And since no value stands twice for a surface, each surface stands once for
a value when the pairs are listed by value.
-/

namespace Phrasebook

open Std (TreeMap)

namespace Synonyms

variable {s t : Synonyms} {arrived : List (Text × Text)} {surface value : Text}

/-! ### Histories -/

/-- What is done to a table. -/
inductive Change where
  | insert (surface value : Text)
  | merge (t : Synonyms)

namespace Change

/-- The table after the change. -/
def apply (s : Synonyms) : Change → Synonyms
  | insert surface value => s.insert surface value
  | merge t => s.merge t

/-- The pairs that arrive with a change, those of a table surface by surface in ascending order. -/
def arrivals : Change → List (Text × Text)
  | insert surface value => [(surface, value)]
  | merge t => t.toList.flatMap fun entry => entry.2.map fun value => (entry.1, value)

end Change

/-- The table that comes about by changes to an empty one. -/
def ofChanges (changes : List Change) : Synonyms := changes.foldl Change.apply empty

/-- The values that arrived for a surface. -/
def valuesFor (arrived : List (Text × Text)) (surface : Text) : List Text :=
  (arrived.filter fun pair => pair.1 = surface).map (·.2)

/-- What is to be known of a surface: the values that arrived for it, without repeats and in the
order of their first arrival, and nothing if there were none. -/
def firstArrivals (arrived : List (Text × Text)) (surface : Text) : Option (List Text) :=
  let values := valuesFor arrived surface
  if values = [] then none else some values.eraseDups

/-- The table has for each surface what is to be known of it. -/
def Keeps (s : Synonyms) (arrived : List (Text × Text)) : Prop :=
  ∀ surface, s.get? surface = firstArrivals arrived surface

/-! ### Lists without repeats -/

theorem eraseDups_append_of_subset {xs ys : List Text} (h : ∀ y ∈ ys, y ∈ xs) :
    (xs ++ ys).eraseDups = xs.eraseDups := by
  have hnews : ys.removeAll xs = [] := by
    rw [List.removeAll, List.filter_eq_nil_iff]
    intro y hy
    simpa using h y hy
  rw [List.eraseDups_append, hnews, List.eraseDups_nil, List.append_nil]

theorem eraseDups_concat (xs : List Text) (y : Text) :
    (xs ++ [y]).eraseDups = if y ∈ xs then xs.eraseDups else xs.eraseDups ++ [y] := by
  by_cases hy : y ∈ xs
  · rw [if_pos hy, eraseDups_append_of_subset]
    simpa using hy
  · have hnews : [y].removeAll xs = [y] := by simp [List.removeAll, hy]
    rw [if_neg hy, List.eraseDups_append, hnews]
    rfl

theorem nodup_eraseDups (xs : List Text) : xs.eraseDups.Nodup := by
  induction xs using List.reverseRecOn with
  | nil => simp
  | append_singleton xs y ih =>
      rw [eraseDups_concat]
      by_cases hy : y ∈ xs
      · rwa [if_pos hy]
      · rw [if_neg hy, ← List.concat_eq_append]
        exact ih.concat fun hmem => hy (List.mem_eraseDups.mp hmem)

/-! ### Values that arrive -/

theorem valuesFor_append (front behind : List (Text × Text)) (surface : Text) :
    valuesFor (front ++ behind) surface = valuesFor front surface ++ valuesFor behind surface := by
  unfold valuesFor
  rw [List.filter_append, List.map_append]

theorem mem_valuesFor : value ∈ valuesFor arrived surface ↔ (surface, value) ∈ arrived := by
  simp [valuesFor]

theorem getD_firstArrivals (arrived : List (Text × Text)) (surface : Text) :
    (firstArrivals arrived surface).getD [] = (valuesFor arrived surface).eraseDups := by
  unfold firstArrivals
  by_cases h : valuesFor arrived surface = []
  · simp [h]
  · simp [h]

/-- What arrived before is not news. -/
theorem firstArrivals_append_of_subset {news : List (Text × Text)}
    (h : ∀ pair ∈ news, pair ∈ arrived) (surface : Text) :
    firstArrivals (arrived ++ news) surface = firstArrivals arrived surface := by
  have hvalues : ∀ value ∈ valuesFor news surface, value ∈ valuesFor arrived surface :=
    fun value hvalue => mem_valuesFor.mpr (h _ (mem_valuesFor.mp hvalue))
  unfold firstArrivals
  simp only [valuesFor_append]
  rw [eraseDups_append_of_subset hvalues]
  by_cases hnone : valuesFor arrived surface = []
  · have hnews : valuesFor news surface = [] := by
      rw [List.eq_nil_iff_forall_not_mem]
      intro value hvalue
      simpa [hnone] using hvalues value hvalue
    simp [hnone, hnews]
  · simp [hnone]

/-! ### One change -/

theorem get?_insert (s : Synonyms) (surface value a : Text) :
    (s.insert surface value).get? a =
      if surface = a then
        some (if value ∈ (s.get? surface).getD [] then (s.get? surface).getD []
          else (s.get? surface).getD [] ++ [value])
      else s.get? a := by
  unfold insert get?
  rw [TreeMap.getElem?_insert, TreeMap.getD_eq_getD_getElem?]
  simp only [Std.compare_eq_iff_eq]

/-- **One pair more.** -/
theorem Keeps.insert (h : s.Keeps arrived) (surface value : Text) :
    (s.insert surface value).Keeps (arrived ++ [(surface, value)]) := by
  intro a
  rw [get?_insert, h surface, h a, getD_firstArrivals]
  unfold firstArrivals
  simp only [valuesFor_append]
  by_cases hsurface : surface = a
  · subst hsurface
    have hone : valuesFor [(surface, value)] surface = [value] := by simp [valuesFor]
    have hsome : valuesFor arrived surface ++ [value] ≠ [] := by simp
    rw [if_pos rfl, hone, if_neg hsome, eraseDups_concat]
    simp only [List.mem_eraseDups]
  · have hnone : valuesFor [(surface, value)] a = [] := by simp [valuesFor, hsurface]
    rw [if_neg hsurface, hnone, List.append_nil]

theorem Keeps.foldl_insert (h : s.Keeps arrived) (pairs : List (Text × Text)) :
    (pairs.foldl (fun s pair => s.insert pair.1 pair.2) s).Keeps (arrived ++ pairs) := by
  induction pairs generalizing s arrived with
  | nil => simpa using h
  | cons pair rest ih =>
      rw [List.foldl_cons, List.append_cons]
      exact ih (h.insert pair.1 pair.2)

theorem Keeps.apply (h : s.Keeps arrived) (c : Change) :
    (c.apply s).Keeps (arrived ++ c.arrivals) := by
  cases c with
  | insert surface value => exact h.insert surface value
  | merge t => exact h.foldl_insert t.pairs

/-! ### All changes -/

theorem keeps_empty : empty.Keeps [] := by
  intro surface
  simp [empty, get?, firstArrivals, valuesFor]

theorem Keeps.foldl_apply (h : s.Keeps arrived) (changes : List Change) :
    (changes.foldl Change.apply s).Keeps (arrived ++ changes.flatMap Change.arrivals) := by
  induction changes generalizing s arrived with
  | nil => simpa using h
  | cons c rest ih =>
      rw [List.foldl_cons, List.flatMap_cons, ← List.append_assoc]
      exact ih (h.apply c)

theorem keeps_ofChanges (changes : List Change) :
    (ofChanges changes).Keeps (changes.flatMap Change.arrivals) :=
  keeps_empty.foldl_apply changes

/-! ### Once more -/

/-- Tables that know the same are listed the same. -/
theorem toList_eq_of_get? (h : ∀ surface, s.get? surface = t.get? surface) :
    s.toList = t.toList :=
  (TreeMap.Equiv.of_forall_constGet?_eq h).toList_eq

/-- A table of pairs that all arrived before changes nothing. -/
theorem Keeps.toList_merge (h : s.Keeps arrived) (ht : ∀ pair ∈ t.pairs, pair ∈ arrived) :
    (s.merge t).toList = s.toList := by
  have hmerged : (s.merge t).Keeps (arrived ++ t.pairs) := h.foldl_insert t.pairs
  refine toList_eq_of_get? fun surface => ?_
  rw [hmerged surface, h surface, firstArrivals_append_of_subset ht]

/-! ### By value -/

theorem Keeps.nodup (h : s.Keeps arrived) {entry : Text × List Text} (hentry : entry ∈ s.toList) :
    entry.2.Nodup := by
  have hget : s.get? entry.1 = some entry.2 := TreeMap.mem_toList_iff_getElem?_eq_some.mp hentry
  have hvalues := getD_firstArrivals arrived entry.1
  rw [← h entry.1, hget, Option.getD_some] at hvalues
  rw [hvalues]
  exact nodup_eraseDups _

/-- The pairs ascend by their surfaces, but for those of one surface, which differ by value. -/
theorem Keeps.pairwise_pairs (h : s.Keeps arrived) :
    s.pairs.Pairwise fun a b => a.1 < b.1 ∨ a.2 ≠ b.2 := by
  refine List.pairwise_flatMap.mpr ⟨fun entry hentry => ?_, ?_⟩
  · exact List.pairwise_map.mpr ((h.nodup hentry).imp fun hne => Or.inr hne)
  · refine TreeMap.ordered_keys_toList.imp fun hlt x hx y hy => ?_
    obtain ⟨v, -, rfl⟩ := List.mem_map.mp hx
    obtain ⟨w, -, rfl⟩ := List.mem_map.mp hy
    exact Or.inl (Text.lt_of_compare hlt)

/-- The table lists the same pairs by value: with each value its surfaces in ascending order, and
no value that has none. -/
structure IsInverse (m : TextLists) (s : Synonyms) : Prop where
  mem_iff : ∀ surface value : Text,
    (∃ surfaces, m[value]? = some surfaces ∧ surface ∈ surfaces) ↔ s.Records surface value
  key_iff : ∀ value : Text, value ∈ m ↔ ∃ surface, s.Records surface value
  ascending : ∀ (value : Text) (surfaces : List Text), m[value]? = some surfaces →
    surfaces.Pairwise (· < ·)

theorem Keeps.isInverse_byValue (h : s.Keeps arrived) : IsInverse s.byValue s where
  mem_iff surface value := by
    have hmem : surface ∈ s.byValue.getD value [] ↔ s.Records surface value := by
      rw [getD_byValue, ← mem_pairs]
      simp
    rw [← hmem, TreeMap.getD_eq_getD_getElem?]
    cases s.byValue[value]? with
    | none => simp
    | some surfaces => simp
  key_iff value := by
    rw [mem_byValue]
    simp only [← mem_pairs, Prod.exists]
    simp
  ascending value surfaces hsurfaces := by
    have hlist := getD_byValue s value
    rw [TreeMap.getD_eq_getD_getElem?, hsurfaces, Option.getD_some] at hlist
    rw [hlist]
    refine List.pairwise_map.mpr ((h.pairwise_pairs.filter _).imp_of_mem ?_)
    intro a b ha hb hab
    have hva : a.2 = value := by simpa using (List.mem_filter.mp ha).2
    have hvb : b.2 = value := by simpa using (List.mem_filter.mp hb).2
    exact hab.resolve_right fun hne => hne (hva.trans hvb.symm)

end Synonyms

open Synonyms in
/--
**Nothing is overwritten.**  After any changes to an empty table, a surface has the values that
arrived for it, without repeats and in the order of their first arrival, or nothing if none did; a
table that was merged in before changes nothing when it is merged in again; and listed by value are
the same pairs, each recorded value with its surfaces in ascending order.
-/
theorem first_arrivals_kept (changes : List Change) :
    (∀ surface, (ofChanges changes).get? surface =
        firstArrivals (changes.flatMap Change.arrivals) surface) ∧
      (∀ t, Change.merge t ∈ changes →
        ((ofChanges changes).merge t).toList = (ofChanges changes).toList) ∧
      IsInverse (ofChanges changes).byValue (ofChanges changes) := by
  have hkeeps := keeps_ofChanges changes
  refine ⟨hkeeps, fun t ht => hkeeps.toList_merge fun pair hpair => ?_, hkeeps.isInverse_byValue⟩
  exact List.mem_flatMap.mpr ⟨Change.merge t, ht, hpair⟩

/-! ### A city -/

namespace BigApple

/-- A surface with two values, one of them twice, and a surface without values. -/
def cities : Synonyms := ⟨.ofList [("NYC".toList, ["New York City".toList, "New York".toList,
  "New York City".toList]), ("Gotham".toList, [])]⟩

/-- One of the values is there before the table, which is merged in twice. -/
def changes : List Synonyms.Change :=
  [.insert "NYC".toList "New York".toList, .merge cities,
    .insert "Big Apple".toList "New York".toList, .merge cities]

end BigApple

open BigApple in
/-- The first value stays in front, and the surface without values is not recorded. -/
theorem first_arrivals_kept_bigApple :
    Synonyms.Change.merge cities ∈ changes ∧
      ((Synonyms.ofChanges changes).merge cities).toList = (Synonyms.ofChanges changes).toList ∧
      (Synonyms.ofChanges changes).get? "NYC".toList =
        some ["New York".toList, "New York City".toList] ∧
      (Synonyms.ofChanges changes).get? "Gotham".toList = none := by
  obtain ⟨hget, hagain, -⟩ := first_arrivals_kept changes
  have hmem : Synonyms.Change.merge cities ∈ changes :=
    List.mem_cons_of_mem _ List.mem_cons_self
  refine ⟨hmem, hagain cities hmem, (hget _).trans ?_, (hget _).trans ?_⟩
  · decide +kernel
  · decide +kernel

end Phrasebook
