import Phrasebook.Proofs.Json.Encoded
import Phrasebook.Example.Json

/-!
Synonyms.

What is recorded is a relation between surface forms and values (`Records`), and this is all
that inserting and merging change: they add pairs to it and take none away.

Seen from the values, the same pairs are listed value by value (`IsByValue`).  The table of
surfaces and its JSON value are the same up to how the tree is balanced, so what is decoded
from the value of a table lists the same entries.
-/

namespace Phrasebook

open Std (TreeMap)

namespace Text

/-- Texts are compared by code points, from the front. -/
theorem lt_of_compare {a b : Text} (h : compare a b = .lt) : a < b := by
  induction a generalizing b with
  | nil =>
      cases b with
      | nil => exact absurd h (by decide)
      | cons d b => exact List.nil_lt_cons d b
  | cons c a ih =>
      cases b with
      | nil => injection h
      | cons d b =>
          rw [List.compare_eq_compareLex, List.compareLex_cons_cons, Ordering.then_eq_lt] at h
          refine List.cons_lt_cons_iff.mpr (h.imp compareOfLessAndEq_eq_lt.mp fun hrest => ?_)
          exact ⟨Std.compare_eq_iff_eq.mp hrest.1, ih hrest.2⟩

end Text

namespace Synonyms

/-! ### Pairs of surface and value -/

/-- The value is recorded for the surface. -/
def Records (s : Synonyms) (surface value : Text) : Prop :=
  ∃ values, s.get? surface = some values ∧ value ∈ values

variable {s t : Synonyms} {surface value : Text}

theorem records_iff : s.Records surface value ↔ value ∈ s.table.getD surface [] := by
  rw [TreeMap.getD_eq_getD_getElem?]
  unfold Records get?
  cases s.table[surface]? with
  | none => simp
  | some values => simp

theorem not_records_empty : ¬ empty.Records surface value := by
  simp [records_iff, empty]

theorem records_insert {a b : Text} :
    (s.insert surface value).Records a b ↔ a = surface ∧ b = value ∨ s.Records a b := by
  rw [records_iff, records_iff]
  unfold insert
  simp only [TreeMap.getD_insert, Std.compare_eq_iff_eq]
  by_cases hsurface : surface = a
  · subst hsurface
    by_cases hvalue : value ∈ s.table.getD surface []
    · simp only [if_pos hvalue, if_true, true_and]
      exact ⟨Or.inr, fun h => h.elim (fun hb => hb ▸ hvalue) id⟩
    · simp [if_neg hvalue, or_comm]
  · simp [hsurface, Ne.symm hsurface]

theorem mem_pairs : (surface, value) ∈ s.pairs ↔ s.Records surface value := by
  unfold pairs Records get?
  simp only [List.mem_flatMap, List.mem_map, Prod.mk.injEq, Prod.exists,
    TreeMap.mem_toList_iff_getElem?_eq_some]
  constructor
  · rintro ⟨a, values, hvalues, b, hb, rfl, rfl⟩
    exact ⟨values, hvalues, hb⟩
  · rintro ⟨values, hvalues, hvalue⟩
    exact ⟨surface, values, hvalues, value, hvalue, rfl, rfl⟩

theorem records_foldl {α : Type} (xs : List α) (f g : α → Text) {a b : Text} :
    (xs.foldl (fun s x => s.insert (f x) (g x)) s).Records a b ↔
      s.Records a b ∨ ∃ x ∈ xs, a = f x ∧ b = g x := by
  induction xs generalizing s with
  | nil => simp
  | cons x rest ih =>
      rw [List.foldl_cons, ih, records_insert, List.exists_mem_cons_iff, or_comm (a := _ ∧ _),
        or_assoc]

theorem records_merge {a b : Text} :
    (s.merge t).Records a b ↔ s.Records a b ∨ t.Records a b := by
  unfold merge
  rw [records_foldl, ← mem_pairs (s := t)]
  refine or_congr_right ⟨?_, fun h => ⟨_, h, rfl, rfl⟩⟩
  rintro ⟨⟨a, b⟩, hpair, rfl, rfl⟩
  exact hpair

/-! ### The pairs by value -/

/-- The entries list the pairs by value: each value once, in ascending order, and with it its
surface forms in the order of the pairs. -/
structure IsByValue (pairs : List (Text × Text)) (entries : List (Text × List Text)) : Prop where
  ascending : entries.Pairwise fun a b => a.1 < b.1
  complete : ∀ pair ∈ pairs, ∃ surfaces, (pair.2, surfaces) ∈ entries
  surfaces : ∀ entry ∈ entries,
    entry.2 = (pairs.filter fun pair => pair.2 = entry.1).map (·.1) ∧ entry.2 ≠ []

/-- One more pair, listed under its value. -/
def underValue (m : TextLists) (pair : Text × Text) : TextLists :=
  m.insert pair.2 (m.getD pair.2 [] ++ [pair.1])

theorem getD_foldl_underValue (pairs : List (Text × Text)) (m : TextLists) (value : Text) :
    (pairs.foldl underValue m).getD value [] =
      m.getD value [] ++ (pairs.filter fun pair => pair.2 = value).map (·.1) := by
  induction pairs generalizing m with
  | nil => simp
  | cons pair rest ih =>
      rw [List.foldl_cons, ih]
      unfold underValue
      rw [TreeMap.getD_insert]
      by_cases h : pair.2 = value
      · simp [h]
      · simp [h]

theorem mem_foldl_underValue (pairs : List (Text × Text)) (m : TextLists) (value : Text) :
    value ∈ pairs.foldl underValue m ↔ (∃ pair ∈ pairs, pair.2 = value) ∨ value ∈ m := by
  induction pairs generalizing m with
  | nil => simp
  | cons pair rest ih =>
      rw [List.foldl_cons, ih, List.exists_mem_cons_iff]
      unfold underValue
      rw [TreeMap.mem_insert, Std.compare_eq_iff_eq, or_left_comm, or_assoc]

theorem getD_byValue (s : Synonyms) (value : Text) :
    s.byValue.getD value [] = (s.pairs.filter fun pair => pair.2 = value).map (·.1) :=
  (getD_foldl_underValue s.pairs ∅ value).trans (by simp)

theorem mem_byValue : value ∈ s.byValue ↔ ∃ pair ∈ s.pairs, pair.2 = value :=
  (mem_foldl_underValue s.pairs ∅ value).trans (by simp)

/-- **Seen from the values, a table has the same pairs.** -/
theorem isByValue_byValue (s : Synonyms) : IsByValue s.pairs s.byValue.toList where
  ascending := TreeMap.ordered_keys_toList.imp fun h => Text.lt_of_compare h
  complete pair hpair := by
    have hmem : pair.2 ∈ s.byValue := mem_byValue.mpr ⟨pair, hpair, rfl⟩
    exact ⟨s.byValue[pair.2], TreeMap.mem_toList_iff_getElem?_eq_some.mpr
      (TreeMap.getElem?_eq_some_getElem hmem)⟩
  surfaces entry hentry := by
    have hget : s.byValue[entry.1]? = some entry.2 :=
      TreeMap.mem_toList_iff_getElem?_eq_some.mp hentry
    have hlist : entry.2 = (s.pairs.filter fun pair => pair.2 = entry.1).map (·.1) := by
      rw [← getD_byValue, TreeMap.getD_eq_getD_getElem?, hget, Option.getD_some]
    have hmem : entry.1 ∈ s.byValue := TreeMap.mem_iff_isSome_getElem?.mpr (by simp [hget])
    obtain ⟨pair, hpair, hvalue⟩ := mem_byValue.mp hmem
    refine ⟨hlist, ?_⟩
    rw [hlist]
    exact List.ne_nil_of_mem (List.mem_map_of_mem
      (List.mem_filter.mpr ⟨hpair, decide_eq_true hvalue⟩))

end Synonyms

/-! ### The value of a table -/

namespace TextLists

/-- An entry as a field of an object. -/
def entryField (entry : Text × List Text) : String × Json :=
  (String.ofList entry.1, Json.ofList .text entry.2)

theorem nodup_entryField (m : TextLists) : ((m.toList.map entryField).map (·.1)).Nodup := by
  rw [List.map_map]
  refine List.pairwise_map.mpr (TreeMap.distinct_keys_toList.imp fun hne hname => ?_)
  exact hne (Std.compare_eq_iff_eq.mpr (String.ofList_injective hname))

/-- The table with the given entries. -/
def ofEntries (entries : List (Text × List Text)) : TextLists :=
  entries.foldl (fun (m : TextLists) entry => m.insert entry.1 entry.2) ∅

theorem ofEntries_equiv (m : TextLists) : (ofEntries m.toList).Equiv m := by
  refine TreeMap.insertMany_list_equiv_foldl.symm.trans (.of_forall_constGet?_eq fun k => ?_)
  rw [← TreeMap.ofList_eq_insertMany_empty]
  cases hk : m[k]? with
  | some values =>
      exact TreeMap.getElem?_ofList_of_mem (Std.compare_eq_iff_eq.mpr rfl)
        TreeMap.distinct_keys_toList (TreeMap.mem_toList_iff_getElem?_eq_some.mpr hk)
  | none =>
      refine TreeMap.getElem?_ofList_of_contains_eq_false (Bool.eq_false_iff.mpr fun hmem => ?_)
      rw [TreeMap.map_fst_toList_eq_keys, List.contains_iff_mem, TreeMap.mem_keys,
        TreeMap.mem_iff_isSome_getElem?, hk] at hmem
      injection hmem

theorem ofJson_entries (entries : List (Text × List Text)) :
    ofJson (.object (entries.map entryField)) = .ok (ofEntries entries) := by
  obtain ⟨parts, hparts, hmap⟩ := Json.exists_fields (entries.map entryField)
  have hfold : ∀ (entries : List (Text × List Text)) (m : TextLists),
      (entries.map entryField).foldlM (fun (m : TextLists) field => do
        return m.insert field.1.toList (← Json.asList Json.asText field.2)) m =
          (.ok (entries.foldl (fun (m : TextLists) entry => m.insert entry.1 entry.2) m) :
            Decoded TextLists) := by
    intro entries
    induction entries with
    | nil => exact fun m => rfl
    | cons entry rest ih =>
        intro m
        rw [List.map_cons, List.foldlM_cons, List.foldl_cons, ← ih]
        show (Json.asList Json.asText (Json.ofList .text entry.2) >>= _) >>= _ = _
        rw [(Json.keeps_texts 0 entry.2).decoded]
        show List.foldlM _ (m.insert (String.ofList entry.1).toList entry.2) _ = _
        rw [String.toList_ofList]
  have h := hfold entries ∅
  rw [← hmap, List.foldlM_map] at h
  unfold ofJson
  rw [hparts]
  exact h

theorem exists_keeps (m : TextLists) :
    ∃ m' : TextLists, m'.toList = m.toList ∧ Json.Keeps ofJson 2 m' m.toJson := by
  refine ⟨ofEntries m.toList, m.ofEntries_equiv.toList_eq, ?_, ofJson_entries m.toList⟩
  exact .object m.nodup_entryField (List.forall_mem_map.mpr fun entry _ =>
    (Json.keeps_texts 0 entry.2).toIsReadable)

end TextLists

/-- **A table of synonyms comes back from its value.** -/
theorem Synonyms.exists_keeps (s : Synonyms) :
    ∃ s' : Synonyms, s'.toList = s.toList ∧ Json.Keeps ofJson 2 s' s.toJson := by
  obtain ⟨m, hlist, hm⟩ := TextLists.exists_keeps s.table
  refine ⟨⟨m⟩, hlist, hm.toIsReadable, ?_⟩
  exact congrArg (Except.map Synonyms.mk) hm.decoded

end Phrasebook
