import Phrasebook.Graph.Validity
import Mathlib.Tactic.Common

/-!
Definitions by their keys.

Keys are ordered, by kind and then by name, and where no two definitions have the same key,
three things follow that are used throughout: a definition is found by its key and no other is,
there is one sorted order of the definitions, and it is the same for every order that they
come in.
-/

namespace Phrasebook

/-! ### The order of keys -/

namespace Key

theorem rank_injective {a b : Kind} (h : a.rank = b.rank) : a = b := by
  cases a <;> cases b <;> first | rfl | simp [Kind.rank] at h

theorem le_total (a b : Key) : (a.le b || b.le a) = true := by
  unfold le
  by_cases h : a.kind = b.kind
  · simpa [h] using String.le_total a.name b.name
  · have hrank : a.kind.rank ≠ b.kind.rank := fun hr => h (rank_injective hr)
    simp only [if_neg h, if_neg (Ne.symm h), Bool.or_eq_true, decide_eq_true_eq]
    omega

theorem le_trans (a b c : Key) (hab : a.le b = true) (hbc : b.le c = true) : a.le c = true := by
  unfold le at *
  by_cases h : a.kind = b.kind
  · rw [if_pos h, decide_eq_true_eq] at hab
    rw [h]
    by_cases h' : b.kind = c.kind
    · rw [if_pos h', decide_eq_true_eq] at hbc ⊢
      exact String.le_trans hab hbc
    · rw [if_neg h'] at hbc ⊢
      exact hbc
  · rw [if_neg h, decide_eq_true_eq] at hab
    by_cases h' : b.kind = c.kind
    · rw [← h', if_neg h, decide_eq_true_eq]
      exact hab
    · rw [if_neg h', decide_eq_true_eq] at hbc
      have hne : a.kind ≠ c.kind := by
        intro hac
        rw [hac] at hab
        omega
      rw [if_neg hne, decide_eq_true_eq]
      omega

theorem le_antisymm {a b : Key} (hab : a.le b = true) (hba : b.le a = true) : a = b := by
  unfold le at hab hba
  by_cases hkind : a.kind = b.kind
  · rw [if_pos hkind, decide_eq_true_eq] at hab
    rw [if_pos hkind.symm, decide_eq_true_eq] at hba
    have hname : a.name = b.name := String.le_antisymm hab hba
    cases a
    cases b
    simp_all
  · rw [if_neg hkind, decide_eq_true_eq] at hab
    rw [if_neg (Ne.symm hkind), decide_eq_true_eq] at hba
    omega

end Key

/-! ### Definitions by key -/

namespace Definition

variable {definitions : List Definition} {key : Key} {d : Definition}

theorem find?_cons (d : Definition) (below : List Definition) (key : Key) :
    find? (d :: below) key = if d.key = key then some d else find? below key := by
  rw [find?, List.find?_cons]
  by_cases h : d.key = key
  · simp [h]
  · rw [if_neg h, beq_eq_false_iff_ne.mpr h]
    rfl

theorem mem_of_find? (h : find? definitions key = some d) : d ∈ definitions :=
  List.mem_of_find?_eq_some h

theorem key_of_find? (h : find? definitions key = some d) : d.key = key := by
  simpa using List.find?_some h

theorem exists_find? (h : d ∈ definitions) : ∃ e, find? definitions d.key = some e := by
  have hsome : (find? definitions d.key).isSome := by
    rw [find?, List.find?_isSome]
    exact ⟨d, h, by simp⟩
  exact Option.isSome_iff_exists.mp hsome

/-- Where keys are not repeated, a definition is found by its own. -/
theorem find?_of_mem (hkeys : (definitions.map Definition.key).Nodup) (hd : d ∈ definitions) :
    find? definitions d.key = some d := by
  induction definitions with
  | nil => simp at hd
  | cons e rest ih =>
      rw [List.map_cons, List.nodup_cons] at hkeys
      rw [find?_cons]
      rcases List.mem_cons.mp hd with rfl | hd
      · simp
      · have hne : e.key ≠ d.key := fun h => hkeys.1 (h ▸ List.mem_map_of_mem hd)
        rw [if_neg hne]
        exact ih hkeys.2 hd

/-- Where keys are not repeated, definitions with the same key are the same. -/
theorem eq_of_key (hkeys : (definitions.map Definition.key).Nodup) {d d' : Definition}
    (hd : d ∈ definitions) (hd' : d' ∈ definitions) (hkey : d.key = d'.key) : d = d' := by
  have hfound := find?_of_mem hkeys hd'
  rw [← hkey, find?_of_mem hkeys hd] at hfound
  exact Option.some.inj hfound

theorem find?_eq_some_iff (hkeys : (definitions.map Definition.key).Nodup) :
    find? definitions key = some d ↔ d ∈ definitions ∧ d.key = key := by
  constructor
  · exact fun h => ⟨mem_of_find? h, key_of_find? h⟩
  · rintro ⟨hd, rfl⟩
    exact find?_of_mem hkeys hd

end Definition

/-! ### Definitions in order -/

namespace Definition

variable {definitions definitions' : List Definition}

/-- The definitions in the order of their keys. -/
def inOrder (definitions : List Definition) : List Definition :=
  definitions.mergeSort fun a b => a.key.le b.key

theorem inOrder_perm (definitions : List Definition) : (inOrder definitions).Perm definitions :=
  List.mergeSort_perm _ _

theorem nodup_key_inOrder (hkeys : (definitions.map key).Nodup) :
    ((inOrder definitions).map key).Nodup :=
  (((inOrder_perm definitions).map key).nodup_iff).mpr hkeys

theorem pairwise_inOrder (definitions : List Definition) :
    (inOrder definitions).Pairwise fun a b => a.key.le b.key = true :=
  List.pairwise_mergeSort (fun a b c => Key.le_trans a.key b.key c.key)
    (fun a b => Key.le_total a.key b.key) definitions

/-- Where keys are not repeated, a list has the same sorted order as every other order of it. -/
theorem inOrder_eq_of_perm (hkeys : (definitions.map key).Nodup)
    (hperm : definitions'.Perm definitions) : inOrder definitions' = inOrder definitions := by
  have hsorted : (inOrder definitions').Perm (inOrder definitions) :=
    (inOrder_perm definitions').trans (hperm.trans (inOrder_perm definitions).symm)
  refine hsorted.eq_of_pairwise (fun a b ha hb hab hba => ?_) (pairwise_inOrder definitions')
    (pairwise_inOrder definitions)
  exact eq_of_key (nodup_key_inOrder hkeys) (hsorted.subset ha) hb (Key.le_antisymm hab hba)

end Definition

end Phrasebook
