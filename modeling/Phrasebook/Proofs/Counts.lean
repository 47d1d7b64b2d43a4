import Phrasebook.Generation.Counting
import Phrasebook.Proofs.Enumeration
import Phrasebook.Proofs.Possibilities

/-!
What the counts that are kept say.

A count is kept for a place, and a place has sentences: those of all rules of a definition,
those of one of its variations, or those of a group somewhere inside.  `Counts.Sound` says
of every count kept for the graph that it bounds the number of sentences of its place.

One place serves every use, whatever arguments the use passes, and different arguments can
make different numbers of sentences.  So the invariant has a parameter: which arguments a
definition may be used with.  A count that was computed is good for all arguments, one that
was corrected only for those of the enumeration it was corrected from.
-/

namespace Phrasebook

/-! ### Looking up and keeping -/

namespace Counts

@[simp] theorem get?_empty (place : Place) : empty.get? place = none := by
  simp [empty, get?]

theorem get?_set (c : Counts) (place place' : Place) (p : Possibilities) :
    (c.set place p).get? place' = if place = place' then some p else c.get? place' := by
  unfold get? set
  rw [Std.HashMap.getElem?_insert]
  simp

theorem get?_erase (c : Counts) (place place' : Place) :
    (c.erase place).get? place' = if place = place' then none else c.get? place' := by
  unfold get? erase
  rw [Std.HashMap.getElem?_erase]
  simp

/-- What is known after a count was kept for a part of a definition is this count, or was known
before. -/
theorem get?_set_cases {c : Counts} {key key' : Key} {part part' : Part} {p p' : Possibilities}
    (h : (c.set ⟨.unit key, part⟩ p).get? ⟨.unit key', part'⟩ = some p') :
    (key = key' ∧ part = part' ∧ p = p') ∨ c.get? ⟨.unit key', part'⟩ = some p' := by
  rw [get?_set] at h
  split at h
  · rename_i heq
    obtain ⟨hkey, hpart⟩ : key = key' ∧ part = part' := by simpa using heq
    exact Or.inl ⟨hkey, hpart, Option.some.inj h⟩
  · exact Or.inr h

end Counts

/-- What is looked up leaves the table as it is, and what is computed is kept in it. -/
theorem Counts.succeeds_remember {ε : Type} {place : Place}
    {compute : ExceptT ε (StateM Counts) Possibilities} {c : Counts}
    {R : Possibilities → Counts → Prop} (hknown : ∀ p, c.get? place = some p → R p c)
    (hcompute : c.get? place = none → Succeeds compute c fun p c' => R p (c'.set place p)) :
    Succeeds (remember place compute) c R := by
  unfold remember
  refine Succeeds.bind (R := fun a c' => c = a ∧ c = c') ⟨_, _, rfl, rfl, rfl⟩ ?_
  rintro _ _ ⟨rfl, rfl⟩
  cases hget : c.get? place with
  | some p => exact Succeeds.pure (hknown p hget)
  | none =>
      refine Succeeds.bind (hcompute hget) fun p c' hR => ?_
      exact ⟨p, c'.set place p, rfl, hR⟩

/-- A count that is known is not computed again. -/
theorem Counts.succeeds_remember_of_some {ε : Type} {place : Place}
    {compute : ExceptT ε (StateM Counts) Possibilities} {c : Counts} {p : Possibilities}
    (h : c.get? place = some p) :
    Succeeds (remember place compute) c fun p' c' => p' = p ∧ c' = c := by
  refine succeeds_remember (fun p' h' => ?_) fun h' => ?_
  · rw [h] at h'
    exact ⟨(Option.some.inj h').symm, rfl⟩
  · rw [h] at h'
    injection h'

/-- A count that is not known is computed and kept. -/
theorem Counts.succeeds_remember_of_none {ε : Type} {place : Place}
    {compute : ExceptT ε (StateM Counts) Possibilities} {c : Counts} {p : Possibilities}
    (h : c.get? place = none) (hcompute : Succeeds compute c fun p' _ => p' = p) :
    Succeeds (remember place compute) c fun p' c' => p' = p ∧ c'.get? place = some p := by
  refine succeeds_remember (fun p' h' => ?_) fun _ => ?_
  · rw [h] at h'
    injection h'
  · obtain ⟨p', c', hrun, rfl⟩ := hcompute
    exact ⟨p', c', hrun, rfl, by rw [Counts.get?_set, if_pos rfl]⟩

/-- A count that can be computed can be looked up or computed. -/
theorem Counts.returns_remember {ε : Type} {place : Place}
    {compute : ExceptT ε (StateM Counts) Possibilities} (h : Returns compute) :
    Returns (remember place compute) := by
  intro c
  cases hget : c.get? place with
  | some p =>
      obtain ⟨p', c', hrun, -⟩ := succeeds_remember_of_some hget
      exact ⟨p', c', hrun, trivial⟩
  | none =>
      obtain ⟨p, c', hcompute, -⟩ := h c
      obtain ⟨p', c'', hrun, -⟩ := succeeds_remember_of_none hget ⟨p, c', hcompute, rfl⟩
      exact ⟨p', c'', hrun, trivial⟩

namespace Ensures

/-- A count that is known, or computed and kept, is as good as both are. -/
theorem remember {ε : Type} {I : Counts → Prop} {place : Place}
    {compute : ExceptT ε (StateM Counts) Possibilities} {Q : Possibilities → Prop}
    (hknown : ∀ c p, I c → c.get? place = some p → Q p) (hcompute : Ensures I compute Q)
    (hset : ∀ c p, I c → Q p → I (c.set place p)) :
    Ensures I (Counts.remember place compute) Q := by
  unfold Counts.remember
  refine Ensures.bind Ensures.get fun c hc => ?_
  cases hget : c.get? place with
  | some p => exact Ensures.pure (hknown c p hc hget)
  | none =>
      refine Ensures.bind hcompute fun p hp => ?_
      refine Ensures.bind (Q := fun _ => True) (Ensures.modify fun c hc => hset c p hc hp) ?_
      exact fun _ _ => Ensures.pure hp

end Ensures

/-- Listing all sentences changes nothing but the count of the item. -/
theorem Item.ensures_all {g : Graph} {item : Item} {I : Counts → Prop}
    (hrecord : ∀ c es, I c → item.enumerate g = .ok es → I (item.record es.length c)) :
    Ensures I (item.all g) fun es => item.enumerate g = .ok es := by
  unfold Item.all
  refine Ensures.bind (Ensures.liftExcept fun es hes => hes) fun es hes => ?_
  refine Ensures.bind (Q := fun _ => True)
    (Ensures.modify fun c hc => hrecord c es hc hes) fun _ _ => ?_
  exact Ensures.pure hes

/-- Whatever is known of their number, all sentences are those that are enumerated. -/
theorem Item.run_all (g : Graph) (item : Item) (c : Counts) :
    ((item.all g).run c).1 = item.enumerate g := by
  unfold Item.all
  cases item.enumerate g <;> rfl

/-- What is enumerated is listed, and its number recorded. -/
theorem Item.succeeds_all {g : Graph} {item : Item} {es : List Example}
    (h : item.enumerate g = .ok es) (c : Counts) :
    Succeeds (item.all g) c fun es' c' => es' = es ∧ c' = item.record es.length c := by
  refine ⟨es, item.record es.length c, ?_, rfl, rfl⟩
  unfold Item.all
  rw [h]
  rfl

/-! ### Places -/

/-- Where the count of a definition as a whole is kept. -/
def Key.whole (key : Key) : Place := ⟨.unit key, .whole⟩

/-- The rules of the group at a path, which begins in the given rules. -/
def rulesUnder (rules : List Rule) : List Nat → Option (List Rule)
  | [] => some rules
  | [_] => none
  | i :: j :: path =>
    match rules[i]?.bind (·.tokens[j]?) with
    | some (.group inner _) => rulesUnder inner path
    | _ => none

theorem rulesUnder_append {rules inner : List Rule} {rule : Rule} {m : Modifiers} {i j : Nat}
    (hrule : rules[i]? = some rule) (htoken : rule.tokens[j]? = some (.group inner m))
    {all : List Rule} {path : List Nat} (hpath : rulesUnder all path = some rules) :
    rulesUnder all (path ++ [i] ++ [j]) = some inner := by
  induction all, path using rulesUnder.induct with
  | case1 all =>
      obtain rfl : all = rules := by simpa [rulesUnder] using hpath
      simp [rulesUnder, hrule, htoken]
  | case2 all k => simp [rulesUnder] at hpath
  | case3 all k l path outer m' houter ih =>
      rw [rulesUnder, houter] at hpath
      simp only [List.cons_append]
      rw [rulesUnder, houter]
      exact ih hpath
  | case4 all k l path hnone =>
      rw [rulesUnder] at hpath
      split at hpath
      · rename_i inner' m' houter
        exact absurd houter (hnone inner' m')
      · injection hpath

/-- Whatever stands in a group at a path stands in the rules that the path begins in. -/
theorem tokens_of_rulesUnder {rules all : List Rule} {path : List Nat}
    (hpath : rulesUnder all path = some rules) :
    ∀ token ∈ tokensWithinRules rules, token ∈ tokensWithinRules all := by
  induction all, path using rulesUnder.induct with
  | case1 all =>
      obtain rfl : all = rules := by simpa [rulesUnder] using hpath
      exact fun token htoken => htoken
  | case2 all k => simp [rulesUnder] at hpath
  | case3 all k l path outer m houter ih =>
      rw [rulesUnder, houter] at hpath
      intro token htoken
      obtain ⟨rule, hrule, hl⟩ := Option.bind_eq_some_iff.mp houter
      have hgroup : token ∈ tokensWithinToken (.group outer m) := by
        rw [tokensWithinToken]
        exact List.mem_cons_of_mem _ (ih hpath token htoken)
      exact mem_tokensWithinRules.mpr ⟨rule, List.mem_of_getElem? hrule,
        mem_tokensWithin.mpr ⟨_, List.mem_of_getElem? hl, hgroup⟩⟩
  | case4 all k l path hnone =>
      rw [rulesUnder] at hpath
      split at hpath
      · rename_i inner m houter
        exact absurd houter (hnone inner m)
      · injection hpath

/-- At a path that goes somewhere there is a group. -/
theorem group_of_rulesUnder {rules all : List Rule} {path : List Nat}
    (hpath : rulesUnder all path = some rules) (hne : path ≠ []) :
    ∃ m, .group rules m ∈ tokensWithinRules all := by
  induction all, path using rulesUnder.induct with
  | case1 all => exact absurd rfl hne
  | case2 all k => simp [rulesUnder] at hpath
  | case3 all k l path outer m houter ih =>
      rw [rulesUnder, houter] at hpath
      obtain ⟨rule, hrule, hl⟩ := Option.bind_eq_some_iff.mp houter
      have hwithin : ∀ token ∈ tokensWithinToken (.group outer m), token ∈ tokensWithinRules all :=
        fun token htoken => mem_tokensWithinRules.mpr ⟨rule, List.mem_of_getElem? hrule,
          mem_tokensWithin.mpr ⟨_, List.mem_of_getElem? hl, htoken⟩⟩
      by_cases hend : path = []
      · obtain rfl := hend
        obtain rfl : outer = rules := by simpa [rulesUnder] using hpath
        exact ⟨m, hwithin _ (self_mem_tokensWithinToken _)⟩
      · obtain ⟨m', hgroup⟩ := ih hpath hend
        refine ⟨m', hwithin _ ?_⟩
        rw [tokensWithinToken]
        exact List.mem_cons_of_mem _ hgroup
  | case4 all k l path hnone =>
      rw [rulesUnder] at hpath
      split at hpath
      · rename_i inner m houter
        exact absurd houter (hnone inner m)
      · injection hpath

namespace Definition

/-- The rules of a part of a definition. -/
def rulesAt (d : Definition) : Part → Option (List Rule)
  | .whole => some d.allRules
  | .variation k => d.variations[k]?.map (·.rules)
  | .group path => rulesUnder d.allRules path

/-- Whatever stands in a part of a definition stands in the definition. -/
theorem tokens_of_rulesAt {d : Definition} {part : Part} {rules : List Rule}
    (h : d.rulesAt part = some rules) : ∀ token ∈ tokensWithinRules rules, token ∈ d.tokens := by
  cases part with
  | whole =>
      obtain rfl : d.allRules = rules := Option.some.inj h
      exact fun token htoken => htoken
  | variation k =>
      obtain ⟨v, hv, rfl⟩ := Option.map_eq_some_iff.mp h
      intro token htoken
      obtain ⟨rule, hrule, hmem⟩ := mem_tokensWithinRules.mp htoken
      have hall : rule ∈ d.allRules := List.mem_append_right _
        (List.mem_flatMap.mpr ⟨v, List.mem_of_getElem? hv, hrule⟩)
      exact mem_tokensWithinRules.mpr ⟨rule, hall, hmem⟩
  | group path => exact tokens_of_rulesUnder h

/-- The sentences of a part of a definition, where it is used with arguments.  What the kind
of the definition makes of them does not matter for their number. -/
def sentencesAt (answer : String → Reference → Sentences) (d : Definition) (part : Part)
    (arguments : List Text) : Sentences :=
  distinct <$> enumerateRules answer (.ofDefinition d arguments) (fun _ e => e)
    ((d.rulesAt part).getD [])

/-- Whatever a part of a definition refers to, the definition does. -/
theorem references_of_rulesAt {d : Definition} {part : Part} {rules : List Rule}
    (h : d.rulesAt part = some rules) : ∀ r ∈ referencesOfRules rules, r ∈ d.references := by
  intro r hr
  exact mem_referencesOfRules_iff.mpr (tokens_of_rulesAt h _ (mem_referencesOfRules_iff.mp hr))

/-- What is counted for a use is what the use chooses from, by its place and by its index
among all rules. -/
theorem counted_spec {d : Definition} {variation : Option String} {rules : List Rule}
    {first : Nat} {part : Part} (h : d.counted variation = .ok (rules, first, part)) :
    d.select variation = .ok rules ∧ d.rulesAt part = some rules ∧
      rules <+: d.allRules.drop first := by
  unfold counted at h
  cases variation with
  | none =>
      obtain ⟨rfl, rfl, rfl⟩ : d.allRules = rules ∧ 0 = first ∧ Part.whole = part := by
        simpa using h
      exact ⟨rfl, rfl, List.prefix_refl _⟩
  | some name =>
      simp only at h
      split at h
      · injection h
      · rename_i k hk
        obtain ⟨hlt, hname, hfirst⟩ := List.findIdx?_eq_some_iff_getElem.mp hk
        obtain ⟨rfl, rfl, rfl⟩ : d.variations[k].rules = rules ∧
            d.rules.length + ((d.variations.take k).map (·.rules.length)).sum = first ∧
            Part.variation k = part := by
          simpa [hlt] using h
        have hfound : d.variation? name = some d.variations[k] :=
          List.find?_eq_some_iff_getElem.mpr ⟨hname, k, hlt, rfl, fun j hj => by
            simpa using hfirst j hj⟩
        refine ⟨by simp [select, hfound], by simp [rulesAt, hlt], ?_⟩
        have hsplit : d.allRules = (d.rules ++ (d.variations.take k).flatMap (·.rules)) ++
            (d.variations[k].rules ++ (d.variations.drop (k + 1)).flatMap (·.rules)) := by
          rw [allRules, List.append_assoc, ← List.flatMap_cons, List.getElem_cons_drop,
            ← List.flatMap_append, List.take_append_drop]
        rw [hsplit, List.drop_left' (by simp [List.length_flatMap])]
        exact List.prefix_append _ _

/-- What a use chooses from can be counted. -/
theorem exists_counted {d : Definition} {variation : Option String} {rules : List Rule}
    (h : d.select variation = .ok rules) : ∃ counted, d.counted variation = .ok counted := by
  cases variation with
  | none => exact ⟨_, rfl⟩
  | some name =>
      cases hfind : d.variations.findIdx? (·.name == name) with
      | some k => exact ⟨_, by rw [counted, hfind]⟩
      | none =>
          have hnone : d.variation? name = none := by
            simpa [variation?] using List.findIdx?_eq_none_iff.mp hfind
          simp [select, hnone] at h

/-- A use has as many sentences as the part that it chooses from. -/
theorem length_enumerate {answer : String → Reference → Sentences} {d : Definition}
    {variation : Option String} {arguments : List Text} {rules : List Rule} {part : Part}
    (hselect : d.select variation = .ok rules) (hpart : d.rulesAt part = some rules) :
    List.length <$> d.enumerate answer variation arguments =
      List.length <$> d.sentencesAt answer part arguments := by
  have hkeys := map_key_enumerateRules answer (.ofDefinition d arguments) d.finish
    (fun _ e => e) d.key_finish rules
  unfold enumerate sentencesAt
  rw [hselect, hpart, Option.getD_some]
  rcases map_eq_map_cases hkeys with ⟨e, hx, hy⟩ | ⟨xs, ys, hx, hy, hlength⟩
  · rw [hy]
    exact congrArg (fun x => List.length <$> (distinct <$> x)) hx
  · rw [hy]
    refine (congrArg (fun x => List.length <$> (distinct <$> x)) hx).trans ?_
    exact congrArg Except.ok (length_distinct_congr hlength)

end Definition

/-- The sentences of a part of the definition with a key, along the layers. -/
def sentencesIn : List Definition → Key → Part → List Text → Sentences
  | [], key, _, _ => .error (.unresolved key.name key)
  | d :: below, key, part, arguments =>
    if d.key = key then d.sentencesAt (enumerateIn below) part arguments
    else sentencesIn below key part arguments

theorem sentencesIn_of_suffix {layers below : List Definition} {d : Definition}
    (hl : Layered layers) (hs : d :: below <:+ layers) (part : Part) (arguments : List Text) :
    sentencesIn layers d.key part arguments = d.sentencesAt (enumerateIn below) part arguments := by
  induction layers with
  | nil => simp at hs
  | cons e rest ih =>
      obtain ⟨-, hkey, hrest⟩ := hl
      rw [sentencesIn]
      rcases List.suffix_cons_iff.mp hs with heq | hs
      · obtain ⟨rfl, rfl⟩ := List.cons.inj heq
        rw [if_pos rfl]
      · have hne : e.key ≠ d.key := by
          intro h
          exact hkey (h ▸ List.mem_map_of_mem (hs.subset (by simp)))
        rw [if_neg hne]
        exact ih hrest hs

/-! ### Sound counts -/

section

variable (layers : List Definition) (allowed : Key → List Text → Prop) (cap : Nat)

/-- The count bounds the number of sentences of a part, whatever allowed arguments the
definition is used with. -/
def Possibilities.BoundsPart (key : Key) (part : Part) (p : Possibilities) : Prop :=
  ∀ arguments es, allowed key arguments → sentencesIn layers key part arguments = .ok es →
    p.Bounds cap es.length

/-- Every count kept for a part of a definition bounds it. -/
def Counts.Sound (c : Counts) : Prop :=
  ∀ key part p, c.get? ⟨.unit key, part⟩ = some p → p.BoundsPart layers allowed cap key part

end

namespace Counts.Sound

variable {layers : List Definition} {allowed : Key → List Text → Prop} {cap : Nat}

theorem empty : Counts.empty.Sound layers allowed cap := by
  intro key part p h
  simp at h

theorem set {c : Counts} (hc : c.Sound layers allowed cap) {key : Key} {part : Part}
    {p : Possibilities} (hp : p.BoundsPart layers allowed cap key part) :
    (c.set ⟨.unit key, part⟩ p).Sound layers allowed cap := by
  intro key' part' p' h
  rcases Counts.get?_set_cases h with ⟨rfl, rfl, rfl⟩ | h
  · exact hp
  · exact hc key' part' p' h

end Counts.Sound

end Phrasebook
