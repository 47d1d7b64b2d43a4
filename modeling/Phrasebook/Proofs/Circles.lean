import Phrasebook.Proofs.Graph
import Mathlib.Data.List.Chain
import Mathlib.Order.WellFounded

/-!
Circles of references.

The walk of `Graph.Layers` reports a circle when it comes back to a key on its path, and this
module says that it does so exactly when there is one.

  * What it reports is a circle.  The path to a definition is kept last key first, each key
    on it refers to the one in front of it, and no key stands on it twice; so the part of it
    from where the walk has come back to is a way from a key to itself.
  * If it reports none, there is none.  The definitions are then in layers, and along a
    reference one gets further down in them, which comes to an end.
-/

namespace Phrasebook

/-- Some rule of the definition with key `a`, be it ever used or not, refers to `b`: outside
all groups or in them, with or without a variation. -/
def Refers (definitions : List Definition) (a b : Key) : Prop :=
  ∃ d ∈ definitions, d.key = a ∧ ∃ m, .reference b m ∈ d.tokens

/-- A way along references from a key to itself that meets no other key twice. -/
structure IsCircle (definitions : List Definition) (path : List Key) : Prop where
  two_le : 2 ≤ path.length
  closed : path.head? = path.getLast?
  chain : path.IsChain (Refers definitions)
  nodup : path.tail.Nodup

theorem refers_iff {definitions : List Definition} {a b : Key} :
    Refers definitions a b ↔ ∃ d ∈ definitions, d.key = a ∧ b ∈ d.targets := by
  have hmem : ∀ d : Definition, b ∈ d.targets ↔ ∃ m, .reference b m ∈ d.tokens := by
    intro d
    constructor
    · intro hb
      obtain ⟨r, hr, rfl⟩ : ∃ r ∈ d.references, r.target = b := by
        simpa [Definition.targets] using hb
      exact ⟨r.modifiers, mem_referencesOfRules_iff.mp hr⟩
    · rintro ⟨m, hm⟩
      have hr : (⟨b, m⟩ : Reference) ∈ d.references := mem_referencesOfRules_iff.mpr hm
      exact Definition.target_mem_targets hr
  simp only [Refers, hmem]

/-- The order of the definitions makes no difference to what they refer to. -/
theorem refers_of_perm {definitions definitions' : List Definition}
    (hperm : definitions.Perm definitions') : Refers definitions = Refers definitions' := by
  funext a b
  simp only [Refers, hperm.mem_iff]

/-! ### A circle that is reported -/

namespace Definition

variable {definitions : List Definition}

/-- What the walk keeps of its way: it came along references, and never twice to one key. -/
structure IsWay (definitions : List Definition) (path : List Key) : Prop where
  nodup : path.Nodup
  chain : path.IsChain fun b a => Refers definitions a b

theorem IsWay.cons {path : List Key} {key : Key} (h : IsWay definitions path)
    (hnew : key ∉ path) (hfrom : ∀ last ∈ path.head?, Refers definitions last key) :
    IsWay definitions (key :: path) :=
  ⟨List.nodup_cons.mpr ⟨hnew, h.nodup⟩, List.isChain_cons.mpr ⟨hfrom, h.chain⟩⟩

/-- The circle is the way since the key, turned round, with the key at both ends. -/
theorem circle_append {since before : List Key} {key : Key} (hnew : key ∉ since) :
    circle (since ++ key :: before) key = (key :: since ++ [key]).reverse := by
  have htake : (since ++ key :: before).takeWhile (· ≠ key) = since := by
    have hall : ∀ k ∈ since, decide (k ≠ key) = true :=
      fun k hk => decide_eq_true fun heq => hnew (heq ▸ hk)
    rw [List.takeWhile_append_of_pos hall]
    simp
  rw [circle, htake]
  simp

/-- A reference back to the way closes a circle. -/
theorem IsWay.isCircle {path : List Key} {key : Key} (h : IsWay definitions path)
    (hmem : key ∈ path) (hfrom : ∀ last ∈ path.head?, Refers definitions last key) :
    IsCircle definitions (circle path key) := by
  obtain ⟨since, before, rfl, hnew⟩ := List.eq_append_cons_of_mem hmem
  have hclosed : (key :: (since ++ key :: before)).IsChain fun b a => Refers definitions a b :=
    List.isChain_cons.mpr ⟨hfrom, h.chain⟩
  have hbegin : key :: since ++ [key] <+: key :: (since ++ key :: before) := ⟨before, by simp⟩
  have hcircle : (key :: since ++ [key]).IsChain fun b a => Refers definitions a b :=
    List.IsChain.prefix hclosed hbegin
  have hinner : (since ++ [key]).Nodup :=
    h.nodup.sublist (List.IsPrefix.sublist ⟨before, by simp⟩)
  rw [circle_append hnew]
  refine ⟨by simp, ?_, List.isChain_reverse.mpr hcircle, ?_⟩
  · rw [List.head?_reverse, List.getLast?_reverse, List.getLast?_concat]
    rfl
  · rw [List.reverse_append, List.reverse_singleton, List.singleton_append, List.tail_cons,
      List.reverse_cons]
    exact ((List.reverse_perm since).append_right [key]).nodup_iff.mpr hinner

/-- **What a visit reports is a circle**, if it came its way along references. -/
theorem isCircle_of_visit (path : List Key) (finished : List Definition) (key : Key) :
    ∀ found, visit definitions path finished key = .error found → IsWay definitions path →
      (∀ last ∈ path.head?, Refers definitions last key) → IsCircle definitions found := by
  induction path, finished, key using visit.induct definitions with
  | case1 path finished key hdone =>
      intro found h
      rw [visit, if_pos hdone] at h
      injection h
  | case2 path finished key hdone hpath =>
      intro found h hway hfrom
      rw [visit, if_neg hdone, dif_pos hpath] at h
      obtain rfl : circle path key = found := by injection h
      exact hway.isCircle hpath hfrom
  | case3 path finished key hdone hpath hnone =>
      intro found h
      rw [visit, if_neg hdone, dif_neg hpath] at h
      split at h
      · injection h
      · rename_i hd
        simp [hnone] at hd
  | case4 path finished key hdone hpath d hd ih =>
      intro found h hway hfrom
      rw [visit_of_find? (by simpa using hdone) hpath hd] at h
      -- The definition itself is put in front without fail, so the fault lies below it.
      have hbelow : d.targets.foldlM (fun finished target =>
          visit definitions (key :: path) finished target) finished = .error found := by
        cases hfold : d.targets.foldlM (fun finished target =>
            visit definitions (key :: path) finished target) finished with
        | error found' =>
            rw [hfold] at h
            obtain rfl : found' = found := by injection h
            rfl
        | ok below =>
            rw [hfold] at h
            injection h
      obtain ⟨target, htarget, finished', hvisit⟩ := exists_of_foldlM_error _ _ hbelow
      refine ih finished' target found hvisit (hway.cons hpath hfrom) fun last hlast => ?_
      obtain rfl : key = last := Option.some.inj hlast
      exact refers_iff.mpr ⟨d, mem_of_find? hd, key_of_find? hd, htarget⟩

theorem isCircle_of_layers {found : List Key} (h : layers definitions = .error found) :
    IsCircle definitions found := by
  obtain ⟨d, -, finished, hvisit⟩ := exists_of_foldlM_error _ _ h
  exact isCircle_of_visit [] finished d.key found hvisit ⟨List.nodup_nil, .nil⟩ (by simp)

end Definition

/-- On a circle every step leads on, so its first key leads to itself. -/
theorem IsCircle.exists_transGen {definitions : List Definition} {path : List Key}
    (h : IsCircle definitions path) : ∃ key, Relation.TransGen (Refers definitions) key key := by
  obtain ⟨htwo, hclosed, hchain, -⟩ := h
  match path, htwo with
  | a :: b :: rest, _ =>
      obtain ⟨hfirst, hrest⟩ := List.isChain_cons_cons.mp hchain
      have hlast : (b :: rest).getLast (by simp) = a := by
        simpa [List.getLast?_eq_some_getLast, eq_comm] using hclosed
      exact ⟨a, .head' hfirst (List.relationReflTransGen_of_exists_isChain_cons rest hrest hlast)⟩

/-! ### A circle there is -/

/-- Along references one gets further down in the layers, and that comes to an end. -/
theorem Layered.acc {definitions layers : List Definition} (h : Layered layers)
    (hone : ∀ d ∈ definitions, ∀ e ∈ layers, d.key = e.key → d = e) :
    ∀ d ∈ layers, Acc (fun b a => Refers definitions a b) d.key := by
  induction layers with
  | nil => simp
  | cons d below ih =>
      have hbelow : ∀ e ∈ below, Acc (fun b a => Refers definitions a b) e.key :=
        ih h.2.2 fun e he e' he' => hone e he e' (List.mem_cons_of_mem d he')
      intro e he
      rcases List.mem_cons.mp he with rfl | he
      · refine Acc.intro _ fun key hrefers => ?_
        obtain ⟨e', he', hkey, m, hm⟩ := hrefers
        obtain rfl : e' = e := hone e' he' e (by simp) hkey
        obtain ⟨target, htarget, -⟩ := h.1 ⟨key, m⟩ (mem_referencesOfRules_iff.mpr hm)
        obtain rfl : target.key = key := Definition.key_of_find? htarget
        exact hbelow target (Definition.mem_of_find? htarget)
      · exact hbelow e he

/-- In a graph no way along references goes on for ever. -/
theorem Graph.Valid.wellFounded_refers {g : Graph} (hg : g.Valid) :
    WellFounded fun b a => Refers g.definitions a b := by
  have hone : ∀ d ∈ g.definitions, ∀ e ∈ g.layers, d.key = e.key → d = e :=
    fun d hd e he => Definition.eq_of_key hg.nodup_key hd ((hg.mem_layers e).mp he)
  refine ⟨fun key => Acc.intro key fun next hrefers => ?_⟩
  obtain ⟨d, hd, rfl, m, hm⟩ := hrefers
  exact (hg.layered.acc hone d ((hg.mem_layers d).mpr hd)).inv ⟨d, hd, rfl, m, hm⟩

theorem not_transGen_of_wellFounded {α : Type} {r : α → α → Prop}
    (h : WellFounded fun b a => r a b) (a : α) : ¬ Relation.TransGen r a a := by
  intro hcycle
  exact h.transGen.irrefl.irrefl a (Relation.transGen_swap.mpr hcycle)

/-! ### Circles and graphs -/

namespace Graph

variable {definitions : List Definition}

/-- The only thing that can be wrong with definitions that pass their checks is a circle. -/
theorem isCircle_of_ofDefinitions (hkeys : (definitions.map Definition.key).Nodup)
    (hchecked : ∀ d ∈ definitions, d.check definitions = .ok ()) {e : GraphError}
    (h : ofDefinitions definitions = .error e) :
    ∃ path, e = .cycle path ∧ IsCircle definitions path := by
  rw [ofDefinitions_of_checked hkeys hchecked] at h
  cases hlayers : Definition.layers (Definition.inOrder definitions) with
  | ok layers =>
      rw [hlayers] at h
      injection h
  | error path =>
      rw [hlayers] at h
      obtain rfl : .cycle path = e := by injection h
      obtain ⟨htwo, hclosed, hchain, hnodup⟩ := Definition.isCircle_of_layers hlayers
      rw [refers_of_perm (Definition.inOrder_perm definitions)] at hchain
      exact ⟨path, rfl, htwo, hclosed, hchain, hnodup⟩

theorem acyclic_of_ofDefinitions {g : Graph} (h : ofDefinitions definitions = .ok g) (key : Key) :
    ¬ Relation.TransGen (Refers definitions) key key := by
  have hwf := (valid_of_ofDefinitions h).wellFounded_refers
  rw [refers_of_perm (perm_of_ofDefinitions h)] at hwf
  exact not_transGen_of_wellFounded hwf key

/--
**The search for circles is right.**  Among definitions that are otherwise in order, a circle
is reported exactly if some key leads to itself along references, and nothing else is ever
reported.  The path is such a circle, and what comes out without a report is a graph, in which
no way along references goes on for ever.
-/
theorem ofDefinitions_cycle_iff (hkeys : (definitions.map Definition.key).Nodup)
    (hchecked : ∀ d ∈ definitions, d.check definitions = .ok ()) :
    ((∃ path, ofDefinitions definitions = .error (.cycle path)) ↔
      ∃ key, Relation.TransGen (Refers definitions) key key) ∧
    (∀ e, ofDefinitions definitions = .error e →
      ∃ path, e = .cycle path ∧ IsCircle definitions path) ∧
    ∀ g, ofDefinitions definitions = .ok g →
      WellFounded fun b a => Refers g.definitions a b := by
  have hreported : ∀ e, ofDefinitions definitions = .error e →
      ∃ path, e = .cycle path ∧ IsCircle definitions path :=
    fun e => isCircle_of_ofDefinitions hkeys hchecked
  refine ⟨⟨?_, ?_⟩, hreported, fun g h => (valid_of_ofDefinitions h).wellFounded_refers⟩
  · rintro ⟨path, h⟩
    obtain ⟨path, -, hcircle⟩ := hreported _ h
    exact hcircle.exists_transGen
  · rintro ⟨key, hcycle⟩
    cases h : ofDefinitions definitions with
    | error e =>
        obtain ⟨path, rfl, -⟩ := hreported e h
        exact ⟨path, rfl⟩
    | ok g => exact absurd hcycle (acyclic_of_ofDefinitions h key)

end Graph

/-! ### Two phrases that refer to each other -/

namespace Mirrors

/-- A phrase whose one reference stands in a group, in a rule that is never used. -/
def left : Definition where
  kind := .phrase
  name := "left"
  rules := [
    .mk [.word "x".toList .plain] .one none,
    .mk [.group [.mk [.reference ⟨.phrase, "right"⟩ .plain] .one none] .plain] .zero none]
  variations := []
  parameters := []
  directive := none

/-- A phrase that refers back in a variation that nothing asks for. -/
def right : Definition where
  kind := .phrase
  name := "right"
  rules := [.mk [.word "y".toList .plain] .one none]
  variations := [⟨"back", [.mk [.reference ⟨.phrase, "left"⟩ .plain] .one none]⟩]
  parameters := []
  directive := none

/-- The two are in order one by one, and no graph. -/
theorem ofDefinitions_eq_cycle :
    (([left, right].map Definition.key).Nodup ∧
      ∀ d ∈ [left, right], d.check [left, right] = .ok ()) ∧
    ∃ path, Graph.ofDefinitions [left, right] = .error (.cycle path) ∧
      IsCircle [left, right] path := by
  have hkeys : ([left, right].map Definition.key).Nodup := by
    simp [left, right, Definition.key]
  have hleft : left.check [left, right] = .ok () := ok_of_toOption (by decide +kernel)
  have hright : right.check [left, right] = .ok () := ok_of_toOption (by decide +kernel)
  have hchecked : ∀ d ∈ [left, right], d.check [left, right] = .ok () := by
    simp [hleft, hright]
  have hthere : Refers [left, right] left.key right.key :=
    ⟨left, by simp, rfl, .plain, by simp [Definition.tokens, Definition.allRules, left, right,
      tokensWithinRules, tokensWithin, tokensWithinToken, Definition.key]⟩
  have hback : Refers [left, right] right.key left.key :=
    ⟨right, by simp, rfl, .plain, by simp [Definition.tokens, Definition.allRules, left, right,
      tokensWithinRules, tokensWithin, tokensWithinToken, Definition.key]⟩
  obtain ⟨hiff, hcircle, -⟩ := Graph.ofDefinitions_cycle_iff hkeys hchecked
  obtain ⟨path, hpath⟩ := hiff.mpr ⟨left.key, .head hthere (.single hback)⟩
  obtain ⟨path', heq, hpath'⟩ := hcircle _ hpath
  obtain rfl : path = path' := by injection heq
  exact ⟨⟨hkeys, hchecked⟩, path, hpath, hpath'⟩

end Mirrors

end Phrasebook
