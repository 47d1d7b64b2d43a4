import Phrasebook.Generation.Enumeration
import Phrasebook.Proofs.Checks

/-!
What the definitions of a graph have in common.

`Graph.ofDefinitions` refuses whatever is not in order, so of every graph it returns we know
more than its type says: no two definitions have the same key, the definitions stand in the
order of their keys, each of them passed its checks, and in the layers every use names a
definition further down and rules of it.  `Graph.Valid` is the list of these facts, and
nothing else about how a graph comes about is used elsewhere.

The one fact with an argument behind it is that about the layers: the walk along the
references keeps it, because a definition is put in front only when all that it refers to is
finished.
-/

namespace Phrasebook

/-! ### Uses and layers -/

/-- The use names one of the definitions, and rules of it. -/
def Reference.Resolves (definitions : List Definition) (r : Reference) : Prop :=
  ∃ d, Definition.find? definitions r.target = some d ∧
    ∃ rules, d.select r.modifiers.variation = .ok rules

/-- A use takes all rules, or those of a variation that is there. -/
theorem Definition.exists_select {d : Definition} {variation : Option String}
    (h : ∀ name ∈ variation, ∃ v ∈ d.variations, v.name = name) :
    ∃ rules, d.select variation = .ok rules := by
  unfold select
  cases hname : variation with
  | none => exact ⟨d.allRules, rfl⟩
  | some name =>
      obtain ⟨v, hv⟩ := Option.ne_none_iff_exists'.mp (variation?_ne_none_iff.mpr (h name hname))
      exact ⟨v.rules, by simp only [hv]⟩

theorem Reference.IsAnswered.resolves {definitions : List Definition} {r : Reference}
    (hkeys : (definitions.map Definition.key).Nodup) (h : r.IsAnswered definitions) :
    r.Resolves definitions := by
  obtain ⟨d, hd, hkey, hvariation, -⟩ := h
  exact ⟨d, (Definition.find?_eq_some_iff hkeys).mpr ⟨hd, hkey⟩,
    Definition.exists_select hvariation⟩

/-- Every use in a well-formed definition is answered by the definitions. -/
theorem Definition.WellFormed.resolves {definitions : List Definition} {d : Definition}
    (hkeys : (definitions.map Definition.key).Nodup) (h : d.WellFormed definitions) :
    ∀ r ∈ d.references, r.Resolves definitions :=
  fun r hr => (h.references r.target r.modifiers (mem_referencesOfRules_iff.mp hr)).resolves hkeys

/-- Every use in a definition is answered by those behind it, and no key comes again. -/
def Layered : List Definition → Prop
  | [] => True
  | d :: below =>
    (∀ r ∈ d.references, r.Resolves below) ∧ d.key ∉ below.map Definition.key ∧ Layered below

namespace Layered

theorem nodup_key {layers : List Definition} (h : Layered layers) :
    (layers.map Definition.key).Nodup := by
  induction layers with
  | nil => simp
  | cons d below ih =>
      obtain ⟨-, hkey, hbelow⟩ := h
      exact List.nodup_cons.mpr ⟨hkey, ih hbelow⟩

theorem of_suffix {layers below : List Definition} (h : Layered layers)
    (hs : below <:+ layers) : Layered below := by
  induction layers with
  | nil =>
      obtain rfl := List.suffix_nil.mp hs
      exact h
  | cons e rest ih =>
      rcases List.suffix_cons_iff.mp hs with rfl | hs
      · exact h
      · exact ih h.2.2 hs

/-- What is answered further down is not the use of the definition on top. -/
theorem key_ne_of_resolves {d : Definition} {below : List Definition} {r : Reference}
    (h : Layered (d :: below)) (hr : r.Resolves below) : d.key ≠ r.target := by
  obtain ⟨-, hkey, -⟩ := h
  obtain ⟨e, he, -⟩ := hr
  rw [← Definition.key_of_find? he]
  exact fun heq => hkey (heq ▸ List.mem_map_of_mem (Definition.mem_of_find? he))

/-- Every use in one of the layers is answered by the layers. -/
theorem resolves {layers : List Definition} (h : Layered layers) :
    ∀ d ∈ layers, ∀ r ∈ d.references, r.Resolves layers := by
  induction layers with
  | nil => simp
  | cons e below ih =>
      intro d hd r hr
      have hr : r.Resolves below := by
        rcases List.mem_cons.mp hd with rfl | hd
        · exact h.1 r hr
        · exact ih h.2.2 d hd r hr
      have hne := h.key_ne_of_resolves hr
      obtain ⟨d', hd', hrules⟩ := hr
      exact ⟨d', by rw [Definition.find?_cons, if_neg hne, hd'], hrules⟩

/--
**Induction along the layers.**  A use is answered by the definition on top, if it is one of
it, and then something may be taken for granted of the uses in that definition, further down;
or else by the layers behind.
-/
@[elab_as_elim]
theorem use_induction
    {motive : ∀ (layers : List Definition) (r : Reference), Layered layers →
      r.Resolves layers → Prop}
    (asked : ∀ (d : Definition) (below : List Definition) (r : Reference) (rules : List Rule)
      (hl : Layered (d :: below)) (hr : r.Resolves (d :: below)), d.key = r.target →
      d.select r.modifiers.variation = .ok rules →
      (∀ (r' : Reference) (hr' : r' ∈ d.references), motive below r' hl.2.2 (hl.1 r' hr')) →
      motive (d :: below) r hl hr)
    (passed : ∀ (d : Definition) (below : List Definition) (r : Reference)
      (hl : Layered (d :: below)) (hr : r.Resolves (d :: below)) (hbelow : r.Resolves below),
      d.key ≠ r.target → motive below r hl.2.2 hbelow → motive (d :: below) r hl hr)
    (layers : List Definition) (r : Reference) (hl : Layered layers) (hr : r.Resolves layers) :
    motive layers r hl hr := by
  induction layers generalizing r with
  | nil =>
      obtain ⟨d, hd, -⟩ := hr
      simp [Definition.find?] at hd
  | cons d below ih =>
      obtain ⟨e, he, rules, hselect⟩ := id hr
      rw [Definition.find?_cons] at he
      by_cases hkey : d.key = r.target
      · rw [if_pos hkey] at he
        obtain rfl : d = e := Option.some.inj he
        exact asked d below r rules hl hr hkey hselect fun r' hr' => ih r' hl.2.2 (hl.1 r' hr')
      · rw [if_neg hkey] at he
        have hbelow : r.Resolves below := ⟨e, he, rules, hselect⟩
        exact passed d below r hl hr hbelow hkey (ih r hl.2.2 hbelow)

/-- A definition stands in one place of the layers only. -/
theorem eq_of_suffix {layers below below' : List Definition} {d d' : Definition}
    (h : Layered layers) (hs : d :: below <:+ layers) (hs' : d' :: below' <:+ layers)
    (hkey : d.key = d'.key) : d = d' ∧ below = below' := by
  induction layers with
  | nil => simp at hs
  | cons e rest ih =>
      obtain ⟨-, hnot, hrest⟩ := h
      have hmem : ∀ {d below}, d :: below <:+ rest → d.key ∈ rest.map Definition.key :=
        fun hs => List.mem_map_of_mem (hs.subset (by simp))
      rcases List.suffix_cons_iff.mp hs with heq | hin
      · obtain ⟨rfl, rfl⟩ := List.cons.inj heq
        rcases List.suffix_cons_iff.mp hs' with heq' | hin'
        · obtain ⟨rfl, rfl⟩ := List.cons.inj heq'
          exact ⟨rfl, rfl⟩
        · exact absurd (hkey ▸ hmem hin') hnot
      · rcases List.suffix_cons_iff.mp hs' with heq' | hin'
        · obtain ⟨rfl, rfl⟩ := List.cons.inj heq'
          exact absurd (hkey ▸ hmem hin) hnot
        · exact ih hrest hin hin'

end Layered

/-! ### The walk along the references -/

namespace Definition

/-- What the walk has finished: layers, of definitions found by their keys. -/
structure Finished (definitions finished : List Definition) : Prop where
  layered : Layered finished
  found : ∀ d ∈ finished, find? definitions d.key = some d

variable {definitions : List Definition}

/-- What is new among the finished definitions is not on the path. -/
structure Extends (path : List Key) (finished finished' : List Definition) : Prop where
  subset : finished ⊆ finished'
  new : ∀ d ∈ finished', d ∈ finished ∨ d.key ∉ path

namespace Extends

variable {path : List Key} {a b c : List Definition}

theorem refl : Extends path a a := ⟨List.Subset.refl a, fun _ hd => Or.inl hd⟩

theorem trans (hab : Extends path a b) (hbc : Extends path b c) : Extends path a c := by
  refine ⟨List.Subset.trans hab.subset hbc.subset, fun d hd => ?_⟩
  rcases hbc.new d hd with hd | hd
  · exact hab.new d hd
  · exact Or.inr hd

/-- A definition that is being visited is not finished meanwhile. -/
theorem notMem_of_path {key : Key} (h : Extends (key :: path) a b)
    (hnew : key ∉ a.map Definition.key) : key ∉ b.map Definition.key := by
  intro hmem
  obtain ⟨e, he, hkey⟩ := List.mem_map.mp hmem
  rcases h.new e he with he | hnot
  · exact hnew (List.mem_map.mpr ⟨e, he, hkey⟩)
  · exact hnot (by simp [hkey])

theorem cons {d : Definition} (h : Extends (d.key :: path) a b) (hpath : d.key ∉ path) :
    Extends path a (d :: b) := by
  refine ⟨List.subset_cons_of_subset d h.subset, fun e he => ?_⟩
  rcases List.mem_cons.mp he with rfl | he
  · exact Or.inr hpath
  · rcases h.new e he with he | hnot
    · exact Or.inl he
    · exact Or.inr fun hmem => hnot (List.mem_cons_of_mem _ hmem)

end Extends

/-- A definition may be put in front when all that it refers to is finished. -/
theorem Finished.cons {d : Definition} {finished : List Definition}
    (h : Finished definitions finished) (hd : find? definitions d.key = some d)
    (hnew : d.key ∉ finished.map key) (huses : ∀ r ∈ d.references, r.Resolves finished) :
    Finished definitions (d :: finished) := by
  refine ⟨⟨huses, hnew, h.layered⟩, fun e he => ?_⟩
  rcases List.mem_cons.mp he with rfl | he
  · exact hd
  · exact h.found e he

/-- Definitions that are found by their keys answer what all definitions answer, if they have
the key. -/
theorem resolves_of_found {finished : List Definition} {r : Reference}
    (hfound : ∀ d ∈ finished, find? definitions d.key = some d) (hr : r.Resolves definitions)
    (hmem : r.target ∈ finished.map key) : r.Resolves finished := by
  obtain ⟨d, hd, hselect⟩ := hr
  obtain ⟨e, he, hkey⟩ := List.mem_map.mp hmem
  obtain ⟨e', he'⟩ := exists_find? he
  rw [hkey] at he'
  have hsame : find? definitions r.target = some e' := by
    rw [← key_of_find? he']
    exact hfound e' (mem_of_find? he')
  obtain rfl : d = e' := Option.some.inj (hd.symm.trans hsame)
  exact ⟨d, he', hselect⟩

theorem target_mem_targets {d : Definition} {r : Reference} (hr : r ∈ d.references) :
    r.target ∈ d.targets := by
  unfold targets
  rw [List.mem_eraseDups, List.mem_mergeSort]
  exact List.mem_map_of_mem hr

theorem visit_of_finished {path : List Key} {finished : List Definition} {key : Key}
    (h : key ∈ finished.map Definition.key) :
    visit definitions path finished key = .ok finished := by
  rw [visit, if_pos (by simpa using h)]

/-- A visit finishes what the definition refers to, and then puts the definition in front. -/
theorem visit_of_find? {path : List Key} {finished : List Definition} {key : Key}
    {d : Definition} (hdone : key ∉ finished.map Definition.key) (hpath : key ∉ path)
    (hd : find? definitions key = some d) :
    visit definitions path finished key =
      d.targets.foldlM (fun finished target => visit definitions (key :: path) finished target)
        finished >>= fun finished => .ok (d :: finished) := by
  rw [visit, if_neg (by simpa using hdone), dif_neg hpath]
  split
  · rename_i hnone
    simp [hnone] at hd
  · rename_i d' hd'
    obtain rfl : d = d' := Option.some.inj (hd.symm.trans hd')
    rfl

/-- What one visit does, several do one after the other. -/
theorem foldlM_visit {path : List Key} (keys : List Key)
    (hvisit : ∀ key ∈ keys, ∀ finished finished',
      visit definitions path finished key = .ok finished' →
      Finished definitions finished → Finished definitions finished' ∧
        Extends path finished finished' ∧
        ((find? definitions key).isSome → key ∈ finished'.map Definition.key)) :
    ∀ finished finished',
      keys.foldlM (fun finished key => visit definitions path finished key) finished
        = .ok finished' →
      Finished definitions finished → Finished definitions finished' ∧
        Extends path finished finished' ∧
        ∀ key ∈ keys, (find? definitions key).isSome → key ∈ finished'.map Definition.key := by
  induction keys with
  | nil =>
      intro finished finished' h hf
      obtain rfl : finished = finished' := by injection h
      exact ⟨hf, Extends.refl, by simp⟩
  | cons key rest ih =>
      intro finished finished' h hf
      rw [List.foldlM_cons] at h
      obtain ⟨middle, hmiddle, h⟩ := bind_eq_ok.mp h
      obtain ⟨hfm, hext, hkey⟩ := hvisit key (by simp) finished middle hmiddle hf
      obtain ⟨hf', hext', hkeys⟩ :=
        ih (fun k hk => hvisit k (by simp [hk])) middle finished' h hfm
      refine ⟨hf', hext.trans hext', fun k hk hsome => ?_⟩
      rcases List.mem_cons.mp hk with rfl | hk
      · exact List.map_subset _ hext'.subset (hkey hsome)
      · exact hkeys k hk hsome

/--
**A visit keeps the layers.**  It puts a definition in front of those finished before only
when it has finished all that the definition refers to.  The path matters: a definition on
it is being visited, so it is not finished meanwhile, and putting it in front repeats no
key.
-/
theorem visit_finished (hresolves : ∀ d ∈ definitions, ∀ r ∈ d.references, r.Resolves definitions)
    (path : List Key) (finished : List Definition) (key : Key) :
    ∀ finished', visit definitions path finished key = .ok finished' →
      Finished definitions finished → Finished definitions finished' ∧
        Extends path finished finished' ∧
        ((find? definitions key).isSome → key ∈ finished'.map Definition.key) := by
  induction path, finished, key using visit.induct definitions with
  | case1 path finished key hdone =>
      intro finished' h hf
      rw [visit, if_pos hdone] at h
      obtain rfl : finished = finished' := by injection h
      refine ⟨hf, Extends.refl, fun _ => ?_⟩
      simpa using hdone
  | case2 path finished key hdone hpath =>
      intro finished' h
      rw [visit, if_neg hdone, dif_pos hpath] at h
      injection h
  | case3 path finished key hdone hpath hnone =>
      intro finished' h hf
      rw [visit, if_neg hdone, dif_neg hpath] at h
      split at h
      · obtain rfl : finished = finished' := by injection h
        exact ⟨hf, Extends.refl, fun hsome => by simp [hnone] at hsome⟩
      · rename_i hd
        simp [hnone] at hd
  | case4 path finished key hdone hpath d hd ih =>
      intro finished' h hf
      obtain rfl : d.key = key := key_of_find? hd
      have hnew : d.key ∉ finished.map Definition.key := by simpa using hdone
      rw [visit_of_find? hnew hpath hd] at h
      obtain ⟨inner, hinner, h⟩ := bind_eq_ok.mp h
      obtain rfl : d :: inner = finished' := by injection h
      obtain ⟨hfi, hext, hkeys⟩ := foldlM_visit d.targets
        (fun target _ fin fin' => ih fin target fin') finished inner hinner hf
      have huses : ∀ r ∈ d.references, r.Resolves inner := by
        intro r hr
        have hr' := hresolves d (mem_of_find? hd) r hr
        refine resolves_of_found hfi.found hr' (hkeys r.target (target_mem_targets hr) ?_)
        obtain ⟨e, he, -⟩ := hr'
        simp [he]
      exact ⟨hfi.cons hd (hext.notMem_of_path hnew) huses, hext.cons hpath, fun _ => by simp⟩

/-- The layers of definitions that can answer their uses hold all of them, in layers. -/
theorem layers_finished
    (hresolves : ∀ d ∈ definitions, ∀ r ∈ d.references, r.Resolves definitions)
    {finished : List Definition} (h : layers definitions = .ok finished) :
    Finished definitions finished ∧ ∀ d ∈ definitions, d.key ∈ finished.map key := by
  have hnil : Finished definitions [] := ⟨trivial, by simp⟩
  have hfold : (definitions.map key).foldlM
      (fun finished key => visit definitions [] finished key) [] = .ok finished := by
    rw [List.foldlM_map]
    exact h
  obtain ⟨hf, -, hkeys⟩ := foldlM_visit (definitions.map key)
    (fun k _ fin fin' => visit_finished hresolves [] fin k fin') [] finished hfold hnil
  refine ⟨hf, fun d hd => hkeys d.key (List.mem_map_of_mem hd) ?_⟩
  obtain ⟨e, he⟩ := exists_find? hd
  simp [he]

/-- Every use in the definitions names an earlier one, or one of the keys seen. -/
def LooksBack (seen : List Key) : List Definition → Prop
  | [] => True
  | d :: rest => (∀ r ∈ d.references, r.target ∈ seen) ∧ LooksBack (d.key :: seen) rest

/-- Targets that are finished are passed over. -/
theorem foldlM_visit_of_finished {path : List Key} {finished : List Definition} {targets : List Key}
    (h : ∀ target ∈ targets, target ∈ finished.map key) :
    targets.foldlM (fun finished target => visit definitions path finished target) finished =
      .ok finished := by
  induction targets with
  | nil => rfl
  | cons target rest ih =>
      rw [List.foldlM_cons, visit_of_finished (h target (by simp))]
      exact ih fun k hk => h k (by simp [hk])

/-- Where uses look back, nothing is visited before its turn: the layers are the
definitions, last first. -/
theorem layers_of_looksBack (hkeys : (definitions.map key).Nodup)
    (hback : LooksBack [] definitions) : layers definitions = .ok definitions.reverse := by
  have hrest : ∀ later earlier : List Definition, definitions = earlier.reverse ++ later →
      LooksBack (earlier.map key) later →
      later.foldlM (fun finished d => visit definitions [] finished d.key) earlier =
        .ok definitions.reverse := by
    intro later
    induction later with
    | nil =>
        intro earlier h _
        rw [h, List.append_nil, List.reverse_reverse]
        rfl
    | cons d later ih =>
        intro earlier h hlooks
        obtain ⟨hd, hlater⟩ := hlooks
        have hfind : find? definitions d.key = some d := find?_of_mem hkeys (by simp [h])
        have hnew : d.key ∉ earlier.map key := by
          rw [h, List.map_append, List.map_cons, List.nodup_append] at hkeys
          intro hmem
          exact hkeys.2.2 d.key (by simpa using hmem) d.key (by simp) rfl
        have hdone : ∀ k ∈ d.targets, k ∈ earlier.map key := by
          intro k hk
          obtain ⟨r, hr, rfl⟩ : ∃ r ∈ d.references, r.target = k := by simpa [targets] using hk
          exact hd r hr
        rw [List.foldlM_cons, visit_of_find? hnew (by simp) hfind, foldlM_visit_of_finished hdone]
        exact ih (d :: earlier) (by simp [h]) hlater
  exact hrest definitions [] rfl hback

end Definition

/-! ### Graphs -/

namespace Graph

/-- What is known of a graph that `ofDefinitions` returned. -/
structure Valid (g : Graph) : Prop where
  nodup_key : (g.definitions.map Definition.key).Nodup
  sorted : g.definitions.Pairwise fun a b => a.key.le b.key = true
  checked : ∀ d ∈ g.definitions, d.check g.definitions = .ok ()
  layered : Layered g.layers
  mem_layers : ∀ d, d ∈ g.layers ↔ d ∈ g.definitions

/-- No duplicate is found where there is none. -/
theorem duplicate?_eq_none {definitions : List Definition} {seen : List Key} :
    duplicate? seen definitions = none ↔
      (definitions.map Definition.key).Nodup ∧ ∀ d ∈ definitions, d.key ∉ seen := by
  induction definitions generalizing seen with
  | nil => simp [duplicate?]
  | cons d rest ih =>
      rw [duplicate?]
      by_cases hseen : d.key ∈ seen
      · simp [hseen]
      · rw [if_neg hseen, ih, List.map_cons, List.nodup_cons]
        constructor
        · rintro ⟨hrest, hnot⟩
          refine ⟨⟨?_, hrest⟩, fun e he => ?_⟩
          · intro hmem
            obtain ⟨e, he, hkey⟩ := List.mem_map.mp hmem
            exact hnot e he (by simp [hkey])
          · rcases List.mem_cons.mp he with rfl | he
            · exact hseen
            · exact fun hmem => hnot e he (List.mem_cons_of_mem _ hmem)
        · rintro ⟨⟨hd, hrest⟩, hnot⟩
          refine ⟨hrest, fun e he hmem => ?_⟩
          rcases List.mem_cons.mp hmem with hkey | hmem
          · exact hd (hkey ▸ List.mem_map_of_mem he)
          · exact hnot e (List.mem_cons_of_mem _ he) hmem

variable {definitions : List Definition} {g : Graph}

/-- Where no key is repeated, the answer is one about the sorted definitions. -/
theorem ofDefinitions_inOrder (hkeys : (definitions.map Definition.key).Nodup) :
    ofDefinitions definitions =
      ((Definition.inOrder definitions).forM (Definition.check (Definition.inOrder definitions))
        >>= fun _ =>
          match Definition.layers (Definition.inOrder definitions) with
          | .error path => .error (.cycle path)
          | .ok layers => .ok ⟨Definition.inOrder definitions, layers⟩) := by
  unfold ofDefinitions
  rw [duplicate?_eq_none.mpr ⟨hkeys, by simp⟩]
  rfl

/-- If nothing is wrong with the definitions one by one, all depends on the references. -/
theorem ofDefinitions_of_checked (hkeys : (definitions.map Definition.key).Nodup)
    (hchecked : ∀ d ∈ definitions, d.check definitions = .ok ()) :
    ofDefinitions definitions = match Definition.layers (Definition.inOrder definitions) with
      | .error path => .error (.cycle path)
      | .ok layers => .ok ⟨Definition.inOrder definitions, layers⟩ := by
  have hperm := Definition.inOrder_perm definitions
  have hcheck : (Definition.inOrder definitions).forM
      (Definition.check (Definition.inOrder definitions)) = .ok () :=
    forM_eq_ok.mpr fun d hd => Definition.check_of_perm hkeys hperm.symm
      (hchecked d (hperm.mem_iff.mp hd))
  rw [ofDefinitions_inOrder hkeys, hcheck]
  rfl

/-- A graph holds the definitions in the order of their keys, each with its check passed, and
the layers that were found of them. -/
theorem eq_of_ofDefinitions (h : ofDefinitions definitions = .ok g) :
    (definitions.map Definition.key).Nodup ∧ g.definitions = Definition.inOrder definitions ∧
      (∀ d ∈ g.definitions, d.check g.definitions = .ok ()) ∧
      Definition.layers g.definitions = .ok g.layers := by
  have hkeys : (definitions.map Definition.key).Nodup := by
    cases hdup : duplicate? [] definitions with
    | none => exact (duplicate?_eq_none.mp hdup).1
    | some key =>
        unfold ofDefinitions at h
        simp [hdup, bind, Except.bind] at h
  rw [ofDefinitions_inOrder hkeys] at h
  obtain ⟨_, hcheck, h⟩ := bind_eq_ok.mp h
  cases hlayers : Definition.layers (Definition.inOrder definitions) with
  | error path =>
      rw [hlayers] at h
      injection h
  | ok layers =>
      rw [hlayers] at h
      obtain rfl : Graph.mk (Definition.inOrder definitions) layers = g := by injection h
      exact ⟨hkeys, rfl, forM_eq_ok.mp hcheck, hlayers⟩

/-- **The one way to a graph leads to valid graphs only.** -/
theorem valid_of_ofDefinitions (h : ofDefinitions definitions = .ok g) : g.Valid := by
  obtain ⟨hnodup, horder, hchecked, hlayers⟩ := eq_of_ofDefinitions h
  have hkeys : (g.definitions.map Definition.key).Nodup :=
    horder ▸ Definition.nodup_key_inOrder hnodup
  have hresolves : ∀ d ∈ g.definitions, ∀ r ∈ d.references, r.Resolves g.definitions :=
    fun d hd => ((Definition.check_eq_ok_iff hkeys).mp (hchecked d hd)).resolves hkeys
  obtain ⟨hf, hall⟩ := Definition.layers_finished hresolves hlayers
  refine ⟨hkeys, horder ▸ Definition.pairwise_inOrder definitions, hchecked, hf.layered,
    fun d => ⟨fun hd => Definition.mem_of_find? (hf.found d hd), fun hd => ?_⟩⟩
  obtain ⟨e, he, hkey⟩ := List.mem_map.mp (hall d hd)
  have hfound := hf.found e he
  rw [hkey, Definition.find?_of_mem hkeys hd] at hfound
  obtain rfl : d = e := Option.some.inj hfound
  exact he

/-- What is a graph has no key twice and passes every check. -/
theorem checked_of_ofDefinitions (h : ofDefinitions definitions = .ok g) :
    (definitions.map Definition.key).Nodup ∧
      ∀ d ∈ definitions, d.check definitions = .ok () := by
  obtain ⟨hkeys, horder, hchecked, -⟩ := eq_of_ofDefinitions h
  have hperm : g.definitions.Perm definitions := horder ▸ Definition.inOrder_perm definitions
  refine ⟨hkeys, fun d hd => ?_⟩
  exact Definition.check_of_perm (horder ▸ Definition.nodup_key_inOrder hkeys) hperm
    (hchecked d (hperm.mem_iff.mpr hd))

theorem perm_of_ofDefinitions (h : ofDefinitions definitions = .ok g) :
    g.definitions.Perm definitions := by
  rw [(eq_of_ofDefinitions h).2.1]
  exact Definition.inOrder_perm definitions

/-- Every definition of a graph is well-formed. -/
theorem Valid.wellFormed (hg : g.Valid) {d : Definition} (hd : d ∈ g.definitions) :
    d.WellFormed g.definitions :=
  (Definition.check_eq_ok_iff hg.nodup_key).mp (hg.checked d hd)

theorem mem_ofKind {kind : Kind} {d : Definition} :
    d ∈ g.ofKind kind ↔ d ∈ g.definitions ∧ d.key.kind = kind := by
  simp [ofKind, Definition.key]

/-- The definitions of a kind stand in the order of their names, which are all different. -/
theorem Valid.pairwise_name (hg : g.Valid) (kind : Kind) :
    (g.ofKind kind).Pairwise fun a b => a.name < b.name := by
  have hkeys : g.definitions.Pairwise fun a b => a.key ≠ b.key :=
    List.pairwise_map.mp hg.nodup_key
  refine ((hg.sorted.and hkeys).filter _).imp_of_mem fun {a b} ha hb h => ?_
  obtain ⟨hle, hne⟩ := h
  have hka : a.kind = kind := by simpa using (List.mem_filter.mp ha).2
  have hkb : b.kind = kind := by simpa using (List.mem_filter.mp hb).2
  have hle' : a.name ≤ b.name := by
    simpa [Key.le, Definition.key, hka, hkb] using hle
  rw [← String.not_le]
  intro hge
  exact hne (by simp [Definition.key, hka, hkb, String.le_antisymm hle' hge])

/-- Sorted definitions that pass their checks and look back are a graph as they stand. -/
theorem ofDefinitions_of_looksBack (hkeys : (definitions.map Definition.key).Nodup)
    (hsorted : definitions.Pairwise fun a b => a.key.le b.key = true)
    (hchecked : ∀ d ∈ definitions, d.check definitions = .ok ())
    (hback : Definition.LooksBack [] definitions) :
    ofDefinitions definitions = .ok ⟨definitions, definitions.reverse⟩ := by
  have hcheck : definitions.forM (Definition.check definitions) = .ok () :=
    forM_eq_ok.mpr hchecked
  unfold ofDefinitions
  rw [duplicate?_eq_none.mpr ⟨hkeys, by simp⟩]
  simp only [List.mergeSort_of_pairwise hsorted, Definition.layers_of_looksBack hkeys hback]
  rw [hcheck]
  rfl

/-- A definition that passes its check and uses nothing is a graph by itself. -/
theorem ofDefinitions_singleton {d : Definition} (hchecked : d.check [d] = .ok ())
    (hreferences : d.references = []) : ofDefinitions [d] = .ok ⟨[d], [d]⟩ := by
  refine ofDefinitions_of_looksBack ?_ ?_ ?_ ?_
  · simp
  · simp
  · simpa using hchecked
  · simp [Definition.LooksBack, hreferences]

/-- So are two definitions in order, of which the first uses nothing and the second at most the
first. -/
theorem ofDefinitions_pair {d e : Definition} (hne : d.key ≠ e.key) (hle : d.key.le e.key = true)
    (hd : d.check [d, e] = .ok ()) (he : e.check [d, e] = .ok ()) (hreferences : d.references = [])
    (hback : ∀ r ∈ e.references, r.target = d.key) :
    ofDefinitions [d, e] = .ok ⟨[d, e], [e, d]⟩ := by
  refine ofDefinitions_of_looksBack ?_ ?_ ?_ ?_
  · simpa using hne
  · simpa using hle
  · simp [hd, he]
  · exact ⟨by simp [hreferences], fun r hr => by simp [hback r hr], trivial⟩

end Graph

end Phrasebook
