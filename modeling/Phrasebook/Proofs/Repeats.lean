import Phrasebook.Proofs.Agreement

/-!
Repeats are dropped early, and nothing is lost.

The enumeration drops a repeat wherever it appears: at a token, behind a prefix of a rule, in
a set of rules.  A reader expects of it what is simpler to say: take every way to make a
sentence, in order, and of those with one key keep the first.  Where only solid arguments are
passed, both lists are the same, example by example.
-/

namespace Phrasebook

namespace Graph.Valid

variable {g : Graph} {d : Definition}

/-- Where only solid arguments are passed, a use with solid arguments is enumerated to the
ways to make its sentences, less the repeats. -/
theorem enumerate_eq_distinct (hg : g.Valid) (hsolid : g.HasSolidArguments) (owner : String)
    {r : Reference} (hr : r.IsSolid) : g.enumerate owner r = distinct <$> g.expand owner r :=
  enumerateIn_eq g.layers owner r
    (impartialIn_of_solid (fun d hd => hsolid d ((hg.mem_layers d).mp hd)) owner r hr)

/-- A definition is enumerated to the ways to make its sentences, less the repeats. -/
theorem enumerate_unit (hg : g.Valid) (hsolid : g.HasSolidArguments) {key : Key}
    {ways : List Example} (hways : g.expand key.name (Item.useOf key) = .ok ways) :
    (Item.unit key).enumerate g = .ok (distinct ways) := by
  have huse : (Item.useOf key).IsSolid := by
    simp [Item.useOf, Modifiers.plain, Reference.IsSolid]
  have henumerate := hg.enumerate_eq_distinct hsolid key.name huse
  rw [hways] at henumerate
  exact henumerate

end Graph.Valid

/--
**Early dropping loses nothing.**  In a graph that passes only solid arguments, any use of a
definition with solid arguments is enumerated to every way to make one of its sentences, in
order, with each behind the first of its key left out.
-/
theorem enumerate_use_eq_eraseDupsBy {definitions : List Definition} {g : Graph}
    (hg : Graph.ofDefinitions definitions = .ok g) (hsolid : g.HasSolidArguments)
    {d : Definition} (hd : d ∈ g.definitions) {variation : Option String} {rules : List Rule}
    (hselect : d.select variation = .ok rules) {arguments : List Text}
    (harguments : ∀ a ∈ arguments, a.IsSolid) (owner : String) :
    ∃ all, g.expand owner (d.key.use variation arguments) = .ok all ∧
      g.enumerate owner (d.key.use variation arguments) =
        .ok (all.eraseDupsBy fun a b => a.key == b.key) := by
  have hvalid := Graph.valid_of_ofDefinitions hg
  have heq := hvalid.enumerate_eq_distinct hsolid owner (r := d.key.use variation arguments)
    harguments
  obtain ⟨es, hes⟩ :=
    exists_enumerateIn hvalid.layered owner _ (hvalid.resolves_use hd hselect arguments)
  rw [show g.enumerate owner (d.key.use variation arguments) = .ok es from hes] at heq
  obtain ⟨all, hall, hdistinct⟩ := map_eq_ok.mp heq.symm
  refine ⟨all, hall, hes.trans ?_⟩
  rw [← hdistinct, distinct_eq_eraseDupsBy]

/-- With the title `sir` there are two ways to be polite, and both say the same. -/
theorem enumerate_use_eq_eraseDupsBy_sir :
    (Greetings.graph "sir".toList).expand "greet" (Greetings.polite.key.use none ["sir".toList]) =
        .ok [.ofText "Sir".toList, .ofText "Sir".toList] ∧
      (Greetings.graph "sir".toList).enumerate "greet"
        (Greetings.polite.key.use none ["sir".toList]) = .ok [.ofText "Sir".toList] := by
  have hexpand : (Greetings.graph "sir".toList).expand "greet"
      (Greetings.polite.key.use none ["sir".toList]) =
        .ok [.ofText "Sir".toList, .ofText "Sir".toList] := ok_of_toOption (by decide +kernel)
  have hsolid : (Greetings.graph "sir".toList).HasSolidArguments := by
    have hsir : Text.IsSolid "sir".toList := by decide
    simpa [Graph.HasSolidArguments, Greetings.graph, Greetings.references_polite,
      Greetings.references_greet, Reference.IsSolid] using hsir
  have hmem : Greetings.polite ∈ (Greetings.graph "sir".toList).definitions := by
    simp [Greetings.graph]
  have hselect : Greetings.polite.select none = .ok Greetings.polite.allRules := rfl
  have hargument : ∀ a ∈ ["sir".toList], Text.IsSolid a := by decide
  obtain ⟨all, hall, henumerate⟩ := enumerate_use_eq_eraseDupsBy
    (Greetings.ofDefinitions_eq "sir".toList) hsolid hmem hselect hargument "greet"
  obtain rfl := Except.ok.inj (hexpand.symm.trans hall)
  exact ⟨hexpand, henumerate.trans (congrArg Except.ok (by decide))⟩

end Phrasebook
