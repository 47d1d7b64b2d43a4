import Phrasebook.Proofs.Counting
import Phrasebook.Proofs.Repeats
import Phrasebook.Proofs.Tally

/-!
One count for every use.

A use of a definition is counted without a look at the arguments it passes, and the count is kept
for all uses of the same rules.  Arguments decide how many of the ways to make a sentence come to
the same one, never how many ways there are.  So what is counted where nothing is known bounds the
sentences of the use with any arguments whatsoever: `Counts.Sound` with every argument allowed.
-/

namespace Phrasebook

/-- What a use passes does not matter for its count. -/
theorem countIn_use (cap : Nat) (layers : List Definition) (label : String) (key : Key)
    (variation : Option String) (arguments : List Text) :
    countIn cap layers label (key.use variation arguments) =
      countIn cap layers label (key.use variation []) := by
  induction layers with
  | nil => rfl
  | cons d below ih =>
      rw [countIn, countIn]
      by_cases hkey : d.key = key
      · rw [if_pos (show d.key = (key.use variation arguments).target from hkey),
          if_pos (show d.key = (key.use variation []).target from hkey)]
        rfl
      · rw [if_neg (show d.key ≠ (key.use variation arguments).target from hkey),
          if_neg (show d.key ≠ (key.use variation []).target from hkey)]
        exact ih

/-- Where nothing is known, the count of a use bounds what the use is enumerated to. -/
theorem Graph.Valid.bounds_use {g : Graph} (hg : g.Valid) {cap : Nat}
    (hcap : cap < Possibilities.largest) (label : String) (r : Reference) {p : Possibilities}
    (hp : ((g.count cap label r).run .empty).1 = .ok p) : BoundsAnswer g.enumerate cap r p := by
  have hbounds : Ensures (Counts.Sound g.layers (fun _ _ => True) cap) (g.count cap label r)
      (BoundsAnswer g.enumerate cap r) :=
    bounds_countIn hcap hg.layered (fun _ _ _ _ => trivial) (List.suffix_refl _) label r trivial
  exact (hbounds .empty Counts.Sound.empty).2 p hp

/--
**The count covers every use.**  Where nothing is known, a use of any of the rules of a definition
has a count.  Unless that hit the cap, the use has no more sentences, whatever arguments it passes.
-/
theorem length_use_le_count {definitions : List Definition} {g : Graph}
    (hg : Graph.ofDefinitions definitions = .ok g) {cap : Nat}
    (hcap : cap < Possibilities.largest) {d : Definition} (hd : d ∈ g.definitions)
    {variation : Option String} {rules : List Rule} (hselect : d.select variation = .ok rules)
    (label : String) :
    ∃ p, ((g.count cap label (d.key.use variation [])).run .empty).1 = .ok p ∧
      ∀ arguments, ∃ es, g.enumerate label (d.key.use variation arguments) = .ok es ∧
        (p.isCapped cap = false → es.length ≤ p.value) := by
  have hvalid := Graph.valid_of_ofDefinitions hg
  have hresolves := hvalid.resolves_use hd hselect
  have hreturns : Returns (g.count cap label (d.key.use variation [])) :=
    returns_countIn hvalid.layered label _ (hresolves [])
  obtain ⟨p, c, hrun, -⟩ := hreturns .empty
  have hp : ((g.count cap label (d.key.use variation [])).run .empty).1 = .ok p :=
    congrArg Prod.fst hrun
  refine ⟨p, hp, fun arguments => ?_⟩
  obtain ⟨es, hes⟩ := exists_enumerateIn hvalid.layered label _ (hresolves arguments)
  have huse : g.count cap label (d.key.use variation arguments) =
      g.count cap label (d.key.use variation []) := countIn_use cap g.layers label d.key variation _
  rw [← huse] at hp
  refine ⟨es, hes, fun huncapped => ?_⟩
  rcases hvalid.bounds_use hcap label _ hp label es hes with hcapped | hle
  · rw [huncapped] at hcapped
    injection hcapped
  · exact hle

/-! ### A name that is called -/

namespace Calling

/-- A call, or a name in both casings that may be left out. -/
def call : Definition where
  kind := .phrase
  name := "call"
  rules := [.mk [.word "hey".toList .plain] .one none]
  variations := [⟨"named", [.mk [.word "$who".toList ⟨.either, some .half, [], none⟩] .one none]⟩]
  parameters := ["who".toList]
  directive := none

/-- The graph of the call. -/
def graph : Graph := ⟨[call], [call]⟩

theorem ofDefinitions_eq : Graph.ofDefinitions [call] = .ok graph :=
  Graph.ofDefinitions_singleton (ok_of_toOption (by decide +kernel)) rfl

/-- With a name there are three sentences, where the parameter as it is makes only two. -/
theorem enumerate_ann :
    graph.enumerate "greet" (call.key.use (some "named") ["ann".toList]) =
      .ok [.ofText "ann".toList, .ofText "Ann".toList, .empty] := by
  have hways : graph.expand "greet" (call.key.use (some "named") ["ann".toList]) =
      .ok [.ofText "ann".toList, .ofText "Ann".toList, .empty] := ok_of_toOption (by decide +kernel)
  have hsolid : graph.HasSolidArguments := by
    simp [Graph.HasSolidArguments, graph, show call.references = [] from rfl]
  rw [(Graph.valid_of_ofDefinitions ofDefinitions_eq).enumerate_eq_distinct hsolid "greet"
    (show (call.key.use (some "named") ["ann".toList]).IsSolid by decide), hways]
  exact congrArg Except.ok (distinct_of_nodup (by decide))

/-- The parameter counts as a word with two forms that may be left out. -/
theorem run_count_named :
    ((graph.count 1000 "greet" (call.key.use (some "named") [])).run .empty).1 =
      .ok (.exact 3) := by
  have hvalid := Graph.valid_of_ofDefinitions ofDefinitions_eq
  have hresolves := hvalid.resolves_use (d := call) (by simp [graph])
    (show call.select (some "named") = .ok (call.variations.flatMap (·.rules)) from rfl) []
  have htally : graph.tally (call.key.use (some "named") []) = .exact 3 := by decide +kernel
  have hcap : 1000 < Possibilities.largest := by decide
  have hcount :=
    (hvalid.succeeds_countIn hcap "greet" hresolves Counts.Tallied.empty).eq_ok
  rw [htally] at hcount
  exact hcount

end Calling

/-- The one count of the named call is three, and called by a name there are three sentences. -/
theorem length_use_le_count_ann :
    ∃ p es, ((Calling.graph.count 1000 "greet" (Calling.call.key.use (some "named") [])).run
        .empty).1 = .ok p ∧ p = ⟨3, false⟩ ∧
      Calling.graph.enumerate "greet" (Calling.call.key.use (some "named") ["ann".toList]) =
        .ok es ∧ es.length = 3 ∧ es.length ≤ p.value := by
  have hcap : 1000 < Possibilities.largest := by decide
  have hselect : Calling.call.select (some "named") =
      .ok (Calling.call.variations.flatMap (·.rules)) := rfl
  obtain ⟨p, hp, hcovers⟩ := length_use_le_count Calling.ofDefinitions_eq hcap
    (by simp [Calling.graph]) hselect "greet"
  obtain rfl : p = .exact 3 := Except.ok.inj (hp.symm.trans Calling.run_count_named)
  obtain ⟨es, hes, hle⟩ := hcovers ["ann".toList]
  refine ⟨_, es, hp, rfl, hes, ?_, hle rfl⟩
  obtain rfl := Except.ok.inj (Calling.enumerate_ann.symm.trans hes)
  rfl

end Phrasebook
