import Phrasebook.Dataset.Basic
import Phrasebook.Proofs.Session
import Mathlib.Data.List.Forall2

/-!
What a data set consists of.

A data set is made intent by intent, and of every intent first the part for training and
then, of what is unseen, the part for testing.  `IsOf` says what is made of one intent,
whatever the counts were before: its examples are all of that intent and no two of them are
the same sentence, across both parts.  How many they are follows when the counts are sound,
as they are if nothing was known of the graph before.

The intents stand in the order of their names, and no two have the same one, so the examples
of an intent are found again among all by its name.
-/

namespace Phrasebook

theorem Ensures.mapM {ε σ α β : Type} {I : σ → Prop} {f : α → ExceptT ε (StateM σ) β}
    {R : α → β → Prop} {xs : List α} (h : ∀ x ∈ xs, Ensures I (f x) (R x)) :
    Ensures I (xs.mapM f) (List.Forall₂ R xs) := by
  induction xs with
  | nil => exact Ensures.pure List.Forall₂.nil
  | cons x xs ih =>
      rw [List.mapM_cons]
      refine Ensures.bind (h x (by simp)) fun y hy => ?_
      refine Ensures.bind (ih fun x' hx' => h x' (by simp [hx'])) fun ys hys => ?_
      exact Ensures.pure (List.Forall₂.cons hy hys)

theorem Generating.ensures_onStream {α : Type} {I : Counts → Prop} {Q : α → Prop}
    {m : Generating α} (h : Ensures (fun s : Progress => I s.counts) m Q) (stream : Stream) :
    Ensures I (onStream stream m) Q :=
  fun counts hcounts => h ⟨counts, stream⟩ hcounts

theorem Generating.succeeds_onStream {α : Type} {m : Generating α} {stream : Stream}
    {c : Counts} {R : α → Counts → Prop}
    (h : Succeeds m ⟨c, stream⟩ fun a p => R a p.counts) :
    Succeeds (onStream stream m) c R := by
  obtain ⟨a, p, hrun, hR⟩ := h
  refine ⟨a, p.counts, ?_, hR⟩
  show ((m.run ⟨c, stream⟩).1, (m.run ⟨c, stream⟩).2.counts) = _
  rw [hrun]

/-- How many of the available sentences an amount asks for. -/
def share (available : Nat) : Option Amount → Nat
  | none => 0
  | some .all => available
  | some (.count n) => min n available

theorem share_le (available : Nat) (amount : Option Amount) :
    share available amount ≤ available := by
  cases amount with
  | none => exact Nat.zero_le _
  | some amount =>
      cases amount with
      | all => exact Nat.le_refl _
      | count n => exact Nat.min_le_right _ _

/-! ### One intent -/

namespace Dataset

variable {g : Graph} {o : Options} {d : Definition} {I : Counts → Prop} {P : Example → Prop}
  {B : Possibilities → Prop}

/-- One part of an intent is fresh, and of the size that the amount asks for. -/
theorem ensures_part (h : (Item.unit d.key).Answers g o I P B) (split : Split) (seen : Seen)
    (amount : Option Amount) :
    Ensures I (part g o d split seen amount) fun batch =>
      Fresh P seen batch.examples ∧
        (Item.unit d.key).HasSize g o P B seen (share · amount) batch.examples := by
  cases amount with
  | none => exact Ensures.pure ⟨Fresh.nil P seen, fun _ _ _ _ _ => rfl⟩
  | some amount =>
      cases amount with
      | all =>
          refine Ensures.bind h.all fun es hes => Ensures.pure ⟨?_, fun listed hlisted _ _ _ => ?_⟩
          · obtain ⟨hnodup, hall⟩ := h.enumerate es hes
            have htake := Fresh.take hnodup hall (List.Perm.refl (unseenOf seen es))
              (unseenOf seen es).length
            rw [List.take_length] at htake
            exact htake
          · obtain rfl : es = listed := Except.ok.inj (hes.symm.trans hlisted)
            rfl
      | count n =>
          exact Generating.ensures_onStream (Item.ensures_size_distinctUnseen h n seen) _

/-- What the report on an intent says, and that its examples are different sentences. -/
structure IsOf (d : Definition) (P : Example → Prop) (r : IntentExamples) : Prop where
  intent : r.report.intent = d.name
  trainRequested : r.report.trainRequested = d.effectiveDirective.train
  testRequested : r.report.testRequested = d.effectiveDirective.test
  trainGenerated : r.report.trainGenerated = r.train.examples.length
  testGenerated : r.report.testGenerated = r.test.examples.length
  fresh : Fresh P ∅ (r.train.examples ++ r.test.examples)

/-- How many examples of an intent there are, if the sentences and the counts are known. -/
def HasSizes (g : Graph) (o : Options) (d : Definition) (P : Example → Prop)
    (B : Possibilities → Prop) (r : IntentReport) : Prop :=
  ∀ listed, (Item.unit d.key).enumerate g = .ok listed →
    (∀ e, P e → e.key ∈ listed.map Example.key) →
    (∀ p, B p → p.Bounds o.possibilityCap listed.length) →
    r.trainGenerated = share listed.length d.effectiveDirective.train ∧
      r.testGenerated = share (listed.length - r.trainGenerated) d.effectiveDirective.test ∧
      r.possibilities.Bounds o.possibilityCap listed.length

theorem mem_foldl_insert {es : List Example} (seen : Seen) (k : Text) :
    k ∈ es.foldl (fun s e => s.insert e.key) seen ↔ k ∈ seen ∨ k ∈ es.map Example.key := by
  induction es generalizing seen with
  | nil => simp
  | cons e rest ih =>
      rw [List.foldl_cons, ih, Std.HashSet.mem_insert, List.map_cons, List.mem_cons, beq_iff_eq,
        eq_comm (a := e.key)]
      tauto

/-- **The parts of an intent have no sentence in common**, and together as many as the
directive asks for. -/
theorem ensures_ofIntent (h : (Item.unit d.key).Answers g o I P B) :
    Ensures I (ofIntent g o d) fun r => IsOf d P r ∧ HasSizes g o d P B r.report := by
  unfold ofIntent
  refine Ensures.bind (ensures_part h .train ∅ _) fun train htrain => ?_
  obtain ⟨htrain, htrainSize⟩ := htrain
  refine Ensures.bind (ensures_part h .test _ _) fun test htest => ?_
  obtain ⟨htest, htestSize⟩ := htest
  refine Ensures.bind h.count fun p hp => Ensures.pure ?_
  have hdrawn : Drawn P ∅ train.examples.reverse
      (train.examples.foldl (fun s e => s.insert e.key) ∅) := by
    refine ⟨⟨?_, by simp, by simpa using htrain.all⟩, fun k => ?_⟩
    · rw [List.map_reverse]
      exact List.nodup_reverse.mpr htrain.nodup
    · rw [mem_foldl_insert]
      simp
  refine ⟨⟨rfl, rfl, rfl, rfl, rfl, ?_⟩, fun listed hlisted hP hB => ?_⟩
  · simpa using hdrawn.append htest
  · have hnodup := (h.enumerate listed hlisted).1
    have htotal : (unseenOf ∅ listed).length = listed.length := by simp [unseenOf]
    have hleft := hdrawn.length_unseenOf hnodup hP
    have hseen : ∀ k ∈ train.examples.foldl (fun s e => s.insert e.key) (∅ : Seen),
        k ∈ listed.map Example.key := by
      intro k hk
      rw [mem_foldl_insert] at hk
      obtain ⟨e, he, rfl⟩ : ∃ e ∈ train.examples, e.key = k := by simpa using hk
      exact hP e (htrain.all e he)
    have htrainLength := htrainSize listed hlisted hP hB (by simp)
    have htestLength := htestSize listed hlisted hP hB hseen
    rw [htotal] at htrainLength hleft
    rw [List.length_reverse] at hleft
    refine ⟨htrainLength, ?_, hB p hp⟩
    simp only
    rw [htestLength]
    congr 1
    omega

/-! ### All intents -/

/-- A data set holds what is made of each intent, in the order of the intents. -/
structure Holds (parts : List IntentExamples) (ds : Dataset) : Prop where
  intents : ds.report.intents = parts.map (·.report)
  train : ds.train = parts.flatMap (·.train.examples)
  test : ds.test = parts.flatMap (·.test.examples)
  trainExamples : ds.report.trainExamples = (ds.report.intents.map (·.trainGenerated)).sum
  testExamples : ds.report.testExamples = (ds.report.intents.map (·.testGenerated)).sum

/-- What is made of each intent is all that a data set is made of. -/
theorem ensures_generate {R : Definition → IntentExamples → Prop}
    (h : ∀ d ∈ g.ofKind .intent, Ensures I (ofIntent g o d) (R d)) :
    Ensures I (generate g o) fun ds =>
      ∃ parts, List.Forall₂ R (g.ofKind .intent) parts ∧ Holds parts ds := by
  unfold generate
  cases o.check with
  | error reason => exact Ensures.bind (Q := fun _ => False) (Ensures.throw _) fun _ h => h.elim
  | ok u =>
      refine Ensures.bind (Q := fun _ => True) (Ensures.liftExcept fun _ _ => trivial) ?_
      intro synonyms _
      refine Ensures.bind (Ensures.mapM h) fun parts hparts => Ensures.pure ?_
      exact ⟨parts, hparts, rfl, rfl, rfl, by simp [Function.comp_def], by simp [Function.comp_def]⟩

/-- The examples of all intents, in blocks that carry the name of their intent. -/
theorem map_intent_flatMap {examples : IntentExamples → List Example}
    {size : IntentReport → Nat} {intents : List Definition} {parts : List IntentExamples}
    (h : List.Forall₂ (fun d r => r.report.intent = d.name ∧
      size r.report = (examples r).length ∧ ∀ e ∈ examples r, e.intent = some d.name)
      intents parts) :
    (parts.flatMap examples).map (·.intent) =
      (parts.map (·.report)).flatMap fun r => List.replicate (size r) (some r.intent) := by
  induction h with
  | nil => rfl
  | cons hd _ ih =>
      obtain ⟨hname, hsize, hintent⟩ := hd
      rw [List.flatMap_cons, List.map_append, ih, List.map_cons, List.flatMap_cons, hname, hsize]
      congr 1
      rw [List.eq_replicate_iff]
      refine ⟨by simp, fun i hi => ?_⟩
      obtain ⟨e, he, rfl⟩ := List.mem_map.mp hi
      exact hintent e he

/-- Among all that is made of the intents, what carries the name of one is what is made of the
intents with this name. -/
theorem filter_flatMap_zip {α : Type} {made : IntentExamples → List α} {name? : α → Option String}
    {intents : List Definition} {parts : List IntentExamples}
    (h : List.Forall₂ (fun d r => ∀ x ∈ made r, name? x = some d.name) intents parts)
    (name : String) :
    (parts.flatMap made).filter (fun x => name? x = some name) =
      ((intents.zip parts).filter fun pair => pair.1.name = name).flatMap
        fun pair => made pair.2 := by
  induction h with
  | nil => rfl
  | @cons d r _ _ hd _ ih =>
      rw [List.flatMap_cons, List.filter_append, ih, List.zip_cons_cons, List.filter_cons]
      by_cases hname : d.name = name
      · rw [List.filter_eq_self.mpr fun x hx => by simp [hd x hx, hname]]
        simp [hname]
      · rw [List.filter_eq_nil_iff.mpr fun x hx => by simp [hd x hx, hname]]
        simp [hname]

/-- Where names are not repeated, a name belongs to one intent and its examples. -/
theorem exists_filter_zip {R : Definition → IntentExamples → Prop} {intents : List Definition}
    {parts : List IntentExamples} (h : List.Forall₂ R intents parts)
    (hnames : intents.Pairwise fun a b => a.name < b.name) {d : Definition} (hd : d ∈ intents) :
    ∃ r, R d r ∧ (intents.zip parts).filter (fun pair => pair.1.name = d.name) = [(d, r)] := by
  induction h with
  | nil => simp at hd
  | @cons d' r' intents parts hR htail ih =>
      obtain ⟨hfirst, hrest⟩ := List.pairwise_cons.mp hnames
      rw [List.zip_cons_cons, List.filter_cons]
      rcases List.mem_cons.mp hd with rfl | hd
      · refine ⟨r', hR, ?_⟩
        rw [if_pos (by simp), List.filter_eq_nil_iff.mpr]
        rintro ⟨e, _⟩ hmem
        have hlt := hfirst e (List.of_mem_zip hmem).1
        simpa using (String.ne_of_lt hlt).symm
      · obtain ⟨r, hr, hfilter⟩ := ih hrest hd
        refine ⟨r, hr, ?_⟩
        rw [if_neg (by simpa using String.ne_of_lt (hfirst d hd)), hfilter]

/-- The report names the intents. -/
theorem Holds.names {intents : List Definition} {parts : List IntentExamples} {ds : Dataset}
    {P : Definition → Example → Prop} (hds : Holds parts ds)
    (h : List.Forall₂ (fun d r => IsOf d (P d) r) intents parts) :
    ds.report.intents.map (·.intent) = intents.map (·.name) := by
  have hnames : List.Forall₂ (· = ·) (parts.map (·.report.intent)) (intents.map (·.name)) := by
    rw [List.forall₂_map_left_iff, List.forall₂_map_right_iff]
    exact (h.imp fun d r hr => hr.intent).flip
  rw [List.forall₂_eq_eq_eq] at hnames
  rw [hds.intents, List.map_map]
  exact hnames

/-- The examples carry the names of the intents, in blocks as the report counts them. -/
theorem Holds.blocks {intents : List Definition} {parts : List IntentExamples} {ds : Dataset}
    (hds : Holds parts ds)
    (h : List.Forall₂ (fun d r => IsOf d (fun e => e.intent = some d.name) r) intents parts) :
    ds.train.map (·.intent) =
        (ds.report.intents.flatMap fun r => List.replicate r.trainGenerated (some r.intent)) ∧
      ds.test.map (·.intent) =
        ds.report.intents.flatMap fun r => List.replicate r.testGenerated (some r.intent) := by
  rw [hds.train, hds.test, hds.intents]
  constructor
  · refine map_intent_flatMap (h.imp fun d r hr => ⟨hr.intent, hr.trainGenerated, ?_⟩)
    exact fun e he => hr.fresh.all e (List.mem_append_left _ he)
  · refine map_intent_flatMap (h.imp fun d r hr => ⟨hr.intent, hr.testGenerated, ?_⟩)
    exact fun e he => hr.fresh.all e (List.mem_append_right _ he)

/-- The examples of an intent, by its name, are different sentences. -/
theorem Holds.nodup {intents : List Definition} {parts : List IntentExamples} {ds : Dataset}
    (hds : Holds parts ds)
    (h : List.Forall₂ (fun d r => IsOf d (fun e => e.intent = some d.name) r) intents parts)
    (hnames : intents.Pairwise fun a b => a.name < b.name) {d : Definition} (hd : d ∈ intents) :
    (((ds.train ++ ds.test).filter fun e => e.intent = some d.name).map Example.key).Nodup := by
  obtain ⟨r, hr, hfilter⟩ := exists_filter_zip h hnames hd
  rw [List.filter_append, hds.train, hds.test,
    filter_flatMap_zip (h.imp fun d r hr e he => hr.fresh.all e (List.mem_append_left _ he)),
    filter_flatMap_zip (h.imp fun d r hr e he => hr.fresh.all e (List.mem_append_right _ he)),
    hfilter]
  simpa using hr.fresh.nodup

end Dataset

/-! ### What is known of the answers about intents -/

namespace Item.Answers

variable {g : Graph} {o : Options} {I : Counts → Prop} {P : Example → Prop}
  {B : Possibilities → Prop}

/-- Whatever the counts. -/
theorem any (g : Graph) (o : Options) (key : Key) :
    (Item.unit key).Answers g o (fun _ => True) (fun _ => True) fun _ => True where
  count := Ensures.any _
  all := Item.ensures_all fun _ _ _ _ => trivial
  sample := Ensures.any _
  enumerate _ hes := ⟨nodup_key_enumerateIn hes, fun _ _ => trivial⟩

/-- The sentences of an intent carry its name. -/
theorem intent {key : Key} (h : (Item.unit key).Answers g o I P B) (hkind : key.kind = .intent) :
    (Item.unit key).Answers g o I (fun e => e.intent = some key.name) B where
  count := h.count
  all := h.all
  sample := yields_intent_sampleIn hkind
  enumerate es hes := ⟨(h.enumerate es hes).1, intent_of_enumerateIn hkind hes⟩

end Item.Answers

/--
**No sentence is in both parts.**  Whatever was known about the numbers of sentences, be it
wrong: the examples of an intent are different sentences, those for training and those for
testing together, and each carries the name of the intent, in blocks as the report counts
them.
-/
theorem generate_nodup {definitions : List Definition} {g : Graph}
    (hg : Graph.ofDefinitions definitions = .ok g) {o : Options} {c : Counts} {ds : Dataset}
    (h : ((Dataset.generate g o).run c).1 = .ok ds) :
    ds.report.intents.map (·.intent) = (g.ofKind .intent).map (·.name) ∧
      ds.train.map (·.intent) =
        (ds.report.intents.flatMap fun r => List.replicate r.trainGenerated (some r.intent)) ∧
      ds.test.map (·.intent) =
        (ds.report.intents.flatMap fun r => List.replicate r.testGenerated (some r.intent)) ∧
      ∀ d ∈ g.ofKind .intent,
        (((ds.train ++ ds.test).filter fun e => e.intent = some d.name).map Example.key).Nodup := by
  have hgenerate := Dataset.ensures_generate (g := g) (o := o) (I := fun _ => True)
    (R := fun d r => Dataset.IsOf d (fun e => e.intent = some d.name) r) fun d hd => ?_
  · obtain ⟨parts, hparts, hds⟩ := (hgenerate c trivial).2 ds h
    obtain ⟨htrain, htest⟩ := hds.blocks hparts
    exact ⟨hds.names hparts, htrain, htest, fun d hd => hds.nodup hparts
      ((Graph.valid_of_ofDefinitions hg).pairwise_name .intent) hd⟩
  · have hkind : d.key.kind = .intent := by
      simpa [Definition.key] using (List.mem_filter.mp hd).2
    exact (Dataset.ensures_ofIntent ((Item.Answers.any g o d.key).intent hkind)).mono
      fun r hr => hr.1

/-! ### Data sets that are there -/

theorem Options.check_default : Options.default.check = .ok () := by
  have hratio : (Binary64.zero.lt .half && Binary64.half.le .one) = true := by decide +kernel
  simp [Options.check, Options.default, hratio]

/-- An intent of which no number of sentences is asked gets its examples. -/
theorem Dataset.returns_ofIntent {g : Graph} (hg : g.Valid) (o : Options) {d : Definition}
    (hd : d ∈ g.definitions) (hdirective : d.directive = none) : Returns (ofIntent g o d) := by
  have hdefault : d.effectiveDirective = .default := by
    rw [Definition.effectiveDirective, hdirective]
    rfl
  unfold ofIntent
  rw [hdefault]
  refine Returns.bind ((hg.returns_all hd).bind fun es => Returns.pure _) fun train => ?_
  refine Returns.bind (Returns.pure _) fun test => ?_
  exact (hg.returns_count hd).bind fun p => Returns.pure _

/-- With options in order and synonyms, there is a data set if the intents have examples. -/
theorem Dataset.exists_generate {g : Graph} {o : Options} {c : Counts} {synonyms : Synonyms}
    (hcheck : o.check = .ok ()) (hsynonyms : g.synonyms = .ok synonyms)
    (h : Succeeds ((g.ofKind .intent).mapM (ofIntent g o)) c fun _ _ => True) :
    ∃ ds, ((generate g o).run c).1 = .ok ds := by
  have hrun : Succeeds (generate g o) c fun _ _ => True := by
    unfold generate
    rw [hcheck, hsynonyms]
    refine Succeeds.bind (R := fun _ c' => c' = c) ⟨_, _, rfl, rfl⟩ ?_
    rintro _ _ rfl
    exact Succeeds.bind h fun _ _ _ => Succeeds.pure trivial
  obtain ⟨ds, t, hrun, -⟩ := hrun
  exact ⟨ds, by rw [hrun]⟩

/-! ### Two ways to say hello -/

namespace Hello

/-- Without a count, the two sentences are counted first. -/
theorem succeeds_count_empty :
    Succeeds ((Item.unit hello.key).count graph Options.default.possibilityCap) .empty
      fun p c' => p = .exact 2 ∧ Counted c' := by
  rw [count_eq]
  refine Counts.succeeds_remember_of_none (by simp) ?_
  simp [hello, Definition.allRules, countRules, countTokens, countToken, Modifiers.plain,
    Modifiers.isAbsent, Modifiers.counted, Modifiers.mayBeAbsent, Rule.isReachable, Rule.weight]
  exact Succeeds.pure rfl

/-- For one of two sentences, all are listed at once. -/
theorem succeeds_distinctUnseen_empty (stream : Stream) :
    Succeeds ((Item.unit hello.key).distinctUnseen graph .default 1 ∅) ⟨.empty, stream⟩
      fun _ p => Counted p.counts := by
  have hshare : Item.coversShare .default 1 2 = true := by decide +kernel
  have hcapped : Possibilities.isCapped Options.default.possibilityCap ⟨2, false⟩ = false := rfl
  rw [Item.distinctUnseen_eq]
  refine Succeeds.bind (Generating.succeeds_ofCounting succeeds_count_empty) ?_
  rintro _ s ⟨rfl, -⟩
  simp only [Item.target, hcapped, Std.HashSet.size_empty, Possibilities.exact, Nat.sub_zero,
    Nat.reduceLeDiff, Nat.min_eq_left, Nat.one_ne_zero, hshare, Bool.not_false, Bool.and_self,
    Bool.false_eq_true, if_true, if_false]
  refine Succeeds.bind (R := fun _ p => Counted p.counts) ?_ fun _ _ h => Succeeds.pure h
  refine Succeeds.bind (Generating.succeeds_ofCounting (succeeds_all s.counts)) ?_
  rintro es s' ⟨-, h⟩
  exact ⟨_, _, rfl, h⟩

theorem succeeds_ofIntent :
    Succeeds (Dataset.ofIntent graph .default hello) .empty fun _ _ => True := by
  refine Succeeds.bind (R := fun _ c => Counted c) ?_ fun train c hc => ?_
  · exact Generating.succeeds_onStream (succeeds_distinctUnseen_empty _)
  · refine Succeeds.bind (R := fun _ c => Counted c) ?_ fun test c hc => ?_
    · exact Succeeds.bind (succeeds_all c) fun es c hc => Succeeds.pure hc.2
    · exact Succeeds.bind (succeeds_count hc _) fun _ _ _ => Succeeds.pure trivial

theorem exists_generate : ∃ ds, ((Dataset.generate graph .default).run .empty).1 = .ok ds :=
  Dataset.exists_generate Options.check_default rfl
    (Succeeds.bind succeeds_ofIntent fun _ _ _ => Succeeds.pure trivial)

end Hello

/-- One of the two sentences for training, the other one for testing. -/
theorem generate_nodup_hello :
    ∃ ds, ((Dataset.generate Hello.graph .default).run .empty).1 = .ok ds ∧
      (((ds.train ++ ds.test).filter fun e => e.intent = some "hello").map Example.key).Nodup := by
  obtain ⟨ds, hds⟩ := Hello.exists_generate
  obtain ⟨-, -, -, hnodup⟩ := generate_nodup Hello.ofDefinitions_eq hds
  exact ⟨ds, hds, hnodup Hello.hello (by simp [Hello.graph, Graph.ofKind, Hello.hello])⟩

/-! ### The sizes of a run -/

/-- Passing no arguments to intents leaves the count of an intent open to correction. -/
def Key.Accepts (key : Key) (arguments : List Text) : Prop :=
  key.kind = .intent → arguments = []

namespace Dataset

/-- The report on an intent tells how many sentences it has been given of those it has. -/
def IsExact (g : Graph) (o : Options) (d : Definition) (r : IntentReport) : Prop :=
  ∃ es, (Item.unit d.key).enumerate g = .ok es ∧
    r.trainGenerated = share es.length d.effectiveDirective.train ∧
    r.testGenerated = share (es.length - r.trainGenerated) d.effectiveDirective.test ∧
    (r.possibilities.isCapped o.possibilityCap = false →
      r.trainGenerated + r.testGenerated ≤ r.possibilities.value)

theorem HasSizes.isExact {g : Graph} {o : Options} {d : Definition} {r : IntentReport}
    {es : List Example} (hes : (Item.unit d.key).enumerate g = .ok es)
    (h : HasSizes g o d (fun e => e.key ∈ es.map Example.key)
      (·.Bounds o.possibilityCap es.length) r) : IsExact g o d r := by
  obtain ⟨htrain, htest, hbounds⟩ := h es hes (fun _ he => he) fun _ hp => hp
  refine ⟨es, hes, htrain, htest, fun hcapped => ?_⟩
  have htrainLe : r.trainGenerated ≤ es.length := htrain ▸ share_le _ _
  have htestLe : r.testGenerated ≤ es.length - r.trainGenerated := htest ▸ share_le _ _
  rcases hbounds with hbounds | hbounds
  · rw [hcapped] at hbounds
    injection hbounds
  · omega

/-- An intent of a graph gets what its directive asks for. -/
theorem ensures_isExact {g : Graph} (hg : g.Valid) (hfair : g.IsFair)
    (hsolid : g.HasSolidArguments)
    (hintents : ∀ d ∈ g.definitions, ∀ r ∈ d.references,
      r.target.Accepts r.modifiers.arguments)
    {o : Options} (hcap : o.possibilityCap < Possibilities.largest)
    {d : Definition} (hd : d ∈ g.ofKind .intent) :
    Ensures (Counts.Sound g.layers Key.Accepts o.possibilityCap) (ofIntent g o d) fun r =>
      IsOf d (fun e => e.intent = some d.name) r ∧ IsExact g o d r.report := by
  obtain ⟨hmem, hkind⟩ := List.mem_filter.mp hd
  have hintent : d.key.kind = .intent := by simpa [Definition.key] using hkind
  obtain ⟨es, hes⟩ := hg.exists_enumerate hmem
  have hanswers := hg.answers Key.Accepts hfair hcap hintents (d := d)
    (fun arguments => ⟨fun h => h hintent, fun h _ => h⟩) (hg.impartial hsolid d.name d.key) hes
  refine (ensures_ofIntent (hanswers.intent hintent)).and (ensures_ofIntent hanswers) |>.mono ?_
  rintro r ⟨⟨hof, -⟩, -, hsizes⟩
  exact ⟨hof, hsizes.isExact hes⟩

end Dataset

/--
**The sizes of a run.**  Nothing was known of the numbers of sentences of the graph, intents
are used without arguments, and the arguments passed are solid.  If a data set is made, every
intent, in the order of names, has for training what its directive asks for of all its
sentences, and for testing what it asks for of the rest.  The lists hold as many examples of
it, the totals are the sums, and a count that is reported and did not hit the cap is no less
than both parts together.
-/
theorem generate_sizes {definitions : List Definition} {g : Graph}
    (hg : Graph.ofDefinitions definitions = .ok g) (hfair : g.IsFair)
    (hsolid : g.HasSolidArguments)
    (hintents : ∀ d ∈ g.definitions, ∀ r ∈ d.references, r.target.kind = .intent →
      r.modifiers.arguments = [])
    {o : Options} (hcap : o.possibilityCap < Possibilities.largest) {c : Counts}
    (hclear : ∀ key part, c.get? ⟨.unit key, part⟩ = none) {ds : Dataset}
    (h : ((Dataset.generate g o).run c).1 = .ok ds) :
    (g.ofKind .intent).Pairwise (fun a b => a.name < b.name) ∧
      ds.report.intents.map (·.intent) = (g.ofKind .intent).map (·.name) ∧
      List.Forall₂ (Dataset.IsExact g o) (g.ofKind .intent) ds.report.intents ∧
      ds.train.map (·.intent) =
        (ds.report.intents.flatMap fun r => List.replicate r.trainGenerated (some r.intent)) ∧
      ds.test.map (·.intent) =
        (ds.report.intents.flatMap fun r => List.replicate r.testGenerated (some r.intent)) ∧
      ds.report.trainExamples = (ds.report.intents.map (·.trainGenerated)).sum ∧
      ds.report.testExamples = (ds.report.intents.map (·.testGenerated)).sum := by
  have hvalid := Graph.valid_of_ofDefinitions hg
  have hsound : c.Sound g.layers Key.Accepts o.possibilityCap := by
    intro key part p hp
    rw [hclear key part] at hp
    injection hp
  have hgenerate := Dataset.ensures_generate (g := g) (o := o)
    (I := Counts.Sound g.layers Key.Accepts o.possibilityCap) fun d hd =>
      Dataset.ensures_isExact hvalid hfair hsolid hintents hcap hd
  obtain ⟨parts, hparts, hds⟩ := (hgenerate c hsound).2 ds h
  have hof := hparts.imp fun d r hr => hr.1
  obtain ⟨htrain, htest⟩ := hds.blocks hof
  refine ⟨hvalid.pairwise_name .intent, hds.names hof, ?_, htrain, htest, hds.trainExamples,
    hds.testExamples⟩
  rw [hds.intents, List.forall₂_map_right_iff]
  exact hparts.imp fun d r hr => hr.2

/-- Of the two sentences, one is asked for and then all that are left. -/
theorem generate_sizes_hello :
    ∃ ds, ((Dataset.generate Hello.graph .default).run .empty).1 = .ok ds ∧
      ds.report.trainExamples = 1 ∧ ds.report.testExamples = 1 := by
  have hkind : Hello.graph.ofKind .intent = [Hello.hello] := by
    simp [Hello.graph, Graph.ofKind, Hello.hello]
  obtain ⟨ds, hds⟩ := Hello.exists_generate
  obtain ⟨-, -, hexact, -, -, htrain, htest⟩ := generate_sizes Hello.ofDefinitions_eq Hello.isFair
    (by simp [Graph.HasSolidArguments, Hello.graph, Hello.references_hello])
    (by simp [Hello.graph, Hello.references_hello]) (by decide) (by simp) hds
  rw [hkind] at hexact
  generalize ds.report.intents = reports at hexact htrain htest
  obtain ⟨r, _, hr, hrest, rfl⟩ := List.forall₂_cons_left_iff.mp hexact
  obtain rfl := List.forall₂_nil_left_iff.mp hrest
  obtain ⟨es, hes, hrtrain, hrtest, -⟩ := hr
  obtain rfl : [Hello.said "hello", Hello.said "hi"] = es :=
    Except.ok.inj (Hello.enumerate_eq.symm.trans hes)
  refine ⟨ds, hds, ?_, ?_⟩
  · simp [htrain, hrtrain, share, Hello.hello, Definition.effectiveDirective]
  · simp [htest, hrtest, hrtrain, share, Hello.hello, Definition.effectiveDirective]

end Phrasebook
