import Phrasebook.CommandLine.Commands
import Phrasebook.Proofs.Reset

/-!
What an operation leaves alone.

Counts are kept all over a graph and in items of their own, and many are written from deep inside a
count that may still fail.  But there are only two ways to write one.  A count that is not known is
computed and then kept, which replaces nothing; and the count of an item is corrected when the item
is listed.  So an invariant of the table survives counting, wherever it happens, if keeping a count
where there is none does it no harm (`Counts.steady`).  That a place has the count it has is such an
invariant, and that it has none is one as far as other places are concerned.

From this follow the law of each operation (`Session.HasFrame`), what a session cannot change, and
that exact counts stay exact while other definitions are listed and counted.
-/

namespace Phrasebook

/-! ### Invariants that counting keeps -/

/-- The same table, for which the invariant holds. -/
def Counts.Kept (I : Counts → Prop) (c c' : Counts) : Prop := c = c' ∧ I c

/-- A computation that goes like itself from each table of the invariant keeps the invariant. -/
theorem Alike.kept {ε α : Type} {I : Counts → Prop} {m : ExceptT ε (StateM Counts) α}
    (h : Alike (Counts.Kept I) m m) {c : Counts} (hc : I c) : I (m.run c).2 :=
  (h c c ⟨rfl, hc⟩).2.2

/-- A count of the place may be looked up, or computed and kept, without harm to the invariant. -/
def Counts.Steady (I : Counts → Prop) (place : Place) : Prop :=
  ∀ compute : Counting Possibilities, Alike (Kept I) compute compute →
    Alike (Kept I) (remember place compute) (remember place compute)

namespace Counts

/-- Only where no count was known one is kept. -/
theorem steady {I : Counts → Prop} {place : Place}
    (h : ∀ c c' p, I c → c.get? place = none → I c' → I (c'.set place p)) : Steady I place := by
  intro compute hcompute
  unfold remember
  refine Alike.get_bind fun c c' hc => ?_
  obtain ⟨rfl, hI⟩ := hc
  cases hget : c.get? place with
  | some p => exact Alike.pure p
  | none =>
      refine Alike.bind hcompute fun p => Alike.bind (Alike.modify ?_) fun _ => Alike.pure p
      rintro t _ ⟨rfl, ht⟩
      exact ⟨rfl, h c t p hI hget ht⟩

/-- A count that is known is not replaced. -/
theorem steady_of_known (place : Place) (p : Possibilities) (place' : Place) :
    Steady (fun c => c.get? place = some p) place' := by
  refine steady fun c c' q hc hnone hc' => ?_
  have hne : place' ≠ place := by
    rintro rfl
    rw [hc] at hnone
    injection hnone
  rw [get?_set, if_neg hne]
  exact hc'

/-- A count that is not known is not kept in place of another one. -/
theorem steady_of_unknown {place place' : Place} (hne : place' ≠ place) :
    Steady (fun c => c.get? place = none) place' := by
  refine steady fun c c' q _ _ hc' => ?_
  rw [get?_set, if_neg hne]
  exact hc'

/-- Where no count is known, what is kept is what was computed, if that did not fail. -/
theorem run_remember_of_none {place : Place} {compute : Counting Possibilities} {c : Counts}
    (hnone : c.get? place = none) :
    (remember place compute).run c =
      match compute.run c with
      | (.ok p, t) => (.ok p, t.set place p)
      | (.error reason, t) => (.error reason, t) := by
  have hget : (get : Counting Counts).run c = (.ok c, c) := rfl
  unfold remember
  rw [Ensures.run_bind, hget]
  simp only [hnone]
  rw [Ensures.run_bind]
  rcases compute.run c with ⟨_ | _, t⟩ <;> rfl

/-- If no count could be computed, none is known. -/
theorem unknown_of_failed {place : Place} {compute : Counting Possibilities} {c : Counts}
    {reason : GenerationError}
    (hcompute : Alike (Kept fun c => c.get? place = none) compute compute)
    (hnone : c.get? place = none) (hfailed : ((remember place compute).run c).1 = .error reason) :
    ((remember place compute).run c).2.get? place = none := by
  have hkept := hcompute.kept hnone
  rw [run_remember_of_none hnone] at hfailed ⊢
  rcases hrun : compute.run c with ⟨_ | p, t⟩
  · rw [hrun] at hkept
    exact hkept
  · rw [hrun] at hfailed
    injection hfailed

end Counts

section

variable {I : Counts → Prop} {cap : Nat} {label : String} {owner : Owner}
  {answer : String → Reference → Counting Possibilities}

/-- The rules of an owner are counted without harm to an invariant, if the groups in them and what
they refer to are. -/
theorem kept_countRules (hgroups : ∀ path, path ≠ [] → Counts.Steady I ⟨owner, .group path⟩)
    (hanswer : ∀ label r, Alike (Counts.Kept I) (answer label r) (answer label r)) {d : Definition}
    {rules : List Rule} {first : Nat} (hrules : rules <+: d.allRules.drop first) :
    Alike (Counts.Kept I) (countRules answer cap label owner [] first (.exact 0) rules)
      (countRules answer cap label owner [] first (.exact 0) rules) :=
  alike_countRules (d := d)
    (fun path _ hne _ compute _ hcompute => hgroups path hne compute hcompute)
    rules [] d.allRules first (.exact 0) rfl hrules fun r _ => hanswer label r

theorem kept_countIn (hunits : ∀ key part, Counts.Steady I ⟨.unit key, part⟩)
    (layers : List Definition) (label : String) (r : Reference) :
    Alike (Counts.Kept I) (countIn cap layers label r) (countIn cap layers label r) := by
  induction layers generalizing label r with
  | nil => exact Alike.throw _
  | cons d below ih =>
      rw [countIn]
      split
      · unfold Definition.count
        cases hcounted : d.counted r.modifiers.variation with
        | error e => exact Alike.throw_bind e _ _
        | ok counted =>
            obtain ⟨rules, first, part⟩ := counted
            obtain ⟨-, -, hrules⟩ := Definition.counted_spec hcounted
            exact hunits d.key part _ (kept_countRules (fun path _ => hunits d.key (.group path)) ih
              hrules)
      · exact ih label r

end

/-! ### Items -/

/-- A definition of nothing but rules. -/
def Definition.ofRules (rules : List Rule) : Definition where
  kind := .phrase
  name := Scope.groupOwner
  rules := rules
  variations := []
  parameters := []
  directive := none

namespace Item

variable {g : Graph} {cap : Nat} {I : Counts → Prop} {c : Counts}

theorem get?_record (item : Item) (n : Nat) (c : Counts) (place : Place) :
    (item.record n c).get? place =
      if item.place? = some place then some (.exact n) else c.get? place := by
  unfold record
  cases item.place? with
  | none => simp
  | some own => simp [Counts.get?_set]

/-- What an item of its own is counted by, where no count of it is known. -/
theorem kept_rules (g : Graph) (cap : Nat)
    (hunits : ∀ key part, Counts.Steady I ⟨.unit key, part⟩) {name : String}
    (hgroups : ∀ path, path ≠ [] → Counts.Steady I ⟨.item name, .group path⟩) (label : String)
    (d : Definition) :
    Alike (Counts.Kept I)
      (countRules (g.count cap) cap label (.item name) [] 0 (.exact 0) d.allRules)
      (countRules (g.count cap) cap label (.item name) [] 0 (.exact 0) d.allRules) :=
  kept_countRules hgroups (kept_countIn hunits g.layers) (d := d) (List.prefix_refl _)

theorem count_definition (g : Graph) (cap : Nat) (name : String) (d : Definition) :
    (Item.definition name d).count g cap = Counts.remember ⟨.item name, .whole⟩
      (countRules (g.count cap) cap d.name (.item name) [] 0 (.exact 0) d.allRules) := rfl

theorem count_group (g : Graph) (cap : Nat) (name : String) (rules : List Rule) :
    (Item.group name rules).count g cap = Counts.remember ⟨.item name, .group []⟩
      (countRules (g.count cap) cap Scope.groupOwner (.item name) [] 0 (.exact 0)
        (Definition.ofRules rules).allRules) := by
  simp [Item.count, Definition.ofRules, Definition.allRules]

/-- **Counting an item harms no invariant** that every place is steady for. -/
theorem kept_count (h : ∀ place, Counts.Steady I place) (item : Item) :
    Alike (Counts.Kept I) (item.count g cap) (item.count g cap) := by
  have hrules := fun name => kept_rules g cap (fun key part => h ⟨.unit key, part⟩)
    fun path _ => h ⟨.item name, .group path⟩
  cases item with
  | unit key => exact kept_countIn (fun key part => h ⟨.unit key, part⟩) _ _ _
  | word text => exact Alike.pure _
  | group name rules =>
      rw [count_group]
      exact h _ _ (hrules name _ _)
  | definition name d =>
      rw [count_definition]
      exact h _ _ (hrules name _ d)

/-- **A count that fails leaves the place of the item empty**, if it was. -/
theorem unknown_of_count_failed (hg : g.Valid) {item : Item} {place : Place}
    (hplace : item.place? = some place) (hnone : c.get? place = none) {reason : GenerationError}
    (hfailed : ((item.count g cap).run c).1 = .error reason) :
    ((item.count g cap).run c).2.get? place = none := by
  cases item with
  | word text => injection hplace
  | unit key =>
      cases hfind : g.get? key with
      | none =>
          have hcount : (Item.unit key).count g cap = throw (.unresolved key.name key) :=
            countIn_of_find?_eq_none ((hg.find?_layers key).trans hfind) key.name
          rw [hcount]
          exact hnone
      | some d =>
          obtain rfl := Definition.key_of_find? hfind
          have hreturns : Returns ((Item.unit d.key).count g cap) :=
            hg.returns_count (Definition.mem_of_find? hfind)
          obtain ⟨p, t, hrun, -⟩ := hreturns c
          rw [hrun] at hfailed
          injection hfailed
  | group name rules =>
      obtain rfl := Option.some.inj hplace
      rw [count_group] at hfailed ⊢
      refine Counts.unknown_of_failed
        (kept_rules g cap (fun key part => ?_) (fun path hpath => ?_) _ _) hnone hfailed
      · exact Counts.steady_of_unknown (by simp)
      · exact Counts.steady_of_unknown (by simpa using hpath)
  | definition name d =>
      obtain rfl := Option.some.inj hplace
      rw [count_definition] at hfailed ⊢
      refine Counts.unknown_of_failed (kept_rules g cap (fun key part => ?_) (fun path _ => ?_) _ d)
        hnone hfailed
      · exact Counts.steady_of_unknown (by simp)
      · exact Counts.steady_of_unknown (by simp)

/-- Neither counting an item nor listing it nor drawing from it replaces the count of a place that
is not its own. -/
theorem answersAlike_of_known {o : Options} {item : Item} {place : Place} (p : Possibilities)
    (hplace : item.place? ≠ some place) :
    item.AnswersAlike g g o (Counts.Kept fun c => c.get? place = some p) where
  count := kept_count (Counts.steady_of_known place p) item
  all := alike_all rfl fun n c c' hc => by
    obtain ⟨rfl, hknown⟩ := hc
    exact ⟨rfl, (get?_record item n c place).trans ((if_neg hplace).trans hknown)⟩
  sample := rfl

end Item

/-! ### Operations -/

namespace Session

/-- The count that a session knows of a place. -/
def known (s : Session) (place : Place) : Option Possibilities := s.progress.counts.get? place

/-- What each question to an item does to the counts that a session knows. -/
structure HasFrame (s : Session) : Prop where
  /-- Drawing does nothing. -/
  one : ∀ item place, (Session.perform (.one item) s).2.known place = s.known place
  /-- Listing an item sets its own count to the number of its sentences. -/
  all : ∀ item es, item.enumerate s.graph = .ok es →
    (Session.perform (.all item) s).1 = .examples es ∧
      ∀ place, (Session.perform (.all item) s).2.known place =
        if item.place? = some place then some (.exact es.length) else s.known place
  /-- An item that cannot be listed changes nothing. -/
  all_failed : ∀ item reason, item.enumerate s.graph = .error reason →
    (Session.perform (.all item) s).1 = .failed reason ∧
      ∀ place, (Session.perform (.all item) s).2.known place = s.known place
  /-- Counting replaces nothing, not even if it fails. -/
  count : ∀ item place p, s.known place = some p →
    (Session.perform (.count item) s).2.known place = some p
  /-- An item that could not be counted has no count. -/
  count_failed : ∀ item place reason, item.place? = some place → s.known place = none →
    (Session.perform (.count item) s).1 = .failed reason →
      (Session.perform (.count item) s).2.known place = none
  /-- Drawing different sentences replaces no count but that of the item. -/
  distinct : ∀ item n place p, item.place? ≠ some place → s.known place = some p →
    (Session.perform (.distinct item n) s).2.known place = some p

/-- The operation may replace a count of the place. -/
def Operation.MayReplace (g : Graph) (place : Place) : Operation → Prop
  | .all item | .distinct item _ | .correct item _ | .clear item => item.place? = some place
  | .dataset => ∃ d ∈ g.ofKind .intent, place = d.key.whole
  | .reset => Counts.isOfUnit place = true
  | .count _ | .one _ | .adopt _ | .restart _ => False

variable {s : Session} {place : Place} {p : Possibilities}

theorem known_run {α : Type} {answer : α → Answer} {m : Generating α} {I : Counts → Prop}
    (h : Alike (Progress.Related (Counts.Kept I)) m m) (hs : I s.progress.counts) :
    I (Session.run answer m s).2.progress.counts :=
  (h s.progress s.progress ⟨⟨rfl, hs⟩, rfl⟩).2.1.2

theorem known_count (item : Item) (hs : s.known place = some p) :
    (Session.perform (.count item) s).2.known place = some p :=
  known_run (I := fun c => c.get? place = some p)
    (Generating.alike_ofCounting (Item.kept_count (Counts.steady_of_known place p) item)) hs

theorem known_distinct {item : Item} (n : Nat) (hplace : item.place? ≠ some place)
    (hs : s.known place = some p) :
    (Session.perform (.distinct item n) s).2.known place = some p :=
  known_run (I := fun c => c.get? place = some p)
    ((Item.answersAlike_of_known p hplace).someDistinct n) hs

theorem known_all (item : Item) (s : Session) (place : Place) :
    (Session.perform (.all item) s).2.known place =
      match item.enumerate s.graph with
      | .ok es => if item.place? = some place then some (.exact es.length) else s.known place
      | .error _ => s.known place := by
  rw [known, perform_all, Generating.run_ofCounting]
  unfold Item.all
  cases item.enumerate s.graph with
  | error reason => rfl
  | ok es => exact Item.get?_record item es.length s.progress.counts place

theorem known_correct (item : Item) (q : Possibilities) (s : Session) (place : Place) :
    (Session.perform (.correct item q) s).2.known place =
      if item.place? = some place then some q else s.known place := by
  unfold Session.perform
  simp only
  cases item.place? with
  | none => rfl
  | some own =>
      simp only [Option.some_inj]
      exact Counts.get?_set s.progress.counts own place q

theorem known_clear (item : Item) (s : Session) (place : Place) :
    (Session.perform (.clear item) s).2.known place =
      if item.place? = some place then none else s.known place := by
  unfold Session.perform
  simp only
  cases item.place? with
  | none => rfl
  | some own =>
      simp only [Option.some_inj]
      exact Counts.get?_erase s.progress.counts own place

theorem answer_of_ok {α : Type} {answer : α → Answer} {m : Counting α} {a : α}
    (h : (m.run s.progress.counts).1 = .ok a) :
    (Session.run answer (Generating.ofCounting m) s).1 = answer a := by
  rw [answer_run, Generating.run_ofCounting, h]

theorem answer_of_error {α : Type} {answer : α → Answer} {m : Counting α} {reason : GenerationError}
    (h : (m.run s.progress.counts).1 = .error reason) :
    (Session.run answer (Generating.ofCounting m) s).1 = .failed reason := by
  rw [answer_run, Generating.run_ofCounting, h]

/-- **The law of one operation.** -/
theorem hasFrame_of_valid (hg : s.graph.Valid) : s.HasFrame where
  one _ _ := rfl
  all item es hes := by
    refine ⟨answer_of_ok ((Item.run_all _ item _).trans hes), fun place => ?_⟩
    rw [known_all, hes]
  all_failed item reason hfailed := by
    refine ⟨answer_of_error ((Item.run_all _ item _).trans hfailed), fun place => ?_⟩
    rw [known_all, hfailed]
  count item _ _ hs := known_count item hs
  count_failed item place reason hplace hnone hfailed := by
    cases hresult : ((item.count s.graph s.options.possibilityCap).run s.progress.counts).1 with
    | error e => exact Item.unknown_of_count_failed hg hplace hnone hresult
    | ok p =>
        have hanswer : (Session.perform (.count item) s).1 = .count p := answer_of_ok hresult
        rw [hanswer] at hfailed
        injection hfailed
  distinct _ n _ _ hplace hs := known_distinct n hplace hs

theorem graph_perform (op : Operation) (s : Session) :
    (Session.perform op s).2.graph = s.graph := by
  cases op with
  | correct item p =>
      unfold Session.perform
      simp only
      cases item.place? <;> rfl
  | clear item =>
      unfold Session.perform
      simp only
      cases item.place? <;> rfl
  | _ => rfl

theorem graph_performAll (ops : List Operation) (s : Session) :
    ((performAll ops).run s).2.graph = s.graph := by
  induction ops generalizing s with
  | nil => rfl
  | cons op ops ih => rw [performAll_cons, ih, graph_perform]

/-- **A count that is known is replaced on purpose only.** -/
theorem known_perform {op : Operation} (hop : ¬ op.MayReplace s.graph place)
    (hs : s.known place = some p) : (Session.perform op s).2.known place = some p := by
  cases op with
  | count item => exact known_count item hs
  | one item => exact hs
  | all item =>
      rw [known_all]
      split
      · exact (if_neg hop).trans hs
      · exact hs
  | distinct item n => exact known_distinct n hop hs
  | dataset =>
      refine known_run (I := fun c => c.get? place = some p)
        (Generating.alike_ofCounting (Dataset.alike_generate fun d hd => ?_)) hs
      refine Item.answersAlike_of_known p fun hplace => hop ⟨d, hd, ?_⟩
      exact (Option.some.inj hplace).symm
  | correct item q => exact (known_correct item q s place).trans ((if_neg hop).trans hs)
  | clear item => exact (known_clear item s place).trans ((if_neg hop).trans hs)
  | reset => exact (Counts.get?_reset _ _).trans ((if_neg hop).trans hs)
  | adopt o => exact hs
  | restart stream => exact hs

/-- **So it is with a whole session.** -/
theorem known_performAll {ops : List Operation} (hops : ∀ op ∈ ops, ¬ op.MayReplace s.graph place)
    (hs : s.known place = some p) : ((performAll ops).run s).2.known place = some p := by
  induction ops generalizing s with
  | nil => exact hs
  | cons op ops ih =>
      rw [performAll_cons]
      refine ih (fun op' hop' => ?_) (known_perform (hops op (by simp)) hs)
      rw [graph_perform]
      exact hops op' (List.mem_cons_of_mem op hop')

end Session

/-! ### Exact counts of all definitions -/

/-- The count that is known of the definition is the number of its sentences. -/
def Counts.KnowsExactly (g : Graph) (d : Definition) (c : Counts) : Prop :=
  ∃ es, (Item.unit d.key).enumerate g = .ok es ∧ c.get? d.key.whole = some (.exact es.length)

namespace Graph.Valid

variable {g : Graph} {d : Definition} {c : Counts}

/-- A definition that is listed is known exactly, and those that were known exactly still are. -/
theorem succeeds_all_knowsExactly (hg : g.Valid) (hd : d ∈ g.definitions) (c : Counts) :
    Succeeds ((Item.unit d.key).all g) c fun _ c' =>
      ∀ e : Definition, (e = d ∨ c.KnowsExactly g e) → c'.KnowsExactly g e := by
  obtain ⟨es, hes⟩ := hg.exists_enumerate hd
  obtain ⟨_, _, hrun, rfl, rfl⟩ := Item.succeeds_all hes c
  refine ⟨_, _, hrun, fun e he => ?_⟩
  by_cases hkey : d.key = e.key
  · refine ⟨_, hkey ▸ hes, (Item.get?_record _ _ _ _).trans (if_pos ?_)⟩
    rw [← hkey]
    rfl
  · rcases he with rfl | ⟨es', hes', hknown⟩
    · exact absurd rfl hkey
    · refine ⟨es', hes', (Item.get?_record _ _ _ _).trans ((if_neg ?_).trans hknown)⟩
      simpa [Item.place?, Key.whole] using hkey

/-- **After all were listed, one after the other, each is known exactly.** -/
theorem succeeds_listing (hg : g.Valid) {definitions : List Definition}
    (hmem : ∀ d ∈ definitions, d ∈ g.definitions) (c : Counts) :
    Succeeds (forIn definitions PUnit.unit fun d _ => do
        discard ((Item.unit d.key).all g)
        pure (ForInStep.yield PUnit.unit) : Counting PUnit) c fun _ c' =>
      ∀ e : Definition, (e ∈ definitions ∨ c.KnowsExactly g e) → c'.KnowsExactly g e := by
  induction definitions generalizing c with
  | nil => exact Succeeds.pure fun e he => he.resolve_left (by simp)
  | cons d rest ih =>
      have hstep : Succeeds (do
          discard ((Item.unit d.key).all g)
          pure (ForInStep.yield PUnit.unit)) c fun step c' =>
            step = .yield PUnit.unit ∧
              ∀ e : Definition, (e = d ∨ c.KnowsExactly g e) → c'.KnowsExactly g e :=
        (hg.succeeds_all_knowsExactly (hmem d (by simp)) c).discard.bind
          fun _ _ h => Succeeds.pure ⟨rfl, h⟩
      rw [List.forIn_cons]
      refine hstep.bind ?_
      rintro _ t ⟨rfl, ht⟩
      obtain ⟨_, c', hrun, hc'⟩ := ih (fun e he => hmem e (List.mem_cons_of_mem d he)) t
      refine ⟨_, c', hrun, fun e he => hc' e ?_⟩
      rw [List.mem_cons] at he
      have hd := ht e
      tauto

/-- Where all are known exactly, their lines say so. -/
theorem succeeds_lines (hg : g.Valid) {cap : Nat} {sentences : Definition → List Example}
    {definitions : List Definition} (hmem : ∀ d ∈ definitions, d ∈ g.definitions)
    (hknown : ∀ d ∈ definitions, c.get? d.key.whole = some (.exact (sentences d).length)) :
    Succeeds (definitions.mapM fun d =>
        CommandLine.countLine d <$> (Item.unit d.key).count g cap) c fun lines _ =>
      lines = definitions.map fun d => CommandLine.countLine d (.exact (sentences d).length) := by
  induction definitions with
  | nil => exact Succeeds.pure rfl
  | cons d rest ih =>
      obtain ⟨hd, hrest⟩ := List.forall_mem_cons.mp hmem
      obtain ⟨hknown, hlater⟩ := List.forall_mem_cons.mp hknown
      rw [List.mapM_cons, map_eq_pure_bind]
      refine Succeeds.bind ((hg.succeeds_count_of_known hd hknown).bind
        fun _ _ h => Succeeds.pure (R := fun line t => line = CommandLine.countLine d
          (.exact (sentences d).length) ∧ t = c) ⟨congrArg _ h.1, h.2⟩) ?_
      rintro _ t ⟨rfl, rfl⟩
      exact (ih hrest hlater).bind fun lines _ h => Succeeds.pure (by rw [h, List.map_cons])

/-- **Exact counts are exact**, whatever was known before. -/
theorem run_countLines (hg : g.Valid) : ∃ sentences : Definition → List Example,
    (∀ d ∈ g.definitions, (Item.unit d.key).enumerate g = .ok (sentences d)) ∧
      ∀ cap c, ((CommandLine.countLines g cap true).run c).1 =
        .ok (g.definitions.map fun d =>
          CommandLine.countLine d (.exact (sentences d).length)).flatten := by
  choose! sentences hsentences using fun d => hg.exists_enumerate (d := d)
  refine ⟨sentences, hsentences, fun cap c => ?_⟩
  have hlist := hg.succeeds_listing (fun d (hd : d ∈ g.definitions) => hd) c
  have hlines : ∀ t : Counts, (∀ d ∈ g.definitions, t.KnowsExactly g d) →
      Succeeds (g.definitions.mapM fun d =>
        CommandLine.countLine d <$> (Item.unit d.key).count g cap) t fun lines _ =>
          lines = g.definitions.map fun d =>
            CommandLine.countLine d (.exact (sentences d).length) := by
    refine fun t ht => hg.succeeds_lines (fun _ hd => hd) fun d hd => ?_
    obtain ⟨es, hes, hget⟩ := ht d hd
    obtain rfl : sentences d = es := Except.ok.inj ((hsentences d hd).symm.trans hes)
    exact hget
  unfold CommandLine.countLines
  refine Succeeds.eq_ok (R := fun _ => True) (hlist.bind fun _ t ht => ?_)
  refine (hlines t fun d hd => ht d (Or.inl hd)).bind ?_
  rintro lines _ rfl
  exact Succeeds.pure ⟨rfl, trivial⟩

end Graph.Valid

/-! ### The law of a session -/

/--
**What a session leaves alone.**  Whatever was asked before, of the graph or of items of their own,
and under whatever options: each question to an item has its law; a count that is known stays as it
is until an operation that may replace it; and if all definitions are listed in their order, each of
them is then said to have just the sentences that it has.
-/
theorem hasFrame_performAll {definitions : List Definition} {g : Graph}
    (hg : Graph.ofDefinitions definitions = .ok g) {o : Options} {stream : Stream}
    {ops : List Session.Operation} {s : Session}
    (hs : ((Session.performAll ops).run (Session.start g o stream)).2 = s) :
    s.HasFrame ∧
      (∀ place p later, s.known place = some p → (∀ op ∈ later, ¬ op.MayReplace g place) →
        ((Session.performAll later).run s).2.known place = some p) ∧
      ∃ sentences : Definition → List Example,
        (∀ d ∈ g.definitions, (Item.unit d.key).enumerate g = .ok (sentences d)) ∧
          ∀ cap, ((CommandLine.countLines g cap true).run s.progress.counts).1 =
            .ok (g.definitions.map fun d =>
              CommandLine.countLine d (.exact (sentences d).length)).flatten := by
  have hvalid := Graph.valid_of_ofDefinitions hg
  have hgraph : s.graph = g := by
    rw [← hs, Session.graph_performAll]
    rfl
  refine ⟨Session.hasFrame_of_valid (hgraph ▸ hvalid), fun place p later hknown hlater => ?_, ?_⟩
  · rw [← hgraph] at hlater
    exact Session.known_performAll hlater hknown
  · obtain ⟨sentences, hsentences, hlines⟩ := hvalid.run_countLines
    exact ⟨sentences, hsentences, fun cap => hlines cap s.progress.counts⟩

namespace Hello

/-- The session in which the intent was listed. -/
def listed : Session :=
  ((Session.performAll [.all (.unit hello.key)]).run (Session.start graph .default (.ofWords []))).2

/-- A group of its own that says hello twice. -/
def twice : Item :=
  .group "twice" [.mk [.reference hello.key .plain, .reference hello.key .plain] .one none]

/-- Questions that have to do with the intent. -/
def questions : List Session.Operation := [.distinct twice 3, .adopt Choice.tight, .count twice]

theorem known_listed : listed.known place = some (.exact 2) := by
  unfold listed Session.known
  exact counted_performAll (.ofWords [])

end Hello

/-- Who says hello twice leaves the count of the intent alone, and it is printed as it is. -/
theorem hasFrame_performAll_hello :
    ((Session.performAll Hello.questions).run Hello.listed).2.known Hello.place =
        some (.exact 2) ∧
      ((CommandLine.countLines Hello.graph 1 true).run Hello.listed.progress.counts).1 =
        .ok "%[hello]\t2\n".toList := by
  have hlisted : ((Session.performAll [.all (.unit Hello.hello.key)]).run
      (Session.start Hello.graph .default (.ofWords []))).2 = Hello.listed := rfl
  obtain ⟨-, hkept, sentences, hsentences, hlines⟩ :=
    hasFrame_performAll Hello.ofDefinitions_eq hlisted
  refine ⟨hkept Hello.place _ _ Hello.known_listed ?_, ?_⟩
  · simp [Hello.questions, Hello.twice, Hello.place, Session.Operation.MayReplace, Item.place?]
  · have hhello : sentences Hello.hello = [Hello.said "hello", Hello.said "hi"] :=
      Except.ok.inj ((hsentences Hello.hello (by simp [Hello.graph])).symm.trans Hello.enumerate_eq)
    rw [hlines 1]
    simp only [Hello.graph, List.map_cons, List.map_nil, hhello]
    decide +kernel

end Phrasebook
