import Phrasebook.Proofs.DistinctSampling
import Phrasebook.Session

/-!
What a session keeps.

Every question that is put to a definition of the graph may learn counts, and listing all
sentences corrects one.  Whatever is asked, in whatever order and with whatever streams, the
counts stay sound, and so the next batch of different sentences has the size it should have.
-/

namespace Phrasebook

namespace Session

/-- What asks something of a definition of the graph, or brings in another stream. -/
def Operation.IsQuery : Operation → Prop
  | .count (.unit _) | .all (.unit _) | .one (.unit _) | .distinct (.unit _) _ => True
  | .restart _ => True
  | _ => False

/-- A session over the graph, with the options, and with counts that satisfy the invariant. -/
structure Keeps (g : Graph) (o : Options) (I : Counts → Prop) (s : Session) : Prop where
  graph : s.graph = g
  options : s.options = o
  counts : I s.progress.counts

variable {g : Graph} {o : Options} {I : Counts → Prop} {s : Session}

theorem performAll_nil (s : Session) : ((performAll []).run s).2 = s := rfl

theorem performAll_cons (op : Operation) (ops : List Operation) (s : Session) :
    ((performAll (op :: ops)).run s).2 = ((performAll ops).run (Session.perform op s).2).2 := by
  unfold performAll
  rw [List.mapM_cons]
  rfl

theorem performAll_append (ops later : List Operation) (s : Session) :
    ((performAll (ops ++ later)).run s).2 =
      ((performAll later).run ((performAll ops).run s).2).2 := by
  induction ops generalizing s with
  | nil => rfl
  | cons op ops ih => rw [List.cons_append, performAll_cons, performAll_cons, ih]

theorem answers_cons (op : Operation) (ops : List Operation) (s : Session) :
    ((performAll (op :: ops)).run s).1 =
      (Session.perform op s).1 :: ((performAll ops).run (Session.perform op s).2).1 := by
  unfold performAll
  rw [List.mapM_cons]
  rfl

/-- Operations each of which has its answer as long as the session is as it should be have
all of their answers. -/
theorem answers_map {α : Type} {op : α → Operation} {f : α → Answer} {K : Session → Prop}
    {xs : List α}
    (h : ∀ x ∈ xs, ∀ s, K s → (Session.perform (op x) s).1 = f x ∧ K (Session.perform (op x) s).2)
    {s : Session} (hs : K s) : ((performAll (xs.map op)).run s).1 = xs.map f := by
  induction xs generalizing s with
  | nil => rfl
  | cons x xs ih =>
      obtain ⟨hanswer, hkept⟩ := h x (by simp) s hs
      rw [List.map_cons, List.map_cons, answers_cons, hanswer]
      rw [ih (fun y hy => h y (List.mem_cons_of_mem x hy)) hkept]

theorem perform_all (item : Item) (s : Session) :
    (Session.perform (.all item) s).2.progress =
      ((Generating.ofCounting (item.all s.graph)).run s.progress).2 := rfl

/-- What keeps the invariant of the counts keeps that of the session. -/
theorem Keeps.run {α : Type} {answer : α → Answer} {m : Generating α} {Q : α → Prop}
    (hm : Ensures (fun p : Progress => I p.counts) m Q) (hs : s.Keeps g o I) :
    (Session.run answer m s).2.Keeps g o I :=
  ⟨hs.graph, hs.options, (hm s.progress hs.counts).1⟩

/-- What returns something answers it, and the session is as its counts are then. -/
theorem Keeps.answers {α : Type} {answer : α → Answer} {m : Generating α} {Q : α → Prop}
    {J : Counts → Prop} (hm : Succeeds m s.progress fun a p => Q a ∧ J p.counts)
    (hs : s.Keeps g o I) :
    ∃ a, Q a ∧ (Session.run answer m s).1 = answer a ∧ (Session.run answer m s).2.Keeps g o J := by
  obtain ⟨a, p, hrun, hQ, hJ⟩ := hm
  have hrun' : Session.run answer m s = (answer a, { s with progress := p }) := by
    unfold Session.run
    rw [hrun]
  rw [hrun']
  exact ⟨a, hQ, rfl, hs.graph, hs.options, hJ⟩

theorem Keeps.answers_count {item : Item} {Q : Possibilities → Prop} {J : Counts → Prop}
    (h : Succeeds (item.count g o.possibilityCap) s.progress.counts fun p c => Q p ∧ J c)
    (hs : s.Keeps g o I) :
    ∃ p, Q p ∧ (Session.perform (.count item) s).1 = .count p ∧
      (Session.perform (.count item) s).2.Keeps g o J := by
  obtain ⟨rfl, rfl, hI⟩ := hs
  have hkeeps : s.Keeps s.graph s.options I := ⟨rfl, rfl, hI⟩
  exact hkeeps.answers (Generating.succeeds_ofCounting h)

theorem Keeps.answers_all {item : Item} {Q : List Example → Prop} {J : Counts → Prop}
    (h : Succeeds (item.all g) s.progress.counts fun es c => Q es ∧ J c) (hs : s.Keeps g o I) :
    ∃ es, Q es ∧ (Session.perform (.all item) s).1 = .examples es ∧
      (Session.perform (.all item) s).2.Keeps g o J := by
  obtain ⟨rfl, rfl, hI⟩ := hs
  have hkeeps : s.Keeps s.graph s.options I := ⟨rfl, rfl, hI⟩
  exact hkeeps.answers (Generating.succeeds_ofCounting h)

/-- The definition whose sentences an operation may list, and so correct the count of. -/
def Operation.listed? : Operation → Option Key
  | .all (.unit key) | .distinct (.unit key) _ => some key
  | _ => none

/-- One query keeps the session as it should be, if counting does and listing what the query
may list. -/
theorem keeps_perform
    (hcount : ∀ key, Ensures I ((Item.unit key).count g o.possibilityCap) fun _ => True)
    {op : Operation} (hop : op.IsQuery)
    (hall : ∀ key, op.listed? = some key →
      Ensures I ((Item.unit key).all g) fun es => (Item.unit key).enumerate g = .ok es)
    (hs : s.Keeps g o I) : (Session.perform op s).2.Keeps g o I := by
  obtain ⟨rfl, rfl, hI⟩ := hs
  have hkeeps : s.Keeps s.graph s.options I := ⟨rfl, rfl, hI⟩
  cases op with
  | count item =>
      cases item with
      | unit key => exact hkeeps.run (Generating.ensures_ofCounting (hcount key))
      | _ => exact hop.elim
  | all item =>
      cases item with
      | unit key => exact hkeeps.run (Generating.ensures_ofCounting (hall key rfl))
      | _ => exact hop.elim
  | one item =>
      cases item with
      | unit key =>
          exact hkeeps.run (Generating.ensures_ofSampling (Ensures.any _))
      | _ => exact hop.elim
  | distinct item n =>
      cases item with
      | unit key =>
          have hanswers : (Item.unit key).Answers s.graph s.options I (fun _ => True)
              fun _ => True :=
            ⟨hcount key, hall key rfl, Ensures.any _,
              fun es hes => ⟨nodup_key_enumerateIn hes, fun _ _ => trivial⟩⟩
          have hbatch := Item.ensures_distinctUnseen hanswers n ∅
          exact hkeeps.run (Ensures.map (hbatch.mono fun _ _ => trivial) (S := fun _ => True))
      | _ => exact hop.elim
  | restart stream => exact ⟨rfl, rfl, hI⟩
  | _ => exact hop.elim

/-- **Queries keep the session as it should be**, in whatever order, if listing what they may
list does. -/
theorem keeps_performAll_of_listed
    (hcount : ∀ key, Ensures I ((Item.unit key).count g o.possibilityCap) fun _ => True)
    {ops : List Operation} (hops : ∀ op ∈ ops, op.IsQuery)
    (hall : ∀ op ∈ ops, ∀ key, op.listed? = some key →
      Ensures I ((Item.unit key).all g) fun es => (Item.unit key).enumerate g = .ok es)
    (hs : s.Keeps g o I) : ((performAll ops).run s).2.Keeps g o I := by
  induction ops generalizing s with
  | nil => exact hs
  | cons op ops ih =>
      have hstep : (Session.perform op s).2.Keeps g o I :=
        keeps_perform hcount (hops op (by simp)) (hall op (by simp)) hs
      rw [performAll_cons]
      exact ih (fun op' hop' => hops op' (List.mem_cons_of_mem op hop'))
        (fun op' hop' => hall op' (List.mem_cons_of_mem op hop')) hstep

/-- Any queries do, if all that is answered about any definition does. -/
theorem keeps_performAll
    (h : ∀ key, (Item.unit key).Answers g o I (fun _ => True) fun _ => True)
    {ops : List Operation} (hops : ∀ op ∈ ops, op.IsQuery) (hs : s.Keeps g o I) :
    ((performAll ops).run s).2.Keeps g o I :=
  keeps_performAll_of_listed (fun key => (h key).count) hops (fun _ _ key _ => (h key).all) hs

end Session

/--
**The size of a batch over a whole session.**  In a graph that passes no arguments, after any
queries, a definition is asked for `n` different sentences none of which is in `seen`.  If
there is an answer, it has `n` of the listed sentences that are not in `seen`, or all of
them if there are fewer, no sentence twice.
-/
theorem distinctUnseen_of_queries {definitions : List Definition} {g : Graph}
    (hg : Graph.ofDefinitions definitions = .ok g) (hfair : g.IsFair)
    (harguments : ∀ d ∈ g.definitions, ∀ r ∈ d.references, r.modifiers.arguments = [])
    {o : Options} (hcap : o.possibilityCap < Possibilities.largest) (start : Stream)
    {ops : List Session.Operation} (hops : ∀ op ∈ ops, op.IsQuery) {d : Definition}
    (hd : d ∈ g.definitions) :
    ∃ es, (Item.unit d.key).enumerate g = .ok es ∧
      ∀ (n : Nat) (seen : Seen) (stream : Stream) (batch : Batch),
        (∀ k ∈ seen, k ∈ es.map Example.key) →
        (((Item.unit d.key).distinctUnseen g o n seen).run
          ⟨((Session.performAll ops).run (Session.start g o start)).2.progress.counts,
            stream⟩).1 = .ok batch →
        batch.examples.length = min n (es.length - seen.size) ∧
          (batch.examples.map Example.key).Nodup ∧
          ∀ e ∈ batch.examples, e.key ∉ seen ∧ e.key ∈ es.map Example.key := by
  have hvalid := Graph.valid_of_ofDefinitions hg
  have hsolid : g.HasSolidArguments := by
    intro d hd r hr a ha
    simp [harguments d hd r hr] at ha
  obtain ⟨es, hes⟩ := hvalid.exists_enumerate hd
  refine ⟨es, hes, fun n seen stream batch hseen h => ?_⟩
  have hkeeps := Session.keeps_performAll (g := g) (o := o)
    (I := Counts.Sound g.layers (fun _ arguments => arguments = []) o.possibilityCap)
    (s := Session.start g o start)
    (fun key => ⟨(hvalid.bounds_unit hcap harguments rfl).mono fun _ _ => trivial,
      Graph.Valid.sound_all fun _ harg => harg, Ensures.any _,
      fun es hes => ⟨nodup_key_enumerateIn hes, fun _ _ => trivial⟩⟩)
    hops ⟨rfl, rfl, Counts.Sound.empty⟩
  have hanswers := hvalid.answers (fun _ arguments => arguments = []) hfair hcap
    harguments (fun _ => Iff.rfl) (hvalid.impartial hsolid d.name d.key) hes
  have hbatch := Item.ensures_size_distinctUnseen hanswers n seen
  obtain ⟨hfresh, hsize⟩ := (hbatch ⟨_, stream⟩ hkeeps.counts).2 batch h
  have hlength := hsize es hes (fun _ he => he) (fun _ hp => hp) hseen
  have hunseen := length_unseenOf (nodup_key_enumerateIn hes) hseen
  exact ⟨by omega, hfresh.nodup, fun e he => ⟨hfresh.unseen e he, hfresh.all e he⟩⟩

/-! ### Two ways to say hello -/

namespace Hello

/-- An intent with two sentences, one to train with and the other to test with. -/
def hello : Definition where
  kind := .intent
  name := "hello"
  rules := [.mk [.word "hello".toList .plain] .one none, .mk [.word "hi".toList .plain] .one none]
  variations := []
  parameters := []
  directive := some ⟨some (.count 1), some .all⟩

/-- The graph of the intent. -/
def graph : Graph := ⟨[hello], [hello]⟩

/-- A sentence of the intent. -/
def said (text : String) : Example := ⟨some "hello", text.toList, []⟩

/-- Where the count of the intent is kept. -/
def place : Place := ⟨.unit hello.key, .whole⟩

/-- The sentences seen when the first one is. -/
def seenHello : Seen := (∅ : Seen).insert (said "hello").key

theorem references_hello : hello.references = [] := rfl

theorem ofDefinitions_eq : Graph.ofDefinitions [hello] = .ok graph :=
  Graph.ofDefinitions_singleton (ok_of_toOption (by decide +kernel)) references_hello

theorem isFair : graph.IsFair := by
  have htwo : Dice.IsFair [.one, .one] := Dice.isFair_of_total (by decide +kernel)
  simp [Graph.IsFair, graph, Definition.IsFair, Definition.ruleSets, Definition.tokens,
    Definition.allRules, hello, tokensWithinRules, tokensWithin, tokensWithinToken,
    Token.rules?, Rule.weight, htwo]

theorem enumerate_eq :
    (Item.unit hello.key).enumerate graph = .ok [said "hello", said "hi"] := by
  have hhello : Text.trim ['h', 'e', 'l', 'l', 'o'] = ['h', 'e', 'l', 'l', 'o'] := by decide
  have hhi : Text.trim ['h', 'i'] = ['h', 'i'] := by decide
  have hdistinct : distinct [said "hello", said "hi"] = [said "hello", said "hi"] :=
    distinct_of_nodup (by decide)
  simp [Item.enumerate, Graph.enumerate, graph, enumerateIn, Definition.enumerate, hello,
    Definition.key, Item.useOf, Definition.select, Definition.allRules, enumerateRules,
    Rule.isReachable, Rule.weight, enumerateTokens, enumerateToken, Modifiers.plain,
    Modifiers.isAbsent, bind, Except.bind, pure, Except.pure, Scope.ofDefinition, Scope.render,
    hhello, hhi, Definition.finish, Modifiers.spread_singleton, Example.recase,
    Example.withIntent]
  exact hdistinct

/-- The count is known to be two. -/
def Counted (c : Counts) : Prop := c.get? place = some (.exact 2)

theorem succeeds_all (c : Counts) : Succeeds ((Item.unit hello.key).all graph) c fun es c' =>
    es = [said "hello", said "hi"] ∧ Counted c' := by
  obtain ⟨_, _, hrun, rfl, rfl⟩ := Item.succeeds_all enumerate_eq c
  exact ⟨_, _, hrun, rfl, (Counts.get?_set _ _ _ _).trans (if_pos rfl)⟩

theorem count_eq (cap : Nat) : (Item.unit hello.key).count graph cap =
    hello.count (countIn cap []) cap (.unit hello.key) none :=
  countIn_of_suffix (Graph.valid_of_ofDefinitions ofDefinitions_eq).layered
    (List.suffix_refl [hello]) (r := Item.useOf hello.key) rfl hello.key.name

theorem succeeds_count {c : Counts} (h : Counted c) (cap : Nat) :
    Succeeds ((Item.unit hello.key).count graph cap) c fun p c' =>
      p = .exact 2 ∧ Counted c' := by
  have hmem : hello ∈ graph.definitions := by simp [graph]
  have hknown : Succeeds ((Item.unit hello.key).count graph cap) c fun p c' =>
      p = .exact 2 ∧ c' = c :=
    (Graph.valid_of_ofDefinitions ofDefinitions_eq).succeeds_count_of_known hmem h
  obtain ⟨_, _, hrun, rfl, rfl⟩ := hknown
  exact ⟨_, _, hrun, rfl, h⟩

/-- With the right count, and one of the two sentences seen, all are listed. -/
theorem succeeds_distinctUnseen {c : Counts} (h : Counted c) (stream : Stream) :
    Succeeds ((Item.unit hello.key).distinctUnseen graph .default 1 seenHello) ⟨c, stream⟩
      fun batch _ => batch = ⟨[said "hi"], false⟩ ∧ True := by
  have hshare : Item.coversShare .default 1 1 = true := by decide +kernel
  have hcapped : Possibilities.isCapped Options.default.possibilityCap ⟨2, false⟩ = false := rfl
  have hsize : seenHello.size = 1 := by simp [seenHello, Std.HashSet.size_insert]
  have hunseen : ([said "hello", said "hi"].filter fun e => !seenHello.contains e.key) =
      [said "hi"] := by
    have hne : (said "hello").key ≠ (said "hi").key := by decide
    simp [seenHello, List.filter, beq_eq_false_iff_ne.mpr hne]
  rw [Item.distinctUnseen_eq]
  refine Succeeds.bind (Generating.succeeds_ofCounting (succeeds_count h _)) ?_
  rintro _ s ⟨rfl, -⟩
  simp only [Item.target, hcapped, hsize, Possibilities.exact, Nat.reduceSub, Nat.min_self,
    Nat.one_ne_zero, hshare, Bool.not_false, Bool.and_self, Bool.false_eq_true, if_true, if_false]
  refine Succeeds.bind (R := fun es _ => es = [said "hi"]) ?_ ?_
  · refine Succeeds.bind (Generating.succeeds_ofCounting (succeeds_all s.counts)) ?_
    rintro _ s' ⟨rfl, -⟩
    simp only [hunseen]
    exact ⟨_, s', rfl, rfl⟩
  · rintro _ s' rfl
    exact Succeeds.pure ⟨rfl, trivial⟩

/-- Listing the sentences leaves their number as the count. -/
theorem counted_performAll (start : Stream) :
    Counted ((Session.performAll [.all (.unit hello.key)]).run
      (Session.start graph .default start)).2.progress.counts := by
  obtain ⟨es, c, hrun, -, hc⟩ := succeeds_all .empty
  rw [Session.performAll_cons, Session.performAll_nil, Session.perform_all,
    Generating.run_ofCounting]
  simp only [Session.start]
  rw [hrun]
  exact hc

end Hello

/-- After the sentences were listed, the one that is left is found, and there is only one. -/
theorem distinctUnseen_of_queries_hello :
    (((Item.unit Hello.hello.key).distinctUnseen Hello.graph .default 1 Hello.seenHello).run
      ⟨((Session.performAll [.all (.unit Hello.hello.key)]).run
        (Session.start Hello.graph .default (.ofWords [0]))).2.progress.counts,
        .ofWords [1]⟩).1 = .ok ⟨[Hello.said "hi"], false⟩ ∧
      ∃ es, (Item.unit Hello.hello.key).enumerate Hello.graph = .ok es ∧
        [Hello.said "hi"].length = min 1 (es.length - Hello.seenHello.size) := by
  have hrun := (Hello.succeeds_distinctUnseen (Hello.counted_performAll (.ofWords [0]))
    (.ofWords [1])).eq_ok
  have hops : ∀ op ∈ [Session.Operation.all (.unit Hello.hello.key)], op.IsQuery := by
    simp [Session.Operation.IsQuery]
  obtain ⟨es, hes, hbatch⟩ := distinctUnseen_of_queries Hello.ofDefinitions_eq Hello.isFair
    (by simp [Hello.graph, Hello.references_hello]) (o := .default) (by decide)
    (.ofWords [0]) hops (d := Hello.hello) (by simp [Hello.graph])
  refine ⟨hrun, es, hes, (hbatch 1 Hello.seenHello _ _ ?_ hrun).1⟩
  obtain rfl : [Hello.said "hello", Hello.said "hi"] = es :=
    Except.ok.inj (Hello.enumerate_eq.symm.trans hes)
  simp [Hello.seenHello]

end Phrasebook
