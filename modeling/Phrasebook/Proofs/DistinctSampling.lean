import Phrasebook.Generation.DistinctSampling
import Phrasebook.Proofs.Agreement
import Phrasebook.Proofs.Counting
import Mathlib.Data.List.Nodup

/-!
What a batch of different sentences is.

Whatever the counts, the options and the stream, the examples of a batch are `Fresh`: no two
of them are the same sentence and none was seen.  Whether they were drawn or listed does not
matter, nor does where drawing was given up; the sentences seen grow by those that are
found, and what is listed in the end is filtered by them.

How many there are does depend on the counts, but on nothing else: as many as are aimed for,
or all that are unseen if these are fewer.  With a count that is a bound this is the number
asked for, or all that are unseen.  How often is drawn in vain, and from which share on all
are listed, changes how a batch is found and not how large it is.
-/

namespace Phrasebook

/-! ### Computations of both kinds -/

namespace Generating

variable {α : Type} {I : Counts → Prop} {Q : α → Prop}

theorem run_ofCounting (m : Counting α) (s : Progress) :
    (ofCounting m).run s = ((m.run s.counts).1, { s with counts := (m.run s.counts).2 }) := rfl

theorem succeeds_ofCounting {m : Counting α} {s : Progress} {R : α → Counts → Prop}
    (h : Succeeds m s.counts R) : Succeeds (ofCounting m) s fun a s' => R a s'.counts := by
  obtain ⟨a, c, hrun, hR⟩ := h
  exact ⟨a, { s with counts := c }, by rw [run_ofCounting, hrun], hR⟩

theorem ensures_ofCounting {m : Counting α} (h : Ensures I m Q) :
    Ensures (fun s : Progress => I s.counts) (ofCounting m) Q := by
  intro s hs
  exact h s.counts hs

theorem ensures_ofSampling {m : Sampling α} (h : Yields m Q) :
    Ensures (fun s : Progress => I s.counts) (ofSampling m) Q := by
  intro s hs
  exact ⟨hs, (h s.stream trivial).2⟩

end Generating

/-! ### Fresh examples -/

/-- Examples that are different sentences, none of which was seen, and all of which satisfy
`P`. -/
structure Fresh (P : Example → Prop) (seen : Seen) (es : List Example) : Prop where
  nodup : (es.map Example.key).Nodup
  unseen : ∀ e ∈ es, e.key ∉ seen
  all : ∀ e ∈ es, P e

/-- The examples that were not seen. -/
def unseenOf (seen : Seen) (es : List Example) : List Example :=
  es.filter fun e => !seen.contains e.key

theorem mem_unseenOf {seen : Seen} {es : List Example} {e : Example} :
    e ∈ unseenOf seen es ↔ e ∈ es ∧ e.key ∉ seen := by
  simp [unseenOf]

theorem nodup_unseenOf {seen : Seen} {es : List Example} (h : (es.map Example.key).Nodup) :
    ((unseenOf seen es).map Example.key).Nodup :=
  (List.filter_sublist.map Example.key).nodup h

theorem Fresh.nil (P : Example → Prop) (seen : Seen) : Fresh P seen [] :=
  ⟨by simp, by simp, by simp⟩

/-- What is taken of the unseen examples, in any order, is fresh. -/
theorem Fresh.take {P : Example → Prop} {seen : Seen} {es shuffled : List Example}
    (hnodup : (es.map Example.key).Nodup) (hall : ∀ e ∈ es, P e)
    (hperm : shuffled.Perm (unseenOf seen es)) (n : Nat) : Fresh P seen (shuffled.take n) := by
  have hmem : ∀ e ∈ shuffled.take n, e ∈ es ∧ e.key ∉ seen := fun e he =>
    mem_unseenOf.mp (hperm.subset (List.mem_of_mem_take he))
  refine ⟨?_, fun e he => (hmem e he).2, fun e he => hall e (hmem e he).1⟩
  have hshuffled : (shuffled.map Example.key).Nodup :=
    ((hperm.map Example.key).nodup_iff).mpr (nodup_unseenOf hnodup)
  exact ((List.take_sublist n shuffled).map Example.key).nodup hshuffled

/-- What is left of different examples without some of their keys. -/
theorem length_filter_key {es : List Example} (hnodup : (es.map Example.key).Nodup)
    {p q : Text → Bool} {keys : List Text} (hkeys : keys.Nodup)
    (hsub : ∀ k ∈ keys, k ∈ es.map Example.key ∧ p k = true)
    (hq : ∀ k, q k = true ↔ p k = true ∧ k ∉ keys) :
    (es.filter fun e => q e.key).length + keys.length = (es.filter fun e => p e.key).length := by
  have hfilter : ∀ r : Text → Bool, (es.filter fun e => r e.key).map Example.key =
      (es.map Example.key).filter r := by
    intro r
    rw [List.filter_map]
    rfl
  have hperm : (((es.map Example.key).filter q) ++ keys).Perm ((es.map Example.key).filter p) := by
    rw [List.perm_ext_iff_of_nodup ?_ (hnodup.filter p)]
    · intro k
      rw [List.mem_append, List.mem_filter, List.mem_filter, hq]
      constructor
      · rintro (⟨hk, hp, -⟩ | hk)
        · exact ⟨hk, hp⟩
        · exact hsub k hk
      · rintro ⟨hk, hp⟩
        by_cases hmem : k ∈ keys
        · exact Or.inr hmem
        · exact Or.inl ⟨hk, hp, hmem⟩
    · refine (hnodup.filter q).append hkeys ?_
      intro k hk hmem
      exact ((hq k).mp (List.mem_filter.mp hk).2).2 hmem
  have hlength := hperm.length_eq
  rw [List.length_append, ← hfilter, ← hfilter, List.length_map, List.length_map] at hlength
  exact hlength

/-- If only listed sentences were seen, all others are unseen. -/
theorem length_unseenOf {es : List Example} {seen : Seen} (hnodup : (es.map Example.key).Nodup)
    (hseen : ∀ k ∈ seen, k ∈ es.map Example.key) :
    (unseenOf seen es).length + seen.size = es.length := by
  have hkeys : seen.toList.Nodup := seen.distinct_toList.imp fun h heq => by simp [heq] at h
  have hlength := length_filter_key hnodup (p := fun _ => true) (q := fun k => !seen.contains k)
    hkeys (fun k hk => ⟨hseen k (by simpa using hk), rfl⟩) (by simp)
  simpa [unseenOf, Std.HashSet.length_toList] using hlength

/-! ### Drawing -/

/-- What was drawn since `seen₀` is fresh, and `seen` knows of it. -/
structure Drawn (P : Example → Prop) (seen₀ : Seen) (found : List Example) (seen : Seen) : Prop
    extends Fresh P seen₀ found where
  mem : ∀ k, k ∈ seen ↔ k ∈ seen₀ ∨ k ∈ found.map Example.key

namespace Drawn

variable {P : Example → Prop} {seen₀ seen : Seen} {found : List Example}

theorem start (P : Example → Prop) (seen : Seen) : Drawn P seen [] seen :=
  ⟨Fresh.nil P seen, by simp⟩

/-- One more example keeps the batch fresh, if it is unseen. -/
theorem step (h : Drawn P seen₀ found seen) {e : Example} (he : P e) (hunseen : e.key ∉ seen) :
    Drawn P seen₀ (e :: found) (seen.insert e.key) := by
  have hnot : e.key ∉ seen₀ ∧ e.key ∉ found.map Example.key :=
    not_or.mp fun hor => hunseen ((h.mem e.key).mpr hor)
  refine ⟨⟨List.nodup_cons.mpr ⟨hnot.2, h.nodup⟩, ?_, ?_⟩, fun k => ?_⟩
  · exact List.forall_mem_cons.mpr ⟨hnot.1, h.unseen⟩
  · exact List.forall_mem_cons.mpr ⟨he, h.all⟩
  · rw [Std.HashSet.mem_insert, h.mem, List.map_cons, List.mem_cons, beq_iff_eq, eq_comm]
    tauto

/-- Drawn and listed examples together are fresh, if the listed ones are to the drawn. -/
theorem append (h : Drawn P seen₀ found seen) {listed : List Example}
    (hl : Fresh P seen listed) : Fresh P seen₀ (found.reverse ++ listed) := by
  have hnew : ∀ e ∈ listed, e.key ∉ seen₀ ∧ e.key ∉ found.map Example.key := fun e he =>
    not_or.mp fun hor => hl.unseen e he ((h.mem e.key).mpr hor)
  refine ⟨?_, fun e he => ?_, fun e he => ?_⟩
  · rw [List.map_append, List.map_reverse]
    refine (List.nodup_reverse.mpr h.nodup).append hl.nodup ?_
    intro k hk hmem
    obtain ⟨e, he, rfl⟩ := List.mem_map.mp hmem
    exact (hnew e he).2 (List.mem_reverse.mp hk)
  · rcases List.mem_append.mp he with he | he
    · exact h.unseen e (List.mem_reverse.mp he)
    · exact (hnew e he).1
  · rcases List.mem_append.mp he with he | he
    · exact h.all e (List.mem_reverse.mp he)
    · exact hl.all e he

/-- Of the listed examples, those that were drawn are no longer unseen. -/
theorem length_unseenOf {es : List Example} (h : Drawn P seen₀ found seen)
    (hnodup : (es.map Example.key).Nodup) (hlisted : ∀ e, P e → e.key ∈ es.map Example.key) :
    (unseenOf seen es).length + found.length = (unseenOf seen₀ es).length := by
  have hlength := length_filter_key hnodup (p := fun k => !seen₀.contains k)
    (q := fun k => !seen.contains k) h.nodup ?_ ?_
  · simpa [unseenOf] using hlength
  · intro k hk
    obtain ⟨e, he, rfl⟩ := List.mem_map.mp hk
    exact ⟨hlisted e (h.all e he), by simpa using h.unseen e he⟩
  · intro k
    have hmem := h.mem k
    simp only [Bool.not_eq_true', ← Bool.not_eq_true, Std.HashSet.contains_iff_mem, hmem]
    tauto

end Drawn

namespace Item

variable {g : Graph} {item : Item} {P : Example → Prop}

theorem yields_drawUnseen (hsample : Yields (item.sample g) P) (seen : Seen) (budget : Nat) :
    Yields (drawUnseen g item seen budget) fun drawn =>
      ∀ e, drawn = some e → P e ∧ e.key ∉ seen := by
  induction budget with
  | zero => exact Ensures.pure (by simp)
  | succ budget ih =>
      rw [drawUnseen]
      refine Ensures.bind hsample fun e he => ?_
      by_cases hseen : seen.contains e.key = true
      · rw [if_pos hseen]
        exact ih
      · rw [if_neg hseen]
        refine Ensures.pure fun e' he' => ?_
        obtain rfl : e = e' := Option.some.inj he'
        exact ⟨he, by simpa using hseen⟩

/-- **Drawing keeps the batch fresh**, and what is not found is missing. -/
theorem yields_drawBatch (hsample : Yields (item.sample g) P) (budget : Nat → Nat)
    {seen₀ : Seen} (missing : Nat) (found : List Example) (seen : Seen)
    (h : Drawn P seen₀ found seen) :
    Yields (drawBatch g item budget seen found missing) fun result =>
      Drawn P seen₀ result.1 result.2.1 ∧
        result.1.length + result.2.2 = found.length + missing := by
  induction missing generalizing found seen with
  | zero => exact Ensures.pure ⟨h, rfl⟩
  | succ missing ih =>
      rw [drawBatch]
      refine Ensures.bind (yields_drawUnseen hsample seen (budget found.length)) ?_
      intro drawn hdrawn
      cases drawn with
      | none => exact Ensures.pure ⟨h, rfl⟩
      | some e =>
          obtain ⟨he, hunseen⟩ := hdrawn e rfl
          refine (ih (e :: found) (seen.insert e.key) (h.step he hunseen)).mono ?_
          intro result hresult
          refine ⟨hresult.1, ?_⟩
          rw [hresult.2, List.length_cons]
          omega

/-! ### Batches -/

/-- What is known of the answers about an item: its count satisfies `B`, its sentences are
listed without repeats, and each one that is listed or drawn satisfies `P`. -/
structure Answers (g : Graph) (o : Options) (I : Counts → Prop) (P : Example → Prop)
    (B : Possibilities → Prop) (item : Item) : Prop where
  count : Ensures I (item.count g o.possibilityCap) B
  all : Ensures I (item.all g) fun es => item.enumerate g = .ok es
  sample : Yields (item.sample g) P
  enumerate : ∀ es, item.enumerate g = .ok es → (es.map Example.key).Nodup ∧ ∀ e ∈ es, P e

variable {o : Options} {I : Counts → Prop} {B : Possibilities → Prop}

theorem ensures_enumerateUnseen (h : item.Answers g o I P B) (seen : Seen) (missing : Nat) :
    Ensures (fun s : Progress => I s.counts) (enumerateUnseen g item seen missing) fun chosen =>
      ∃ es shuffled : List Example, item.enumerate g = .ok es ∧
        shuffled.Perm (unseenOf seen es) ∧ chosen = shuffled.take missing := by
  unfold enumerateUnseen
  refine Ensures.bind (Generating.ensures_ofCounting h.all) fun es hes => ?_
  refine Ensures.bind (Q := fun shuffled => shuffled.Perm (unseenOf seen es))
    (Generating.ensures_ofSampling (Ensures.liftState fun s _ =>
      ⟨trivial, Dice.perm_shuffle _ s⟩)) fun shuffled hperm => ?_
  exact Ensures.pure ⟨es, shuffled, hes, hperm, rfl⟩

/-- How many sentences are aimed for, given the count. -/
def target (cap n : Nat) (seen : Seen) (p : Possibilities) : Nat :=
  if p.isCapped cap then n else min n (p.value - seen.size)

theorem distinctUnseen_eq (g : Graph) (o : Options) (item : Item) (n : Nat) (seen : Seen) :
    item.distinctUnseen g o n seen = (do
      let p ← Generating.ofCounting (item.count g o.possibilityCap)
      let capped := p.isCapped o.possibilityCap
      let aim := target o.possibilityCap n seen p
      if aim = 0 then return ⟨[], false⟩
      else if !capped && coversShare o aim (p.value - seen.size) then
        return ⟨← enumerateUnseen g item seen aim, false⟩
      else
        let budget (found : Nat) : Nat :=
          if capped then o.maxRetries else retryBudget o.maxRetries (found + seen.size) p.value
        let (found, seen, missing) ←
          Generating.ofSampling (drawBatch g item budget seen [] aim)
        if missing = 0 then return ⟨found.reverse, false⟩
        else return ⟨found.reverse ++ (← enumerateUnseen g item seen missing), true⟩) := rfl

/-- A count that is a bound aims for no fewer than can be had. -/
theorem min_target {cap n unseen : Nat} {seen : Seen} {p : Possibilities}
    (h : p.Bounds cap (unseen + seen.size)) : min (target cap n seen p) unseen = min n unseen := by
  unfold target
  rcases h with h | h
  · rw [if_pos h]
  · split
    · rfl
    · omega

/-- As many as are aimed for, or all the unseen ones if these are fewer, of those listed. -/
def HasAimed (g : Graph) (item : Item) (P : Example → Prop) (seen : Seen) (aim : Nat)
    (es : List Example) : Prop :=
  ∀ listed, item.enumerate g = .ok listed → (∀ e, P e → e.key ∈ listed.map Example.key) →
    es.length = min aim (unseenOf seen listed).length

/--
**A batch is fresh**, and of the size that is aimed for, if what is drawn is listed.  The
invariant is one about counts only, since the stream may be anything.
-/
theorem ensures_distinctUnseen (h : item.Answers g o I P B) (n : Nat) (seen : Seen) :
    Ensures (fun s : Progress => I s.counts) (item.distinctUnseen g o n seen) fun batch =>
      Fresh P seen batch.examples ∧ ∃ p, B p ∧
        HasAimed g item P seen (target o.possibilityCap n seen p) batch.examples := by
  rw [distinctUnseen_eq]
  refine Ensures.bind (Generating.ensures_ofCounting h.count) fun p hp => ?_
  simp only
  generalize haim : target o.possibilityCap n seen p = aim
  by_cases hzero : aim = 0
  · rw [if_pos hzero]
    refine Ensures.pure ⟨Fresh.nil P seen, p, hp, fun listed _ _ => ?_⟩
    simp [haim, hzero]
  rw [if_neg hzero]
  split
  · refine Ensures.bind (ensures_enumerateUnseen h seen aim) fun chosen hchosen => ?_
    obtain ⟨es, shuffled, hes, hperm, rfl⟩ := hchosen
    obtain ⟨hnodup, hall⟩ := h.enumerate es hes
    refine Ensures.pure ⟨Fresh.take hnodup hall hperm aim, p, hp, fun listed hlisted _ => ?_⟩
    obtain rfl : es = listed := Except.ok.inj (hes.symm.trans hlisted)
    rw [haim, List.length_take, hperm.length_eq]
  · refine Ensures.bind (Generating.ensures_ofSampling
      (yields_drawBatch h.sample _ aim [] seen (Drawn.start P seen))) fun result hresult => ?_
    obtain ⟨found, seen', missing⟩ := result
    obtain ⟨hdrawn, hmissing⟩ := hresult
    simp only [List.length_nil, Nat.zero_add] at hmissing hdrawn
    simp only
    by_cases hnone : missing = 0
    · rw [if_pos hnone]
      refine Ensures.pure ⟨?_, p, hp, fun listed hlisted hP => ?_⟩
      · simpa using hdrawn.append (Fresh.nil P seen')
      · have hleft := hdrawn.length_unseenOf (h.enumerate listed hlisted).1 hP
        rw [haim, List.length_reverse]
        omega
    · rw [if_neg hnone]
      refine Ensures.bind (ensures_enumerateUnseen h seen' missing) fun chosen hchosen => ?_
      obtain ⟨es, shuffled, hes, hperm, rfl⟩ := hchosen
      obtain ⟨hnodup, hall⟩ := h.enumerate es hes
      refine Ensures.pure ⟨hdrawn.append (Fresh.take hnodup hall hperm missing), p, hp, ?_⟩
      intro listed hlisted hP
      obtain rfl : es = listed := Except.ok.inj (hes.symm.trans hlisted)
      have hleft := hdrawn.length_unseenOf hnodup hP
      rw [haim, List.length_append, List.length_reverse, List.length_take, hperm.length_eq]
      omega

/-- If only listed sentences are drawn or seen and the count is a bound, these are as many
as `size` makes of the number of unseen sentences. -/
def HasSize (g : Graph) (o : Options) (P : Example → Prop) (B : Possibilities → Prop)
    (item : Item) (seen : Seen) (size : Nat → Nat) (es : List Example) : Prop :=
  ∀ listed, item.enumerate g = .ok listed → (∀ e, P e → e.key ∈ listed.map Example.key) →
    (∀ p, B p → p.Bounds o.possibilityCap listed.length) →
    (∀ k ∈ seen, k ∈ listed.map Example.key) → es.length = size (unseenOf seen listed).length

/-- **A batch has as many sentences as were asked for**, or all that are unseen. -/
theorem ensures_size_distinctUnseen (h : item.Answers g o I P B) (n : Nat) (seen : Seen) :
    Ensures (fun s : Progress => I s.counts) (item.distinctUnseen g o n seen) fun batch =>
      Fresh P seen batch.examples ∧ item.HasSize g o P B seen (min n) batch.examples := by
  refine (ensures_distinctUnseen h n seen).mono fun batch hbatch => ?_
  obtain ⟨hfresh, p, hp, hlength⟩ := hbatch
  refine ⟨hfresh, fun listed hlisted hP hB hseen => ?_⟩
  have hunseen := length_unseenOf (h.enumerate listed hlisted).1 hseen
  rw [hlength listed hlisted hP, min_target (by rw [hunseen]; exact hB p hp)]

end Item

/-! ### Batches of a definition -/

namespace Graph.Valid

variable {g : Graph} {o : Options}

/-- What is known of the answers about a definition that is used without arguments. -/
theorem answers (hg : g.Valid) (allowed : Key → List Text → Prop) (hfair : g.IsFair)
    (hcap : o.possibilityCap < Possibilities.largest)
    (hallowed : ∀ d ∈ g.definitions, ∀ r ∈ d.references, allowed r.target r.modifiers.arguments)
    {d : Definition} (hkey : ∀ arguments, allowed d.key arguments ↔ arguments = [])
    (himpartial : g.Impartial d.name (Item.useOf d.key)) {es : List Example}
    (hes : (Item.unit d.key).enumerate g = .ok es) :
    (Item.unit d.key).Answers g o (Counts.Sound g.layers allowed o.possibilityCap)
      (fun e => e.key ∈ es.map Example.key) (·.Bounds o.possibilityCap es.length) where
  count := (hg.bounds_unit hcap hallowed ((hkey []).mpr rfl)).mono fun p hp => hp es hes
  all := sound_all fun arguments => (hkey arguments).mp
  sample := hg.yields_sample hfair himpartial hes
  enumerate := by
    intro es' hes'
    obtain rfl : es = es' := Except.ok.inj (hes.symm.trans hes')
    exact ⟨nodup_key_enumerateIn hes, fun e he => List.mem_map_of_mem he⟩

end Graph.Valid

end Phrasebook
