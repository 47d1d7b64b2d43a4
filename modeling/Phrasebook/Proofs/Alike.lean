import Phrasebook.Dataset.Basic
import Phrasebook.Proofs.DistinctSampling

/-!
Two computations that go alike.

`Ensures` speaks of one run.  To say that something makes no difference two runs have to be
compared, and what they know differs as they go.  `Alike R m m'` says that from tables that
`R` relates both return the same, failed or not, and reach tables that `R` relates again.
There is a rule for each way to put computations together, so only what reads or writes the
table needs an argument of its own.

Of counting this is the lookup (`Counts.AlikeAt`); the rest is a walk over the template.
Drawing does not look at the table at all.  From counting a definition, listing it and drawing
from it a batch of different sentences, a part of a data set and the examples of an intent
follow (`AnswersAlike`).
-/

namespace Phrasebook

/-- Return the same from related states, and reach related states. -/
def Alike {ε σ α : Type} (R : σ → σ → Prop) (m m' : ExceptT ε (StateM σ) α) : Prop :=
  ∀ s s', R s s' → (m.run s).1 = (m'.run s').1 ∧ R (m.run s).2 (m'.run s').2

namespace Alike

variable {ε σ α β : Type} {R : σ → σ → Prop}

theorem pure (a : α) :
    Alike R (Pure.pure a : ExceptT ε (StateM σ) α) (Pure.pure a) :=
  fun _ _ h => ⟨rfl, h⟩

theorem throw (e : ε) : Alike R (MonadExcept.throw e : ExceptT ε (StateM σ) α)
    (MonadExcept.throw e) :=
  fun _ _ h => ⟨rfl, h⟩

/-- What comes behind a failure does not matter. -/
theorem throw_bind (e : ε) (f f' : α → ExceptT ε (StateM σ) β) :
    Alike R (MonadExcept.throw e >>= f) (MonadExcept.throw e >>= f') :=
  fun _ _ h => ⟨rfl, h⟩

/-- What is computed without the state. -/
theorem liftExcept (x : Except ε α) : Alike R (liftM x : ExceptT ε (StateM σ) α) (liftM x) := by
  intro s s' h
  cases x with
  | error e => exact ⟨rfl, h⟩
  | ok a => exact ⟨rfl, h⟩

theorem modify {f f' : σ → σ} (h : ∀ s s', R s s' → R (f s) (f' s')) :
    Alike R (modify f : ExceptT ε (StateM σ) PUnit) (modify f') :=
  fun s s' hs => ⟨rfl, h s s' hs⟩

/-- What goes on with the state as it is. -/
theorem get_bind {f f' : σ → ExceptT ε (StateM σ) α}
    (h : ∀ t t', R t t' → Alike R (f t) (f' t')) : Alike R (get >>= f) (get >>= f') :=
  fun s s' hs => h s s' hs s s' hs

theorem bind {m m' : ExceptT ε (StateM σ) α} {f f' : α → ExceptT ε (StateM σ) β}
    (hm : Alike R m m') (hf : ∀ a, Alike R (f a) (f' a)) : Alike R (m >>= f) (m' >>= f') := by
  intro s s' hs
  obtain ⟨hresult, hstate⟩ := hm s s' hs
  rw [Ensures.run_bind, Ensures.run_bind]
  rcases hr : m.run s with ⟨x, t⟩
  rcases hr' : m'.run s' with ⟨x', t'⟩
  rw [hr, hr'] at hresult hstate
  obtain rfl : x = x' := hresult
  cases x with
  | error e => exact ⟨rfl, hstate⟩
  | ok a => exact hf a t t' hstate

theorem map {m m' : ExceptT ε (StateM σ) α} (hm : Alike R m m') (f : α → β) :
    Alike R (f <$> m) (f <$> m') := by
  rw [map_eq_pure_bind, map_eq_pure_bind]
  exact bind hm fun a => pure (f a)

theorem mapM {f f' : α → ExceptT ε (StateM σ) β} {xs : List α}
    (h : ∀ x ∈ xs, Alike R (f x) (f' x)) : Alike R (xs.mapM f) (xs.mapM f') := by
  induction xs with
  | nil => exact pure []
  | cons x xs ih =>
      rw [List.mapM_cons, List.mapM_cons]
      refine bind (h x (by simp)) fun y => ?_
      exact bind (ih fun x' hx' => h x' (List.mem_cons_of_mem x hx')) fun ys => pure (y :: ys)

/-- What both return for sure is compared as it is. -/
theorem of_succeeds {m m' : ExceptT ε (StateM σ) α}
    (h : ∀ s s', R s s' → ∃ a, Succeeds m s fun b t => b = a ∧
      Succeeds m' s' fun b' t' => b' = a ∧ R t t') : Alike R m m' := by
  intro s s' hs
  obtain ⟨a, _, t, hrun, rfl, _, t', hrun', rfl, hR⟩ := h s s' hs
  rw [hrun, hrun']
  exact ⟨rfl, hR⟩

end Alike

/-! ### Counting -/

/-- Related tables know the same of a place, and stay related when the same is kept for it. -/
structure Counts.AlikeAt (R : Counts → Counts → Prop) (place : Place) : Prop where
  known : ∀ c c', R c c' → c.get? place = c'.get? place
  set : ∀ c c' p, R c c' → R (c.set place p) (c'.set place p)

/-- A count of the place is looked up alike, or else computed alike and kept. -/
theorem Counts.alike_remember {ε : Type} {R : Counts → Counts → Prop} {place : Place}
    {compute compute' : ExceptT ε (StateM Counts) Possibilities} (hplace : AlikeAt R place)
    (h : Alike R compute compute') :
    Alike R (remember place compute) (remember place compute') := by
  unfold remember
  refine Alike.get_bind fun c c' hc => ?_
  rw [← hplace.known c c' hc]
  cases c.get? place with
  | some p => exact Alike.pure p
  | none =>
      refine Alike.bind h fun p => ?_
      exact Alike.bind (Alike.modify fun c c' => hplace.set c c' p) fun _ => Alike.pure p

/-- Every group in a definition that is computed alike is looked up or computed alike. -/
def GroupsAlike (R : Counts → Counts → Prop) (answer : String → Reference → Counting Possibilities)
    (cap : Nat) (label : String) (owner : Owner) (d : Definition) : Prop :=
  ∀ path rules, path ≠ [] → d.rulesAt (.group path) = some rules →
    ∀ compute, compute = countRules answer cap label owner path 0 (.exact 0) rules →
      Alike R compute compute →
      Alike R (Counts.remember ⟨owner, .group path⟩ compute)
        (Counts.remember ⟨owner, .group path⟩ compute)

section

variable {answer : String → Reference → Counting Possibilities} {cap : Nat} {label : String}
  {owner : Owner} {R : Counts → Counts → Prop} {d : Definition}

mutual

theorem alike_countTokens (hgroups : GroupsAlike R answer cap label owner d) :
    ∀ (tokens : List Token) (path : List Nat) (rules : List Rule) (i j : Nat) (rule : Rule)
      (product : Possibilities), rulesUnder d.allRules path = some rules →
      rules[i]? = some rule → rule.tokens.drop j = tokens →
      (∀ r ∈ referencesOfTokens tokens, Alike R (answer label r) (answer label r)) →
      Alike R (countTokens answer cap label owner (path ++ [i]) j product tokens)
        (countTokens answer cap label owner (path ++ [i]) j product tokens)
  | [] => by
      intro path rules i j rule product _ _ _ _
      rw [countTokens]
      exact Alike.pure product
  | token :: rest => by
      intro path rules i j rule product hpath hrule hdrop hanswer
      rw [referencesOfTokens] at hanswer
      have htoken : rule.tokens[j]? = some token := by
        rw [← List.head?_drop, hdrop]
        rfl
      have hrest : rule.tokens.drop (j + 1) = rest := by
        rw [← List.tail_drop, hdrop]
        rfl
      rw [countTokens]
      refine Alike.bind (alike_countToken hgroups token path rules i j rule hpath hrule htoken
        fun r hr => hanswer r (List.mem_append_left _ hr)) fun q => ?_
      exact alike_countTokens hgroups rest path rules i (j + 1) rule (product.mul cap q) hpath
        hrule hrest fun r hr => hanswer r (List.mem_append_right _ hr)

theorem alike_countToken (hgroups : GroupsAlike R answer cap label owner d) :
    ∀ (token : Token) (path : List Nat) (rules : List Rule) (i j : Nat) (rule : Rule),
      rulesUnder d.allRules path = some rules → rules[i]? = some rule →
      rule.tokens[j]? = some token →
      (∀ r ∈ referencesOfToken token, Alike R (answer label r) (answer label r)) →
      Alike R (countToken answer cap label owner (path ++ [i] ++ [j]) token)
        (countToken answer cap label owner (path ++ [i] ++ [j]) token)
  | .word text m => by
      intro path rules i j rule _ _ _ _
      rw [countToken]
      split
      · exact Alike.pure _
      · exact Alike.pure _
  | .group inner m => by
      intro path rules i j rule hpath hrule htoken hanswer
      rw [referencesOfToken] at hanswer
      have hinner : d.rulesAt (.group (path ++ [i] ++ [j])) = some inner :=
        rulesUnder_append hrule htoken hpath
      have hcompute := alike_countRules hgroups inner (path ++ [i] ++ [j]) inner 0 (.exact 0)
        hinner (List.prefix_refl _) hanswer
      rw [countToken]
      split
      · exact Alike.pure _
      · exact Alike.bind (hgroups _ inner (by simp) hinner _ rfl hcompute)
          fun base => Alike.pure _
  | .reference target m => by
      intro path rules i j rule _ _ _ hanswer
      rw [countToken]
      split
      · exact Alike.pure _
      · exact Alike.bind (hanswer ⟨target, m⟩ (by simp [referencesOfToken]))
          fun base => Alike.pure _

/-- **Rules are counted alike** if references are, wherever the rules stand in the definition. -/
theorem alike_countRules (hgroups : GroupsAlike R answer cap label owner d) :
    ∀ (segment : List Rule) (path : List Nat) (rules : List Rule) (i : Nat)
      (total : Possibilities), rulesUnder d.allRules path = some rules →
      segment <+: rules.drop i →
      (∀ r ∈ referencesOfRules segment, Alike R (answer label r) (answer label r)) →
      Alike R (countRules answer cap label owner path i total segment)
        (countRules answer cap label owner path i total segment)
  | [] => by
      intro path rules i total _ _ _
      rw [countRules]
      exact Alike.pure total
  | .mk tokens weight value :: rest => by
      intro path rules i total hpath hprefix hanswer
      rw [referencesOfRules] at hanswer
      obtain ⟨later, hlater⟩ := hprefix
      have hrule : rules[i]? = some (.mk tokens weight value) := by
        rw [← List.head?_drop, ← hlater]
        rfl
      have hrest : rest <+: rules.drop (i + 1) := by
        rw [← List.tail_drop, ← hlater]
        exact List.prefix_append rest later
      rw [countRules]
      refine Alike.bind (alike_countTokens hgroups tokens path rules i 0 _ (.exact 1) hpath hrule
        rfl fun r hr => hanswer r (List.mem_append_left _ hr)) fun product => ?_
      exact alike_countRules hgroups rest path rules (i + 1) _ hpath hrest
        fun r hr => hanswer r (List.mem_append_right _ hr)

end

/-- The part is a group inside the definition. -/
def Part.IsGroup : Part → Prop
  | .group _ => True
  | _ => False

theorem Definition.not_isGroup_of_counted {variation : Option String} {rules : List Rule}
    {first : Nat} {part : Part} (h : d.counted variation = .ok (rules, first, part)) :
    ¬ part.IsGroup := by
  unfold counted at h
  cases variation with
  | none =>
      obtain ⟨-, -, rfl⟩ : d.allRules = rules ∧ 0 = first ∧ Part.whole = part := by simpa using h
      exact id
  | some name =>
      simp only at h
      split at h
      · injection h
      · obtain ⟨-, -, rfl⟩ : _ = rules ∧ _ = first ∧ Part.variation _ = part := by simpa using h
        exact id

/-- **A use of a definition is counted alike** if related tables know the same of the definition
and its variations. -/
theorem Definition.alike_count (hgroups : GroupsAlike R answer cap d.name owner d)
    (hparts : ∀ part : Part, ¬ part.IsGroup → Counts.AlikeAt R ⟨owner, part⟩)
    (hanswer : ∀ r ∈ d.references, Alike R (answer d.name r) (answer d.name r))
    (variation : Option String) :
    Alike R (d.count answer cap owner variation) (d.count answer cap owner variation) := by
  unfold Definition.count
  cases hcounted : d.counted variation with
  | error e => exact Alike.throw_bind e _ _
  | ok counted =>
      obtain ⟨rules, first, part⟩ := counted
      obtain ⟨hselect, -, hprefix⟩ := Definition.counted_spec hcounted
      refine Counts.alike_remember (hparts part (not_isGroup_of_counted hcounted)) ?_
      exact alike_countRules hgroups rules [] d.allRules first (.exact 0) rfl hprefix
        fun r hr => hanswer r (references_of_select hselect r hr)

end

/-! ### Computations of both kinds -/

/-- The tables are related, and the streams are the same. -/
def Progress.Related (R : Counts → Counts → Prop) (p p' : Progress) : Prop :=
  R p.counts p'.counts ∧ p.stream = p'.stream

namespace Generating

variable {α : Type} {R : Counts → Counts → Prop}

theorem alike_ofCounting {m m' : Counting α} (h : Alike R m m') :
    Alike (Progress.Related R) (ofCounting m) (ofCounting m') := by
  rintro ⟨c, stream⟩ ⟨c', _⟩ ⟨hc, rfl⟩
  obtain ⟨hresult, hstate⟩ := h c c' hc
  exact ⟨hresult, hstate, rfl⟩

theorem alike_ofSampling (m : Sampling α) :
    Alike (Progress.Related R) (ofSampling m) (ofSampling m) := by
  rintro ⟨c, stream⟩ ⟨c', _⟩ ⟨hc, rfl⟩
  exact ⟨rfl, hc, rfl⟩

theorem alike_onStream {m m' : Generating α} (h : Alike (Progress.Related R) m m')
    (stream : Stream) : Alike R (onStream stream m) (onStream stream m') := by
  intro c c' hc
  obtain ⟨hresult, hstate⟩ := h ⟨c, stream⟩ ⟨c', stream⟩ ⟨hc, rfl⟩
  exact ⟨hresult, hstate.1⟩

end Generating

/-! ### Answers about an item -/

namespace Item

/-- The answers about an item go alike in two graphs. -/
structure AnswersAlike (g g' : Graph) (o : Options) (R : Counts → Counts → Prop)
    (item : Item) : Prop where
  count : Alike R (item.count g o.possibilityCap) (item.count g' o.possibilityCap)
  all : Alike R (item.all g) (item.all g')
  sample : item.sample g = item.sample g'

variable {g g' : Graph} {o : Options} {R : Counts → Counts → Prop} {item : Item}

/-- Listing goes alike if the same is listed and the same correction keeps the tables
related. -/
theorem alike_all (h : item.enumerate g = item.enumerate g')
    (hrecord : ∀ n c c', R c c' → R (item.record n c) (item.record n c')) :
    Alike R (item.all g) (item.all g') := by
  unfold Item.all
  rw [h]
  refine Alike.bind (Alike.liftExcept _) fun es => ?_
  exact Alike.bind (Alike.modify fun c c' => hrecord es.length c c') fun _ => Alike.pure es

theorem drawUnseen_congr (h : item.sample g = item.sample g') (seen : Seen) (budget : Nat) :
    drawUnseen g item seen budget = drawUnseen g' item seen budget := by
  induction budget with
  | zero => rfl
  | succ budget ih => rw [drawUnseen, drawUnseen, h, ih]

theorem drawBatch_congr (h : item.sample g = item.sample g') (budget : Nat → Nat)
    (missing : Nat) : ∀ (seen : Seen) (found : List Example),
      drawBatch g item budget seen found missing = drawBatch g' item budget seen found missing := by
  induction missing with
  | zero => exact fun _ _ => rfl
  | succ missing ih =>
      intro seen found
      rw [drawBatch, drawBatch, drawUnseen_congr h]
      simp only [ih]

namespace AnswersAlike

theorem enumerateUnseen (h : item.AnswersAlike g g' o R) (seen : Seen) (missing : Nat) :
    Alike (Progress.Related R) (item.enumerateUnseen g seen missing)
      (item.enumerateUnseen g' seen missing) := by
  unfold Item.enumerateUnseen
  refine Alike.bind (Generating.alike_ofCounting h.all) fun es => ?_
  exact Alike.bind (Generating.alike_ofSampling _) fun shuffled => Alike.pure _

/-- **Batches of different sentences come out alike.** -/
theorem distinctUnseen (h : item.AnswersAlike g g' o R) (n : Nat) (seen : Seen) :
    Alike (Progress.Related R) (item.distinctUnseen g o n seen)
      (item.distinctUnseen g' o n seen) := by
  rw [distinctUnseen_eq, distinctUnseen_eq]
  refine Alike.bind (Generating.alike_ofCounting h.count) fun p => ?_
  simp only [drawBatch_congr h.sample]
  split
  · exact Alike.pure _
  split
  · exact Alike.bind (h.enumerateUnseen seen _) fun es => Alike.pure _
  refine Alike.bind (Generating.alike_ofSampling _) fun ⟨found, seen', missing⟩ => ?_
  split
  · exact Alike.pure _
  · exact Alike.bind (h.enumerateUnseen seen' missing) fun es => Alike.pure _

theorem someDistinct (h : item.AnswersAlike g g' o R) (n : Nat) :
    Alike (Progress.Related R) (item.someDistinct g o n) (item.someDistinct g' o n) :=
  Alike.map (h.distinctUnseen n ∅) _

end AnswersAlike

end Item

/-! ### Data sets -/

namespace Dataset

variable {g g' : Graph} {o : Options} {R : Counts → Counts → Prop} {d : Definition}

theorem alike_part (h : (Item.unit d.key).AnswersAlike g g' o R) (split : Split) (seen : Seen)
    (amount : Option Amount) :
    Alike R (part g o d split seen amount) (part g' o d split seen amount) := by
  cases amount with
  | none => exact Alike.pure _
  | some amount =>
      cases amount with
      | all => exact Alike.bind h.all fun es => Alike.pure _
      | count n => exact Generating.alike_onStream (h.distinctUnseen n seen) _

/-- **What is made of an intent comes out alike.** -/
theorem alike_ofIntent (h : (Item.unit d.key).AnswersAlike g g' o R) :
    Alike R (ofIntent g o d) (ofIntent g' o d) := by
  unfold ofIntent
  refine Alike.bind (alike_part h .train ∅ _) fun train => ?_
  refine Alike.bind (alike_part h .test _ _) fun test => ?_
  exact Alike.bind h.count fun p => Alike.pure _

/-- A data set comes out alike if what is made of each intent does. -/
theorem alike_generate (h : ∀ d ∈ g.ofKind .intent, (Item.unit d.key).AnswersAlike g g o R) :
    Alike R (generate g o) (generate g o) := by
  unfold generate
  cases o.check with
  | error reason => exact Alike.throw_bind (GenerationError.options reason) _ _
  | ok u =>
      refine Alike.bind (Alike.liftExcept g.synonyms) fun synonyms => ?_
      refine Alike.bind (Alike.mapM fun d hd => alike_ofIntent (h d hd)) fun parts => ?_
      exact Alike.pure _

end Dataset

end Phrasebook
