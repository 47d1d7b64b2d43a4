import Phrasebook.Generation.DistinctSampling
import Phrasebook.Generation.SlotSynonyms

/-!
Data sets: the examples of all intents, for training and for testing.

An intent's directive says how many of its sentences each part gets.  The part for training
is made first and the part for testing from what it left, so that no sentence of an intent
is in both.  A number of sentences is drawn from a stream that depends on the seed, the
intent and the part alone, so that intents do not disturb one another.
-/

namespace Phrasebook

/-- What was made of an intent. -/
structure IntentReport where
  intent : String
  possibilities : Possibilities
  trainRequested : Option Amount
  trainGenerated : Nat
  testRequested : Option Amount
  testGenerated : Nat
  deriving DecidableEq, Repr

/-- What was made altogether. -/
structure Report where
  seed : UInt64
  intents : List IntentReport
  trainExamples : Nat
  testExamples : Nat
  /-- The number of surface forms. -/
  synonyms : Nat
  /-- How often drawing had to be given up and all sentences were listed. -/
  fallbacks : Nat
  deriving DecidableEq, Repr

/-- The examples of one intent. -/
structure IntentExamples where
  train : Batch
  test : Batch
  report : IntentReport

/-- The examples of all intents, and the synonyms of all slots. -/
structure Dataset where
  report : Report
  train : List Example
  test : List Example
  synonyms : Synonyms

/-- The seed of the stream that belongs to a name: the bytes of the name are mixed into the
seed one by one. -/
def streamSeed (seed : UInt64) (name : String) : UInt64 :=
  name.toUTF8.toList.foldl (fun h byte => (h ^^^ byte.toUInt64) * 0x100000001b3)
    (seed ^^^ 0xcbf29ce484222325)

namespace Generating

/-- Runs on a stream of its own. -/
def onStream {α : Type} (stream : Stream) (m : Generating α) : Counting α :=
  ExceptT.mk fun counts =>
    let (result, s) := m.run ⟨counts, stream⟩
    (result, s.counts)

end Generating

namespace Dataset

/-- The examples of an intent that one part gets, none of them seen. -/
def part (g : Graph) (o : Options) (intent : Definition) (split : Split) (seen : Seen) :
    Option Amount → Counting Batch
  | none => return ⟨[], false⟩
  | some .all => do
    let examples ← (Item.unit intent.key).all g
    return ⟨examples.filter fun e => !seen.contains e.key, false⟩
  | some (.count n) =>
    let stream := Stream.ofSeed (streamSeed o.seed (intent.name ++ "/" ++ split.name))
    Generating.onStream stream ((Item.unit intent.key).distinctUnseen g o n seen)

/-- The examples of an intent. -/
def ofIntent (g : Graph) (o : Options) (intent : Definition) : Counting IntentExamples := do
  let directive := intent.effectiveDirective
  let train ← part g o intent .train ∅ directive.train
  let seen := train.examples.foldl (fun s e => s.insert e.key) (∅ : Seen)
  let test ← part g o intent .test seen directive.test
  let possibilities ← (Item.unit intent.key).count g o.possibilityCap
  return {
    train := train
    test := test
    report := {
      intent := intent.name
      possibilities := possibilities
      trainRequested := directive.train
      trainGenerated := train.examples.length
      testRequested := directive.test
      testGenerated := test.examples.length } }

/-- The data set of a graph. -/
def generate (g : Graph) (o : Options) : Counting Dataset := do
  if let .error reason := o.check then throw (.options reason)
  let synonyms ← liftM g.synonyms
  let intents ← (g.ofKind .intent).mapM (ofIntent g o)
  let batches := intents.flatMap fun i => [i.train, i.test]
  return {
    report := {
      seed := o.seed
      intents := intents.map (·.report)
      trainExamples := (intents.map (·.report.trainGenerated)).sum
      testExamples := (intents.map (·.report.testGenerated)).sum
      synonyms := synonyms.size
      fallbacks := batches.countP (·.fallback) }
    train := intents.flatMap (·.train.examples)
    test := intents.flatMap (·.test.examples)
    synonyms := synonyms }

end Dataset

/-! ### Collecting data sets -/

/-- What one or more data sets add up to. -/
structure Collection where
  train : List Example
  test : List Example
  synonyms : Synonyms

namespace Collection

/-- Nothing yet. -/
def empty : Collection := ⟨[], [], .empty⟩

/-- Adds a data set.  One without examples adds no synonyms either. -/
def add (c : Collection) (d : Dataset) : Collection where
  train := c.train ++ d.train
  test := c.test ++ d.test
  synonyms := if d.train.isEmpty && d.test.isEmpty then c.synonyms else c.synonyms.merge d.synonyms

end Collection

end Phrasebook
