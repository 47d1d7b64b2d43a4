import Phrasebook.Dataset.Basic

/-!
Sessions: a graph in use.

Three things live as long as a session: what is known about the numbers of sentences, the
options, and the random stream.  Everything else that is asked of a graph leaves no trace.
An operation that fails keeps what it had learnt until then.
-/

namespace Phrasebook

/-- A graph in use. -/
structure Session where
  graph : Graph
  options : Options
  progress : Progress

namespace Session

/-- What can be done in a session. -/
inductive Operation where
  /-- Says how many sentences an item has. -/
  | count (item : Item)
  /-- Lists the sentences of an item. -/
  | all (item : Item)
  /-- Draws a sentence of an item. -/
  | one (item : Item)
  /-- Draws different sentences of an item. -/
  | distinct (item : Item) (n : Nat)
  /-- Makes a data set. -/
  | dataset
  /-- Corrects the count of an item. -/
  | correct (item : Item) (count : Possibilities)
  /-- Forgets the count of an item. -/
  | clear (item : Item)
  /-- Forgets the counts of the graph. -/
  | reset
  /-- Goes on with other options. -/
  | adopt (options : Options)
  /-- Goes on with another random stream. -/
  | restart (stream : Stream)

/-- What an operation answers. -/
inductive Answer where
  | count (p : Possibilities)
  | examples (es : List Example)
  | dataset (d : Dataset)
  | previous (p : Option Possibilities)
  | done
  | failed (reason : GenerationError)

/-- A session at its beginning. -/
def start (g : Graph) (o : Options) (stream : Stream) : Session := ⟨g, o, ⟨.empty, stream⟩⟩

/-- What a generator makes in a session. -/
def run {α : Type} (answer : α → Answer) (m : Generating α) : StateM Session Answer := fun s =>
  let (result, progress) := ExceptT.run m s.progress
  let answered :=
    match result with
    | .ok a => answer a
    | .error reason => .failed reason
  (answered, { s with progress := progress })

/-- Changes what is known about the numbers of sentences. -/
def learn (answer : Counts → Answer) (f : Counts → Counts) : StateM Session Answer := fun s =>
  (answer s.progress.counts,
    { s with progress := { s.progress with counts := f s.progress.counts } })

/-- Performs an operation. -/
def perform : Operation → StateM Session Answer
  | .count item => do
    let s ← get
    run .count (Generating.ofCounting (item.count s.graph s.options.possibilityCap))
  | .all item => do
    let s ← get
    run .examples (Generating.ofCounting (item.all s.graph))
  | .one item => do
    let s ← get
    run (fun e => .examples [e]) (Generating.ofSampling (item.sample s.graph))
  | .distinct item n => do
    let s ← get
    run .examples (item.someDistinct s.graph s.options n)
  | .dataset => do
    let s ← get
    run .dataset (Generating.ofCounting (Dataset.generate s.graph s.options))
  | .correct item p =>
    match item.place? with
    | some place => learn (fun counts => .previous (counts.get? place)) (·.set place p)
    | none => return .previous none
  | .clear item =>
    match item.place? with
    | some place => learn (fun _ => .done) (·.erase place)
    | none => return .done
  | .reset => learn (fun _ => .done) Counts.reset
  | .adopt o => modifyGet fun s => (.done, { s with options := o })
  | .restart stream => modifyGet fun s =>
    (.done, { s with progress := { s.progress with stream := stream } })

/-- Performs operations one after the other. -/
def performAll (ops : List Operation) : StateM Session (List Answer) := ops.mapM perform

end Session

end Phrasebook
