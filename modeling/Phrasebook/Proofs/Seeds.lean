import Mathlib.Data.LawfulXor.Basic
import Mathlib.Data.UInt
import Phrasebook.Dataset.Basic

/-!
The seeds of streams.

A name is mixed into a seed byte by byte.  Two moves mix in a byte, and both can be taken back: an
exclusive or takes itself back, and the factor of the product that follows is odd, so that it has
an inverse among the machine words.  So each byte permutes the seeds, and with its bytes the name
does: what comes out tells what went in, and seeds that differ still do when a name is mixed in.
-/

namespace Phrasebook

/-! ### One byte -/

/-- A byte mixed into a seed. -/
def mixByte (h : UInt64) (byte : UInt8) : UInt64 := (h ^^^ byte.toUInt64) * 0x100000001b3

/-- The factor of one step as a unit, with the word that takes the product back. -/
def mixFactor : UInt64ˣ where
  val := 0x100000001b3
  inv := 0xce965057aff6957b
  val_inv := by decide
  inv_val := by decide

/-- **A byte permutes the seeds.** -/
theorem bijective_mixByte (byte : UInt8) : Function.Bijective fun h => mixByte h byte := by
  have hxor : Function.Bijective fun h : UInt64 => h ^^^ byte.toUInt64 :=
    (xor_left_involutive byte.toUInt64).bijective
  have hmul : Function.Bijective fun h : UInt64 => h * 0x100000001b3 :=
    mixFactor.mulRight_bijective
  exact hmul.comp hxor

/-! ### A name -/

/-- What one byte does, any number of bytes do. -/
theorem bijective_foldl_mixByte (bytes : List UInt8) :
    Function.Bijective fun h => bytes.foldl mixByte h := by
  induction bytes with
  | nil => exact Function.bijective_id
  | cons byte rest ih => exact ih.comp (bijective_mixByte byte)

theorem streamSeed_eq (seed : UInt64) (name : String) :
    streamSeed seed name = name.toUTF8.toList.foldl mixByte (seed ^^^ 0xcbf29ce484222325) := rfl

theorem bijective_streamSeed (name : String) :
    Function.Bijective fun seed => streamSeed seed name := by
  have hxor : Function.Bijective fun seed : UInt64 => seed ^^^ 0xcbf29ce484222325 :=
    (xor_left_involutive 0xcbf29ce484222325).bijective
  simp only [streamSeed_eq]
  exact (bijective_foldl_mixByte name.toUTF8.toList).comp hxor

/-! ### An intent and a part -/

/-- The seed of the stream from which the sentences of an intent are drawn for one part. -/
def Definition.partSeed (intent : Definition) (split : Split) (seed : UInt64) : UInt64 :=
  streamSeed seed (intent.name ++ "/" ++ split.name)

/--
**Seeds never collapse.**  Every name permutes the seeds.  A number of sentences of an intent is
drawn for one part from the stream of its own seed, and this differs whenever the base seeds do.
-/
theorem streamSeeds_kept_apart :
    (∀ name, Function.Bijective fun seed => streamSeed seed name) ∧
      ∀ (intent : Definition) (split : Split),
        (∀ seed seed' : UInt64, seed ≠ seed' →
          intent.partSeed split seed ≠ intent.partSeed split seed') ∧
        ∀ (g : Graph) (o : Options) (seen : Seen) (n : Nat),
          Dataset.part g o intent split seen (some (.count n)) =
            Generating.onStream (Stream.ofSeed (intent.partSeed split o.seed))
              ((Item.unit intent.key).distinctUnseen g o n seen) := by
  refine ⟨bijective_streamSeed, fun intent split => ⟨fun seed seed' hne hsame => ?_, ?_⟩⟩
  · exact hne ((bijective_streamSeed _).injective hsame)
  · intro g o seen n
    rfl

/-! ### A farewell -/

namespace Farewell

/-- An intent with a single sentence. -/
def wave : Definition where
  kind := .intent
  name := "wave"
  rules := [.mk [.word "bye".toList .plain] .one none]
  variations := []
  parameters := []
  directive := none

end Farewell

/-- Under the base seeds 1 and 2 the farewell is drawn from different streams. -/
theorem streamSeeds_kept_apart_wave :
    (1 : UInt64) ≠ 2 ∧ Farewell.wave.partSeed .train 1 ≠ Farewell.wave.partSeed .train 2 :=
  ⟨by decide, (streamSeeds_kept_apart.2 Farewell.wave .train).1 1 2 (by decide)⟩

end Phrasebook
