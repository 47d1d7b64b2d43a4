import Phrasebook.Binary64.Basic
import Phrasebook.Binary64.Reading
import Phrasebook.Binary64.Rounding
import Phrasebook.Binary64.Shortest
import Phrasebook.Binary64.Text
import Phrasebook.Casing
import Phrasebook.CommandLine.Arguments
import Phrasebook.CommandLine.Commands
import Phrasebook.Dataset.Basic
import Phrasebook.Dataset.Files
import Phrasebook.Dataset.Report
import Phrasebook.Document.Decode
import Phrasebook.Document.Encode
import Phrasebook.Document.Text
import Phrasebook.Example
import Phrasebook.Example.Json
import Phrasebook.Generation.Counting
import Phrasebook.Generation.Counts
import Phrasebook.Generation.Distinct
import Phrasebook.Generation.DistinctSampling
import Phrasebook.Generation.Enumeration
import Phrasebook.Generation.Error
import Phrasebook.Generation.Item
import Phrasebook.Generation.Sampling
import Phrasebook.Generation.Scope
import Phrasebook.Generation.SlotSynonyms
import Phrasebook.Graph.Basic
import Phrasebook.Graph.Error
import Phrasebook.Graph.Layers
import Phrasebook.Graph.Loading
import Phrasebook.Graph.Validity
import Phrasebook.Json.Basic
import Phrasebook.Json.Decode
import Phrasebook.Json.Draft
import Phrasebook.Json.Lexer
import Phrasebook.Json.Number
import Phrasebook.Json.Parser
import Phrasebook.Json.Printer
import Phrasebook.Main
import Phrasebook.Options.Basic
import Phrasebook.Options.File
import Phrasebook.Options.Json
import Phrasebook.Possibilities
import Phrasebook.Random.ChaCha
import Phrasebook.Random.Dice
import Phrasebook.Random.Stream
import Phrasebook.Run
import Phrasebook.Schema.Basic
import Phrasebook.Schema.Document
import Phrasebook.Schema.Violations
import Phrasebook.Session
import Phrasebook.Synonyms
import Phrasebook.Template
import Phrasebook.Text.Blank
import Phrasebook.Text.CaseTable
import Phrasebook.Text.Letter
import Phrasebook.Text.Replace
import Phrasebook.Time.Calendar
import Phrasebook.Time.Instant
import Phrasebook.Toml.Basic
import Phrasebook.Toml.Moment
import Phrasebook.Toml.Number
import Phrasebook.Toml.Parser
import Phrasebook.Toml.Reader
import Phrasebook.Toml.Strings
import Phrasebook.Proofs.Ensures
import Phrasebook.Proofs.Text.Letters
import Phrasebook.Proofs.Agreement
import Phrasebook.Proofs.Counting
import Phrasebook.Proofs.Dataset
import Phrasebook.Proofs.Repeats
import Phrasebook.Proofs.Tally
import Phrasebook.Proofs.Reordering
import Phrasebook.Proofs.Exactness
import Phrasebook.Proofs.Corrections
import Phrasebook.Proofs.Entities
import Phrasebook.Proofs.Locality
import Phrasebook.Proofs.Direct
import Phrasebook.Proofs.Alike
import Phrasebook.Proofs.Independence
import Phrasebook.Proofs.Reset
import Phrasebook.Proofs.WellFormed
import Phrasebook.Proofs.Answers
import Phrasebook.Proofs.Drawing
import Phrasebook.Proofs.Json.Numbers
import Phrasebook.Proofs.Json.Spelling
import Phrasebook.Proofs.Json.Fields
import Phrasebook.Proofs.Json.Reading
import Phrasebook.Proofs.Schema
import Phrasebook.Proofs.Decoding
import Phrasebook.Proofs.Encoding
import Phrasebook.Proofs.Synonyms
import Phrasebook.Proofs.Files
import Phrasebook.Proofs.Explained
import Phrasebook.Proofs.Overflow
import Phrasebook.Proofs.Estimates
import Phrasebook.Proofs.Frame
import Phrasebook.Proofs.Substitution
import Phrasebook.Proofs.Arrivals
import Phrasebook.Proofs.Joining
import Phrasebook.Proofs.Seeds
