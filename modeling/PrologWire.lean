import PrologWire.Numeric.FloatFormat
import PrologWire.Text.Message
import PrologWire.Text.Quoted
import PrologWire.Wire.Buffer
import PrologWire.Wire.VarTable
import PrologWire.Wire.Sink
import PrologWire.Arena.View
import PrologWire.Arena.Build
import PrologWire.Arena.Order
import PrologWire.Arena.Display
import PrologWire.Arena.Inspect
import PrologWire.Arena.Calls
import PrologWire.Sicstus.Encoder
import PrologWire.Sicstus.Writer
import PrologWire.Swi.Encoder
import PrologWire.Json.Terms
import PrologWire.Json.Reader
import PrologWire.Arena.HandleOrder
import PrologWire.Main
import PrologWire.Numeric.DecimalText
import PrologWire.Arena.Access
import PrologWire.Arena.Walk
import PrologWire.Proofs.Sicstus.Delivery
import PrologWire.Proofs.Swi.RoundTrip
import PrologWire.Proofs.Arena.Terms
import PrologWire.Proofs.Sicstus.WholeTerms
import PrologWire.Proofs.Arena.History
import PrologWire.Proofs.Arena.Stale
import PrologWire.Proofs.Arena.Shares
import PrologWire.Proofs.Arena.Made
import PrologWire.Proofs.Numeric.Decimal
import PrologWire.Proofs.Numeric.Rounding
import PrologWire.Proofs.Arena.TreeOrder
import PrologWire.Proofs.Arena.OrderLaws
import PrologWire.Proofs.Sicstus.Reading
import PrologWire.Proofs.Sicstus.Decoder
import PrologWire.Proofs.Sicstus.ReadBack
import PrologWire.Proofs.Sicstus.RoundTrip
import PrologWire.Proofs.Sentence.Observation
import PrologWire.Proofs.Sicstus.Alike
import PrologWire.Proofs.Swi.Alike
import PrologWire.Proofs.Dialects.Restart
import PrologWire.Proofs.Dialects.Refusal
import PrologWire.Proofs.Arena.Items
import PrologWire.Proofs.Json.Grammar
import PrologWire.Proofs.Arena.TermTrees
import PrologWire.Proofs.Sicstus.EmptyNames
import PrologWire.Proofs.Arena.Stored
import PrologWire.Proofs.Arena.Building
import PrologWire.Proofs.CommandLine.Agreement
import PrologWire.Proofs.Sentence.Completion
import PrologWire.Proofs.Swi.Delivery
import PrologWire.Proofs.Swi.AnySink
import PrologWire.Proofs.Swi.FailedWrite
import PrologWire.Proofs.Sicstus.AnySink
import PrologWire.Proofs.Dialects.Production
import PrologWire.Proofs.Sicstus.ReadCode
import PrologWire.Proofs.Dialects.OneTerm
import PrologWire.Proofs.Dialects.Lockstep
import PrologWire.Proofs.Dialects.Backpatching
import PrologWire.Proofs.Dialects.Sharing
import PrologWire.Proofs.Arena.Comparison
import PrologWire.Proofs.Arena.Scopes
import PrologWire.Proofs.Arena.Isolation
import PrologWire.Proofs.Json.Emission
import PrologWire.Proofs.Sentence.Rewriting
import PrologWire.Proofs.Arena.Held
import PrologWire.Proofs.Arena.Copies
import PrologWire.Proofs.Arena.IntegerOrder
import PrologWire.Proofs.Dialects.Spellings
import PrologWire.Proofs.Arena.Grounded
import PrologWire.Proofs.Arena.Endings
import PrologWire.Proofs.Numeric.ShortestDigits
import PrologWire.Proofs.Numeric.FloatTexts
import PrologWire.Proofs.Sicstus.SameBytes
import PrologWire.Proofs.Wire.Tape
import PrologWire.Proofs.Arena.Accessors
import PrologWire.Proofs.Dialects.Integers
import PrologWire.Proofs.Numeric.WholeFloats
import PrologWire.Proofs.Text.Tokens
import PrologWire.Proofs.Arena.LeafTexts
import PrologWire.Proofs.Arena.DisplayedTexts
import PrologWire.Proofs.Text.Reading
import PrologWire.Proofs.Swi.Neutrality
import PrologWire.Proofs.Arena.Wrapping
import PrologWire.Proofs.Swi.Varint
import PrologWire.Proofs.Swi.IntegerBytes
import PrologWire.Proofs.Numeric.CanonicalText
import PrologWire.Proofs.Arena.EpochTable
