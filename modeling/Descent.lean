import Descent.Binary64.Arith
import Descent.Binary64.Basic
import Descent.Binary64.Round
import Descent.Decimal.Basic
import Descent.Decimal.Layout
import Descent.Decimal.Literal
import Descent.Decimal.Shortest
import Descent.Failure
import Descent.Fault
import Descent.Json.Approx
import Descent.Json.Basic
import Descent.Json.Grammar
import Descent.Json.Number
import Descent.Json.Parse
import Descent.Json.Path
import Descent.Json.Quote
import Descent.Json.Relaxed
import Descent.Json.Render
import Descent.Log
import Descent.Outcome
import Descent.Parser.Basic
import Descent.Parser.Combinator
import Descent.Parser.Run
import Descent.Proofs.Binary64.Nearest
import Descent.Proofs.Binary64.Round
import Descent.Proofs.Decimal.Basic
import Descent.Proofs.Decimal.Layout
import Descent.Proofs.Decimal.Literal
import Descent.Proofs.Decimal.Shortest
import Descent.Proofs.Json.Acceptance
import Descent.Proofs.Json.Approx
import Descent.Proofs.Json.Delimited
import Descent.Proofs.Json.Draft
import Descent.Proofs.Json.Encodings
import Descent.Proofs.Json.Extent
import Descent.Proofs.Json.HexEscapes
import Descent.Proofs.Json.Members
import Descent.Proofs.Json.Nesting
import Descent.Proofs.Json.Number
import Descent.Proofs.Json.NumberRule
import Descent.Proofs.Json.NumberText
import Descent.Proofs.Json.Numeral
import Descent.Proofs.Json.Order
import Descent.Proofs.Json.Path
import Descent.Proofs.Json.Quote
import Descent.Proofs.Json.Rejection
import Descent.Proofs.Json.Relaxed.Conservative
import Descent.Proofs.Json.Relaxed.Decoration
import Descent.Proofs.Json.Relaxed.Layout
import Descent.Proofs.Json.Relaxed.Outline
import Descent.Proofs.Json.Relaxed.Reader
import Descent.Proofs.Json.Relaxed.Standard
import Descent.Proofs.Json.Relaxed.Syntax
import Descent.Proofs.Json.Relaxed.Token
import Descent.Proofs.Json.Repair
import Descent.Proofs.Json.RoundTrip
import Descent.Proofs.Json.Stability
import Descent.Proofs.Json.Strict
import Descent.Proofs.Json.Strings
import Descent.Proofs.Json.Surrogates
import Descent.Proofs.Json.Syntax
import Descent.Proofs.Json.Token
import Descent.Proofs.Json.Totality
import Descent.Proofs.Json.Value
import Descent.Proofs.Parser.Adequacy
import Descent.Proofs.Parser.Bracketing
import Descent.Proofs.Parser.Choices
import Descent.Proofs.Parser.Combinator
import Descent.Proofs.Parser.Composition
import Descent.Proofs.Parser.Diagnosis
import Descent.Proofs.Parser.Labels
import Descent.Proofs.Parser.Lists
import Descent.Proofs.Parser.Literal
import Descent.Proofs.Parser.Locality
import Descent.Proofs.Parser.Onward
import Descent.Proofs.Parser.Read
import Descent.Proofs.Parser.Reading
import Descent.Proofs.Parser.Repetition
import Descent.Proofs.Parser.Tracing
import Descent.Proofs.Parser.Translation
import Descent.Proofs.Parser.View
import Descent.Proofs.Source.Coherence
import Descent.Proofs.Source.Endings
import Descent.Proofs.Source.Enumeration
import Descent.Proofs.Source.Forward
import Descent.Proofs.Source.Spelling
import Descent.Proofs.Text.CodePoint
import Descent.Proofs.Text.Hex
import Descent.Proofs.Text.Runs
import Descent.Proofs.Text.Utf8
import Descent.Proofs.Untyped.Building
import Descent.Proofs.Untyped.Json
import Descent.Proofs.Untyped.Session
import Descent.Source.Cursor
import Descent.Source.Lines
import Descent.Source.Position
import Descent.Text.Blank
import Descent.Text.CodePoint
import Descent.Text.Digits
import Descent.Text.Hex
import Descent.Text.Printable
import Descent.Text.Quoted
import Descent.Text.Utf8
import Descent.Untyped.AnyParser
import Descent.Untyped.Description
import Descent.Untyped.Session
import Descent.Untyped.Value
