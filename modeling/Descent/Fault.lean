import Descent.Source.Position
import Descent.Text.Hex

/-!
# Faults

A failure is an answer about the input. A **fault** says that the grammar itself
is wrong, whatever the input: an alternative with nothing to choose from, a
reference to a rule that was never given, a repetition of something that can
succeed on nothing. A fault ends the whole run at once.
-/

namespace Descent

/-- What can be wrong with a grammar. -/
inductive Fault where
  /-- A choice between no parsers. -/
  | emptyChoice
  /-- A parser that fails without saying how. -/
  | missingFailure
  /-- A reference to a rule that has no parser. -/
  | unresolved (label : Text)
  /-- A repeated parser that succeeded without moving on. -/
  | noProgress (label : Text) (pos : Position)
  /-- A report about a negative column. -/
  | negativeColumn
  /-- Digits that are no hexadecimal number. -/
  | badHex (e : Hex.ReadError)
  /-- The text of a value that is not there. -/
  | missingValue
  /-- Rules that call one another without end. -/
  | endless
  deriving DecidableEq, Repr

/-- The wording of a fault. -/
def Fault.message : Fault → Text
  | .emptyChoice => utf8 "jcomb: Choice requires at least one parser"
  | .missingFailure => utf8 "jcomb: Fail with nil failure"
  | .unresolved label => utf8 "jcomb: unresolved forward reference to " ++ label
  | .noProgress label pos =>
    utf8 "jcomb: repeated parser " ++ Quoted.text label ++
      utf8 " succeeded without consuming input at " ++ pos.text
  | .negativeColumn => utf8 "strings: negative Repeat count"
  | .badHex e => e.message
  | .missingValue => utf8 "runtime error: invalid memory address or nil pointer dereference"
  | .endless => utf8 "endless recursion"

end Descent
