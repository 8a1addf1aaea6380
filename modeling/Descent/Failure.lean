import Descent.Fault
import Descent.Source.Cursor

/-!
# Failures

A failure says which parser gave up, for what **cause**, and where: the position
and the text of its line. It is written on one line as an error, or as a report
that shows the line with a caret under the column.
-/

namespace Descent

/-- Why a parser gave up. -/
inductive Cause where
  /-- It needed a character and there was none. -/
  | noMoreInput
  /-- It met a character it could not take. -/
  | unexpected (c : Char)
  /-- Some other cause, in words. -/
  | stated (message : Text)
  deriving DecidableEq, Repr

/-- The wording of a cause. -/
def Cause.message : Cause → Text
  | .noMoreInput => utf8 "No more input"
  | .unexpected c => utf8 "Unexpected '" ++ Utf8.encodeChar c ++ utf8 "'"
  | .stated message => message

/-- **A failure**: the label of the parser, the cause, and the place. -/
structure Failure where
  label : Text
  cause : Cause
  pos : Position
  line : Text
  deriving DecidableEq, Repr

namespace Failure

/-- The failure of a parser at a cursor. -/
def here (label : Text) (cause : Cause) (c : Cursor) : Failure :=
  ⟨label, cause, c.pos, c.currentLine⟩

/-- What went wrong, in words. -/
def message (f : Failure) : Text := f.cause.message

/-- Where, and for which parser. -/
def heading (f : Failure) : Text :=
  utf8 "Line:" ++ decimalText f.pos.line ++ utf8 " Col:" ++ decimalText f.pos.column ++
    utf8 " Error parsing " ++ f.label

/-- **A failure on one line.** -/
def errorText (f : Failure) : Text := f.heading ++ utf8 ": " ++ f.message

/-- **A failure as a report** of three lines: the heading, the line, and the message behind a
caret under the column. There is no place for the caret under a negative column. -/
def report (f : Failure) : Except Fault Text :=
  if f.pos.column < 0 then .error .negativeColumn
  else
    .ok (f.heading ++ utf8 "\n" ++ f.line ++ utf8 "\n" ++
      List.replicate f.pos.column.toNat 0x20 ++ utf8 "^" ++ f.message)

/-- The same failure under another label. -/
def relabel (f : Failure) (label : Text) : Failure := { f with label }

end Failure

end Descent
