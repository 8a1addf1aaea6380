import Descent.Json.Render
import Descent.Text.CodePoint

/-!
# Untyped values

A grammar that is assembled while a program runs cannot have its value types
known beforehand. Its parsers all produce values of one type, the sum of what
the combinators produce. Each value has a text, by which results and labels show
it.
-/

namespace Descent.Untyped

/-- **A value of any parser.** -/
inductive Value where
  | nothing
  | bool (b : Bool)
  | int (i : Int)
  | text (t : Text)
  | list (vs : List Value)
  | codePoint (u : CodePoint)
  | unit
  | json (v : Json)
  | pair (a b : Value)
  | just (v : Value)
  | absent
  deriving Inhabited, Repr

namespace Value

mutual

/-- **A value in writing.** A code point shows as a number. -/
def display : Value → Text
  | .nothing => utf8 "<nil>"
  | .bool true => utf8 "true"
  | .bool false => utf8 "false"
  | .int i => decimalText i
  | .text t => t
  | .list vs => utf8 "[" ++ displayAll vs ++ utf8 "]"
  | .codePoint u => decimalText u
  | .unit => utf8 "\x7b\x7d"
  | .json v => v.text
  | .pair a b => utf8 "\x7b" ++ a.display ++ utf8 " " ++ b.display ++ utf8 "\x7d"
  | .just v => v.display
  | .absent => utf8 "Absent[<nil>]"

/-- Values with a space between them. -/
def displayAll : List Value → Text
  | [] => []
  | [v] => v.display
  | v :: vs => v.display ++ utf8 " " ++ displayAll vs

end

/-- A value as plain text: a code point is its character. -/
def plain : Value → Text
  | .codePoint u => Utf8.encodeChar u.toChar
  | v => v.display

/-- The plain texts of the elements of a list, joined. -/
def concat : Value → Text
  | .list vs => vs.flatMap plain
  | v => v.plain

/-- The plain texts of two values, joined. -/
def append (v w : Value) : Value := .text (v.plain ++ w.plain)

/-- The length of a list, or the number of characters of the plain text. -/
def length : Value → Nat
  | .list vs => vs.length
  | v => (Utf8.decode v.plain).length

/-- The value of a digit. -/
def digitValue : Value → Int
  | .codePoint u => u - 0x30
  | _ => 0

/-- The character of a code point. -/
def toChar : Value → Char
  | .codePoint u => u.toChar
  | _ => replacement

/-- An optional value. -/
def ofOption : Option Value → Value
  | some v => .just v
  | none => .absent

/-- A character. -/
def ofChar (c : Char) : Value := .codePoint (CodePoint.ofChar c)

end Value

end Descent.Untyped
