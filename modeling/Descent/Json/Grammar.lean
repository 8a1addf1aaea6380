import Descent.Decimal.Literal
import Descent.Json.Basic
import Descent.Parser.Combinator

/-!
# The grammar of JSON

One parser per kind of value, each with its own label, and `value` for any of
them. Arrays and objects refer to values by the parser `self`, which a grammar
supplies as a reference to its rule for values.

White space is taken after brackets, commas, colons and elements, not before or
after a value. Strings may hold any character but a quote and a backslash, line
breaks and controls included. A number's literal becomes the nearest number.
-/

namespace Descent.Json.Grammar

open Descent.Parser

variable {ρ : Type} {τ : ρ → Type}

/-- White space between tokens. -/
def ws : Parser ρ τ (List Char) := (anyOf (utf8 " \t\n\r")).many

/-- A punctuation mark and the white space after it. -/
def token (x : Char) : Parser ρ τ Char := (char x).left ws

/-- A word that stands for a value. -/
def constant (word : Text) (v : Json) : Parser ρ τ Json := (literal word).map fun _ => v

/-- **The value `null`.** -/
def null : Parser ρ τ Json := (constant (utf8 "null") .null).relabel (utf8 "null")

/-- **A truth value.** -/
def bool : Parser ρ τ Json :=
  ((constant (utf8 "true") (.bool true)).orElse (constant (utf8 "false") (.bool false))).relabel
    (utf8 "bool")

/-! ## Strings -/

/-- A double quote. -/
def quoteMark : Parser ρ τ Char := (char '"').relabel (utf8 "quote")

/-- A character that stands for itself. -/
def plainChar : Parser ρ τ CodePoint :=
  (Parser.satisfy (fun x => x != '"' && x != '\\') (utf8 "char")).map CodePoint.ofChar

/-- A backslash and a letter that stand for a character. -/
def escape (word : String) (x : Char) : Parser ρ τ CodePoint :=
  (literal (utf8 word)).map fun _ => CodePoint.ofChar x

/-- An escape by a letter. -/
def escapedChar : Parser ρ τ CodePoint :=
  (choice [escape "\\\"" '"', escape "\\\\" '\\', escape "\\/" '/', escape "\\b" '\x08',
    escape "\\f" '\x0c', escape "\\n" '\n', escape "\\r" '\r', escape "\\t" '\t']).relabel
    (utf8 "escaped char")

/-- A hexadecimal digit of either case. -/
def hexDigit : Parser ρ τ Char := anyOf (utf8 "0123456789ABCDEFabcdef")

/-- An escape by four hexadecimal digits. It may name half of a surrogate pair. -/
def numberedChar : Parser ρ τ CodePoint :=
  (literal (utf8 "\\u")).right
    ((sequence [hexDigit, hexDigit, hexDigit, hexDigit]).mapOrRaise fun ds =>
      (Hex.read (Utf8.encode ds)).mapError .badHex)

/-- A character of a string. -/
def stringChar : Parser ρ τ CodePoint := choice [plainChar, escapedChar, numberedChar]

/-- A quoted string, decoded. -/
def quotedString : Parser ρ τ Text :=
  (between quoteMark stringChar.many quoteMark).map fun us => Utf8.encode (CodePoint.join us)

/-- **A string.** -/
def string : Parser ρ τ Json := (quotedString.map Json.string).relabel (utf8 "quoted string")

/-! ## Numbers

Each part gives its own characters, so together they give the literal. -/

/-- A decimal digit. -/
def digit : Parser ρ τ Char := .satisfy Char.isDigit (utf8 "digit")

/-- An optional minus sign. -/
def sign : Parser ρ τ (List Char) := (optional (char '-')).map Option.toList

/-- A zero, which no further digit may follow. -/
def zero : Parser ρ τ (List Char) :=
  ((literal (utf8 "0")).left (.notFollowedBy Char.isDigit (utf8 "digit"))).map fun _ => ['0']

/-- A whole number that does not begin with zero. -/
def positive : Parser ρ τ (List Char) :=
  lift2 List.cons (.satisfy (fun x => '1' ≤ x && x ≤ '9') (utf8 "1-9")) digit.many

/-- The whole part. -/
def whole : Parser ρ τ (List Char) := zero.orElse positive

/-- A part that may be missing. Once its first character is there, the rest of it must
follow. -/
def optionalPart (lead : Parser ρ τ Char) (body : Parser ρ τ (List Char)) :
    Parser ρ τ (List Char) :=
  (optional lead).bind fun
    | none => .succeed [] []
    | some x => body.map (x :: ·)

/-- The fraction. -/
def fraction : Parser ρ τ (List Char) := optionalPart (char '.') digit.many1

/-- The exponent. -/
def exponent : Parser ρ τ (List Char) :=
  optionalPart (anyOf (utf8 "eE"))
    (lift2 (fun s ds => s.toList ++ ds) (optional (anyOf (utf8 "+-"))) digit.many1)

/-- The number that a literal denotes. -/
def numberOf (cs : List Char) : Json :=
  .number ((Binary64.ofLiteral? cs).getD (Binary64.ofMagnitude false 0))

/-- **A number.** -/
def number : Parser ρ τ Json :=
  ((sequence [sign, whole, fraction, exponent]).map fun parts => numberOf parts.flatten).relabel
    (utf8 "number")

/-! ## Arrays, objects, values -/

/-- A value and the white space after it. -/
def element (self : Parser ρ τ Json) : Parser ρ τ Json := self.left ws

/-- A key, a colon and a value. -/
def member (self : Parser ρ τ Json) : Parser ρ τ (Text × Json) :=
  ((quotedString.left ws).left (token ':')).andThen (element self)

/-- **An array.** -/
def array (self : Parser ρ τ Json) : Parser ρ τ Json :=
  ((between (token '[') ((element self).sepBy (token ',')) (token ']')).map Json.array).relabel
    (utf8 "array")

/-- **An object.** Of several members with one key, the last one stays. -/
def object (self : Parser ρ τ Json) : Parser ρ τ Json :=
  ((between (token '{') ((member self).sepBy (token ',')) (token '}')).map Json.ofMembers).relabel
    (utf8 "object")

/-- **Any value.** -/
def value (self : Parser ρ τ Json) : Parser ρ τ Json :=
  choice [null, bool, string, number, array self, object self]

/-- **A document**: one value, white space around it, and nothing else. -/
def document (self : Parser ρ τ Json) : Parser ρ τ Json :=
  between ws ((value self).left ws) .endOfInput

/-- The rules of the grammar by kind of value. -/
inductive Kind where
  | null
  | bool
  | string
  | number
  | array
  | object
  | any
  deriving DecidableEq, Repr

/-- The rule for a kind of value. -/
def Kind.parser (self : Parser ρ τ Json) : Kind → Parser ρ τ Json
  | .null => Grammar.null
  | .bool => Grammar.bool
  | .string => Grammar.string
  | .number => Grammar.number
  | .array => Grammar.array self
  | .object => Grammar.object self
  | .any => Grammar.value self

end Descent.Json.Grammar
