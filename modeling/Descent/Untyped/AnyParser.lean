import Descent.Json.Parse
import Descent.Untyped.Value

/-!
# Untyped grammars

Parsers of untyped values, over rules that are named by texts. The grammar of
JSON is always at hand: its rule for values has a name of its own.

A combinator here is the typed one with its value made untyped, which changes
neither its label nor its failures.
-/

namespace Descent.Untyped

/-- The name of a rule: that of JSON values, or one that the grammar gives. -/
inductive Name where
  | json
  | rule (name : Text)
  deriving DecidableEq, Repr

/-- What a rule produces. -/
abbrev Name.Result : Name → Type
  | .json => Json
  | .rule _ => Value

/-- **A parser of untyped values.** -/
abbrev AnyParser := Parser Name Name.Result Value

namespace AnyParser

open Descent.Parser

/-- The reference to the rule for JSON values. -/
def jsonSelf : Parser Name Name.Result Json := .ref (utf8 "value") Name.json

/-- **The rules of a grammar**, the last one given for a name, and the rule for JSON values. -/
def rules (given : List (Text × AnyParser)) : Rules Name Name.Result where
  find
    | .json => some (Json.Grammar.value jsonSelf)
    | .rule name => (given.reverse.find? (·.1 == name)).map Prod.snd
  count := given.length + 1

/-- A reference to a rule of the grammar. -/
def reference (name : Text) : AnyParser := .ref name (Name.rule name)

/-- A parser of characters. -/
def ofChar (p : Parser Name Name.Result Char) : AnyParser := p.map Value.ofChar

/-- A parser of texts. -/
def ofText (p : Parser Name Name.Result Text) : AnyParser := p.map Value.text

/-- A parser that produces nothing of interest. -/
def ofUnit (p : Parser Name Name.Result Unit) : AnyParser := p.map fun _ => Value.unit

/-- A parser of lists. -/
def ofList (p : Parser Name Name.Result (List Value)) : AnyParser := p.map Value.list

/-- A parser of JSON values. -/
def ofJson (p : Parser Name Name.Result Json) : AnyParser := p.map Value.json

/-- A parser of pairs. -/
def ofPair (p : Parser Name Name.Result (Value × Value)) : AnyParser :=
  p.map fun (a, b) => .pair a b

/-- A value without input. Its label is its text. -/
def ofValue (v : Value) : AnyParser := .succeed v.display v

/-- A repetition of characters. -/
def manyChars (p : AnyParser) : AnyParser := ofText (Parser.manyChars (p.map Value.toChar))

/-- A repetition of characters, at least one. -/
def manyChars1 (p : AnyParser) : AnyParser := ofText (Parser.manyChars1 (p.map Value.toChar))

/-- A parser that may be left out. -/
def optional (p : AnyParser) : AnyParser := (Parser.optional p).map Value.ofOption

/-! ## Continuations -/

/-- Goes on with the plain text of the value once more. -/
def again (v : Value) : AnyParser := ofText (literal v.plain)

/-- Goes on with as many copies of a parser as the digit says. -/
def copies (p : AnyParser) (v : Value) : AnyParser :=
  ofList (sequence (List.replicate v.digitValue.toNat p))

/-- Goes on with the parser that is given for the plain text of the value. -/
def switch (cases : List (Text × AnyParser)) (otherwise : AnyParser) (v : Value) : AnyParser :=
  ((cases.find? (·.1 == v.plain)).map Prod.snd).getD otherwise

end AnyParser

end Descent.Untyped
