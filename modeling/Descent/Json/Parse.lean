import Descent.Json.Grammar

/-!
# Parsing JSON documents

The grammar of JSON with the one rule that it needs, that for values.
-/

namespace Descent.Json

/-- The only name of a rule is that of values. -/
abbrev RuleType : Unit → Type := fun _ => Json

/-- The reference to the rule for values. -/
def self : Parser Unit RuleType Json := .ref (utf8 "value") ()

/-- **The rules of JSON.** -/
def rules : Rules Unit RuleType := ⟨fun _ => some (Grammar.value self), 1⟩

/-- The label of the rule for a kind of value. -/
def kindLabel (k : Grammar.Kind) : Text := (k.parser self).label

/-- Parses a value of the given kind at the beginning of a text. -/
def parseKind (k : Grammar.Kind) (t : Text) : Outcome Json := (k.parser self).parse rules t

/-- **Parses a text as a JSON document.** -/
def parse (t : Text) : Outcome Json := (Grammar.document self).parse rules t

/-- The value of a text that is meant to be a document, or a message that quotes the text. -/
def require (t : Text) : Except Text Json :=
  match parse t with
  | .success v _ => .ok v
  | .failure f =>
    .error (utf8 "Parse " ++ Quoted.text t ++ utf8 ": unexpected error: " ++ f.errorText)
  | .fault e => .error e.message

end Descent.Json
