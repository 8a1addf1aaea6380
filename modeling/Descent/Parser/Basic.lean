import Descent.Log
import Descent.Outcome

/-!
# Parsers as expressions

A parser is an expression, built from primitives by combinators and read by
`Parser.run`. Being data, it can be inspected: its label is read off it, and a
statement about all parsers goes by induction on expressions.

A grammar may be recursive. Its rules have names `r : ρ`, the rule named `r`
produces values of type `τ r`, and an expression refers to it by `ref`. What a
name stands for is given by the `Rules` under which the parser runs.
-/

namespace Descent

/-- **A parser** of values of type `α`, over rules named by `ρ`. -/
inductive Parser (ρ : Type) (τ : ρ → Type) : Type → Type 1 where
  /-- Takes one character that is accepted. -/
  | satisfy (accepts : Char → Bool) (label : Text) : Parser ρ τ Char
  /-- Takes nothing, and fails before a character that is refused. -/
  | notFollowedBy (refuses : Char → Bool) (label : Text) : Parser ρ τ Unit
  /-- Takes the line feed that ends the last line, if it is all that is left, and fails before
  anything else. -/
  | endOfInput : Parser ρ τ Unit
  /-- Takes nothing and succeeds. -/
  | succeed {α : Type} (label : Text) (value : α) : Parser ρ τ α
  /-- Changes the value. -/
  | map {α β : Type} (p : Parser ρ τ α) (f : α → β) : Parser ρ τ β
  /-- Goes on with a parser that depends on the value. -/
  | bind {α β : Type} (p : Parser ρ τ α) (f : α → Parser ρ τ β) : Parser ρ τ β
  /-- Tries the second parser where the first has failed. -/
  | orElse {α : Type} (p q : Parser ρ τ α) : Parser ρ τ α
  /-- Repeats a parser until it fails, and collects the values. -/
  | many {α : Type} (p : Parser ρ τ α) : Parser ρ τ (List α)
  /-- Has another label of its own; failures keep theirs. -/
  | named {α : Type} (p : Parser ρ τ α) (label : Text) : Parser ρ τ α
  /-- Has another label, and puts it on every failure. -/
  | relabel {α : Type} (p : Parser ρ τ α) (label : Text) : Parser ρ τ α
  /-- Writes to the log when it begins and when it ends. -/
  | trace {α : Type} (p : Parser ρ τ α) : Parser ρ τ α
  /-- Runs a rule of the grammar. -/
  | ref (label : Text) (r : ρ) : Parser ρ τ (τ r)
  /-- Runs a function from outside. -/
  | custom {α : Type} (label : Text) (step : Cursor → Outcome α) : Parser ρ τ α
  /-- Is wrong, and says so when it runs. -/
  | raise {α : Type} (label : Text) (e : Fault) : Parser ρ τ α

namespace Parser

variable {ρ : Type} {τ : ρ → Type}

/-- **The label of a parser**, by which failures and faults name it. -/
def label {α : Type} : Parser ρ τ α → Text
  | .satisfy _ l => l
  | .notFollowedBy _ l => l
  | .endOfInput => utf8 "end of input"
  | .succeed l _ => l
  | .map p _ => p.label
  | .bind _ _ => utf8 "unknown"
  | .orElse p q => p.label ++ utf8 " orElse " ++ q.label
  | .many p => utf8 "zero or many " ++ p.label
  | .named _ l => l
  | .relabel _ l => l
  | .trace p => p.label
  | .ref l _ => l
  | .custom l _ => l
  | .raise l _ => l

end Parser

end Descent
