import Descent.Text.Digits

/-!
# Positions

A line and a column, both counted from zero; a column counts characters. A
cursor stands at non-negative numbers only, but a failure may be handed in with
any position, so both are integers.
-/

namespace Descent

/-- A place in a source text. -/
structure Position where
  line : Int
  column : Int
  deriving DecidableEq, Repr

namespace Position

/-- A position in writing: line, colon, column. -/
def text (p : Position) : Text := decimalText p.line ++ utf8 ":" ++ decimalText p.column

/-- The order of reading: by line, and by column within a line. -/
def Before (p q : Position) : Prop := p.line < q.line ∨ (p.line = q.line ∧ p.column < q.column)

instance (p q : Position) : Decidable (p.Before q) := inferInstanceAs (Decidable (_ ∨ _))

end Position

end Descent
