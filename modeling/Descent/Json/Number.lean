import Descent.Decimal.Layout
import Descent.Decimal.Shortest

/-!
# JSON numbers in writing

A number is written with the fewest digits that read back. Whole numbers below
`10 ^ 21` are positional; of the others, those with a decimal exponent from -4
to 5 are positional too, and the rest exponential. An infinity, which arises
from a literal out of range, is written as such a literal. What is not a number
has no JSON form, and is written as the word `NaN`.
-/

namespace Descent.Json

open Binary64 (units unitsPerOne)

/-- The value of a finite magnitude is a whole number below `10 ^ 21`. -/
def IsModerateWhole (m : Nat) : Prop :=
  units m % unitsPerOne = 0 ∧ units m < Nat.pow 10 21 * unitsPerOne

instance (m : Nat) : Decidable (IsModerateWhole m) := inferInstanceAs (Decidable (_ ∧ _))

/-- A finite magnitude in writing. -/
def magnitudeText (m : Nat) : List Char :=
  if m = 0 then ['0']
  else
    let d := Decimal.shortest m
    if IsModerateWhole m then d.positional
    else if d.point - 1 < -4 ∨ 6 ≤ d.point - 1 then d.exponential
    else d.positional

/-- **A number in writing.** -/
def numberText (x : Binary64) : List Char :=
  if x.IsNaN then "NaN".toList
  else
    let sign := if x.negative then ['-'] else []
    sign ++ if x.IsInf then "1e999".toList else magnitudeText x.magnitude

end Descent.Json
