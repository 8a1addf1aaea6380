import Descent.Binary64.Round

/-!
# Distance and product of binary64 numbers

The two operations that an approximate comparison needs, rounded to nearest.
A distance between equal infinities and a product of zero and an infinity are
not numbers.
-/

namespace Descent.Binary64

/-- What is not a number. -/
def nan : Binary64 := ofMagnitude false (infinite + 1)

/-- The absolute value of a number. -/
def abs (x : Binary64) : Binary64 := { x with negative := false }

/-- The greater of two absolute values. -/
def maxAbs (x y : Binary64) : Binary64 :=
  if x.magnitude ≤ y.magnitude then y.abs else x.abs

/-- The value of a finite number, in units. -/
def signedUnits (x : Binary64) : Int :=
  if x.negative then -(units x.magnitude) else units x.magnitude

/-- **The distance between two numbers**, rounded to nearest. -/
def distance (x y : Binary64) : Binary64 :=
  if x.IsNaN ∨ y.IsNaN then nan
  else if x.IsInf ∧ y.IsInf ∧ x.negative = y.negative then nan
  else if x.IsInf ∨ y.IsInf then ofMagnitude false infinite
  else ofMagnitude false (nearest (x.signedUnits - y.signedUnits).natAbs unitsPerOne)

/-- **The product of two numbers**, rounded to nearest. -/
def mul (x y : Binary64) : Binary64 :=
  let negative := x.negative != y.negative
  if x.IsNaN ∨ y.IsNaN then nan
  else if x.IsInf ∨ y.IsInf then
    if x.magnitude = 0 ∨ y.magnitude = 0 then nan else ofMagnitude negative infinite
  else
    ofMagnitude negative
      (nearest (units x.magnitude * units y.magnitude) (unitsPerOne * unitsPerOne))

end Descent.Binary64
