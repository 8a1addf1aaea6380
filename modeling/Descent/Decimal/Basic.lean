import Descent.Binary64.Round

/-!
# Decimal numbers

A decimal number is a coefficient times a power of ten. It is taken to the nearest
binary64 magnitude, however many digits its coefficient has and however large its
exponent is.
-/

namespace Descent

/-- A non-negative decimal number, `coefficient * 10 ^ exponent`. -/
structure Decimal where
  coefficient : Nat
  exponent : Int
  deriving DecidableEq, Repr

namespace Decimal

/-- A decimal number times a power of ten. -/
def shift (d : Decimal) (places : Int) : Decimal := ⟨d.coefficient, d.exponent + places⟩

@[simp]
theorem shift_zero (d : Decimal) : d.shift 0 = d := by simp [shift]

/-- **The binary64 magnitude nearest to a decimal number.** Numbers that are certainly
beyond the range (`10 ^ 400` and above) or certainly below half a unit (less than
`10 ^ -330`) are settled without forming the power of ten. -/
def toMagnitude (d : Decimal) : Nat :=
  if d.coefficient = 0 then 0
  else if 400 ≤ d.exponent then Binary64.infinite
  else if (d.coefficient.log2 : Int) + 1 + d.exponent ≤ -330 then 0
  else if 0 ≤ d.exponent then Binary64.nearest (d.coefficient * Nat.pow 10 d.exponent.toNat) 1
  else Binary64.nearest d.coefficient (Nat.pow 10 (-d.exponent).toNat)

end Decimal

end Descent
