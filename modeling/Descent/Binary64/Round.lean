import Descent.Binary64.Basic

/-!
# Rounding to the nearest binary64 number

`nearest num den` is the magnitude nearest to the quotient `num / den`, a half
going to the even neighbour, and infinite from half a step above the greatest
finite magnitude on. The quotient is taken in units. When it has more than 53
bits, all but the first 53 of them are rounded away; how many those are is the
exponent field, less one, of the result.
-/

namespace Descent

/-- The natural number nearest to a quotient, the even one of two equally near. -/
def roundDiv (num den : Nat) : Nat :=
  let q := num / den
  let r := num % den
  if 2 * r < den then q
  else if den < 2 * r then q + 1
  else q + q % 2

/-- A quotient without remainder needs no rounding. -/
theorem roundDiv_mul_right (q : Nat) {den : Nat} (h : 0 < den) : roundDiv (q * den) den = q := by
  simp [roundDiv, Nat.mul_div_cancel _ h, h]

namespace Binary64

/-- **The magnitude nearest to a quotient.** -/
def nearest (num den : Nat) : Nat :=
  let scaled := num * unitsPerOne
  let surplus := (scaled / den).log2 - 52
  min infinite (surplus * binade + roundDiv scaled (den * Nat.pow 2 surplus))

/-- What is rounded is a finite number or an infinite one, never none at all. -/
theorem nearest_le_infinite (num den : Nat) : nearest num den ≤ infinite := by
  simp only [nearest]
  omega

end Binary64

end Descent
