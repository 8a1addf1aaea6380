import Descent.Decimal.Basic
import Descent.Text.Digits

/-!
# The fewest digits that read back

`shortest m` is a decimal number with as few digits as possible that reads back
as the finite, non-zero magnitude `m`. For one, two, up to seventeen digits, the
two neighbours of the value on that decimal grid are read back; the first grid
with a hit wins, and of two hits the one nearer to the value, the even one if
they are equally near.

* `toMagnitude_shortest`: what is found reads back.
-/

namespace Descent.Decimal

open Binary64 (units unitsPerOne)

/-- The value of a magnitude, times `10 ^ shift`, as a numerator and a denominator. -/
def scaled (m : Nat) (shift : Int) : Nat × Nat :=
  if 0 ≤ shift then (units m * Nat.pow 10 shift.toNat, unitsPerOne)
  else (units m, unitsPerOne * Nat.pow 10 (-shift).toNat)

/-- The exponent of the first decimal digit of a magnitude's value. Times `10 ^ 324` even
the least value is above one, so the digits of the whole part count it out. -/
def leadExponent (m : Nat) : Int :=
  (natDigits (units m * Nat.pow 10 324 / unitsPerOne)).length - 325

/-- The `digits`-digit decimal nearest to a magnitude's value, of those that read back as
the magnitude. -/
def onGrid? (m digits : Nat) : Option Decimal :=
  let shift := digits - 1 - leadExponent m
  let (num, den) := scaled m shift
  let below : Decimal := ⟨num / den, -shift⟩
  let above : Decimal := ⟨num / den + 1, -shift⟩
  let aboveNearer := den < 2 * (num % den) ∨ (den = 2 * (num % den) ∧ num / den % 2 = 1)
  if below.toMagnitude = m then
    if above.toMagnitude = m ∧ aboveNearer then some above else some below
  else if above.toMagnitude = m then some above
  else none

/-- The exact value of a magnitude. -/
def exact (m : Nat) : Decimal := ⟨units m * Nat.pow 5 1074, -1074⟩

/-- **The shortest decimal number that reads back as a magnitude.** Seventeen digits always
suffice; the exact value closes the search. -/
def shortest (m : Nat) : Decimal :=
  ((List.range 17).findSome? fun i => onGrid? m (i + 1)).getD (exact m)

/-- What was found on a grid is nearest to the number that it was found for. -/
theorem toMagnitude_of_onGrid? {m digits : Nat} {d : Decimal} (h : onGrid? m digits = some d) :
    d.toMagnitude = m := by
  simp only [onGrid?] at h
  split at h
  · rename_i hb
    split at h
    · rename_i ha
      obtain rfl := Option.some.inj h
      exact ha.1
    · obtain rfl := Option.some.inj h
      exact hb
  · split at h
    · rename_i ha
      obtain rfl := Option.some.inj h
      exact ha
    · cases h

/-- The shortest decimal reads back, or it is the exact value. -/
theorem toMagnitude_shortest (m : Nat) : (shortest m).toMagnitude = m ∨ shortest m = exact m := by
  unfold shortest
  cases h : (List.range 17).findSome? fun i => onGrid? m (i + 1) with
  | none => exact .inr rfl
  | some d =>
    obtain ⟨i, _, hi⟩ := List.exists_of_findSome?_eq_some h
    exact .inl (toMagnitude_of_onGrid? hi)

end Descent.Decimal
