import Descent.Decimal.Basic
import Descent.Text.Digits

/-!
# Decimal numbers in writing

A decimal number is written from its **significand**, its digits without
trailing zeros, and the place of the decimal point relative to the first digit.
The positional form fills up with zeros; the exponential form has one digit
before the point and an exponent of at least two digits.
-/

namespace Descent.Decimal

/-- The digits of a decimal number, without trailing zeros. -/
def significand (d : Decimal) : List Char :=
  ((natDigits d.coefficient).reverse.dropWhile (· == '0')).reverse

/-- How many digits stand before the decimal point; negative for zeros after it. -/
def point (d : Decimal) : Int := (natDigits d.coefficient).length + d.exponent

/-- `n` zeros. -/
def zeros (n : Nat) : List Char := List.replicate n '0'

/-- **Positional form**: as many zeros as the point needs, and no exponent. -/
def positional (d : Decimal) : List Char :=
  let ds := d.significand
  let p := d.point
  if p ≤ 0 then '0' :: '.' :: zeros (-p).toNat ++ ds
  else if ds.length ≤ p then ds ++ zeros (p.toNat - ds.length)
  else ds.take p.toNat ++ '.' :: ds.drop p.toNat

/-- An exponent: a sign and at least two digits. -/
def exponentPart (x : Int) : List Char :=
  let ds := natDigits x.natAbs
  'e' :: (if x < 0 then '-' else '+') :: zeros (2 - ds.length) ++ ds

/-- **Exponential form**: one digit before the point, and no point if it is the only one. -/
def exponential (d : Decimal) : List Char :=
  let ds := d.significand
  ds.take 1 ++ (if ds.length ≤ 1 then [] else '.' :: ds.drop 1) ++ exponentPart (d.point - 1)

end Descent.Decimal
