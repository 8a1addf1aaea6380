import Descent.Text.Utf8

/-!
# Digits

Numbers written in decimal and in hexadecimal, as messages and escapes need
them. Hexadecimal digits are lower-case and have a fixed width.
-/

namespace Descent

/-- A natural number in decimal, without leading zeros. -/
def natDigits (n : Nat) : List Char := Nat.toDigits 10 n

/-- An integer in decimal, with a minus sign if it is negative. -/
def intDigits : Int → List Char
  | .ofNat n => natDigits n
  | .negSucc n => '-' :: natDigits (n + 1)

/-- An integer in decimal, as text. -/
def decimalText (i : Int) : Text := Utf8.encode (intDigits i)

/-- The last `width` hexadecimal digits of a number, the most significant first. -/
def hexDigits : Nat → Nat → List Char
  | 0, _ => []
  | width + 1, n => hexDigits width (n / 16) ++ [Nat.digitChar (n % 16)]

@[simp]
theorem length_hexDigits (width n : Nat) : (hexDigits width n).length = width := by
  induction width generalizing n with
  | zero => rfl
  | succ width ih => simp [hexDigits, ih]

end Descent
