import Descent.Decimal.Basic
import Descent.Text.Digits

/-!
# Decimal literals

A **literal** is the written form of a decimal number: an optional minus sign,
digits, an optional fraction, an optional exponent. It denotes the nearest
binary64 number, within two limits on what is written.

An exponent takes digits until it has reached `10000`; the digits after that are
passed over. A literal has room for 800 whole digits. If it has more, its first
nineteen digits may still decide: when the numbers just below and just above it
with nineteen digits are nearest to the same number, it denotes that one. No
number is left out of this rule, neither an infinite one nor one too small to be
normal. Otherwise the point counts as standing after the 800th digit.

* `exponentOf_eq`: an exponent below `100000` is read as it is written.
* `toMagnitude_of_length_le`: with at most 800 whole digits, the nearest number.
-/

namespace Descent

/-- A decimal literal in its parts. -/
structure Literal where
  negative : Bool
  whole : List Char
  fraction : List Char
  exponent : Int
  deriving DecidableEq, Repr

namespace Literal

/-! ## Exponents -/

/-- An exponent with one more digit, unless it has reached `10000`. -/
def pushExponent (e : Nat) (digit : Char) : Nat :=
  if e < 10000 then 10 * e + (digit.toNat - '0'.toNat) else e

/-- The exponent that a sequence of digits stands for. -/
def exponentOf (ds : List Char) : Nat := ds.foldl pushExponent 0

/-- Appending digits to a number does not make it smaller. -/
theorem le_ofDigitChars_ten (ds : List Char) (n : Nat) : n ≤ Nat.ofDigitChars 10 ds n := by
  induction ds generalizing n with
  | nil => simp
  | cons c ds ih =>
    have := ih (10 * n + (c.toNat - '0'.toNat))
    simp only [Nat.ofDigitChars_cons]
    omega

/-- Digits that come after a number are read as they are written, while there is room. -/
theorem foldl_pushExponent (ds : List Char) (e : Nat) (h : Nat.ofDigitChars 10 ds e < 100000) :
    ds.foldl pushExponent e = Nat.ofDigitChars 10 ds e := by
  induction ds generalizing e with
  | nil => simp
  | cons c ds ih =>
    simp only [Nat.ofDigitChars_cons] at h ⊢
    have he : e < 10000 := by
      have := le_ofDigitChars_ten ds (10 * e + (c.toNat - '0'.toNat))
      omega
    rw [List.foldl_cons, pushExponent, if_pos he, ih _ h]

/-- **An exponent below `100000` is read as it is written.** -/
theorem exponentOf_eq {ds : List Char} (h : Nat.ofDigitChars 10 ds 0 < 100000) :
    exponentOf ds = Nat.ofDigitChars 10 ds 0 := foldl_pushExponent ds 0 h

/-- The digits of an exponent, of which there is at least one. -/
def readExponentDigits? (ds : List Char) : Option Nat :=
  if ds ≠ [] ∧ ds.all Char.isDigit then some (exponentOf ds) else none

/-- A written exponent is read back. -/
theorem readExponentDigits?_natDigits {n : Nat} (h : n < 100000) :
    readExponentDigits? (natDigits n) = some n := by
  have hn : Nat.ofDigitChars 10 (natDigits n) 0 = n := Nat.ofDigitChars_ten_toDigits
  have h1 : natDigits n ≠ [] := Nat.toDigits_ne_nil
  have h2 : (natDigits n).all Char.isDigit = true := by
    simp only [List.all_eq_true]
    exact fun c hc => Nat.isDigit_of_mem_toDigits (by decide) (by decide) hc
  rw [readExponentDigits?, if_pos ⟨h1, h2⟩, exponentOf_eq (by omega), hn]

/-- An exponent part: nothing, or `e` or `E`, an optional sign, and digits. -/
def readExponent? : List Char → Option Int
  | [] => some 0
  | mark :: cs =>
    if mark = 'e' ∨ mark = 'E' then
      match cs with
      | '+' :: ds => (readExponentDigits? ds).map Int.ofNat
      | '-' :: ds => (readExponentDigits? ds).map fun n => -(n : Int)
      | ds => (readExponentDigits? ds).map Int.ofNat
    else none

/-! ## Reading the parts -/

/-- A fraction, which has at least one digit if it is there, and what follows it. -/
def splitFraction? : List Char → Option (List Char × List Char)
  | '.' :: cs =>
    if cs.takeWhile Char.isDigit = [] then none
    else some (cs.takeWhile Char.isDigit, cs.dropWhile Char.isDigit)
  | cs => some ([], cs)

/-- A minus sign, if there is one, and what follows it. -/
def splitSign : List Char → Bool × List Char
  | '-' :: cs => (true, cs)
  | cs => (false, cs)

/-- **Reads a decimal literal** that takes up all of the characters. -/
def read? (cs : List Char) : Option Literal :=
  let (negative, cs) := splitSign cs
  if cs.takeWhile Char.isDigit = [] then none
  else
    match splitFraction? (cs.dropWhile Char.isDigit) with
    | none => none
    | some (fraction, rest) =>
      (readExponent? rest).map (⟨negative, cs.takeWhile Char.isDigit, fraction, ·⟩)

/-! ## What a literal denotes -/

/-- The absolute value of a literal. -/
def toDecimal (l : Literal) : Decimal where
  coefficient := Nat.ofDigitChars 10 (l.whole ++ l.fraction) 0
  exponent := l.exponent - l.fraction.length

/-- The number of whole digits that a literal has room for. -/
def wholeRoom : Nat := 800

/-- The number of leading digits that may decide what a longer literal denotes. -/
def leadingRoom : Nat := 19

/-- The whole digits from the first that is not zero. -/
def significantWhole (l : Literal) : List Char := l.whole.dropWhile (· == '0')

/-- The leading digits, as many of them as there is room for. -/
def leading (l : Literal) : List Char := (l.significantWhole ++ l.fraction).take leadingRoom

/-- The digits after the leading ones. -/
def trailing (l : Literal) : List Char := (l.significantWhole ++ l.fraction).drop leadingRoom

/-- The absolute value of a literal, rounded down to its leading digits. -/
def below (l : Literal) : Decimal where
  coefficient := Nat.ofDigitChars 10 l.leading 0
  exponent := l.exponent + l.significantWhole.length - l.leading.length

/-- The absolute value of a literal, rounded up to as many digits as its leading ones. -/
def above (l : Literal) : Decimal :=
  if l.trailing.all (· == '0') then l.below else ⟨l.below.coefficient + 1, l.below.exponent⟩

/-- The leading digits **decide** if both roundings are nearest to the same number, be it
infinite or too small to be normal. -/
def isDecided (l : Literal) : Bool := l.below.toMagnitude == l.above.toMagnitude

/-- How far the point moves: not at all if there is room for the whole digits or the leading
digits decide, else to the place after the last digit that there is room for. -/
def pointShift (l : Literal) : Int :=
  if l.significantWhole.length ≤ wholeRoom then 0
  else if l.isDecided then 0
  else wholeRoom - l.significantWhole.length

/-- **The magnitude that a literal denotes.** -/
def toMagnitude (l : Literal) : Nat := (l.toDecimal.shift l.pointShift).toMagnitude

/-- Leading zeros apart, a literal with at most 800 whole digits denotes the number nearest
to its value. -/
theorem toMagnitude_of_length_le {l : Literal} (h : l.significantWhole.length ≤ wholeRoom) :
    l.toMagnitude = l.toDecimal.toMagnitude := by
  rw [toMagnitude, pointShift, if_pos h, Decimal.shift_zero]

/-- When the leading digits decide, a literal of any length denotes the number nearest to its
value. -/
theorem toMagnitude_of_isDecided {l : Literal} (h : l.isDecided = true) :
    l.toMagnitude = l.toDecimal.toMagnitude := by
  rw [toMagnitude, pointShift, if_pos h, ite_self, Decimal.shift_zero]

/-- Nine hundred ones with the exponent `-580` are out of range, as their first nineteen are. With
the point after the 800th digit, they would not be. -/
example :
    (⟨false, List.replicate 900 '1', [], -580⟩ : Literal).toMagnitude = Binary64.infinite := by
  decide +kernel

end Literal

/-- **The binary64 number that a decimal literal denotes**, infinite if it is out of range. -/
def Binary64.ofLiteral? (cs : List Char) : Option Binary64 :=
  (Literal.read? cs).map fun l => ofMagnitude l.negative l.toMagnitude

end Descent
