import Descent.Text.Utf8

/-!
# Code points and surrogate pairs

A **code point** is a number that may or may not be a character: escapes in
source text can name the halves of a UTF-16 surrogate pair, and a number given
from outside can be anything. `join` reads a sequence of code points as
characters: a high surrogate and the low surrogate right after it are one
character, and any other number that is no character becomes U+FFFD.

* `join_pair`, `join_single`: the two steps of the reading.
-/

namespace Descent

/-- A number meant as a character. It need not be one. -/
abbrev CodePoint := Int

namespace CodePoint

/-- The first half of a surrogate pair. -/
def IsHigh (u : CodePoint) : Prop := 0xD800 ≤ u ∧ u < 0xDC00

/-- The second half of a surrogate pair. -/
def IsLow (u : CodePoint) : Prop := 0xDC00 ≤ u ∧ u < 0xE000

instance (u : CodePoint) : Decidable (IsHigh u) := inferInstanceAs (Decidable (_ ∧ _))

instance (u : CodePoint) : Decidable (IsLow u) := inferInstanceAs (Decidable (_ ∧ _))

/-- The character with a number, U+FFFD if there is none. -/
def toChar (u : CodePoint) : Char :=
  if 0 ≤ u ∧ u.toNat.isValidChar then Char.ofNat u.toNat else replacement

/-- The number of a character. -/
def ofChar (c : Char) : CodePoint := c.toNat

/-- The character that a surrogate pair encodes: each half brings ten bits. -/
def ofPair (high low : CodePoint) : Char :=
  toChar ((high - 0xD800) * 0x400 + (low - 0xDC00) + 0x10000)

/-- **The characters of a sequence of code points**, surrogate pairs joined. -/
def join : List CodePoint → List Char
  | [] => []
  | [u] => [toChar u]
  | u :: v :: us =>
    if IsHigh u ∧ IsLow v then ofPair u v :: join us else toChar u :: join (v :: us)

/-- A character is the character with its number. -/
@[simp]
theorem toChar_ofChar (c : Char) : toChar (ofChar c) = c := by
  have hv : c.toNat.isValidChar := c.valid
  simp [toChar, ofChar, hv]

/-- A pair of surrogates is one character. -/
theorem join_pair {u v : CodePoint} (hu : IsHigh u) (hv : IsLow v) (us : List CodePoint) :
    join (u :: v :: us) = ofPair u v :: join us := by
  rw [join, if_pos ⟨hu, hv⟩]

/-- A code point that starts no pair is read alone. -/
theorem join_single {u : CodePoint} {us : List CodePoint}
    (h : ∀ v ∈ us.head?, ¬ (IsHigh u ∧ IsLow v)) : join (u :: us) = toChar u :: join us := by
  cases us with
  | nil => rfl
  | cons v us => rw [join, if_neg (h v rfl)]

end CodePoint

end Descent
