import Descent.Proofs.Decimal.Shortest
import Descent.Proofs.Json.NumberRule
import Descent.Proofs.Json.RoundTrip

/-!
# Numbers survive being written

The text of a number is a literal, and the rule for numbers takes the whole of it:
the text is one line, and the line break at its end goes on with no literal. What
the literal denotes has all the bits of the number, the sign of a zero among them,
and its digits are as few as they can be.

* `numberAt_text`: the text of a number is a literal that ends.
* `parseKind_number_text`: the bits of a number come back.
-/

namespace Descent.Json

open Descent.Parser Syntax Grammar

/-- A line break goes on with no literal. -/
theorem isDelimited_newline (w : List Char) : IsDelimited w ['\n'] where
  digit x hx := by
    obtain rfl := Option.some.inj hx
    decide
  point _ _ := by decide
  mark _ := by decide

section Text

variable {x : Binary64}

/-- **The literal of a number is all that its text has.** -/
theorem numberAt_text (h : ¬ x.IsNaN) :
    NumberAt (Cursor.ofText (Json.number x).text).ahead (numberText x) := by
  refine ⟨['\n'], ?_, (number_numberText h).1, isDelimited_newline _⟩
  rw [Cursor.ahead_ofText, sourceChars_text]
  rfl

/-- The rule for numbers takes the whole text of a number, and gives the number. -/
theorem run_number_text (h : ¬ x.IsNaN) :
    parseKind .number (Json.number x).text = .success (.number x)
      ((Cursor.ofText (Json.number x).text).skip (numberText x).length) := by
  obtain ⟨y, hy, -, hrun⟩ := (readsNumber_of_numberAt .info (numberAt_text h)).value
  rw [(number_numberText h).2] at hy
  obtain rfl := Option.some.inj hy
  exact hrun

/-- Behind the text of a number, only the end of the line is left. -/
theorem ahead_skip_text (x : Binary64) :
    ((Cursor.ofText (Json.number x).text).skip (numberText x).length).ahead = ['\n'] := by
  rw [Cursor.ahead_skip, Cursor.ahead_ofText, sourceChars_text]
  exact List.drop_left

end Text

/-- **Numbers survive being written, bit for bit.** Whatever the bits, unless they are not those of
a number, the text is a literal, the rule for numbers takes all of it, and gives the bits back. No
decimal number that is rounded to the same bits has fewer digits than the text is written with. -/
theorem parseKind_number_text (b : UInt64) (h : ¬ (Binary64.ofBits b).IsNaN) :
    Number (numberText (.ofBits b)) ∧
    (∃ x rest, parseKind .number (Json.number (.ofBits b)).text = .success (.number x) rest ∧
      x.toBits = b ∧
      rest = (Cursor.ofText (Json.number (.ofBits b)).text).skip
        (numberText (.ofBits b)).length ∧
      rest.ahead = ['\n']) ∧
    ((Binary64.ofBits b).IsFinite → ∀ d : Decimal, d.toMagnitude = (Binary64.ofBits b).magnitude →
      (Decimal.shortest (Binary64.ofBits b).magnitude).significand.length ≤
        d.significand.length) := by
  refine ⟨(number_numberText h).1, ⟨_, _, run_number_text h, ?_, rfl, ahead_skip_text _⟩, ?_⟩
  · exact Binary64.toBits_ofBits b
  · intro hfin d hd
    exact Decimal.length_shortest_le hfin hd

/-- The least number above zero, with the sign of the negative numbers. -/
theorem parseKind_number_text_least :
    ¬ (Binary64.ofBits 0x8000000000000001).IsNaN ∧
      ∃ x rest, parseKind .number (utf8 "-5e-324") = .success (.number x) rest ∧
        x.toBits = 0x8000000000000001 ∧ rest.ahead = ['\n'] := by
  have h : ¬ (Binary64.ofBits 0x8000000000000001).IsNaN := by decide
  have htext : (Json.number (.ofBits 0x8000000000000001)).text = utf8 "-5e-324" := by
    decide +kernel
  obtain ⟨-, ⟨x, rest, hrun, hbits, -, hahead⟩, -⟩ := parseKind_number_text 0x8000000000000001 h
  rw [htext] at hrun
  exact ⟨h, x, rest, hrun, hbits, hahead⟩

end Descent.Json
