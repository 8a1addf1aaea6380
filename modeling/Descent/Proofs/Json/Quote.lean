import Descent.Json.Quote
import Descent.Proofs.Json.Syntax

/-!
# Strings in writing

Whatever text a string is written from, what is written is a string of the
syntax, and it stands for the characters of the text. No control character occurs
in it as such, so it has no line break, and neither do the two line separators.

* `quoted_quote`: a quoted text is a string, for the text with its strays
  replaced.
* `isClear_of_mem_quote`: what is not clear does not occur.
-/

namespace Descent.Json

open Syntax

/-! ## Escapes by number -/

/-- A written hexadecimal digit has its value. -/
theorem hexDigit_digitChar {k : Nat} (h : k < 16) : HexDigit (Nat.digitChar k) k := by
  have key : ∀ k < 16,
      ('0' ≤ Nat.digitChar k ∧ Nat.digitChar k ≤ '9' ∧
          (Nat.digitChar k).toNat = '0'.toNat + k) ∨
        ('a' ≤ Nat.digitChar k ∧ Nat.digitChar k ≤ 'f' ∧
          (Nat.digitChar k).toNat + 10 = 'a'.toNat + k) := by
    decide
  exact (key k h).imp_right .inl

theorem hexDigits_four (n : Nat) :
    hexDigits 4 n = [Nat.digitChar (n / 16 / 16 / 16 % 16), Nat.digitChar (n / 16 / 16 % 16),
      Nat.digitChar (n / 16 % 16), Nat.digitChar (n % 16)] := rfl

/-- Four hexadecimal digits suffice for the characters of the basic plane. -/
theorem stringChar_numberEscape {c : Char} (h : c.toNat < 0x10000) :
    StringChar (numberEscape c) c.toNat := by
  have hlt (n : Nat) : n % 16 < 16 := Nat.mod_lt _ (by decide)
  have hchar := StringChar.number (hexDigit_digitChar (hlt (c.toNat / 16 / 16 / 16)))
    (hexDigit_digitChar (hlt (c.toNat / 16 / 16))) (hexDigit_digitChar (hlt (c.toNat / 16)))
    (hexDigit_digitChar (hlt c.toNat))
  have hvalue : ((c.toNat / 16 / 16 / 16 % 16 * 16 + c.toNat / 16 / 16 % 16) * 16 +
      c.toNat / 16 % 16) * 16 + c.toNat % 16 = c.toNat := by omega
  rw [hvalue] at hchar
  rw [numberEscape, hexDigits_four]
  exact hchar

/-! ## Characters -/

/-- The letters by which quoting escapes are those of the grammar. -/
theorem mem_escapes_of_controlLetter? {c letter : Char} (h : controlLetter? c = some letter) :
    (letter, c) ∈ escapes := by
  have hof (n : Nat) (hn : c.toNat = n) (x : Char) (hx : x.toNat = n) : c = x :=
    Char.toNat_inj.1 (hn.trans hx.symm)
  unfold controlLetter? at h
  split at h
  · obtain rfl := Option.some.inj h
    rw [hof _ ‹_› '\x08' (by decide)]
    decide
  · obtain rfl := Option.some.inj h
    rw [hof _ ‹_› '\x0c' (by decide)]
    decide
  · obtain rfl := Option.some.inj h
    rw [hof _ ‹_› '\n' (by decide)]
    decide
  · obtain rfl := Option.some.inj h
    rw [hof _ ‹_› '\r' (by decide)]
    decide
  · obtain rfl := Option.some.inj h
    rw [hof _ ‹_› '\t' (by decide)]
    decide
  · cases h

/-- **A character in writing** is one of a string, and stands for the character. -/
theorem stringChar_quoteChar (c : Char) : StringChar (quoteChar c) c.toNat := by
  unfold quoteChar
  split
  · rename_i h
    have hcases : c = '\\' ∨ c = '"' := by simpa using h
    rcases hcases with rfl | rfl
    · exact .escape (by decide)
    · exact .escape (by decide)
  · rename_i hplain
    split
    · rename_i hcontrol
      split
      · rename_i letter hletter
        exact .escape (mem_escapes_of_controlLetter? hletter)
      -- a control character without a letter of its own
      · exact stringChar_numberEscape (by omega)
    · split
      · rename_i hn
        have hcases : (c = replacement ∨ c = '\u2028') ∨ c = '\u2029' := by
          simpa [needsNumber] using hn
        rcases hcases with (rfl | rfl) | rfl <;> exact stringChar_numberEscape (by decide)
      -- anything else is written as it is
      · have hne : c ≠ '\\' ∧ c ≠ '"' := by simpa using hplain
        exact .plain hne.2 hne.1

/-! ## Strings -/

/-- Characters that are quoted one by one are the body of a string. -/
theorem stringBody_flatMap (cs : List Char) :
    StringBody (cs.flatMap quoteChar) (cs.map fun c => (c.toNat : CodePoint)) := by
  induction cs with
  | nil => exact .nil
  | cons c cs ih =>
    rw [List.flatMap_cons, List.map_cons]
    exact .cons (stringChar_quoteChar c) ih

/-- Characters stand for themselves. -/
theorem standFor_map (cs : List Char) :
    CodePoint.StandFor (cs.map fun c => (c.toNat : CodePoint)) cs := by
  induction cs with
  | nil => exact .nil
  | cons c cs ih => exact .char c ih

/-- **A quoted text is a string**, for the text with its strays replaced. -/
theorem quoted_quote (t : Text) : Quoted (quote t) (Utf8.encode (Utf8.decode t)) :=
  .intro (stringBody_flatMap _) (standFor_map _)

/-! ## Clear characters -/

/-- **A clear character** is written as it is: it is no control character, and needs no number. -/
def IsClear (x : Char) : Prop := 0x20 ≤ x.toNat ∧ needsNumber x = false

instance (x : Char) : Decidable (IsClear x) := inferInstanceAs (Decidable (_ ∧ _))

theorem isClear_of_mem_hexDigits {width n : Nat} {x : Char} (h : x ∈ hexDigits width n) :
    IsClear x := by
  have key : ∀ k < 16, IsClear (Nat.digitChar k) := by decide
  induction width generalizing n with
  | zero => cases h
  | succ width ih =>
    rw [hexDigits, List.mem_append, List.mem_singleton] at h
    rcases h with h | rfl
    · exact ih h
    · exact key _ (Nat.mod_lt _ (by decide))

theorem isClear_of_mem_numberEscape {c x : Char} (h : x ∈ numberEscape c) : IsClear x := by
  rw [numberEscape, List.mem_cons, List.mem_cons] at h
  rcases h with rfl | rfl | h
  · decide
  · decide
  · exact isClear_of_mem_hexDigits h

theorem isClear_of_mem_escapes {letter c : Char} (h : (letter, c) ∈ escapes) :
    IsClear letter := by
  have key : ∀ e ∈ escapes, IsClear e.1 := by decide
  exact key _ h

/-- What is written for a character is neither a control nor a separator of lines. -/
theorem isClear_of_mem_quoteChar {c x : Char} (h : x ∈ quoteChar c) : IsClear x := by
  unfold quoteChar at h
  split at h
  · rename_i hc
    have hcases : c = '\\' ∨ c = '"' := by simpa using hc
    rw [List.mem_cons, List.mem_singleton] at h
    rcases h with rfl | rfl
    · decide
    · rcases hcases with rfl | rfl <;> decide
  · split at h
    · split at h
      · rename_i letter hletter
        rw [List.mem_cons, List.mem_singleton] at h
        rcases h with rfl | rfl
        · decide
        · exact isClear_of_mem_escapes (mem_escapes_of_controlLetter? hletter)
      · exact isClear_of_mem_numberEscape h
    · rename_i hc
      split at h
      · exact isClear_of_mem_numberEscape h
      · rename_i hnumber
        obtain rfl := List.mem_singleton.1 h
        exact ⟨Nat.le_of_not_lt hc, Bool.eq_false_iff.2 hnumber⟩

/-- **Only clear characters** are in a string. -/
theorem isClear_of_mem_quote {t : Text} {x : Char} (h : x ∈ quote t) : IsClear x := by
  rw [quote, List.mem_append, List.mem_cons, List.mem_singleton] at h
  rcases h with (rfl | h) | rfl
  · decide
  · obtain ⟨c, -, hx⟩ := List.mem_flatMap.1 h
    exact isClear_of_mem_quoteChar hx
  · decide

end Descent.Json
