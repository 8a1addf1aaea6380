import Descent.Text.Digits

/-!
# JSON strings in writing

Between double quotes, a quote and a backslash are escaped by a backslash, five
controls by a letter, and the other controls by four hexadecimal digits. So are
U+FFFD, which also stands for every stray byte, and the two line separators
U+2028 and U+2029. All other characters stand for themselves.
-/

namespace Descent.Json

/-- The letter that escapes a control character, if it has one. -/
def controlLetter? (c : Char) : Option Char :=
  match c.toNat with
  | 0x08 => some 'b'
  | 0x0C => some 'f'
  | 0x0A => some 'n'
  | 0x0D => some 'r'
  | 0x09 => some 't'
  | _ => none

/-- Characters above the controls that are escaped by number all the same. -/
def needsNumber (c : Char) : Bool :=
  c == replacement || c == '\u2028' || c == '\u2029'

/-- A character by its number. -/
def numberEscape (c : Char) : List Char := '\\' :: 'u' :: hexDigits 4 c.toNat

/-- One character of a string. -/
def quoteChar (c : Char) : List Char :=
  if c == '\\' || c == '"' then ['\\', c]
  else if c.toNat < 0x20 then
    match controlLetter? c with
    | some letter => ['\\', letter]
    | none => numberEscape c
  else if needsNumber c then numberEscape c
  else [c]

/-- **A string in writing.** -/
def quote (t : Text) : List Char := '"' :: (Utf8.decode t).flatMap quoteChar ++ ['"']

end Descent.Json
