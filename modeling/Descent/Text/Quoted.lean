import Descent.Text.Digits
import Descent.Text.Printable

/-!
# Quoted text for messages

Messages show labels, keys and source text between quotation marks, with
everything that is not printable escaped, so that a reader sees every byte:

* the mark itself and the backslash are escaped by a backslash;
* printable characters stand for themselves;
* seven controls have a letter of their own;
* a stray byte, another control below U+0020 and U+007F are written `\xNN`;
* any other character is written `\uNNNN`, or `\UNNNNNNNN` from U+10000 on.
-/

namespace Descent.Quoted

/-- The letter of a control character that has one. -/
def controlLetter? (c : Char) : Option Char :=
  match c.toNat with
  | 0x07 => some 'a'
  | 0x08 => some 'b'
  | 0x0C => some 'f'
  | 0x0A => some 'n'
  | 0x0D => some 'r'
  | 0x09 => some 't'
  | 0x0B => some 'v'
  | _ => none

/-- One character between two `mark`s. -/
def escapeChar (mark c : Char) : List Char :=
  if c == mark || c == '\\' then ['\\', c]
  else if isPrintable c then [c]
  else
    match controlLetter? c with
    | some letter => ['\\', letter]
    | none =>
      if c.toNat < 0x20 || c.toNat == 0x7F then '\\' :: 'x' :: hexDigits 2 c.toNat
      else if c.toNat < 0x10000 then '\\' :: 'u' :: hexDigits 4 c.toNat
      else '\\' :: 'U' :: hexDigits 8 c.toNat

/-- One piece of a text between two `mark`s. -/
def escapePiece (mark : Char) : Utf8.Piece → List Char
  | .char c => escapeChar mark c
  | .stray b => '\\' :: 'x' :: hexDigits 2 b.toNat

/-- **A text between double quotes**, every byte of it visible. -/
def text (t : Text) : Text :=
  Utf8.encode ('"' :: (Utf8.pieces t).flatMap (escapePiece '"') ++ ['"'])

/-- One character between single quotes. -/
def char (c : Char) : Text := Utf8.encode ('\'' :: escapeChar '\'' c ++ ['\''])

end Descent.Quoted
