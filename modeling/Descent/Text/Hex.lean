import Descent.Text.Quoted

/-!
# Reading hexadecimal numbers

Digits of either case are read, the most significant first, into a signed
32-bit number that wraps around. `ReadError` names what cannot be read: an empty
text, or the first byte that is no digit.
-/

namespace Descent.Hex

/-- The value of a hexadecimal digit. -/
def digit? (b : UInt8) : Option Nat :=
  let n := b.toNat
  if 0x30 ≤ n ∧ n ≤ 0x39 then some (n - 0x30)
  else if 0x61 ≤ n ∧ n ≤ 0x66 then some (n - 0x61 + 10)
  else if 0x41 ≤ n ∧ n ≤ 0x46 then some (n - 0x41 + 10)
  else none

/-- Why a text is no hexadecimal number. -/
inductive ReadError where
  /-- There is no digit at all. -/
  | empty
  /-- The first byte that is no digit. -/
  | badDigit (b : UInt8)
  deriving DecidableEq, Repr

/-- The wording of an error. -/
def ReadError.message : ReadError → Text
  | .empty => utf8 "empty hex value"
  | .badDigit b => utf8 "invalid hex digit " ++ Quoted.char (Char.ofNat b.toNat)

/-- The number after appending a digit, as a signed 32-bit number. -/
def push (value : Int) (digit : Nat) : Int := (value * 16 + digit).bmod 0x100000000

/-- Reads the remaining digits of a number. -/
def readFrom (value : Int) : Text → Except ReadError Int
  | [] => .ok value
  | b :: t =>
    match digit? b with
    | some d => readFrom (push value d) t
    | none => .error (.badDigit b)

/-- **Reads a hexadecimal number.** -/
def read : Text → Except ReadError Int
  | [] => .error .empty
  | b :: t => readFrom 0 (b :: t)

/-- The number that a text stands for, or zero and the error. -/
def answer (t : Text) : Int × Option ReadError :=
  match read t with
  | .ok v => (v, none)
  | .error e => (0, some e)

end Descent.Hex
