import Descent.Decimal.Literal
import Descent.Json.Basic
import Descent.Proofs.Text.CodePoint

/-!
# The syntax of JSON documents

Which sequences of characters are JSON documents, and what they stand for, as
rules of derivation. Nothing here reads from left to right, prefers one rule to
another or takes as much as it can: a text is a document if there is any way to
derive it.

* `Syntax.Value w v`: the characters `w` are a value, and the value is `v`.
* `Syntax.Document w v`: a value with white space around it.

Strings may hold any character but a quote and a backslash. Of several members of
an object with the same key, the last one counts.
-/

namespace Descent

namespace Json.Syntax

/-! ## White space -/

/-- The white space of JSON. -/
def isSpace (x : Char) : Bool := [' ', '\t', '\n', '\r'].contains x

/-- Nothing but white space. -/
def Blank (w : List Char) : Prop := ∀ x ∈ w, isSpace x = true

/-! ## Strings -/

/-- The letters that may follow a backslash, each with the character it stands for. -/
def escapes : List (Char × Char) :=
  [('"', '"'), ('\\', '\\'), ('/', '/'), ('b', '\x08'), ('f', '\x0c'), ('n', '\n'), ('r', '\r'),
    ('t', '\t')]

/-- A hexadecimal digit of either case, and its value. -/
def HexDigit (x : Char) (n : Nat) : Prop :=
  ('0' ≤ x ∧ x ≤ '9' ∧ x.toNat = '0'.toNat + n) ∨
    ('a' ≤ x ∧ x ≤ 'f' ∧ x.toNat + 10 = 'a'.toNat + n) ∨
    ('A' ≤ x ∧ x ≤ 'F' ∧ x.toNat + 10 = 'A'.toNat + n)

instance (x : Char) (n : Nat) : Decidable (HexDigit x n) :=
  inferInstanceAs (Decidable (_ ∨ _ ∨ _))

/-- One character of a string, as it is written. -/
inductive StringChar : List Char → CodePoint → Prop where
  | plain {x : Char} : x ≠ '"' → x ≠ '\\' → StringChar [x] x.toNat
  | escape {letter x : Char} : (letter, x) ∈ escapes → StringChar ['\\', letter] x.toNat
  | number {a b c d : Char} {i j k l : Nat} :
      HexDigit a i → HexDigit b j → HexDigit c k → HexDigit d l →
      StringChar ['\\', 'u', a, b, c, d] (((i * 16 + j) * 16 + k) * 16 + l : Nat)

/-- What stands between the quotes of a string. -/
inductive StringBody : List Char → List CodePoint → Prop where
  | nil : StringBody [] []
  | cons {w b : List Char} {u : CodePoint} {us : List CodePoint} :
      StringChar w u → StringBody b us → StringBody (w ++ b) (u :: us)

/-- **A string** in quotes, and its text. -/
inductive Quoted : List Char → Text → Prop where
  | intro {b cs : List Char} {us : List CodePoint} :
      StringBody b us → CodePoint.StandFor us cs → Quoted ('"' :: b ++ ['"']) (Utf8.encode cs)

/-! ## Numbers -/

/-- Digits, at least one. -/
def Digits (w : List Char) : Prop := w ≠ [] ∧ ∀ x ∈ w, x.isDigit = true

/-- A minus sign, or nothing. -/
def Sign (w : List Char) : Prop := w = [] ∨ w = ['-']

/-- A zero, or digits that begin with another one. -/
def Whole (w : List Char) : Prop :=
  w = ['0'] ∨ ∃ x ds, w = x :: ds ∧ '1' ≤ x ∧ x ≤ '9' ∧ ∀ y ∈ ds, y.isDigit = true

/-- A point and digits, or nothing. -/
def Fraction (w : List Char) : Prop := w = [] ∨ ∃ ds, w = '.' :: ds ∧ Digits ds

/-- A mark, a sign or none, and digits, or nothing at all. -/
def Exponent (w : List Char) : Prop :=
  w = [] ∨ ∃ mark sign ds, w = mark :: sign ++ ds ∧ (mark = 'e' ∨ mark = 'E') ∧
    (sign = [] ∨ sign = ['+'] ∨ sign = ['-']) ∧ Digits ds

/-- **The literal of a number.** -/
def Number (w : List Char) : Prop :=
  ∃ sign whole fraction exponent, w = sign ++ whole ++ fraction ++ exponent ∧
    Sign sign ∧ Whole whole ∧ Fraction fraction ∧ Exponent exponent

/-! ## Values -/

/-- The value of the last member with a key. -/
def lastValue? (key : Text) (ms : List (Text × Json)) : Option Json :=
  (ms.reverse.find? fun m => m.1 == key).map Prod.snd

/-- **Members as a mapping**: sorted by key, and each key with the value of its last member. -/
def Collects (ms : List (Text × Json)) (mapping : Members) : Prop :=
  mapping.Sorted ∧ ∀ key, mapping.find? key = lastValue? key ms

mutual

/-- **A value**, and what it stands for. -/
inductive Value : List Char → Json → Prop where
  | null : Value "null".toList .null
  | true : Value "true".toList (.bool true)
  | false : Value "false".toList (.bool false)
  | string {w : List Char} {t : Text} : Quoted w t → Value w (.string t)
  | number {w : List Char} {x : Binary64} :
      Number w → Binary64.ofLiteral? w = some x → Value w (.number x)
  | emptyArray {u : List Char} : Blank u → Value ('[' :: u ++ [']']) (.array [])
  | array {u w : List Char} {vs : List Json} :
      Blank u → Elements w vs → Value ('[' :: u ++ w ++ [']']) (.array vs)
  | emptyObject {u : List Char} : Blank u → Value ('{' :: u ++ ['}']) (.object [])
  | object {u w : List Char} {ms : List (Text × Json)} {mapping : Descent.Members} :
      Blank u → Members w ms → Collects ms mapping →
      Value ('{' :: u ++ w ++ ['}']) (.object mapping)

/-- Values with commas between them, each with white space after it. -/
inductive Elements : List Char → List Json → Prop where
  | one {w u : List Char} {v : Json} : Value w v → Blank u → Elements (w ++ u) [v]
  | more {w u u' w' : List Char} {v : Json} {vs : List Json} :
      Value w v → Blank u → Blank u' → Elements w' vs →
      Elements (w ++ u ++ ',' :: u' ++ w') (v :: vs)

/-- Keys and values with commas between them, each with white space after it. -/
inductive Members : List Char → List (Text × Json) → Prop where
  | one {k u₁ u₂ w u : List Char} {key : Text} {v : Json} :
      Quoted k key → Blank u₁ → Blank u₂ → Value w v → Blank u →
      Members (k ++ u₁ ++ ':' :: u₂ ++ w ++ u) [(key, v)]
  | more {k u₁ u₂ w u u' w' : List Char} {key : Text} {v : Json} {ms : List (Text × Json)} :
      Quoted k key → Blank u₁ → Blank u₂ → Value w v → Blank u → Blank u' → Members w' ms →
      Members (k ++ u₁ ++ ':' :: u₂ ++ w ++ u ++ ',' :: u' ++ w') ((key, v) :: ms)

end

/-- **A document**: one value, with white space around it. -/
inductive Document : List Char → Json → Prop where
  | intro {u w u' : List Char} {v : Json} :
      Blank u → Value w v → Blank u' → Document (u ++ w ++ u') v

end Json.Syntax

end Descent
