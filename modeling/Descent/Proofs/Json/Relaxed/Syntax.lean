import Descent.Json.Relaxed
import Descent.Proofs.Json.Syntax

/-!
# The syntax of relaxed documents

Which texts are relaxed documents, and what standard form they have, as rules of
derivation on bytes. A rule says of a text and of the text to be written in its
place that they belong together; both have the same length, and they differ in
comments and in trailing commas only. As with documents proper, nothing here
reads from left to right or takes as much as it can.

* `Extra`: white space and comments, the comments blanked.
* `Items`: items with commas between them, and perhaps one after the last.
* `Value`: a value, nested to some depth.
* `Document`: a value with white space and comments around it.
* `Standardizes`: what is asked of a function that finds the standard form.
-/

namespace Descent.Json.Relaxed

/-! ## White space and comments -/

/-- **A comment**: from two slashes to the end of the line, or from `/*` to the first `*/` after
it. -/
inductive Comment : Text → Prop where
  | line {b : Text} : byte '\n' ∉ b → Comment (byte '/' :: byte '/' :: (b ++ [byte '\n']))
  | block {b : Text} :
      ¬ [byte '*', byte '/'] <:+: b ++ [byte '*'] →
      Comment (byte '/' :: byte '*' :: (b ++ [byte '*', byte '/']))

/-- **White space and comments.** Comments are well-formed UTF-8, and blanks are written over
them. -/
inductive Extra : Text → Text → Prop where
  | nil : Extra [] []
  | space {b : UInt8} {t w : Text} : isSpace b = true → Extra t w → Extra (b :: t) (b :: w)
  | comment {c t w : Text} :
      Comment c → Utf8.isValid c = true → Extra t w → Extra (c ++ t) (c.map blank ++ w)

/-! ## Literals -/

/-- What one step inside a string literal takes: a byte that is no control, or an escape. -/
inductive StringUnit : Text → Prop where
  | plain {b : UInt8} : ¬ b < 0x20 → b ≠ byte '"' → b ≠ byte '\\' → StringUnit [b]
  | escape {e : UInt8} : isEscapeLetter e = true → StringUnit [byte '\\', e]
  | number {h₁ h₂ h₃ h₄ : UInt8} :
      [h₁, h₂, h₃, h₄].all isHexDigit = true →
      StringUnit [byte '\\', byte 'u', h₁, h₂, h₃, h₄]

/-- What stands between the quotes of a string literal. -/
inductive StringBody : Text → Prop where
  | nil : StringBody []
  | cons {u b : Text} : StringUnit u → StringBody b → StringBody (u ++ b)

/-- **A string literal.** -/
inductive StringLiteral : Text → Prop where
  | intro {b : Text} : StringBody b → StringLiteral (byte '"' :: (b ++ [byte '"']))

/-- **A word that is a value**: one of the three constants, or a number. -/
inductive Word : Text → Prop where
  | null : Word (utf8 "null")
  | true : Word (utf8 "true")
  | false : Word (utf8 "false")
  | number {cs : List Char} : Syntax.Number cs → Word (Utf8.encode cs)

/-! ## Arrays, objects, documents -/

/-- **Items with commas between them**, at least one. A space is written over a comma after the
last one. -/
inductive Items (Item : Text → Text → Prop) : Text → Text → Prop where
  | last {t w e x : Text} : Item t w → Extra e x → Items Item (t ++ e) (w ++ x)
  | trailing {t w e x e' x' : Text} :
      Item t w → Extra e x → Extra e' x' →
      Items Item (t ++ (e ++ byte ',' :: e')) (w ++ (x ++ byte ' ' :: x'))
  | more {t w e x e' x' t' w' : Text} :
      Item t w → Extra e x → Extra e' x' → Items Item t' w' →
      Items Item (t ++ (e ++ byte ',' :: (e' ++ t'))) (w ++ (x ++ byte ',' :: (x' ++ w')))

/-- Items in brackets, or nothing. -/
inductive Bracketed (o c : UInt8) (Item : Text → Text → Prop) : Text → Text → Prop where
  | empty {e x : Text} : Extra e x → Bracketed o c Item (o :: (e ++ [c])) (o :: (x ++ [c]))
  | items {e x t w : Text} :
      Extra e x → Items Item t w →
      Bracketed o c Item (o :: (e ++ (t ++ [c]))) (o :: (x ++ (w ++ [c])))

/-- A key, a colon and a value. -/
inductive Member (Value : Text → Text → Prop) : Text → Text → Prop where
  | intro {k e₁ x₁ e₂ x₂ t w : Text} :
      StringLiteral k → Extra e₁ x₁ → Extra e₂ x₂ → Value t w →
      Member Value (k ++ (e₁ ++ byte ':' :: (e₂ ++ t))) (k ++ (x₁ ++ byte ':' :: (x₂ ++ w)))

/-- A value whose items are of the given form. -/
inductive ValueOver (Inner : Text → Text → Prop) : Text → Text → Prop where
  | string {t : Text} : StringLiteral t → ValueOver Inner t t
  | word {t : Text} : Word t → ValueOver Inner t t
  | array {t w : Text} : Bracketed (byte '[') (byte ']') Inner t w → ValueOver Inner t w
  | object {t w : Text} : Bracketed (byte '{') (byte '}') (Member Inner) t w → ValueOver Inner t w

/-- A value, nested less deep than given. -/
def NestedValue : Nat → Text → Text → Prop
  | 0 => fun _ _ => False
  | depth + 1 => ValueOver (NestedValue depth)

/-- **A value**, nested as deep as it may be. -/
def Value (t w : Text) : Prop := ∃ depth, NestedValue depth t w

/-- **A relaxed document and its standard form.** -/
inductive Document : Text → Text → Prop where
  | intro {e x t w e' x' : Text} :
      Extra e x → Value t w → Extra e' x' → Document (e ++ (t ++ e')) (x ++ (w ++ x'))

/-- **A standardizer** finds the standard form of every relaxed document, and of nothing else. -/
def Standardizes (standardize : Text → Option Text) : Prop :=
  ∀ t w, standardize t = some w ↔ Document t w

end Descent.Json.Relaxed
