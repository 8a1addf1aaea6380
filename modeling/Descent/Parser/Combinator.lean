import Descent.Parser.Run
import Descent.Text.Blank
import Descent.Text.CodePoint

/-!
# Derived parsers

Everything that can be said with the primitives: single characters, literals,
sequences, choices, repetition with separators. Each has the label by which
failures and faults name it.

* `andThen`, `left`, `right`, `apply`, `lift2`, `between`: one after the other.
* `choice`: the first alternative that succeeds, tried from the left.
* `sequence`: all of a list, in order.
* `many1`, `sepBy`, `sepBy1`, `optional`: repetition.
-/

namespace Descent.Parser

variable {ρ : Type} {τ : ρ → Type} {α β γ : Type}

/-- Takes the given character. -/
def char (x : Char) : Parser ρ τ Char := .satisfy (· == x) (Utf8.encodeChar x)

/-- Takes the character with the given number, if there is one. -/
def codePoint (u : CodePoint) : Parser ρ τ Char :=
  .satisfy (fun x => CodePoint.ofChar x == u) (Utf8.encodeChar (CodePoint.toChar u))

/-- Runs two parsers, one after the other. -/
def andThen (p : Parser ρ τ α) (q : Parser ρ τ β) : Parser ρ τ (α × β) :=
  (p.bind fun a => q.bind fun b => .succeed [] (a, b)).named
    (p.label ++ utf8 " andThen " ++ q.label)

/-- Runs two parsers and keeps the first value. -/
def left (p : Parser ρ τ α) (q : Parser ρ τ β) : Parser ρ τ α := (p.andThen q).map Prod.fst

/-- Runs two parsers and keeps the second value. -/
def right (p : Parser ρ τ α) (q : Parser ρ τ β) : Parser ρ τ β := (p.andThen q).map Prod.snd

/-- Runs two parsers and applies the first value to the second. -/
def apply (p : Parser ρ τ (α → β)) (q : Parser ρ τ α) : Parser ρ τ β :=
  (p.andThen q).map fun (f, a) => f a

/-- Runs two parsers and combines their values. -/
def lift2 (f : α → β → γ) (p : Parser ρ τ α) (q : Parser ρ τ β) : Parser ρ τ γ := (p.map f).apply q

/-- Runs a parser between two others, whose values are dropped. -/
def between (opening : Parser ρ τ α) (p : Parser ρ τ β) (closing : Parser ρ τ γ) : Parser ρ τ β :=
  (opening.right p).left closing

/-- **The first of the alternatives that succeeds.** If all fail, the last failure stands. A
choice between no parsers is a fault. -/
def choice : List (Parser ρ τ α) → Parser ρ τ α
  | [] => .raise [] .emptyChoice
  | p :: ps => ps.foldl .orElse p

/-- The parsers in order, without a label of their own. -/
def inOrder : List (Parser ρ τ α) → Parser ρ τ (List α)
  | [] => .succeed [] []
  | p :: ps => p.bind fun v => (inOrder ps).map (v :: ·)

/-- **All of the parsers, in order.** -/
def sequence (ps : List (Parser ρ τ α)) : Parser ρ τ (List α) :=
  (inOrder ps).named (utf8 "sequence")

/-- Takes one of the characters of a text. -/
def anyOf (chars : Text) : Parser ρ τ Char :=
  (choice ((Utf8.decode chars).map char)).relabel (utf8 "any of " ++ chars)

/-- Takes the characters of a text, in order. -/
def literal (t : Text) : Parser ρ τ Text :=
  ((sequence ((Utf8.decode t).map char)).map Utf8.encode).named t

/-- Repeats a parser, at least once. -/
def many1 (p : Parser ρ τ α) : Parser ρ τ (List α) :=
  (p.bind fun v => p.many.map (v :: ·)).named (utf8 "many " ++ p.label)

/-- Repeats a parser of characters, and gives the text they make. -/
def manyChars (p : Parser ρ τ Char) : Parser ρ τ Text := p.many.map Utf8.encode

/-- Repeats a parser of characters, at least once, and gives the text they make. -/
def manyChars1 (p : Parser ρ τ Char) : Parser ρ τ Text := p.many1.map Utf8.encode

/-- Runs a parser if it succeeds, and takes nothing otherwise. -/
def optional (p : Parser ρ τ α) : Parser ρ τ (Option α) :=
  ((p.map some).orElse (.succeed (utf8 "absent") none)).named (utf8 "optional " ++ p.label)

/-- Repeats a parser, at least once, with a separator in between. A separator that nothing
follows is left where it is. -/
def sepBy1 (p : Parser ρ τ α) (sep : Parser ρ τ β) : Parser ρ τ (List α) :=
  (p.andThen (sep.right p).many).map fun (v, vs) => v :: vs

/-- Repeats a parser with a separator in between. -/
def sepBy (p : Parser ρ τ α) (sep : Parser ρ τ β) : Parser ρ τ (List α) :=
  (p.sepBy1 sep).orElse (.succeed (utf8 "empty") [])

/-- Takes one white-space character. -/
def whitespace : Parser ρ τ Char := .satisfy isBlank (utf8 "whitespace")

/-- Takes any white space. -/
def spaces : Parser ρ τ Text := manyChars whitespace

/-- Takes some white space. -/
def spaces1 : Parser ρ τ Text := manyChars1 whitespace

/-- Changes the value by a function that can be wrong about it. -/
def mapOrRaise (p : Parser ρ τ α) (f : α → Except Fault β) : Parser ρ τ β :=
  (p.bind fun v =>
    match f v with
    | .ok w => .succeed [] w
    | .error e => .raise [] e).named p.label

/-- Always fails, in the given way. -/
def failWith (f : Failure) : Parser ρ τ α := .custom f.label fun _ => .failure f

/-- Takes `n` more characters after those `taken`, or fails where the input ends. -/
def takeMore (label : Text) : Nat → List Char → Cursor → Outcome Text
  | 0, taken, c => .success (Utf8.encode taken.reverse) c
  | n + 1, taken, c =>
    match c.next with
    | some (x, rest) => takeMore label n (x :: taken) rest
    | none => .failure (.here label (.stated (utf8 "short by " ++ decimalText (n + 1 : Nat))) c)

/-- Takes the given number of characters, whatever they are; none for a negative number. -/
def take (n : Int) : Parser ρ τ Text :=
  let label := utf8 "take " ++ decimalText n
  .custom label (takeMore label n.toNat [])

end Descent.Parser
