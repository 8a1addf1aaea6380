import Descent.Source.Lines
import Descent.Source.Position
import Descent.Text.Quoted

/-!
# Cursors

A cursor is a place in a source text together with the characters still to be
read from there. Every line, the last one too, is followed by a line feed when
it is read, so the characters ahead are those of the rest of the current line, a
line feed, the characters of the next line, a line feed, and so on. Cursors are
values: reading on gives another cursor and leaves the first as it was.

* `next_eq_none_iff`: there is nothing to read exactly at the end.
* `ahead_of_next`: reading takes the first of the characters ahead.
* `lines_of_next`: reading keeps the lines.
-/

namespace Descent

/-- **A place in a source text.** -/
structure Cursor where
  /-- The lines of the whole text, without their line breaks. -/
  lines : Array Text
  /-- The number of the current line. -/
  line : Nat
  /-- The number of characters of the current line that are read. -/
  column : Nat
  /-- The characters still to be read, with a line feed after every line. -/
  ahead : List Char
  deriving DecidableEq, Repr

namespace Cursor

/-- The cursor over a text without lines. -/
def empty : Cursor := ⟨#[], 0, 0, []⟩

/-- What reading the given lines from the first to the last delivers. -/
def stream (lines : List Text) : List Char := lines.flatMap fun l => Utf8.decode l ++ ['\n']

/-- **The cursor at the beginning of a text.** -/
def ofText (t : Text) : Cursor := ⟨(sourceLines t).toArray, 0, 0, stream (sourceLines t)⟩

/-- The position of a cursor. -/
def pos (c : Cursor) : Position := ⟨c.line, c.column⟩

/-- Whether everything is read. -/
def atEnd (c : Cursor) : Bool := c.ahead.isEmpty

/-- The text of the current line, or a word for the end of the text. -/
def currentLine (c : Cursor) : Text := c.lines[c.line]?.getD (utf8 "end of file")

/-- **Reads one character**: the character and the cursor after it, if there is one. A line
feed leads to the beginning of the next line. -/
def next (c : Cursor) : Option (Char × Cursor) :=
  match c.ahead with
  | [] => none
  | x :: rest =>
    some (x, if x = '\n' then { c with line := c.line + 1, column := 0, ahead := rest }
      else { c with column := c.column + 1, ahead := rest })

/-- The cursor after one character, or the same cursor at the end. -/
def advance (c : Cursor) : Cursor := (c.next.map Prod.snd).getD c

/-- The cursor after `n` characters. -/
def skip : Nat → Cursor → Cursor
  | 0, c => c
  | n + 1, c => skip n c.advance

/-- How many characters of the current line a summary shows. -/
def summaryWidth : Nat := 8

/-- A cursor in writing: its position and the beginning of the rest of its line. -/
def summary (c : Cursor) : Text :=
  if c.atEnd then c.pos.text ++ utf8 " (end of input)"
  else
    let rest := c.ahead.takeWhile (· ≠ '\n')
    let more := if rest.length > summaryWidth then utf8 "..." else []
    c.pos.text ++ utf8 " " ++ Quoted.text (Utf8.encode (rest.take summaryWidth) ++ more)

/-- There is no next character if there is none ahead. -/
theorem next_eq_none_iff {c : Cursor} : c.next = none ↔ c.ahead = [] := by
  cases h : c.ahead <;> simp [next, h]

theorem ahead_of_next {c d : Cursor} {x : Char} (h : c.next = some (x, d)) :
    c.ahead = x :: d.ahead := by
  cases ha : c.ahead with
  | nil => simp [next, ha] at h
  | cons y rest =>
    simp only [next, ha, Option.some.injEq, Prod.mk.injEq] at h
    obtain ⟨rfl, rfl⟩ := h
    split <;> rfl

theorem lines_of_next {c d : Cursor} {x : Char} (h : c.next = some (x, d)) : d.lines = c.lines := by
  cases ha : c.ahead with
  | nil => simp [next, ha] at h
  | cons y rest =>
    simp only [next, ha, Option.some.injEq, Prod.mk.injEq] at h
    obtain ⟨rfl, rfl⟩ := h
    split <;> rfl

/-- Reading moves forward in the order of positions. -/
theorem before_of_next {c d : Cursor} {x : Char} (h : c.next = some (x, d)) :
    c.pos.Before d.pos := by
  cases ha : c.ahead with
  | nil => simp [next, ha] at h
  | cons y rest =>
    simp only [next, ha, Option.some.injEq, Prod.mk.injEq] at h
    obtain ⟨rfl, rfl⟩ := h
    by_cases hy : y = '\n'
    · left
      simp only [pos, hy, if_true]
      omega
    · right
      simp only [pos, hy, if_false, true_and]
      omega

end Cursor

end Descent
