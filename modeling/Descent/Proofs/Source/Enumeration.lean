import Descent.Proofs.Source.Coherence

/-!
# What a cursor delivers, and where it then stands

A source text is cut into lines and each line is decoded on its own. Reading it
from the beginning still delivers the characters of the whole text in order, and
after any number of them the position of the cursor can be told from the
characters read: the line is the number of line feeds among them, the column the
number of characters after the last one.

* `line_column_skip_ofText`: the position after `k` characters.
* `ofText_enumerates`: all that a cursor shows after `k` characters.
-/

namespace Descent

/-- The number of characters after the last line feed. -/
def lastColumn (cs : List Char) : Nat := (cs.reverse.takeWhile (· ≠ '\n')).length

theorem lastColumn_append_newline (cs : List Char) : lastColumn (cs ++ ['\n']) = 0 := by
  simp [lastColumn]

theorem lastColumn_append_of_ne {x : Char} (hx : x ≠ '\n') (cs : List Char) :
    lastColumn (cs ++ [x]) = lastColumn cs + 1 := by
  simp [lastColumn, hx]

/-- Joined by line feeds, the lines of a source text are the text with its breaks unified. -/
theorem intercalate_sourceLines (t : Text) :
    [lineFeed].intercalate (sourceLines t) = unifyBreaks t := by
  unfold sourceLines
  split
  · rename_i ht
    subst ht
    rfl
  · exact intercalate_splitLines _

namespace Cursor

variable {c : Cursor}

/-! ## One step -/

theorem skip_succ (k : Nat) (c : Cursor) : c.skip (k + 1) = (c.skip k).advance := skip_add k 1 c

/-- A line feed leads to the beginning of the next line. -/
theorem advance_of_newline {rest : List Char} (h : c.ahead = '\n' :: rest) :
    c.advance = { c with line := c.line + 1, column := 0, ahead := rest } := by
  apply advance_of_next (x := '\n')
  unfold next
  rw [h]
  rfl

/-- Any other character leads to the next column. -/
theorem advance_of_ne_newline {x : Char} {rest : List Char} (h : c.ahead = x :: rest)
    (hx : x ≠ '\n') : c.advance = { c with column := c.column + 1, ahead := rest } := by
  apply advance_of_next (x := x)
  unfold next
  rw [h]
  simp only [hx, if_false]

theorem next_eq_map_head? (c : Cursor) : c.next = c.ahead.head?.map fun x => (x, c.advance) := by
  cases h : c.ahead with
  | nil => exact next_eq_none_iff.2 h
  | cons x rest => exact next_of_ahead h

/-! ## All steps from the beginning -/

/-- After so many characters, the others are ahead. -/
theorem ahead_skip_ofText (t : Text) (k : Nat) :
    ((ofText t).skip k).ahead = (sourceChars t).drop k := by
  rw [ahead_skip, ahead_ofText]

/-- **The position after `k` characters** is told by those characters. -/
theorem line_column_skip_ofText (t : Text) (k : Nat) :
    ((ofText t).skip k).line = ((sourceChars t).take k).count '\n' ∧
      ((ofText t).skip k).column = lastColumn ((sourceChars t).take k) := by
  induction k with
  | zero => exact ⟨rfl, rfl⟩
  | succ k ih =>
    obtain ⟨hline, hcolumn⟩ := ih
    have hahead := ahead_skip_ofText t k
    rw [skip_succ]
    by_cases hk : k < (sourceChars t).length
    · rw [List.drop_eq_getElem_cons hk] at hahead
      have htake : (sourceChars t).take (k + 1) = (sourceChars t).take k ++ [(sourceChars t)[k]] :=
        List.take_succ_eq_append_getElem hk
      rw [htake]
      by_cases hx : (sourceChars t)[k] = '\n'
      · rw [hx] at hahead ⊢
        rw [advance_of_newline hahead, List.count_append, lastColumn_append_newline]
        exact ⟨congrArg (· + 1) hline, rfl⟩
      · rw [advance_of_ne_newline hahead hx, List.count_append, lastColumn_append_of_ne hx]
        refine ⟨?_, congrArg (· + 1) hcolumn⟩
        rw [List.count_singleton, if_neg (by simpa using hx)]
        exact hline
    -- everything is read, so neither side changes any more
    · have hle : (sourceChars t).length ≤ k := Nat.le_of_not_lt hk
      rw [List.drop_eq_nil_of_le hle] at hahead
      rw [advance_of_ahead_nil hahead, List.take_of_length_le (Nat.le_succ_of_le hle)]
      rw [List.take_of_length_le hle] at hline hcolumn
      exact ⟨hline, hcolumn⟩

/-- The end is reached once all characters are skipped. -/
theorem atEnd_skip_ofText (t : Text) (k : Nat) :
    ((ofText t).skip k).atEnd = true ↔ (sourceChars t).length ≤ k := by
  unfold atEnd
  rw [ahead_skip_ofText, List.isEmpty_iff, List.drop_eq_nil_iff]

/-- The characters of a text are delivered in order. -/
theorem next_skip_ofText (t : Text) (k : Nat) :
    ((ofText t).skip k).next = (sourceChars t)[k]?.map fun x => (x, (ofText t).skip (k + 1)) := by
  rw [next_eq_map_head?, ahead_skip_ofText, List.head?_drop, skip_succ]

/-- The current line is one of the lines of the text, up to the end. -/
theorem currentLine_skip_ofText (t : Text) (k : Nat) :
    if k < (sourceChars t).length then
      (sourceLines t)[((sourceChars t).take k).count '\n']? = some ((ofText t).skip k).currentLine
    else ((ofText t).skip k).currentLine = utf8 "end of file" := by
  have hcoherent := coherent_skip_ofText t k
  have hlines : ((ofText t).skip k).lines = (sourceLines t).toArray := lines_skip k _
  obtain ⟨hline, -⟩ := line_column_skip_ofText t k
  rw [← hline]
  -- the line number is at most the number of lines, and equal to it at the end only
  have hend := hcoherent.atEnd_iff
  rw [atEnd_skip_ofText] at hend
  have hget : ((ofText t).skip k).lines[((ofText t).skip k).line]? =
      (sourceLines t)[((ofText t).skip k).line]? := by
    rw [hlines, List.getElem?_toArray]
  unfold currentLine
  rw [hget]
  have hle := hcoherent.line_le
  rw [hlines, List.size_toArray] at hle hend
  split
  · rename_i hk
    have hlt : ((ofText t).skip k).line < (sourceLines t).length := by
      refine Nat.lt_of_le_of_ne hle fun he => ?_
      have := hend.2 he
      omega
    rw [List.getElem?_eq_getElem hlt]
    rfl
  · rename_i hk
    rw [hend.1 (Nat.le_of_not_lt hk), List.getElem?_eq_none (Nat.le_refl _)]
    rfl

/-- **A cursor enumerates its text.** After `k` characters, it delivers the next character of the
text, if there is one, and moves on to the place after it; its position is told by the characters
read; it is at the end if all are read; it names the line of the text with its number. Past the
end it stays. The lines are those of the text, and no line break is within a line. -/
theorem ofText_enumerates (t : Text) (k : Nat) :
    ((ofText t).skip k).next = (sourceChars t)[k]?.map (fun x => (x, (ofText t).skip (k + 1))) ∧
      ((ofText t).skip k).pos =
        ⟨((sourceChars t).take k).count '\n', lastColumn ((sourceChars t).take k)⟩ ∧
      (((ofText t).skip k).atEnd = true ↔ (sourceChars t).length ≤ k) ∧
      (if k < (sourceChars t).length then
        (ofText t).lines[((sourceChars t).take k).count '\n']? =
          some ((ofText t).skip k).currentLine
      else ((ofText t).skip k).currentLine = utf8 "end of file") ∧
      ((sourceChars t).length ≤ k → ((ofText t).skip k).advance = (ofText t).skip k) ∧
      [lineFeed].intercalate (ofText t).lines.toList = unifyBreaks t ∧
      ∀ l ∈ (ofText t).lines, lineFeed ∉ l := by
  refine ⟨next_skip_ofText t k, ?_, atEnd_skip_ofText t k, ?_, ?_, ?_, ?_⟩
  · obtain ⟨hline, hcolumn⟩ := line_column_skip_ofText t k
    unfold pos
    rw [hline, hcolumn]
  · have hlines : (ofText t).lines = (sourceLines t).toArray := rfl
    rw [hlines, List.getElem?_toArray]
    exact currentLine_skip_ofText t k
  · intro hk
    apply advance_of_ahead_nil
    rw [ahead_skip_ofText, List.drop_eq_nil_of_le hk]
  · exact intercalate_sourceLines t
  · exact (coherent_ofText t).no_lineFeed

-- of two carriage returns before a line feed, the first is a character of its line
example : ((ofText (utf8 "a\r\r\nb")).skip 2).next.map Prod.fst = some '\n' ∧
    ((ofText (utf8 "a\r\r\nb")).skip 3).pos = ⟨1, 0⟩ := by decide

end Cursor

end Descent
