import Descent.Proofs.Source.Forward
import Descent.Proofs.Text.Utf8

/-!
# Cursors and the text they stand in

What a cursor over a text delivers is the decoded text, line breaks unified,
with a line feed at its end (`ahead_ofText`). On the way, the line and the column
of the cursor always tell where it is (`Cursor.Coherent`): the characters ahead
are those of the rest of its line and of the lines after it.

* `ahead_ofText`: the characters of a text, in one piece.
* `coherent_skip_ofText`: every cursor reached in a text is coherent.
* `Coherent.column_le_currentLine`: its column is within the line that it names.
-/

namespace Descent

/-- **The characters of a source text**: the decoded text with its line breaks unified, and a
line feed after the last line. The empty text has none. -/
def sourceChars (t : Text) : List Char :=
  if t = [] then [] else Utf8.decode (unifyBreaks t) ++ ['\n']

/-- A text without carriage returns is kept. -/
theorem unifyBreaks_of_not_mem {t : Text} (h : carriageReturn ∉ t) : unifyBreaks t = t := by
  induction t using unifyBreaks.induct with
  | case1 => rfl
  | case2 b => rfl
  | case3 a b t hab _ => exact absurd (by rw [hab.1]; exact List.mem_cons_self) h
  | case4 a b t hab ih =>
    rw [unifyBreaks, if_neg hab, ih fun hm => h (List.mem_cons_of_mem _ hm)]

/-- Characters without a carriage return are encoded without one. -/
theorem carriageReturn_not_mem_encode {cs : List Char} (h : '\r' ∉ cs) :
    carriageReturn ∉ Utf8.encode cs := by
  intro hm
  obtain ⟨c, hc, hn⟩ := Utf8.mem_of_mem_encode hm (by decide)
  exact h (Char.toNat_inj.1 (hn.trans (by decide : _ = '\r'.toNat)) ▸ hc)

/-- The characters of an encoded text are those it was encoded from, if it has no carriage
return. -/
theorem sourceChars_encode {cs : List Char} (hne : cs ≠ []) (h : '\r' ∉ cs) :
    sourceChars (Utf8.encode cs) = cs ++ ['\n'] := by
  have hne' : Utf8.encode cs ≠ [] := by
    obtain ⟨c, cs, rfl⟩ := List.exists_cons_of_ne_nil hne
    rw [Utf8.encode_cons]
    exact List.append_ne_nil_of_left_ne_nil (Utf8.encodeChar_ne_nil c) _
  rw [sourceChars, if_neg hne', unifyBreaks_of_not_mem (carriageReturn_not_mem_encode h),
    Utf8.decode_encode]

namespace Cursor

theorem stream_cons (l : Text) (ls : List Text) :
    stream (l :: ls) = Utf8.decode l ++ '\n' :: stream ls := by
  simp [stream]

/-- Lines that are joined by line feeds deliver what the joined text decodes to. -/
theorem stream_eq_decode {ls : List Text} (h : ls ≠ []) :
    stream ls = Utf8.decode ([lineFeed].intercalate ls) ++ ['\n'] := by
  induction ls with
  | nil => exact absurd rfl h
  | cons l ls ih =>
    cases ls with
    | nil => simp [stream, List.intercalate]
    | cons k ks =>
      have hb : lineFeed.toNat < 0x80 := by decide
      rw [List.intercalate_cons_cons, List.append_assoc, List.singleton_append,
        Utf8.decode_append_of_ascii hb, Utf8.decode_lineFeed_cons, stream_cons,
        ih (List.cons_ne_nil k ks)]
      simp

/-- **What a text delivers** is its characters. -/
theorem ahead_ofText (t : Text) : (ofText t).ahead = sourceChars t := by
  unfold ofText sourceChars sourceLines
  dsimp only
  split
  · rfl
  · rw [stream_eq_decode (splitLines_ne_nil _), intercalate_splitLines]

/-! ## Lines and columns -/

/-- **A coherent cursor**: its line and its column say where in the lines it stands. -/
structure Coherent (c : Cursor) : Prop where
  line_le : c.line ≤ c.lines.size
  column_le : c.column ≤ (Utf8.decode (c.lines[c.line]?.getD [])).length
  ahead_eq : c.ahead = (stream (c.lines.toList.drop c.line)).drop c.column
  no_lineFeed : ∀ l ∈ c.lines, lineFeed ∉ l

/-- The cursor at the beginning of a text is coherent. -/
theorem coherent_ofText (t : Text) : (ofText t).Coherent where
  line_le := Nat.zero_le _
  column_le := Nat.zero_le _
  ahead_eq := by simp [ofText]
  no_lineFeed := by
    intro l hl
    have hl' : l ∈ sourceLines t := by simpa [ofText] using hl
    unfold sourceLines at hl'
    split at hl'
    · cases hl'
    · exact not_mem_of_mem_splitLines hl'

variable {c : Cursor}

/-- Past the last line there is nothing to read. -/
theorem Coherent.ahead_eq_nil (hc : c.Coherent) (h : c.lines.size ≤ c.line) : c.ahead = [] := by
  have hd : c.lines.toList.drop c.line = [] := List.drop_eq_nil_of_le (by simpa using h)
  rw [hc.ahead_eq, hd]
  simp [stream]

/-- Within a line, the rest of the line is ahead, then the lines after it. -/
theorem Coherent.ahead_eq_append (hc : c.Coherent) {l : Text} (hl : c.lines[c.line]? = some l) :
    c.ahead = (Utf8.decode l).drop c.column ++
      '\n' :: stream (c.lines.toList.drop (c.line + 1)) := by
  have hcol := hc.column_le
  rw [hl, Option.getD_some] at hcol
  obtain ⟨hlt, hget⟩ := Array.getElem?_eq_some_iff.1 hl
  have hd : c.lines.toList.drop c.line = l :: c.lines.toList.drop (c.line + 1) := by
    rw [List.drop_eq_getElem_cons (by simpa using hlt)]
    simp [hget]
  rw [hc.ahead_eq, hd, stream_cons, List.drop_append_of_le_length hcol]

/-- The end is behind the last line. -/
theorem Coherent.atEnd_iff (hc : c.Coherent) : c.atEnd = true ↔ c.line = c.lines.size := by
  unfold atEnd
  rw [List.isEmpty_iff]
  constructor
  · intro h
    apply Nat.le_antisymm hc.line_le
    apply Nat.le_of_not_lt
    intro hlt
    rw [hc.ahead_eq_append (Array.getElem?_eq_getElem hlt)] at h
    simp at h
  · intro h
    exact hc.ahead_eq_nil (Nat.le_of_eq h.symm)

/-- Reading on keeps a cursor coherent. -/
theorem Coherent.advance (hc : c.Coherent) : c.advance.Coherent := by
  by_cases hlt : c.line < c.lines.size
  · have hl := Array.getElem?_eq_getElem hlt
    generalize c.lines[c.line] = l at hl
    have ha := hc.ahead_eq_append hl
    have hcol := hc.column_le
    rw [hl, Option.getD_some] at hcol
    have hno : '\n' ∉ Utf8.decode l := fun h =>
      hc.no_lineFeed l (Array.mem_of_getElem? hl) (Utf8.mem_of_mem_decode (by decide) h)
    rcases Nat.eq_or_lt_of_le hcol with hce | hcl
    -- the line is read to its end: its line feed leads to the next one
    · rw [List.drop_eq_nil_of_le (Nat.le_of_eq hce.symm), List.nil_append] at ha
      have hadv : c.advance = { c with
          line := c.line + 1, column := 0,
          ahead := stream (c.lines.toList.drop (c.line + 1)) } :=
        advance_of_next (by unfold next; rw [ha]; rfl)
      rw [hadv]
      exact ⟨hlt, Nat.zero_le _, by simp, hc.no_lineFeed⟩
    -- the next character is one of the line, so it is no line feed
    · rw [List.drop_eq_getElem_cons hcl, List.cons_append] at ha
      have hne : (Utf8.decode l)[c.column] ≠ '\n' := fun h => hno (h ▸ List.getElem_mem hcl)
      have hadv : c.advance = { c with
          column := c.column + 1,
          ahead := (Utf8.decode l).drop (c.column + 1) ++
            '\n' :: stream (c.lines.toList.drop (c.line + 1)) } :=
        advance_of_next (x := (Utf8.decode l)[c.column]) (by
          unfold next
          rw [ha]
          simp only [hne, if_false])
      have hd : c.ahead.tail = (stream (c.lines.toList.drop c.line)).drop (c.column + 1) := by
        rw [hc.ahead_eq, List.tail_drop]
      rw [ha, List.tail_cons] at hd
      rw [hadv]
      refine ⟨hc.line_le, ?_, hd, hc.no_lineFeed⟩
      rw [hl, Option.getD_some]
      exact hcl
  · rw [advance_of_ahead_nil (hc.ahead_eq_nil (Nat.le_of_not_lt hlt))]
    exact hc

/-- Coherence is kept, however many characters are skipped. -/
theorem Coherent.skip (hc : c.Coherent) (n : Nat) : (c.skip n).Coherent := by
  induction n generalizing c with
  | zero => exact hc
  | succ n ih => exact ih hc.advance

/-- **Every cursor reached in a text is coherent.** -/
theorem coherent_skip_ofText (t : Text) (n : Nat) : ((ofText t).skip n).Coherent :=
  (coherent_ofText t).skip n

/-- The column of a coherent cursor is within the line that it names, and zero at the end. -/
theorem Coherent.column_le_currentLine (hc : c.Coherent) :
    c.column ≤ if c.atEnd then 0 else (Utf8.decode c.currentLine).length := by
  have hcol := hc.column_le
  split
  · rename_i h
    rw [Array.getElem?_eq_none (Nat.le_of_eq (hc.atEnd_iff.1 h).symm)] at hcol
    exact hcol
  · rename_i h
    have hlt : c.line < c.lines.size :=
      Nat.lt_of_le_of_ne hc.line_le fun he => h (hc.atEnd_iff.2 he)
    unfold currentLine
    rw [Array.getElem?_eq_getElem hlt] at hcol ⊢
    exact hcol

end Cursor

end Descent
