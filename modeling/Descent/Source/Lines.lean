import Descent.Text.Utf8

/-!
# The lines of a source text

A line ends at a line feed, or at a carriage return and a line feed; a carriage
return alone is an ordinary character. Every text but the empty one has a line
after its last line break, which may be empty.

* `splitLines_ne_nil`: a split text has at least one line.
* `not_mem_of_mem_splitLines`: no line has a line feed in it.
* `intercalate_splitLines`: joined by line feeds, the lines are the text again.
-/

namespace Descent

/-- The line feed as a byte. -/
def lineFeed : UInt8 := 0x0A

/-- The carriage return as a byte. -/
def carriageReturn : UInt8 := 0x0D

/-- Line breaks as single line feeds: in one pass from the left, a carriage return right
before a line feed is dropped. -/
def unifyBreaks : Text → Text
  | [] => []
  | [b] => [b]
  | a :: b :: t =>
    if a = carriageReturn ∧ b = lineFeed then lineFeed :: unifyBreaks t
    else a :: unifyBreaks (b :: t)

/-- The stretches of a text between its line feeds. -/
def splitLines : Text → List Text
  | [] => [[]]
  | b :: t => if b = lineFeed then [] :: splitLines t else (splitLines t).modifyHead (b :: ·)

/-- **The lines of a source text.** The empty text has none. -/
def sourceLines (t : Text) : List Text :=
  if t = [] then [] else splitLines (unifyBreaks t)

theorem splitLines_ne_nil (t : Text) : splitLines t ≠ [] := by
  induction t with
  | nil => simp [splitLines]
  | cons b t ih =>
    simp only [splitLines]
    split
    · simp
    · cases h : splitLines t with
      | nil => exact absurd h ih
      | cons l ls => simp

/-- No line has a line feed in it. -/
theorem not_mem_of_mem_splitLines {t l : Text} (h : l ∈ splitLines t) : lineFeed ∉ l := by
  induction t generalizing l with
  | nil => simp_all [splitLines]
  | cons b t ih =>
    simp only [splitLines] at h
    split at h
    · rcases List.mem_cons.mp h with rfl | h
      · simp
      · exact ih h
    · rename_i hb
      cases hs : splitLines t with
      | nil => simp [hs] at h
      | cons k ks =>
        rw [hs, List.modifyHead_cons] at h
        rcases List.mem_cons.mp h with rfl | h
        · have := ih (hs ▸ List.mem_cons_self : k ∈ splitLines t)
          simp [this, Ne.symm hb]
        · exact ih (hs ▸ List.mem_cons_of_mem _ h)

/-- Joined by line feeds, the lines of a text are the text again. -/
theorem intercalate_splitLines (t : Text) : [lineFeed].intercalate (splitLines t) = t := by
  induction t with
  | nil => rfl
  | cons b t ih =>
    simp only [splitLines]
    obtain ⟨l, ls, hs⟩ := List.exists_cons_of_ne_nil (splitLines_ne_nil t)
    rw [hs] at ih
    split
    · rename_i hb
      subst hb
      rw [hs, List.intercalate_cons_cons, ih]
      simp
    · rw [hs, List.modifyHead_cons]
      cases ls with
      | nil => simpa [List.intercalate] using ih
      | cons k ks =>
        rw [List.intercalate_cons_cons] at ih ⊢
        simp [ih]

end Descent
