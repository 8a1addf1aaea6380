import Descent.Source.Cursor

/-!
# Cursors along the input

A cursor moves in one direction only, by `next`, so the cursors that a run can
meet are those reached from its first one by skipping characters. What is still
to be read from such a cursor is a suffix of what was to be read before, and the
suffix determines the cursor: `upTo` goes to the place where it begins.

* `ahead_skip`, `lines_skip`: skipping drops characters and keeps the lines.
* `before_skip`: skipping a character that is there moves the position forward.
* `pos_upTo_eq_iff`: so the position tells whether anything was read.
-/

namespace Descent

namespace Position

theorem Before.irrefl (p : Position) : ¬ p.Before p := by
  rintro (h | ⟨-, h⟩) <;> omega

theorem Before.trans {p q r : Position} (h₁ : p.Before q) (h₂ : q.Before r) : p.Before r := by
  unfold Before at *
  omega

/-- Not to be before one another goes on in steps. -/
theorem not_before_trans {p q r : Position} (h₁ : ¬ q.Before p) (h₂ : ¬ r.Before q) :
    ¬ r.Before p := by
  unfold Before at *
  omega

end Position

namespace Cursor

variable {c : Cursor}

/-! ## Skipping -/

/-- The next cursor is the one that was advanced. -/
theorem advance_of_next {d : Cursor} {x : Char} (h : c.next = some (x, d)) : c.advance = d := by
  unfold advance
  rw [h]
  rfl

theorem next_of_ahead {x : Char} {rest : List Char} (h : c.ahead = x :: rest) :
    c.next = some (x, c.advance) := by
  unfold advance next
  rw [h]
  rfl

theorem advance_of_ahead_nil (h : c.ahead = []) : c.advance = c := by
  unfold advance
  rw [next_eq_none_iff.2 h]
  rfl

theorem ahead_advance (c : Cursor) : c.advance.ahead = c.ahead.tail := by
  cases h : c.ahead with
  | nil => rw [advance_of_ahead_nil h, h]; rfl
  | cons x rest =>
    have := ahead_of_next (next_of_ahead h)
    rw [h] at this
    exact (List.cons.inj this).2.symm

theorem lines_advance (c : Cursor) : c.advance.lines = c.lines := by
  cases h : c.ahead with
  | nil => rw [advance_of_ahead_nil h]
  | cons x rest => exact lines_of_next (next_of_ahead h)

/-- Skipping drops characters. -/
theorem ahead_skip (n : Nat) (c : Cursor) : (c.skip n).ahead = c.ahead.drop n := by
  induction n generalizing c with
  | zero => rfl
  | succ n ih =>
    unfold skip
    rw [ih, ahead_advance, List.drop_tail]

theorem lines_skip (n : Nat) (c : Cursor) : (c.skip n).lines = c.lines := by
  induction n generalizing c with
  | zero => rfl
  | succ n ih =>
    unfold skip
    rw [ih, lines_advance]

/-- Characters may be skipped in two steps. -/
theorem skip_add (m n : Nat) (c : Cursor) : c.skip (m + n) = (c.skip m).skip n := by
  induction m generalizing c with
  | zero => rw [Nat.zero_add]; rfl
  | succ m ih =>
    rw [Nat.succ_add]
    exact ih c.advance

/-- **Skipping moves forward**, as long as there is something to skip. -/
theorem before_skip {n : Nat} (h0 : 0 < n) (h : n ≤ c.ahead.length) :
    c.pos.Before (c.skip n).pos := by
  induction n generalizing c with
  | zero => omega
  | succ n ih =>
    obtain ⟨x, rest, hx⟩ := List.exists_cons_of_length_pos (by omega : 0 < c.ahead.length)
    have h1 : c.pos.Before c.advance.pos := before_of_next (next_of_ahead hx)
    rcases Nat.eq_zero_or_pos n with rfl | hn
    · exact h1
    · have hl : n ≤ c.advance.ahead.length := by
        rw [ahead_advance, List.length_tail]
        omega
      exact h1.trans (ih hn hl)

/-! ## Going to a suffix -/

/-- The cursor from which the characters `rest` are still to be read, for a suffix `rest` of
the characters ahead. -/
def upTo (c : Cursor) (rest : List Char) : Cursor := c.skip (c.ahead.length - rest.length)

@[simp]
theorem upTo_ahead (c : Cursor) : c.upTo c.ahead = c := by
  unfold upTo
  rw [Nat.sub_self]
  rfl

/-- What is moved up to has those characters ahead that it was moved up to. -/
theorem ahead_upTo {rest : List Char} (h : rest <:+ c.ahead) : (c.upTo rest).ahead = rest := by
  unfold upTo
  rw [ahead_skip]
  exact (List.suffix_iff_eq_drop.1 h).symm

/-- To move up to what follows some characters is to skip them. -/
theorem upTo_append {w rest : List Char} (h : c.ahead = w ++ rest) :
    c.upTo rest = c.skip w.length := by
  unfold upTo
  rw [h, List.length_append, Nat.add_sub_cancel]

/-- To move up to one suffix and from there to another is to move up to the other. -/
theorem upTo_upTo {r s : List Char} (hr : r <:+ c.ahead) (hs : s <:+ r) :
    (c.upTo r).upTo s = c.upTo s := by
  have h1 := hr.length_le
  have h2 := hs.length_le
  unfold upTo
  rw [ahead_skip, List.length_drop, ← skip_add]
  congr 1
  omega

theorem next_eq_upTo {x : Char} {rest : List Char} (h : c.ahead = x :: rest) :
    c.next = some (x, c.upTo rest) := by
  rw [next_of_ahead h]
  have : c.ahead.length - rest.length = 1 := by rw [h, List.length_cons]; omega
  unfold upTo
  rw [this]
  rfl

/-- **The position tells whether anything was read.** -/
theorem pos_upTo_eq_iff {rest : List Char} (h : rest <:+ c.ahead) :
    (c.upTo rest).pos = c.pos ↔ rest = c.ahead := by
  constructor
  · intro hp
    have hle := h.length_le
    apply h.eq_of_length
    rcases Nat.eq_zero_or_pos (c.ahead.length - rest.length) with h0 | h0
    · omega
    -- had anything been read, the position would be another
    · have hb := before_skip (c := c) h0 (by omega)
      unfold upTo at hp
      rw [hp] at hb
      exact absurd hb (Position.Before.irrefl _)
  · rintro rfl
    rw [upTo_ahead]

end Cursor

end Descent
