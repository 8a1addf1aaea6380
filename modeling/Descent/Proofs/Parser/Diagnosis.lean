import Descent.Proofs.Parser.Adequacy
import Descent.Proofs.Parser.Combinator
import Descent.Proofs.Source.Coherence

/-!
# Failures point to where they arose

A failure carries a position, the text of a line and a message, and combinators
hand it on, relabel it, or drop it and try something else. Whatever a standard
grammar does, the failure that is left **points to** a cursor on the way: its
position and its line are those of the cursor, and its message names the
character that stands there, or the end of the input.

* `failure_points`: this holds of every failure under standard rules, so its
  column is within its line and its report can be written.
-/

namespace Descent

/-- **A failure points to a cursor**: place and message are those of the cursor. -/
structure Failure.PointsTo (f : Failure) (d : Cursor) : Prop where
  pos_eq : f.pos = d.pos
  line_eq : f.line = d.currentLine
  message_of_atEnd : d.atEnd = true → f.message = utf8 "No more input"
  message_of_next : ∀ x e, d.next = some (x, e) →
    f.message = utf8 "Unexpected '" ++ Utf8.encodeChar x ++ utf8 "'"

/-- The failure for what stands in the way at a cursor points to the cursor. -/
theorem Failure.pointsTo_here (label : Text) (d : Cursor) :
    (Failure.here label d.obstacle d).PointsTo d where
  pos_eq := rfl
  line_eq := rfl
  message_of_atEnd := by
    intro h
    unfold Failure.message Failure.here Cursor.obstacle
    rw [List.isEmpty_iff.1 h]
    rfl
  message_of_next := by
    intro x e h
    unfold Failure.message Failure.here Cursor.obstacle
    rw [Cursor.ahead_of_next h]
    rfl

/-- A failure with a column from a cursor has a report. -/
theorem Failure.PointsTo.report_ok {f : Failure} {d : Cursor} (h : f.PointsTo d) :
    ∃ t, f.report = .ok t := by
  have hc : ¬ f.pos.column < 0 := by
    rw [h.pos_eq]
    exact Int.not_lt.2 (Int.natCast_nonneg _)
  unfold Failure.report
  rw [if_neg hc]
  exact ⟨_, rfl⟩

namespace Reading

variable {α : Type}

/-- The failure of a reading points to the place where the reading stopped. -/
theorem pointsTo_of_outcome {r : Reading α} {c : Cursor} {f : Failure}
    (h : r.outcome c = .failure f) : ∃ k, f.PointsTo (c.skip k) := by
  cases r with
  | took v rest => cases h
  | refused label rest =>
    obtain rfl := Outcome.failure.inj h
    exact ⟨c.ahead.length - rest.length, Failure.pointsTo_here label (c.upTo rest)⟩
  | stuck label rest => cases h
  | broken e => cases h

end Reading

namespace Parser

variable {ρ : Type} {τ : ρ → Type} {α : Type}

/-- **Every failure points to where it arose.** A standard parser that fails at a cursor of a
text, under standard rules called to any depth, points to a cursor that is reached from there.
Its column is within its line, zero at the end, and its report can be written. -/
theorem failure_points {R : Rules ρ τ} (hR : R.Standard) {p : Parser ρ τ α} (hp : p.Standard)
    (level : Level) (depth : Nat) (t : Text) (n : Nat) {f : Failure}
    (h : (p.run level (R.call level depth) ((Cursor.ofText t).skip n)).outcome = .failure f) :
    ∃ k, f.PointsTo (((Cursor.ofText t).skip n).skip k) ∧
      0 ≤ f.pos.column ∧
      f.pos.column ≤ (if (((Cursor.ofText t).skip n).skip k).atEnd then 0
        else (Utf8.decode f.line).length : Nat) ∧
      ∃ report, f.report = .ok report := by
  -- whatever was tried on the way, the failure that is left is that of the reading
  rw [outcome_run_call hp hR] at h
  obtain ⟨k, hk⟩ := Reading.pointsTo_of_outcome h
  refine ⟨k, hk, ?_, ?_, hk.report_ok⟩
  · rw [hk.pos_eq]
    exact Int.natCast_nonneg _
  · rw [hk.pos_eq, hk.line_eq]
    exact Int.ofNat_le.2 ((Cursor.coherent_skip_ofText t n).skip k).column_le_currentLine

/-- Nested parentheses: a small grammar that calls itself. -/
def parentheses : Rules Unit (fun _ => Char) where
  find _ := some (((char '(').left (many (.ref (utf8 "group") ()))).left (char ')'))
  count := 1

/-- One group of parentheses. -/
def group : Parser Unit (fun _ => Char) Char := .ref (utf8 "group") ()

theorem standard_parentheses : parentheses.Standard := by
  intro r p h
  obtain rfl := Option.some.inj h
  have hgroups : (many (.ref (utf8 "group") ()) : Parser Unit (fun _ => Char) _).Standard := trivial
  exact ((standard_char '(').left hgroups).left (standard_char ')')

/-- The second of the groups in `())(()` is never closed: the failure is at the line feed. -/
theorem failure_points_unclosed :
    (((.ref (utf8 "group") () : Parser Unit (fun _ => Char) Char).run .info
        (parentheses.call .info 9) ((Cursor.ofText (utf8 "())(()")).skip 3)).outcome =
      .failure ⟨utf8 ")", .unexpected '\n', ⟨0, 6⟩, utf8 "())(()"⟩) ∧
    ∃ k, Failure.PointsTo ⟨utf8 ")", .unexpected '\n', ⟨0, 6⟩, utf8 "())(()"⟩
        (((Cursor.ofText (utf8 "())(()")).skip 3).skip k) ∧
      (0 : Int) ≤ 6 ∧
      (6 : Int) ≤ (if (((Cursor.ofText (utf8 "())(()")).skip 3).skip k).atEnd then 0
        else (Utf8.decode (utf8 "())(()")).length : Nat) ∧
      ∃ report, Failure.report ⟨utf8 ")", .unexpected '\n', ⟨0, 6⟩, utf8 "())(()"⟩ =
        .ok report :=
  ⟨by decide +kernel,
    failure_points standard_parentheses (p := .ref (utf8 "group") ()) trivial .info 9 _ 3
      (by decide +kernel)⟩

end Parser

end Descent
