import Descent.Proofs.Parser.Choices
import Descent.Proofs.Source.Enumeration
import Descent.Proofs.Text.Runs

/-!
# Literals

A literal is compared with the characters ahead one by one, line feeds included,
so it may reach over several lines. It is taken if all its characters are there.
If not, the failure is that of the first character that differs: it stands behind
the **longest common beginning** of the literal and the characters ahead, and is
named for the character that was due there.

* `LongestCommon`, `longestCommon_append`: the longest common beginning.
* `run_sequence_char_append`, `run_sequence_char_mismatch`: the two ways to end.
* `literal_exact`: what a literal comes to at every cursor of a text.
-/

namespace Descent

/-! ## Common beginnings -/

/-- **The longest common beginning** of two sequences of characters. -/
structure LongestCommon (w a b : List Char) : Prop where
  left : w <+: a
  right : w <+: b
  longest : ∀ w', w' <+: a → w' <+: b → w'.length ≤ w.length

/-- Sequences agree up to the first place where they differ. -/
theorem longestCommon_append (w : List Char) {x : Char} (a : List Char) {b : List Char}
    (h : b.head? ≠ some x) : LongestCommon w (w ++ x :: a) (w ++ b) where
  left := List.prefix_append _ _
  right := List.prefix_append _ _
  longest := by
    intro w' ha hb
    apply Nat.le_of_not_lt
    intro hlt
    -- anything longer goes past `w`, and has the character of the first sequence there
    have hx : w ++ [x] <+: w ++ x :: a := ⟨a, by simp⟩
    have hlen : (w ++ [x]).length ≤ w'.length := by
      rw [List.length_append]
      exact hlt
    have hw' : w ++ [x] <+: w ++ b := (List.prefix_of_prefix_length_le hx ha hlen).trans hb
    obtain ⟨r, hr⟩ := (List.prefix_append_right_inj w).1 hw'
    exact h (by rw [← hr]; rfl)

/-- A sequence that does not begin with another one departs from it at some place. -/
theorem exists_departure {a b : List Char} (h : ¬ a <+: b) :
    ∃ w x a' b', a = w ++ x :: a' ∧ b = w ++ b' ∧ b'.head? ≠ some x := by
  induction a generalizing b with
  | nil => exact absurd List.nil_prefix h
  | cons x a ih =>
    by_cases hx : b.head? = some x
    · obtain ⟨b, rfl⟩ := List.head?_eq_some_iff.1 hx
      have hab : ¬ a <+: b := fun hp => h (List.cons_prefix_cons.2 ⟨rfl, hp⟩)
      obtain ⟨w, y, a', b', rfl, rfl, hy⟩ := ih hab
      exact ⟨x :: w, y, a', b', rfl, rfl, hy⟩
    · exact ⟨[], x, a, b, rfl, rfl, hx⟩

namespace Parser

variable {ρ : Type} {τ : ρ → Type} {level : Level} {call : Call ρ τ} {c : Cursor}

/-! ## One character -/

/-- The next character is taken if it passes the test. -/
theorem takeChar_of_ahead {accepts : Char → Bool} {x : Char} {rest : List Char}
    (h : c.ahead = x :: rest) (hx : accepts x = true) (label : Text) :
    takeChar accepts label c = .success x c.advance := by
  unfold takeChar
  rw [Cursor.next_of_ahead h]
  dsimp only
  rw [if_pos hx]

/-- Where no character passes the test, the failure says what is in the way. -/
theorem takeChar_of_stops {accepts : Char → Bool} (h : Stops accepts c.ahead) (label : Text) :
    takeChar accepts label c = .failure (.here label c.obstacle c) := by
  unfold takeChar Cursor.obstacle
  cases ha : c.ahead with
  | nil => rw [Cursor.next_eq_none_iff.2 ha]
  | cons x rest =>
    rw [ha] at h
    have hx : ¬ accepts x = true := by simp [h x rfl]
    rw [Cursor.next_of_ahead ha]
    dsimp only
    rw [if_neg hx]

/-! ## All characters -/

/-- Characters in sequence are taken where they stand, and the cursor is that many further on. -/
theorem run_sequence_char_append {cs rest : List Char} (h : c.ahead = cs ++ rest) :
    (sequence (cs.map char) : Parser ρ τ (List Char)).run level call c =
      .quiet (.success cs (c.skip cs.length)) := by
  induction cs generalizing c with
  | nil => rfl
  | cons x cs ih =>
    have hrest : c.advance.ahead = cs ++ rest := by
      rw [Cursor.ahead_advance, h]
      rfl
    have hchar : (char x : Parser ρ τ Char).run level call c = .quiet (.success x c.advance) := by
      change Run.quiet (takeChar (· == x) _ c) = _
      rw [takeChar_of_ahead h (by simp)]
    rw [List.map_cons, run_sequence_cons, hchar]
    change (((sequence (cs.map char)).run level call c.advance).mapOutcome _).after [] = _
    rw [ih hrest]
    rfl

/-- **The first character that differs** decides: the failure is at its place, under its label. -/
theorem run_sequence_char_mismatch {w rest : List Char} {x : Char} (h : c.ahead = w ++ rest)
    (hx : rest.head? ≠ some x) (cs : List Char) :
    (sequence ((w ++ x :: cs).map char) : Parser ρ τ (List Char)).run level call c =
      .quiet (.failure (.here (Utf8.encodeChar x) (c.skip w.length).obstacle
        (c.skip w.length))) := by
  have hrest : (c.skip w.length).ahead = rest := by
    rw [Cursor.ahead_skip, h, List.drop_left]
  have hstops : Stops (· == x) (c.skip w.length).ahead := by
    rw [hrest]
    exact stops_beq_iff.2 hx
  have hchar : (char x : Parser ρ τ Char).run level call (c.skip w.length) =
      .quiet (.failure (.here (Utf8.encodeChar x) (c.skip w.length).obstacle
        (c.skip w.length))) :=
    congrArg Run.quiet (takeChar_of_stops hstops _)
  rw [List.map_append, run_sequence_append, run_sequence_char_append h, List.map_cons]
  change (((sequence (char x :: cs.map char)).run level call
    (c.skip w.length)).mapOutcome _).after [] = _
  rw [run_sequence_cons, hchar]
  rfl

/-- A literal is its characters in sequence, encoded again. -/
theorem run_literal (t : Text) (c : Cursor) :
    (literal t : Parser ρ τ Text).run level call c =
      ((sequence ((Utf8.decode t).map char)).run level call c).mapOutcome
        (Outcome.map Utf8.encode) := rfl

/-! ## Literals -/

/-- **The failure of a literal** of the characters `cs` before the characters `s`: `k` of them
agree, and the failure is `k` characters on from `c`. It is under the label of the character that
was due, and its message names the one that is there, or says that there is none. -/
structure MismatchAt (cs s : List Char) (c : Cursor) (k : Nat) (f : Failure) : Prop where
  longest : ∃ w, LongestCommon w cs s ∧ w.length = k
  label_eq : ∃ x, cs[k]? = some x ∧ f.label = Utf8.encodeChar x
  pos_eq : f.pos = (c.skip k).pos
  line_eq : f.line = (c.skip k).currentLine
  message_of_end : s.length = k → f.message = utf8 "No more input"
  message_of_more : ∀ y, s[k]? = some y →
    f.message = utf8 "Unexpected '" ++ Utf8.encodeChar y ++ utf8 "'"

/-- **What a literal comes to**: it is taken exactly if its characters come first, and otherwise the
failure is at the first one that differs. -/
structure Matches (cs s : List Char) (c : Cursor) (o : Outcome Text) : Prop where
  success_iff : ∀ v d, o = .success v d ↔
    cs <+: s ∧ v = Utf8.encode cs ∧ d = c.skip cs.length
  failure_or : cs <+: s ∨ ∃ k f, o = .failure f ∧ MismatchAt cs s c k f

/-- What agrees up to a character and not with it is a mismatch at that character. -/
theorem mismatchAt_here {w rest : List Char} {x : Char} (h : c.ahead = w ++ rest)
    (hx : rest.head? ≠ some x) (cs : List Char) :
    MismatchAt (w ++ x :: cs) c.ahead c w.length
      (.here (Utf8.encodeChar x) (c.skip w.length).obstacle (c.skip w.length)) := by
  have hrest : (c.skip w.length).ahead = c.ahead.drop w.length := Cursor.ahead_skip _ _
  refine ⟨⟨w, ?_, rfl⟩, ⟨x, ?_, rfl⟩, rfl, rfl, ?_, ?_⟩
  · rw [h]
    exact longestCommon_append w cs hx
  · rw [List.getElem?_append_right (Nat.le_refl _), Nat.sub_self]
    rfl
  · intro hend
    rw [List.drop_eq_nil_of_le (Nat.le_of_eq hend)] at hrest
    unfold Failure.message Failure.here Cursor.obstacle
    rw [hrest]
    rfl
  · intro y hy
    have hobstacle : (c.skip w.length).obstacle = .unexpected y := by
      rw [Cursor.obstacle_eq_unexpected_iff, hrest, List.head?_drop, hy]
    unfold Failure.message Failure.here
    rw [hobstacle]
    rfl

/-- A literal is compared with the characters ahead, whatever cursor they are ahead of. -/
theorem matches_literal (level : Level) (call : Call ρ τ) (t : Text) (c : Cursor) :
    Matches (Utf8.decode t) c.ahead c
      ((literal t : Parser ρ τ Text).run level call c).outcome := by
  rw [run_literal]
  by_cases hp : Utf8.decode t <+: c.ahead
  · obtain ⟨rest, hrest⟩ := hp
    rw [run_sequence_char_append hrest.symm]
    refine ⟨fun v d => ?_, .inl ⟨rest, hrest⟩⟩
    change Outcome.success _ _ = Outcome.success v d ↔ _
    rw [Outcome.success.injEq]
    constructor
    · rintro ⟨rfl, rfl⟩
      exact ⟨⟨rest, hrest⟩, rfl, rfl⟩
    · rintro ⟨-, rfl, rfl⟩
      exact ⟨rfl, rfl⟩
  · obtain ⟨w, x, cs, rest, hcs, hahead, hx⟩ := exists_departure hp
    rw [hcs, run_sequence_char_mismatch hahead hx]
    refine ⟨fun v d => ?_, .inr ⟨w.length, _, rfl, mismatchAt_here hahead hx cs⟩⟩
    rw [← hcs]
    exact iff_of_false nofun fun h => hp h.1

/-- **A literal is taken as far as it agrees.** At every cursor of a text, it succeeds exactly if
its characters are the next ones of the text, where each line, the last one too, ends in a line
feed. It gives its characters encoded, which is the literal itself exactly if that is well-formed.
In every other case it fails at the end of the longest common beginning. -/
theorem literal_exact (level : Level) (call : Call ρ τ) (t u : Text) (n : Nat) :
    Matches (Utf8.decode t) ((sourceChars u).drop n) ((Cursor.ofText u).skip n)
        ((literal t : Parser ρ τ Text).run level call ((Cursor.ofText u).skip n)).outcome ∧
      (Utf8.encode (Utf8.decode t) = t ↔ Utf8.isValid t = true) := by
  refine ⟨?_, Utf8.encode_decode_eq_self_iff⟩
  rw [← Cursor.ahead_skip_ofText]
  exact matches_literal level call t _

-- the text ends within the literal, and it is the line feed of its last line that is in the way
example : ((literal (utf8 "a\nbc") : Parser Unit (fun _ => Char) Text).run .info
    (Rules.none.call .info 1) (.ofText (utf8 "a\r\nb"))).outcome =
      .failure ⟨utf8 "c", .unexpected '\n', ⟨1, 1⟩, utf8 "b"⟩ := by decide +kernel

end Parser

end Descent
