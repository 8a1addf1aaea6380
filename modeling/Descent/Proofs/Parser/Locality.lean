import Descent.Proofs.Parser.Diagnosis

/-!
# Parsers see only what is ahead

A cursor knows the whole text, its line and its column, and a parser hands them
on to failures and faults. What the parser does depends on none of this: from two
cursors that deliver the same characters, in the same text or in two, the runs
take the same steps. They end alike, at the same number of characters from
where they began, and differ in positions and in the texts of lines only.

* `Cursor.SameAhead`: the same characters, one by one.
* `Outcome.Alike`: the same end of two runs, each seen from its own cursor.
* `run_alike`: standard parsers end alike where the same is ahead.
-/

namespace Descent

namespace Cursor

/-- **Two cursors deliver the same** characters, one after another, and end together. -/
def SameAhead (c d : Cursor) : Prop :=
  ∀ i, (c.skip i).next.map Prod.fst = (d.skip i).next.map Prod.fst

theorem map_fst_next (c : Cursor) : c.next.map Prod.fst = c.ahead.head? := by
  cases h : c.ahead with
  | nil => rw [next_eq_none_iff.2 h]; rfl
  | cons x rest => rw [next_of_ahead h]; rfl

theorem sameAhead_iff {c d : Cursor} : c.SameAhead d ↔ c.ahead = d.ahead := by
  have hnext (c : Cursor) (i : Nat) : (c.skip i).next.map Prod.fst = c.ahead[i]? := by
    rw [map_fst_next, ahead_skip, List.head?_drop]
  constructor
  · intro h
    apply List.ext_getElem?
    intro i
    rw [← hnext c, ← hnext d]
    exact h i
  · intro h i
    rw [hnext, hnext, h]

end Cursor

/-- **Two outcomes are alike**, seen from the cursors `c` and `d` where the runs began: the same
value at the same distance, the same label and cause at the same distance, or the same fault, which
may name the place at the same distance. -/
inductive Outcome.Alike {α : Type} (c d : Cursor) : Outcome α → Outcome α → Prop where
  | success (v : α) (k : Nat) :
      k ≤ c.ahead.length → k ≤ d.ahead.length →
      Alike c d (.success v (c.skip k)) (.success v (d.skip k))
  | failure (label : Text) (cause : Cause) (k : Nat) :
      k ≤ c.ahead.length → k ≤ d.ahead.length →
      Alike c d (.failure (.here label cause (c.skip k))) (.failure (.here label cause (d.skip k)))
  | stuck (label : Text) (k : Nat) :
      k ≤ c.ahead.length → k ≤ d.ahead.length →
      Alike c d (.fault (.noProgress label (c.skip k).pos))
        (.fault (.noProgress label (d.skip k).pos))
  | fault (e : Fault) : Alike c d (.fault e) (.fault e)

namespace Reading

variable {α : Type} {c d : Cursor}

/-- What is in the way depends on the characters ahead. -/
theorem obstacle_eq (h : c.ahead = d.ahead) : c.obstacle = d.obstacle := by
  unfold Cursor.obstacle
  rw [h]

/-- One reading, placed at two cursors, gives outcomes that are alike. -/
theorem alike_outcome (h : c.ahead = d.ahead) (r : Reading α) :
    Outcome.Alike c d (r.outcome c) (r.outcome d) := by
  -- what is left tells the distance, and it is the same from both cursors
  have hdistance (rest : List Char) :
      c.ahead.length - rest.length ≤ c.ahead.length ∧
        c.ahead.length - rest.length ≤ d.ahead.length ∧
        d.upTo rest = d.skip (c.ahead.length - rest.length) := by
    unfold Cursor.upTo
    rw [h]
    exact ⟨Nat.sub_le _ _, Nat.sub_le _ _, rfl⟩
  cases r with
  | took v rest =>
    obtain ⟨hc, hd, he⟩ := hdistance rest
    rw [outcome_took, outcome_took, he]
    exact .success v _ hc hd
  | refused label rest =>
    obtain ⟨hc, hd, he⟩ := hdistance rest
    have hobstacle : (c.upTo rest).obstacle = (d.upTo rest).obstacle := by
      apply obstacle_eq
      unfold Cursor.upTo
      rw [Cursor.ahead_skip, Cursor.ahead_skip, h]
    simp only [outcome]
    rw [← hobstacle, he]
    exact .failure label _ _ hc hd
  | stuck label rest =>
    obtain ⟨hc, hd, he⟩ := hdistance rest
    rw [outcome_stuck, outcome_stuck, he]
    exact .stuck label _ hc hd
  | broken e => exact .fault e

end Reading

namespace Parser

variable {ρ : Type} {τ : ρ → Type} {α : Type}

/-- **Standard parsers see only what is ahead.** From two cursors that deliver the same
characters, runs under standard rules end alike, at every depth of calls. -/
theorem run_alike {R : Rules ρ τ} (hR : R.Standard) {p : Parser ρ τ α} (hp : p.Standard)
    (level : Level) {c d : Cursor} (h : c.SameAhead d) :
    (∀ depth, Outcome.Alike c d (p.run level (R.call level depth) c).outcome
        (p.run level (R.call level depth) d).outcome) ∧
      Outcome.Alike c d (p.runWith R level c).outcome (p.runWith R level d).outcome := by
  have hahead := Cursor.sameAhead_iff.1 h
  have hrun (depth : Nat) : Outcome.Alike c d (p.run level (R.call level depth) c).outcome
      (p.run level (R.call level depth) d).outcome := by
    rw [outcome_run_call hp hR, outcome_run_call hp hR, ← hahead]
    exact Reading.alike_outcome hahead _
  have hdepth : R.depth c = R.depth d := by
    unfold Rules.depth
    rw [hahead]
  refine ⟨hrun, ?_⟩
  unfold runWith
  rw [← hdepth]
  exact hrun _

/-- A group that is not closed, alone in a text and as the second line of another one. -/
theorem run_alike_second_line :
    (Cursor.ofText (utf8 "(()")).SameAhead ((Cursor.ofText (utf8 "()\n(()")).skip 3) ∧
    Outcome.Alike (α := Char) (Cursor.ofText (utf8 "(()"))
      ((Cursor.ofText (utf8 "()\n(()")).skip 3)
      (.failure ⟨utf8 ")", .unexpected '\n', ⟨0, 3⟩, utf8 "(()"⟩)
      (.failure ⟨utf8 ")", .unexpected '\n', ⟨1, 3⟩, utf8 "(()"⟩) := by
  have hsame : (Cursor.ofText (utf8 "(()")).SameAhead ((Cursor.ofText (utf8 "()\n(()")).skip 3) :=
    Cursor.sameAhead_iff.2 (by decide +kernel)
  have halike :=
    (run_alike standard_parentheses (p := .ref (utf8 "group") ()) trivial .info hsame).2
  have hfirst : ((Parser.ref (utf8 "group") () : Parser Unit (fun _ => Char) Char).runWith
      parentheses .info (Cursor.ofText (utf8 "(()"))).outcome =
        .failure ⟨utf8 ")", .unexpected '\n', ⟨0, 3⟩, utf8 "(()"⟩ := by
    decide +kernel
  have hsecond : ((Parser.ref (utf8 "group") () : Parser Unit (fun _ => Char) Char).runWith
      parentheses .info ((Cursor.ofText (utf8 "()\n(()")).skip 3)).outcome =
        .failure ⟨utf8 ")", .unexpected '\n', ⟨1, 3⟩, utf8 "(()"⟩ := by
    decide +kernel
  rw [hfirst, hsecond] at halike
  exact ⟨hsame, halike⟩

end Parser

end Descent
