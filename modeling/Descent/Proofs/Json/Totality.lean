import Descent.Proofs.Json.Acceptance

/-!
# Parsing ends, without a fault

A run of the grammar of JSON may call the rule for values as deep as it likes. It
never goes deeper than there are characters ahead, because a bracket is taken
before each call, and it never repeats something that takes nothing. So a run
**settles**: it ends in a success or a failure, the same at every depth that
covers the characters ahead.

* `sane_self`: no fault in the rule for values, by induction on the depth.
* `json_settles`: every rule settles at every cursor of every text.
-/

namespace Descent

/-- **A settled outcome** is a success or a failure, not a fault. -/
def Outcome.Settled {α : Type} : Outcome α → Prop
  | .success _ _ => True
  | .failure _ => True
  | .fault _ => False

/-- A reading without a fault is a success or a failure as an outcome. -/
theorem Reading.Sane.settled {α : Type} {r : Reading α} (h : r.Sane) (c : Cursor) :
    (r.outcome c).Settled := by
  cases r with
  | took v rest => trivial
  | refused label rest => trivial
  | stuck label rest => exact h.elim
  | broken e => exact h.elim

namespace Json

open Descent.Parser Syntax Grammar

/-- The rule for values has no fault where the depth exceeds the characters ahead. -/
theorem sane_self (n : Nat) (s : List Char) (h : s.length < n) :
    (self.read (rules.answer n) s).Sane := by
  induction n generalizing s with
  | zero => exact absurd h (Nat.not_lt_zero _)
  | succ n ih =>
    -- an element is reached after a bracket, so it has fewer characters ahead
    rw [read_self_succ]
    exact sane_value (rules.within_answer n) fun r hr => ih r (by omega)

/-- Every rule of the grammar is without a fault if the depth covers the characters ahead. -/
theorem sane_rule (k : Kind) {n : Nat} {s : List Char} (h : s.length ≤ n) :
    ((k.parser self).read (rules.answer n) s).Sane :=
  sane_kind (rules.within_answer n) (fun r hr => sane_self n r (by omega)) k

theorem sane_readEnd (s : List Char) : (readEnd s).Sane := by
  cases s with
  | nil => trivial
  | cons x s => rw [readEnd]; split <;> trivial

theorem sane_document {n : Nat} {s : List Char} (h : s.length ≤ n) :
    ((document self).read (rules.answer n) s).Sane := by
  have hlen := (dropWhile_suffix s).length_le
  rw [read_document]
  refine (sane_rule .any (by omega)).andThen fun v r _ => ?_
  exact (sane_readEnd _).map _

/-- **A parser settles at a cursor**: a run at any depth that covers the characters ahead ends in
one and the same success or failure. -/
def Settles (level : Level) (p : Parser Unit RuleType Json) (c : Cursor) : Prop :=
  ∃ o : Outcome Json, o.Settled ∧ (p.runWith rules level c).outcome = o ∧
    ∀ depth, c.ahead.length ≤ depth → (p.run level (rules.call level depth) c).outcome = o

/-- A standard parser that is sane at the depth of its input settles at every greater depth. -/
theorem settles_of_sane {p : Parser Unit RuleType Json} (hp : p.Standard) {c : Cursor}
    (h : (p.read (rules.answer c.ahead.length) c.ahead).Sane) (level : Level) :
    Settles level p c := by
  -- what has ended at one depth is the same at every greater one
  have hsame (depth : Nat) (hd : c.ahead.length ≤ depth) :
      (p.run level (rules.call level depth) c).outcome =
        (p.read (rules.answer c.ahead.length) c.ahead).outcome c := by
    rw [outcome_run_call hp standard_rules]
    have hlead := leadsTo_read (fun label r s => rules.leadsTo_answer hd label r s) p c.ahead
    rw [hlead.eq_of_sane h]
  exact ⟨_, h.settled c, hsame _ (length_le_depth c), hsame⟩

/-- **Parsing JSON ends, and never in a fault.** Each rule of the grammar settles at each cursor
of a text, and so does the parser of documents. -/
theorem json_settles (t : Text) (i : Nat) (level : Level) :
    (∀ k : Kind, Settles level (k.parser self) ((Cursor.ofText t).skip i)) ∧
      Settles level (document self) ((Cursor.ofText t).skip i) ∧ (parse t).Settled := by
  have hdoc (c : Cursor) (level : Level) : Settles level (document self) c :=
    settles_of_sane (standard_document standard_self) (sane_document (Nat.le_refl _)) level
  refine ⟨fun k => ?_, hdoc _ level, ?_⟩
  · exact settles_of_sane (standard_kind standard_self k) (sane_rule k (Nat.le_refl _)) level
  · obtain ⟨o, ho, hparse, -⟩ := hdoc (.ofText t) .info
    rw [← hparse] at ho
    exact ho

end Json

end Descent
