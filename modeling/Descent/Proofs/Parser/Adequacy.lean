import Descent.Proofs.Parser.Read
import Descent.Proofs.Source.Forward

/-!
# Readings are what runs come to

The outcome of a run at a cursor is the reading of the characters ahead, with
the places where it ends named by cursors again. A failure is always **at** the
place where the reading stopped: its cause is what stands there.

* `outcome_run`: for one parser, under answers that agree with the calls.
* `outcome_run_call`: for a parser under rules, to any depth.
-/

namespace Descent

/-- What stands in the way at a cursor: the next character, or the end. -/
def Cursor.obstacle (c : Cursor) : Cause :=
  match c.ahead with
  | [] => .noMoreInput
  | x :: _ => .unexpected x

/-- A character is in the way if it comes next. -/
theorem Cursor.obstacle_eq_unexpected_iff {c : Cursor} {x : Char} :
    c.obstacle = .unexpected x ↔ c.ahead.head? = some x := by
  unfold Cursor.obstacle
  cases c.ahead <;> simp

namespace Reading

variable {α β : Type}

/-- **The outcome of a reading** of the characters ahead of a cursor. -/
def outcome (c : Cursor) : Reading α → Outcome α
  | .took v rest => .success v (c.upTo rest)
  | .refused label rest => .failure (.here label (c.upTo rest).obstacle (c.upTo rest))
  | .stuck label rest => .fault (.noProgress label (c.upTo rest).pos)
  | .broken e => .fault e

@[simp]
theorem outcome_took (c : Cursor) (v : α) (rest : List Char) :
    (took v rest).outcome c = .success v (c.upTo rest) := rfl

@[simp]
theorem outcome_refused (c : Cursor) (label : Text) (rest : List Char) :
    (refused label rest : Reading α).outcome c =
      .failure (.here label (c.upTo rest).obstacle (c.upTo rest)) := rfl

@[simp]
theorem outcome_stuck (c : Cursor) (label : Text) (rest : List Char) :
    (stuck label rest : Reading α).outcome c = .fault (.noProgress label (c.upTo rest).pos) := rfl

/-- Readings may be placed from any cursor on the way. -/
theorem outcome_upTo {c : Cursor} {s : List Char} {r : Reading α} (hs : s <:+ c.ahead)
    (h : r.Within s) : r.outcome (c.upTo s) = r.outcome c := by
  cases r with
  | took v rest => simp only [outcome, Cursor.upTo_upTo hs h]
  | refused l rest => simp only [outcome, Cursor.upTo_upTo hs h]
  | stuck l rest => simp only [outcome, Cursor.upTo_upTo hs h]
  | broken e => rfl

theorem outcome_map (c : Cursor) (r : Reading α) (f : α → β) :
    (r.map f).outcome c = (r.outcome c).map f := by
  cases r <;> rfl

theorem outcome_relabel (c : Cursor) (r : Reading α) (label : Text) :
    (r.relabel label).outcome c = (r.outcome c).relabel label := by
  cases r <;> rfl

/-- A success is one of the reading, and its rest is where the reading ended. -/
theorem took_of_outcome {c d : Cursor} {r : Reading α} {v : α} (h : r.outcome c = .success v d) :
    ∃ rest, r = .took v rest ∧ d = c.upTo rest := by
  cases r with
  | took w rest =>
    obtain ⟨rfl, rfl⟩ := Outcome.success.inj h
    exact ⟨rest, rfl, rfl⟩
  | _ => cases h

/-- A failure is one of the reading, at the place where the reading stopped. -/
theorem outcome_eq_failure {c : Cursor} {r : Reading α} {f : Failure}
    (h : r.outcome c = .failure f) :
    ∃ label rest, r = .refused label rest ∧
      f = .here label (c.upTo rest).obstacle (c.upTo rest) := by
  cases r with
  | refused label rest => exact ⟨label, rest, rfl, (Outcome.failure.inj h).symm⟩
  | _ => cases h

end Reading

namespace Run

variable {α β : Type}

/-- If two runs agree with their readings, so do the two in sequence. -/
theorem outcome_andThen {c : Cursor} {r : Run α} {rd : Reading α} {k : α → Cursor → Run β}
    {kd : α → List Char → Reading β} (h : r.outcome = rd.outcome c) (hw : rd.Within c.ahead)
    (hk : ∀ v d, (k v d).outcome = (kd v d.ahead).outcome d)
    (hkw : ∀ v s, (kd v s).Within s) : (r.andThen k).outcome = (rd.andThen kd).outcome c := by
  unfold andThen
  rw [h]
  cases rd with
  | took v rest =>
    change (k v (c.upTo rest)).outcome = (kd v rest).outcome c
    rw [hk, Cursor.ahead_upTo hw, Reading.outcome_upTo hw (hkw v rest)]
  | refused l rest => rfl
  | stuck l rest => rfl
  | broken e => rfl

/-- If two runs agree with their readings, so does the choice between them. -/
theorem outcome_orElse {c : Cursor} {r : Run α} {rd : Reading α} {k : Unit → Run α}
    {kd : Unit → Reading α} (h : r.outcome = rd.outcome c)
    (hk : (k ()).outcome = (kd ()).outcome c) :
    (r.orElse k).outcome = (rd.orElse kd).outcome c := by
  unfold orElse
  rw [h]
  cases rd with
  | took v rest => exact h
  | refused l rest => exact hk
  | stuck l rest => exact h
  | broken e => exact h

/-- A repetition of runs reads like the repetition of their readings. -/
theorem outcome_iterate {label : Text} {step : Cursor → Run α} {rd : List Char → Reading α}
    (hs : ∀ c, (step c).outcome = (rd c.ahead).outcome c) (hw : ∀ s, (rd s).Within s)
    (budget : List Char) (c : Cursor) :
    (iterate label step budget c).outcome =
      (Reading.repeated label rd budget c.ahead).outcome c := by
  -- on the budget, as both repetitions use it up round by round
  induction budget generalizing c with
  | nil =>
    have hwc := hw c.ahead
    unfold iterate Reading.repeated
    dsimp only
    rw [hs c]
    cases hr : rd c.ahead with
    | took v rest =>
      rw [hr] at hwc
      -- the cursor has not moved if no characters were taken
      simp only [Reading.outcome_took, Cursor.pos_upTo_eq_iff hwc]
      split
      · simp
      · rfl
    | refused l rest => simp [Reading.outcome]
    | stuck l rest => rfl
    | broken e => rfl
  | cons x budget ih =>
    have hwc := hw c.ahead
    unfold iterate Reading.repeated
    dsimp only
    rw [hs c]
    cases hr : rd c.ahead with
    | took v rest =>
      rw [hr] at hwc
      simp only [Reading.outcome_took, Cursor.pos_upTo_eq_iff hwc]
      split
      · simp
      · change ((iterate label step budget (c.upTo rest)).outcome).map _ = _
        rw [ih, Cursor.ahead_upTo hwc, Reading.outcome_map,
          Reading.outcome_upTo hwc (Reading.within_repeated hw budget rest)]
    | refused l rest => simp [Reading.outcome]
    | stuck l rest => rfl
    | broken e => rfl

end Run

/-- Calls give what the answers read. -/
def Call.Agrees {ρ : Type} {τ : ρ → Type} (call : Call ρ τ) (answer : Answer ρ τ) : Prop :=
  ∀ label r c, (call label r c).outcome = (answer label r c.ahead).outcome c

namespace Parser

variable {ρ : Type} {τ : ρ → Type} {α : Type}

theorem takeChar_eq (accepts : Char → Bool) (label : Text) (c : Cursor) :
    takeChar accepts label c = (readChar accepts label c.ahead).outcome c := by
  unfold takeChar
  cases h : c.ahead with
  | nil =>
    rw [Cursor.next_eq_none_iff.2 h]
    simp only [readChar, Reading.outcome, ← h, Cursor.upTo_ahead, Cursor.obstacle]
    rw [h]
  | cons x rest =>
    rw [Cursor.next_eq_upTo h]
    simp only [readChar]
    split
    · rfl
    · simp only [Reading.outcome, ← h, Cursor.upTo_ahead, Cursor.obstacle]
      rw [h]

theorem lookAhead_eq (refuses : Char → Bool) (label : Text) (c : Cursor) :
    lookAhead refuses label c = (readAhead refuses label c.ahead).outcome c := by
  unfold lookAhead
  cases h : c.ahead with
  | nil =>
    rw [Cursor.next_eq_none_iff.2 h]
    simp only [readAhead, Reading.outcome, ← h, Cursor.upTo_ahead]
  | cons x rest =>
    rw [Cursor.next_eq_upTo h]
    simp only [readAhead]
    split
    · simp only [Reading.outcome, ← h, Cursor.upTo_ahead, Cursor.obstacle]
      rw [h]
    · simp only [Reading.outcome, ← h, Cursor.upTo_ahead]

theorem takeEnd_eq (c : Cursor) : takeEnd c = (readEnd c.ahead).outcome c := by
  unfold takeEnd
  cases h : c.ahead with
  | nil =>
    rw [Cursor.next_eq_none_iff.2 h]
    simp only [readEnd, Reading.outcome, ← h, Cursor.upTo_ahead]
  | cons x rest =>
    have hw : rest <:+ c.ahead := h ▸ List.suffix_cons x rest
    rw [Cursor.next_eq_upTo h]
    simp only [readEnd, Cursor.atEnd, Cursor.ahead_upTo hw, List.isEmpty_iff]
    split
    · rfl
    · simp only [Reading.outcome, ← h, Cursor.upTo_ahead, Cursor.obstacle]
      rw [h]

/-- **The outcome of a run is the reading of the characters ahead.** -/
theorem outcome_run {p : Parser ρ τ α} (hp : p.Standard) {call : Call ρ τ} {answer : Answer ρ τ}
    (ha : answer.Within) (hc : call.Agrees answer) (level : Level) (c : Cursor) :
    (p.run level call c).outcome = (p.read answer c.ahead).outcome c := by
  induction p generalizing c with
  | satisfy accepts label => exact takeChar_eq accepts label c
  | notFollowedBy refuses label => exact lookAhead_eq refuses label c
  | endOfInput => exact takeEnd_eq c
  | succeed label v =>
    simp only [run, read, Run.quiet, Reading.outcome, Cursor.upTo_ahead]
  | map p f ih =>
    simp only [run, read, Run.mapOutcome, ih hp, Reading.outcome_map]
  | bind p f ihp ihf =>
    exact Run.outcome_andThen (ihp hp.1 c) (within_read ha p _)
      (fun v d => ihf v (hp.2 v) d) fun v s => within_read ha (f v) s
  | orElse p q ihp ihq => exact Run.outcome_orElse (ihp hp.1 c) (ihq hp.2 c)
  | many p ih => exact Run.outcome_iterate (ih hp) (within_read ha p) c.ahead c
  | named p label ih => exact ih hp c
  | relabel p label ih =>
    simp only [run, read, Run.mapOutcome, ih hp, Reading.outcome_relabel]
  | trace p ih =>
    simp only [run, read]
    split <;> exact ih hp c
  | ref label r => exact hc label r c
  | custom label step => exact hp.elim
  | raise label e => rfl

end Parser

namespace Rules

variable {ρ : Type} {τ : ρ → Type}

/-- Calls of standard rules give what the answers read, to any depth. -/
theorem agrees_call {R : Rules ρ τ} (hR : R.Standard) (level : Level) (n : Nat) :
    (R.call level n).Agrees (R.answer n) := by
  induction n with
  | zero => intro label r c; rfl
  | succ n ih =>
    intro label r c
    unfold call answer
    cases h : R.find r with
    | none => rfl
    | some p => exact Parser.outcome_run (hR r p h) (R.within_answer n) ih level c

end Rules

namespace Parser

variable {ρ : Type} {τ : ρ → Type} {α : Type}

/-- **The outcome of a run under rules is the reading of the characters ahead.** -/
theorem outcome_run_call {p : Parser ρ τ α} (hp : p.Standard) {R : Rules ρ τ} (hR : R.Standard)
    (level : Level) (n : Nat) (c : Cursor) :
    (p.run level (R.call level n) c).outcome = (p.read (R.answer n) c.ahead).outcome c :=
  outcome_run hp (R.within_answer n) (Rules.agrees_call hR level n) level c

/-- The outcome of a run with rules is what is read at the depth that the run starts with. -/
theorem outcome_runWith {p : Parser ρ τ α} (hp : p.Standard) {R : Rules ρ τ} (hR : R.Standard)
    (level : Level) (c : Cursor) :
    (p.runWith R level c).outcome = (p.read (R.answer (R.depth c)) c.ahead).outcome c :=
  outcome_run_call hp hR level (R.depth c) c

end Parser

end Descent
