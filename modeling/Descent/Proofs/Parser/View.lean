import Descent.Parser.Run

/-!
# Views of a run

Two runs may differ in what a reader of the outcome does not care about: the log,
or the labels by which parsers are named. A **view** says how much of these is
seen. Everything else of a run is always seen: the value, the rest of the input,
the cause and the place of a failure, the fault.

No operation on runs looks at a label or at the log, so each of them can be
carried out on what is seen. A parser is then seen to do what its parts are seen
to do.

* `Run.seen_andThen`, `Run.seen_orElse`, `Run.seen_iterate`: the operations that
  choose how to go on.
* `Run.seen_traced`, `Run.seen_traced_of_unseen`: tracing, with and without the log.
* `Rules.seen_call_change`: from one parser to rules, by induction on the depth.
-/

namespace Descent

/-- **A view** of runs: what is seen of a label, and whether the log is seen. -/
structure View where
  label : Text → Text
  log : Bool

namespace View

/-- The outcome as it is, and nothing of the log. -/
def outcomeOnly : View := ⟨id, false⟩

/-- The outcome and the log, without labels. -/
def unlabelled : View := ⟨fun _ => [], true⟩

end View

/-! ## What is seen -/

/-- An entry of the log in a view. -/
def Entry.seen (V : View) : Entry → Entry
  | .began label pos => .began (V.label label) pos
  | .succeeded label pos stop => .succeeded (V.label label) pos stop
  | .failed label pos message => .failed (V.label label) pos message

/-- A failure in a view. -/
def Failure.seen (V : View) (f : Failure) : Failure := f.relabel (V.label f.label)

/-- A fault in a view. The one that names a parser by its label is that of a repetition. -/
def Fault.seen (V : View) : Fault → Fault
  | .noProgress label pos => .noProgress (V.label label) pos
  | e => e

/-- An outcome in a view. -/
def Outcome.seen {α : Type} (V : View) : Outcome α → Outcome α
  | .success v rest => .success v rest
  | .failure f => .failure (f.seen V)
  | .fault e => .fault (e.seen V)

/-- The entries of a log in a view. -/
def View.entries (V : View) (log : List Entry) : List Entry :=
  if V.log then log.map (Entry.seen V) else []

/-- **What is seen of a run.** -/
def Run.seen {α : Type} (V : View) (r : Run α) : Run α := ⟨V.entries r.log, r.outcome.seen V⟩

namespace View

variable (V : View)

@[simp]
theorem entries_nil : V.entries [] = [] := by
  unfold entries
  split <;> rfl

@[simp]
theorem entries_append (log log' : List Entry) :
    V.entries (log ++ log') = V.entries log ++ V.entries log' := by
  unfold entries
  split
  · exact List.map_append
  · rfl

end View

/-! ## Outcomes -/

namespace Outcome

variable {α β : Type} (V : View)

theorem seen_map (f : α → β) (o : Outcome α) : (o.map f).seen V = (o.seen V).map f := by
  cases o <;> rfl

theorem seen_relabel (label : Text) (o : Outcome α) :
    (o.relabel label).seen V = (o.seen V).relabel (V.label label) := by
  cases o <;> rfl

@[simp]
theorem seen_outcomeOnly (o : Outcome α) : o.seen .outcomeOnly = o := by
  cases o with
  | success v rest => rfl
  | failure f => rfl
  | fault e => cases e <;> rfl

end Outcome

/-! ## Runs -/

namespace Run

variable {α β : Type} (V : View)

theorem seen_quiet (o : Outcome α) : (quiet o).seen V = quiet (o.seen V) := by
  unfold quiet seen
  rw [V.entries_nil]

theorem seen_after (log : List Entry) (r : Run α) :
    (r.after log).seen V = (r.seen V).after (V.entries log) := by
  unfold after seen
  rw [V.entries_append]

theorem seen_map (f : α → β) (r : Run α) :
    (r.mapOutcome (Outcome.map f)).seen V = (r.seen V).mapOutcome (Outcome.map f) := by
  unfold mapOutcome seen
  rw [Outcome.seen_map]

theorem seen_relabel (label : Text) (r : Run α) :
    (r.mapOutcome (Outcome.relabel label)).seen V =
      (r.seen V).mapOutcome (Outcome.relabel (V.label label)) := by
  unfold mapOutcome seen
  rw [Outcome.seen_relabel]

theorem seen_outcomeOnly (r : Run α) : r.seen .outcomeOnly = quiet r.outcome := by
  unfold seen quiet
  rw [Outcome.seen_outcomeOnly]
  rfl

/-- Whether to go on after a run is seen in its outcome. -/
theorem seen_andThen (r : Run α) (k : α → Cursor → Run β) :
    (r.andThen k).seen V = (r.seen V).andThen fun v rest => (k v rest).seen V := by
  obtain ⟨log, o⟩ := r
  cases o with
  | success v rest => exact seen_after V log (k v rest)
  | failure f => rfl
  | fault e => rfl

/-- A choice is seen as the choice between what is seen of its alternatives. -/
theorem seen_orElse (r : Run α) (k : Unit → Run α) :
    (r.orElse k).seen V = (r.seen V).orElse fun _ => (k ()).seen V := by
  obtain ⟨log, o⟩ := r
  cases o with
  | success v rest => rfl
  | failure f => exact seen_after V log (k ())
  | fault e => rfl

/-- **A repetition is seen to repeat what is seen of its step.** Whether a round has moved on is
told by positions, and these are seen. -/
theorem seen_iterate (label : Text) (step : Cursor → Run α) (budget : List Char) (c : Cursor) :
    (iterate label step budget c).seen V =
      iterate (V.label label) (fun d => (step d).seen V) budget c := by
  -- on the budget: both repetitions make the same rounds
  induction budget generalizing c with
  | nil =>
    unfold iterate
    obtain ⟨log, o⟩ := step c
    cases o with
    | success v rest =>
      dsimp only [seen, Outcome.seen]
      split <;> rfl
    | failure f => rfl
    | fault e => rfl
  | cons x budget ih =>
    unfold iterate
    obtain ⟨log, o⟩ := step c
    cases o with
    | success v rest =>
      have hrest := ih rest
      dsimp only [seen, Outcome.seen] at hrest ⊢
      split
      · rfl
      · change (((iterate label step budget rest).mapOutcome (Outcome.map (v :: ·))).after log).seen
          V = _
        rw [seen_after, seen_map]
        exact congrArg (fun r => (r.mapOutcome (Outcome.map (v :: ·))).after (V.entries log)) hrest
    | failure f => rfl
    | fault e => rfl

/-- What closes a call in a view is what closes it with the label that is seen. -/
theorem entries_closing (h : V.log = true) (label : Text) (pos : Position) (o : Outcome α) :
    V.entries (closing label pos o) = closing (V.label label) pos (o.seen V) := by
  unfold View.entries
  rw [if_pos h]
  cases o <;> rfl

/-- Where the log is seen, a traced run is seen between entries under the label that is seen. -/
theorem seen_traced (h : V.log = true) (label : Text) (pos : Position) (r : Run α) :
    (r.traced label pos).seen V = (r.seen V).traced (V.label label) pos := by
  have hopening : V.entries [.began label pos] = [.began (V.label label) pos] := by
    unfold View.entries
    rw [if_pos h]
    rfl
  have hlog : V.entries (.began label pos :: r.log ++ closing label pos r.outcome) =
      .began (V.label label) pos :: V.entries r.log ++
        closing (V.label label) pos (r.outcome.seen V) := by
    rw [V.entries_append, ← List.singleton_append, V.entries_append, hopening,
      entries_closing V h]
    rfl
  unfold traced seen
  rw [hlog]

/-- Where the log is not seen, nothing is seen of tracing. -/
theorem seen_traced_of_unseen (h : V.log = false) (label : Text) (pos : Position) (r : Run α) :
    (r.traced label pos).seen V = r.seen V := by
  unfold traced seen View.entries
  rw [h]
  rfl

end Run

/-! ## Tests of a character -/

namespace Parser

theorem seen_takeChar (V : View) (accepts : Char → Bool) (label : Text) (c : Cursor) :
    (takeChar accepts label c).seen V = takeChar accepts (V.label label) c := by
  unfold takeChar
  split
  · rfl
  · split <;> rfl

theorem seen_lookAhead (V : View) (refuses : Char → Bool) (label : Text) (c : Cursor) :
    (lookAhead refuses label c).seen V = lookAhead refuses (V.label label) c := by
  unfold lookAhead
  split
  · rfl
  · split <;> rfl

end Parser

/-! ## Rules -/

namespace Rules

variable {ρ : Type} {τ : ρ → Type}

/-- The rules with each parser changed. -/
def change (f : ∀ r, Parser ρ τ (τ r) → Parser ρ τ (τ r)) (R : Rules ρ τ) : Rules ρ τ :=
  ⟨fun r => (R.find r).map (f r), R.count⟩

/-- **Rules are seen to do what they did**, to any depth of calls, if a changed parser is seen to do
what it did whenever its calls are. -/
theorem seen_call_change {V : View} {f : ∀ r, Parser ρ τ (τ r) → Parser ρ τ (τ r)}
    (level level' : Level)
    (hf : ∀ call call' : Call ρ τ,
      (∀ label r c, (call' label r c).seen V = (call label r c).seen V) →
      ∀ r p c, ((f r p).run level' call' c).seen V = (p.run level call c).seen V)
    (R : Rules ρ τ) (depth : Nat) (label : Text) (r : ρ) (c : Cursor) :
    ((R.change f).call level' depth label r c).seen V = (R.call level depth label r c).seen V := by
  induction depth generalizing label r c with
  | zero => rfl
  | succ depth ih =>
    have hfind : (R.change f).find r = (R.find r).map (f r) := rfl
    unfold call
    rw [hfind]
    cases R.find r with
    | none => rfl
    | some p => exact hf _ _ ih r p c

end Rules

end Descent
