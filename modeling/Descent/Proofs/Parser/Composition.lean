import Descent.Parser.Combinator

/-!
# Runs of composed parsers

How the run of a composed parser comes about from the runs of its parts, log and
outcome alike: an outcome of one run after another is the outcome of the first or
of the second, and each derived parser has an equation between runs. Proofs about
the cursors of a run go by these, and open no combinator.
-/

namespace Descent

namespace Outcome

variable {α β : Type} {g : α → β} {o : Outcome α}

theorem map_eq_success {w : β} {d : Cursor} :
    o.map g = .success w d ↔ ∃ v, o = .success v d ∧ g v = w := by
  cases o with
  | success v rest =>
    simp only [map_success, success.injEq]
    constructor
    · rintro ⟨rfl, rfl⟩
      exact ⟨v, ⟨rfl, rfl⟩, rfl⟩
    · rintro ⟨_, ⟨rfl, rfl⟩, rfl⟩
      exact ⟨rfl, rfl⟩
  | failure f => simp
  | fault e => simp

theorem map_eq_failure {f : Failure} : o.map g = .failure f ↔ o = .failure f := by
  cases o <;> simp

theorem map_eq_fault {e : Fault} : o.map g = .fault e ↔ o = .fault e := by
  cases o <;> simp

theorem relabel_eq_fault {label : Text} {e : Fault} :
    o.relabel label = .fault e ↔ o = .fault e := by
  cases o <;> simp [relabel]

end Outcome

namespace Run

variable {α β γ : Type}

/-- To change the value in the end is to change that of the second run. -/
theorem mapOutcome_andThen (r : Run α) (k : α → Cursor → Run β) (f : β → γ) :
    (r.andThen k).mapOutcome (Outcome.map f) =
      r.andThen fun v d => (k v d).mapOutcome (Outcome.map f) := by
  unfold andThen
  cases r.outcome <;> rfl

/-- To go on without parsing is to change the value. -/
theorem andThen_quiet (r : Run α) (f : α → β) :
    (r.andThen fun v d => .quiet (.success (f v) d)) = r.mapOutcome (Outcome.map f) := by
  obtain ⟨log, o⟩ := r
  cases o with
  | success v d => simp [andThen, mapOutcome, quiet, after]
  | failure g => rfl
  | fault e => rfl

theorem mapOutcome_mapOutcome (r : Run α) (f : α → β) (g : β → γ) :
    (r.mapOutcome (Outcome.map f)).mapOutcome (Outcome.map g) =
      r.mapOutcome (Outcome.map fun v => g (f v)) := by
  obtain ⟨log, o⟩ := r
  cases o <;> rfl

theorem mapOutcome_id (r : Run α) : r.mapOutcome (Outcome.map fun v => v) = r := by
  obtain ⟨log, o⟩ := r
  cases o <;> rfl

/-- A log in front of a run stays in front of a choice that begins with it. -/
theorem after_orElse (log : List Entry) (r : Run α) (k : Unit → Run α) :
    (r.after log).orElse k = (r.orElse k).after log := by
  obtain ⟨l, o⟩ := r
  cases o with
  | success v d => rfl
  | failure f => simp only [orElse, after, List.append_assoc]
  | fault e => rfl

/-- A log in front of a run stays in front of what follows. -/
theorem after_andThen (log : List Entry) (r : Run α) (k : α → Cursor → Run β) :
    (r.after log).andThen k = (r.andThen k).after log := by
  obtain ⟨l, o⟩ := r
  cases o with
  | success v d => simp only [andThen, after, List.append_assoc]
  | failure f => rfl
  | fault e => rfl

/-- Attempts may be grouped in any way. -/
theorem orElse_assoc (r : Run α) (k k' : Unit → Run α) :
    (r.orElse k).orElse k' = r.orElse fun _ => (k ()).orElse k' := by
  obtain ⟨l, o⟩ := r
  cases o with
  | success v d => rfl
  | failure f => exact after_orElse l (k ()) k'
  | fault e => rfl

/-- Runs that follow one another may be grouped in any way. -/
theorem andThen_assoc (r : Run α) (k : α → Cursor → Run β) (k' : β → Cursor → Run γ) :
    (r.andThen k).andThen k' = r.andThen fun v d => (k v d).andThen k' := by
  obtain ⟨l, o⟩ := r
  cases o with
  | success v d => exact after_andThen l (k v d) k'
  | failure f => rfl
  | fault e => rfl

/-- What follows may be given the value before it is changed. -/
theorem andThen_mapOutcome (r : Run α) (f : α → β) (k : β → Cursor → Run γ) :
    (r.mapOutcome (Outcome.map f)).andThen k = r.andThen fun v d => k (f v) d := by
  obtain ⟨l, o⟩ := r
  cases o <;> rfl

section OrElse

variable {r : Run α} {k : Unit → Run α}

/-- After a failure the outcome is the other one. -/
theorem outcome_orElse_failure {f : Failure} (h : r.outcome = .failure f) :
    (r.orElse k).outcome = (k ()).outcome := by
  unfold orElse
  rw [h]
  rfl

/-- What is no failure is the outcome. -/
theorem outcome_orElse_of_ne_failure (h : ∀ f, r.outcome ≠ .failure f) :
    (r.orElse k).outcome = r.outcome := by
  unfold orElse
  cases ho : r.outcome with
  | success v d => exact ho
  | failure f => exact absurd ho (h f)
  | fault e => exact ho

/-- A fault is that of the first run, or that of the second one after a failure. -/
theorem outcome_orElse_eq_fault {e : Fault} :
    (r.orElse k).outcome = .fault e ↔
      r.outcome = .fault e ∨ ∃ f, r.outcome = .failure f ∧ (k ()).outcome = .fault e := by
  cases ho : r.outcome with
  | success v d =>
    have hne : ∀ f, r.outcome ≠ .failure f := by simp [ho]
    rw [outcome_orElse_of_ne_failure hne, ho]
    simp
  | failure f =>
    rw [outcome_orElse_failure ho]
    simp
  | fault e' =>
    have hne : ∀ f, r.outcome ≠ .failure f := by simp [ho]
    rw [outcome_orElse_of_ne_failure hne, ho]
    simp

end OrElse

section AndThen

variable {r : Run α} {k : α → Cursor → Run β} {d : Cursor} {w : β} {f : Failure} {e : Fault}

/-- After a success the outcome is the second one. -/
theorem outcome_andThen_success {v : α} (h : r.outcome = .success v d) :
    (r.andThen k).outcome = (k v d).outcome := by
  unfold andThen
  rw [h]
  rfl

theorem outcome_andThen_failure (h : r.outcome = .failure f) :
    (r.andThen k).outcome = .failure f := by
  unfold andThen
  rw [h]

theorem outcome_andThen_fault (h : r.outcome = .fault e) :
    (r.andThen k).outcome = .fault e := by
  unfold andThen
  rw [h]

/-- Both runs have succeeded if both in sequence have. -/
theorem outcome_andThen_eq_success :
    (r.andThen k).outcome = .success w d ↔
      ∃ v m, r.outcome = .success v m ∧ (k v m).outcome = .success w d := by
  constructor
  · intro h
    cases ho : r.outcome with
    | success v m =>
      rw [outcome_andThen_success ho] at h
      exact ⟨v, m, rfl, h⟩
    | failure g => rw [outcome_andThen_failure ho] at h; cases h
    | fault g => rw [outcome_andThen_fault ho] at h; cases h
  · rintro ⟨v, m, hv, hk⟩
    rwa [outcome_andThen_success hv]

/-- A failure in sequence is that of the first run, or of the second one after a success. -/
theorem outcome_andThen_eq_failure :
    (r.andThen k).outcome = .failure f ↔
      r.outcome = .failure f ∨
        ∃ v m, r.outcome = .success v m ∧ (k v m).outcome = .failure f := by
  constructor
  · intro h
    cases ho : r.outcome with
    | success v m =>
      rw [outcome_andThen_success ho] at h
      exact .inr ⟨v, m, rfl, h⟩
    | failure g =>
      rw [outcome_andThen_failure ho] at h
      exact .inl (congrArg Outcome.failure (Outcome.failure.inj h))
    | fault g => rw [outcome_andThen_fault ho] at h; cases h
  · rintro (h | ⟨v, m, hv, hk⟩)
    · exact outcome_andThen_failure h
    · rwa [outcome_andThen_success hv]

/-- A fault in sequence is that of the first run, or of the second one after a success. -/
theorem outcome_andThen_eq_fault :
    (r.andThen k).outcome = .fault e ↔
      r.outcome = .fault e ∨ ∃ v m, r.outcome = .success v m ∧ (k v m).outcome = .fault e := by
  constructor
  · intro h
    cases ho : r.outcome with
    | success v m =>
      rw [outcome_andThen_success ho] at h
      exact .inr ⟨v, m, rfl, h⟩
    | failure g => rw [outcome_andThen_failure ho] at h; cases h
    | fault g =>
      rw [outcome_andThen_fault ho] at h
      exact .inl (congrArg Outcome.fault (Outcome.fault.inj h))
  · rintro (h | ⟨v, m, hv, hk⟩)
    · exact outcome_andThen_fault h
    · rwa [outcome_andThen_success hv]

end AndThen

end Run

namespace Parser

variable {ρ : Type} {τ : ρ → Type} {α β : Type} {level : Level} {call : Call ρ τ}

/-- Two parsers in sequence run one after the other, and both values are kept. -/
theorem run_andThen (p : Parser ρ τ α) (q : Parser ρ τ β) (c : Cursor) :
    (p.andThen q).run level call c =
      (p.run level call c).andThen fun a d =>
        (q.run level call d).mapOutcome (Outcome.map fun b => (a, b)) := by
  change ((p.run level call c).andThen fun a d =>
    (q.run level call d).andThen fun b e => .quiet (.success (a, b) e)) = _
  simp only [Run.andThen_quiet]

theorem run_right (p : Parser ρ τ α) (q : Parser ρ τ β) (c : Cursor) :
    (p.right q).run level call c =
      (p.run level call c).andThen fun _ d => q.run level call d := by
  change ((p.andThen q).run level call c).mapOutcome _ = _
  rw [run_andThen, Run.mapOutcome_andThen]
  simp only [Run.mapOutcome_mapOutcome, Run.mapOutcome_id]

/-- Separated items are an item, then separators, each with an item behind it. -/
theorem run_sepBy1 (p : Parser ρ τ α) (sep : Parser ρ τ β) (c : Cursor) :
    (p.sepBy1 sep).run level call c =
      (p.run level call c).andThen fun v d =>
        ((sep.right p).many.run level call d).mapOutcome (Outcome.map (v :: ·)) := by
  change ((p.andThen (sep.right p).many).run level call c).mapOutcome _ = _
  rw [run_andThen, Run.mapOutcome_andThen]
  simp only [Run.mapOutcome_mapOutcome]

theorem run_sepBy (p : Parser ρ τ α) (sep : Parser ρ τ β) (c : Cursor) :
    (p.sepBy sep).run level call c =
      ((p.sepBy1 sep).run level call c).orElse fun _ => .quiet (.success [] c) := rfl

/-- A sequence is its first member, then the others. -/
theorem run_sequence_cons (p : Parser ρ τ α) (ps : List (Parser ρ τ α)) (c : Cursor) :
    (sequence (p :: ps)).run level call c =
      (p.run level call c).andThen fun v d =>
        ((sequence ps).run level call d).mapOutcome (Outcome.map (v :: ·)) := rfl

theorem run_many1 (p : Parser ρ τ α) (c : Cursor) :
    p.many1.run level call c =
      (p.run level call c).andThen fun v d =>
        (p.many.run level call d).mapOutcome (Outcome.map (v :: ·)) := rfl

end Parser

end Descent
