import Descent.Proofs.Parser.Composition
import Descent.Proofs.Parser.Onward

/-!
# Repetition

A repetition runs a parser again and again, each time from where the run before
has left off. The runs that succeed and move on form a **chain**. There is one
way to follow it, and it has no more links than there are characters ahead, so
it comes to an end: at a place where the parser fails, succeeds on nothing, or is
at fault. The repetition makes exactly these runs, and the last of them decides
how it ends itself.

* `Run.Chain`, `Run.Halts`: the runs that move on, and the place where none does.
* `Run.exists_chain`, `Run.Chain.unique`: each chain has an end, and only one.
* `Run.iterate_of_chain`: what a repetition makes of its chain.
* `many_exact`: repetition, and repetition at least once.
-/

namespace Descent

namespace Run

variable {α : Type} {step : Cursor → Run α} {c d d' : Cursor} {vs vs' : List α}
  {log log' : List Entry}

/-- **A step moves forward from `c` on** if, at every cursor that reading on from `c` comes to, the
rest of a success is reached by reading on. -/
def OnwardFrom (step : Cursor → Run α) (c : Cursor) : Prop :=
  ∀ d, c.Reaches d → (step d).outcome.Onward d

/-- A step that goes onward from a cursor does so from everything reached from it. -/
theorem OnwardFrom.of_reaches (h : OnwardFrom step c) (hd : c.Reaches d) : OnwardFrom step d := by
  intro e he
  exact h e (hd.trans he)

theorem OnwardFrom.reaches (h : OnwardFrom step c) {v : α}
    (hv : (step c).outcome = .success v d) : c.Reaches d :=
  h c (.here c) v d hv

/-- **A chain of runs**: from `c`, a step succeeds with the values `vs`, one after the other, each
time further on, up to `d`. Together the runs log `log`. -/
inductive Chain (step : Cursor → Run α) : Cursor → List α → List Entry → Cursor → Prop where
  | here (c : Cursor) : Chain step c [] [] c
  | cons {c d e : Cursor} {v : α} {vs : List α} {log : List Entry} :
      (step c).outcome = .success v d → c.Reaches d → d ≠ c → Chain step d vs log e →
      Chain step c (v :: vs) ((step c).log ++ log) e

/-- **A step halts** at a cursor if it does not move on from there. It may still succeed, on
nothing. -/
def Halts (step : Cursor → Run α) (d : Cursor) : Prop :=
  ∀ v e, (step d).outcome = .success v e → e = d

/-- A step that succeeds on nothing halts. -/
theorem halts_of_stuck {v : α} (h : (step d).outcome = .success v d) : Halts step d := by
  intro w e hw
  obtain ⟨-, rfl⟩ := Outcome.success.inj (h.symm.trans hw)
  rfl

/-- A step that does not succeed halts. -/
theorem halts_of_ne_success (h : ∀ v e, (step d).outcome ≠ .success v e) : Halts step d := by
  intro v e hv
  exact absurd hv (h v e)

namespace Chain

/-- A chain of rounds leads onward. -/
theorem reaches (h : Chain step c vs log d) : c.Reaches d := by
  induction h with
  | here c => exact .here c
  | cons _ hd _ _ ih => exact hd.trans ih

/-- Each link of a chain takes a character at least. -/
theorem length_add_le (h : Chain step c vs log d) :
    vs.length + d.ahead.length ≤ c.ahead.length := by
  induction h with
  | here c => simp
  | cons _ hd hne _ ih =>
    have hlt := hd.length_lt hne
    rw [List.length_cons]
    omega

/-- **A chain has one end only.** -/
theorem unique (h : Chain step c vs log d) (hd : Halts step d) (h' : Chain step c vs' log' d')
    (hd' : Halts step d') : vs' = vs ∧ log' = log ∧ d' = d := by
  induction h generalizing vs' log' with
  | here c =>
    cases h' with
    | here => exact ⟨rfl, rfl, rfl⟩
    | cons hs _ hne _ => exact absurd (hd _ _ hs) hne
  | @cons c d₁ e v vs log hs _ hne _ ih =>
    cases h' with
    | here => exact absurd (hd' _ _ hs) hne
    | @cons _ d₂ _ v' vs' log' hs' _ _ h' =>
      obtain ⟨rfl, rfl⟩ := Outcome.success.inj (hs'.symm.trans hs)
      obtain ⟨rfl, rfl, he⟩ := ih hd h'
      exact ⟨rfl, rfl, he⟩

end Chain

/-- **Every chain comes to an end**, as less and less is ahead. -/
theorem exists_chain (hs : OnwardFrom step c) :
    ∃ vs log d, Chain step c vs log d ∧ Halts step d := by
  induction hn : c.ahead.length using Nat.strongRecOn generalizing c with
  | ind n ih =>
    subst hn
    by_cases hc : Halts step c
    · exact ⟨[], [], c, .here c, hc⟩
    · -- a step that does not halt succeeds further on
      have hmoves : ∃ v d, (step c).outcome = .success v d ∧ d ≠ c := by
        simpa [Halts] using hc
      obtain ⟨v, d, hv, hne⟩ := hmoves
      have hd : c.Reaches d := hs.reaches hv
      obtain ⟨vs, log, e, hchain, he⟩ := ih _ (hd.length_lt hne) (hs.of_reaches hd) rfl
      exact ⟨v :: vs, (step c).log ++ log, e, .cons hv hd hne hchain, he⟩

/-! ## What a repetition makes of its chain -/

/-- The outcome of a repetition whose chain has the values `vs` and ends at `d`, by the outcome of
the step there. -/
def chainOutcome (label : Text) (vs : List α) (d : Cursor) : Outcome α → Outcome (List α)
  | .failure _ => .success vs d
  | .success _ _ => .fault (.noProgress label d.pos)
  | .fault e => .fault e

theorem map_cons_chainOutcome (label : Text) (v : α) (vs : List α) (d : Cursor) (o : Outcome α) :
    (chainOutcome label vs d o).map (v :: ·) = chainOutcome label (v :: vs) d o := by
  cases o <;> rfl

/-- A repetition ends at a round that fails, has a fault, or does not move. -/
theorem iterate_of_halts (label : Text) (hc : Halts step c) (budget : List Char) :
    iterate label step budget c =
      ⟨(step c).log, chainOutcome label [] c (step c).outcome⟩ := by
  unfold iterate
  dsimp only
  cases hs : (step c).outcome with
  | success v d =>
    obtain rfl := hc v d hs
    dsimp only
    rw [if_pos rfl]
    rfl
  | failure f => rfl
  | fault e => rfl

/-- A round that moves on is followed by the repetition from there. -/
theorem iterate_of_success (label : Text) {v : α} (hs : (step c).outcome = .success v d)
    (hp : d.pos ≠ c.pos) (x : Char) (budget : List Char) :
    iterate label step (x :: budget) c =
      ((iterate label step budget d).mapOutcome (Outcome.map (v :: ·))).after (step c).log := by
  rw [iterate]
  dsimp only
  rw [hs]
  dsimp only
  rw [if_neg hp]

/-- **A repetition goes to the end of its chain.** It makes the runs of the chain and one more,
which decides how it ends. -/
theorem iterate_of_chain (label : Text) (h : Chain step c vs log d) (hd : Halts step d)
    {budget : List Char} (hb : c.ahead.length ≤ budget.length) :
    iterate label step budget c =
      ⟨log ++ (step d).log, chainOutcome label vs d (step d).outcome⟩ := by
  induction h generalizing budget with
  | here c => exact iterate_of_halts label hd budget
  | @cons c d e v vs log hs hreach hne _ ih =>
    have hlt := hreach.length_lt hne
    -- the link takes a character, so what is left of the budget covers what is ahead of it
    obtain ⟨x, b, rfl⟩ := List.exists_cons_of_length_pos (by omega : 0 < budget.length)
    rw [List.length_cons] at hb
    rw [iterate_of_success label hs (hreach.pos_ne hne), ih hd (by omega)]
    simp only [mapOutcome, after, map_cons_chainOutcome, List.append_assoc]

end Run

namespace Parser

variable {ρ : Type} {τ : ρ → Type} {α : Type} {level : Level} {call : Call ρ τ}
  {p : Parser ρ τ α} {c d : Cursor} {vs : List α} {log : List Entry}

/-- Parsers that advance by reading move forward from every coherent cursor on. -/
theorem onwardFrom_run (hp : p.Advances) (hcall : call.Onward) (hc : c.Coherent) :
    Run.OnwardFrom (p.run level call) c := by
  intro d hd
  exact onward_run hp hcall level (hd.coherent hc)

/-- A repetition is its chain of rounds, and the round that ends it. -/
theorem run_many_of_chain (h : Run.Chain (p.run level call) c vs log d)
    (hd : Run.Halts (p.run level call) d) :
    p.many.run level call c =
      ⟨log ++ (p.run level call d).log,
        Run.chainOutcome p.label vs d (p.run level call d).outcome⟩ :=
  Run.iterate_of_chain p.label h hd (Nat.le_refl _)

/-- **A repetition succeeds** exactly if its chain leads to a failure. -/
theorem outcome_many_eq_success (p : Parser ρ τ α)
    (hp : Run.OnwardFrom (p.run level call) c) :
    (p.many.run level call c).outcome = .success vs d ↔
      (∃ log, Run.Chain (p.run level call) c vs log d) ∧
        ∃ f, (p.run level call d).outcome = .failure f := by
  constructor
  · intro h
    -- there is one chain that ends, and the outcome tells that its last round was a failure
    obtain ⟨vs', log, d', hchain, hd⟩ := Run.exists_chain hp
    rw [run_many_of_chain hchain hd] at h
    cases ho : (p.run level call d').outcome with
    | failure f =>
      rw [ho] at h
      obtain ⟨rfl, rfl⟩ := Outcome.success.inj h
      exact ⟨⟨log, hchain⟩, f, ho⟩
    | success v e => rw [ho] at h; cases h
    | fault e => rw [ho] at h; cases h
  · rintro ⟨⟨log, hchain⟩, f, hf⟩
    have hd : Run.Halts (p.run level call) d := Run.halts_of_ne_success (by simp [hf])
    rw [run_many_of_chain hchain hd, hf]
    rfl

/-- **A repetition is at fault** exactly if its chain leads to a fault, or to a success that does
not move on. -/
theorem outcome_many_eq_fault (p : Parser ρ τ α)
    (hp : Run.OnwardFrom (p.run level call) c) {e : Fault} :
    (p.many.run level call c).outcome = .fault e ↔
      ∃ vs log d, Run.Chain (p.run level call) c vs log d ∧
        ((p.run level call d).outcome = .fault e ∨
          (∃ v, (p.run level call d).outcome = .success v d) ∧
            e = .noProgress p.label d.pos) := by
  constructor
  · intro h
    obtain ⟨vs, log, d, hchain, hd⟩ := Run.exists_chain hp
    refine ⟨vs, log, d, hchain, ?_⟩
    rw [run_many_of_chain hchain hd] at h
    cases ho : (p.run level call d).outcome with
    | failure f => rw [ho] at h; cases h
    | success v d' =>
      obtain rfl := hd v d' ho
      rw [ho] at h
      exact .inr ⟨⟨v, rfl⟩, (Outcome.fault.inj h).symm⟩
    | fault e' =>
      rw [ho] at h
      exact .inl (congrArg Outcome.fault (Outcome.fault.inj h))
  · rintro ⟨vs, log, d, hchain, hf | ⟨⟨v, hv⟩, rfl⟩⟩
    · have hd : Run.Halts (p.run level call) d := Run.halts_of_ne_success (by simp [hf])
      rw [run_many_of_chain hchain hd, hf]
      rfl
    · rw [run_many_of_chain hchain (Run.halts_of_stuck hv), hv]
      rfl

/-- A repetition does not fail: a failure is where it stops. -/
theorem outcome_many_ne_failure (p : Parser ρ τ α)
    (hp : Run.OnwardFrom (p.run level call) c) (f : Failure) :
    (p.many.run level call c).outcome ≠ .failure f := by
  obtain ⟨vs, log, d, hchain, hd⟩ := Run.exists_chain hp
  rw [run_many_of_chain hchain hd]
  cases (p.run level call d).outcome <;> exact nofun

/-- Where the parser succeeds on nothing, the first round of the repetition meets it again. -/
theorem outcome_many_of_stuck {v : α} (h : (p.run level call c).outcome = .success v c) :
    (p.many.run level call c).outcome = .fault (.noProgress p.label c.pos) := by
  rw [run_many_of_chain (.here c) (Run.halts_of_stuck h), h]
  rfl

/-- After the first round, at least one is as many as there are. -/
theorem outcome_many1_success {v : α} (h : (p.run level call c).outcome = .success v d) :
    (p.many1.run level call c).outcome = (p.many.run level call d).outcome.map (v :: ·) := by
  rw [run_many1]
  exact Run.outcome_andThen_success h

/-- A repetition at least once fails as its first run does, and in no other case. -/
theorem outcome_many1_eq_failure (p : Parser ρ τ α)
    (hp : Run.OnwardFrom (p.run level call) c) (f : Failure) :
    (p.many1.run level call c).outcome = .failure f ↔
      (p.run level call c).outcome = .failure f := by
  rw [run_many1, Run.outcome_andThen_eq_failure]
  constructor
  · rintro (h | ⟨v, d, hv, hmany⟩)
    · exact h
    · -- the repetition after the first run does not fail
      have hmore := hp.of_reaches (hp.reaches hv)
      exact absurd (Outcome.map_eq_failure.1 hmany) (outcome_many_ne_failure p hmore f)
  · intro h
    exact .inl h

/-- **A repetition and its chain.** From `c`, the runs of a parser that succeed further on have the
values `vs` and lead to `d`, where no run moves on. No other chain ends, and this one takes a
character with each link. The repetition makes its runs and the one at `d`, and nothing else, so at
most one run more than there are characters ahead; it succeeds if the parser fails at `d`, and is
at fault if the parser succeeds there or is at fault itself. -/
structure Repeats (level : Level) (call : Call ρ τ) (p : Parser ρ τ α) (c : Cursor) (vs : List α)
    (log : List Entry) (d : Cursor) : Prop where
  chain : Run.Chain (p.run level call) c vs log d
  halts : Run.Halts (p.run level call) d
  unique : ∀ vs' log' d', Run.Chain (p.run level call) c vs' log' d' →
    Run.Halts (p.run level call) d' → vs' = vs ∧ log' = log ∧ d' = d
  length_add_le : vs.length + d.ahead.length ≤ c.ahead.length
  log_eq : (p.many.run level call c).log = log ++ (p.run level call d).log
  ends : (∃ f, (p.run level call d).outcome = .failure f ∧
      (p.many.run level call c).outcome = .success vs d) ∨
    (∃ v, (p.run level call d).outcome = .success v d ∧
      (p.many.run level call c).outcome = .fault (.noProgress p.label d.pos)) ∨
    ∃ e, (p.run level call d).outcome = .fault e ∧ (p.many.run level call c).outcome = .fault e

/-- A chain with a round that ends it is the repetition. -/
theorem repeats_of_chain (h : Run.Chain (p.run level call) c vs log d)
    (hd : Run.Halts (p.run level call) d) : Repeats level call p c vs log d := by
  have hrun := run_many_of_chain h hd
  refine ⟨h, hd, ?_, h.length_add_le, by rw [hrun], ?_⟩
  · intro vs' log' d' h' hd'
    exact h.unique hd h' hd'
  · rw [hrun]
    cases ho : (p.run level call d).outcome with
    | failure f => exact .inl ⟨f, rfl, rfl⟩
    | success v e =>
      obtain rfl := hd v e ho
      exact .inr (.inl ⟨v, rfl, rfl⟩)
    | fault e => exact .inr (.inr ⟨e, rfl, rfl⟩)

/-- **A repetition is the maximal chain**, for every parser whose successes only move forward. It
never fails. A repetition at least once is a run and a repetition after it: it fails as that run
does and in no other case, and it is at fault if that run succeeds on nothing, though nobody looks
at it. -/
theorem many_exact (level : Level) (call : Call ρ τ) (p : Parser ρ τ α) (c : Cursor)
    (hp : Run.OnwardFrom (p.run level call) c) :
    (∃ vs log d, Repeats level call p c vs log d) ∧
      (∀ f, (p.many.run level call c).outcome ≠ .failure f) ∧
      (∀ v d, (p.run level call c).outcome = .success v d →
        (p.many1.run level call c).outcome = (p.many.run level call d).outcome.map (v :: ·)) ∧
      (∀ f, (p.many1.run level call c).outcome = .failure f ↔
        (p.run level call c).outcome = .failure f) ∧
      (∀ e, (p.run level call c).outcome = .fault e →
        (p.many1.run level call c).outcome = .fault e) ∧
      ∀ v, (p.run level call c).outcome = .success v c →
        (p.many1.run level call c).outcome = .fault (.noProgress p.label c.pos) := by
  refine ⟨?_, outcome_many_ne_failure p hp, ?_, outcome_many1_eq_failure p hp, ?_, ?_⟩
  · obtain ⟨vs, log, d, hchain, hd⟩ := Run.exists_chain hp
    exact ⟨vs, log, d, repeats_of_chain hchain hd⟩
  · intro v d h
    exact outcome_many1_success h
  · intro e h
    rw [run_many1]
    exact Run.outcome_andThen_fault h
  · intro v h
    rw [outcome_many1_success h, outcome_many_of_stuck h]
    rfl

theorem onward_parentheses (depth : Nat) : (parentheses.call .info depth).Onward :=
  Rules.onward_call (fun r p h => (standard_parentheses r p h).advances) .info depth

/-- Groups of parentheses that may be missing: after two of them, one is missing, and again. -/
theorem many_exact_missing_group :
    ((optional group).many.run .info (parentheses.call .info 9)
        (.ofText (utf8 "()(())x"))).outcome =
      .fault (.noProgress (utf8 "optional group") ⟨0, 6⟩) ∧
    ∃ vs log d, Repeats .info (parentheses.call .info 9) (optional group)
      (.ofText (utf8 "()(())x")) vs log d := by
  have hgroup : (optional group).Advances := (Standard.optional (p := group) trivial).advances
  have honward : Run.OnwardFrom ((optional group).run .info (parentheses.call .info 9)) _ :=
    onwardFrom_run hgroup (onward_parentheses 9) (Cursor.coherent_ofText (utf8 "()(())x"))
  exact ⟨by decide +kernel, (many_exact .info (parentheses.call .info 9) _ _ honward).1⟩

end Parser

end Descent
