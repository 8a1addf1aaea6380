import Descent.Proofs.Parser.Repetition

/-!
# Lists with separators

A list is an item and then **rounds** of a separator and an item. A round that
fails is given back as a whole, the separator with it, so a list ends behind its
last item, before a separator that nothing follows. It fails with its first item
only: later on there is always something to keep.

* `TakesRound`, `LacksRound`, `BreaksRound`: how one round ends.
* `Listed`: the items behind separators, each further on than the one before.
* `sepBy_exact`: what a list comes to, with at least one item or with none.
-/

namespace Descent.Parser

variable {ρ : Type} {τ : ρ → Type} {α β : Type} {level : Level} {call : Call ρ τ}
  {p : Parser ρ τ α} {sep : Parser ρ τ β} {c d : Cursor} {v : α} {vs : List α}

/-! ## Rounds -/

/-- **A round takes `v`**: a separator at `c`, and after it an item that ends at `d`. -/
def TakesRound (level : Level) (call : Call ρ τ) (p : Parser ρ τ α) (sep : Parser ρ τ β)
    (c : Cursor) (v : α) (d : Cursor) : Prop :=
  ∃ x m, (sep.run level call c).outcome = .success x m ∧
    (p.run level call m).outcome = .success v d

/-- **There is no round**: the separator fails at `c`, or an item fails after it. -/
def LacksRound (level : Level) (call : Call ρ τ) (p : Parser ρ τ α) (sep : Parser ρ τ β)
    (c : Cursor) : Prop :=
  (∃ f, (sep.run level call c).outcome = .failure f) ∨
    ∃ x m f, (sep.run level call c).outcome = .success x m ∧
      (p.run level call m).outcome = .failure f

/-- **A round is at fault** in its separator or in its item. -/
def BreaksRound (level : Level) (call : Call ρ τ) (p : Parser ρ τ α) (sep : Parser ρ τ β)
    (c : Cursor) (e : Fault) : Prop :=
  (sep.run level call c).outcome = .fault e ∨
    ∃ x m, (sep.run level call c).outcome = .success x m ∧
      (p.run level call m).outcome = .fault e

theorem takesRound_iff :
    TakesRound level call p sep c v d ↔
      ((sep.right p).run level call c).outcome = .success v d := by
  rw [run_right]
  exact Run.outcome_andThen_eq_success.symm

theorem lacksRound_iff :
    LacksRound level call p sep c ↔
      ∃ f, ((sep.right p).run level call c).outcome = .failure f := by
  rw [run_right]
  simp only [Run.outcome_andThen_eq_failure]
  constructor
  · rintro (⟨f, hf⟩ | ⟨x, m, f, hx, hf⟩)
    · exact ⟨f, .inl hf⟩
    · exact ⟨f, .inr ⟨x, m, hx, hf⟩⟩
  · rintro ⟨f, hf | ⟨x, m, hx, hf⟩⟩
    · exact .inl ⟨f, hf⟩
    · exact .inr ⟨x, m, f, hx, hf⟩

theorem breaksRound_iff {e : Fault} :
    BreaksRound level call p sep c e ↔
      ((sep.right p).run level call c).outcome = .fault e := by
  rw [run_right]
  exact Run.outcome_andThen_eq_fault.symm

/-- A round moves forward if its separator and its item do. -/
theorem onwardFrom_right (hsep : Run.OnwardFrom (sep.run level call) c)
    (hp : Run.OnwardFrom (p.run level call) c) :
    Run.OnwardFrom ((sep.right p).run level call) c := by
  intro d hd
  rw [run_right]
  refine Run.onward_andThen (hsep d hd) ?_
  intro x m hm
  exact hp m (hd.trans hm)

/-- **Items behind separators**: from `c`, rounds take the values `vs`, one after the other, each
further on, up to `d`. -/
inductive Listed (level : Level) (call : Call ρ τ) (p : Parser ρ τ α) (sep : Parser ρ τ β) :
    Cursor → List α → Cursor → Prop where
  | here (c : Cursor) : Listed level call p sep c [] c
  | cons {c d e : Cursor} {v : α} {vs : List α} :
      TakesRound level call p sep c v d → c.Reaches d → d ≠ c →
      Listed level call p sep d vs e → Listed level call p sep c (v :: vs) e

/-- Rounds are the links of a chain. -/
theorem listed_iff :
    Listed level call p sep c vs d ↔
      ∃ log, Run.Chain ((sep.right p).run level call) c vs log d := by
  constructor
  · intro h
    induction h with
    | here c => exact ⟨[], .here c⟩
    | cons hround hd hne _ ih =>
      obtain ⟨log, hchain⟩ := ih
      exact ⟨_, .cons (takesRound_iff.1 hround) hd hne hchain⟩
  · rintro ⟨log, h⟩
    induction h with
    | here c => exact .here c
    | cons hs hd hne _ ih => exact .cons (takesRound_iff.2 hs) hd hne ih

/-! ## Lists -/

/-- **What a list comes to** after its first item `v`, which has ended at `c`. It succeeds with the
items of the rounds, where there is no further one, and before any further separator. It is at
fault if a round is that it comes to, or takes nothing at all. It does not fail. -/
structure Lists (level : Level) (call : Call ρ τ) (p : Parser ρ τ α) (sep : Parser ρ τ β) (v : α)
    (c : Cursor) (o : Outcome (List α)) : Prop where
  success_iff : ∀ vs d, o = .success vs d ↔
    ∃ ws, vs = v :: ws ∧ Listed level call p sep c ws d ∧ LacksRound level call p sep d
  fault_iff : ∀ e, o = .fault e ↔
    ∃ ws d, Listed level call p sep c ws d ∧
      (BreaksRound level call p sep d e ∨
        (∃ w, TakesRound level call p sep d w d) ∧
          e = .noProgress (sep.label ++ utf8 " andThen " ++ p.label) d.pos)
  ne_failure : ∀ f, o ≠ .failure f

/-- A first item and the rounds behind it are a list, ended as the rounds are. -/
theorem lists_many (v : α) (h : Run.OnwardFrom ((sep.right p).run level call) c) :
    Lists level call p sep v c
      (((sep.right p).many.run level call c).outcome.map (v :: ·)) where
  success_iff := by
    intro vs d
    -- the rounds behind the first item are a repetition
    have hmany (ws : List α) : ((sep.right p).many.run level call c).outcome = .success ws d ↔
        Listed level call p sep c ws d ∧ LacksRound level call p sep d := by
      rw [outcome_many_eq_success _ h, listed_iff, lacksRound_iff]
    constructor
    · intro ho
      obtain ⟨ws, hws, rfl⟩ := Outcome.map_eq_success.1 ho
      exact ⟨ws, rfl, (hmany ws).1 hws⟩
    · rintro ⟨ws, rfl, hws⟩
      rw [(hmany ws).2 hws]
      rfl
  fault_iff := by
    intro e
    have hlabel : (sep.right p).label = sep.label ++ utf8 " andThen " ++ p.label := rfl
    rw [Outcome.map_eq_fault, outcome_many_eq_fault _ h, hlabel]
    simp only [takesRound_iff, breaksRound_iff, listed_iff]
    constructor
    · rintro ⟨ws, log, d, hchain, hend⟩
      exact ⟨ws, d, ⟨log, hchain⟩, hend⟩
    · rintro ⟨ws, d, ⟨log, hchain⟩, hend⟩
      exact ⟨ws, log, d, hchain, hend⟩
  ne_failure := by
    intro f hf
    exact outcome_many_ne_failure _ h f (Outcome.map_eq_failure.1 hf)

/-- **Lists keep every item and give a separator back that nothing follows.** Where the first item
fails, a list with at least one item fails in the same way, and any other list is empty and takes
nothing. After a first item both are the same list. -/
theorem sepBy_exact (level : Level) (call : Call ρ τ) (p : Parser ρ τ α) (sep : Parser ρ τ β)
    (c : Cursor) (hp : Run.OnwardFrom (p.run level call) c)
    (hsep : Run.OnwardFrom (sep.run level call) c) :
    (∀ f, (p.run level call c).outcome = .failure f →
      ((p.sepBy1 sep).run level call c).outcome = .failure f ∧
        ((p.sepBy sep).run level call c).outcome = .success [] c) ∧
      (∀ e, (p.run level call c).outcome = .fault e →
        ((p.sepBy1 sep).run level call c).outcome = .fault e ∧
          ((p.sepBy sep).run level call c).outcome = .fault e) ∧
      ∀ v d, (p.run level call c).outcome = .success v d →
        Lists level call p sep v d ((p.sepBy1 sep).run level call c).outcome ∧
          ((p.sepBy sep).run level call c).outcome =
            ((p.sepBy1 sep).run level call c).outcome := by
  refine ⟨?_, ?_, ?_⟩
  · intro f hf
    have h1 : ((p.sepBy1 sep).run level call c).outcome = .failure f := by
      rw [run_sepBy1]
      exact Run.outcome_andThen_failure hf
    refine ⟨h1, ?_⟩
    rw [run_sepBy, Run.outcome_orElse_failure h1]
    rfl
  · intro e he
    have h1 : ((p.sepBy1 sep).run level call c).outcome = .fault e := by
      rw [run_sepBy1]
      exact Run.outcome_andThen_fault he
    refine ⟨h1, ?_⟩
    rw [run_sepBy, Run.outcome_orElse_of_ne_failure (by simp [h1]), h1]
  · intro v d hv
    have hd : c.Reaches d := hp.reaches hv
    have hround := onwardFrom_right (hsep.of_reaches hd) (hp.of_reaches hd)
    have h1 : ((p.sepBy1 sep).run level call c).outcome =
        ((sep.right p).many.run level call d).outcome.map (v :: ·) := by
      rw [run_sepBy1]
      exact Run.outcome_andThen_success hv
    have hlist := lists_many v hround
    rw [← h1] at hlist
    refine ⟨hlist, ?_⟩
    rw [run_sepBy, Run.outcome_orElse_of_ne_failure hlist.ne_failure]

/-- Two groups of parentheses and a comma that no group follows: the comma is left. -/
theorem sepBy_exact_dangling :
    ((group.sepBy (char ',')).run .info (parentheses.call .info 9)
        (.ofText (utf8 "(),(()),)"))).outcome =
      .success ['(', '('] ((Cursor.ofText (utf8 "(),(()),)")).skip 7) ∧
    ∃ ws, ['(', '('] = '(' :: ws ∧
      Listed .info (parentheses.call .info 9) group (char ',')
        ((Cursor.ofText (utf8 "(),(()),)")).skip 2) ws
        ((Cursor.ofText (utf8 "(),(()),)")).skip 7) ∧
      LacksRound .info (parentheses.call .info 9) group (char ',')
        ((Cursor.ofText (utf8 "(),(()),)")).skip 7) := by
  have hcall := onward_parentheses 9
  have hcoherent := Cursor.coherent_ofText (utf8 "(),(()),)")
  have hgroup : Run.OnwardFrom (group.run .info (parentheses.call .info 9)) _ :=
    onwardFrom_run trivial hcall hcoherent
  have hcomma : Run.OnwardFrom ((char ',').run .info (parentheses.call .info 9)) _ :=
    onwardFrom_run trivial hcall hcoherent
  have hfirst : (group.run .info (parentheses.call .info 9)
      (.ofText (utf8 "(),(()),)"))).outcome =
        .success '(' ((Cursor.ofText (utf8 "(),(()),)")).skip 2) := by
    decide +kernel
  have hall : ((group.sepBy (char ',')).run .info (parentheses.call .info 9)
      (.ofText (utf8 "(),(()),)"))).outcome =
        .success ['(', '('] ((Cursor.ofText (utf8 "(),(()),)")).skip 7) := by
    decide +kernel
  obtain ⟨-, -, hlist⟩ := sepBy_exact .info (parentheses.call .info 9) group (char ',')
    (.ofText (utf8 "(),(()),)")) hgroup hcomma
  obtain ⟨hlists, hsame⟩ := hlist '(' _ hfirst
  exact ⟨hall, (hlists.success_iff _ _).1 (hsame.symm.trans hall)⟩

end Descent.Parser
