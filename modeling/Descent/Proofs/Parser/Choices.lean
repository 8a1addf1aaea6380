import Descent.Proofs.Parser.Composition
import Descent.Proofs.Parser.Diagnosis

/-!
# Choices and sequences as lists

A choice is built from the left, but how its alternatives are grouped makes no
difference: they are tried one after the other at the same cursor, and the first
that does not fail settles the matter. A sequence is cut anywhere into a sequence
and a sequence after it. All this holds of whole runs, log and outcome alike.

* `Grouping`: the ways to put alternatives together in twos.
* `Chooses`: which alternative settles a choice.
* `run_sequence_append`: a sequence in two parts.
* `run_anyOf`: a choice between characters is a test of one character.
-/

namespace Descent

/-! ## One test after another -/

namespace Run

variable {α : Type}

/-- A label given to a choice is given to both of its alternatives. -/
theorem mapOutcome_relabel_orElse (r : Run α) (k : Unit → Run α) (label : Text) :
    (r.orElse k).mapOutcome (Outcome.relabel label) =
      (r.mapOutcome (Outcome.relabel label)).orElse fun _ =>
        (k ()).mapOutcome (Outcome.relabel label) := by
  obtain ⟨log, o⟩ := r
  cases o <;> rfl

end Run

namespace Parser

variable {ρ : Type} {τ : ρ → Type} {α : Type} {level : Level} {call : Call ρ τ}

/-- The label of a test of one character makes no difference under another label. -/
theorem relabel_takeChar (accepts : Char → Bool) (label label' : Text) (c : Cursor) :
    (takeChar accepts label c).relabel label' = takeChar accepts label' c := by
  unfold takeChar
  cases c.next with
  | none => rfl
  | some n =>
    dsimp only
    split <;> rfl

/-- Of two tests under the same label, it is enough to pass one. -/
theorem takeChar_orElse (a b : Char → Bool) (label : Text) (c : Cursor) :
    ((Run.quiet (takeChar a label c)).orElse fun _ => .quiet (takeChar b label c)) =
      .quiet (takeChar (fun x => a x || b x) label c) := by
  unfold takeChar
  cases c.next with
  | none => rfl
  | some n =>
    dsimp only
    by_cases ha : a n.1 = true
    · simp only [ha, Bool.true_or, if_true]
      rfl
    · simp only [ha, Bool.false_or]
      rfl

/-! ## Alternatives in groups -/

/-- Alternatives are tried as they are, whatever run the first one is known by. -/
theorem run_foldl_orElse_congr {p q : Parser ρ τ α} (ps : List (Parser ρ τ α)) {c : Cursor}
    (h : p.run level call c = q.run level call c) :
    (ps.foldl Parser.orElse p).run level call c = (ps.foldl Parser.orElse q).run level call c := by
  induction ps generalizing p q with
  | nil => exact h
  | cons q' ps ih =>
    apply ih
    simp only [run, h]

/-- The first of several alternatives may be split off: it is tried, then all others as one. -/
theorem run_foldl_orElse (p q : Parser ρ τ α) (ps : List (Parser ρ τ α)) (c : Cursor) :
    (ps.foldl Parser.orElse (p.orElse q)).run level call c =
      (p.run level call c).orElse fun _ => (ps.foldl Parser.orElse q).run level call c := by
  induction ps generalizing q with
  | nil => rfl
  | cons q' ps ih =>
    rw [List.foldl_cons, List.foldl_cons, ← ih (q.orElse q')]
    exact run_foldl_orElse_congr ps (Run.orElse_assoc _ _ _)

/-- **A choice in two parts**: the alternatives of the second are tried where the first has
failed. -/
theorem run_choice_append {ps qs : List (Parser ρ τ α)} (hps : ps ≠ []) (hqs : qs ≠ [])
    (c : Cursor) :
    (choice (ps ++ qs)).run level call c =
      ((choice ps).run level call c).orElse fun _ => (choice qs).run level call c := by
  obtain ⟨p, ps, rfl⟩ := List.exists_cons_of_ne_nil hps
  obtain ⟨q, qs, rfl⟩ := List.exists_cons_of_ne_nil hqs
  have hchoice : choice ((p :: ps) ++ (q :: qs)) =
      qs.foldl Parser.orElse ((choice (p :: ps)).orElse q) := List.foldl_append
  rw [hchoice]
  exact run_foldl_orElse (choice (p :: ps)) q qs c

/-- A choice tries its first alternative, then the choice between the others. -/
theorem run_choice_cons (p : Parser ρ τ α) {ps : List (Parser ρ τ α)} (hps : ps ≠ [])
    (c : Cursor) :
    (choice (p :: ps)).run level call c =
      (p.run level call c).orElse fun _ => (choice ps).run level call c := by
  have hp : [p] ≠ [] := List.cons_ne_nil p []
  exact run_choice_append hp hps c

/-- The label of several alternatives is that of the first one and that of the others. -/
theorem label_foldl_orElse (p q : Parser ρ τ α) (ps : List (Parser ρ τ α)) :
    (ps.foldl Parser.orElse (p.orElse q)).label =
      p.label ++ utf8 " orElse " ++ (ps.foldl Parser.orElse q).label := by
  induction ps generalizing p q with
  | nil => rfl
  | cons q' ps ih =>
    rw [List.foldl_cons, List.foldl_cons, ih (p.orElse q) q', ih q q']
    simp only [label, List.append_assoc]

/-- The label of a choice tells its alternatives in order, however they are grouped. -/
theorem label_choice_append {ps qs : List (Parser ρ τ α)} (hps : ps ≠ []) (hqs : qs ≠ []) :
    (choice (ps ++ qs)).label = (choice ps).label ++ utf8 " orElse " ++ (choice qs).label := by
  obtain ⟨p, ps, rfl⟩ := List.exists_cons_of_ne_nil hps
  obtain ⟨q, qs, rfl⟩ := List.exists_cons_of_ne_nil hqs
  have hchoice : choice ((p :: ps) ++ (q :: qs)) =
      qs.foldl Parser.orElse ((choice (p :: ps)).orElse q) := List.foldl_append
  rw [hchoice]
  exact label_foldl_orElse (choice (p :: ps)) q qs

/-- **A grouping of alternatives**: put together in twos, in any way that keeps their order. -/
inductive Grouping : List (Parser ρ τ α) → Parser ρ τ α → Prop where
  | one (p : Parser ρ τ α) : Grouping [p] p
  | two {ps qs : List (Parser ρ τ α)} {p q : Parser ρ τ α} :
      Grouping ps p → Grouping qs q → Grouping (ps ++ qs) (p.orElse q)

namespace Grouping

variable {ps : List (Parser ρ τ α)} {p : Parser ρ τ α}

theorem ne_nil (h : Grouping ps p) : ps ≠ [] := by
  induction h with
  | one p => exact List.cons_ne_nil p []
  | two _ _ hps _ => exact List.append_ne_nil_of_left_ne_nil hps _

/-- **Every grouping runs like the choice.** -/
theorem run_eq (h : Grouping ps p) (level : Level) (call : Call ρ τ) (c : Cursor) :
    p.run level call c = (choice ps).run level call c := by
  induction h with
  | one p => rfl
  | two hp hq ihp ihq =>
    rw [run_choice_append hp.ne_nil hq.ne_nil, ← ihp, ← ihq]
    rfl

/-- Every grouping has the label of the choice, so nothing around it can tell them apart. -/
theorem label_eq (h : Grouping ps p) : p.label = (choice ps).label := by
  induction h with
  | one p => rfl
  | two hp hq ihp ihq =>
    rw [label_choice_append hp.ne_nil hq.ne_nil, ← ihp, ← ihq]
    rfl

end Grouping

/-! ## The alternative that settles a choice -/

/-- A parser fails at a cursor. -/
def FailsAt (level : Level) (call : Call ρ τ) (c : Cursor) (p : Parser ρ τ α) : Prop :=
  ∃ f, (p.run level call c).outcome = .failure f

/-- **An alternative settles the choice** with an outcome: it has that outcome itself, and all
before it fail. Nothing is said of those after it. -/
def SettledBy (level : Level) (call : Call ρ τ) (ps : List (Parser ρ τ α)) (c : Cursor)
    (o : Outcome α) : Prop :=
  ∃ before p after, ps = before ++ p :: after ∧ (∀ q ∈ before, FailsAt level call c q) ∧
    (p.run level call c).outcome = o

section Choice

variable {ps : List (Parser ρ τ α)} {p : Parser ρ τ α} {c : Cursor} {o : Outcome α}

/-- The first alternative settles the outcome if it is the first to be tried with that one. -/
theorem settledBy_head (h : (p.run level call c).outcome = o) :
    SettledBy level call (p :: ps) c o :=
  ⟨[], p, ps, rfl, nofun, h⟩

/-- After a failure, the alternatives left decide. -/
theorem settledBy_cons_of_failsAt (hp : FailsAt level call c p) (ho : ∀ f, o ≠ .failure f) :
    SettledBy level call (p :: ps) c o ↔ SettledBy level call ps c o := by
  constructor
  · rintro ⟨before, q, after, hps, hbefore, hq⟩
    cases before with
    | nil =>
      obtain ⟨rfl, -⟩ := List.cons.inj hps
      obtain ⟨f, hf⟩ := hp
      exact absurd (hq.symm.trans hf) (ho f)
    | cons p' before =>
      obtain ⟨-, rfl⟩ := List.cons.inj hps
      exact ⟨before, q, after, rfl, fun q' hq' => hbefore q' (List.mem_cons_of_mem _ hq'), hq⟩
  · rintro ⟨before, q, after, rfl, hbefore, hq⟩
    exact ⟨p :: before, q, after, rfl, List.forall_mem_cons.2 ⟨hp, hbefore⟩, hq⟩

/-- Before anything else is tried, an alternative that does not fail decides. -/
theorem settledBy_cons_of_not_failsAt (hp : ¬ FailsAt level call c p) :
    SettledBy level call (p :: ps) c o ↔ (p.run level call c).outcome = o := by
  constructor
  · rintro ⟨before, q, after, hps, hbefore, hq⟩
    cases before with
    | nil =>
      obtain ⟨rfl, -⟩ := List.cons.inj hps
      exact hq
    | cons p' before =>
      obtain ⟨rfl, -⟩ := List.cons.inj hps
      exact absurd (hbefore p List.mem_cons_self) hp
  · exact settledBy_head

/-- An alternative that fails leaves the outcome to the others. -/
theorem outcome_choice_cons_of_failsAt (hp : FailsAt level call c p) (hps : ps ≠ []) :
    ((choice (p :: ps)).run level call c).outcome = ((choice ps).run level call c).outcome := by
  obtain ⟨f, hf⟩ := hp
  rw [run_choice_cons p hps, Run.outcome_orElse_failure hf]

/-- An alternative that does not fail settles the outcome. -/
theorem outcome_choice_cons_of_not_failsAt (hp : ¬ FailsAt level call c p) :
    ((choice (p :: ps)).run level call c).outcome = (p.run level call c).outcome := by
  cases ps with
  | nil => rfl
  | cons q ps =>
    have hne : ∀ f, (p.run level call c).outcome ≠ .failure f := fun f hf => hp ⟨f, hf⟩
    rw [run_choice_cons p (List.cons_ne_nil q ps), Run.outcome_orElse_of_ne_failure hne]

/-- **The first alternative that does not fail settles the choice.** -/
theorem outcome_choice_eq_iff (hps : ps ≠ []) (ho : ∀ f, o ≠ .failure f) :
    ((choice ps).run level call c).outcome = o ↔ SettledBy level call ps c o := by
  induction ps with
  | nil => exact absurd rfl hps
  | cons p ps ih =>
    by_cases hp : FailsAt level call c p
    · cases ps with
      | nil =>
        -- the only alternative has failed, so there is no other outcome
        have hne : (p.run level call c).outcome ≠ o := by
          obtain ⟨f, hf⟩ := hp
          rw [hf]
          exact (ho f).symm
        refine iff_of_false hne ?_
        rw [settledBy_cons_of_failsAt hp ho]
        rintro ⟨before, q, after, hnil, -⟩
        simp at hnil
      | cons q ps =>
        rw [outcome_choice_cons_of_failsAt hp (List.cons_ne_nil q ps),
          settledBy_cons_of_failsAt hp ho]
        exact ih (List.cons_ne_nil q ps)
    · rw [outcome_choice_cons_of_not_failsAt hp, settledBy_cons_of_not_failsAt hp]

/-- **A choice fails** if all alternatives do, and then it is the last failure that stands. -/
theorem outcome_choice_eq_failure_iff (hps : ps ≠ []) {f : Failure} :
    ((choice ps).run level call c).outcome = .failure f ↔
      (∀ q ∈ ps, FailsAt level call c q) ∧
        ∃ q, ps.getLast? = some q ∧ (q.run level call c).outcome = .failure f := by
  induction ps with
  | nil => exact absurd rfl hps
  | cons p ps ih =>
    by_cases hp : FailsAt level call c p
    · cases ps with
      | nil =>
        constructor
        · intro h
          exact ⟨by simpa using hp, p, rfl, h⟩
        · rintro ⟨-, q, hq, h⟩
          obtain rfl := Option.some.inj hq
          exact h
      | cons q ps =>
        rw [outcome_choice_cons_of_failsAt hp (List.cons_ne_nil q ps),
          ih (List.cons_ne_nil q ps), List.getLast?_cons_cons, List.forall_mem_cons (a := p)]
        simp only [hp, true_and]
    · rw [outcome_choice_cons_of_not_failsAt hp]
      refine iff_of_false (fun h => hp ⟨f, h⟩) ?_
      rintro ⟨hall, -⟩
      exact hp (hall p List.mem_cons_self)

/-- **What a choice comes to.** It succeeds with the first alternative that succeeds, if those
before it fail, and is at fault with the first that is at fault, if those before it fail; it does
not matter what the alternatives after it would do. It fails if all fail, and then as the last one
does. -/
structure Chooses (level : Level) (call : Call ρ τ) (ps : List (Parser ρ τ α)) (c : Cursor)
    (o : Outcome α) : Prop where
  success_iff : ∀ v d, o = .success v d ↔ SettledBy level call ps c (.success v d)
  fault_iff : ∀ e, o = .fault e ↔ SettledBy level call ps c (.fault e)
  failure_iff : ∀ f, o = .failure f ↔
    (∀ q ∈ ps, FailsAt level call c q) ∧
      ∃ q, ps.getLast? = some q ∧ (q.run level call c).outcome = .failure f

/-- A choice ends as its settling alternative does. -/
theorem chooses_choice (hps : ps ≠ []) :
    Chooses level call ps c ((choice ps).run level call c).outcome where
  success_iff _ _ := outcome_choice_eq_iff hps nofun
  fault_iff _ := outcome_choice_eq_iff hps nofun
  failure_iff _ := outcome_choice_eq_failure_iff hps

end Choice

/-! ## Sequences -/

/-- **A sequence in two parts**: the second goes on where the first has left off, and its values
come after. -/
theorem run_sequence_append (ps qs : List (Parser ρ τ α)) (c : Cursor) :
    (sequence (ps ++ qs)).run level call c =
      ((sequence ps).run level call c).andThen fun vs d =>
        ((sequence qs).run level call d).mapOutcome (Outcome.map (vs ++ ·)) := by
  induction ps generalizing c with
  | nil =>
    change _ = ((sequence qs).run level call c).mapOutcome (Outcome.map fun ws => ws)
    rw [Run.mapOutcome_id]
    rfl
  | cons p ps ih =>
    rw [List.cons_append, run_sequence_cons, run_sequence_cons, Run.andThen_assoc]
    congr 1
    funext v d
    rw [ih, Run.mapOutcome_andThen, Run.andThen_mapOutcome]
    congr 1
    funext vs e
    rw [Run.mapOutcome_mapOutcome]
    rfl

/-! ## Characters -/

/-- The choice between the characters of a list accepts those characters. -/
theorem run_choice_char (x : Char) (cs : List Char) (label : Text) (c : Cursor) :
    ((choice ((x :: cs).map char) : Parser ρ τ Char).run level call c).mapOutcome
        (Outcome.relabel label) =
      .quiet (takeChar (fun y => (x :: cs).contains y) label c) := by
  have hchar (x : Char) : ((char x : Parser ρ τ Char).run level call c).mapOutcome
      (Outcome.relabel label) = .quiet (takeChar (· == x) label c) := by
    change Run.quiet ((takeChar _ _ c).relabel label) = _
    rw [relabel_takeChar]
  induction cs generalizing x with
  | nil =>
    have hone : (fun y => [x].contains y) = fun y => y == x := by
      funext y
      rw [List.contains_cons, List.contains_nil, Bool.or_false]
    rw [hone]
    exact hchar x
  | cons x' cs ih =>
    have hne : (x' :: cs).map (char : Char → Parser ρ τ Char) ≠ [] := List.cons_ne_nil _ _
    rw [List.map_cons, run_choice_cons (char x) hne, Run.mapOutcome_relabel_orElse, hchar, ih,
      takeChar_orElse]
    rfl

/-- **A choice between characters is a test of one character.** -/
theorem run_anyOf {chars : Text} (h : chars ≠ []) (c : Cursor) :
    (anyOf chars : Parser ρ τ Char).run level call c =
      (satisfy (fun x => (Utf8.decode chars).contains x) (utf8 "any of " ++ chars) :
        Parser ρ τ Char).run level call c := by
  obtain ⟨x, cs, hx⟩ := List.exists_cons_of_ne_nil (Utf8.decode_ne_nil h)
  change ((choice ((Utf8.decode chars).map char)).run level call c).mapOutcome _ = _
  rw [hx]
  exact run_choice_char x cs _ c

/-- **Choices and sequences obey the laws of lists**, at every cursor. A choice in two parts, or
with its alternatives grouped in any other way, runs the same; it is settled by the first
alternative that does not fail, and by the last one if all fail. A sequence in two parts is the one
and then the other. A choice between characters is one test. -/
theorem list_laws (level : Level) (call : Call ρ τ) (c : Cursor) :
    (∀ ps qs : List (Parser ρ τ α), ps ≠ [] → qs ≠ [] →
      (choice (ps ++ qs)).run level call c =
        ((choice ps).orElse (choice qs)).run level call c) ∧
      (∀ (ps : List (Parser ρ τ α)) p, Grouping ps p →
        p.run level call c = (choice ps).run level call c ∧ p.label = (choice ps).label) ∧
      (∀ ps : List (Parser ρ τ α), ps ≠ [] →
        Chooses level call ps c ((choice ps).run level call c).outcome) ∧
      (∀ ps qs : List (Parser ρ τ α),
        (sequence (ps ++ qs)).run level call c =
          ((sequence ps).run level call c).andThen fun vs d =>
            ((sequence qs).run level call d).mapOutcome (Outcome.map (vs ++ ·))) ∧
      ∀ chars : Text, chars ≠ [] →
        (anyOf chars : Parser ρ τ Char).run level call c =
          (satisfy (fun x => (Utf8.decode chars).contains x) (utf8 "any of " ++ chars) :
            Parser ρ τ Char).run level call c := by
  refine ⟨?_, ?_, ?_, ?_, ?_⟩
  · intro ps qs hps hqs
    exact run_choice_append hps hqs c
  · intro ps p h
    exact ⟨h.run_eq level call c, h.label_eq⟩
  · intro ps hps
    exact chooses_choice hps
  · intro ps qs
    exact run_sequence_append ps qs c
  · intro chars h
    exact run_anyOf h c

/-- Before a group of parentheses, a cross fails, the group succeeds, and what would be a fault is
not tried any more. -/
theorem list_laws_untried :
    ((choice ([char 'x', group] ++ [.raise [] .emptyChoice])).run .info
        (parentheses.call .info 9) (.ofText (utf8 "()"))).outcome =
      .success '(' ((Cursor.ofText (utf8 "()")).skip 2) ∧
    SettledBy .info (parentheses.call .info 9) ([char 'x', group] ++ [.raise [] .emptyChoice])
      (.ofText (utf8 "()")) (.success '(' ((Cursor.ofText (utf8 "()")).skip 2)) ∧
    (((choice [char 'x', group]).orElse (choice [.raise [] .emptyChoice])).run .info
        (parentheses.call .info 9) (.ofText (utf8 "()"))).outcome =
      .success '(' ((Cursor.ofText (utf8 "()")).skip 2) ∧
    (((char 'x').orElse (group.orElse (.raise [] .emptyChoice))).run .info
        (parentheses.call .info 9) (.ofText (utf8 "()"))).outcome =
      .success '(' ((Cursor.ofText (utf8 "()")).skip 2) ∧
    ((anyOf (utf8 "[(") : Parser Unit (fun _ => Char) Char).run .info (parentheses.call .info 9)
        (.ofText (utf8 "()"))).outcome =
      .success '(' ((Cursor.ofText (utf8 "()")).skip 1) := by
  obtain ⟨happend, hgrouping, hchooses, -, hanyOf⟩ :=
    list_laws (α := Char) .info (parentheses.call .info 9) (.ofText (utf8 "()"))
  have hchoice : ((choice ([char 'x', group] ++ [.raise [] .emptyChoice])).run .info
      (parentheses.call .info 9) (.ofText (utf8 "()"))).outcome =
        .success '(' ((Cursor.ofText (utf8 "()")).skip 2) := by
    decide +kernel
  have hright : Grouping ([char 'x'] ++ ([group] ++ [.raise [] .emptyChoice]))
      ((char 'x').orElse (group.orElse (.raise [] .emptyChoice))) :=
    .two (.one (char 'x')) (.two (.one group) (.one _))
  refine ⟨hchoice, ?_, ?_, ?_, ?_⟩
  · exact ((hchooses _ (List.cons_ne_nil _ _)).success_iff _ _).1 hchoice
  · rw [← happend _ _ (List.cons_ne_nil _ _) (List.cons_ne_nil _ _)]
    exact hchoice
  · rw [(hgrouping _ _ hright).1]
    exact hchoice
  · rw [hanyOf _ (by decide)]
    decide +kernel

end Parser

end Descent
