import Descent.Proofs.Parser.Diagnosis
import Descent.Proofs.Parser.View
import Mathlib.Data.List.Forall2

/-!
# Labels do not matter

Labels are there for the reader of a failure, a fault or a log. Two parsers are
**the same but for labels** if nothing distinguishes them once labels are dropped,
whether those of tests, those that stand over a whole parser and its failures, or
those that derived parsers make from the labels of their parts. Such parsers do the
same, everywhere and in every respect but the labels that they show.

* `unlabelled`: a parser without labels.
* `SameButLabels`: nothing distinguishes two parsers but labels, with a lemma for
  each derived parser.
* `seen_run_unlabelled`: one parser, if the calls that it makes are seen alike.
* `seen_run_eq`: what this says about two runs.
-/

namespace Descent

namespace Parser

variable {ρ : Type} {τ : ρ → Type} {α β γ : Type}

/-- **A parser without labels**, in what follows a value too. A reference keeps the label under
which it calls its rule. -/
def unlabelled {α : Type} : Parser ρ τ α → Parser ρ τ α
  | .satisfy accepts _ => .satisfy accepts []
  | .notFollowedBy refuses _ => .notFollowedBy refuses []
  | .endOfInput => .endOfInput
  | .succeed _ value => .succeed [] value
  | .map p f => .map p.unlabelled f
  | .bind p f => .bind p.unlabelled fun v => (f v).unlabelled
  | .orElse p q => .orElse p.unlabelled q.unlabelled
  | .many p => .many p.unlabelled
  | .named p _ => p.unlabelled
  | .relabel p _ => p.unlabelled
  | .trace p => .trace p.unlabelled
  | .ref label r => .ref label r
  | .custom _ step => .custom [] step
  | .raise _ e => .raise [] e

/-- **Two parsers are the same but for labels.** -/
def SameButLabels (p q : Parser ρ τ α) : Prop := p.unlabelled = q.unlabelled

namespace SameButLabels

variable {p p' : Parser ρ τ α} {q q' : Parser ρ τ β}

theorem refl (p : Parser ρ τ α) : p.SameButLabels p := rfl

theorem symm (h : p.SameButLabels p') : p'.SameButLabels p := Eq.symm h

/-- A label may be put over a parser. -/
theorem relabel (h : p.SameButLabels p') (label : Text) : (p.relabel label).SameButLabels p' := h

/-- A test may have another label. -/
theorem satisfy (accepts : Char → Bool) (label label' : Text) :
    (Parser.satisfy accepts label : Parser ρ τ Char).SameButLabels (.satisfy accepts label') := rfl

theorem notFollowedBy (refuses : Char → Bool) (label label' : Text) :
    (Parser.notFollowedBy refuses label : Parser ρ τ Unit).SameButLabels
      (.notFollowedBy refuses label') := rfl

theorem map (h : p.SameButLabels p') (f : α → β) : (p.map f).SameButLabels (p'.map f) := by
  change p.unlabelled.map f = p'.unlabelled.map f
  rw [h]

theorem bind (hp : p.SameButLabels p') {f f' : α → Parser ρ τ β}
    (hf : ∀ v, (f v).SameButLabels (f' v)) : (p.bind f).SameButLabels (p'.bind f') := by
  have hnext : (fun v => (f v).unlabelled) = fun v => (f' v).unlabelled := funext hf
  change p.unlabelled.bind _ = p'.unlabelled.bind _
  rw [hp, hnext]

/-- Alternatives that differ in labels only are choices that do so. -/
theorem orElse {r r' : Parser ρ τ α} (hp : p.SameButLabels p') (hr : r.SameButLabels r') :
    (p.orElse r).SameButLabels (p'.orElse r') := by
  change p.unlabelled.orElse r.unlabelled = p'.unlabelled.orElse r'.unlabelled
  rw [hp, hr]

theorem many (h : p.SameButLabels p') : p.many.SameButLabels p'.many := congrArg Parser.many h

theorem trace (h : p.SameButLabels p') : p.trace.SameButLabels p'.trace := congrArg Parser.trace h

/-! ## Derived parsers -/

theorem andThen (hp : p.SameButLabels p') (hq : q.SameButLabels q') :
    (p.andThen q).SameButLabels (p'.andThen q') :=
  hp.bind fun _ => hq.bind fun _ => refl _

theorem left (hp : p.SameButLabels p') (hq : q.SameButLabels q') :
    (p.left q).SameButLabels (p'.left q') :=
  (hp.andThen hq).map Prod.fst

theorem right (hp : p.SameButLabels p') (hq : q.SameButLabels q') :
    (p.right q).SameButLabels (p'.right q') :=
  (hp.andThen hq).map Prod.snd

theorem apply {f f' : Parser ρ τ (α → β)} (hf : f.SameButLabels f') (hp : p.SameButLabels p') :
    (f.apply p).SameButLabels (f'.apply p') :=
  map (hf.andThen hp) _

theorem lift2 (f : α → β → γ) (hp : p.SameButLabels p') (hq : q.SameButLabels q') :
    (Parser.lift2 f p q).SameButLabels (Parser.lift2 f p' q') :=
  (hp.map f).apply hq

theorem between {o o' : Parser ρ τ γ} (ho : o.SameButLabels o') (hp : p.SameButLabels p')
    (hq : q.SameButLabels q') : (Parser.between o p q).SameButLabels (Parser.between o' p' q') :=
  (ho.right hp).left hq

theorem many1 (h : p.SameButLabels p') : p.many1.SameButLabels p'.many1 :=
  h.bind fun v => h.many.map (v :: ·)

theorem optional (h : p.SameButLabels p') :
    (Parser.optional p).SameButLabels (Parser.optional p') :=
  (h.map some).orElse (refl _)

theorem sepBy1 (hp : p.SameButLabels p') (hq : q.SameButLabels q') :
    (p.sepBy1 q).SameButLabels (p'.sepBy1 q') :=
  map (hp.andThen (hq.right hp).many) _

theorem sepBy (hp : p.SameButLabels p') (hq : q.SameButLabels q') :
    (p.sepBy q).SameButLabels (p'.sepBy q') :=
  (hp.sepBy1 hq).orElse (refl _)

theorem foldl_orElse {ps ps' : List (Parser ρ τ α)} (hp : p.SameButLabels p')
    (hps : List.Forall₂ SameButLabels ps ps') :
    (ps.foldl Parser.orElse p).SameButLabels (ps'.foldl Parser.orElse p') := by
  induction hps generalizing p p' with
  | nil => exact hp
  | cons hq _ ih => exact ih (hp.orElse hq)

/-- Choices between alternatives that differ in labels only differ in labels only. -/
theorem choice {ps ps' : List (Parser ρ τ α)} (hps : List.Forall₂ SameButLabels ps ps') :
    (Parser.choice ps).SameButLabels (Parser.choice ps') := by
  cases hps with
  | nil => rfl
  | cons hp hps => exact hp.foldl_orElse hps

/-- Sequences of members that differ in labels only differ in labels only. -/
theorem sequence {ps ps' : List (Parser ρ τ α)} (hps : List.Forall₂ SameButLabels ps ps') :
    (Parser.sequence ps).SameButLabels (Parser.sequence ps') := by
  -- the label of a sequence is dropped, so it is enough to look at the parts in order
  change (Parser.inOrder ps).unlabelled = (Parser.inOrder ps').unlabelled
  induction hps with
  | nil => rfl
  | cons hp _ ih => exact hp.bind fun v => SameButLabels.map ih (v :: ·)

end SameButLabels

/-! ## Runs -/

/-- Where no label is seen, a failure may have any. -/
theorem relabel_seen_unlabelled (r : Run α) (label : Text) :
    (r.seen .unlabelled).mapOutcome (Outcome.relabel (View.unlabelled.label label)) =
      r.seen .unlabelled := by
  obtain ⟨log, o⟩ := r
  cases o <;> rfl

/-- **A parser without labels is seen to do what it did with them**, if calls are. -/
theorem seen_run_unlabelled {call call' : Call ρ τ}
    (hcall : ∀ label r c,
      (call' label r c).seen .unlabelled = (call label r c).seen .unlabelled)
    (p : Parser ρ τ α) (level : Level) (c : Cursor) :
    (p.unlabelled.run level call' c).seen .unlabelled =
      (p.run level call c).seen .unlabelled := by
  induction p generalizing c with
  | satisfy accepts label =>
    simp only [unlabelled, run, Run.seen_quiet, seen_takeChar]
    rfl
  | notFollowedBy refuses label =>
    simp only [unlabelled, run, Run.seen_quiet, seen_lookAhead]
    rfl
  | map p f ih => simp only [unlabelled, run, Run.seen_map, ih]
  | bind p f ihp ihf => simp only [unlabelled, run, Run.seen_andThen, ihp, ihf]
  | orElse p q ihp ihq => simp only [unlabelled, run, Run.seen_orElse, ihp, ihq]
  | many p ih =>
    -- the labels of the two repetitions differ, and neither is seen
    simp only [unlabelled, run, Run.seen_iterate, ih]
    rfl
  | named p label ih => exact ih c
  | relabel p label ih =>
    simp only [unlabelled, run, Run.seen_relabel, relabel_seen_unlabelled]
    exact ih c
  | trace p ih =>
    simp only [unlabelled, run]
    split
    · rw [Run.seen_traced _ rfl, Run.seen_traced _ rfl, ih]
      rfl
    · exact ih c
  | ref label r => exact hcall label r c
  | _ => rfl

end Parser

namespace Rules

variable {ρ : Type} {τ : ρ → Type}

/-- **Rules without labels.** -/
def unlabelled (R : Rules ρ τ) : Rules ρ τ := R.change fun _ => Parser.unlabelled

/-- **Rules are the same but for labels.** -/
def SameButLabels (R R' : Rules ρ τ) : Prop := R.unlabelled = R'.unlabelled

end Rules

namespace Parser

variable {ρ : Type} {τ : ρ → Type} {α : Type}

/-- Without labels to be seen, a parser runs as it does with all its labels removed. -/
theorem seen_run_call_unlabelled (R : Rules ρ τ) (p : Parser ρ τ α) (level : Level) (depth : Nat)
    (c : Cursor) :
    (p.unlabelled.run level (R.unlabelled.call level depth) c).seen .unlabelled =
      (p.run level (R.call level depth) c).seen .unlabelled := by
  have hcall := Rules.seen_call_change (V := .unlabelled) (f := fun _ => unlabelled) level level
    (fun _ _ h _ p c => seen_run_unlabelled h p level c) R depth
  exact seen_run_unlabelled hcall p level c

/-- **Labels do not matter.** Two parsers that are the same but for labels, under rules that are the
same but for labels, run alike from every cursor and to every depth of calls: with labels dropped
from failures, from faults and from the entries of the log, the two runs are one. -/
theorem seen_run_eq {R R' : Rules ρ τ} (hR : R.SameButLabels R') {p p' : Parser ρ τ α}
    (hp : p.SameButLabels p') (level : Level) (c : Cursor) :
    (∀ depth, (p.run level (R.call level depth) c).seen .unlabelled =
        (p'.run level (R'.call level depth) c).seen .unlabelled) ∧
      (p.runWith R level c).seen .unlabelled = (p'.runWith R' level c).seen .unlabelled := by
  have hrun (depth : Nat) : (p.run level (R.call level depth) c).seen .unlabelled =
      (p'.run level (R'.call level depth) c).seen .unlabelled := by
    rw [← seen_run_call_unlabelled R, ← seen_run_call_unlabelled R', hp, hR]
  have hcount : R.count = R'.count := (Rules.mk.inj hR).2
  have hdepth : R.depth c = R'.depth c := by
    unfold Rules.depth
    rw [hcount]
  refine ⟨hrun, ?_⟩
  unfold runWith
  rw [hrun, hdepth]

/-- Nested parentheses under other labels: of the marks, of a group inside another one, and of the
whole. -/
def labelledParentheses : Rules Unit (fun _ => Char) where
  find _ := some ((((Parser.satisfy (· == '(') (utf8 "opening")).left
    (many (group.relabel (utf8 "inner group")))).left
      ((char ')').relabel (utf8 "closing"))).relabel (utf8 "parentheses"))
  count := 1

theorem sameButLabels_parentheses : labelledParentheses.SameButLabels parentheses := rfl

/-- Groups, of which the second is not closed, are repeated and repeated again. The failure of the
second one is dropped, under whatever label; the repetition that does not move on is a fault, and
quotes one label or the other. -/
theorem seen_run_eq_stuck :
    labelledParentheses.SameButLabels parentheses ∧
      ((group.relabel (utf8 "outer group")).many.relabel (utf8 "groups")).SameButLabels
        group.many ∧
      (((group.relabel (utf8 "outer group")).many.relabel (utf8 "groups")).many.runWith
          labelledParentheses .info (.ofText (utf8 "()(()"))).outcome =
        .fault (.noProgress (utf8 "groups") ⟨0, 2⟩) ∧
      (group.many.many.runWith parentheses .info (.ofText (utf8 "()(()"))).outcome =
        .fault (.noProgress (utf8 "zero or many group") ⟨0, 2⟩) ∧
      (((group.relabel (utf8 "outer group")).many.relabel (utf8 "groups")).many.runWith
          labelledParentheses .info (.ofText (utf8 "()(()"))).seen .unlabelled =
        (group.many.many.runWith parentheses .info (.ofText (utf8 "()(()"))).seen .unlabelled := by
  have hp : ((group.relabel (utf8 "outer group")).many.relabel (utf8 "groups")).SameButLabels
      group.many :=
    ((SameButLabels.refl group).relabel (utf8 "outer group")).many.relabel (utf8 "groups")
  exact ⟨sameButLabels_parentheses, hp, by decide +kernel, by decide +kernel,
    (seen_run_eq sameButLabels_parentheses hp.many .info _).2⟩

end Parser

end Descent
