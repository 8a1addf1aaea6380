import Descent.Proofs.Parser.Diagnosis
import Descent.Proofs.Parser.Translation
import Descent.Proofs.Parser.View

/-!
# Tracing is transparent

A parser may be traced to find out what a grammar does, and so may any part of it:
an alternative, a round of a repetition, a separator, what follows a value, a
rule. The outcome is that of the parser with every tracing **erased**, and labels
are the same, so the faults and failures that quote them are too. Below the level
`debug` nothing is logged.

* `untraced`: a parser without its tracing.
* `label_untraced`, `untracing`: erasing keeps labels, and so goes through the derived
  parsers.
* `seen_run_untraced`: one parser, if the calls that it makes are seen alike.
* `run_untraced`: what this says about every run.
-/

namespace Descent

namespace Parser

variable {ρ : Type} {τ : ρ → Type} {α β : Type}

/-- **A parser with every tracing erased**, in what follows a value too. -/
def untraced {α : Type} : Parser ρ τ α → Parser ρ τ α
  | .map p f => .map p.untraced f
  | .bind p f => .bind p.untraced fun v => (f v).untraced
  | .orElse p q => .orElse p.untraced q.untraced
  | .many p => .many p.untraced
  | .named p label => .named p.untraced label
  | .relabel p label => .relabel p.untraced label
  | .trace p => p.untraced
  | p => p

/-- **Erasing keeps labels.** -/
@[simp]
theorem label_untraced (p : Parser ρ τ α) : p.untraced.label = p.label := by
  induction p with
  | map p f ih => exact ih
  | orElse p q ihp ihq =>
    change p.untraced.label ++ _ ++ q.untraced.label = _
    rw [ihp, ihq]
    rfl
  | many p ih =>
    change _ ++ p.untraced.label = _
    rw [ih]
    rfl
  | trace p ih => exact ih
  | _ => rfl

/-- **Erasing is a translation**, so to erase the tracing of what was derived is to derive it from
parts without tracing. -/
def untracing : Translation ρ τ ρ τ where
  image := untraced
  label := label_untraced
  satisfy _ _ := rfl
  notFollowedBy _ _ := rfl
  endOfInput := rfl
  succeed _ _ := rfl
  map _ _ := rfl
  bind _ _ := rfl
  orElse _ _ := rfl
  many _ := rfl
  named _ _ := rfl
  relabel _ _ := rfl
  raise _ _ := rfl

theorem untraced_left (p : Parser ρ τ α) (q : Parser ρ τ β) :
    (p.left q).untraced = p.untraced.left q.untraced := untracing.left p q

/-! ## Runs -/

variable {call call' : Call ρ τ}

/-- **Nothing is seen of tracing where the log is not seen**, if calls are seen alike. -/
theorem seen_run_untraced {V : View} (hV : V.log = false)
    (hcall : ∀ label r c, (call' label r c).seen V = (call label r c).seen V) (p : Parser ρ τ α)
    (level level' : Level) (c : Cursor) :
    (p.untraced.run level' call' c).seen V = (p.run level call c).seen V := by
  induction p generalizing c with
  | map p f ih => simp only [untraced, run, Run.seen_map, ih]
  | bind p f ihp ihf => simp only [untraced, run, Run.seen_andThen, ihp, ihf]
  | orElse p q ihp ihq => simp only [untraced, run, Run.seen_orElse, ihp, ihq]
  | many p ih => simp only [untraced, run, Run.seen_iterate, label_untraced, ih]
  | named p label ih => exact ih c
  | relabel p label ih => simp only [untraced, run, Run.seen_relabel, ih]
  | trace p ih =>
    simp only [untraced, run]
    split
    · rw [Run.seen_traced_of_unseen V hV, ih]
    · exact ih c
  | ref label r => exact hcall label r c
  | _ => rfl

/-- **Below the level of traced parsers, a run is its outcome**, if this holds of calls. -/
theorem seen_run_of_quiet {level : Level} (hlevel : level.isVerbose = false)
    (hcall : ∀ label r c, (call label r c).seen .outcomeOnly = call label r c) (p : Parser ρ τ α)
    (c : Cursor) : (p.run level call c).seen .outcomeOnly = p.run level call c := by
  induction p generalizing c with
  | map p f ih => simp only [run, Run.seen_map, ih]
  | bind p f ihp ihf => simp only [run, Run.seen_andThen, ihp, ihf]
  | orElse p q ihp ihq => simp only [run, Run.seen_orElse, ihp, ihq]
  | many p ih =>
    simp only [run, Run.seen_iterate, ih]
    rfl
  | named p label ih => exact ih c
  | relabel p label ih =>
    simp only [run, Run.seen_relabel, ih]
    rfl
  | trace p ih =>
    simp only [run, hlevel]
    exact ih c
  | ref label r => exact hcall label r c
  | _ => exact Run.seen_outcomeOnly _

end Parser

namespace Rules

variable {ρ : Type} {τ : ρ → Type}

/-- **Rules with every tracing erased.** -/
def untraced (R : Rules ρ τ) : Rules ρ τ := R.change fun _ => Parser.untraced

theorem seen_call_of_quiet (R : Rules ρ τ) {level : Level} (hlevel : level.isVerbose = false)
    (depth : Nat) (label : Text) (r : ρ) (c : Cursor) :
    (R.call level depth label r c).seen .outcomeOnly = R.call level depth label r c := by
  induction depth generalizing label r c with
  | zero => rfl
  | succ depth ih =>
    unfold call
    cases R.find r with
    | none => rfl
    | some p => exact Parser.seen_run_of_quiet hlevel ih p c

end Rules

namespace Parser

variable {ρ : Type} {τ : ρ → Type} {α : Type}

/-- Without tracing, the level makes no difference. -/
theorem run_untraced_of_level {call : Call ρ τ} (p : Parser ρ τ α) (level level' : Level)
    (c : Cursor) : p.untraced.run level call c = p.untraced.run level' call c := by
  induction p generalizing c with
  | map p f ih => simp only [untraced, run, ih]
  | bind p f ihp ihf => simp only [untraced, run, ihp, ihf]
  | orElse p q ihp ihq => simp only [untraced, run, ihp, ihq]
  | many p ih => simp only [untraced, run, ih]
  | named p label ih => exact ih c
  | relabel p label ih => simp only [untraced, run, ih]
  | trace p ih => exact ih c
  | _ => rfl

/-- Without tracing, at whatever level, the outcome is the same. -/
theorem outcome_run_untraced (R : Rules ρ τ) (p : Parser ρ τ α) (level level' : Level)
    (depth : Nat) (c : Cursor) :
    (p.untraced.run level' (R.untraced.call level' depth) c).outcome =
      (p.run level (R.call level depth) c).outcome := by
  have hcall := Rules.seen_call_change (V := .outcomeOnly) (f := fun _ => untraced) level level'
    (fun _ _ h _ p c => seen_run_untraced rfl h p level level' c) R depth
  have hseen := seen_run_untraced rfl hcall p level level' c
  rw [Run.seen_outcomeOnly, Run.seen_outcomeOnly] at hseen
  exact (Run.mk.inj hseen).2

/-- Nothing is logged at a level that is not verbose. -/
theorem log_run_of_quiet (R : Rules ρ τ) (p : Parser ρ τ α) {level : Level}
    (hlevel : level.isVerbose = false) (depth : Nat) (c : Cursor) :
    (p.run level (R.call level depth) c).log = [] := by
  have hseen := seen_run_of_quiet hlevel (R.seen_call_of_quiet hlevel depth) p c
  rw [Run.seen_outcomeOnly] at hseen
  exact (congrArg Run.log hseen).symm

/-- **Without tracing, nothing is logged**, at whatever level. -/
theorem log_run_untraced (R : Rules ρ τ) (p : Parser ρ τ α) (level : Level) (depth : Nat)
    (c : Cursor) : (p.untraced.run level (R.untraced.call level depth) c).log = [] := by
  have hcall : R.untraced.call level depth = R.untraced.call .info depth := by
    induction depth with
    | zero => rfl
    | succ depth ih =>
      funext label r d
      have hfind : R.untraced.find r = (R.find r).map untraced := rfl
      unfold Rules.call
      rw [hfind, ih]
      cases R.find r with
      | none => rfl
      | some q => exact run_untraced_of_level q level .info d
  rw [run_untraced_of_level p level .info, hcall]
  exact log_run_of_quiet R.untraced p.untraced rfl depth c

/-- **Tracing is transparent.** Whatever is traced in a parser and in the rules that it calls, and
at whatever level: a run has the outcome of the same run with all tracing erased, to every depth of
calls, and the parser has the same label. Below `debug`, nothing is logged. -/
theorem run_untraced (R : Rules ρ τ) (p : Parser ρ τ α) (level level' : Level) (c : Cursor) :
    p.untraced.label = p.label ∧
      (∀ depth, (p.untraced.run level' (R.untraced.call level' depth) c).outcome =
        (p.run level (R.call level depth) c).outcome) ∧
      (p.untraced.runWith R.untraced level' c).outcome = (p.runWith R level c).outcome ∧
      (level ∈ [Level.panic, .fatal, .error, .warning, .info] →
        (∀ depth, (p.run level (R.call level depth) c).log = []) ∧
          (p.runWith R level c).log = []) := by
  refine ⟨label_untraced p, fun depth => outcome_run_untraced R p level level' depth c,
    outcome_run_untraced R p level level' _ c, fun hlevel => ?_⟩
  have hquiet : level.isVerbose = false := by
    have hall : ∀ l ∈ [Level.panic, .fatal, .error, .warning, .info], l.isVerbose = false := by
      decide
    exact hall level hlevel
  exact ⟨fun depth => log_run_of_quiet R p hquiet depth c, log_run_of_quiet R p hquiet _ c⟩

/-- Nested parentheses with everything traced: the rule, what it repeats, and each mark. -/
def tracedParentheses : Rules Unit (fun _ => Char) where
  find _ := some (((char '(').trace.left (many group.trace)).left (char ')').trace).trace
  count := 1

theorem untraced_tracedParentheses : tracedParentheses.untraced = parentheses := by
  unfold tracedParentheses parentheses Rules.untraced Rules.change
  simp only [Option.map_some, untraced, untraced_left]
  rfl

/-- A group that is not closed: with a log of 26 entries and without one, the same failure. -/
theorem run_untraced_unclosed :
    (group.runWith tracedParentheses .debug (.ofText (utf8 "(()"))).log.length = 26 ∧
      (group.runWith tracedParentheses .debug (.ofText (utf8 "(()"))).outcome =
        .failure ⟨utf8 ")", .unexpected '\n', ⟨0, 3⟩, utf8 "(()"⟩ ∧
      (group.runWith parentheses .debug (.ofText (utf8 "(()"))).outcome =
        (group.runWith tracedParentheses .debug (.ofText (utf8 "(()"))).outcome ∧
      Level.info ∈ [Level.panic, .fatal, .error, .warning, .info] ∧
      (group.runWith tracedParentheses .info (.ofText (utf8 "(()"))).log = [] := by
  have hdebug := run_untraced tracedParentheses group .debug .debug (.ofText (utf8 "(()"))
  have hinfo := run_untraced tracedParentheses group .info .info (.ofText (utf8 "(()"))
  rw [untraced_tracedParentheses] at hdebug
  exact ⟨by decide +kernel, by decide +kernel, hdebug.2.2.1, by decide,
    (hinfo.2.2.2 (by decide)).2⟩

end Parser

end Descent
