import Descent.Parser.Basic

/-!
# Running parsers

A run yields an outcome and the entries that traced parsers wrote on the way;
entries written before a fault are kept. `Parser.run` follows the expression.
References are answered by a `Call`, a parameter, so the recursion of a grammar
stays outside the recursion on expressions: `Rules.call` unfolds the rules to a
given depth, and `Parser.runWith` takes a depth that every run which ends stays
below.

A repetition is bounded by the characters ahead, as each round takes one.
-/

namespace Descent

/-- **A run**: what was logged, and how it ended. -/
structure Run (α : Type) where
  log : List Entry
  outcome : Outcome α
  deriving DecidableEq, Repr

namespace Run

variable {α β : Type}

/-- A run that logs nothing. -/
def quiet (o : Outcome α) : Run α := ⟨[], o⟩

/-- The run with entries put before its own. -/
def after (log : List Entry) (r : Run α) : Run α := ⟨log ++ r.log, r.outcome⟩

/-- The run with its outcome changed. -/
def mapOutcome (f : Outcome α → Outcome β) (r : Run α) : Run β := ⟨r.log, f r.outcome⟩

/-- Goes on after a success. -/
def andThen (r : Run α) (k : α → Cursor → Run β) : Run β :=
  match r.outcome with
  | .success v rest => (k v rest).after r.log
  | .failure f => ⟨r.log, .failure f⟩
  | .fault e => ⟨r.log, .fault e⟩

/-- Goes on after a failure. -/
def orElse (r : Run α) (k : Unit → Run α) : Run α :=
  match r.outcome with
  | .failure _ => (k ()).after r.log
  | _ => r

/-- Repeats a step until it fails. A step that succeeds must move on; each round that does
uses up one element of the budget. -/
def iterate (label : Text) (step : Cursor → Run α) : List Char → Cursor → Run (List α)
  | budget, c =>
    let r := step c
    match r.outcome with
    | .failure _ => ⟨r.log, .success [] c⟩
    | .fault e => ⟨r.log, .fault e⟩
    | .success v rest =>
      if rest.pos = c.pos then ⟨r.log, .fault (.noProgress label c.pos)⟩
      else
        match budget with
        | [] => ⟨r.log, .fault .endless⟩
        | _ :: budget =>
          ((iterate label step budget rest).mapOutcome (Outcome.map (v :: ·))).after r.log

/-- The entries that close a traced run. -/
def closing (label : Text) (pos : Position) : Outcome α → List Entry
  | .success _ rest => [.succeeded label pos rest.pos]
  | .failure f => [.failed label pos f.message]
  | .fault _ => []

/-- The run between its opening and its closing entry. -/
def traced (label : Text) (pos : Position) (r : Run α) : Run α :=
  ⟨.began label pos :: r.log ++ closing label pos r.outcome, r.outcome⟩

end Run

/-- How references are answered: the label under which a rule is called, and its name. -/
abbrev Call (ρ : Type) (τ : ρ → Type) : Type := Text → (r : ρ) → Cursor → Run (τ r)

namespace Parser

variable {ρ : Type} {τ : ρ → Type}

/-- Takes one accepted character. -/
def takeChar (accepts : Char → Bool) (label : Text) (c : Cursor) : Outcome Char :=
  match c.next with
  | none => .failure (.here label .noMoreInput c)
  | some (x, rest) =>
    if accepts x then .success x rest else .failure (.here label (.unexpected x) c)

/-- Looks at the next character without taking it. -/
def lookAhead (refuses : Char → Bool) (label : Text) (c : Cursor) : Outcome Unit :=
  match c.next with
  | none => .success () c
  | some (x, _) => if refuses x then .failure (.here label (.unexpected x) c) else .success () c

/-- Takes the last line feed, and fails before anything else. -/
def takeEnd (c : Cursor) : Outcome Unit :=
  match c.next with
  | none => .success () c
  | some (x, rest) =>
    if x = '\n' ∧ rest.atEnd then .success () rest
    else .failure (.here (utf8 "end of input") (.unexpected x) c)

/-- **Runs a parser at a cursor**, with references answered by `call`. -/
def run {α : Type} (level : Level) (call : Call ρ τ) : Parser ρ τ α → Cursor → Run α
  | .satisfy accepts label, c => .quiet (takeChar accepts label c)
  | .notFollowedBy refuses label, c => .quiet (lookAhead refuses label c)
  | .endOfInput, c => .quiet (takeEnd c)
  | .succeed _ value, c => .quiet (.success value c)
  | .map p f, c => (p.run level call c).mapOutcome (Outcome.map f)
  | .bind p f, c => (p.run level call c).andThen fun v rest => (f v).run level call rest
  | .orElse p q, c => (p.run level call c).orElse fun _ => q.run level call c
  | .many p, c => Run.iterate p.label (fun d => p.run level call d) c.ahead c
  | .named p _, c => p.run level call c
  | .relabel p label, c => (p.run level call c).mapOutcome (Outcome.relabel label)
  | .trace p, c =>
    let r := p.run level call c
    if level.isVerbose then r.traced p.label c.pos else r
  | .ref label r, c => call label r c
  | .custom _ step, c => .quiet (step c)
  | .raise _ e, _ => .quiet (.fault e)

end Parser

/-- **The rules of a grammar**: a parser for each name that has one, and a bound on the number
of names. -/
structure Rules (ρ : Type) (τ : ρ → Type) where
  find : (r : ρ) → Option (Parser ρ τ (τ r))
  count : Nat

namespace Rules

variable {ρ : Type} {τ : ρ → Type}

/-- Answers references to the rules, nested at most `depth` deep. -/
def call (R : Rules ρ τ) (level : Level) : Nat → Call ρ τ
  | 0 => fun _ _ _ => .quiet (.fault .endless)
  | depth + 1 => fun label r c =>
    match R.find r with
    | none => .quiet (.fault (.unresolved label))
    | some p => p.run level (R.call level depth) c

/-- A depth that suffices. Calls only move forward, so calls nested deeper than this would
repeat a rule at the place where it already runs, and never end. -/
def depth (R : Rules ρ τ) (c : Cursor) : Nat := (R.count + 1) * (c.ahead.length + 1)

/-- No rules at all. -/
def none : Rules ρ τ := ⟨fun _ => .none, 0⟩

end Rules

namespace Parser

variable {ρ : Type} {τ : ρ → Type}

/-- **Runs a parser under rules.** -/
def runWith {α : Type} (R : Rules ρ τ) (level : Level) (p : Parser ρ τ α) (c : Cursor) : Run α :=
  p.run level (R.call level (R.depth c)) c

/-- Parses a text from its beginning, without a log. -/
def parse {α : Type} (R : Rules ρ τ) (p : Parser ρ τ α) (t : Text) : Outcome α :=
  (p.runWith R .info (.ofText t)).outcome

end Parser

end Descent
