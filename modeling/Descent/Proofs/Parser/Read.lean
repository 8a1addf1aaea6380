import Descent.Proofs.Parser.Reading

/-!
# What a parser makes of the characters ahead

Apart from what it logs and from the positions in its answers, a parser without
foreign parts is a function of the characters ahead. `Parser.read` is that
function: it runs an expression on a sequence of characters. Grammars are easier
to reason about in this form, since neither cursors nor logs occur in it.

* `within_read`: what is left is a suffix of what there was.
* `read_many`: a repetition unfolds by one round.
* `leadsTo_answer`: more depth keeps an answer that has ended.
-/

namespace Descent

/-- How references are answered on sequences of characters. -/
abbrev Answer (ρ : Type) (τ : ρ → Type) : Type := Text → (r : ρ) → List Char → Reading (τ r)

/-- Answers leave suffixes of what they are given. -/
def Answer.Within {ρ : Type} {τ : ρ → Type} (answer : Answer ρ τ) : Prop :=
  ∀ label r s, (answer label r s).Within s

namespace Parser

variable {ρ : Type} {τ : ρ → Type} {α : Type}

/-- **A parser is standard** if no part of it is a function from outside. -/
def Standard {α : Type} : Parser ρ τ α → Prop
  | .map p _ => p.Standard
  | .bind p f => p.Standard ∧ ∀ v, (f v).Standard
  | .orElse p q => p.Standard ∧ q.Standard
  | .many p => p.Standard
  | .named p _ => p.Standard
  | .relabel p _ => p.Standard
  | .trace p => p.Standard
  | .custom _ _ => False
  | _ => True

/-- Takes one accepted character. -/
def readChar (accepts : Char → Bool) (label : Text) : List Char → Reading Char
  | [] => .refused label []
  | x :: rest => if accepts x then .took x rest else .refused label (x :: rest)

/-- Looks at the next character without taking it. -/
def readAhead (refuses : Char → Bool) (label : Text) : List Char → Reading Unit
  | [] => .took () []
  | x :: rest => if refuses x then .refused label (x :: rest) else .took () (x :: rest)

/-- Takes the last line feed. -/
def readEnd : List Char → Reading Unit
  | [] => .took () []
  | x :: rest =>
    if x = '\n' ∧ rest = [] then .took () rest else .refused (utf8 "end of input") (x :: rest)

/-- **Reads a sequence of characters by a parser**, with references answered by `answer`. A
function from outside may look at more than the characters, so it has no reading. -/
def read {α : Type} (answer : Answer ρ τ) : Parser ρ τ α → List Char → Reading α
  | .satisfy accepts label, s => readChar accepts label s
  | .notFollowedBy refuses label, s => readAhead refuses label s
  | .endOfInput, s => readEnd s
  | .succeed _ value, s => .took value s
  | .map p f, s => (p.read answer s).map f
  | .bind p f, s => (p.read answer s).andThen fun v rest => (f v).read answer rest
  | .orElse p q, s => (p.read answer s).orElse fun _ => q.read answer s
  | .many p, s => Reading.repeated p.label (fun r => p.read answer r) s s
  | .named p _, s => p.read answer s
  | .relabel p label, s => (p.read answer s).relabel label
  | .trace p, s => p.read answer s
  | .ref label r, s => answer label r s
  | .custom _ _, _ => .broken .endless
  | .raise _ e, _ => .broken e

theorem within_readChar (accepts : Char → Bool) (label : Text) (s : List Char) :
    (readChar accepts label s).Within s := by
  cases s with
  | nil => exact List.suffix_refl _
  | cons x rest =>
    rw [readChar]
    split
    · exact List.suffix_cons x rest
    · exact List.suffix_refl _

theorem within_readAhead (refuses : Char → Bool) (label : Text) (s : List Char) :
    (readAhead refuses label s).Within s := by
  cases s with
  | nil => exact List.suffix_refl _
  | cons x rest => rw [readAhead]; split <;> exact List.suffix_refl _

theorem within_readEnd (s : List Char) : (readEnd s).Within s := by
  cases s with
  | nil => exact List.suffix_refl _
  | cons x rest =>
    rw [readEnd]
    split
    · exact List.suffix_cons x rest
    · exact List.suffix_refl _

/-- **What is left is a suffix of what there was.** -/
theorem within_read {answer : Answer ρ τ} (ha : answer.Within) (p : Parser ρ τ α) (s : List Char) :
    (p.read answer s).Within s := by
  induction p generalizing s with
  | satisfy accepts label => exact within_readChar accepts label s
  | notFollowedBy refuses label => exact within_readAhead refuses label s
  | endOfInput => exact within_readEnd s
  | succeed label v => exact List.suffix_refl s
  | map p f ih => exact (ih s).map f
  | bind p f ihp ihf => exact (ihp s).andThen fun v rest => ihf v rest
  | orElse p q ihp ihq => exact (ihp s).orElse (ihq s)
  | many p ih => exact Reading.within_repeated ih s s
  | named p label ih => exact ih s
  | relabel p label ih => exact (ih s).relabel label
  | trace p ih => exact ih s
  | ref label r => exact ha label r s
  | custom label step => trivial
  | raise label e => trivial

/-- **A repetition unfolds by one round.** -/
theorem read_many {answer : Answer ρ τ} (ha : answer.Within) (p : Parser ρ τ α) (s : List Char) :
    p.many.read answer s =
      match p.read answer s with
      | .refused _ _ => .took [] s
      | .stuck l rest => .stuck l rest
      | .broken e => .broken e
      | .took v rest =>
        if rest = s then .stuck p.label s else (p.many.read answer rest).map (v :: ·) :=
  Reading.repeated_eq (fun r => within_read ha p r) s

/-- **Better answers keep a reading that has ended.** -/
theorem leadsTo_read {answer answer' : Answer ρ τ}
    (h : ∀ label r s, (answer label r s).LeadsTo (answer' label r s)) (p : Parser ρ τ α)
    (s : List Char) : (p.read answer s).LeadsTo (p.read answer' s) := by
  induction p generalizing s with
  | satisfy accepts label => exact .refl _
  | notFollowedBy refuses label => exact .refl _
  | endOfInput => exact .refl _
  | succeed label v => exact .refl _
  | map p f ih => exact (ih s).map f
  | bind p f ihp ihf => exact (ihp s).andThen fun v rest => ihf v rest
  | orElse p q ihp ihq => exact (ihp s).orElse (ihq s)
  | many p ih => exact Reading.leadsTo_repeated ih s s
  | named p label ih => exact ih s
  | relabel p label ih => exact (ih s).relabel label
  | trace p ih => exact ih s
  | ref label r => exact h label r s
  | custom label step => exact .refl _
  | raise label e => exact .refl _

end Parser

namespace Rules

variable {ρ : Type} {τ : ρ → Type}

/-- Answers references to the rules on sequences of characters, nested at most `depth` deep. -/
def answer (R : Rules ρ τ) : Nat → Answer ρ τ
  | 0 => fun _ _ _ => .broken .endless
  | depth + 1 => fun label r s =>
    match R.find r with
    | .none => .broken (.unresolved label)
    | some p => p.read (R.answer depth) s

/-- A reference is read by the rule it stands for, one level further down. -/
theorem read_ref_succ {R : Rules ρ τ} {r : ρ} {p : Parser ρ τ (τ r)} (h : R.find r = some p)
    (label : Text) (n : Nat) (s : List Char) :
    (Parser.ref label r).read (R.answer (n + 1)) s = p.read (R.answer n) s := by
  rw [Parser.read, answer]
  dsimp only
  rw [h]

/-- What rules leave is a suffix of what they are given. -/
theorem within_answer (R : Rules ρ τ) (n : Nat) : (R.answer n).Within := by
  induction n with
  | zero => intro label r s; trivial
  | succ n ih =>
    intro label r s
    unfold answer
    split
    · trivial
    · exact Parser.within_read ih _ s

/-- A depth more changes an answer only if the depth had run out. -/
theorem leadsTo_answer_succ (R : Rules ρ τ) (n : Nat) (label : Text) (r : ρ) (s : List Char) :
    (R.answer n label r s).LeadsTo (R.answer (n + 1) label r s) := by
  induction n generalizing label r s with
  | zero => exact .inl rfl
  | succ n ih =>
    unfold answer
    split
    · exact .refl _
    · exact Parser.leadsTo_read ih _ s

/-- **More depth keeps an answer that has ended.** -/
theorem leadsTo_answer (R : Rules ρ τ) {m n : Nat} (h : m ≤ n) (label : Text) (r : ρ)
    (s : List Char) : (R.answer m label r s).LeadsTo (R.answer n label r s) := by
  induction n with
  | zero => rw [Nat.le_zero.1 h]; exact .refl _
  | succ n ih =>
    rcases Nat.eq_or_lt_of_le h with rfl | h
    · exact .refl _
    · exact (ih (by omega)).trans (R.leadsTo_answer_succ n label r s)

/-- Every rule is standard. -/
def Standard (R : Rules ρ τ) : Prop := ∀ r p, R.find r = some p → p.Standard

end Rules

end Descent
