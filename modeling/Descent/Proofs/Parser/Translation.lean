import Descent.Parser.Combinator

/-!
# Translating parsers

A **translation** takes the parsers of one grammar to parsers of another one, part
by part, and keeps their labels. The label of a derived parser is made from those
of its parts, so to translate what was derived is to derive it from the
translated parts.

What becomes of references, of tracing and of foreign parts is left to each
translation. **Grafting** puts parsers of another grammar in the place of
references: the run is the same, with the references answered by those parsers.

* `Translation`: what all translations have in common, with a lemma for each
  derived parser.
* `run_graft`: the run of a parser whose references were replaced.
-/

namespace Descent.Parser

variable {ρ σ : Type} {τ : ρ → Type} {υ : σ → Type} {α β γ : Type}

/-- **A translation of parsers** from one grammar into another. -/
structure Translation (ρ : Type) (τ : ρ → Type) (σ : Type) (υ : σ → Type) where
  image : {α : Type} → Parser ρ τ α → Parser σ υ α
  label : ∀ {α : Type} (p : Parser ρ τ α), (image p).label = p.label
  satisfy : ∀ accepts label, image (.satisfy accepts label) = .satisfy accepts label
  notFollowedBy : ∀ refuses label,
    image (.notFollowedBy refuses label) = .notFollowedBy refuses label
  endOfInput : image .endOfInput = .endOfInput
  succeed : ∀ {α : Type} (label : Text) (v : α), image (.succeed label v) = .succeed label v
  map : ∀ {α β : Type} (p : Parser ρ τ α) (f : α → β), image (p.map f) = (image p).map f
  bind : ∀ {α β : Type} (p : Parser ρ τ α) (f : α → Parser ρ τ β),
    image (p.bind f) = (image p).bind fun v => image (f v)
  orElse : ∀ {α : Type} (p q : Parser ρ τ α), image (p.orElse q) = (image p).orElse (image q)
  many : ∀ {α : Type} (p : Parser ρ τ α), image p.many = (image p).many
  named : ∀ {α : Type} (p : Parser ρ τ α) (label : Text),
    image (p.named label) = (image p).named label
  relabel : ∀ {α : Type} (p : Parser ρ τ α) (label : Text),
    image (p.relabel label) = (image p).relabel label
  raise : ∀ {α : Type} (label : Text) (e : Fault),
    image (.raise label e : Parser ρ τ α) = .raise label e

namespace Translation

variable (φ : Translation ρ τ σ υ)

attribute [simp] label satisfy notFollowedBy endOfInput succeed map bind orElse many named relabel
  raise

/-! ## Derived parsers -/

section Derived

variable (p : Parser ρ τ α) (q : Parser ρ τ β)

/-- A test of one character is translated to itself. -/
@[simp]
theorem char (x : Char) : φ.image (Parser.char x) = Parser.char x := φ.satisfy _ _

/-- Two parsers in sequence are translated one by one. -/
@[simp]
theorem andThen : φ.image (p.andThen q) = (φ.image p).andThen (φ.image q) := by
  simp [Parser.andThen]

@[simp]
theorem left : φ.image (p.left q) = (φ.image p).left (φ.image q) := by simp [Parser.left]

@[simp]
theorem right : φ.image (p.right q) = (φ.image p).right (φ.image q) := by simp [Parser.right]

@[simp]
theorem apply (f : Parser ρ τ (α → β)) : φ.image (f.apply p) = (φ.image f).apply (φ.image p) := by
  simp [Parser.apply]

@[simp]
theorem lift2 (f : α → β → γ) :
    φ.image (Parser.lift2 f p q) = Parser.lift2 f (φ.image p) (φ.image q) := by
  simp [Parser.lift2]

@[simp]
theorem between (o : Parser ρ τ γ) :
    φ.image (Parser.between o p q) = Parser.between (φ.image o) (φ.image p) (φ.image q) := by
  simp [Parser.between]

@[simp]
theorem many1 : φ.image p.many1 = (φ.image p).many1 := by simp [Parser.many1]

@[simp]
theorem optional : φ.image (Parser.optional p) = Parser.optional (φ.image p) := by
  simp [Parser.optional]

@[simp]
theorem sepBy1 : φ.image (p.sepBy1 q) = (φ.image p).sepBy1 (φ.image q) := by simp [Parser.sepBy1]

@[simp]
theorem sepBy : φ.image (p.sepBy q) = (φ.image p).sepBy (φ.image q) := by simp [Parser.sepBy]

/-- A choice is translated one alternative after the other. -/
@[simp]
theorem choice (ps : List (Parser ρ τ α)) :
    φ.image (Parser.choice ps) = Parser.choice (ps.map φ.image) := by
  have hfold (ps : List (Parser ρ τ α)) (p : Parser ρ τ α) :
      φ.image (ps.foldl Parser.orElse p) = (ps.map φ.image).foldl Parser.orElse (φ.image p) := by
    induction ps generalizing p with
    | nil => rfl
    | cons q ps ih => rw [List.foldl_cons, ih, orElse, List.map_cons, List.foldl_cons]
  cases ps with
  | nil => exact φ.raise _ _
  | cons p ps => exact hfold ps p

theorem inOrder (ps : List (Parser ρ τ α)) :
    φ.image (Parser.inOrder ps) = Parser.inOrder (ps.map φ.image) := by
  induction ps with
  | nil => exact φ.succeed _ _
  | cons p ps ih => simp [Parser.inOrder, ih]

/-- A sequence is translated one member after the other. -/
@[simp]
theorem sequence (ps : List (Parser ρ τ α)) :
    φ.image (Parser.sequence ps) = Parser.sequence (ps.map φ.image) := by
  simp [Parser.sequence, inOrder]

/-- Characters are no matter of a grammar. -/
theorem map_char (cs : List Char) :
    (cs.map Parser.char).map φ.image = (cs.map Parser.char : List (Parser σ υ Char)) := by
  rw [List.map_map]
  exact List.map_congr_left fun x _ => φ.char x

@[simp]
theorem anyOf (chars : Text) : φ.image (Parser.anyOf chars) = Parser.anyOf chars := by
  simp only [Parser.anyOf, relabel, choice, map_char]

@[simp]
theorem literal (t : Text) : φ.image (Parser.literal t) = Parser.literal t := by
  simp only [Parser.literal, named, map, sequence, map_char]

/-- A conversion that may raise a fault is kept. -/
@[simp]
theorem mapOrRaise (f : α → Except Fault β) :
    φ.image (p.mapOrRaise f) = (φ.image p).mapOrRaise f := by
  simp only [Parser.mapOrRaise, named, bind, label]
  congr 2
  funext v
  cases f v with
  | ok w => exact φ.succeed _ _
  | error e => exact φ.raise _ _

end Derived

end Translation

/-! ## Grafting -/

/-- **A parser with other parsers in the place of its references**, in what follows a value too. -/
def graft (f : Text → (r : ρ) → Parser σ υ (τ r)) {α : Type} : Parser ρ τ α → Parser σ υ α
  | .satisfy accepts label => .satisfy accepts label
  | .notFollowedBy refuses label => .notFollowedBy refuses label
  | .endOfInput => .endOfInput
  | .succeed label value => .succeed label value
  | .map p g => .map (p.graft f) g
  | .bind p g => .bind (p.graft f) fun v => (g v).graft f
  | .orElse p q => .orElse (p.graft f) (q.graft f)
  | .many p => .many (p.graft f)
  | .named p label => .named (p.graft f) label
  | .relabel p label => .relabel (p.graft f) label
  | .trace p => .trace (p.graft f)
  | .ref label r => f label r
  | .custom label step => .custom label step
  | .raise label e => .raise label e

variable {f : Text → (r : ρ) → Parser σ υ (τ r)}

/-- What stands in the place of a reference has to have its label. -/
theorem label_graft (hf : ∀ label r, (f label r).label = label) (p : Parser ρ τ α) :
    (p.graft f).label = p.label := by
  induction p with
  | map p g ih => exact ih
  | orElse p q ihp ihq => simp only [graft, Parser.label, ihp, ihq]
  | many p ih => simp only [graft, Parser.label, ih]
  | trace p ih => exact ih
  | ref label r => exact hf label r
  | _ => rfl

/-- **Grafting is a translation.** -/
def grafting (f : Text → (r : ρ) → Parser σ υ (τ r)) (hf : ∀ label r, (f label r).label = label) :
    Translation ρ τ σ υ where
  image := graft f
  label := label_graft hf
  satisfy _ _ := rfl
  notFollowedBy _ _ := rfl
  endOfInput := rfl
  succeed _ _ := rfl
  map _ _ := rfl
  bind _ _ := rfl
  orElse _ _ := rfl
  many _ := rfl
  named _ _ := rfl
  relabel _ _ := rfl
  raise _ _ := rfl

/-- **The run of a parser with others in the place of its references**: they answer the calls. -/
theorem run_graft (hf : ∀ label r, (f label r).label = label) (p : Parser ρ τ α) (level : Level)
    (call : Call σ υ) (c : Cursor) :
    (p.graft f).run level call c =
      p.run level (fun label r d => (f label r).run level call d) c := by
  induction p generalizing c with
  | map p g ih => simp only [graft, run, ih]
  | bind p g ihp ihg => simp only [graft, run, ihp, ihg]
  | orElse p q ihp ihq => simp only [graft, run, ihp, ihq]
  | many p ih => simp only [graft, run, ih, label_graft hf]
  | named p label ih => exact ih c
  | relabel p label ih => simp only [graft, run, ih]
  | trace p ih => simp only [graft, run, ih, label_graft hf]
  | _ => rfl

end Descent.Parser
