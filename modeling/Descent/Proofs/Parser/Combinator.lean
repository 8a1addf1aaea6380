import Descent.Parser.Combinator
import Descent.Proofs.Parser.Read

/-!
# Readings of the derived parsers

What each derived parser reads, in terms of what its parts read, and that it is
standard if they are. A grammar is proved about through these lemmas, without
opening a combinator again.

* `Inherited`: a property that passes from parts to the whole, with a lemma for
  each derived parser.
* `read_choice_cons`: a choice tries its first alternative, then the others.
* `read_anyOf`: a choice between characters is a test of one character.
* `read_literal_append`, `read_literal_refused`: a literal takes its characters,
  and refuses whatever does not begin with them.
* `read_many_of_readChar`: a repeated test takes the longest run that passes it.
* `sane_many`: a repetition of something that moves on has no fault.
-/

namespace Descent.Parser

variable {ρ : Type} {τ : ρ → Type} {α β γ : Type}

/-! ## Properties of parts -/

/-- **A property of parsers that passes from parts to the whole**, and holds where there are no
foreign parts. -/
structure Inherited (P : {α : Type} → Parser ρ τ α → Prop) : Prop where
  standard : ∀ {α : Type} {p : Parser ρ τ α}, p.Standard → P p
  map : ∀ {α β : Type} {p : Parser ρ τ α} (f : α → β), P p → P (p.map f)
  bind : ∀ {α β : Type} {p : Parser ρ τ α} {f : α → Parser ρ τ β},
    P p → (∀ v, P (f v)) → P (p.bind f)
  orElse : ∀ {α : Type} {p q : Parser ρ τ α}, P p → P q → P (p.orElse q)
  many : ∀ {α : Type} {p : Parser ρ τ α}, P p → P p.many
  named : ∀ {α : Type} {p : Parser ρ τ α} (label : Text), P p → P (p.named label)
  relabel : ∀ {α : Type} {p : Parser ρ τ α} (label : Text), P p → P (p.relabel label)
  trace : ∀ {α : Type} {p : Parser ρ τ α}, P p → P p.trace

/-- To be standard is to have standard parts. -/
theorem inherited_standard : @Inherited ρ τ Parser.Standard where
  standard := id
  map _ := id
  bind := And.intro
  orElse := And.intro
  many := id
  named _ := id
  relabel _ := id
  trace := id

namespace Inherited

variable {P : {α : Type} → Parser ρ τ α → Prop} (hP : Inherited P)
variable {p : Parser ρ τ α} {q : Parser ρ τ β}

include hP

/-- A property of two parsers is one of both in sequence. -/
theorem andThen (hp : P p) (hq : P q) : P (p.andThen q) :=
  hP.named _ (hP.bind hp fun _ => hP.bind hq fun _ => hP.standard trivial)

theorem left (hp : P p) (hq : P q) : P (p.left q) := hP.map _ (hP.andThen hp hq)

theorem right (hp : P p) (hq : P q) : P (p.right q) := hP.map _ (hP.andThen hp hq)

theorem lift2 (f : α → β → γ) (hp : P p) (hq : P q) : P (Parser.lift2 f p q) :=
  hP.map _ (hP.andThen (hP.map f hp) hq)

theorem between {o : Parser ρ τ γ} (ho : P o) (hp : P p) (hq : P q) :
    P (Parser.between o p q) :=
  hP.left (hP.right ho hp) hq

/-- A property of all alternatives is one of their choice. -/
theorem choice {ps : List (Parser ρ τ α)} (hps : ∀ p ∈ ps, P p) : P (Parser.choice ps) := by
  have hfold (ps : List (Parser ρ τ α)) (hps : ∀ p ∈ ps, P p) (p : Parser ρ τ α) (hp : P p) :
      P (ps.foldl Parser.orElse p) := by
    induction ps generalizing p with
    | nil => exact hp
    | cons q ps ih =>
      obtain ⟨hq, hps⟩ := List.forall_mem_cons.1 hps
      exact ih hps _ (hP.orElse hp hq)
  cases ps with
  | nil => exact hP.standard trivial
  | cons p ps =>
    obtain ⟨hp, hps⟩ := List.forall_mem_cons.1 hps
    exact hfold ps hps p hp

/-- A property of all members is one of their sequence. -/
theorem sequence {ps : List (Parser ρ τ α)} (hps : ∀ p ∈ ps, P p) : P (Parser.sequence ps) := by
  refine hP.named _ ?_
  induction ps with
  | nil => exact hP.standard trivial
  | cons p ps ih =>
    obtain ⟨hp, hps⟩ := List.forall_mem_cons.1 hps
    exact hP.bind hp fun v => hP.map _ (ih hps)

/-- A property of a parser is one of its repetition. -/
theorem many1 (hp : P p) : P p.many1 := hP.named _ (hP.bind hp fun _ => hP.map _ (hP.many hp))

theorem optional (hp : P p) : P (Parser.optional p) :=
  hP.named _ (hP.orElse (hP.map _ hp) (hP.standard trivial))

/-- A property of items and separators is one of separated items. -/
theorem sepBy1 (hp : P p) (hq : P q) : P (p.sepBy1 q) :=
  hP.map _ (hP.andThen hp (hP.many (hP.right hq hp)))

theorem sepBy (hp : P p) (hq : P q) : P (p.sepBy q) :=
  hP.orElse (hP.sepBy1 hp hq) (hP.standard trivial)

end Inherited

/-! ## Standard parsers -/

section Standard

variable {p : Parser ρ τ α} {q : Parser ρ τ β}

theorem Standard.andThen (hp : p.Standard) (hq : q.Standard) : (p.andThen q).Standard :=
  inherited_standard.andThen hp hq

theorem Standard.left (hp : p.Standard) (hq : q.Standard) : (p.left q).Standard :=
  inherited_standard.left hp hq

theorem Standard.right (hp : p.Standard) (hq : q.Standard) : (p.right q).Standard :=
  inherited_standard.right hp hq

theorem Standard.lift2 (f : α → β → γ) (hp : p.Standard) (hq : q.Standard) :
    (Parser.lift2 f p q).Standard :=
  inherited_standard.lift2 f hp hq

theorem Standard.between {o : Parser ρ τ γ} {c : Parser ρ τ β} (ho : o.Standard) (hp : p.Standard)
    (hc : c.Standard) : (Parser.between o p c).Standard :=
  inherited_standard.between ho hp hc

theorem Standard.choice {ps : List (Parser ρ τ α)} (hps : ∀ q ∈ ps, q.Standard) :
    (Parser.choice ps).Standard :=
  inherited_standard.choice hps

theorem Standard.sequence {ps : List (Parser ρ τ α)} (hps : ∀ q ∈ ps, q.Standard) :
    (Parser.sequence ps).Standard :=
  inherited_standard.sequence hps

theorem standard_char (x : Char) : (char x : Parser ρ τ Char).Standard := trivial

theorem forall_standard_char (cs : List Char) :
    ∀ q ∈ cs.map (char : Char → Parser ρ τ Char), q.Standard := by
  intro q hq
  obtain ⟨x, -, rfl⟩ := List.mem_map.1 hq
  exact standard_char x

theorem standard_anyOf (chars : Text) : (anyOf chars : Parser ρ τ Char).Standard :=
  Standard.choice (forall_standard_char _)

theorem standard_literal (t : Text) : (literal t : Parser ρ τ Text).Standard :=
  Standard.sequence (forall_standard_char _)

theorem Standard.many1 (hp : p.Standard) : p.many1.Standard := inherited_standard.many1 hp

theorem Standard.manyChars {p : Parser ρ τ Char} (hp : p.Standard) : (manyChars p).Standard := hp

theorem Standard.manyChars1 {p : Parser ρ τ Char} (hp : p.Standard) : (manyChars1 p).Standard :=
  hp.many1

theorem Standard.optional (hp : p.Standard) : (Parser.optional p).Standard :=
  inherited_standard.optional hp

theorem Standard.sepBy1 (hp : p.Standard) (hq : q.Standard) : (p.sepBy1 q).Standard :=
  inherited_standard.sepBy1 hp hq

theorem Standard.sepBy (hp : p.Standard) (hq : q.Standard) : (p.sepBy q).Standard :=
  inherited_standard.sepBy hp hq

theorem standard_spaces : (spaces : Parser ρ τ Text).Standard := trivial

theorem standard_spaces1 : (spaces1 : Parser ρ τ Text).Standard :=
  Standard.manyChars1 (p := whitespace) trivial

/-- A conversion that may raise a fault is a standard one. -/
theorem Standard.mapOrRaise (hp : p.Standard) (f : α → Except Fault β) :
    (p.mapOrRaise f).Standard := by
  refine ⟨hp, fun v => ?_⟩
  dsimp only
  split <;> trivial

end Standard

/-! ## One after the other -/

section Read

variable {answer : Answer ρ τ}

theorem read_map (p : Parser ρ τ α) (f : α → β) (s : List Char) :
    (p.map f).read answer s = (p.read answer s).map f := rfl

theorem read_bind (p : Parser ρ τ α) (f : α → Parser ρ τ β) (s : List Char) :
    (p.bind f).read answer s =
      (p.read answer s).andThen fun v rest => (f v).read answer rest := rfl

theorem read_orElse (p q : Parser ρ τ α) (s : List Char) :
    (p.orElse q).read answer s = (p.read answer s).orElse fun _ => q.read answer s := rfl

theorem read_relabel (p : Parser ρ τ α) (label : Text) (s : List Char) :
    (p.relabel label).read answer s = (p.read answer s).relabel label := rfl

/-- Both parsers are read, one after the other. -/
theorem read_andThen (p : Parser ρ τ α) (q : Parser ρ τ β) (s : List Char) :
    (p.andThen q).read answer s =
      (p.read answer s).andThen fun a rest => (q.read answer rest).map fun b => (a, b) := by
  change ((p.read answer s).andThen fun a rest =>
    (q.read answer rest).andThen fun b rest' => .took (a, b) rest') = _
  simp only [Reading.andThen_eq_map]

theorem read_left (p : Parser ρ τ α) (q : Parser ρ τ β) (s : List Char) :
    (p.left q).read answer s =
      (p.read answer s).andThen fun a rest => (q.read answer rest).map fun _ => a := by
  unfold left
  rw [read_map, read_andThen, Reading.map_andThen]
  simp only [Reading.map_map]

theorem read_right (p : Parser ρ τ α) (q : Parser ρ τ β) (s : List Char) :
    (p.right q).read answer s =
      (p.read answer s).andThen fun _ rest => q.read answer rest := by
  unfold right
  rw [read_map, read_andThen, Reading.map_andThen]
  simp only [Reading.map_map]
  congr 1
  funext a rest
  cases q.read answer rest <;> rfl

/-- Both are read, and the two values are put together. -/
theorem read_lift2 (f : α → β → γ) (p : Parser ρ τ α) (q : Parser ρ τ β) (s : List Char) :
    (lift2 f p q).read answer s =
      (p.read answer s).andThen fun a rest => (q.read answer rest).map (f a) := by
  unfold lift2 apply
  rw [read_map, read_andThen, Reading.map_andThen, read_map, Reading.andThen_map]
  simp only [Reading.map_map]

theorem read_between (o : Parser ρ τ α) (p : Parser ρ τ β) (c : Parser ρ τ γ) (s : List Char) :
    (between o p c).read answer s =
      (o.read answer s).andThen fun _ rest =>
        (p.read answer rest).andThen fun v rest' => (c.read answer rest').map fun _ => v := by
  unfold between
  rw [read_left, read_right, Reading.andThen_assoc]

/-- A value is converted, or the fault in converting it is raised. -/
theorem read_mapOrRaise (p : Parser ρ τ α) (f : α → Except Fault β) (s : List Char) :
    (p.mapOrRaise f).read answer s =
      (p.read answer s).andThen fun v rest => .ofExcept rest (f v) := by
  change ((p.read answer s).andThen fun v rest => _) = _
  congr 1
  funext v rest
  dsimp only
  cases f v <;> rfl

theorem read_optional (p : Parser ρ τ α) (s : List Char) :
    (optional p).read answer s =
      ((p.read answer s).map some).orElse fun _ => .took none s := rfl

theorem read_many1 (p : Parser ρ τ α) (s : List Char) :
    p.many1.read answer s =
      (p.read answer s).andThen fun v rest => (p.many.read answer rest).map (v :: ·) := rfl

/-- Separated items are an item, then separators, each with an item behind it. -/
theorem read_sepBy1 (p : Parser ρ τ α) (sep : Parser ρ τ β) (s : List Char) :
    (p.sepBy1 sep).read answer s =
      (p.read answer s).andThen fun v rest =>
        ((sep.right p).many.read answer rest).map (v :: ·) := by
  unfold sepBy1
  rw [read_map, read_andThen, Reading.map_andThen]
  simp only [Reading.map_map]

theorem read_sepBy (p : Parser ρ τ α) (sep : Parser ρ τ β) (s : List Char) :
    (p.sepBy sep).read answer s = ((p.sepBy1 sep).read answer s).orElse fun _ => .took [] s := rfl

theorem read_sequence_nil (s : List Char) :
    (sequence ([] : List (Parser ρ τ α))).read answer s = .took [] s := rfl

theorem read_sequence_cons (p : Parser ρ τ α) (ps : List (Parser ρ τ α)) (s : List Char) :
    (sequence (p :: ps)).read answer s =
      (p.read answer s).andThen fun v rest => ((sequence ps).read answer rest).map (v :: ·) := rfl

theorem sane_sequence {ps : List (Parser ρ τ α)} (h : ∀ p ∈ ps, ∀ s, (p.read answer s).Sane)
    (s : List Char) : ((sequence ps).read answer s).Sane := by
  induction ps generalizing s with
  | nil => trivial
  | cons p ps ih =>
    rw [read_sequence_cons]
    refine (h p List.mem_cons_self s).andThen fun v rest _ => ?_
    exact (ih (fun q hq => h q (List.mem_cons_of_mem _ hq)) rest).map _

/-! ## Choices -/

/-- Alternatives are read as they are, whatever reading the first one is known by. -/
theorem read_foldl_orElse_congr {p q : Parser ρ τ α} (ps : List (Parser ρ τ α)) {s : List Char}
    (h : p.read answer s = q.read answer s) :
    (ps.foldl Parser.orElse p).read answer s = (ps.foldl Parser.orElse q).read answer s := by
  induction ps generalizing p q with
  | nil => exact h
  | cons q' ps ih => exact ih (by rw [read_orElse, read_orElse, h])

/-- The first of several alternatives may be split off. -/
theorem read_foldl_orElse (p q : Parser ρ τ α) (ps : List (Parser ρ τ α)) (s : List Char) :
    (ps.foldl Parser.orElse (p.orElse q)).read answer s =
      (p.read answer s).orElse fun _ => (ps.foldl Parser.orElse q).read answer s := by
  induction ps generalizing q with
  | nil => rfl
  | cons q' ps ih =>
    rw [List.foldl_cons, List.foldl_cons, ← ih (q.orElse q')]
    exact read_foldl_orElse_congr ps (Reading.orElse_assoc _ _ _)

/-- **A choice tries its first alternative**, and the others where that has failed. -/
theorem read_choice_cons (p q : Parser ρ τ α) (ps : List (Parser ρ τ α)) (s : List Char) :
    (choice (p :: q :: ps)).read answer s =
      (p.read answer s).orElse fun _ => (choice (q :: ps)).read answer s :=
  read_foldl_orElse p q ps s

theorem read_choice_singleton (p : Parser ρ τ α) (s : List Char) :
    (choice [p]).read answer s = p.read answer s := rfl

/-- A choice that succeeds does so by one of its alternatives. -/
theorem exists_of_choice_eq_took {ps : List (Parser ρ τ α)} {s rest : List Char} {v : α}
    (h : (choice ps).read answer s = .took v rest) : ∃ p ∈ ps, p.read answer s = .took v rest := by
  induction ps with
  | nil => cases h
  | cons p ps ih =>
    cases ps with
    | nil => exact ⟨p, List.mem_cons_self, h⟩
    | cons q ps =>
      rw [read_choice_cons, Reading.orElse_eq_took] at h
      rcases h with h | ⟨-, h⟩
      · exact ⟨p, List.mem_cons_self, h⟩
      · obtain ⟨p', hp', hr⟩ := ih h
        exact ⟨p', List.mem_cons_of_mem _ hp', hr⟩

/-- A choice that fails does so by its last alternative. -/
theorem last_of_choice_eq_refused {ps : List (Parser ρ τ α)} {p : Parser ρ τ α} {s rest : List Char}
    {label : Text} (h : (choice (ps ++ [p])).read answer s = .refused label rest) :
    p.read answer s = .refused label rest := by
  cases ps with
  | nil => exact h
  | cons q ps =>
    have hchoice : choice (q :: ps ++ [p]) = (ps.foldl Parser.orElse q).orElse p :=
      List.foldl_append
    rw [hchoice, read_orElse] at h
    exact (Reading.orElse_eq_refused.1 h).2

/-- A choice succeeds by one of its alternatives if each of them agrees or fails. -/
theorem read_choice_of_took {ps : List (Parser ρ τ α)} {s rest : List Char} {v : α}
    (hp : ∃ p ∈ ps, p.read answer s = .took v rest)
    (hps : ∀ q ∈ ps, q.read answer s = .took v rest ∨ (q.read answer s).IsRefused) :
    (choice ps).read answer s = .took v rest := by
  induction ps with
  | nil =>
    obtain ⟨p, hp, -⟩ := hp
    cases hp
  | cons q ps ih =>
    cases ps with
    | nil =>
      obtain ⟨p, hp, h⟩ := hp
      rwa [List.mem_singleton.1 hp] at h
    | cons q' ps =>
      rw [read_choice_cons]
      rcases hps q List.mem_cons_self with h | h
      · rw [h, Reading.orElse_took]
      · rw [h.orElse_eq]
        refine ih ?_ fun q'' hq'' => hps q'' (List.mem_cons_of_mem _ hq'')
        obtain ⟨p, hp, ht⟩ := hp
        rcases List.mem_cons.1 hp with rfl | hp
        · obtain ⟨l, r, hr⟩ := h
          rw [hr] at ht
          cases ht
        · exact ⟨p, hp, ht⟩

/-- A choice refuses what all of its alternatives refuse. -/
theorem isRefused_choice {ps : List (Parser ρ τ α)} (hne : ps ≠ []) {s : List Char}
    (h : ∀ p ∈ ps, (p.read answer s).IsRefused) : ((choice ps).read answer s).IsRefused := by
  induction ps with
  | nil => exact absurd rfl hne
  | cons p ps ih =>
    cases ps with
    | nil => exact h p List.mem_cons_self
    | cons q ps =>
      rw [read_choice_cons, (h p List.mem_cons_self).orElse_eq]
      exact ih (List.cons_ne_nil q ps) fun p' hp' => h p' (List.mem_cons_of_mem _ hp')

/-- A choice has no fault if none of its alternatives has one. -/
theorem sane_choice {ps : List (Parser ρ τ α)} (hne : ps ≠ []) {s : List Char}
    (h : ∀ p ∈ ps, (p.read answer s).Sane) : ((choice ps).read answer s).Sane := by
  induction ps with
  | nil => exact absurd rfl hne
  | cons p ps ih =>
    cases ps with
    | nil => exact h p List.mem_cons_self
    | cons q ps =>
      rw [read_choice_cons]
      exact (h p List.mem_cons_self).orElse
        (ih (List.cons_ne_nil q ps) fun p' hp' => h p' (List.mem_cons_of_mem _ hp'))

/-! ## Characters -/

theorem read_char (x : Char) (s : List Char) :
    (char x : Parser ρ τ Char).read answer s = readChar (· == x) (Utf8.encodeChar x) s := rfl

theorem readChar_cons_of {accepts : Char → Bool} {x : Char} (h : accepts x = true) (label : Text)
    (s : List Char) : readChar accepts label (x :: s) = .took x s := by
  rw [readChar, if_pos h]

theorem readChar_cons_of_not {accepts : Char → Bool} {x : Char} (h : accepts x = false)
    (label : Text) (s : List Char) : readChar accepts label (x :: s) = .refused label (x :: s) := by
  rw [readChar, if_neg (by simp [h])]

/-- What was taken is the next character, and it passes the test. -/
theorem readChar_eq_took {accepts : Char → Bool} {label : Text} {s rest : List Char} {x : Char} :
    readChar accepts label s = .took x rest ↔ s = x :: rest ∧ accepts x = true := by
  cases s with
  | nil => simp [readChar]
  | cons y s =>
    rw [readChar]
    split
    · rename_i h
      constructor
      · intro he
        cases he
        exact ⟨rfl, h⟩
      · rintro ⟨he, -⟩
        cases he
        rfl
    · rename_i h
      simp only [reduceCtorEq, List.cons.injEq, false_iff]
      rintro ⟨⟨rfl, -⟩, h'⟩
      exact h h'

theorem sane_readChar (accepts : Char → Bool) (label : Text) (s : List Char) :
    (readChar accepts label s).Sane := by
  cases s with
  | nil => trivial
  | cons x s => rw [readChar]; split <;> trivial

/-- The choice between the characters of a list accepts those characters. -/
theorem read_choice_char {x : Char} {cs : List Char} (s : List Char) (label : Text) :
    ((choice ((x :: cs).map char) : Parser ρ τ Char).read answer s).relabel label =
      readChar (fun y => (x :: cs).contains y) label s := by
  induction cs generalizing x with
  | nil =>
    rw [List.map_singleton, read_choice_singleton, read_char]
    cases s with
    | nil => rfl
    | cons y s => by_cases h : y = x <;> simp [readChar, h]
  | cons x' cs ih =>
    rw [List.map_cons, List.map_cons, read_choice_cons, read_char]
    have ih' := ih (x := x')
    rw [List.map_cons] at ih'
    cases s with
    | nil => exact ih'
    | cons y s =>
      by_cases h : y = x
      · rw [readChar_cons_of (by simp [h]), readChar_cons_of (by simp [h])]
        rfl
      · rw [readChar_cons_of_not (by simp [h]), Reading.orElse_refused, ih']
        simp [readChar, h]

/-- **A choice between characters is a test of one character.** -/
theorem read_anyOf {chars : Text} (h : Utf8.decode chars ≠ []) (s : List Char) :
    (anyOf chars : Parser ρ τ Char).read answer s =
      readChar (fun y => (Utf8.decode chars).contains y) (utf8 "any of " ++ chars) s := by
  obtain ⟨x, cs, hx⟩ := List.exists_cons_of_ne_nil h
  unfold anyOf
  rw [read_relabel, hx]
  exact read_choice_char s _

/-! ## Literals -/

/-- Characters in sequence are taken where they stand. -/
theorem read_sequence_char_append (cs rest : List Char) :
    (sequence (cs.map char) : Parser ρ τ (List Char)).read answer (cs ++ rest) =
      .took cs rest := by
  induction cs with
  | nil => rfl
  | cons x cs ih =>
    rw [List.map_cons, read_sequence_cons, List.cons_append, read_char,
      readChar_cons_of (by simp), Reading.andThen_took, ih]
    rfl

/-- Characters in sequence are refused where they do not stand. -/
theorem read_sequence_char_refused {cs s : List Char} (h : ¬ cs <+: s) :
    ((sequence (cs.map char) : Parser ρ τ (List Char)).read answer s).IsRefused := by
  induction cs generalizing s with
  | nil => exact absurd (List.nil_prefix) h
  | cons x cs ih =>
    rw [List.map_cons, read_sequence_cons, read_char]
    cases s with
    | nil => exact Reading.isRefused_refused _ _
    | cons y s =>
      by_cases hy : y = x
      · subst hy
        have h' : ¬ cs <+: s := fun hp => h (List.cons_prefix_cons.2 ⟨rfl, hp⟩)
        rw [readChar_cons_of (by simp), Reading.andThen_took]
        exact (ih h').map _
      · rw [readChar_cons_of_not (by simp [hy])]
        exact Reading.isRefused_refused _ _

/-- **A literal takes its characters.** -/
theorem read_literal_append (t : Text) (rest : List Char) :
    (literal t : Parser ρ τ Text).read answer (Utf8.decode t ++ rest) =
      .took (Utf8.encode (Utf8.decode t)) rest := by
  change ((sequence ((Utf8.decode t).map char)).read answer _).map _ = _
  rw [read_sequence_char_append]
  rfl

/-- **A literal refuses** what does not begin with its characters. -/
theorem read_literal_refused {t : Text} {s : List Char} (h : ¬ Utf8.decode t <+: s) :
    ((literal t : Parser ρ τ Text).read answer s).IsRefused :=
  (read_sequence_char_refused h).map Utf8.encode

/-- What was taken for a literal is that literal. -/
theorem read_literal_eq_took {t v : Text} {s rest : List Char}
    (h : (literal t : Parser ρ τ Text).read answer s = .took v rest) :
    s = Utf8.decode t ++ rest := by
  by_cases hp : Utf8.decode t <+: s
  · obtain ⟨r, rfl⟩ := hp
    rw [read_literal_append] at h
    cases h
    rfl
  · have hr : ((literal t : Parser ρ τ Text).read answer s).IsRefused := read_literal_refused hp
    obtain ⟨l, r, hr⟩ := hr
    rw [hr] at h
    cases h

theorem sane_literal (t : Text) (s : List Char) :
    ((literal t : Parser ρ τ Text).read answer s).Sane := by
  by_cases hp : Utf8.decode t <+: s
  · obtain ⟨r, rfl⟩ := hp
    rw [read_literal_append]
    trivial
  · exact (read_literal_refused hp).sane

/-! ## Repetition -/

/-- A repetition ends where the repeated parser fails. -/
theorem read_many_of_refused (ha : answer.Within) {p : Parser ρ τ α} {s : List Char}
    (h : (p.read answer s).IsRefused) : p.many.read answer s = .took [] s := by
  obtain ⟨l, rest, hr⟩ := h
  rw [read_many ha, hr]

/-- A repetition goes on after a round that takes something. -/
theorem read_many_of_took (ha : answer.Within) {p : Parser ρ τ α} {s rest : List Char} {v : α}
    (h : p.read answer s = .took v rest) (hne : rest ≠ s) :
    p.many.read answer s = (p.many.read answer rest).map (v :: ·) := by
  rw [read_many ha, h]
  exact if_neg hne

/-- **A repeated test of one character takes the longest run that passes it.** -/
theorem read_many_of_readChar (ha : answer.Within) {p : Parser ρ τ Char} {accepts : Char → Bool}
    {label : Text} (h : ∀ s, p.read answer s = readChar accepts label s) (s : List Char) :
    p.many.read answer s = .took (s.takeWhile accepts) (s.dropWhile accepts) := by
  induction s with
  | nil => exact read_many_of_refused ha ⟨_, _, h []⟩
  | cons x s ih =>
    by_cases hx : accepts x = true
    · have hr : p.read answer (x :: s) = .took x s := by rw [h, readChar_cons_of hx]
      rw [read_many_of_took ha hr (List.cons_ne_self x s).symm, ih,
        List.takeWhile_cons_of_pos hx, List.dropWhile_cons_of_pos hx]
      rfl
    · have hr : p.read answer (x :: s) = .refused label (x :: s) := by
        rw [h, readChar_cons_of_not (by simpa using hx)]
      rw [read_many_of_refused ha ⟨_, _, hr⟩, List.takeWhile_cons_of_neg hx,
        List.dropWhile_cons_of_neg hx]

/-- **A repetition of something that moves on has no fault.** -/
theorem sane_many (ha : answer.Within) {p : Parser ρ τ α} {s : List Char}
    (hs : ∀ r, r <:+ s → (p.read answer r).Sane)
    (hne : ∀ r v rest, r <:+ s → p.read answer r = .took v rest → rest ≠ r) :
    (p.many.read answer s).Sane := by
  -- the characters left become fewer with each round
  induction hn : s.length using Nat.strongRecOn generalizing s with
  | ind n ih =>
    subst hn
    rcases Reading.sane_iff.1 (hs s (List.suffix_refl s)) with ⟨v, rest, hr⟩ | hr
    · have hne' := hne s v rest (List.suffix_refl s) hr
      have hsuf : rest <:+ s := by
        have := within_read ha p s
        rw [hr] at this
        exact this
      have hlt : rest.length < s.length :=
        Nat.lt_of_le_of_ne hsuf.length_le fun hl => hne' (hsuf.eq_of_length hl)
      rw [read_many_of_took ha hr hne']
      exact (ih rest.length hlt (fun r h => hs r (h.trans hsuf))
        (fun r v' rest' h => hne r v' rest' (h.trans hsuf)) rfl).map _
    · rw [read_many_of_refused ha hr]
      trivial

/-- **The rounds of a repetition**: from `s`, a parser takes the values `vs` one after the
other, something at each, and then `rest` is left. -/
inductive Rounds (answer : Answer ρ τ) (p : Parser ρ τ α) :
    List Char → List α → List Char → Prop where
  | nil (s : List Char) : Rounds answer p s [] s
  | cons {s rest last : List Char} {v : α} {vs : List α} :
      p.read answer s = .took v rest → rest ≠ s → Rounds answer p rest vs last →
      Rounds answer p s (v :: vs) last

/-- **A repetition that succeeds** has taken rounds, up to a place where the parser fails. -/
theorem rounds_of_many {p : Parser ρ τ α} (ha : answer.Within) {s rest : List Char}
    {vs : List α} (h : p.many.read answer s = .took vs rest) :
    Rounds answer p s vs rest ∧ (p.read answer rest).IsRefused := by
  -- on the values, since a repetition that has none ends with its first round
  induction vs generalizing s with
  | nil =>
    rw [read_many ha] at h
    cases hr : p.read answer s with
    | took v r =>
      rw [hr] at h
      dsimp only at h
      split at h
      · cases h
      · obtain ⟨_, _, hv⟩ := Reading.map_eq_took.1 h
        cases hv
    | refused l r =>
      rw [hr] at h
      cases h
      exact ⟨.nil _, l, r, hr⟩
    | stuck l r => rw [hr] at h; cases h
    | broken e => rw [hr] at h; cases h
  | cons v vs ih =>
    rw [read_many ha] at h
    cases hr : p.read answer s with
    | took w r =>
      rw [hr] at h
      dsimp only at h
      split at h
      · cases h
      · rename_i hne
        obtain ⟨vs', hm, hv⟩ := Reading.map_eq_took.1 h
        obtain ⟨rfl, rfl⟩ := List.cons.inj hv
        obtain ⟨hc, hl⟩ := ih hm
        exact ⟨.cons hr hne hc, hl⟩
    | refused l r => rw [hr] at h; cases h
    | stuck l r => rw [hr] at h; cases h
    | broken e => rw [hr] at h; cases h

theorem not_isRefused_many (p : Parser ρ τ α) (s : List Char) :
    ¬ (p.many.read answer s).IsRefused :=
  Reading.not_isRefused_repeated _ _ s s

/-! ## Lists with separators -/

section Separated

variable {p : Parser ρ τ α} {sep : Parser ρ τ β}

/-- After a separator, the rounds go on with a list. -/
theorem read_many_right_of_sepBy1 (ha : answer.Within) {s s' rest : List Char} {x : β}
    {vs : List α} (hsep : sep.read answer s = .took x s') (hlt : s'.length < s.length)
    (h : (p.sepBy1 sep).read answer s' = .took vs rest) :
    (sep.right p).many.read answer s = .took vs rest := by
  rw [read_sepBy1, Reading.andThen_eq_took] at h
  obtain ⟨v, r, hp, h⟩ := h
  have hround : (sep.right p).read answer s = .took v r := by
    rw [read_right, hsep, Reading.andThen_took, hp]
  have hsuf : r <:+ s' := by
    have := within_read ha p s'
    rwa [hp] at this
  have hne : r ≠ s := by
    rintro rfl
    exact absurd hsuf.length_le (by omega)
  rw [read_many_of_took ha hround hne, h]

/-- A list is empty, or it has a first element and rounds of a separator and an element. -/
theorem sepBy_of_read (ha : answer.Within) {s rest : List Char} {vs : List α}
    (h : (p.sepBy sep).read answer s = .took vs rest) :
    (vs = [] ∧ rest = s) ∨ ∃ v vs' r, vs = v :: vs' ∧ p.read answer s = .took v r ∧
      Rounds answer (sep.right p) r vs' rest := by
  rw [read_sepBy, Reading.orElse_eq_took] at h
  rcases h with h | ⟨-, h⟩
  · rw [read_sepBy1, Reading.andThen_eq_took] at h
    obtain ⟨v, r, hp, h⟩ := h
    obtain ⟨vs', hm, rfl⟩ := Reading.map_eq_took.1 h
    exact .inr ⟨v, vs', r, rfl, hp, (rounds_of_many ha hm).1⟩
  · cases h
    exact .inl ⟨rfl, rfl⟩

theorem not_isRefused_sepBy (p : Parser ρ τ α) (sep : Parser ρ τ β) (s : List Char) :
    ¬ ((p.sepBy sep).read answer s).IsRefused := by
  rw [read_sepBy]
  rintro ⟨l, r, h⟩
  cases hr : (p.sepBy1 sep).read answer s with
  | _ => rw [hr] at h; cases h

/-- **Where a list ends**, no item comes first, or no separator with an item after it. -/
theorem isRefused_of_sepBy (ha : answer.Within) {s rest : List Char} {vs : List α}
    (h : (p.sepBy sep).read answer s = .took vs rest) :
    (vs = [] ∧ (p.read answer rest).IsRefused) ∨
      (vs ≠ [] ∧ ((sep.right p).read answer rest).IsRefused) := by
  rw [read_sepBy, Reading.orElse_eq_took] at h
  rcases h with h | ⟨hr, h⟩
  · rw [read_sepBy1, Reading.andThen_eq_took] at h
    obtain ⟨v, r, -, h⟩ := h
    obtain ⟨vs', hm, rfl⟩ := Reading.map_eq_took.1 h
    exact .inr ⟨List.cons_ne_nil v vs', (rounds_of_many ha hm).2⟩
  · cases h
    refine .inl ⟨rfl, ?_⟩
    -- after an item, the list would not have failed
    rw [read_sepBy1] at hr
    cases hp : p.read answer s with
    | took v r =>
      rw [hp, Reading.andThen_took] at hr
      exact absurd (Reading.isRefused_of_map hr) (not_isRefused_many _ r)
    | refused l r => exact ⟨l, r, rfl⟩
    | stuck l r =>
      rw [hp] at hr
      obtain ⟨_, _, hr⟩ := hr
      cases hr
    | broken e =>
      rw [hp] at hr
      obtain ⟨_, _, hr⟩ := hr
      cases hr

/-- **A list whose separators take something has no fault** if its parts have none. -/
theorem sane_sepBy (ha : answer.Within) {s : List Char}
    (hp : ∀ r, r <:+ s → (p.read answer r).Sane) (hs : ∀ r, (sep.read answer r).Sane)
    (hlt : ∀ r x rest, sep.read answer r = .took x rest → rest.length < r.length) :
    ((p.sepBy sep).read answer s).Sane := by
  have hwithin (r : List Char) (v : α) (rest : List Char) (h : p.read answer r = .took v rest) :
      rest <:+ r := by
    have := within_read ha p r
    rwa [h] at this
  rw [read_sepBy, read_sepBy1]
  refine Reading.Sane.orElse ?_ trivial
  refine (hp s (List.suffix_refl s)).andThen fun v r hr => Reading.Sane.map ?_ _
  have hrs : r <:+ s := hwithin s v r hr
  refine sane_many ha (fun r' hr' => ?_) fun r' v' rest hr' hround => ?_
  · rw [read_right]
    refine (hs r').andThen fun x rest hx => hp rest (List.IsSuffix.trans ?_ (hr'.trans hrs))
    have := within_read ha sep r'
    rwa [hx] at this
  · rw [read_right, Reading.andThen_eq_took] at hround
    obtain ⟨x, m, hx, hm⟩ := hround
    have h1 := hlt r' x m hx
    have h2 := (hwithin m v' rest hm).length_le
    rintro rfl
    omega

end Separated

end Read

end Descent.Parser
