import Descent.Proofs.Decimal.Literal
import Descent.Proofs.Json.Acceptance
import Descent.Proofs.Source.Forward

/-!
# The rule for numbers at a cursor

A literal of a number has no end of its own, so the rule for numbers depends on
what follows. It takes a literal exactly if what follows does not go on with it,
and of all the literals that the characters ahead begin with there is at most one
such. Where there is none the rule fails: it never falls back on a shorter literal.

* `isDelimited_parts`: what may follow, by the parts of a literal.
* `numberAt_unique`: the literal ahead of a cursor is determined.
* `number_exact`: where the rule succeeds, on which characters, and with what value.
-/

namespace Descent.Json

open Descent.Parser Syntax Grammar

/-! ## Where a literal ends -/

/-- A literal has a fraction if it has a point. -/
def HasFraction (w : List Char) : Prop := '.' ∈ w

/-- A literal has an exponent if it has the mark of one, of either case. -/
def HasExponent (w : List Char) : Prop := 'e' ∈ w ∨ 'E' ∈ w

/-- **What follows does not go on with a literal.** A point would go on with a literal that has
neither fraction nor exponent, and the mark of an exponent with one that has no exponent. -/
structure IsDelimited (w rest : List Char) : Prop where
  digit : ∀ x ∈ rest.head?, x.isDigit = false
  point : ¬ HasFraction w → ¬ HasExponent w → rest.head? ≠ some '.'
  mark : ¬ HasExponent w → rest.head? ≠ some 'e' ∧ rest.head? ≠ some 'E'

/-- **The literal of a number comes first**, and nothing that follows goes on with it. -/
def NumberAt (s w : List Char) : Prop := ∃ rest, s = w ++ rest ∧ Number w ∧ IsDelimited w rest

section Parts

variable {sg wh fr ex rest : List Char}

theorem not_mem_of_digits {x : Char} (hx : x.isDigit = false) {ds : List Char}
    (hd : ∀ y ∈ ds, y.isDigit = true) : x ∉ ds := by
  intro hm
  rw [hd x hm] at hx
  cases hx

theorem not_mem_sign {x : Char} (hx : x ≠ '-') (hs : Sign sg) : x ∉ sg := by
  rcases hs with rfl | rfl <;> simp [hx]

/-- The point of a literal is that of its fraction. -/
theorem hasFraction_parts (hs : Sign sg) (hw : Whole wh) (hf : Fraction fr) (he : Exponent ex) :
    HasFraction (sg ++ wh ++ fr ++ ex) ↔ fr ≠ [] := by
  have hsign : '.' ∉ sg := not_mem_sign (by decide) hs
  have hwhole : '.' ∉ wh := not_mem_of_digits (by decide) (digits_of_whole hw).2
  have hexp : '.' ∉ ex := by
    rcases he with rfl | ⟨mark, sign, ds, rfl, hm, hsg, hd⟩
    · simp
    · have hds : '.' ∉ ds := not_mem_of_digits (by decide) hd.2
      rcases hm with rfl | rfl <;> rcases hsg with rfl | rfl | rfl <;> simp [hds]
  have hfrac : '.' ∈ fr ↔ fr ≠ [] := by
    rcases hf with rfl | ⟨ds, rfl, -⟩ <;> simp
  simp [HasFraction, hsign, hwhole, hexp, hfrac]

/-- The mark of a literal is that of its exponent. -/
theorem hasExponent_parts (hs : Sign sg) (hw : Whole wh) (hf : Fraction fr) (he : Exponent ex) :
    HasExponent (sg ++ wh ++ fr ++ ex) ↔ ex ≠ [] := by
  have hmem {x : Char} (hd : x.isDigit = false) (hminus : x ≠ '-') (hpoint : x ≠ '.') :
      x ∈ sg ++ wh ++ fr ++ ex ↔ x ∈ ex := by
    have hfrac : x ∉ fr := by
      rcases hf with rfl | ⟨ds, rfl, hds⟩
      · simp
      · simp [hpoint, not_mem_of_digits hd hds.2]
    simp [not_mem_sign hminus hs, not_mem_of_digits hd (digits_of_whole hw).2, hfrac]
  have hexp : 'e' ∈ ex ∨ 'E' ∈ ex ↔ ex ≠ [] := by
    rcases he with rfl | ⟨mark, sign, ds, rfl, rfl | rfl, -⟩ <;> simp
  unfold HasExponent
  rw [hmem (by decide) (by decide) (by decide), hmem (by decide) (by decide) (by decide), hexp]

/-- To go on with an exponent, one of its two marks has to come next. -/
theorem stops_isMark_iff :
    Stops isMark rest ↔ rest.head? ≠ some 'e' ∧ rest.head? ≠ some 'E' := by
  cases rest with
  | nil => simp [stops_nil]
  | cons x rest => simp [Stops, isMark]

/-- **What may follow a literal**, said of the whole of it or of its parts. -/
theorem isDelimited_parts (hs : Sign sg) (hw : Whole wh) (hf : Fraction fr) (he : Exponent ex) :
    IsDelimited (sg ++ wh ++ fr ++ ex) rest ↔ NumberEnds fr ex rest := by
  have hfrac : ¬ HasFraction (sg ++ wh ++ fr ++ ex) ↔ fr = [] := by
    rw [hasFraction_parts hs hw hf he, Decidable.not_not]
  have hexp : ¬ HasExponent (sg ++ wh ++ fr ++ ex) ↔ ex = [] := by
    rw [hasExponent_parts hs hw hf he, Decidable.not_not]
  constructor
  · rintro ⟨hdigit, hpoint, hmark⟩
    rw [hfrac, hexp] at hpoint
    rw [hexp] at hmark
    refine ⟨hdigit, ?_, ?_⟩
    · exact fun h h' => stops_beq_iff.2 (hpoint h h')
    · exact fun h => stops_isMark_iff.2 (hmark h)
  · rintro ⟨hdigit, hpoint, hmark⟩
    refine ⟨hdigit, ?_, ?_⟩
    · rw [hfrac, hexp]
      exact fun h h' => stops_beq_iff.1 (hpoint h h')
    · rw [hexp]
      exact fun h => stops_isMark_iff.1 (hmark h)

end Parts

/-! ## Reading the literal -/

section Reading

variable {ρ : Type} {τ : ρ → Type} {answer : Answer ρ τ} {s w rest : List Char}

/-- The four parts of a literal. -/
def numberParts : Parser ρ τ (List (List Char)) := sequence [sign, whole, fraction, exponent]

/-- The rule for numbers puts the parts together again, and takes the number that they denote. -/
theorem number_eq : (Grammar.number : Parser ρ τ Json) =
    (numberParts.map fun parts => numberOf parts.flatten).relabel (utf8 "number") := rfl

/-- A literal that ends before `rest` is taken, and its parts are the whole of it. -/
theorem read_literal (ha : answer.Within) (hw : Number w) (hd : IsDelimited w rest) :
    (∃ parts, (numberParts : Parser ρ τ _).read answer (w ++ rest) = .took parts rest ∧
      parts.flatten = w) ∧
    ∃ x, Binary64.ofLiteral? w = some x ∧
      (Grammar.number : Parser ρ τ Json).read answer (w ++ rest) = .took (.number x) rest := by
  obtain ⟨x, hx⟩ := exists_ofLiteral? hw
  obtain ⟨sg, wh, fr, ex, rfl, hs, hwh, hf, he⟩ := hw
  have hend := (isDelimited_parts hs hwh hf he).1 hd
  constructor
  · refine ⟨[sg, wh, fr, ex], ?_, by simp⟩
    simp only [List.append_assoc]
    exact read_parts_append ha hs hwh hf he hend
  · refine ⟨x, hx, ?_⟩
    rw [read_number_append ha hs hwh hf he hend, numberOf_eq hx]

/-- What the rule for numbers takes is a literal that ends where the rule does. -/
theorem numberAt_of_read (ha : answer.Within) {v : Json}
    (h : (Grammar.number : Parser ρ τ Json).read answer s = .took v rest) : ∃ w, NumberAt s w := by
  obtain ⟨sg, wh, fr, ex, rfl, -, hs, hwh, hf, he, hend⟩ := number_of_read ha h
  refine ⟨_, rest, rfl, ⟨sg, wh, fr, ex, rfl, hs, hwh, hf, he⟩, ?_⟩
  exact (isDelimited_parts hs hwh hf he).2 hend

end Reading

/-- **The literal ahead is determined.** -/
theorem numberAt_unique {s w w' : List Char} (h : NumberAt s w) (h' : NumberAt s w') : w = w' := by
  -- one and the same reading ends after both
  have ha := rules.within_answer 0
  obtain ⟨rest, rfl, hw, hd⟩ := h
  obtain ⟨rest', he, hw', hd'⟩ := h'
  obtain ⟨-, x, -, hread⟩ := read_literal ha hw hd
  obtain ⟨-, x', -, hread'⟩ := read_literal ha hw' hd'
  rw [he, hread'] at hread
  obtain ⟨-, rfl⟩ := Reading.took.inj hread
  exact List.append_cancel_right he

/-! ## The outcome at a cursor -/

section Cursor

variable (level : Level) {c : Cursor} {w : List Char}

theorem standard_numberParts : (numberParts : Parser Unit RuleType _).Standard := by
  have h : (Grammar.number : Parser Unit RuleType Json).Standard := standard_number
  rw [number_eq] at h
  exact h

/-- The rule for numbers reads the characters `w` at a cursor: they are what its four parts give
together, they denote a number, and the cursor goes on by as many characters as they are. -/
structure ReadsNumber (level : Level) (c : Cursor) (w : List Char) : Prop where
  parts : ∃ parts, (numberParts.runWith rules level c).outcome = .success parts (c.skip w.length) ∧
    parts.flatten = w
  value : ∃ x, Binary64.ofLiteral? w = some x ∧ ¬ x.IsNaN ∧
    ((Kind.number.parser self).runWith rules level c).outcome =
      .success (.number x) (c.skip w.length)

/-- Where a literal stands, the rule for numbers takes it. -/
theorem readsNumber_of_numberAt (h : NumberAt c.ahead w) : ReadsNumber level c w := by
  obtain ⟨rest, hc, hw, hd⟩ := h
  obtain ⟨⟨parts, hparts, hflat⟩, x, hx, hread⟩ :=
    read_literal (rules.within_answer (rules.depth c)) hw hd
  refine ⟨⟨parts, ?_, hflat⟩, x, hx, Binary64.not_isNaN_of_ofLiteral? hx, ?_⟩
  · rw [outcome_runWith standard_numberParts standard_rules, hc, hparts, Reading.outcome_took,
      Cursor.upTo_append hc]
  · rw [outcome_runWith (standard_kind standard_self .number) standard_rules, hc]
    show ((Grammar.number : Parser Unit RuleType Json).read _ _).outcome c = _
    rw [hread, Reading.outcome_took, Cursor.upTo_append hc]

/-- Without a literal ahead that ends, the rule fails under its own label. -/
theorem number_fails (h : ¬ ∃ w, NumberAt c.ahead w) :
    ∃ f, ((Kind.number.parser self).runWith rules level c).outcome = .failure f ∧
      f.label = utf8 "number" := by
  have ha := rules.within_answer (rules.depth c)
  rw [outcome_runWith (standard_kind standard_self .number) standard_rules]
  show ∃ f, ((Grammar.number : Parser Unit RuleType Json).read _ _).outcome c = _ ∧ _
  rcases Reading.sane_iff.1 (sane_number ha c.ahead) with ⟨v, rest, hread⟩ | ⟨l, rest, hread⟩
  · exact absurd (numberAt_of_read ha hread) h
  · rw [hread]
    exact ⟨_, rfl, Reading.label_of_relabel hread⟩

end Cursor

/-- **What the rule for numbers does at a cursor.** It succeeds exactly if a literal comes first
that nothing goes on with. That literal is determined, it is what the rule reads, and it always
denotes a number. Everywhere else the rule fails under its own label. -/
theorem number_exact (level : Level) (c : Cursor) :
    ((∃ v rest, ((Kind.number.parser self).runWith rules level c).outcome = .success v rest) ↔
      ∃ w, NumberAt c.ahead w) ∧
    (∀ w, NumberAt c.ahead w → (∀ w', NumberAt c.ahead w' → w' = w) ∧ ReadsNumber level c w) ∧
    ((¬ ∃ w, NumberAt c.ahead w) →
      ∃ f, ((Kind.number.parser self).runWith rules level c).outcome = .failure f ∧
        f.label = utf8 "number") := by
  refine ⟨⟨?_, ?_⟩, ?_, number_fails level⟩
  · rintro ⟨v, rest, h⟩
    refine Classical.byContradiction fun hnone => ?_
    obtain ⟨f, hf, -⟩ := number_fails level hnone
    rw [h] at hf
    cases hf
  · rintro ⟨w, hw⟩
    obtain ⟨x, -, -, hrun⟩ := (readsNumber_of_numberAt level hw).value
    exact ⟨_, _, hrun⟩
  · exact fun w hw => ⟨fun w' hw' => numberAt_unique hw' hw, readsNumber_of_numberAt level hw⟩

end Descent.Json
