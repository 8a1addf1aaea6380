import Descent.Proofs.Json.Relaxed.Conservative
import Descent.Proofs.Json.RoundTrip

/-!
# Canonical texts are stable

Whatever text a value was parsed from, strictly or in the relaxed way, the value
is **expressible**: its strings and keys are well-formed, because they were made
from characters, its numbers are numbers, because every literal denotes one, and
its members are in order. An expressible value is what its canonical text is
parsed to. So the canonical text is the same for all texts with one value, and
different for texts with different values.

* `expressible_of_value`: what the syntax derives is expressible.
* `Expressible.exists_parse_text`: an expressible value comes back from its text.
* `text_stable`: what this says about texts that are parsed.
-/

namespace Descent

namespace Json

open Syntax

/-- **An expressible value** can be told from its canonical text. -/
structure Expressible (v : Json) : Prop where
  canonical : v.Canonical
  wellFormed : v.WellFormed
  noNaN : v.NoNaN

/-! ## Building expressible values -/

namespace Expressible

theorem null : Expressible .null where
  canonical := .null
  wellFormed := ⟨nofun, nofun⟩
  noNaN := noNaN_null

theorem bool (b : Bool) : Expressible (.bool b) where
  canonical := .bool b
  wellFormed := ⟨nofun, nofun⟩
  noNaN := noNaN_bool b

theorem number {x : Binary64} (h : ¬ x.IsNaN) : Expressible (.number x) where
  canonical := .number x
  wellFormed := ⟨nofun, nofun⟩
  noNaN := noNaN_number.2 h

/-- A well-formed string is expressible. -/
theorem string {t : Text} (h : Utf8.isValid t = true) : Expressible (.string t) where
  canonical := .string t
  wellFormed := by
    refine ⟨fun s hs => ?_, nofun⟩
    cases hs
    exact h
  noNaN := noNaN_string t

/-- An array of expressible values is expressible. -/
theorem array {es : List Json} (h : ∀ e ∈ es, Expressible e) : Expressible (.array es) where
  canonical := .array fun e he => (h e he).canonical
  wellFormed := by
    refine ⟨fun t ht => ?_, fun ms hms => ?_⟩
    · cases ht with
      | element he ht => exact (h _ he).wellFormed.string t ht
    · cases hms with
      | element he hms => exact (h _ he).wellFormed.key ms hms
  noNaN := noNaN_array.2 fun e he => (h e he).noNaN

/-- An object is expressible if its keys are well-formed and in order and its values expressible. -/
theorem object {ms : Descent.Members} (hs : ms.Sorted)
    (hk : ∀ k ∈ ms.keys, Utf8.isValid k = true) (h : ∀ m ∈ ms, Expressible m.2) :
    Expressible (.object ms) where
  canonical := .object hs fun m hm => (h m hm).canonical
  wellFormed := by
    refine ⟨fun t ht => ?_, fun ms' hms => ?_⟩
    · cases ht with
      | member hm ht => exact (h _ hm).wellFormed.string t ht
    · cases hms with
      | whole => exact hk
      | member hm hms => exact (h _ hm).wellFormed.key ms' hms
  noNaN := noNaN_object.2 fun m hm => (h m hm).noNaN

end Expressible

/-! ## What the syntax derives -/

/-- A string of the syntax is well-formed, as it was made from characters. -/
theorem isValid_of_quoted {w : List Char} {t : Text} (h : Quoted w t) : Utf8.isValid t = true := by
  cases h with
  | intro _ _ => exact Utf8.isValid_encode _

/-- Each element has a text. -/
theorem exists_value_of_mem_elements {w : List Char} {vs : List Json} (h : Elements w vs) {v : Json}
    (hv : v ∈ vs) : ∃ w', Value w' v := by
  obtain ⟨_, w', _, -, hvalue, -⟩ := (Relaxed.separated_of_elements h).exists_of_mem hv
  exact ⟨w', hvalue⟩

/-- Each member has a text, of its key and of its value. -/
theorem exists_value_of_mem_members {w : List Char} {ms : List (Text × Json)}
    (h : Syntax.Members w ms) {m : Text × Json} (hm : m ∈ ms) :
    ∃ k w', Quoted k m.1 ∧ Value w' m.2 := by
  obtain ⟨_, _, _, -, hcore, -⟩ := (Relaxed.separated_of_members h).exists_of_mem hm
  obtain ⟨k, _, _, w', -, hk, -, -, hvalue⟩ := hcore
  exact ⟨k, w', hk, hvalue⟩

/-- **What the syntax derives is expressible.** -/
theorem expressible_of_value {w : List Char} {v : Json} (h : Value w v) : v.Expressible := by
  -- a part of the value was derived from a part of the text, whichever one it was
  induction v using Json.induction generalizing w with
  | null => exact .null
  | bool b => exact .bool b
  | number x =>
    cases h with
    | number _ hx => exact .number (Binary64.not_isNaN_of_ofLiteral? hx)
  | string t =>
    cases h with
    | string hq => exact .string (isValid_of_quoted hq)
  | array es ih =>
    cases h with
    | emptyArray _ => exact .array nofun
    | array _ hes =>
      refine .array fun e he => ?_
      obtain ⟨w', hw'⟩ := exists_value_of_mem_elements hes he
      exact ih e he hw'
  | object ms ih =>
    cases h with
    | emptyObject _ => exact .object Members.sorted_nil nofun nofun
    | object _ hms hc =>
      have hpart (m : Text × Json) (hm : m ∈ ms) : ∃ k w', Quoted k m.1 ∧ Value w' m.2 :=
        exists_value_of_mem_members hms (Members.mem_of_collects hc hm)
      refine .object hc.1 (fun k hk => ?_) fun m hm => ?_
      · obtain ⟨m, hm, rfl⟩ := List.mem_map.1 hk
        obtain ⟨_, _, hq, -⟩ := hpart m hm
        exact isValid_of_quoted hq
      · obtain ⟨_, w', -, hw'⟩ := hpart m hm
        exact ih m hm hw'

/-- What is parsed is expressible. -/
theorem expressible_of_parse {t : Text} {v : Json} {rest : Cursor}
    (h : parse t = .success v rest) : v.Expressible := by
  have hdocument := document_of_parse_success h
  generalize sourceChars t = s at hdocument
  obtain ⟨-, hv, -⟩ := hdocument
  exact expressible_of_value hv

/-! ## Canonical texts -/

namespace Expressible

variable {v w : Json}

/-- **An expressible value comes back from its text.** -/
theorem exists_parse_text (h : v.Expressible) : ∃ rest, parse v.text = .success v rest := by
  apply exists_parse_success
  have hdocument := document_render h.canonical h.noNaN
  rwa [← sourceChars_text, repair_eq_self h.canonical h.wellFormed] at hdocument

/-- Expressible values with the same text are the same. -/
theorem eq_of_text_eq (hv : v.Expressible) (hw : w.Expressible) (h : v.text = w.text) : v = w := by
  obtain ⟨rest, hrest⟩ := hv.exists_parse_text
  obtain ⟨rest', hrest'⟩ := hw.exists_parse_text
  rw [← h, hrest] at hrest'
  exact (Outcome.success.inj hrest').1

end Expressible

/-- **Canonical texts are stable.** Take two texts that are parsed, each strictly or in the relaxed
way. The strings and keys of the value are well-formed, its numbers are numbers and its members
are in order; its text is parsed to that very value again; and the texts of the two values are the
same if and only if the values are, member for member and bit for bit. -/
theorem text_stable {standardize : Text → Option Text} {t t' : Text} {v v' : Json}
    {rest rest' : Cursor}
    (h : parse t = .success v rest ∨ parseRelaxedBy standardize t = .success v rest)
    (h' : parse t' = .success v' rest' ∨ parseRelaxedBy standardize t' = .success v' rest') :
    v.WellFormed ∧ v.NoNaN ∧ v.Canonical ∧
      (∃ last, parse v.text = .success v last) ∧
      (v.text = v'.text ↔ v = v') := by
  have hexpressible {t : Text} {v : Json} {rest : Cursor}
      (h : parse t = .success v rest ∨ parseRelaxedBy standardize t = .success v rest) :
      v.Expressible := by
    rcases h with h | h
    · exact expressible_of_parse h
    -- the relaxed way parses some other text
    · exact expressible_of_parse h
  have hv := hexpressible h
  have hv' := hexpressible h'
  refine ⟨hv.wellFormed, hv.noNaN, hv.canonical, hv.exists_parse_text, hv.eq_of_text_eq hv', ?_⟩
  rintro rfl
  rfl

/-- A success with the right text can be checked. -/
theorem exists_success_of_text {o : Outcome Json} {t : Text}
    (h : (match o with | .success v _ => v.text == t | _ => false) = true) :
    ∃ v rest, o = .success v rest ∧ v.text = t := by
  cases o with
  | success v rest => exact ⟨v, rest, rfl, eq_of_beq h⟩
  | failure f => cases h
  | fault e => cases h

/-- Two spellings of minus zero, the second one in an object with a comment, a member that does
not count and a trailing comma. Zero itself is another value. -/
theorem text_stable_zeros :
    ∃ v v' v'' rest rest' rest'',
      parse (utf8 " \x7b \"k\" : -0.0 \x7d") = .success v rest ∧
      parseRelaxedBy Relaxed.standardize? (utf8 "\x7b\"k\":0,/**/\"k\":-0e7,\x7d") =
        .success v' rest' ∧
      parse (utf8 "\x7b\"k\":0\x7d") = .success v'' rest'' ∧ v = v' ∧ v ≠ v'' := by
  obtain ⟨v, rest, hv, ht⟩ : ∃ v rest,
      parse (utf8 " \x7b \"k\" : -0.0 \x7d") = .success v rest ∧
        v.text = utf8 "\x7b\"k\":-0\x7d" := exists_success_of_text (by decide +kernel)
  obtain ⟨v', rest', hv', ht'⟩ : ∃ v rest,
      parseRelaxedBy Relaxed.standardize? (utf8 "\x7b\"k\":0,/**/\"k\":-0e7,\x7d") =
        .success v rest ∧
        v.text = utf8 "\x7b\"k\":-0\x7d" := exists_success_of_text (by decide +kernel)
  obtain ⟨v'', rest'', hv'', ht''⟩ : ∃ v rest,
      parse (utf8 "\x7b\"k\":0\x7d") = .success v rest ∧
        v.text = utf8 "\x7b\"k\":0\x7d" := exists_success_of_text (by decide +kernel)
  have hsame := (text_stable (.inl hv) (.inr hv')).2.2.2.2
  have hother := (@text_stable Relaxed.standardize? _ _ _ _ _ _ (.inl hv) (.inl hv'')).2.2.2.2
  refine ⟨v, v', v'', rest, rest', rest'', hv, hv', hv'', hsame.1 (ht.trans ht'.symm), ?_⟩
  rw [Ne, ← hother, ht, ht'']
  decide

end Json

end Descent
