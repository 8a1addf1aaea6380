import Descent.Proofs.Json.Relaxed.Conservative
import Descent.Proofs.Json.Relaxed.Layout

/-!
# Comments and trailing commas change no value

A document is **decorated** by laying out its tokens once more, with comments in
the gaps if one likes, and with a comma before any closing bracket that a value
is before. The standard form of a decorated text writes white space over all of
this, so it is again a layout of the same tokens with white space between them,
and such layouts all stand for the same value.

* `Decorated`: what may stand in a gap.
* `NestedValue.standardized`: a decorated value has a standard form, which is a
  layout of its tokens.
* `parseRelaxedBy_decoration`: relaxed parsing of a decorated document gives the
  value of the document.
-/

namespace Descent.Json

open Relaxed (byte isSpace Extra)

namespace Tokens

/-- **What may stand in a gap** of a decorated text: white space and comments, and between a
value and a closing bracket one comma. -/
inductive Decorated : Gap where
  | extra {before after : Option Token} {e x : Text} : Extra e x → Decorated before after e
  | comma {k k' : Token} {e x e' x' : Text} :
      k.EndsValue → k'.Closes → Extra e x → Extra e' x' →
      Decorated (some k) (some k') (e ++ byte ',' :: e')

/-- **A document and a decoration of it**: two layouts of the tokens of a value. -/
def Decoration (t d : Text) : Prop :=
  ∃ ts, Value ts ∧ LaidOut white ts t ∧ LaidOut Decorated ts d

/-! ## Where no comma can be -/

section Gaps

variable {before after : Option Token} {g : Text}

/-- Before anything but a closing mark, a gap has no comma. -/
theorem Decorated.exists_extra_of_not_closes (h : Decorated before after g)
    (hafter : ∀ k, after = some k → ¬ k.Closes) : ∃ x, Extra g x := by
  cases h with
  | extra he => exact ⟨_, he⟩
  | comma _ hk' _ _ => exact absurd hk' (hafter _ rfl)

/-- After anything but a value, a gap has no comma. -/
theorem Decorated.exists_extra_of_not_endsValue (h : Decorated before after g)
    (hbefore : ∀ k, before = some k → ¬ k.EndsValue) : ∃ x, Extra g x := by
  cases h with
  | extra he => exact ⟨_, he⟩
  | comma hk _ _ _ => exact absurd hk (hbefore _ rfl)

/-- Marks other than closing brackets neither close nor end a value. -/
theorem not_endsValue_mark {x : Char} (hx : x ≠ ']' ∧ x ≠ '}') :
    ¬ (Token.mark x).EndsValue := by
  rintro ((h | h) | ⟨t, h⟩)
  · exact hx.1 (Token.mark.inj h)
  · exact hx.2 (Token.mark.inj h)
  · cases h

/-- A gap before or after a mark that is no closing bracket holds no comma. -/
theorem Decorated.exists_extra_before {x : Char} (hx : x ≠ ']' ∧ x ≠ '}')
    (h : Decorated before (some (.mark x)) g) : ∃ x', Extra g x' := by
  refine h.exists_extra_of_not_closes fun k hk hcloses => ?_
  obtain rfl := Option.some.inj hk
  exact not_endsValue_mark hx (.inl hcloses)

/-- After an opening mark, a comma or a colon, a gap has no comma. -/
theorem Decorated.exists_extra_after {x : Char} (hx : x ≠ ']' ∧ x ≠ '}')
    (h : Decorated (some (.mark x)) after g) : ∃ x', Extra g x' := by
  refine h.exists_extra_of_not_endsValue fun k hk => ?_
  obtain rfl := Option.some.inj hk
  exact not_endsValue_mark hx

end Gaps

/-! ## Standard forms of decorated tokens -/

section Standardized

variable {Form : Text → Text → Prop} {Item : List Token → Prop} {ts : List Token}

/-- **Decorated tokens have a standard form**, up to the gap after the last of them, and it is a
layout of the tokens with white space. -/
def Standardized (Form : Text → Text → Prop) (ts : List Token) : Prop :=
  ∀ after t, Laid Decorated after ts t →
    ∃ s w k e, t = s ++ e ∧ Form s w ∧ Decorated (some k) after e ∧
      ∀ x, (∀ b ∈ x, isSpace b = true) → Laid white after ts (w ++ x)

theorem Standardized.imp {Form' : Text → Text → Prop} (h : Standardized Form ts)
    (himp : ∀ s w, Form s w → Form' s w) : Standardized Form' ts := by
  intro after t hlaid
  obtain ⟨s, w, k, e, ht, hform, hgap, hwhite⟩ := h after t hlaid
  exact ⟨s, w, k, e, ht, himp s w hform, hgap, hwhite⟩

theorem standardized_scalar {t : Text} (h : Form t t) : Standardized Form [.scalar t] := by
  intro after s hlaid
  obtain ⟨g, rfl, hg⟩ := laid_singleton.1 hlaid
  exact ⟨t, t, _, g, rfl, h, hg, fun x hx => laid_singleton.2 ⟨x, rfl, hx⟩⟩

/-- Items keep their standard forms, in a list with or without a trailing comma. -/
theorem Items.standardized (hitem : ∀ ts, Item ts → Standardized Form ts) (h : Items Item ts)
    {after : Option Token} {t : Text} (hlaid : Laid Decorated after ts t) :
    ∃ w, Relaxed.Items Form t w ∧ Laid white after ts w := by
  induction h generalizing t with
  | one hi =>
    obtain ⟨s, w, k, e, rfl, hform, hgap, hwhite⟩ := hitem _ hi after t hlaid
    -- behind the last item there may be a comma, which becomes white space
    cases hgap with
    | extra he => exact ⟨_, .last hform he, hwhite _ he.isSpace_of_mem⟩
    | comma _ _ he he' =>
      refine ⟨_, .trailing hform he he', hwhite _ fun b hb => ?_⟩
      rcases List.mem_append.1 hb with hb | hb
      · exact he.isSpace_of_mem b hb
      · rcases List.mem_cons.1 hb with rfl | hb
        · decide
        · exact he'.isSpace_of_mem b hb
  | more hi _ ih =>
    obtain ⟨a, b, rfl, ha, hb⟩ := laid_append.1 hlaid
    obtain ⟨g, b, rfl, hg, hb⟩ := laid_cons.1 hb
    obtain ⟨s, w, k, e, rfl, hform, hgap, hwhite⟩ := hitem _ hi _ a ha
    obtain ⟨w', hitems, hw'⟩ := ih hb
    obtain ⟨x, he⟩ := hgap.exists_extra_before (by decide)
    obtain ⟨x', he'⟩ := hg.exists_extra_after (by decide)
    -- the comma between items stays; the gaps at its sides have no other one
    have htext : s ++ e ++ ((Token.mark ',').text ++ (g ++ b)) =
        s ++ (e ++ byte ',' :: (g ++ b)) := List.append_assoc _ _ _
    rw [htext]
    refine ⟨w ++ (x ++ byte ',' :: (x' ++ w')), .more hform he he' hitems, ?_⟩
    refine laid_append.2 ⟨w ++ x, byte ',' :: (x' ++ w'), by rw [List.append_assoc], ?_, ?_⟩
    · exact hwhite x he.isSpace_of_mem
    · exact laid_cons.2 ⟨x', w', rfl, he'.isSpace_of_mem, hw'⟩

/-- A list in brackets has a standard form if its items have one. -/
theorem Bracketed.standardized {o c : Char} (ho : o ≠ ']' ∧ o ≠ '}')
    (hitem : ∀ ts, Item ts → Standardized Form ts) (h : Bracketed o c Item ts) :
    Standardized (Relaxed.Bracketed (byte o) (byte c) Form) ts := by
  intro after t hlaid
  cases h with
  | empty =>
    obtain ⟨g, s, rfl, hg, hs⟩ := laid_cons.1 hlaid
    obtain ⟨e, rfl, he⟩ := laid_singleton.1 hs
    obtain ⟨x, hx⟩ := hg.exists_extra_after ho
    refine ⟨byte o :: (g ++ [byte c]), byte o :: (x ++ [byte c]), _, e, ?_, .empty hx, he,
      fun y hy => laid_cons.2 ⟨x, byte c :: y, ?_, hx.isSpace_of_mem, ?_⟩⟩
    · simp [Token.text]
    · simp [Token.text]
    · exact laid_singleton.2 ⟨y, rfl, hy⟩
  | items hitems =>
    obtain ⟨g, s, rfl, hg, hs⟩ := laid_cons.1 hlaid
    obtain ⟨a, b, rfl, ha, hb⟩ := laid_append.1 hs
    obtain ⟨e, rfl, he⟩ := laid_singleton.1 hb
    obtain ⟨x, hx⟩ := hg.exists_extra_after ho
    obtain ⟨w, hform, hw⟩ := hitems.standardized hitem ha
    refine ⟨byte o :: (g ++ (a ++ [byte c])), byte o :: (x ++ (w ++ [byte c])), _, e, ?_,
      .items hx hform, he, fun y hy => laid_cons.2 ⟨x, w ++ byte c :: y, ?_, ?_, ?_⟩⟩
    · simp [Token.text]
    · simp [Token.text]
    · exact hx.isSpace_of_mem
    · exact laid_append.2 ⟨w, byte c :: y, rfl, hw, laid_singleton.2 ⟨y, rfl, hy⟩⟩

/-- A member has a standard form if its value has one. -/
theorem Member.standardized {Inner : List Token → Prop}
    (hvalue : ∀ ts, Inner ts → Standardized Form ts) (h : Member Inner ts) :
    Standardized (Relaxed.Member Form) ts := by
  intro after t hlaid
  cases h with
  | @intro k ts hk hts =>
    obtain ⟨g₁, s, rfl, hg₁, hs⟩ := laid_cons.1 hlaid
    obtain ⟨g₂, s, rfl, hg₂, hs⟩ := laid_cons.1 hs
    obtain ⟨s, w, k', e, rfl, hform, hgap, hwhite⟩ := hvalue ts hts after s hs
    obtain ⟨x₁, hx₁⟩ := hg₁.exists_extra_before (by decide)
    obtain ⟨x₂, hx₂⟩ := hg₂.exists_extra_after (by decide)
    refine ⟨k ++ (g₁ ++ byte ':' :: (g₂ ++ s)), k ++ (x₁ ++ byte ':' :: (x₂ ++ w)), k', e, ?_,
      .intro hk hx₁ hx₂ hform, hgap, fun y hy => ?_⟩
    · simp [Token.text]
    · refine laid_cons.2 ⟨x₁, byte ':' :: (x₂ ++ (w ++ y)), ?_, hx₁.isSpace_of_mem, ?_⟩
      · simp [Token.text]
      · exact laid_cons.2 ⟨x₂, w ++ y, rfl, hx₂.isSpace_of_mem, hwhite y hy⟩

end Standardized

/-- **A decorated value has a standard form**, which is a layout of its tokens. -/
theorem NestedValue.standardized {depth : Nat} {ts : List Token} (h : NestedValue depth ts) :
    Standardized (Relaxed.NestedValue depth) ts := by
  induction depth generalizing ts with
  | zero => cases h
  | succ depth ih =>
    have hvalue (ts : List Token) (h : NestedValue depth ts) :
        Standardized (Relaxed.NestedValue depth) ts := ih h
    cases h with
    | string hs => exact standardized_scalar (.string hs)
    | word hw => exact standardized_scalar (.word hw)
    | array hb =>
      exact (hb.standardized (by decide) hvalue).imp fun _ _ => .array
    | object hb =>
      exact (hb.standardized (by decide) fun _ hm => hm.standardized hvalue).imp fun _ _ => .object

/-! ## Documents -/

/-- A layout with white space is a document, and the tokens say of which value. -/
theorem document_of_laidOut {ts : List Token} {v : Json} (h : Spells Syntax.Value ts v) {t : Text}
    (hlaid : LaidOut white ts t) : Syntax.Document (sourceChars t) v := by
  obtain ⟨hg, ht⟩ := hlaid
  obtain ⟨s, g, rfl, hg', hsolid, hvalue⟩ := h none _ ht
  exact Relaxed.document_of_value hg hsolid hvalue hg'

/-- **The standard form of a decorated text** is a layout of its tokens with white space. -/
theorem exists_standard_form {ts : List Token} (h : Value ts) {d : Text}
    (hlaid : LaidOut Decorated ts d) : ∃ w, Relaxed.Document d w ∧ LaidOut white ts w := by
  obtain ⟨depth, hts⟩ := h
  obtain ⟨hg, ht⟩ := hlaid
  obtain ⟨s, w, k, e, rfl, hform, hgap, hwhite⟩ := hts.standardized none _ ht
  obtain ⟨x, hx⟩ := hg.exists_extra_of_not_endsValue fun k hk => nomatch hk
  obtain ⟨x', hx'⟩ := hgap.exists_extra_of_not_closes fun k hk => nomatch hk
  exact ⟨x ++ (w ++ x'), .intro hx ⟨depth, hform⟩ hx',
    .intro hx.isSpace_of_mem (hwhite x' hx'.isSpace_of_mem)⟩

end Tokens

open Tokens

/-- **Comments and trailing commas change no value.** Whatever finds the standard form of relaxed
documents: a document can be parsed, and relaxed parsing of any decoration of it succeeds with the
same value. -/
theorem parseRelaxedBy_decoration {standardize : Text → Option Text}
    (hstandardize : Relaxed.Standardizes standardize) {t d : Text} (h : Decoration t d) :
    ∃ v rest rest', parse t = .success v rest ∧
      parseRelaxedBy standardize d = .success v rest' := by
  obtain ⟨ts, hts, ht, hd⟩ := h
  obtain ⟨depth, hnested⟩ := hts
  obtain ⟨v, hv⟩ := hnested.exists_spells
  obtain ⟨w, hdocument, hw⟩ := exists_standard_form ⟨depth, hnested⟩ hd
  obtain ⟨rest, hrest⟩ := exists_parse_success (document_of_laidOut hv ht)
  obtain ⟨rest', hrest'⟩ := exists_parse_success (document_of_laidOut hv hw)
  refine ⟨v, rest, rest', hrest, ?_⟩
  rw [parseRelaxedBy, (hstandardize d w).2 hdocument, Option.getD_some, hrest']

/-- The tokens of an object with an array in it. -/
def nestedTokens : List Token :=
  [.mark '{', .scalar (utf8 "\"a\""), .mark ':', .mark '[', .scalar (utf8 "1"), .mark ']',
    .mark '}']

/-- The tokens make a value. -/
theorem value_nestedTokens : Value nestedTokens := by
  have hkey : Relaxed.StringLiteral (utf8 "\"a\"") :=
    .intro (b := utf8 "a") (.cons (u := utf8 "a") (.plain (by decide) (by decide) (by decide)) .nil)
  have hone : Relaxed.Word (utf8 "1") :=
    .number ⟨[], ['1'], [], [], rfl, .inl rfl,
      .inr ⟨'1', [], rfl, by decide, by decide, by simp⟩, .inl rfl, .inl rfl⟩
  have helement : NestedValue 1 [.scalar (utf8 "1")] := .word hone
  have harray : NestedValue 2 [.mark '[', .scalar (utf8 "1"), .mark ']'] :=
    .array (.items (.one helement))
  exact ⟨3, .object (.items (.one (Member.intro hkey harray)))⟩

/-- They are laid out with a space. -/
theorem laidOut_white_nestedTokens : LaidOut white nestedTokens (utf8 "\x7b\"a\": [1]\x7d") := by
  have hempty : ∀ b ∈ ([] : Text), isSpace b = true := fun _ hb => nomatch hb
  have hspace : ∀ b ∈ utf8 " ", isSpace b = true := forall_of_all (by decide)
  have hlaid : LaidOut white nestedTokens _ :=
    .intro hempty (.cons hempty (.cons hempty (.cons hspace (.cons hempty (.cons hempty
      (.cons hempty (.cons hempty .nil)))))))
  exact Eq.mp (congrArg _ (by decide)) hlaid

/-- They are laid out with comments and trailing commas. -/
theorem laidOut_decorated_nestedTokens :
    LaidOut Decorated nestedTokens (utf8 "/*,]*/\x7b\"a\" :[1,//é\"\r\n],\x7d\n") := by
  have hblock : Extra (utf8 "/*,]*/") _ :=
    .comment (t := []) (.block (b := utf8 ",]") (by decide)) (by decide) .nil
  have hline : Extra (utf8 "//é\"\r\n") _ :=
    .comment (t := []) (.line (b := utf8 "é\"\r") (by decide)) (by decide) .nil
  have hspace : Extra (utf8 " ") _ := .space (by decide) .nil
  have hbreak : Extra (utf8 "\n") _ := .space (by decide) .nil
  have hlaid : LaidOut Decorated nestedTokens _ :=
    .intro (.extra hblock) (.cons (.extra .nil) (.cons (.extra hspace) (.cons (.extra .nil)
      (.cons (.extra .nil) (.cons (.comma (.inr ⟨_, rfl⟩) (.inl rfl) .nil hline)
        (.cons (.comma (.inl (.inl rfl)) (.inr rfl) .nil .nil)
          (.cons (.extra hbreak) .nil)))))))
  exact Eq.mp (congrArg _ (by decide)) hlaid

/-- Comments that look like the end of an array and like a string, and commas after the array and
its element. -/
theorem parseRelaxedBy_decoration_nested :
    Relaxed.Standardizes Relaxed.standardize? ∧
      Decoration (utf8 "\x7b\"a\": [1]\x7d") (utf8 "/*,]*/\x7b\"a\" :[1,//é\"\r\n],\x7d\n") ∧
      ∃ v rest rest', parse (utf8 "\x7b\"a\": [1]\x7d") = .success v rest ∧
        parseRelaxedBy Relaxed.standardize? (utf8 "/*,]*/\x7b\"a\" :[1,//é\"\r\n],\x7d\n") =
          .success v rest' := by
  have hdecoration : Decoration (utf8 "\x7b\"a\": [1]\x7d")
      (utf8 "/*,]*/\x7b\"a\" :[1,//é\"\r\n],\x7d\n") :=
    ⟨nestedTokens, value_nestedTokens, laidOut_white_nestedTokens, laidOut_decorated_nestedTokens⟩
  exact ⟨Relaxed.standardizes_standardize?, hdecoration,
    parseRelaxedBy_decoration Relaxed.standardizes_standardize? hdecoration⟩

end Descent.Json
