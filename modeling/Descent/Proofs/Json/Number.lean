import Descent.Json.Number
import Descent.Proofs.Decimal.Layout
import Descent.Proofs.Json.Numeral

/-!
# Numbers in writing read back

What a number is written as is a literal of the syntax, and the literal denotes
the number again, bit for bit. Neither layout changes the value of a decimal
number: one fills up with zeros, the other has an exponent, and both have the
significand and the point of the number they lay out.

* `Layout`: the digits and the point that both layouts go by.
* `writes_positional`, `writes_exponential`: the two layouts.
* `number_numberText`: every number but what is not a number reads back.
-/

namespace Descent.Json

open Syntax Grammar
open Decimal (significand point zeros positional exponential exponentPart)
open Literal (signText fractionText readExponent? readExponentDigits?)

/-- **Characters write a magnitude** if they are a literal without a sign that denotes it. -/
def Writes (w : List Char) (m : Nat) : Prop :=
  ∃ whole fs ex e, w = whole ++ fractionText fs ++ ex ∧ Whole whole ∧
    (∀ x ∈ fs, x.isDigit = true) ∧ Exponent ex ∧ readExponent? ex = some e ∧
    ∀ negative, (Literal.mk negative whole fs e).toMagnitude = m

/-- A point and digits are a fraction of the syntax. -/
theorem fraction_fractionText {fs : List Char} (h : ∀ x ∈ fs, x.isDigit = true) :
    Fraction (fractionText fs) := by
  cases fs with
  | nil => exact .inl rfl
  | cons x fs => exact .inr ⟨x :: fs, rfl, List.cons_ne_nil _ _, h⟩

theorem fractionText_of_ne_nil {fs : List Char} (h : fs ≠ []) : fractionText fs = '.' :: fs := by
  obtain ⟨x, fs, rfl⟩ := List.exists_cons_of_ne_nil h
  rfl

/-- With a sign before them, such characters are a literal that denotes a signed number. -/
theorem Writes.number {w : List Char} {m : Nat} (h : Writes w m) (negative : Bool) :
    Number (signText negative ++ w) ∧
      Binary64.ofLiteral? (signText negative ++ w) = some (.ofMagnitude negative m) := by
  obtain ⟨whole, fs, ex, e, rfl, hw, hf, hex, he, hm⟩ := h
  have hsign : Sign (signText negative) := by
    cases negative with
    | true => exact .inr rfl
    | false => exact .inl rfl
  obtain ⟨hne, hd⟩ := digits_of_whole hw
  simp only [← List.append_assoc]
  refine ⟨⟨_, _, _, _, rfl, hsign, hw, fraction_fractionText hf, hex⟩, ?_⟩
  rw [Binary64.ofLiteral?, Literal.read?_parts negative hne hd hf he, Option.map_some, hm]

/-- A literal with few whole digits writes the magnitude of its value. -/
theorem writes_parts {whole fs ex : List Char} {e : Int} {m : Nat} (hw : Whole whole)
    (hlen : whole.length ≤ 400) (hf : ∀ x ∈ fs, x.isDigit = true) (hex : Exponent ex)
    (he : readExponent? ex = some e)
    (hm : (Decimal.mk (Nat.ofDigitChars 10 (whole ++ fs) 0) (e - fs.length)).toMagnitude = m) :
    Writes (whole ++ fractionText fs ++ ex) m := by
  refine ⟨whole, fs, ex, e, rfl, hw, hf, hex, he, fun negative => ?_⟩
  rw [Literal.toMagnitude_of_length_le]
  · exact hm
  · have : (whole.dropWhile (· == '0')).length ≤ whole.length :=
      (List.dropWhile_suffix _).length_le
    unfold Literal.significantWhole Literal.wholeRoom
    dsimp only
    omega

theorem exponent_nil : Exponent [] := .inl rfl

/-! ## The two layouts -/

theorem isDigit_zeros {n : Nat} {x : Char} (h : x ∈ zeros n) : x.isDigit = true := by
  rw [List.eq_of_mem_replicate h]
  rfl

/-- Digits of which the first is not zero are a whole part. -/
theorem whole_cons {x : Char} {ds : List Char} (hx : x.isDigit = true) (h0 : x ≠ '0')
    (hds : ∀ y ∈ ds, y.isDigit = true) : Whole (x :: ds) := by
  have hrange : '0' ≤ x ∧ x ≤ '9' := by
    simp only [Char.isDigit, Bool.and_eq_true, decide_eq_true_eq] at hx
    exact hx
  refine .inr ⟨x, ds, rfl, ?_, hrange.2, hds⟩
  have hne : x.toNat ≠ '0'.toNat := fun h => h0 (Char.toNat_inj.1 h)
  have hle : '0'.toNat ≤ x.toNat := hrange.1
  show '1'.toNat ≤ x.toNat
  change 49 ≤ x.toNat
  change x.toNat ≠ 48 at hne
  change 48 ≤ x.toNat at hle
  omega

/-- Zeros before the digits of an exponent make no difference. -/
theorem readExponentDigits?_zeros {k n : Nat} (h : n < 100000) :
    Digits (zeros k ++ natDigits n) ∧
      readExponentDigits? (zeros k ++ natDigits n) = some n := by
  have hne : zeros k ++ natDigits n ≠ [] := by
    intro he
    exact Nat.toDigits_ne_nil (List.append_eq_nil_iff.1 he).2
  have hd (x : Char) (hx : x ∈ zeros k ++ natDigits n) : x.isDigit = true := by
    rcases List.mem_append.1 hx with hx | hx
    · exact isDigit_zeros hx
    · exact Decimal.isDigit_of_mem_natDigits hx
  have hvalue : Nat.ofDigitChars 10 (zeros k ++ natDigits n) 0 = n := by
    rw [Decimal.ofDigitChars_zeros_append, Decimal.ofDigitChars_natDigits]
  refine ⟨⟨hne, hd⟩, ?_⟩
  rw [readExponentDigits?, if_pos ⟨hne, List.all_eq_true.2 hd⟩,
    Literal.exponentOf_eq (by omega), hvalue]

/-- An exponent in writing reads back. -/
theorem readExponent?_exponentPart {x : Int} (h : x.natAbs < 100000) :
    Exponent (exponentPart x) ∧ readExponent? (exponentPart x) = some x := by
  obtain ⟨hd, hr⟩ := readExponentDigits?_zeros (k := 2 - (natDigits x.natAbs).length) h
  unfold exponentPart
  by_cases hx : x < 0
  · simp only [if_pos hx]
    refine ⟨.inr ⟨'e', ['-'], _, rfl, .inl rfl, .inr (.inr rfl), hd⟩, ?_⟩
    simp only [readExponent?, true_or, if_true, List.cons_append, hr]
    show some (-(x.natAbs : Int)) = some x
    congr 1
    omega
  · simp only [if_neg hx]
    refine ⟨.inr ⟨'e', ['+'], _, rfl, .inl rfl, .inr (.inl rfl), hd⟩, ?_⟩
    simp only [readExponent?, true_or, if_true, List.cons_append, hr]
    show some (x.natAbs : Int) = some x
    congr 1
    omega

/-- **What a layout goes by**: digits of which the first is not zero, a point that is not far
from them, and the magnitude that they give together. -/
structure Layout (ds : List Char) (p : Int) (m : Nat) : Prop where
  digit : ∀ y ∈ ds, y.isDigit = true
  head : ∃ x ds', ds = x :: ds' ∧ x ≠ '0'
  low : -400 < p
  high : p ≤ 400
  magnitude : (Decimal.mk (Nat.ofDigitChars 10 ds 0) (p - ds.length)).toMagnitude = m

/-- A decimal number within the range is laid out from its significand and its point. -/
theorem layout_significand {d : Decimal} (h0 : d.toMagnitude ≠ 0)
    (h1 : d.toMagnitude ≠ Binary64.infinite) : Layout d.significand d.point d.toMagnitude where
  digit _ hy := Decimal.isDigit_of_mem_significand hy
  head := Decimal.significand_eq_cons (Decimal.coefficient_ne_zero h0)
  low := (Decimal.point_bounds h0 h1).1
  high := (Decimal.point_bounds h0 h1).2
  magnitude := Decimal.toMagnitude_significand d

namespace Layout

variable {ds : List Char} {p : Int} {m : Nat}

theorem length_pos (h : Layout ds p m) : 0 < ds.length := by
  obtain ⟨x, ds', rfl, -⟩ := h.head
  exact Nat.zero_lt_succ _

/-- The digits, with more of them or fewer after the first, can stand before a point. -/
theorem whole_of_head (h : Layout ds p m) {w : List Char} (hw : w.head? = ds.head?)
    (hd : ∀ y ∈ w, y.isDigit = true) : Whole w := by
  obtain ⟨x, ds', rfl, hx⟩ := h.head
  cases w with
  | nil => cases hw
  | cons y w =>
    obtain rfl := Option.some.inj hw
    obtain ⟨hy, hw⟩ := List.forall_mem_cons.1 hd
    exact whole_cons hy hx hw

/-- All digits are after the point. -/
theorem writes_after (h : Layout ds p m) (hp : p ≤ 0) :
    Writes ('0' :: '.' :: zeros (-p).toNat ++ ds) m := by
  have hfs : zeros (-p).toNat ++ ds ≠ [] := by
    have := h.length_pos
    exact List.append_ne_nil_of_right_ne_nil _ (List.ne_nil_of_length_pos this)
  have htext : '0' :: '.' :: zeros (-p).toNat ++ ds =
      ['0'] ++ fractionText (zeros (-p).toNat ++ ds) ++ [] := by
    rw [fractionText_of_ne_nil hfs, List.append_nil]
    rfl
  rw [htext]
  refine writes_parts (.inl rfl) (by decide) ?_ exponent_nil rfl ?_
  · intro y hy
    rcases List.mem_append.1 hy with hy | hy
    · exact isDigit_zeros hy
    · exact h.digit y hy
  · -- zeros before the digits do not count, and each moves the point by one
    have hzero : ['0'] ++ zeros (-p).toNat = zeros ((-p).toNat + 1) := rfl
    rw [← List.append_assoc, hzero, Decimal.ofDigitChars_zeros_append, ← h.magnitude]
    congr 2
    rw [List.length_append, zeros, List.length_replicate]
    omega

/-- All digits are before the point, and zeros after them. -/
theorem writes_before (h : Layout ds p m) (hl : ds.length ≤ p) :
    Writes (ds ++ zeros (p.toNat - ds.length)) m := by
  have hpos := h.length_pos
  have hhigh := h.high
  have htext : ds ++ zeros (p.toNat - ds.length) =
      ds ++ zeros (p.toNat - ds.length) ++ fractionText [] ++ [] := by
    rw [fractionText, List.append_nil, List.append_nil]
  rw [htext]
  refine writes_parts ?_ ?_ (fun y hy => absurd hy List.not_mem_nil) exponent_nil rfl ?_
  · refine h.whole_of_head ?_ fun y hy => ?_
    · obtain ⟨x, ds', rfl, -⟩ := h.head
      rfl
    · rcases List.mem_append.1 hy with hy | hy
      · exact h.digit y hy
      · exact isDigit_zeros hy
  · rw [List.length_append, zeros, List.length_replicate]
    omega
  · -- zeros after the digits are a power of ten
    have hsame := Decimal.sameValue_mul_pow (Nat.ofDigitChars 10 ds 0) (p.toNat - ds.length) 0
    have hexp : (0 : Int) + (p.toNat - ds.length : Nat) = p - ds.length := by omega
    rw [hexp] at hsame
    rw [List.append_nil, Decimal.ofDigitChars_append_zeros, ← h.magnitude]
    exact Decimal.toMagnitude_eq_of_sameValue hsame

/-- The point is among the digits. -/
theorem writes_among (h : Layout ds p m) (hp : 0 < p) (hl : p < ds.length) :
    Writes (ds.take p.toNat ++ '.' :: ds.drop p.toNat) m := by
  have hhigh := h.high
  have hfs : ds.drop p.toNat ≠ [] := by
    intro he
    have := List.drop_eq_nil_iff.1 he
    omega
  have htext : ds.take p.toNat ++ '.' :: ds.drop p.toNat =
      ds.take p.toNat ++ fractionText (ds.drop p.toNat) ++ [] := by
    rw [fractionText_of_ne_nil hfs, List.append_nil]
  rw [htext]
  refine writes_parts ?_ ?_ (fun y hy => h.digit y (List.mem_of_mem_drop hy)) exponent_nil rfl ?_
  · refine h.whole_of_head ?_ fun y hy => h.digit y (List.mem_of_mem_take hy)
    rw [List.head?_take, if_neg (by omega)]
  · rw [List.length_take]
    omega
  · rw [List.take_append_drop, ← h.magnitude, List.length_drop]
    congr 2
    omega

/-- One digit is before the point, and the exponent makes up for it. -/
theorem writes_scientific (h : Layout ds p m) :
    Writes (ds.take 1 ++ (if ds.length ≤ 1 then [] else '.' :: ds.drop 1) ++
      exponentPart (p - 1)) m := by
  have hlow := h.low
  have hhigh := h.high
  obtain ⟨hex, he⟩ := readExponent?_exponentPart (x := p - 1) (by omega)
  obtain ⟨x, ds, rfl, hx⟩ := h.head
  obtain ⟨hd, hds⟩ := List.forall_mem_cons.1 h.digit
  have htext : (x :: ds).take 1 ++ (if (x :: ds).length ≤ 1 then [] else '.' :: (x :: ds).drop 1) =
      [x] ++ fractionText ds := by
    cases ds with
    | nil => rfl
    | cons y ds => simp [fractionText]
  have hwhole : Whole [x] := whole_cons hd hx fun y hy => absurd hy List.not_mem_nil
  rw [htext]
  refine writes_parts hwhole (by simp) hds hex he ?_
  rw [List.singleton_append, ← h.magnitude, List.length_cons]
  congr 2
  omega

end Layout

/-- **The positional form writes the magnitude.** -/
theorem writes_positional {d : Decimal} (h0 : d.toMagnitude ≠ 0)
    (h1 : d.toMagnitude ≠ Binary64.infinite) : Writes d.positional d.toMagnitude := by
  have h := layout_significand h0 h1
  unfold positional
  dsimp only
  split
  · rename_i hp
    exact h.writes_after hp
  · rename_i hp
    split
    · rename_i hl
      exact h.writes_before hl
    · rename_i hl
      exact h.writes_among (by omega) (by omega)

/-- **The exponential form writes the magnitude.** -/
theorem writes_exponential {d : Decimal} (h0 : d.toMagnitude ≠ 0)
    (h1 : d.toMagnitude ≠ Binary64.infinite) : Writes d.exponential d.toMagnitude :=
  (layout_significand h0 h1).writes_scientific

/-! ## All numbers -/

theorem writes_zero : Writes ['0'] 0 :=
  @writes_parts ['0'] [] [] 0 0 (.inl rfl) (by decide) (by simp) exponent_nil rfl (by decide)

/-- The literal for the infinite magnitude denotes it. -/
theorem writes_infinite : Writes "1e999".toList Binary64.infinite := by
  refine @writes_parts ['1'] [] ['e', '9', '9', '9'] 999 _ ?_ (by decide) (by simp) ?_ rfl
    (by decide)
  · exact whole_cons (by decide) (by decide) (by simp)
  · exact .inr ⟨'e', [], ['9', '9', '9'], rfl, .inl rfl, .inl rfl, by decide, by simp⟩

/-- The text of a finite magnitude denotes it. -/
theorem writes_magnitudeText {m : Nat} (h : m < Binary64.infinite) :
    Writes (magnitudeText m) m := by
  unfold magnitudeText
  split
  · rename_i hm
    rw [hm]
    exact writes_zero
  · rename_i hm
    have hback := Decimal.toMagnitude_shortest_of_lt h
    have h0 : (Decimal.shortest m).toMagnitude ≠ 0 := by rwa [hback]
    have h1 : (Decimal.shortest m).toMagnitude ≠ Binary64.infinite := by
      rw [hback]
      exact Nat.ne_of_lt h
    have hpos := writes_positional h0 h1
    have hexp := writes_exponential h0 h1
    rw [hback] at hpos hexp
    dsimp only
    split
    · exact hpos
    · split
      · exact hexp
      · exact hpos

/-- **Every number but what is not a number reads back**, bit for bit. -/
theorem number_numberText {x : Binary64} (h : ¬ x.IsNaN) :
    Number (numberText x) ∧ Binary64.ofLiteral? (numberText x) = some x := by
  have hle : x.magnitude ≤ Binary64.infinite := Nat.le_of_not_lt h
  have hsame : Binary64.ofMagnitude x.negative x.magnitude = x := by
    have hmin : min x.magnitude (Binary64.infinite + 1) = x.magnitude := by omega
    simp only [Binary64.ofMagnitude, hmin]
  have hwrites : Writes (if x.IsInf then "1e999".toList else magnitudeText x.magnitude)
      x.magnitude := by
    split
    · rename_i hinf
      rw [show x.magnitude = Binary64.infinite from hinf]
      exact writes_infinite
    · rename_i hinf
      exact writes_magnitudeText (Nat.lt_of_le_of_ne hle hinf)
  have hnumber := hwrites.number x.negative
  rw [hsame] at hnumber
  unfold numberText
  rw [if_neg h]
  exact hnumber

end Descent.Json
