import Descent.Decimal.Literal
import Descent.Proofs.Text.Runs
import Mathlib.Data.List.TakeWhile

/-!
# Literals made of their parts

Reading a literal takes it apart again: a sign, whole digits, a fraction and an
exponent that are written one after the other are found as they were, and what
can be read is written in this way.

* `read?_parts`: the parts of a literal are read back.
* `parts_of_read?`: what is read as a literal is made of its parts.
* `Binary64.not_isNaN_of_ofLiteral?`: what a literal denotes is a number.
-/

namespace Descent.Literal

/-- The sign of a literal, in writing. -/
def signText (negative : Bool) : List Char := if negative then ['-'] else []

/-- The fraction of a literal, in writing. Without digits there is no point. -/
def fractionText : List Char → List Char
  | [] => []
  | x :: ds => '.' :: x :: ds

/-- An exponent part begins with its mark, if there is one. -/
theorem head_of_readExponent? {ex : List Char} {e : Int} (h : readExponent? ex = some e) :
    ∀ x ∈ ex.head?, x = 'e' ∨ x = 'E' := by
  intro x hx
  cases ex with
  | nil => cases hx
  | cons y ex =>
    obtain rfl := Option.some.inj hx
    by_cases hy : y = 'e' ∨ y = 'E'
    · exact hy
    · unfold readExponent? at h
      dsimp only at h
      rw [if_neg hy] at h
      cases h

/-- A sign is found before anything that does not begin with another one. -/
theorem splitSign_append (negative : Bool) {cs : List Char} (h : ∀ x ∈ cs.head?, x ≠ '-') :
    splitSign (signText negative ++ cs) = (negative, cs) := by
  cases negative with
  | true => rfl
  | false =>
    cases cs with
    | nil => rfl
    | cons x cs =>
      unfold splitSign signText
      split
      · rename_i h'
        cases h'
        exact absurd rfl (h '-' rfl)
      · rfl

/-- A fraction is found as it was, if neither a digit nor a point follows. -/
theorem splitFraction?_append {fs ex : List Char} (hf : ∀ x ∈ fs, x.isDigit = true)
    (hd : Stops Char.isDigit ex) (hp : ∀ x ∈ ex.head?, x ≠ '.') :
    splitFraction? (fractionText fs ++ ex) = some (fs, ex) := by
  cases fs with
  | nil =>
    unfold splitFraction? fractionText
    split
    · rename_i h
      rw [List.nil_append] at h
      subst h
      exact absurd rfl (hp '.' rfl)
    · rfl
  | cons x fs =>
    rw [fractionText, List.cons_append, splitFraction?, takeWhile_append_of_stops hf hd,
      dropWhile_append_of_stops hf hd, if_neg (List.cons_ne_nil x fs)]

/-- **The parts of a literal are read back.** -/
theorem read?_parts (negative : Bool) {whole fs ex : List Char} {e : Int} (hne : whole ≠ [])
    (hw : ∀ x ∈ whole, x.isDigit = true) (hf : ∀ x ∈ fs, x.isDigit = true)
    (he : readExponent? ex = some e) :
    read? (signText negative ++ whole ++ fractionText fs ++ ex) =
      some ⟨negative, whole, fs, e⟩ := by
  -- no part goes on with the first character of the next one
  have hmark := head_of_readExponent? he
  have hd : Stops Char.isDigit ex := by
    intro x hx
    rcases hmark x hx with rfl | rfl <;> decide
  have hp : ∀ x ∈ ex.head?, x ≠ '.' := by
    intro x hx
    rcases hmark x hx with rfl | rfl <;> decide
  have hfd : Stops Char.isDigit (fractionText fs ++ ex) := by
    cases fs with
    | nil => exact hd
    | cons y fs => exact stops_cons (by decide) _
  have hsign : ∀ x ∈ (whole ++ (fractionText fs ++ ex)).head?, x ≠ '-' := by
    obtain ⟨y, ds, rfl⟩ := List.exists_cons_of_ne_nil hne
    intro x hx
    obtain rfl := Option.some.inj hx
    rintro rfl
    exact absurd (hw '-' List.mem_cons_self) (by decide)
  rw [List.append_assoc, List.append_assoc, read?, splitSign_append negative hsign]
  dsimp only
  rw [takeWhile_append_of_stops hw hfd, dropWhile_append_of_stops hw hfd, if_neg hne,
    splitFraction?_append hf hd hp]
  simp only [he, Option.map_some]

/-! ## From literals to their parts -/

/-- What is split at the sign is the sign and what follows it. -/
theorem eq_of_splitSign {cs rest : List Char} {negative : Bool}
    (h : splitSign cs = (negative, rest)) : cs = signText negative ++ rest := by
  unfold splitSign at h
  split at h
  · obtain ⟨rfl, rfl⟩ := Prod.mk.inj h
    rfl
  · obtain ⟨rfl, rfl⟩ := Prod.mk.inj h
    rfl

/-- What is split at the fraction is the fraction, of digits only, and what follows it. -/
theorem eq_of_splitFraction? {cs fs rest : List Char} (h : splitFraction? cs = some (fs, rest)) :
    cs = fractionText fs ++ rest ∧ ∀ x ∈ fs, x.isDigit = true := by
  unfold splitFraction? at h
  split at h
  · rename_i cs
    split at h
    · cases h
    · rename_i hne
      obtain ⟨rfl, rfl⟩ := Prod.mk.inj (Option.some.inj h)
      refine ⟨?_, fun _ => List.mem_takeWhile_imp⟩
      obtain ⟨x, ds, hds⟩ := List.exists_cons_of_ne_nil hne
      have hcs : cs = (x :: ds) ++ cs.dropWhile Char.isDigit := by
        rw [← hds, List.takeWhile_append_dropWhile]
      rw [hds, fractionText, List.cons_append, ← hcs]
  · obtain ⟨rfl, rfl⟩ := Prod.mk.inj (Option.some.inj h)
    exact ⟨rfl, fun x hx => nomatch hx⟩

/-- **What is read as a literal is made of its parts.** -/
theorem parts_of_read? {cs : List Char} {l : Literal} (h : read? cs = some l) :
    ∃ ex, cs = signText l.negative ++ l.whole ++ fractionText l.fraction ++ ex ∧
      l.whole ≠ [] ∧ (∀ x ∈ l.whole, x.isDigit = true) ∧
      (∀ x ∈ l.fraction, x.isDigit = true) ∧ readExponent? ex = some l.exponent := by
  unfold read? at h
  split at h
  rename_i negative rest hsign
  split at h
  · cases h
  · rename_i hne
    split at h
    · cases h
    · rename_i fs ex hfraction
      obtain ⟨e, he, rfl⟩ := Option.map_eq_some_iff.1 h
      obtain ⟨hfs, hdigits⟩ := eq_of_splitFraction? hfraction
      refine ⟨ex, ?_, hne, fun _ => List.mem_takeWhile_imp, hdigits, he⟩
      rw [eq_of_splitSign hsign]
      simp only [List.append_assoc]
      rw [← hfs, List.takeWhile_append_dropWhile]

end Descent.Literal

namespace Descent

/-! ## Literals denote numbers -/

/-- Nothing is nearest to a magnitude above the infinite one. -/
theorem Decimal.toMagnitude_le_infinite (d : Decimal) : d.toMagnitude ≤ Binary64.infinite := by
  unfold Decimal.toMagnitude
  split
  · exact Nat.zero_le _
  · split
    · exact Nat.le_refl _
    · split
      · exact Nat.zero_le _
      · split <;> exact Binary64.nearest_le_infinite _ _

/-- **What a literal denotes is a number**, however far out of range it is. -/
theorem Binary64.not_isNaN_of_ofLiteral? {w : List Char} {x : Binary64}
    (h : Binary64.ofLiteral? w = some x) : ¬ x.IsNaN := by
  obtain ⟨l, -, rfl⟩ := Option.map_eq_some_iff.1 h
  have hle : l.toMagnitude ≤ Binary64.infinite := Decimal.toMagnitude_le_infinite _
  change ¬ Binary64.infinite < min l.toMagnitude (Binary64.infinite + 1)
  omega

end Descent
