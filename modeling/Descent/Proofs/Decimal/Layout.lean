import Descent.Decimal.Layout
import Descent.Decimal.Shortest
import Descent.Proofs.Decimal.Basic

/-!
# The digits of a decimal number

The significand of a decimal number is its digits without the zeros at the end. It
begins with a digit other than zero, and together with the place of the point it
has the value of the number. For the shortest decimal of a finite magnitude, the
point is never far from the digits.

* `exists_significand`: the digits are the significand and zeros.
* `toMagnitude_significand`: the significand and the point give the magnitude.
* `toMagnitude_shortest_of_lt`: the shortest decimal reads back.
* `point_bounds`: where the point of a number within the range can be.
-/

namespace Descent.Decimal

open Binary64 (nearest infinite units unitsPerOne)

/-! ## Digits of natural numbers -/

theorem isDigit_of_mem_natDigits {n : Nat} {x : Char} (h : x ∈ natDigits n) : x.isDigit = true :=
  Nat.isDigit_of_mem_toDigits (by decide) (by decide) h

/-- Written digits have the value that they were written from. -/
theorem ofDigitChars_natDigits (n : Nat) : Nat.ofDigitChars 10 (natDigits n) 0 = n :=
  Nat.ofDigitChars_ten_toDigits

/-- Zeros at the end multiply a number by a power of ten. -/
theorem ofDigitChars_append_zeros (ds : List Char) (n : Nat) :
    Nat.ofDigitChars 10 (ds ++ zeros n) 0 = Nat.ofDigitChars 10 ds 0 * 10 ^ n := by
  rw [Nat.ofDigitChars_append, zeros, Nat.ofDigitChars_replicate_zero, Nat.mul_comm]

/-- Zeros at the beginning make no difference. -/
theorem ofDigitChars_zeros_append (n : Nat) (ds : List Char) :
    Nat.ofDigitChars 10 (zeros n ++ ds) 0 = Nat.ofDigitChars 10 ds 0 := by
  rw [Nat.ofDigitChars_append, zeros, Nat.ofDigitChars_replicate_zero, Nat.mul_zero]

/-- A positive number does not begin with a zero. -/
theorem head_natDigits {n : Nat} (h : n ≠ 0) : (natDigits n).head? ≠ some '0' := by
  unfold natDigits
  induction n using Nat.base_induction 10 (by decide) with
  | single m hm =>
    rw [Nat.toDigits_of_lt_base hm, List.head?_cons]
    intro he
    exact h (Nat.digitChar_eq_zero.1 (Option.some.inj he))
  | digit m k hk hm ih =>
    obtain ⟨x, ds, hx⟩ := List.exists_cons_of_ne_nil (Nat.toDigits_ne_nil (n := m) (b := 10))
    have ih' := ih (by omega)
    rw [hx] at ih'
    rw [← Nat.toDigits_append_toDigits (by decide) hm hk, hx]
    exact ih'

/-! ## The significand -/

/-- What is dropped from the beginning of a number is zeros. -/
theorem dropWhile_zeros (l : List Char) :
    ∃ z, l = zeros z ++ l.dropWhile (· == '0') := by
  induction l with
  | nil => exact ⟨0, rfl⟩
  | cons x l ih =>
    by_cases hx : x = '0'
    · subst hx
      obtain ⟨z, hz⟩ := ih
      refine ⟨z + 1, ?_⟩
      rw [List.dropWhile_cons_of_pos (by decide), zeros, List.replicate_succ, List.cons_append]
      exact congrArg _ hz
    · exact ⟨0, by rw [List.dropWhile_cons_of_neg (by simpa using hx)]; rfl⟩

/-- The digits of a number are its significand and zeros. -/
theorem exists_significand (d : Decimal) :
    ∃ z, natDigits d.coefficient = d.significand ++ zeros z := by
  obtain ⟨z, hz⟩ := dropWhile_zeros (natDigits d.coefficient).reverse
  refine ⟨z, ?_⟩
  have hrev : (zeros z).reverse = zeros z := List.reverse_replicate
  have := congrArg List.reverse hz
  rwa [List.reverse_reverse, List.reverse_append, hrev] at this

theorem isDigit_of_mem_significand {d : Decimal} {x : Char} (h : x ∈ d.significand) :
    x.isDigit = true := by
  obtain ⟨z, hz⟩ := exists_significand d
  apply isDigit_of_mem_natDigits (n := d.coefficient)
  rw [hz]
  exact List.mem_append_left _ h

/-- A decimal that is not rounded to zero is not zero. -/
theorem coefficient_ne_zero {d : Decimal} (h : d.toMagnitude ≠ 0) : d.coefficient ≠ 0 := by
  intro hc
  refine h ?_
  unfold toMagnitude
  rw [if_pos hc]

/-- **The significand of a positive number** begins with a digit other than zero. -/
theorem significand_eq_cons {d : Decimal} (h : d.coefficient ≠ 0) :
    ∃ x ds, d.significand = x :: ds ∧ x ≠ '0' := by
  obtain ⟨z, hz⟩ := exists_significand d
  cases hs : d.significand with
  | nil =>
    -- a number whose digits are all zeros is zero
    have hzero := ofDigitChars_append_zeros [] z
    rw [← hs, ← hz, ofDigitChars_natDigits, hs] at hzero
    simp only [Nat.ofDigitChars_nil, Nat.zero_mul] at hzero
    exact absurd hzero h
  | cons x ds =>
    refine ⟨x, ds, rfl, ?_⟩
    rintro rfl
    refine head_natDigits h ?_
    rw [hz, hs]
    rfl

/-- The number that the significand of a decimal number is, as a whole number. -/
def significandValue (d : Decimal) : Nat := Nat.ofDigitChars 10 d.significand 0

/-- The zeros after the significand are a power of ten. -/
theorem coefficient_eq {d : Decimal} {z : Nat}
    (hz : natDigits d.coefficient = d.significand ++ zeros z) :
    d.coefficient = d.significandValue * 10 ^ z := by
  have h := ofDigitChars_append_zeros d.significand z
  rwa [← hz, ofDigitChars_natDigits] at h

/-- **The significand and the point give the magnitude.** -/
theorem toMagnitude_significand (d : Decimal) :
    (Decimal.mk d.significandValue (d.point - d.significand.length)).toMagnitude =
      d.toMagnitude := by
  obtain ⟨z, hz⟩ := exists_significand d
  have hc := coefficient_eq hz
  have hp : d.point - d.significand.length = d.exponent + z := by
    unfold point
    rw [hz, List.length_append, zeros, List.length_replicate]
    omega
  have hs := sameValue_mul_pow d.significandValue z d.exponent
  rw [← hc] at hs
  rw [hp]
  exact (toMagnitude_eq_of_sameValue hs).symm

/-! ## The shortest decimal -/

/-- A binary fraction is a decimal one. -/
theorem numerator_five_pow (u n : Nat) :
    (Decimal.mk (u * 5 ^ n) (-n)).numerator * 2 ^ n =
      u * (Decimal.mk (u * 5 ^ n) (-n)).denominator := by
  have h0 : (-(n : Int)).toNat = 0 := by omega
  have hn : (- -(n : Int)).toNat = n := by omega
  unfold numerator denominator
  dsimp only
  rw [h0, hn, Nat.pow_zero, Nat.mul_one, Nat.mul_assoc, ← Nat.mul_pow]

/-- The exact value of a magnitude is its number of units. -/
theorem numerator_exact (m : Nat) :
    (exact m).numerator * unitsPerOne = units m * (exact m).denominator := by
  rw [Binary64.unitsPerOne_eq]
  exact numerator_five_pow (units m) 1074

/-- The exact decimal of a number is rounded to that number. -/
theorem toMagnitude_exact {m : Nat} (h : m < infinite) : (exact m).toMagnitude = m :=
  calc (exact m).toMagnitude
      = nearest (exact m).numerator (exact m).denominator := toMagnitude_eq_nearest _
    _ = nearest (units m) unitsPerOne :=
        Binary64.nearest_eq_of_mul_eq (denominator_pos _) Binary64.unitsPerOne_pos
          (numerator_exact m)
    _ = m := Binary64.nearest_units h

/-- **The shortest decimal reads back.** -/
theorem toMagnitude_shortest_of_lt {m : Nat} (h : m < infinite) : (shortest m).toMagnitude = m := by
  rcases toMagnitude_shortest m with hs | hs
  · exact hs
  · rw [hs, toMagnitude_exact h]

/-! ## The place of the point -/

/-- A number is less than the power of ten with as many zeros as it has digits. -/
theorem lt_ten_pow_length (n : Nat) : n < 10 ^ (natDigits n).length :=
  (Nat.length_toDigits_le_iff (by decide) Nat.length_toDigits_pos).1 (Nat.le_refl _)

/-- A number is at least the power of ten with as many digits. -/
theorem ten_pow_length_le {n : Nat} (h : n ≠ 0) : 10 ^ ((natDigits n).length - 1) ≤ n := by
  by_cases hl : (natDigits n).length = 1
  · rw [hl]
    exact Nat.pos_of_ne_zero h
  · have hpos : 0 < (natDigits n).length := Nat.length_toDigits_pos
    apply Nat.le_of_not_lt
    intro hlt
    -- a smaller number would have a digit less
    have := (Nat.length_toDigits_le_iff (by decide) (by omega)).2 hlt
    change (natDigits n).length ≤ _ at this
    omega

/-- **Where the point of a number within the range can be.** -/
theorem point_bounds {d : Decimal} (h0 : d.toMagnitude ≠ 0) (h1 : d.toMagnitude ≠ infinite) :
    -400 < d.point ∧ d.point ≤ 400 := by
  have hc := coefficient_ne_zero h0
  have hpos : 0 < (natDigits d.coefficient).length := Nat.length_toDigits_pos
  unfold point
  constructor
  · apply Int.lt_of_not_ge
    intro hle
    exact h0 (toMagnitude_eq_zero (lt_ten_pow_length _) hle)
  · apply Int.le_of_not_gt
    intro hgt
    exact h1 (toMagnitude_eq_infinite (ten_pow_length_le hc) (by omega))

end Descent.Decimal
