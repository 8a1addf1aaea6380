import Descent.Decimal.Basic
import Descent.Proofs.Binary64.Round

/-!
# The magnitude of a decimal number depends on its value

A decimal number is taken to the nearest magnitude, with shortcuts for numbers
that are certainly out of range. The shortcuts give what the computation would
have given, so decimal numbers of the same value have the same magnitude.

* `toMagnitude_eq_nearest`: the shortcuts agree with the computation.
* `toMagnitude_eq_of_sameValue`: the magnitude depends on the value alone.
* `toMagnitude_eq_infinite`, `toMagnitude_eq_zero`: values far out of range.
-/

namespace Descent.Decimal

open Binary64 (nearest infinite unitsPerOne)

/-- The value of a decimal number is `numerator / denominator`. -/
def numerator (d : Decimal) : Nat := d.coefficient * 10 ^ d.exponent.toNat

/-- A power of ten, one if the exponent is not negative. -/
def denominator (d : Decimal) : Nat := 10 ^ (-d.exponent).toNat

/-- **Two decimal numbers have the same value.** -/
def SameValue (d d' : Decimal) : Prop := d.numerator * d'.denominator = d'.numerator * d.denominator

theorem denominator_pos (d : Decimal) : 0 < d.denominator := Nat.pow_pos (by decide)

theorem ten_pow_pos (n : Nat) : 0 < 10 ^ n := Nat.pow_pos (by decide)

/-! ## Powers of two and of ten -/

theorem two_pow_1024_le : 2 ^ 1024 ≤ 10 ^ 400 := by decide +kernel

theorem two_mul_unitsPerOne_le : 2 * unitsPerOne ≤ 10 ^ 400 := by decide +kernel

theorem four_mul_unitsPerOne_le : 4 * unitsPerOne ≤ 10 ^ 331 := by decide +kernel

/-! ## The ends of the range -/

/-- From `10 ^ 400` on, everything is rounded to an infinite number. -/
theorem nearest_eq_infinite_of_le {num den : Nat} (hd : 0 < den) (h : 10 ^ 400 * den ≤ num) :
    nearest num den = infinite :=
  Binary64.nearest_eq_infinite hd
    (Nat.le_trans (Nat.mul_le_mul_right den two_pow_1024_le) h)

/-- Below `10 ^ -400`, everything is rounded to zero. -/
theorem nearest_eq_zero_of_lt {num den : Nat} (h : 10 ^ 400 * num < den) : nearest num den = 0 := by
  refine Binary64.nearest_eq_zero (Nat.lt_of_le_of_lt ?_ h)
  rw [Nat.mul_comm num, ← Nat.mul_assoc]
  exact Nat.mul_le_mul_right num two_mul_unitsPerOne_le

/-- A coefficient of few bits, times a small power of ten, is below half a unit. -/
theorem two_mul_lt_of_log2 {c k : Nat} (h : c.log2 + 331 ≤ k) :
    2 * (c * unitsPerOne) < 10 ^ k := by
  have hc : c < 2 ^ (c.log2 + 1) := Nat.lt_log2_self
  calc 2 * (c * unitsPerOne)
      < 2 * (2 ^ (c.log2 + 1) * unitsPerOne) := by
        refine Nat.mul_lt_mul_of_pos_left ?_ (by decide)
        exact Nat.mul_lt_mul_of_pos_right hc Binary64.unitsPerOne_pos
    _ = 2 ^ c.log2 * (4 * unitsPerOne) := by
        rw [Nat.pow_succ]
        -- the unit is a power of two with a thousand bits, which nothing here should compute
        generalize unitsPerOne = u
        grind
    _ ≤ 10 ^ c.log2 * 10 ^ 331 :=
        Nat.mul_le_mul (Nat.pow_le_pow_left (by decide) _) four_mul_unitsPerOne_le
    _ = 10 ^ (c.log2 + 331) := (Nat.pow_add 10 _ _).symm
    _ ≤ 10 ^ k := Nat.pow_le_pow_right (by decide) h

/-- **The shortcuts agree with the computation.** -/
theorem toMagnitude_eq_nearest (d : Decimal) :
    d.toMagnitude = nearest d.numerator d.denominator := by
  obtain ⟨c, e⟩ := d
  unfold toMagnitude numerator denominator
  dsimp only
  split
  · rename_i h0
    rw [h0, Nat.zero_mul]
    refine (nearest_eq_zero_of_lt ?_).symm
    rw [Nat.mul_zero]
    exact ten_pow_pos _
  · rename_i h0
    split
    · rename_i hbig
      -- even the coefficient one would be beyond the range
      have hden : (-e).toNat = 0 := by omega
      rw [hden]
      refine (nearest_eq_infinite_of_le (by decide) ?_).symm
      have hexp : 400 ≤ e.toNat := by omega
      rw [Nat.pow_zero, Nat.mul_one]
      refine Nat.le_trans (Nat.pow_le_pow_right (by decide) hexp) ?_
      exact Nat.le_mul_of_pos_left _ (Nat.pos_of_ne_zero h0)
    · split
      · rename_i hsmall
        -- each bit of the coefficient is less than a decimal place
        have hnum : e.toNat = 0 := by omega
        rw [hnum, Nat.pow_zero, Nat.mul_one]
        exact (Binary64.nearest_eq_zero (two_mul_lt_of_log2 (by omega))).symm
      · split
        · rename_i hpos
          have hden : (-e).toNat = 0 := by omega
          rw [hden]
          rfl
        · rename_i hneg
          have hnum : e.toNat = 0 := by omega
          rw [hnum, Nat.pow_zero, Nat.mul_one]
          rfl

/-- **The magnitude depends on the value alone.** -/
theorem toMagnitude_eq_of_sameValue {d d' : Decimal} (h : SameValue d d') :
    d.toMagnitude = d'.toMagnitude := by
  rw [toMagnitude_eq_nearest, toMagnitude_eq_nearest]
  exact Binary64.nearest_eq_of_mul_eq d.denominator_pos d'.denominator_pos h

/-- Zeros at the end of the coefficient may move to the exponent. -/
theorem sameValue_mul_pow (c k : Nat) (e : Int) : SameValue ⟨c * 10 ^ k, e⟩ ⟨c, e + k⟩ := by
  unfold SameValue numerator denominator
  dsimp only
  rw [Nat.mul_assoc, Nat.mul_assoc, Nat.mul_assoc, ← Nat.pow_add, ← Nat.pow_add, ← Nat.pow_add]
  congr 2
  omega

/-! ## Values far out of range -/

/-- A decimal of more than 400 places before the point is infinite. -/
theorem toMagnitude_eq_infinite {d : Decimal} {j : Nat} (hc : 10 ^ j ≤ d.coefficient)
    (he : 400 ≤ j + d.exponent) : d.toMagnitude = infinite := by
  rw [toMagnitude_eq_nearest]
  refine nearest_eq_infinite_of_le d.denominator_pos ?_
  unfold numerator denominator
  calc 10 ^ 400 * 10 ^ (-d.exponent).toNat
      = 10 ^ (400 + (-d.exponent).toNat) := (Nat.pow_add 10 _ _).symm
    _ ≤ 10 ^ (j + d.exponent.toNat) := Nat.pow_le_pow_right (by decide) (by omega)
    _ = 10 ^ j * 10 ^ d.exponent.toNat := Nat.pow_add 10 _ _
    _ ≤ d.coefficient * 10 ^ d.exponent.toNat := Nat.mul_le_mul_right _ hc

/-- A decimal that begins more than 400 places behind the point is zero. -/
theorem toMagnitude_eq_zero {d : Decimal} {j : Nat} (hc : d.coefficient < 10 ^ j)
    (he : j + d.exponent ≤ -400) : d.toMagnitude = 0 := by
  rw [toMagnitude_eq_nearest]
  refine nearest_eq_zero_of_lt ?_
  unfold numerator denominator
  have hlt : d.coefficient * 10 ^ d.exponent.toNat < 10 ^ j * 10 ^ d.exponent.toNat :=
    Nat.mul_lt_mul_of_pos_right hc (ten_pow_pos _)
  calc 10 ^ 400 * (d.coefficient * 10 ^ d.exponent.toNat)
      < 10 ^ 400 * (10 ^ j * 10 ^ d.exponent.toNat) :=
        Nat.mul_lt_mul_of_pos_left hlt (ten_pow_pos 400)
    _ = 10 ^ (400 + (j + d.exponent.toNat)) := by rw [← Nat.pow_add, ← Nat.pow_add]
    _ ≤ 10 ^ (-d.exponent).toNat := Nat.pow_le_pow_right (by decide) (by omega)

end Descent.Decimal
