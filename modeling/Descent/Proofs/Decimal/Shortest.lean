import Descent.Proofs.Binary64.Nearest
import Descent.Proofs.Decimal.Layout
import Mathlib.Algebra.Order.Field.Power
import Mathlib.Algebra.Order.Floor.Semifield
import Mathlib.Data.Nat.Cast.Order.Field
import Mathlib.Data.Rat.Floor
import Mathlib.Tactic.FieldSimp
import Mathlib.Tactic.Linarith
import Mathlib.Tactic.Positivity
import Mathlib.Tactic.Qify

/-!
# The shortest decimal is the shortest

A grid of decimal numbers has as many digits as it is fine. If any decimal number
with so many digits reads back as a magnitude, then one of the two neighbours of
the magnitude's value on the grid does: rounding keeps the order, and no number
with so many digits is between the value and its neighbours. With seventeen digits
a neighbour is always near enough. So the search for the shortest decimal ends on
a grid, and on the first that any decimal number reads back from.

* `value_leadExponent`: the exponent of the first digit.
* `onGrid?_ne_none`: a grid has a hit if it can have one.
* `onGrid?_seventeen`: seventeen digits suffice.
* `length_shortest_le`: no decimal number that reads back has fewer digits.
-/

namespace Descent.Decimal

open Binary64 (nearest infinite units unitsPerOne step steps)

/-! ## Values -/

/-- The value of a decimal number. -/
def value (d : Decimal) : ℚ := d.coefficient * (10 : ℚ) ^ d.exponent

theorem value_eq (d : Decimal) : d.value = d.numerator / d.denominator := by
  unfold value numerator denominator
  obtain ⟨n, hn | hn⟩ := Int.eq_nat_or_neg d.exponent
  · rw [hn]
    simp
  · rw [hn]
    simp [div_eq_mul_inv]

/-- The exact decimal of a number has the value of that number. -/
theorem value_exact (m : Nat) : (exact m).value = units m / unitsPerOne := by
  have hden : ((exact m).denominator : ℚ) ≠ 0 := by exact_mod_cast (denominator_pos _).ne'
  have hunit : (unitsPerOne : ℚ) ≠ 0 := by exact_mod_cast Binary64.unitsPerOne_pos.ne'
  rw [value_eq, div_eq_div_iff hden hunit]
  exact_mod_cast numerator_exact m

/-- **The magnitude keeps the order of values.** -/
theorem toMagnitude_mono {d d' : Decimal} (h : d.value ≤ d'.value) :
    d.toMagnitude ≤ d'.toMagnitude := by
  have hden : (0 : ℚ) < d.denominator := by exact_mod_cast d.denominator_pos
  have hden' : (0 : ℚ) < d'.denominator := by exact_mod_cast d'.denominator_pos
  rw [value_eq, value_eq, div_le_div_iff₀ hden hden'] at h
  rw [toMagnitude_eq_nearest, toMagnitude_eq_nearest]
  exact Binary64.nearest_mono d.denominator_pos d'.denominator_pos (by exact_mod_cast h)

/-- What is between two numbers of one magnitude has that magnitude. -/
theorem toMagnitude_of_between {d d₁ d₂ : Decimal} {m : Nat} (h₁ : d₁.toMagnitude = m)
    (h₂ : d₂.toMagnitude = m) (hle : d₁.value ≤ d.value) (hle' : d.value ≤ d₂.value) :
    d.toMagnitude = m :=
  Nat.le_antisymm (h₂ ▸ toMagnitude_mono hle') (h₁ ▸ toMagnitude_mono hle)

section Middle

variable {d : Decimal} {m : Nat}

/-- Comparing a number with a decimal is comparing whole numbers. -/
theorem value_exact_le_iff :
    (exact m).value ≤ d.value ↔ units m * d.denominator ≤ d.numerator * unitsPerOne := by
  have hden : (0 : ℚ) < d.denominator := by exact_mod_cast d.denominator_pos
  have hunit : (0 : ℚ) < unitsPerOne := by exact_mod_cast Binary64.unitsPerOne_pos
  rw [value_exact, value_eq, div_le_div_iff₀ hunit hden]
  exact_mod_cast Iff.rfl

/-- Comparing a decimal with a number is comparing whole numbers. -/
theorem value_lt_exact_iff :
    d.value < (exact m).value ↔ d.numerator * unitsPerOne < units m * d.denominator := by
  rw [← not_le, value_exact_le_iff, not_le]

/-- To be below the middle of two numbers is a comparison of whole numbers. -/
theorem two_mul_value_lt_iff {m' : Nat} :
    2 * d.value < (exact m).value + (exact m').value ↔
      2 * (d.numerator * unitsPerOne) < (units m + units m') * d.denominator := by
  have hden : (0 : ℚ) < d.denominator := by exact_mod_cast d.denominator_pos
  have hunit : (0 : ℚ) < unitsPerOne := by exact_mod_cast Binary64.unitsPerOne_pos
  rw [value_exact, value_exact, value_eq, ← add_div, ← mul_div_assoc, div_lt_div_iff₀ hden hunit,
    mul_assoc]
  exact_mod_cast Iff.rfl

/-- To be above the middle of two numbers is a comparison of whole numbers. -/
theorem lt_two_mul_value_iff {m' : Nat} :
    (exact m).value + (exact m').value < 2 * d.value ↔
      (units m + units m') * d.denominator < 2 * (d.numerator * unitsPerOne) := by
  have hden : (0 : ℚ) < d.denominator := by exact_mod_cast d.denominator_pos
  have hunit : (0 : ℚ) < unitsPerOne := by exact_mod_cast Binary64.unitsPerOne_pos
  rw [value_exact, value_exact, value_eq, ← add_div, ← mul_div_assoc, div_lt_div_iff₀ hunit hden,
    mul_assoc]
  exact_mod_cast Iff.rfl

/-- The next number has the greater value. -/
theorem value_exact_lt_succ (m : Nat) : (exact m).value < (exact (m + 1)).value := by
  have hunit : (0 : ℚ) < unitsPerOne := by exact_mod_cast Binary64.unitsPerOne_pos
  rw [value_exact, value_exact]
  exact div_lt_div_of_pos_right (by exact_mod_cast Binary64.units_lt_succ m) hunit

/-- A value above that of a magnitude, and below the middle to the next one. -/
theorem toMagnitude_of_lt_middle (hm : m < infinite) (hlow : (exact m).value ≤ d.value)
    (hhigh : 2 * d.value < (exact m).value + (exact (m + 1)).value) : d.toMagnitude = m := by
  have hlt : d.value < (exact (m + 1)).value := by linarith
  rw [toMagnitude_eq_nearest, Binary64.nearest_of_between d.denominator_pos
    (value_exact_le_iff.1 hlow) (value_lt_exact_iff.1 hlt),
    nearer_of_lt (two_mul_value_lt_iff.1 hhigh)]
  exact Nat.min_eq_right hm.le

/-- A value below that of a magnitude, and above the middle to the one before. -/
theorem toMagnitude_of_middle_lt (hm : m + 1 < infinite)
    (hlow : (exact m).value + (exact (m + 1)).value < 2 * d.value)
    (hhigh : d.value ≤ (exact (m + 1)).value) : d.toMagnitude = m + 1 := by
  rcases hhigh.lt_or_eq with hlt | heq
  · have hle : (exact m).value ≤ d.value := by
      have := value_exact_lt_succ m
      linarith
    rw [toMagnitude_eq_nearest, Binary64.nearest_of_between d.denominator_pos
      (value_exact_le_iff.1 hle) (value_lt_exact_iff.1 hlt),
      nearer_of_gt (lt_two_mul_value_iff.1 hlow)]
    exact Nat.min_eq_right hm.le
  · have hexact := toMagnitude_exact hm
    exact toMagnitude_of_between hexact hexact heq.ge heq.le

end Middle

/-! ## The first digit -/

theorem natPow_ten (n : Nat) : Nat.pow 10 n = 10 ^ n := rfl

theorem ten_zpow_pos (e : Int) : (0 : ℚ) < 10 ^ e := zpow_pos (by norm_num) e

theorem unitsPerOne_le : unitsPerOne ≤ Nat.pow 10 324 := by decide +kernel

/-- The digits of the whole part of a quotient tell how large the quotient is. -/
theorem quotient_bounds {n d : Nat} (hd : 0 < d) (hne : n / d ≠ 0) :
    (10 : ℚ) ^ ((natDigits (n / d)).length - 1 : Int) ≤ n / d ∧
      (n / d : ℚ) < (10 : ℚ) ^ ((natDigits (n / d)).length : Int) := by
  have hd' : (0 : ℚ) < d := Nat.cast_pos.2 hd
  have hpos : 1 ≤ (natDigits (n / d)).length := Nat.length_toDigits_pos
  have hlow := ten_pow_length_le hne
  have hhigh := (Nat.div_lt_iff_lt_mul hd).1 (lt_ten_pow_length (n / d))
  constructor
  · calc (10 : ℚ) ^ ((natDigits (n / d)).length - 1 : Int)
        = (10 ^ ((natDigits (n / d)).length - 1) : Nat) := by
          rw [← Nat.cast_one, ← Nat.cast_sub hpos, zpow_natCast]
          push_cast
          rfl
      _ ≤ (n / d : Nat) := Nat.cast_le.2 hlow
      _ ≤ n / d := Nat.cast_div_le
  · rw [div_lt_iff₀ hd', zpow_natCast]
    exact_mod_cast hhigh

/-- **The first digit of a magnitude's value** stands at its leading exponent. -/
theorem value_leadExponent {m : Nat} (h0 : 0 < m) :
    (10 : ℚ) ^ leadExponent m ≤ (exact m).value ∧
      (exact m).value < (10 : ℚ) ^ (leadExponent m + 1) := by
  have hunits : 1 ≤ units m := by
    have hlt := Binary64.units_strictMono h0
    rwa [Binary64.units_zero] at hlt
  -- times a power of ten that makes it large enough, the value has a whole part
  have key {k : Nat} (hk : unitsPerOne ≤ Nat.pow 10 k) :
      (10 : ℚ) ^ ((natDigits (units m * Nat.pow 10 k / unitsPerOne)).length - 1 - k : Int) ≤
          (exact m).value ∧
        (exact m).value <
          (10 : ℚ) ^ ((natDigits (units m * Nat.pow 10 k / unitsPerOne)).length - k : Int) := by
    have hne : units m * Nat.pow 10 k / unitsPerOne ≠ 0 := by
      refine (Nat.div_pos ?_ Binary64.unitsPerOne_pos).ne'
      exact Nat.le_trans hk (Nat.le_mul_of_pos_left _ hunits)
    have hten : (0 : ℚ) < 10 ^ (k : Int) := ten_zpow_pos k
    have hvalue : ((units m * Nat.pow 10 k : Nat) / unitsPerOne : ℚ) =
        (exact m).value * 10 ^ (k : Int) := by
      rw [value_exact, zpow_natCast, natPow_ten]
      push_cast
      ring
    obtain ⟨hlow, hhigh⟩ := quotient_bounds Binary64.unitsPerOne_pos hne
    rw [hvalue] at hlow hhigh
    rw [zpow_sub₀ (by norm_num), zpow_sub₀ (by norm_num) _ (k : Int), div_le_iff₀ hten,
      lt_div_iff₀ hten]
    exact ⟨hlow, hhigh⟩
  obtain ⟨hlow, hhigh⟩ := key unitsPerOne_le
  unfold leadExponent
  generalize (natDigits (units m * Nat.pow 10 324 / unitsPerOne)).length = n at hlow hhigh ⊢
  have hfirst : (n : Int) - 325 = n - 1 - (324 : Nat) := by omega
  have hnext : (n : Int) - 325 + 1 = n - (324 : Nat) := by omega
  rw [hnext, hfirst]
  exact ⟨hlow, hhigh⟩

/-! ## Grids -/

section Grid

variable {m k : Nat}

/-- The place of the last digit on the grid of so many digits, from the point on. -/
def gridShift (m k : Nat) : Int := k - 1 - leadExponent m

/-- The neighbour below on the grid, in steps of the grid. -/
def gridBelow (m k : Nat) : Nat := (scaled m (gridShift m k)).1 / (scaled m (gridShift m k)).2

/-- A point of a grid. -/
def gridPoint (m k n : Nat) : Decimal := ⟨n, -gridShift m k⟩

/-- A point of the grid is a whole number of its steps. -/
theorem value_gridPoint (m k n : Nat) : (gridPoint m k n).value = n / 10 ^ gridShift m k := by
  unfold value gridPoint
  rw [zpow_neg, div_eq_mul_inv]

/-- What the search on a grid finds is one of the two neighbours. -/
theorem eq_of_onGrid? {d : Decimal} (h : onGrid? m k = some d) :
    d = gridPoint m k (gridBelow m k) ∨ d = gridPoint m k (gridBelow m k + 1) := by
  unfold onGrid? at h
  dsimp only at h
  split_ifs at h
  · exact .inr (Option.some.inj h).symm
  · exact .inl (Option.some.inj h).symm
  · exact .inr (Option.some.inj h).symm

/-- The search on a grid finds nothing only if neither neighbour reads back. -/
theorem ne_of_onGrid?_eq_none (h : onGrid? m k = none) :
    (gridPoint m k (gridBelow m k)).toMagnitude ≠ m ∧
      (gridPoint m k (gridBelow m k + 1)).toMagnitude ≠ m := by
  unfold onGrid? at h
  dsimp only at h
  split_ifs at h with hbelow _ habove
  exact ⟨hbelow, habove⟩

/-- The value in steps of a grid. -/
theorem scaled_div (m : Nat) (shift : Int) :
    ((scaled m shift).1 / (scaled m shift).2 : ℚ) = (exact m).value * 10 ^ shift := by
  unfold scaled
  rw [value_exact]
  split
  · rename_i h
    obtain ⟨n, rfl⟩ := Int.eq_ofNat_of_zero_le h
    rw [natPow_ten, Int.toNat_natCast, zpow_natCast]
    push_cast
    exact mul_div_right_comm _ _ _
  · rename_i h
    obtain ⟨n, hn⟩ := Int.eq_ofNat_of_zero_le (by omega : 0 ≤ -shift)
    have hshift : shift = -(n : Int) := by omega
    rw [natPow_ten, hn, Int.toNat_natCast, hshift, zpow_neg, zpow_natCast]
    push_cast
    rw [← div_div, div_eq_mul_inv (units m / unitsPerOne : ℚ)]

/-- The point below a number is found by rounding down. -/
theorem gridBelow_eq (m k : Nat) : gridBelow m k = ⌊(exact m).value * 10 ^ gridShift m k⌋₊ := by
  unfold gridBelow
  rw [← scaled_div, Nat.floor_div_eq_div]

theorem value_exact_nonneg (m : Nat) : 0 ≤ (exact m).value := by
  rw [value_exact]
  positivity

/-- **The neighbours of a value on a grid**: the points below it are those up to the first
neighbour. -/
theorem gridPoint_le_iff {n : Nat} :
    (gridPoint m k n).value ≤ (exact m).value ↔ n ≤ gridBelow m k := by
  have hnonneg : 0 ≤ (exact m).value * 10 ^ gridShift m k :=
    mul_nonneg (value_exact_nonneg m) (ten_zpow_pos _).le
  rw [value_gridPoint, div_le_iff₀ (ten_zpow_pos _), gridBelow_eq, Nat.le_floor_iff hnonneg]

/-- The points of a grid are in order. -/
theorem gridPoint_mono {n n' : Nat} (h : n ≤ n') :
    (gridPoint m k n).value ≤ (gridPoint m k n').value := by
  rw [value_gridPoint, value_gridPoint]
  exact div_le_div_of_nonneg_right (Nat.cast_le.2 h) (ten_zpow_pos _).le

/-- If any point of a grid reads back, a neighbour of the value does, and the search finds one. -/
theorem onGrid?_ne_none_of_gridPoint (hm : m < infinite) {n : Nat}
    (h : (gridPoint m k n).toMagnitude = m) : onGrid? m k ≠ none := by
  intro hnone
  obtain ⟨hbelow, habove⟩ := ne_of_onGrid?_eq_none hnone
  have hexact := toMagnitude_exact hm
  by_cases hn : n ≤ gridBelow m k
  · exact hbelow (toMagnitude_of_between h hexact (gridPoint_mono hn)
      (gridPoint_le_iff.2 (Nat.le_refl _)))
  · have hlt : (exact m).value < (gridPoint m k (gridBelow m k + 1)).value :=
      not_le.1 fun hle => Nat.not_succ_le_self _ (gridPoint_le_iff.1 hle)
    exact habove (toMagnitude_of_between hexact h hlt.le (gridPoint_mono (Nat.lt_of_not_le hn)))

/-- The powers of ten around a value are points of every grid. -/
theorem value_gridPoint_pow (m k j : Nat) :
    (gridPoint m k (10 ^ j)).value = 10 ^ (leadExponent m + (j + 1 - k)) := by
  rw [value_gridPoint, Nat.cast_pow, ← zpow_natCast, Nat.cast_ofNat, ← zpow_sub₀ (by norm_num)]
  congr 1
  unfold gridShift
  omega

/-- The first point of a grid is the power of ten with which its number begins. -/
theorem value_gridPoint_first (m : Nat) (hk : 1 ≤ k) :
    (gridPoint m k (10 ^ (k - 1))).value = 10 ^ leadExponent m := by
  rw [value_gridPoint_pow]
  congr 1
  omega

/-- The point below a number has no more digits than the grid has places. -/
theorem gridBelow_lt (h0 : 0 < m) : gridBelow m k < 10 ^ k := by
  refine Nat.lt_of_not_le fun hle => ?_
  have hpoint := gridPoint_le_iff.2 hle
  have hnext : leadExponent m + ((k : Int) + 1 - k) = leadExponent m + 1 := by omega
  rw [value_gridPoint_pow, hnext] at hpoint
  exact absurd (value_leadExponent h0).2 (not_lt.2 hpoint)

/-- A decimal number with few digits is a point of the grid, or it is below the first digit of the
value. -/
theorem gridPoint_or_lt {d : Decimal} (hd : d.coefficient < 10 ^ k) :
    (∃ n, d.value = (gridPoint m k n).value) ∨ d.value < 10 ^ leadExponent m := by
  -- a coarser exponent is brought to that of the grid; with a finer one the number is too small
  rcases le_or_gt (-gridShift m k) d.exponent with hle | hlt
  · obtain ⟨j, hj⟩ := Int.eq_ofNat_of_zero_le (by omega : 0 ≤ d.exponent + gridShift m k)
    refine .inl ⟨d.coefficient * 10 ^ j, ?_⟩
    have hexp : d.exponent = j - gridShift m k := by omega
    rw [value_gridPoint, value, hexp, zpow_sub₀ (by norm_num), zpow_natCast]
    push_cast
    exact (mul_div_assoc _ _ _).symm
  · right
    have hcoefficient : (d.coefficient : ℚ) < 10 ^ (k : Int) := by
      rw [zpow_natCast]
      exact_mod_cast hd
    calc d.value < 10 ^ (k : Int) * 10 ^ d.exponent :=
          mul_lt_mul_of_pos_right hcoefficient (ten_zpow_pos _)
      _ = 10 ^ (k + d.exponent) := (zpow_add₀ (by norm_num) _ _).symm
      _ ≤ 10 ^ leadExponent m := by
          refine zpow_le_zpow_right₀ (by norm_num) ?_
          unfold gridShift at hlt
          omega

/-- **A grid has a hit if it can have one**: if a decimal number with so many digits reads back. -/
theorem onGrid?_ne_none {d : Decimal} (h0 : 0 < m) (hm : m < infinite) (hd : d.toMagnitude = m)
    (hk : 1 ≤ k) (hlt : d.coefficient < 10 ^ k) : onGrid? m k ≠ none := by
  rcases gridPoint_or_lt (m := m) hlt with ⟨n, hn⟩ | hsmall
  · exact onGrid?_ne_none_of_gridPoint hm (toMagnitude_of_between hd hd hn.le hn.ge)
  · -- the first digit is between the number and the value
    have hfirst := value_gridPoint_first m hk
    refine onGrid?_ne_none_of_gridPoint (n := 10 ^ (k - 1)) hm ?_
    refine toMagnitude_of_between hd (toMagnitude_exact hm) ?_ ?_
    · rw [hfirst]
      exact hsmall.le
    · rw [hfirst]
      exact (value_leadExponent h0).1

/-! ## Seventeen digits -/

/-- A magnitude's value is less than `10 ^ 16` times its distance from the one before. -/
theorem value_exact_succ_lt (m : Nat) :
    (exact (m + 1)).value < 10 ^ 16 * ((exact (m + 1)).value - (exact m).value) := by
  have hunit : (0 : ℚ) < unitsPerOne := Nat.cast_pos.2 Binary64.unitsPerOne_pos
  have hlt : units (m + 1) < 10 ^ 16 * step m := by
    calc units (m + 1) = (steps m + 1) * step m := Binary64.units_succ_eq m
      _ ≤ 2 * Binary64.binade * step m := Nat.mul_le_mul_right _ (Binary64.steps_lt m)
      _ < 10 ^ 16 * step m := Nat.mul_lt_mul_of_pos_right (by decide) (Binary64.step_pos m)
  have hstep : (exact (m + 1)).value - (exact m).value = step m / unitsPerOne := by
    rw [value_exact, value_exact, Binary64.units_succ, ← sub_div]
    push_cast
    rw [add_sub_cancel_left]
  rw [hstep, value_exact, ← mul_div_assoc]
  exact div_lt_div_of_pos_right (by exact_mod_cast hlt) hunit

/-- A value of `10 ^ 16` steps is more than a step away from that of the magnitude before. -/
theorem scaled_add_one_lt {scale : ℚ} (hscale : 0 < scale)
    (h : 10 ^ 16 ≤ (exact (m + 1)).value * scale) :
    (exact m).value * scale + 1 < (exact (m + 1)).value * scale := by
  have hgap := mul_lt_mul_of_pos_right (value_exact_succ_lt m) hscale
  rw [mul_assoc, sub_mul] at hgap
  linarith

/-- **Seventeen digits suffice**: the nearer neighbour of a value is less than half way from it to
the next magnitude. -/
theorem onGrid?_seventeen (h0 : 0 < m) (hm : m < infinite) : onGrid? m 17 ≠ none := by
  obtain ⟨p, rfl⟩ := Nat.exists_eq_succ_of_ne_zero h0.ne'
  have hscale := ten_zpow_pos (gridShift (p + 1) 17)
  have hfirst := (value_leadExponent h0).1
  rw [← value_gridPoint_first (k := 17) _ (by decide), value_gridPoint,
    div_le_iff₀ hscale] at hfirst
  have hpoint (n : Nat) : (gridPoint (p + 1) 17 n).value * 10 ^ gridShift (p + 1) 17 = n := by
    rw [value_gridPoint, div_mul_cancel₀ _ hscale.ne']
  generalize (10 : ℚ) ^ gridShift (p + 1) 17 = scale at hfirst hscale hpoint
  -- measured in points of the grid, both neighbours of the number are more than one point away
  have hlarge : 10 ^ 16 ≤ (exact (p + 1)).value * scale := by exact_mod_cast hfirst
  have hlast := scaled_add_one_lt hscale hlarge
  have hnext := scaled_add_one_lt (m := p + 1) hscale
    (hlarge.trans (mul_le_mul_of_nonneg_right (value_exact_lt_succ (p + 1)).le hscale.le))
  have hle := Nat.floor_le (le_trans (by norm_num) hlarge)
  have hlt := Nat.lt_floor_add_one ((exact (p + 1)).value * scale)
  generalize ⌊(exact (p + 1)).value * scale⌋₊ = n at hle hlt
  have hpoint' := hpoint (n + 1)
  push_cast at hpoint'
  -- the nearer of the points around the value is at most half a point away
  rcases le_or_gt (2 * ((exact (p + 1)).value * scale)) (2 * n + 1) with hhalf | hhalf
  · refine onGrid?_ne_none_of_gridPoint (n := n) hm (toMagnitude_of_middle_lt hm ?_ ?_)
    · refine lt_of_mul_lt_mul_right ?_ hscale.le
      rw [add_mul, mul_assoc, hpoint]
      linarith
    · refine le_of_mul_le_mul_right ?_ hscale
      rwa [hpoint]
  · refine onGrid?_ne_none_of_gridPoint (n := n + 1) hm (toMagnitude_of_lt_middle hm ?_ ?_)
    · refine le_of_mul_le_mul_right ?_ hscale
      rw [hpoint']
      exact hlt.le
    · refine lt_of_mul_lt_mul_right ?_ hscale.le
      rw [add_mul, mul_assoc, hpoint']
      linarith

end Grid

/-! ## The shortest decimal -/

/-- What a search finds first. -/
theorem exists_of_findSome?_range {β : Type} {f : Nat → Option β} {n : Nat} {b : β}
    (h : (List.range n).findSome? f = some b) :
    ∃ i < n, f i = some b ∧ ∀ j < i, f j = none := by
  induction n with
  | zero => cases h
  | succ n ih =>
    rw [List.range_succ, List.findSome?_append, Option.or_eq_some_iff] at h
    rcases h with h | ⟨hnone, h⟩
    · obtain ⟨i, hi, hfound⟩ := ih h
      exact ⟨i, Nat.lt_succ_of_lt hi, hfound⟩
    · refine ⟨n, Nat.lt_succ_self n, by simpa using h, fun j hj => ?_⟩
      exact List.findSome?_eq_none_iff.1 hnone j (List.mem_range.2 hj)

/-- **The search ends on a grid**, the first that has a hit. -/
theorem exists_grid_shortest {m : Nat} (h0 : 0 < m) (hm : m < infinite) :
    ∃ i, onGrid? m (i + 1) = some (shortest m) ∧ ∀ j < i, onGrid? m (j + 1) = none := by
  unfold shortest
  cases h : (List.range 17).findSome? fun i => onGrid? m (i + 1) with
  | none =>
    have hlast := List.findSome?_eq_none_iff.1 h 16 (by decide)
    exact absurd hlast (onGrid?_seventeen h0 hm)
  | some d =>
    obtain ⟨i, -, hfound, hbefore⟩ := exists_of_findSome?_range h
    exact ⟨i, hfound, hbefore⟩

/-- A significand is less than the power of ten with as many zeros as it has digits. -/
theorem significandValue_lt (d : Decimal) : d.significandValue < 10 ^ d.significand.length := by
  obtain ⟨z, hz⟩ := exists_significand d
  have hlt := lt_ten_pow_length d.coefficient
  rw [hz, List.length_append, zeros, List.length_replicate, Nat.pow_add, coefficient_eq hz] at hlt
  exact Nat.lt_of_mul_lt_mul_right hlt

/-- A significand has no more digits than the coefficient that it was made from. -/
theorem length_significand_le_length (d : Decimal) :
    d.significand.length ≤ (natDigits d.coefficient).length := by
  obtain ⟨z, hz⟩ := exists_significand d
  rw [hz, List.length_append]
  exact Nat.le_add_right _ _

/-- A zero at the end is no digit of the significand. -/
theorem significand_ten_mul {c : Nat} (hc : 0 < c) (e : Int) :
    (Decimal.mk (10 * c) e).significand = (Decimal.mk c e).significand := by
  have hdigits : natDigits (10 * c) = natDigits c ++ ['0'] :=
    (Nat.toDigits_append_toDigits (b := 10) (d := 0) (by decide) hc (by decide)).symm
  unfold significand
  dsimp only
  rw [hdigits, List.reverse_append]
  rfl

/-- A coefficient of at most `10 ^ k` has at most `k` digits before the zeros at its end. -/
theorem length_significand_le {d : Decimal} {k : Nat} (hk : 1 ≤ k) (h : d.coefficient ≤ 10 ^ k) :
    d.significand.length ≤ k := by
  have hlength {d : Decimal} (hlt : d.coefficient < 10 ^ k) : d.significand.length ≤ k :=
    (length_significand_le_length d).trans ((Nat.length_toDigits_le_iff (by decide) hk).2 hlt)
  obtain ⟨c, e⟩ := d
  rcases h.lt_or_eq with hlt | heq
  · exact hlength hlt
  · -- the power itself has a digit more, but the last is zero
    obtain ⟨j, rfl⟩ := Nat.exists_eq_succ_of_ne_zero (Nat.one_le_iff_ne_zero.1 hk)
    have hpow : c = 10 * 10 ^ j := heq.trans (Nat.pow_succ' ..)
    rw [hpow, significand_ten_mul (ten_pow_pos j)]
    exact hlength (Nat.pow_lt_pow_right (by decide) (Nat.lt_succ_self j))

/-- Zero has no significant digits. -/
theorem significand_shortest_zero : (shortest 0).significand = [] := by decide +kernel

/-- What is not rounded to zero has a significant digit. -/
theorem length_significand_pos {d : Decimal} (h : d.toMagnitude ≠ 0) :
    1 ≤ d.significand.length := by
  obtain ⟨x, ds, hs, -⟩ := significand_eq_cons (coefficient_ne_zero h)
  rw [hs]
  exact Nat.succ_pos _

/-- **No decimal number that reads back has fewer digits than the shortest.** -/
theorem length_shortest_le {m : Nat} (hm : m < infinite) {d : Decimal} (hd : d.toMagnitude = m) :
    (shortest m).significand.length ≤ d.significand.length := by
  rcases Nat.eq_zero_or_pos m with rfl | h0
  · rw [significand_shortest_zero]
    exact Nat.zero_le _
  obtain ⟨i, hfound, hbefore⟩ := exists_grid_shortest h0 hm
  have hshort : (shortest m).significand.length ≤ i + 1 := by
    have hlt := gridBelow_lt (k := i + 1) h0
    refine length_significand_le (Nat.succ_pos i) ?_
    rcases eq_of_onGrid? hfound with h | h
    · rw [h]
      exact hlt.le
    · rw [h]
      exact hlt
  have hlong : i + 1 ≤ d.significand.length := by
    refine Nat.le_of_not_lt fun hlt => ?_
    -- the digits of `d` are on a grid before
    have hpos := length_significand_pos (hd.trans_ne h0.ne')
    obtain ⟨j, hj⟩ := Nat.exists_eq_succ_of_ne_zero (Nat.one_le_iff_ne_zero.1 hpos)
    have hgrid := onGrid?_ne_none h0 hm ((toMagnitude_significand d).trans hd) hpos
      (significandValue_lt d)
    rw [hj] at hgrid
    exact hgrid (hbefore j (by omega))
  exact hshort.trans hlong

end Descent.Decimal
