import Descent.Binary64.Round
import Mathlib.Algebra.Group.Nat.Defs

/-!
# What rounding to the nearest number does

Rounding depends on the quotient alone, not on how it is written, and leaves the
values of the format as they are. Quotients that are too large become infinite,
and those below half a unit become zero.

* `nearest_eq_of_mul_eq`: equal quotients round to the same magnitude.
* `nearest_units`: the value of a finite magnitude rounds to that magnitude.
* `nearest_eq_infinite`, `nearest_eq_zero`: the two ends of the range.
-/

namespace Descent

/-- A common factor makes no difference to rounded division. -/
theorem roundDiv_mul_mul (num den : Nat) {k : Nat} (hk : 0 < k) :
    roundDiv (num * k) (den * k) = roundDiv num den := by
  have hlt (a b : Nat) : 2 * (a * k) < b * k ↔ 2 * a < b := by
    rw [← Nat.mul_assoc, Nat.mul_lt_mul_right hk]
  have hgt (a b : Nat) : b * k < 2 * (a * k) ↔ b < 2 * a := by
    rw [← Nat.mul_assoc, Nat.mul_lt_mul_right hk]
  unfold roundDiv
  simp only [Nat.mul_div_mul_right _ _ hk, Nat.mul_mod_mul_right, hlt, hgt]

/-- A quotient rounds to no less than its whole part. -/
theorem div_le_roundDiv (num den : Nat) : num / den ≤ roundDiv num den := by
  unfold roundDiv
  dsimp only
  split
  · exact Nat.le_refl _
  · split <;> omega

/-- Less than a half is rounded to zero. -/
theorem roundDiv_eq_zero {num den : Nat} (h : 2 * num < den) : roundDiv num den = 0 := by
  have hlt : num < den := by omega
  unfold roundDiv
  rw [Nat.mod_eq_of_lt hlt, Nat.div_eq_of_lt hlt]
  exact if_pos h

namespace Binary64

theorem unitsPerOne_eq : unitsPerOne = 2 ^ 1074 := by
  unfold unitsPerOne
  exact @Nat.pow_eq 2 1074

theorem unitsPerOne_pos : 0 < unitsPerOne := by
  rw [unitsPerOne_eq]
  exact Nat.two_pow_pos 1074

theorem binade_eq : binade = 2 ^ 52 := by decide

/-- A common factor makes no difference to rounding. -/
theorem nearest_mul_mul (num den : Nat) {k : Nat} (hk : 0 < k) :
    nearest (num * k) (den * k) = nearest num den := by
  have hscaled : num * k * unitsPerOne = num * unitsPerOne * k := Nat.mul_right_comm _ _ _
  have hden (s : Nat) : den * k * Nat.pow 2 s = den * Nat.pow 2 s * k := Nat.mul_right_comm _ _ _
  unfold nearest
  simp only [hscaled, hden, Nat.mul_div_mul_right _ _ hk, roundDiv_mul_mul _ _ hk]

/-- **Equal quotients round to the same magnitude.** -/
theorem nearest_eq_of_mul_eq {num den num' den' : Nat} (hd : 0 < den) (hd' : 0 < den')
    (h : num * den' = num' * den) : nearest num den = nearest num' den' :=
  calc nearest num den
      = nearest (num * den') (den * den') := (nearest_mul_mul num den hd').symm
    _ = nearest (num' * den) (den' * den) := by rw [h, Nat.mul_comm den den']
    _ = nearest num' den' := nearest_mul_mul num' den' hd

/-- The rounding of a value that is a whole number of units. -/
theorem nearest_whole (u : Nat) :
    nearest u unitsPerOne =
      min infinite ((u.log2 - 52) * binade + roundDiv u (Nat.pow 2 (u.log2 - 52))) := by
  unfold nearest
  dsimp only
  rw [Nat.mul_div_cancel _ unitsPerOne_pos, Nat.mul_comm unitsPerOne,
    roundDiv_mul_mul _ _ unitsPerOne_pos]

/-- The length of a normal number, in bits, tells its binade. -/
theorem log2_units {m : Nat} (h : binade ≤ m) : (units m).log2 = 52 + (m / binade - 1) := by
  have hmod : m % binade < binade := Nat.mod_lt _ (by decide)
  have hpos : 0 < Nat.pow 2 (m / binade - 1) := Nat.pow_pos (by decide)
  have hne : units m ≠ 0 := by
    unfold units
    rw [if_neg (by omega)]
    exact Nat.ne_of_gt (Nat.mul_pos (by omega) hpos)
  rw [Nat.log2_eq_iff hne]
  unfold units
  rw [if_neg (by omega), Nat.pow_add, Nat.add_right_comm, Nat.pow_add, ← binade_eq]
  constructor
  · exact Nat.mul_le_mul_right _ (Nat.le_add_right _ _)
  · have htop : (2 : Nat) ^ (52 + 1) = binade + binade := by decide
    rw [htop]
    exact Nat.mul_lt_mul_of_pos_right (Nat.add_lt_add_left hmod _) hpos

/-- **The value of a finite magnitude rounds to that magnitude.** -/
theorem nearest_units {m : Nat} (h : m < infinite) : nearest (units m) unitsPerOne = m := by
  rw [nearest_whole]
  by_cases hm : m < binade
  -- below the first binade, a magnitude is its own number of units
  · have hlog : (units m).log2 - 52 = 0 := by
      unfold units
      rw [if_pos hm]
      by_cases h0 : m = 0
      · rw [h0]
        rfl
      · have := (Nat.log2_lt h0).2 (show m < 2 ^ 52 from hm)
        omega
    have hround : roundDiv (units m) (Nat.pow 2 0) = m := by
      have hexact : roundDiv (m * 1) 1 = m := roundDiv_mul_right m (by decide)
      rw [Nat.mul_one] at hexact
      unfold units
      rw [if_pos hm]
      exact hexact
    rw [hlog, hround]
    omega
  -- above it, the surplus of bits is the number of the binade, and nothing is rounded away
  · have hm' : binade ≤ m := Nat.le_of_not_lt hm
    have hlog : (units m).log2 - 52 = m / binade - 1 := by
      rw [log2_units hm']
      omega
    have hround : roundDiv (units m) (Nat.pow 2 (m / binade - 1)) = binade + m % binade := by
      unfold units
      rw [if_neg hm]
      exact roundDiv_mul_right _ (Nat.pow_pos (by decide))
    have hdiv := Nat.div_add_mod m binade
    have hpos : 1 ≤ m / binade := (Nat.one_le_div_iff (by decide)).2 hm'
    have hsum : (m / binade - 1) * binade + (binade + m % binade) = m := by
      rw [Nat.sub_mul, Nat.mul_comm (m / binade) binade]
      have : binade ≤ binade * (m / binade) := Nat.le_mul_of_pos_right _ hpos
      omega
    rw [hlog, hround, hsum]
    omega

/-- **A quotient below half a unit becomes zero.** -/
theorem nearest_eq_zero {num den : Nat} (h : 2 * (num * unitsPerOne) < den) :
    nearest num den = 0 := by
  have hdiv : num * unitsPerOne / den = 0 := Nat.div_eq_of_lt (by omega)
  have hlog : (num * unitsPerOne / den).log2 - 52 = 0 := by
    rw [hdiv]
    rfl
  unfold nearest
  dsimp only
  rw [hlog, roundDiv_eq_zero (by simpa using h)]
  omega

/-- A quotient above a power of two stays so when it is scaled by another one. -/
theorem pow_add_le_div {num den : Nat} (hd : 0 < den) {a : Nat} (h : 2 ^ a * den ≤ num) (b : Nat) :
    2 ^ (a + b) ≤ num * 2 ^ b / den := by
  rw [Nat.le_div_iff_mul_le hd, Nat.pow_add, Nat.mul_right_comm]
  exact Nat.mul_le_mul_right _ h

/-- What is left of a quotient after the surplus still has 53 bits. -/
theorem pow_le_roundDiv {scaled den q : Nat} (hq : scaled / den = q) (hlog : 52 ≤ q.log2) :
    2 ^ 52 ≤ roundDiv scaled (den * Nat.pow 2 (q.log2 - 52)) := by
  have hq0 : q ≠ 0 := by
    rintro rfl
    exact absurd hlog (by decide)
  have hpow : 2 ^ 52 * 2 ^ (q.log2 - 52) = 2 ^ q.log2 := by
    rw [← Nat.pow_add, Nat.add_sub_cancel' hlog]
  refine Nat.le_trans ?_ (div_le_roundDiv _ _)
  rw [← Nat.div_div_eq_div_mul, hq]
  refine (Nat.le_div_iff_mul_le (Nat.pow_pos (by decide))).2 ?_
  exact Nat.le_trans (Nat.le_of_eq hpow) (Nat.log2_self_le hq0)

/-- **A quotient beyond the range becomes infinite.** -/
theorem nearest_eq_infinite {num den : Nat} (hd : 0 < den) (h : 2 ^ 1024 * den ≤ num) :
    nearest num den = infinite := by
  have hq : 2 ^ (1024 + 1074) ≤ num * unitsPerOne / den := by
    rw [unitsPerOne_eq]
    exact pow_add_le_div hd h 1074
  have hlog : 1024 + 1074 ≤ (num * unitsPerOne / den).log2 := by
    refine (Nat.le_log2 ?_).2 hq
    exact Nat.ne_of_gt (Nat.lt_of_lt_of_le (Nat.pow_pos (by decide)) hq)
  -- from here on only the number of bits matters; the powers themselves are too large to keep
  clear h hq
  have hround := pow_le_roundDiv rfl (Nat.le_trans (by decide) hlog)
  have hsurplus : 2046 * binade ≤ ((num * unitsPerOne / den).log2 - 52) * binade :=
    Nat.mul_le_mul_right _ (Nat.le_sub_of_add_le hlog)
  have hinf : infinite = 2046 * binade + 2 ^ 52 := by decide
  unfold nearest
  dsimp only
  rw [hinf]
  exact Nat.min_eq_left (Nat.add_le_add hsurplus hround)

end Binary64

end Descent
