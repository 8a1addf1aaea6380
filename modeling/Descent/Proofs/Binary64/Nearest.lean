import Descent.Proofs.Binary64.Round
import Mathlib.Order.Lattice
import Mathlib.Tactic.SplitIfs

/-!
# Rounding is correct

Every quotient lies between the values of two magnitudes next to each other, and
rounding takes it to the one that is nearer, and to the even one from the middle.
It follows that rounding keeps the order, so the quotients that round to one
magnitude have no gaps between them.

* `units_succ`: how far it is from one magnitude to the next.
* `nearest_of_between`: a quotient rounds to the nearer of the magnitudes around it.
* `nearest_mono`: rounding keeps the order.
-/

namespace Descent

/-! ## The nearer of two neighbours -/

/-- `q` or `q + 1`, as `x` is below or above the middle between them, and in the middle the even
one. -/
def nearer (q x middle : Nat) : Nat :=
  if x < middle then q else if middle < x then q + 1 else q + q % 2

section Nearer

variable {q x middle : Nat}

theorem nearer_of_lt (h : x < middle) : nearer q x middle = q := if_pos h

theorem nearer_of_gt (h : middle < x) : nearer q x middle = q + 1 := by
  unfold nearer
  rw [if_neg (Nat.lt_asymm h), if_pos h]

/-- Rounding never goes below the place where the value was found. -/
theorem le_nearer (q x middle : Nat) : q ≤ nearer q x middle := by
  unfold nearer
  split_ifs <;> omega

/-- Rounding goes up by one place at most. -/
theorem nearer_le (q x middle : Nat) : nearer q x middle ≤ q + 1 := by
  unfold nearer
  split_ifs <;> omega

/-- The greater value is rounded to the greater place, or to the same. -/
theorem nearer_mono {x' : Nat} (h : x ≤ x') : nearer q x middle ≤ nearer q x' middle := by
  unfold nearer
  split_ifs <;> omega

/-- Moving the neighbours by an even number keeps which of them is even. -/
theorem add_nearer {k m : Nat} (hm : k + q = m) (hparity : q % 2 = m % 2) :
    k + nearer q x middle = nearer m x middle := by
  unfold nearer
  split_ifs <;> omega

end Nearer

/-- **A quotient rounds to the nearer of its neighbours.** -/
theorem roundDiv_of_between {num den q : Nat} (hlow : q * den ≤ num) (hhigh : num < (q + 1) * den) :
    roundDiv num den = nearer q (2 * num) ((2 * q + 1) * den) := by
  have hdiv : num / den = q := Nat.div_eq_of_lt_le hlow hhigh
  have hmod : num = q * den + num % den := by
    rw [← hdiv, Nat.mul_comm]
    exact (Nat.div_add_mod num den).symm
  have hmiddle : (2 * q + 1) * den = 2 * (q * den) + den := by
    rw [Nat.add_mul, Nat.one_mul, Nat.mul_assoc]
  unfold roundDiv nearer
  dsimp only
  rw [hdiv, hmiddle]
  split_ifs <;> omega

namespace Binary64

/-! ## The values of magnitudes -/

/-- The distance from a magnitude to the next one, in units. -/
def step (m : Nat) : Nat := 2 ^ (m / binade - 1)

/-- The value of a magnitude, in steps: the fraction field, with a leading one from the first
binade on. -/
def steps (m : Nat) : Nat := if m < binade then m else binade + m % binade

theorem step_pos (m : Nat) : 0 < step m := Nat.two_pow_pos _

/-- A number is so many steps, each as long as those of its binade. -/
theorem units_eq (m : Nat) : units m = steps m * step m := by
  unfold units steps step
  split
  · rename_i hm
    rw [Nat.div_eq_of_lt hm]
    exact (Nat.mul_one m).symm
  · rfl

/-- A magnitude counts the steps of the binades before its own, and its own. -/
theorem binades_add_steps (m : Nat) : (m / binade - 1) * binade + steps m = m := by
  unfold steps binade
  split <;> omega

/-- A number has fewer steps than two binades have numbers. -/
theorem steps_lt (m : Nat) : steps m < 2 * binade := by
  unfold steps binade
  split <;> omega

/-- The steps of a magnitude are even or odd as the magnitude is. -/
theorem steps_mod_two (m : Nat) : steps m % 2 = m % 2 := by
  have h := binades_add_steps m
  unfold binade at h
  omega

/-- **From one magnitude to the next it is one step**, also from one binade to the next. -/
theorem units_succ (m : Nat) : units (m + 1) = units m + step m := by
  rw [units_eq, units_eq, ← Nat.succ_mul]
  by_cases hsame : (m + 1) / binade - 1 = m / binade - 1
  · have hsteps : steps (m + 1) = steps m + 1 := by
      have h := binades_add_steps m
      have h' := binades_add_steps (m + 1)
      rw [hsame] at h'
      omega
    rw [hsteps, step, hsame, step]
  · -- the last magnitude of a binade has one step less than two binades
    have hlast : steps m + 1 = 2 * binade := by
      unfold binade at hsame
      unfold steps binade
      split <;> omega
    have hfirst : steps (m + 1) = binade := by
      unfold binade at hsame
      unfold steps binade
      split <;> omega
    have hdouble : step (m + 1) = 2 * step m := by
      unfold step
      rw [← Nat.pow_succ']
      congr 1
      unfold binade at hsame ⊢
      omega
    rw [Nat.succ_eq_add_one, hlast, hfirst, hdouble]
    exact (Nat.mul_left_comm _ _ _).trans (Nat.mul_assoc _ _ _).symm

/-- The next magnitude has one step more. -/
theorem units_succ_eq (m : Nat) : units (m + 1) = (steps m + 1) * step m := by
  rw [units_succ, units_eq, Nat.succ_mul]

theorem units_zero : units 0 = 0 := rfl

/-- The next number is greater. -/
theorem units_lt_succ (m : Nat) : units m < units (m + 1) := by
  have := step_pos m
  rw [units_succ]
  omega

theorem units_strictMono : StrictMono units := strictMono_nat_of_lt_succ units_lt_succ

/-! ## The magnitudes around a quotient -/

/-- Every value is between two numbers that follow one another. -/
theorem exists_units_le_lt (n : Nat) : ∃ m, units m ≤ n ∧ n < units (m + 1) := by
  induction n with
  | zero => exact ⟨0, Nat.le_refl _, units_lt_succ 0⟩
  | succ n ih =>
    obtain ⟨m, hle, hlt⟩ := ih
    by_cases h : n + 1 < units (m + 1)
    · exact ⟨m, Nat.le_succ_of_le hle, h⟩
    · have hn : units (m + 1) = n + 1 := by omega
      exact ⟨m + 1, Nat.le_of_eq hn, hn ▸ units_lt_succ (m + 1)⟩

/-- **Every quotient lies between two magnitudes** next to each other. -/
theorem exists_between (n : Nat) {den : Nat} (hd : 0 < den) :
    ∃ m, units m * den ≤ n ∧ n < units (m + 1) * den := by
  obtain ⟨m, hle, hlt⟩ := exists_units_le_lt (n / den)
  exact ⟨m, (Nat.le_div_iff_mul_le hd).1 hle, (Nat.div_lt_iff_lt_mul hd).1 hlt⟩

/-- The bits that are rounded away are as many as the binades before that of the lower
magnitude. -/
theorem surplus_of_between {n den m : Nat} (hd : 0 < den) (hlow : units m * den ≤ n)
    (hhigh : n < units (m + 1) * den) : (n / den).log2 - 52 = m / binade - 1 := by
  have hle : units m ≤ n / den := (Nat.le_div_iff_mul_le hd).2 hlow
  have hlt : n / den < units (m + 1) := (Nat.div_lt_iff_lt_mul hd).2 hhigh
  rw [units_succ_eq] at hlt
  -- below the first binade nothing is rounded away; above it, the binade tells the length
  by_cases hm : m < binade
  · have hsmall : n / den < 2 ^ 52 := by
      have hstep : step m = 1 := by
        unfold step
        rw [Nat.div_eq_of_lt hm]
        rfl
      have hsteps : steps m = m := if_pos hm
      rw [hstep, hsteps, Nat.mul_one] at hlt
      exact Nat.lt_of_lt_of_le hlt hm
    have hlog : (n / den).log2 ≤ 51 := by
      by_cases h0 : n / den = 0
      · rw [h0]
        decide
      · exact Nat.le_of_lt_succ ((Nat.log2_lt h0).2 hsmall)
    rw [Nat.div_eq_of_lt hm]
    omega
  · have hbinade : binade ≤ steps m := by
      unfold steps
      rw [if_neg hm]
      omega
    have hne : n / den ≠ 0 := by
      have h1 : 0 < units m := by
        rw [units_eq]
        exact Nat.mul_pos (Nat.lt_of_lt_of_le (by decide) hbinade) (step_pos m)
      omega
    have hlog : (n / den).log2 = 52 + (m / binade - 1) := by
      rw [Nat.log2_eq_iff hne]
      constructor
      · calc 2 ^ (52 + (m / binade - 1)) = binade * step m := by rw [Nat.pow_add, binade_eq]; rfl
          _ ≤ steps m * step m := Nat.mul_le_mul_right _ hbinade
          _ = units m := (units_eq m).symm
          _ ≤ n / den := hle
      · calc n / den < (steps m + 1) * step m := hlt
          _ ≤ 2 * binade * step m := Nat.mul_le_mul_right _ (steps_lt m)
          _ = 2 ^ (52 + (m / binade - 1) + 1) := by
            rw [Nat.pow_succ', Nat.pow_add, binade_eq, Nat.mul_assoc]
            rfl
    rw [hlog]
    omega

/-- **A quotient rounds to the nearer of the magnitudes around it.** -/
theorem nearest_of_between {num den m : Nat} (hd : 0 < den)
    (hlow : units m * den ≤ num * unitsPerOne) (hhigh : num * unitsPerOne < units (m + 1) * den) :
    nearest num den =
      min infinite (nearer m (2 * (num * unitsPerOne)) ((units m + units (m + 1)) * den)) := by
  have hscale (a : Nat) : a * (den * step m) = a * step m * den := by
    rw [Nat.mul_comm den, Nat.mul_assoc]
  have hlow' : steps m * (den * step m) ≤ num * unitsPerOne := by
    rwa [hscale, ← units_eq]
  have hhigh' : num * unitsPerOne < (steps m + 1) * (den * step m) := by
    rwa [hscale, ← units_succ_eq]
  have hmiddle : (2 * steps m + 1) * (den * step m) = (units m + units (m + 1)) * den := by
    rw [hscale, units_succ, units_eq]
    congr 1
    rw [Nat.succ_mul, Nat.mul_assoc, Nat.two_mul, Nat.add_assoc]
  have hpow : Nat.pow 2 (m / binade - 1) = step m := rfl
  unfold nearest
  dsimp only
  rw [surplus_of_between hd hlow hhigh, hpow, roundDiv_of_between hlow' hhigh', hmiddle,
    add_nearer (binades_add_steps m) (steps_mod_two m)]

/-! ## Order -/

/-- Of two values with the same denominator, the greater is rounded to the greater number. -/
theorem nearest_mono_num {num num' : Nat} (h : num ≤ num') {den : Nat} (hd : 0 < den) :
    nearest num den ≤ nearest num' den := by
  obtain ⟨m, hlow, hhigh⟩ := exists_between (num * unitsPerOne) hd
  obtain ⟨m', hlow', hhigh'⟩ := exists_between (num' * unitsPerOne) hd
  have hscaled : num * unitsPerOne ≤ num' * unitsPerOne := Nat.mul_le_mul_right _ h
  have hle : m < m' + 1 := by
    refine units_strictMono.lt_iff_lt.1 (Nat.lt_of_mul_lt_mul_right (a := den) ?_)
    exact Nat.lt_of_le_of_lt (Nat.le_trans hlow hscaled) hhigh'
  rw [nearest_of_between hd hlow hhigh, nearest_of_between hd hlow' hhigh']
  refine inf_le_inf_left infinite ?_
  -- the magnitudes around the two quotients are the same, or one of them is between the quotients
  rcases Nat.eq_or_lt_of_le (Nat.le_of_lt_succ hle) with rfl | hlt
  · exact nearer_mono (Nat.mul_le_mul_left 2 hscaled)
  · exact Nat.le_trans (nearer_le _ _ _) (Nat.le_trans hlt (le_nearer _ _ _))

/-- **Rounding keeps the order of quotients.** -/
theorem nearest_mono {num den num' den' : Nat} (hd : 0 < den) (hd' : 0 < den')
    (h : num * den' ≤ num' * den) : nearest num den ≤ nearest num' den' :=
  calc nearest num den
      = nearest (num * den') (den * den') := (nearest_mul_mul num den hd').symm
    _ ≤ nearest (num' * den) (den * den') := nearest_mono_num h (Nat.mul_pos hd hd')
    _ = nearest num' den' := by rw [Nat.mul_comm den, nearest_mul_mul num' den' hd]

end Binary64

end Descent
