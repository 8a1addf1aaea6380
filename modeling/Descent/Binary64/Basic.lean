/-!
# Binary64 numbers

A number of the 64-bit binary format is a sign and a 63-bit **magnitude**, the
exponent field followed by the fraction field. Magnitudes are ordered as the
values they stand for, so rounding and comparison work on magnitudes alone, in
exact integer arithmetic.

The value of a finite magnitude is a whole number of **units** of `2 ^ -1074`.
-/

namespace Descent

/-- **A binary64 number**: a sign, and the exponent and fraction fields as one number. -/
structure Binary64 where
  negative : Bool
  magnitude : Nat
  magnitude_lt : magnitude < 0x8000000000000000 := by decide
  deriving DecidableEq, Repr

namespace Binary64

/-- The magnitude of the infinities. Those above it belong to no number. -/
def infinite : Nat := 0x7FF0000000000000

/-- How many units make one. -/
def unitsPerOne : Nat := Nat.pow 2 1074

/-- How many magnitudes have the same exponent field. -/
abbrev binade : Nat := 0x10000000000000

/-- The number with the given 64 bits. -/
def ofBits (b : UInt64) : Binary64 where
  negative := 0x8000000000000000 ≤ b.toNat
  magnitude := b.toNat % 0x8000000000000000
  magnitude_lt := Nat.mod_lt _ (by decide)

/-- The 64 bits of a number. -/
def toBits (x : Binary64) : UInt64 :=
  .ofNat (x.magnitude + if x.negative then 0x8000000000000000 else 0)

/-- Not a number. -/
def IsNaN (x : Binary64) : Prop := infinite < x.magnitude

/-- Infinite, of either sign. -/
def IsInf (x : Binary64) : Prop := x.magnitude = infinite

/-- Neither infinite nor not a number. -/
def IsFinite (x : Binary64) : Prop := x.magnitude < infinite

instance (x : Binary64) : Decidable x.IsNaN := inferInstanceAs (Decidable (_ < _))

instance (x : Binary64) : Decidable x.IsInf := inferInstanceAs (Decidable (_ = _))

instance (x : Binary64) : Decidable x.IsFinite := inferInstanceAs (Decidable (_ < _))

/-- The magnitude `m` as a number, one above the infinities if it is out of range. -/
def ofMagnitude (negative : Bool) (m : Nat) : Binary64 where
  negative := negative
  magnitude := min m (infinite + 1)
  magnitude_lt := by
    have : infinite + 1 < 0x8000000000000000 := by decide
    omega

/-- The value of a finite magnitude, in units: the fraction field alone in the lowest
binade, and from there on with a leading one, scaled by the exponent field. -/
def units (m : Nat) : Nat :=
  if m < binade then m else (binade + m % binade) * Nat.pow 2 (m / binade - 1)

/-- A key by which the values of two numbers compare; both zeros have the key zero. -/
def orderKey (x : Binary64) : Int := if x.negative then -x.magnitude else x.magnitude

/-- The two numbers have the same value. Nothing equals what is not a number. -/
def SameValue (x y : Binary64) : Prop := ¬ x.IsNaN ∧ ¬ y.IsNaN ∧ x.orderKey = y.orderKey

/-- The value of the first number is at most that of the second. -/
def AtMost (x y : Binary64) : Prop := ¬ x.IsNaN ∧ ¬ y.IsNaN ∧ x.orderKey ≤ y.orderKey

instance (x y : Binary64) : Decidable (x.SameValue y) := inferInstanceAs (Decidable (_ ∧ _ ∧ _))

instance (x y : Binary64) : Decidable (x.AtMost y) := inferInstanceAs (Decidable (_ ∧ _ ∧ _))

/-- The bits of a number, as a number: the sign is the highest bit. -/
theorem toNat_toBits (x : Binary64) :
    x.toBits.toNat = x.magnitude + if x.negative then 0x8000000000000000 else 0 := by
  have h := x.magnitude_lt
  rw [toBits, UInt64.toNat_ofNat', Nat.mod_eq_of_lt]
  split <;> omega

/-- The bits of a number determine it. -/
@[simp]
theorem ofBits_toBits (x : Binary64) : ofBits x.toBits = x := by
  have h := x.magnitude_lt
  have hs : decide (0x8000000000000000 ≤ x.toBits.toNat) = x.negative := by
    rw [toNat_toBits]
    cases x.negative
    · exact decide_eq_false (by rw [if_neg Bool.false_ne_true]; omega)
    · exact decide_eq_true (by rw [if_pos rfl]; omega)
  have hm : x.toBits.toNat % 0x8000000000000000 = x.magnitude := by
    rw [toNat_toBits]
    split <;> omega
  simp only [ofBits, hs, hm]

/-- All 64 bits of a number are kept. -/
@[simp]
theorem toBits_ofBits (b : UInt64) : (ofBits b).toBits = b := by
  have hb := b.toNat_lt
  apply UInt64.toNat_inj.1
  rw [toNat_toBits]
  simp only [ofBits, decide_eq_true_eq]
  split <;> omega

end Binary64

end Descent
