import Descent.Binary64.Arith
import Descent.Json.Basic

/-!
# Approximate comparison of JSON values

Two numbers are close if they have the same value, or if their distance is at
most a given fraction of the greater absolute value, all in binary64 arithmetic.
Two values are close if they have the same shape and close numbers.
-/

namespace Descent

/-- Two numbers are equal up to a fraction of the greater one. -/
def Binary64.Close (fraction x y : Binary64) : Prop :=
  x.SameValue y ∨ (x.distance y).AtMost (fraction.mul (x.maxAbs y))

instance (fraction x y : Binary64) : Decidable (Binary64.Close fraction x y) :=
  inferInstanceAs (Decidable (_ ∨ _))

namespace Json

mutual

/-- **Two values are equal up to a fraction** in their numbers. -/
def close (fraction : Binary64) : Json → Json → Bool
  | .null, .null => true
  | .bool a, .bool b => a == b
  | .number x, .number y => decide (Binary64.Close fraction x y)
  | .string s, .string t => s == t
  | .array es, .array fs => closeElements fraction es fs
  | .object ms, .object ns => closeMembers fraction ms ns
  | _, _ => false

/-- Elements compare one by one. -/
def closeElements (fraction : Binary64) : List Json → List Json → Bool
  | [], [] => true
  | e :: es, f :: fs => close fraction e f && closeElements fraction es fs
  | _, _ => false

/-- Members compare one by one, as both are in the order of their keys. -/
def closeMembers (fraction : Binary64) : List (Text × Json) → List (Text × Json) → Bool
  | [], [] => true
  | (k, v) :: ms, (l, w) :: ns => k == l && close fraction v w && closeMembers fraction ms ns
  | _, _ => false

end

end Json

end Descent
