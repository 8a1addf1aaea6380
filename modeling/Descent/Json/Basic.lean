import Descent.Binary64.Basic
import Descent.Text.Utf8

/-!
# JSON values

Strings and keys are texts, numbers are binary64. The members of an object are
kept in increasing order of their keys, each key once, so that two objects with
the same members are equal; `Members.insert` is the one way to add a member.
`Json.Canonical` says that a value is built so throughout.

* `find?_insert`: after an insertion the key has the new value, and every other
  key the value it had.
-/

namespace Descent

/-- **A JSON value.** -/
inductive Json where
  | null
  | bool (b : Bool)
  | number (x : Binary64)
  | string (t : Text)
  | array (elements : List Json)
  | object (members : List (Text × Json))
  deriving Inhabited, Repr

/-- The members of an object. -/
abbrev Members := List (Text × Json)

namespace Members

/-- Adds a member in its place; it replaces one with the same key. -/
def insert (key : Text) (value : Json) : Members → Members
  | [] => [(key, value)]
  | (k, v) :: ms =>
    if key = k then (key, value) :: ms
    else if key < k then (key, value) :: (k, v) :: ms
    else (k, v) :: insert key value ms

/-- **The members given by a list**, from left to right: of several with one key, the last
one stays. -/
def ofList (ms : List (Text × Json)) : Members := ms.foldl (fun acc (k, v) => acc.insert k v) []

/-- The value of a key. -/
def find? : Members → Text → Option Json
  | [], _ => none
  | (k, v) :: ms, key => if key = k then some v else find? ms key

/-- The keys, in order. -/
def keys (ms : Members) : List Text := ms.map Prod.fst

/-- Keys increase strictly. -/
def Sorted (ms : Members) : Prop := ms.keys.Pairwise (· < ·)

/-- **After an insertion** the key has the new value, and every other key the value it had. -/
theorem find?_insert (ms : Members) (key k : Text) (value : Json) :
    (ms.insert key value).find? k = if k = key then some value else ms.find? k := by
  induction ms with
  | nil => simp [insert, find?]
  | cons m ms ih =>
    obtain ⟨k', v'⟩ := m
    simp only [insert]
    split
    · grind [find?]
    · split
      · grind [find?]
      · grind [find?]

end Members

namespace Json

/-- Every object of the value has its members in order. -/
inductive Canonical : Json → Prop where
  | null : Canonical .null
  | bool (b : Bool) : Canonical (.bool b)
  | number (x : Binary64) : Canonical (.number x)
  | string (t : Text) : Canonical (.string t)
  | array {es : List Json} : (∀ e ∈ es, Canonical e) → Canonical (.array es)
  | object {ms : Members} : ms.Sorted → (∀ m ∈ ms, Canonical m.2) → Canonical (.object ms)

/-- The object with the given members; of several with one key, the last one stays. -/
def ofMembers (ms : List (Text × Json)) : Json := .object (Members.ofList ms)

/-- The number of elements or members. -/
def length? : Json → Option Nat
  | .array es => some es.length
  | .object ms => some ms.length
  | _ => none

/-- The keys of an object, in order. -/
def keys? : Json → Option (List Text)
  | .object ms => some (Members.keys ms)
  | _ => none

end Json

end Descent
