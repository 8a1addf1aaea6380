import Descent.Binary64.Round
import Descent.Fault
import Descent.Json.Render

/-!
# Paths into JSON values

A path is a sequence of **steps** from a value to a part of it: a key of an
object, an index of an array (from the end if it is negative), or a function.
There may be no value to start with, and a function may give none, or a value
that lacks some of its parts, so a walk goes over **sparse** values. A walk that
fails at any step yields the value it began with.

* `walk_append`: a path is walked one part after the other.
-/

namespace Descent.Json

/-- **A value that may be missing**, in whole or in part. -/
inductive Sparse where
  /-- There is no value. -/
  | missing
  /-- There is a value, with all of its parts. -/
  | json (v : Json)
  /-- An array that may lack some of its elements. -/
  | array (elements : List Sparse)
  /-- An object that may lack the values of some of its keys. -/
  | object (members : List (Text × Sparse))
  deriving Inhabited, Repr

namespace Sparse

mutual

/-- The value, if no part of it is missing. -/
def toJson? : Sparse → Option Json
  | .missing => none
  | .json v => some v
  | .array ss => (allJson? ss).map Json.array
  | .object ms => (allMembers? ms).map Json.object

/-- The values, if no part of any is missing. -/
def allJson? : List Sparse → Option (List Json)
  | [] => some []
  | s :: ss =>
    match s.toJson?, allJson? ss with
    | some v, some vs => some (v :: vs)
    | _, _ => none

/-- The members, if no part of any value is missing. -/
def allMembers? : List (Text × Sparse) → Option Members
  | [] => some []
  | (k, s) :: ms =>
    match s.toJson?, allMembers? ms with
    | some v, some vs => some ((k, v) :: vs)
    | _, _ => none

end

/-- The canonical text of a value. There is none if a part of it is missing. -/
def text (s : Sparse) : Except Fault Text :=
  match s.toJson? with
  | some v => .ok v.text
  | none => .error .missingValue

/-- The kind of a value, as errors name it. -/
def kindName : Sparse → Text
  | .missing => utf8 "<nil>"
  | .json .null => utf8 "ast.Null"
  | .json (.bool _) => utf8 "ast.Bool"
  | .json (.number _) => utf8 "ast.Number"
  | .json (.string _) => utf8 "ast.String"
  | .json (.array _) | .array _ => utf8 "ast.Array"
  | .json (.object _) | .object _ => utf8 "ast.Object"

/-- The elements of an array. -/
def elements? : Sparse → Option (List Sparse)
  | .json (.array es) => some (es.map .json)
  | .array ss => some ss
  | _ => none

/-- The members of an object. -/
def members? : Sparse → Option (List (Text × Sparse))
  | .json (.object ms) => some (ms.map fun m => (m.1, .json m.2))
  | .object ms => some ms
  | _ => none

/-- The number of elements or members. -/
def length? (s : Sparse) : Option Nat :=
  match s.elements? with
  | some es => some es.length
  | none => s.members?.map List.length

/-- The array with just the value. -/
def wrap : Sparse → Sparse
  | .json v => .json (.array [v])
  | s => .array [s]

end Sparse

/-- Why a step of a path cannot be taken. -/
inductive PathError where
  /-- A key where there is no object. -/
  | notObject (kind : Text) (key : Text)
  /-- A key that the object does not have. -/
  | noKey (key : Text)
  /-- An index where there is no array. -/
  | notArray (kind : Text) (index : Int)
  /-- An index beyond the ends of the array. -/
  | outOfBounds (index : Int) (size : Nat)
  /-- The error of a function. -/
  | refused (message : Text)
  /-- A step that is neither a key, an index nor a function. -/
  | invalidStep (kind : Text)
  deriving DecidableEq, Repr

/-- The wording of an error. -/
def PathError.message : PathError → Text
  | .notObject kind key => utf8 "cannot traverse " ++ kind ++ utf8 " with " ++ Quoted.text key
  | .noKey key => utf8 "key " ++ Quoted.text key ++ utf8 " not found"
  | .notArray kind index => utf8 "cannot traverse " ++ kind ++ utf8 " with " ++ decimalText index
  | .outOfBounds index size =>
    utf8 "array index " ++ decimalText index ++ utf8 " out of bounds (n=" ++ decimalText size ++
      utf8 ")"
  | .refused message => message
  | .invalidStep kind => utf8 "invalid path element " ++ kind

/-- **A step of a path.** -/
inductive Step where
  | key (k : Text)
  | index (i : Int)
  | function (f : Sparse → Except Text Sparse)
  | invalid (kind : Text)

/-- The place of an index in a list of the given size. Negative indices count from the end. -/
def place? (size : Nat) (i : Int) : Option Nat :=
  let j := if i < 0 then i + size else i
  if 0 ≤ j ∧ j < size then some j.toNat else none

/-- Takes one step. -/
def step (s : Sparse) : Step → Except PathError Sparse
  | .key k =>
    match s.members? with
    | some ms =>
      match ms.lookup k with
      | some w => .ok w
      | none => .error (.noKey k)
    | none => .error (.notObject s.kindName k)
  | .index i =>
    match s.elements? with
    | some es =>
      match (place? es.length i).bind (es[·]?) with
      | some w => .ok w
      | none => .error (.outOfBounds i es.length)
    | none => .error (.notArray s.kindName i)
  | .function f =>
    match f s with
    | .ok w => .ok w
    | .error message => .error (.refused message)
  | .invalid kind => .error (.invalidStep kind)

/-- Takes the steps in order. -/
def walk (s : Sparse) : List Step → Except PathError Sparse
  | [] => .ok s
  | p :: ps =>
    match step s p with
    | .ok w => walk w ps
    | .error e => .error e

/-- **Follows a path**: the part it leads to, or the value it began with and the error. -/
def path (s : Sparse) (steps : List Step) : Sparse × Option PathError :=
  match walk s steps with
  | .ok w => (w, none)
  | .error e => (s, some e)

/-- A path is walked one part after the other. -/
theorem walk_append (s : Sparse) (ps qs : List Step) :
    walk s (ps ++ qs) = (walk s ps).bind fun w => walk w qs := by
  induction ps generalizing s with
  | nil => rfl
  | cons p ps ih =>
    simp only [List.cons_append, walk]
    cases step s p with
    | ok w => exact ih w
    | error e => rfl

/-! ## Functions for paths -/

namespace Step

/-- The number of elements or members. -/
def length : Step := .function fun s =>
  match s.length? with
  | some n => .ok (.json (.number (Binary64.ofMagnitude false (Binary64.nearest n 1))))
  | none => .error (utf8 "not a thing with length")

/-- The keys of an object, as an array. -/
def keys : Step := .function fun s =>
  match s.members? with
  | some ms => .ok (.json (.array (ms.map fun m => .string m.1)))
  | none => .error (utf8 "not an object")

/-- The array with just the value. -/
def wrap : Step := .function fun s => .ok s.wrap

/-- No value, whatever there was. -/
def drop : Step := .function fun _ => .ok .missing

end Step

end Descent.Json
