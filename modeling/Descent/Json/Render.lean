import Descent.Json.Basic
import Descent.Json.Number
import Descent.Json.Quote

/-!
# JSON values in writing

The canonical text of a value: no white space, members in the order of their
keys, strings and numbers as `quote` and `numberText` write them.
-/

namespace Descent.Json

mutual

/-- **The canonical text of a value**, as characters. -/
def render : Json → List Char
  | .null => "null".toList
  | .bool true => "true".toList
  | .bool false => "false".toList
  | .number x => numberText x
  | .string t => quote t
  | .array es => '[' :: renderElements es ++ [']']
  | .object ms => '{' :: renderMembers ms ++ ['}']

/-- Elements, with commas between them. -/
def renderElements : List Json → List Char
  | [] => []
  | e :: es => e.render ++ renderMoreElements es

/-- Elements, with a comma before each. -/
def renderMoreElements : List Json → List Char
  | [] => []
  | e :: es => ',' :: e.render ++ renderMoreElements es

/-- Members, with commas between them. -/
def renderMembers : List (Text × Json) → List Char
  | [] => []
  | (k, v) :: ms => quote k ++ ':' :: v.render ++ renderMoreMembers ms

/-- Members, with a comma before each. -/
def renderMoreMembers : List (Text × Json) → List Char
  | [] => []
  | (k, v) :: ms => ',' :: quote k ++ ':' :: v.render ++ renderMoreMembers ms

end

/-- The canonical text of a value. -/
def text (v : Json) : Text := Utf8.encode v.render

end Descent.Json
