import Descent.Source.Position

/-!
# The log of a traced run

A traced parser writes an entry when it begins and one when it ends. Entries are
of level `debug`, so a log takes them only at level `debug` or `trace`.
-/

namespace Descent

/-- How much a log takes, from the least to the most. -/
inductive Level where
  | panic
  | fatal
  | error
  | warning
  | info
  | debug
  | trace
  deriving DecidableEq, Repr

/-- Whether a log of this level takes the entries of traced parsers. -/
def Level.isVerbose : Level → Bool
  | .debug | .trace => true
  | _ => false

/-- **An entry**: a traced parser began, ended in a success, or ended in a failure. The label
and the position are those of the parser and of the place where it began. -/
inductive Entry where
  | began (label : Text) (pos : Position)
  | succeeded (label : Text) (pos : Position) (stop : Position)
  | failed (label : Text) (pos : Position) (message : Text)
  deriving DecidableEq, Repr

/-- The value of a field of an entry. -/
inductive Field where
  | text (t : Text)
  | number (n : Int)
  | flag (b : Bool)
  deriving DecidableEq, Repr

namespace Entry

/-- What an entry says. -/
def message : Entry → Text
  | .began .. => utf8 "parse"
  | .succeeded .. => utf8 "parse done"
  | .failed .. => utf8 "parse failed"

/-- The fields that every entry has. -/
def startFields (label : Text) (pos : Position) : List (String × Field) :=
  [("label", .text label), ("line", .number pos.line), ("col", .number pos.column)]

/-- The fields of an entry. -/
def fields : Entry → List (String × Field)
  | .began label pos => startFields label pos
  | .succeeded label pos stop =>
    startFields label pos ++
      [("ok", .flag true), ("end_line", .number stop.line), ("end_col", .number stop.column)]
  | .failed label pos message =>
    startFields label pos ++ [("ok", .flag false), ("error", .text message)]

end Entry

end Descent
