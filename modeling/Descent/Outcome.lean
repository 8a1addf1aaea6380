import Descent.Failure

/-!
# Outcomes

Running a parser ends in one of three ways: a value and a cursor at the rest of
the input, a failure, or a fault.
-/

namespace Descent

/-- **How a run ends.** -/
inductive Outcome (α : Type) where
  /-- A value, and the rest of the input. -/
  | success (value : α) (rest : Cursor)
  /-- The input is not what the parser accepts. -/
  | failure (f : Failure)
  /-- The grammar is wrong. -/
  | fault (e : Fault)
  deriving DecidableEq, Repr

namespace Outcome

variable {α β : Type}

/-- The outcome with its value changed. -/
def map (f : α → β) : Outcome α → Outcome β
  | .success v rest => .success (f v) rest
  | .failure e => .failure e
  | .fault e => .fault e

/-- The outcome with its failure under another label. -/
def relabel (label : Text) : Outcome α → Outcome α
  | .success v rest => .success v rest
  | .failure f => .failure (f.relabel label)
  | .fault e => .fault e

/-- The rest of the input; nothing is left of it unless the run succeeded. -/
def rest : Outcome α → Cursor
  | .success _ rest => rest
  | _ => .empty

/-- **An outcome for a reader**: the value as `display` shows it, or the report of the
failure. -/
def print (display : α → Text) : Outcome α → Except Fault Text
  | .success v _ => .ok (display v)
  | .failure f => f.report
  | .fault e => .error e

/-- **An outcome on one line**, with the position of the rest. -/
def summary (display : α → Text) : Outcome α → Except Fault Text
  | .success v rest =>
    .ok (utf8 "Success: " ++ display v ++ utf8 " (rest at " ++ rest.pos.text ++ utf8 ")")
  | .failure f => .ok (utf8 "Failure: " ++ f.errorText)
  | .fault e => .error e

@[simp]
theorem map_success (f : α → β) (v : α) (rest : Cursor) :
    (success v rest).map f = .success (f v) rest := rfl

@[simp]
theorem map_failure (f : α → β) (e : Failure) : (failure e).map f = .failure e := rfl

@[simp]
theorem map_fault (f : α → β) (e : Fault) : (fault e).map f = .fault e := rfl

end Outcome

end Descent
