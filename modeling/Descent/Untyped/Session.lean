import Descent.Untyped.Description

/-!
# Sessions

A session reads a text step by step: it holds the current cursor, and cursors
set aside under names.
-/

namespace Descent.Untyped

/-- **The state of a session.** -/
structure Session where
  cursor : Cursor
  slots : List (Text × Cursor)

namespace Session

/-- A session at the beginning of a text. -/
def start (t : Text) : Session := ⟨.ofText t, []⟩

/-- Sets the cursor aside. -/
def save (s : Session) (slot : Text) : Session := { s with slots := (slot, s.cursor) :: s.slots }

/-- Goes back to a cursor that was set aside. Under a name never used there is the cursor
over an empty text. -/
def restore (s : Session) (slot : Text) : Session :=
  { s with cursor := ((s.slots.find? (·.1 == slot)).map Prod.snd).getD .empty }

/-- Reads one character, if there is one. -/
def next (s : Session) : Option Char × Session :=
  (s.cursor.next.map Prod.fst, { s with cursor := s.cursor.advance })

/-- **Runs a parser**; a success moves the cursor. -/
def parse (s : Session) (book : RuleBook) (level : Level) (p : Description) :
    Except Fault (Text × Run Value) × Session :=
  match p.runWith book level s.cursor with
  | .error e => (.error e, s)
  | .ok (label, r) =>
    match r.outcome with
    | .success _ rest => (.ok (label, r), { s with cursor := rest })
    | _ => (.ok (label, r), s)

end Session

end Descent.Untyped
