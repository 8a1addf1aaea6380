import Descent.Proofs.Untyped.Building
import Descent.Untyped.Session
import Mathlib.Logic.Relation

/-!
# The cursors of a session

A session moves its cursor by reading characters and by running parsers, sets it
aside and goes back. However it does so, it stays in its text: each cursor that it
holds is reached from the beginning by reading on, but for the cursor over an
empty text that a name never used stands for. As long as it does not go back, the
cursor only moves forward, and what was set aside can be restored.

* `Session.InText.step`: what one step preserves.
* `Session.inText_of_steps`: what every session preserves.
* `Session.onward_of_reads`, `Session.restore_of_reads`: reading on, and going
  back afterwards.
-/

namespace Descent.Untyped.Session

open Descent.Parser

variable {book : RuleBook} {level : Level} {t : Text} {s s' : Session}

/-- **A step that reads**: one character, or what a parser takes. -/
inductive Reads (book : RuleBook) (level : Level) : Session → Session → Prop where
  | next (s : Session) : Reads book level s s.next.2
  | parse (s : Session) (p : Description) : Reads book level s (s.parse book level p).2

/-- **A step of a session**: it reads, sets its cursor aside, or goes back. -/
inductive Step (book : RuleBook) (level : Level) : Session → Session → Prop where
  | reads {s s' : Session} : Reads book level s s' → Step book level s s'
  | save (s : Session) (slot : Text) : Step book level s (s.save slot)
  | restore (s : Session) (slot : Text) : Step book level s (s.restore slot)

/-! ## Reading on -/

/-- What a parser leaves of a session: everything but the cursor, and that one is moved only by a
success. -/
theorem parse_cases (book : RuleBook) (level : Level) (s : Session) (p : Description) :
    (s.parse book level p).2 = s ∨
      ∃ label r v rest, p.runWith book level s.cursor = .ok (label, r) ∧
        r.outcome = .success v rest ∧ (s.parse book level p).2 = { s with cursor := rest } := by
  unfold parse
  cases h : p.runWith book level s.cursor with
  | error e => exact .inl rfl
  | ok run =>
    obtain ⟨label, r⟩ := run
    cases hr : r.outcome with
    | success v rest =>
      simp only [hr]
      exact .inr ⟨label, r, v, rest, rfl, hr, rfl⟩
    | failure f =>
      simp only [hr]
      exact .inl trivial
    | fault e =>
      simp only [hr]
      exact .inl trivial

/-- To go to the next character, if there is one, is to read on. -/
theorem reaches_advance (c : Cursor) : c.Reaches c.advance := by
  cases h : c.ahead with
  | nil =>
    rw [Cursor.advance_of_ahead_nil h]
    exact .here c
  | cons x rest => exact .of_next (Cursor.next_of_ahead h)

/-- A step that reads keeps what was set aside, and moves the cursor forward. -/
theorem Reads.forward (h : Reads book level s s') (hs : s.cursor.Coherent) :
    s'.slots = s.slots ∧ s.cursor.Reaches s'.cursor := by
  cases h with
  | next => exact ⟨rfl, reaches_advance s.cursor⟩
  | parse p =>
    rcases parse_cases book level s p with h | ⟨label, r, v, rest, h, hr, hs'⟩
    · rw [h]
      exact ⟨rfl, .here _⟩
    · rw [hs']
      exact ⟨rfl, Description.reaches_of_runWith hs h hr⟩

/-- However long a session reads on, it keeps what was set aside, and moves forward. -/
theorem forward_of_reads (h : Relation.ReflTransGen (Reads book level) s s')
    (hs : s.cursor.Coherent) : s'.slots = s.slots ∧ s.cursor.Reaches s'.cursor := by
  induction h with
  | refl => exact ⟨rfl, .here _⟩
  | tail _ hstep ih =>
    obtain ⟨hslots, hreaches⟩ := ih
    obtain ⟨hslots', hreaches'⟩ := hstep.forward (hreaches.coherent hs)
    exact ⟨hslots'.trans hslots, hreaches.trans hreaches'⟩

/-- **A session that goes back after it has read on is as it was.** -/
theorem restore_of_reads {slot : Text}
    (h : Relation.ReflTransGen (Reads book level) (s.save slot) s') (hs : s.cursor.Coherent) :
    s'.restore slot = s.save slot := by
  have hslots : s'.slots = (slot, s.cursor) :: s.slots := (forward_of_reads h hs).1
  unfold restore save
  rw [hslots, List.find?_cons_of_pos (by simp)]
  obtain ⟨cursor, slots⟩ := s'
  obtain rfl : slots = _ := hslots
  rfl

/-! ## Staying in the text -/

/-- **A cursor in a text** is reached from the beginning of the text, or is the one over an empty
text. -/
def CursorIn (t : Text) (c : Cursor) : Prop := (Cursor.ofText t).Reaches c ∨ c = .empty

/-- **A session in a text** holds cursors in the text only. -/
structure InText (t : Text) (s : Session) : Prop where
  cursor : CursorIn t s.cursor
  slots : ∀ saved ∈ s.slots, CursorIn t saved.2

theorem coherent_empty : Cursor.empty.Coherent := Cursor.coherent_ofText []

/-- The cursors of a session are coherent. -/
theorem CursorIn.coherent {c : Cursor} (h : CursorIn t c) : c.Coherent := by
  rcases h with h | rfl
  · exact h.coherent (Cursor.coherent_ofText t)
  · exact coherent_empty

/-- From the cursor over an empty text, nothing else is reached. -/
theorem CursorIn.of_reaches {c d : Cursor} (h : CursorIn t c) (hd : c.Reaches d) :
    CursorIn t d := by
  rcases h with h | rfl
  · exact .inl (h.trans hd)
  · by_cases hne : d = .empty
    · exact .inr hne
    · exact absurd (hd.length_lt hne) (Nat.not_lt_zero _)

/-- A session begins in its text. -/
theorem inText_start (t : Text) : InText t (start t) where
  cursor := .inl (.here _)
  slots := fun _ h => nomatch h

/-- **What a step preserves.** -/
theorem InText.step (h : InText t s) (hstep : Step book level s s') : InText t s' := by
  cases hstep with
  | reads hreads =>
    obtain ⟨hslots, hreaches⟩ := hreads.forward h.cursor.coherent
    exact ⟨h.cursor.of_reaches hreaches, hslots ▸ h.slots⟩
  | save slot => exact ⟨h.cursor, List.forall_mem_cons.2 ⟨h.cursor, h.slots⟩⟩
  | restore slot =>
    refine ⟨?_, h.slots⟩
    unfold restore
    cases hfind : s.slots.find? (·.1 == slot) with
    | none => exact .inr rfl
    | some saved => exact h.slots saved (List.mem_of_find?_eq_some hfind)

/-- **A session stays in its text**, whatever steps it takes. -/
theorem inText_of_steps (h : Relation.ReflTransGen (Step book level) (start t) s) : InText t s := by
  induction h with
  | refl => exact inText_start t
  | tail _ hstep ih => exact ih.step hstep

/-- **As long as a session reads on, its cursor is further on in the text**, from wherever it
had come to by any steps. -/
theorem onward_of_reads (h : Relation.ReflTransGen (Step book level) (start t) s)
    (hreads : Relation.ReflTransGen (Reads book level) s s') :
    s.cursor.Onward s'.cursor := by
  have hs := (inText_of_steps h).cursor.coherent
  exact (forward_of_reads hreads hs).2.onward hs

end Descent.Untyped.Session
