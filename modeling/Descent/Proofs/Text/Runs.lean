/-!
# Runs of characters

How far a run of characters of one class goes: up to a place where no character
of the class comes first.
-/

namespace Descent

/-- What is decided of all members of a list holds of each of them. -/
theorem forall_of_all {α : Type} {l : List α} {p : α → Prop} [DecidablePred p]
    (h : l.all (fun x => p x) = true) : ∀ x ∈ l, p x :=
  fun x hx => of_decide_eq_true (List.all_eq_true.1 h x hx)

/-- No character of a class comes first. -/
def Stops (accepts : Char → Bool) (s : List Char) : Prop := ∀ x ∈ s.head?, accepts x = false

theorem stops_nil (accepts : Char → Bool) : Stops accepts [] := fun _ hx => nomatch hx

theorem stops_cons {accepts : Char → Bool} {x : Char} (h : accepts x = false) (s : List Char) :
    Stops accepts (x :: s) := by
  intro y hy
  obtain rfl := Option.some.inj hy
  exact h

theorem stops_beq_iff {x : Char} {s : List Char} : Stops (· == x) s ↔ s.head? ≠ some x := by
  cases s with
  | nil => simp [stops_nil]
  | cons y s => simp [Stops]

/-- Either no character of a class comes first, or one does. -/
theorem stops_or_exists (accepts : Char → Bool) (s : List Char) :
    Stops accepts s ∨ ∃ x rest, s = x :: rest ∧ accepts x = true := by
  cases s with
  | nil => exact .inl (stops_nil _)
  | cons x rest =>
    by_cases hx : accepts x = true
    · exact .inr ⟨x, rest, rfl, hx⟩
    · exact .inl (stops_cons (by simpa using hx) rest)

theorem takeWhile_of_stops {accepts : Char → Bool} {s : List Char} (h : Stops accepts s) :
    s.takeWhile accepts = [] := by
  cases s with
  | nil => rfl
  | cons x s => exact List.takeWhile_cons_of_neg (by simp [h x rfl])

theorem stops_dropWhile (accepts : Char → Bool) (s : List Char) :
    Stops accepts (s.dropWhile accepts) := by
  intro x hx
  have := List.head?_dropWhile_not accepts s
  rw [hx] at this
  simpa using this

theorem dropWhile_of_stops {accepts : Char → Bool} {s : List Char} (h : Stops accepts s) :
    s.dropWhile accepts = s := by
  cases s with
  | nil => rfl
  | cons x s => exact List.dropWhile_cons_of_neg (by simp [h x rfl])

/-- A run is taken if it is stopped behind its end. -/
theorem takeWhile_append_of_stops {accepts : Char → Bool} {w s : List Char}
    (hw : ∀ x ∈ w, accepts x = true) (hs : Stops accepts s) : (w ++ s).takeWhile accepts = w := by
  rw [List.takeWhile_append_of_pos hw, takeWhile_of_stops hs, List.append_nil]

/-- A run is dropped if it is stopped behind its end. -/
theorem dropWhile_append_of_stops {accepts : Char → Bool} {w s : List Char}
    (hw : ∀ x ∈ w, accepts x = true) (hs : Stops accepts s) : (w ++ s).dropWhile accepts = s := by
  rw [List.dropWhile_append_of_pos hw, dropWhile_of_stops hs]

/-- A text stops a run if its first part does, or is empty and the second one does. -/
theorem stops_append {accepts : Char → Bool} {w rest : List Char}
    (hw : ∀ x ∈ w.head?, accepts x = false) (hr : w = [] → Stops accepts rest) :
    Stops accepts (w ++ rest) := by
  cases w with
  | nil => exact hr rfl
  | cons x w => exact stops_cons (hw x rfl) _

end Descent
