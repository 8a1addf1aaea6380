import Descent.Json.Path

/-!
# Paths are all or nothing

A path is walked step by step, and each step may fail. What a walk has reached is
forgotten when a later step fails: the answer is then the value at which the whole
path began, with the error of that step. So a path may be cut anywhere and its
parts followed one after the other, except that a failure of the second part is
told of the beginning of the first.

* `path_eq_success_iff`, `path_eq_failure_iff`: a path ends as its walk does.
* `place?_eq_some_iff`: the places that indices have.
* `step_index_eq_ok_iff`: what an index selects.
* `path_composes`: a path in two parts.
-/

namespace Descent.Json

section

variable {s w x : Sparse} {ps qs : List Step} {e : PathError} {es : List Sparse} {i : Int}

/-! ## Walks -/

/-- A path succeeds exactly where its walk does. -/
theorem path_eq_success_iff : path s ps = (x, none) ↔ walk s ps = .ok x := by
  unfold path
  cases walk s ps with
  | ok w => simp
  | error e => simp

/-- **A path that fails yields the value it began with**, whatever its walk has reached. -/
theorem path_eq_failure_iff : path s ps = (x, some e) ↔ x = s ∧ walk s ps = .error e := by
  unfold path
  cases walk s ps with
  | ok w => simp
  | error e' => simp [eq_comm]

/-- After a part that leads to `w`, a walk goes on from `w`. -/
theorem walk_append_of_ok (h : walk s ps = .ok w) (qs : List Step) :
    walk s (ps ++ qs) = walk w qs := by
  rw [walk_append, h]
  rfl

/-- After a part that fails, a walk goes no further. -/
theorem walk_append_of_error (h : walk s ps = .error e) (qs : List Step) :
    walk s (ps ++ qs) = .error e := by
  rw [walk_append, h]
  rfl

theorem walk_singleton (s : Sparse) (p : Step) : walk s [p] = step s p := by
  unfold walk
  cases step s p <;> rfl

/-! ## Indices -/

/-- **The place of an index** is counted from the beginning, or from the end if the index is
negative. -/
theorem place?_eq_some_iff {n k : Nat} :
    place? n i = some k ↔ -n ≤ i ∧ i < n ∧ k = (if i < 0 then n + i else i).toNat := by
  unfold place?
  dsimp only
  split <;> split <;> simp <;> omega

/-- An index has no place if it is out of bounds, counted from either end. -/
theorem place?_eq_none_iff {n : Nat} : place? n i = none ↔ ¬ (-n ≤ i ∧ i < n) := by
  unfold place?
  dsimp only
  split <;> split <;> simp <;> omega

/-- Out of its bounds, an index is refused. -/
theorem step_index_of_out (h : s.elements? = some es) (hout : ¬ (-es.length ≤ i ∧ i < es.length)) :
    step s (.index i) = .error (.outOfBounds i es.length) := by
  simp only [step, h, place?_eq_none_iff.2 hout, Option.bind_none]

/-- **An index selects** the element at its place, and there is one if the index is within the
bounds. -/
theorem step_index_eq_ok_iff (h : s.elements? = some es) :
    step s (.index i) = .ok w ↔ (-es.length ≤ i ∧ i < es.length) ∧
      es[(if i < 0 then es.length + i else i).toNat]? = some w := by
  by_cases hin : -es.length ≤ i ∧ i < es.length
  · have hplace : place? es.length i = some (if i < 0 then es.length + i else i).toNat :=
      place?_eq_some_iff.2 ⟨hin.1, hin.2, rfl⟩
    simp only [step, h, hplace, Option.bind_some, hin, and_self, true_and]
    cases es[(if i < 0 then es.length + i else i).toNat]? <;> simp
  · rw [step_index_of_out h hin]
    simp [hin]

theorem exists_step_index (h : s.elements? = some es) (hin : -es.length ≤ i ∧ i < es.length) :
    ∃ w, step s (.index i) = .ok w := by
  have hlt : (if i < 0 then es.length + i else i).toNat < es.length := by
    split <;> omega
  exact ⟨_, (step_index_eq_ok_iff h).2 ⟨hin, List.getElem?_eq_getElem hlt⟩⟩

end

/-! ## Paths in two parts -/

/-- **What an index does** at the end of a path from `s` that leads to an array with the elements
`es`: it selects an element exactly within the bounds, and the path fails beyond them. -/
structure Indexes (s : Sparse) (ps : List Step) (es : List Sparse) (i : Int) : Prop where
  succeeds_iff : (∃ x, path s (ps ++ [.index i]) = (x, none)) ↔ -es.length ≤ i ∧ i < es.length
  selects : ∀ x, path s (ps ++ [.index i]) = (x, none) →
    es[(if i < 0 then es.length + i else i).toNat]? = some x
  refuses : ¬ (-es.length ≤ i ∧ i < es.length) →
    path s (ps ++ [.index i]) = (s, some (.outOfBounds i es.length))

/-- Behind a path that leads to a list, an index selects from its elements. -/
theorem indexes_of_walk {s w : Sparse} {ps : List Step} {es : List Sparse}
    (h : walk s ps = .ok w) (hes : w.elements? = some es) (i : Int) : Indexes s ps es i := by
  have hwalk : walk s (ps ++ [.index i]) = step w (.index i) := by
    rw [walk_append_of_ok h, walk_singleton]
  refine ⟨⟨?_, ?_⟩, ?_, ?_⟩
  · rintro ⟨x, hx⟩
    rw [path_eq_success_iff, hwalk] at hx
    exact ((step_index_eq_ok_iff hes).1 hx).1
  · intro hin
    obtain ⟨x, hx⟩ := exists_step_index hes hin
    exact ⟨x, path_eq_success_iff.2 (hwalk.trans hx)⟩
  · intro x hx
    rw [path_eq_success_iff, hwalk] at hx
    exact ((step_index_eq_ok_iff hes).1 hx).2
  · intro hout
    exact path_eq_failure_iff.2 ⟨rfl, hwalk.trans (step_index_of_out hes hout)⟩

/-- **A path is followed in two parts, and is all or nothing.** Where the first part leads to `w`,
the whole succeeds and fails as the second part does from `w`, and an index that comes next selects
an element of `w`. Where the first part fails, the whole fails in the same way. What fails yields
the value that it began with. -/
theorem path_composes (s : Sparse) (ps qs : List Step) :
    (∀ w, path s ps = (w, none) →
      (∀ x, path s (ps ++ qs) = (x, none) ↔ path w qs = (x, none)) ∧
      (∀ e, path s (ps ++ qs) = (s, some e) ↔ path w qs = (w, some e)) ∧
      ∀ es i, w.elements? = some es → Indexes s ps es i) ∧
    ∀ e, (path s ps).2 = some e → path s ps = (s, some e) ∧ path s (ps ++ qs) = (s, some e) := by
  constructor
  · intro w hw
    have hwalk := path_eq_success_iff.1 hw
    have hmore := walk_append_of_ok hwalk qs
    refine ⟨?_, ?_, ?_⟩
    · intro x
      rw [path_eq_success_iff, path_eq_success_iff, hmore]
    · intro e
      rw [path_eq_failure_iff, path_eq_failure_iff, hmore]
      simp
    · intro es i hes
      exact indexes_of_walk hwalk hes i
  · intro e he
    have hfails : path s ps = ((path s ps).1, some e) := Prod.ext rfl he
    obtain ⟨hs, hwalk⟩ := path_eq_failure_iff.1 hfails
    exact ⟨path_eq_failure_iff.2 ⟨rfl, hwalk⟩,
      path_eq_failure_iff.2 ⟨rfl, walk_append_of_error hwalk qs⟩⟩

/-- The last element of the array is an array of two. An index of 2 is beyond it, and the failure
yields the outer array. -/
theorem path_composes_beyond :
    path (.json (.array [.null, .array [.bool true, .null]])) [.index (-1)] =
      (.json (.array [.bool true, .null]), none) ∧
    path (.json (.array [.bool true, .null])) [.index 2] =
      (.json (.array [.bool true, .null]), some (.outOfBounds 2 2)) ∧
    path (.json (.array [.null, .array [.bool true, .null]])) [.index (-1), .index 2] =
      (.json (.array [.null, .array [.bool true, .null]]), some (.outOfBounds 2 2)) := by
  have hfirst : path (.json (.array [.null, .array [.bool true, .null]])) [.index (-1)] =
      (.json (.array [.bool true, .null]), none) := rfl
  have hsecond : path (.json (.array [.bool true, .null])) [.index 2] =
      (.json (.array [.bool true, .null]), some (.outOfBounds 2 2)) := rfl
  have hparts := (path_composes (.json (.array [.null, .array [.bool true, .null]])) [.index (-1)]
    [.index 2]).1 _ hfirst
  exact ⟨hfirst, hsecond, (hparts.2.1 _).2 hsecond⟩

end Descent.Json
