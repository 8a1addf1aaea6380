import Descent.Proofs.Json.Delimited

/-!
# Where documents are rejected

A text is **rejected** for one of two reasons. Either a value comes first, and
behind it and the white space after it something that should not be there; the
failure stands there and asks for the end of the input. Or no value comes first.
The alternatives of a value are tried in order and the last failure stands, so
this is the failure of an object, however far the others have come: it stands
before the first character, unless that is a brace.

* `afterSpace`: the cursor after the white space at a cursor.
* `parse_of_value_success`, `parse_of_value_failure`: parsing goes by the value
  that comes first.
* `parse_failure_iff`: the failures of parsing, with label, cause and place.
-/

namespace Descent.Json

open Descent.Parser Syntax Grammar

/-! ## White space at a cursor -/

/-- The cursor after all the white space at `c`. -/
def afterSpace (c : Cursor) : Cursor := c.skip (c.ahead.takeWhile isSpace).length

/-- The cursor behind white space is the one with the rest ahead. -/
theorem afterSpace_eq_upTo (c : Cursor) : afterSpace c = c.upTo (c.ahead.dropWhile isSpace) :=
  (Cursor.upTo_append List.takeWhile_append_dropWhile.symm).symm

theorem ahead_afterSpace (c : Cursor) : (afterSpace c).ahead = c.ahead.dropWhile isSpace := by
  rw [afterSpace_eq_upTo]
  exact Cursor.ahead_upTo (dropWhile_suffix c.ahead)

/-- No white space comes after all the white space. -/
theorem stops_afterSpace (c : Cursor) : Stops isSpace (afterSpace c).ahead := by
  rw [ahead_afterSpace]
  exact stops_dropWhile isSpace c.ahead

/-- White space may be skipped from anywhere on the way. -/
theorem afterSpace_upTo {c : Cursor} {r : List Char} (hr : r <:+ c.ahead) :
    afterSpace (c.upTo r) = c.upTo (r.dropWhile isSpace) := by
  rw [afterSpace_eq_upTo, Cursor.ahead_upTo hr, Cursor.upTo_upTo hr (dropWhile_suffix r)]

/-! ## The end of the input -/

/-- Where there is no white space, the end of the input is refused before any character. -/
theorem readEnd_of_stops {x : Char} {s : List Char} (h : Stops isSpace (x :: s)) :
    readEnd (x :: s) = .refused (utf8 "end of input") (x :: s) := by
  rw [readEnd, if_neg]
  rintro ⟨rfl, -⟩
  exact absurd (h '\n' rfl) (by decide)

/-- **After white space, only a character is not the end of the input.** The last line feed is
white space, so it is gone. -/
theorem readEnd_afterSpace_failure_iff {c : Cursor} {f : Failure} :
    (readEnd (afterSpace c).ahead).outcome (afterSpace c) = .failure f ↔
      ∃ x e, (afterSpace c).next = some (x, e) ∧ isSpace x = false ∧
        f = .here (utf8 "end of input") (.unexpected x) (afterSpace c) := by
  have hstops := stops_afterSpace c
  -- nothing is left, or a character that is not white space
  cases hahead : (afterSpace c).ahead with
  | nil =>
    rw [Cursor.next_eq_none_iff.2 hahead]
    constructor
    · intro h
      cases h
    · rintro ⟨x, e, h, -⟩
      cases h
  | cons x s =>
    have hnext := Cursor.next_of_ahead hahead
    rw [hahead] at hstops
    have hobstacle : (afterSpace c).obstacle = .unexpected x :=
      Cursor.obstacle_eq_unexpected_iff.2 (by rw [hahead]; rfl)
    have hend : (readEnd (x :: s)).outcome (afterSpace c) =
        .failure (.here (utf8 "end of input") (.unexpected x) (afterSpace c)) := by
      rw [readEnd_of_stops hstops, ← hahead, Reading.outcome_refused, Cursor.upTo_ahead, hobstacle]
    rw [hend]
    constructor
    · intro h
      exact ⟨x, _, hnext, hstops x rfl, (Outcome.failure.inj h).symm⟩
    · rintro ⟨y, e, hy, -, rfl⟩
      rw [hnext] at hy
      obtain ⟨rfl, -⟩ := Prod.mk.inj (Option.some.inj hy)
      rfl

/-! ## Parsing by the value that comes first -/

/-- **Parsing skips white space and then reads a value**, more white space and the end of the
input. -/
theorem parse_eq_outcome_afterSpace (t : Text) :
    parse t = (((value self).read (rules.answer (rules.depth (.ofText t)))
        (afterSpace (.ofText t)).ahead).andThen fun v r =>
      (readEnd (r.dropWhile isSpace)).map fun _ => v).outcome (afterSpace (.ofText t)) := by
  have hspace := dropWhile_of_stops (stops_afterSpace (.ofText t))
  have hread := read_document (rules.depth (.ofText t)) (afterSpace (.ofText t)).ahead
  have hwithin := within_read (rules.within_answer (rules.depth (.ofText t))) (document self)
    (afterSpace (.ofText t)).ahead
  rw [hspace] at hread
  rw [hread, ahead_afterSpace] at hwithin
  rw [ahead_afterSpace, afterSpace_eq_upTo, Reading.outcome_upTo (dropWhile_suffix _) hwithin,
    ← read_document, Cursor.ahead_ofText]
  exact parse_eq_outcome t

section First

variable {t : Text} {level : Level} {d : Cursor}

/-- Behind white space, the rule for values comes to what it reads. -/
theorem outcome_value (hd : d = afterSpace (.ofText t)) (level : Level) :
    ((Kind.any.parser self).runWith rules level d).outcome =
      ((value self).read (rules.answer (rules.depth (.ofText t))) d.ahead).outcome d := by
  refine (steady_kind .any).outcome_runWith level ?_
  have hle := (dropWhile_suffix (Cursor.ofText t).ahead).length_le
  have hlt := length_lt_depth (.ofText t)
  rw [hd, ahead_afterSpace]
  omega

/-- **Where a value comes first**, the end of the input has to come after it and the white space
that follows. -/
theorem parse_of_value_success (hd : d = afterSpace (.ofText t)) {v : Json} {r : Cursor}
    (h : ((Kind.any.parser self).runWith rules level d).outcome = .success v r) :
    parse t = ((readEnd (afterSpace r).ahead).outcome (afterSpace r)).map fun _ => v := by
  rw [outcome_value hd] at h
  obtain ⟨rest, hread, rfl⟩ := Reading.took_of_outcome h
  have hrest : rest <:+ d.ahead := by
    have hwithin := within_read (rules.within_answer (rules.depth (.ofText t))) (value self) d.ahead
    rw [hread] at hwithin
    exact hwithin
  have hsuffix : rest.dropWhile isSpace <:+ d.ahead := (dropWhile_suffix rest).trans hrest
  rw [parse_eq_outcome_afterSpace, ← hd, hread, Reading.andThen_took,
    afterSpace_upTo hrest, Cursor.ahead_upTo hsuffix, Reading.outcome_map,
    Reading.outcome_upTo hsuffix (within_readEnd _)]

/-- **Where no value comes first**, parsing fails as the rule for values does. -/
theorem parse_of_value_failure (hd : d = afterSpace (.ofText t)) {f : Failure}
    (h : ((Kind.any.parser self).runWith rules level d).outcome = .failure f) :
    parse t = .failure f := by
  rw [outcome_value hd] at h
  obtain ⟨label, rest, hread, rfl⟩ := Reading.outcome_eq_failure h
  rw [parse_eq_outcome_afterSpace, ← hd, hread]
  rfl

end First

/-! ## Values that are missing -/

/-- **A failure for want of a value** at the cursor `d`. It is that of an object, and stands at `d`,
or after the brace there. -/
structure Missing (level : Level) (d : Cursor) (f : Failure) : Prop where
  value : ((Kind.any.parser self).runWith rules level d).outcome = .failure f
  object : ((Kind.object.parser self).runWith rules level d).outcome = .failure f
  label : f.label = utf8 "object"
  elsewhere : d.ahead.head? ≠ some '{' → f = .here (utf8 "object") d.obstacle d
  brace : d.ahead.head? = some '{' → d.pos.Before f.pos ∧
    ∃ n ≤ d.ahead.length, 0 < n ∧ f = .here (utf8 "object") (d.skip n).obstacle (d.skip n)

/-- A rule for values that fails does so as its last alternative, the rule for objects. -/
theorem object_of_value_refused {n : Nat} {s r : List Char} {l : Text}
    (h : (value self).read (rules.answer n) s = .refused l r) :
    (Kind.object.parser self).read (rules.answer n) s = .refused l r := by
  have hvalue : value self = choice ([Grammar.null, Grammar.bool, Grammar.string, Grammar.number,
    Grammar.array self] ++ [Kind.object.parser self]) := rfl
  rw [hvalue] at h
  exact last_of_choice_eq_refused h

/-- A value that cannot be read is missing. -/
theorem missing_of_value_failure {level : Level} {d : Cursor} {f : Failure}
    (h : ((Kind.any.parser self).runWith rules level d).outcome = .failure f) :
    Missing level d f := by
  have hvalue := h
  rw [(steady_kind .any).outcome_runWith level (length_lt_depth d)] at hvalue
  obtain ⟨l, r, hread, hf⟩ := Reading.outcome_eq_failure hvalue
  -- the last alternative is the one that reports: the rule for objects
  have hobject := object_of_value_refused hread
  obtain rfl : l = utf8 "object" := Reading.label_of_relabel hobject
  refine ⟨h, ?_, by rw [hf]; rfl, ?_, ?_⟩
  · rw [(steady_kind .object).outcome_runWith level (length_lt_depth d), hobject, hf]
    rfl
  · intro hne
    have hat := Delimited.read_of_stops (k := .object) (rules.depth d) (stops_beq_iff.2 hne)
    have hr : r = d.ahead := (Reading.refused.inj (hobject.symm.trans hat)).2
    rw [hf, hr, Cursor.upTo_ahead]
  · intro hbrace
    obtain ⟨s, hs⟩ := List.head?_eq_some_iff.1 hbrace
    rw [hs] at hobject
    have hlt : r.length < ('{' :: s).length := Delimited.length_lt_of_refused (k := .object) hobject
    rw [← hs] at hlt
    have hpos : 0 < d.ahead.length - r.length := by omega
    have hle : d.ahead.length - r.length ≤ d.ahead.length := Nat.sub_le _ _
    refine ⟨?_, _, hle, hpos, hf⟩
    rw [hf]
    exact Cursor.before_skip hpos hle

/-! ## Rejected texts -/

/-- **How a text is rejected**, where `d` is the cursor after the white space it begins with. -/
inductive Rejected (level : Level) (d : Cursor) (f : Failure) : Prop where
  /-- A value comes first, and after white space a character that should not be there. -/
  | surplus {v : Json} {r e : Cursor} {x : Char}
      (value : ((Kind.any.parser self).runWith rules level d).outcome = .success v r)
      (next : (afterSpace r).next = some (x, e)) (solid : isSpace x = false)
      (failure : f = .here (utf8 "end of input") (.unexpected x) (afterSpace r))
  /-- No value comes first. -/
  | missing (h : Missing level d f)

/-- **Parsing fails on the rejected texts and on no others**, with the failure that the rejection
gives. -/
theorem parse_failure_iff (t : Text) (level : Level) (f : Failure) :
    parse t = .failure f ↔ Rejected level (afterSpace (.ofText t)) f := by
  constructor
  · intro h
    cases hvalue :
      ((Kind.any.parser self).runWith rules level (afterSpace (.ofText t))).outcome with
    | success v r =>
      rw [parse_of_value_success rfl hvalue] at h
      have hend := readEnd_afterSpace_failure_iff.1 (Outcome.map_eq_failure.1 h)
      obtain ⟨x, e, hnext, hx, hf⟩ := hend
      exact .surplus hvalue hnext hx hf
    | failure g =>
      rw [parse_of_value_failure rfl hvalue] at h
      obtain rfl := Outcome.failure.inj h
      exact .missing (missing_of_value_failure hvalue)
    | fault e => exact absurd hvalue ((steady_kind .any).outcome_ne_fault level _ e)
  · rintro (⟨hvalue, hnext, hx, hf⟩ | hmissing)
    · have hend := readEnd_afterSpace_failure_iff.2 ⟨_, _, hnext, hx, hf⟩
      rw [parse_of_value_success rfl hvalue, hend]
      rfl
    · exact parse_of_value_failure rfl hmissing.value

/-- An array without its closing mark is rejected before its opening mark. -/
example : ((parse (utf8 " [null, [")).map fun _ => ()) =
    .failure ⟨utf8 "object", .unexpected '[', ⟨0, 1⟩, utf8 " [null, ["⟩ := by
  decide +kernel

end Descent.Json
