import Descent.Proofs.Json.Delimited

/-!
# How much the rules take

A rule takes the characters of a value. After a closing bracket it takes the white
space that follows as well, all of it, and after any other value none; before a
value it takes none at all. Where one rule has left off, another can go on, so it
matters that the **extent** of a value is its own: but for numbers, whose literals
have no end of their own, nothing that follows changes what is taken.

* `spaceAfter`: the white space that belongs to a value.
* `last_of_value`: a value ends with a character that is no white space.
* `read_kind_append`: a rule takes its values, whatever follows.
* `kind_extent`: what a rule takes wherever it succeeds.
-/

namespace Descent.Json

open Descent.Parser Syntax Grammar

/-! ## White space after a value -/

/-- An array or an object. -/
def isBracketed : Json → Bool
  | .array _ | .object _ => true
  | _ => false

/-- A number. -/
def isNumber : Json → Bool
  | .number _ => true
  | _ => false

/-- **The white space that is taken after a value**: all that comes after a closing bracket, and
none after anything else. -/
def spaceAfter (v : Json) (rest : List Char) : List Char :=
  if v.isBracketed then rest.takeWhile isSpace else []

/-- A value leaves off behind the white space that is taken after it. -/
theorem spaceAfter_append_trail (v : Json) (rest : List Char) :
    spaceAfter v rest ++ trail v rest = rest := by
  cases v with
  | array es => exact List.takeWhile_append_dropWhile
  | object ms => exact List.takeWhile_append_dropWhile
  | _ => rfl

/-- Only a number can run into what follows. -/
theorem apart_of_not_isNumber {v : Json} (h : v.isNumber = false) (rest : List Char) :
    Apart v rest := by
  cases v with
  | number x => cases h
  | _ => trivial

/-! ## The ends of a value -/

section Value

variable {w : List Char} {v : Json}

/-- A value begins with something else than white space. -/
theorem first_of_value (h : Value w v) : ∃ x, w.head? = some x ∧ isSpace x = false := by
  obtain ⟨k, hk⟩ := exists_kindAt? h []
  rw [List.append_nil] at hk
  have hstops := stops_isSpace_of_kindAt? hk
  cases w with
  | nil => cases hk
  | cons x w => exact ⟨x, rfl, hstops x rfl⟩

/-- **A value ends with a character that is no white space**, and a value in brackets with the
closing one. -/
theorem last_of_value (h : Value w v) :
    (∃ x, w.getLast? = some x ∧ isSpace x = false) ∧
      (∀ es, v = .array es → w.getLast? = some ']') ∧
      ∀ ms, v = .object ms → w.getLast? = some '}' := by
  cases h with
  | null => exact ⟨⟨'l', rfl, rfl⟩, nofun, nofun⟩
  | true => exact ⟨⟨'e', rfl, rfl⟩, nofun, nofun⟩
  | false => exact ⟨⟨'e', rfl, rfl⟩, nofun, nofun⟩
  | string hq =>
    obtain ⟨-, -⟩ := hq
    exact ⟨⟨'"', List.getLast?_concat, rfl⟩, nofun, nofun⟩
  | number hn hx =>
    -- no character of a literal is white space, so the last one is none
    have hsolid : ∀ x ∈ numberChars, isSpace x = false := forall_of_all (by decide)
    obtain ⟨x, w', rfl, -⟩ := head_of_number hn
    have hlast := List.getLast?_eq_some_getLast (List.cons_ne_nil x w')
    exact ⟨⟨_, hlast, hsolid _ (mem_numberChars hn (List.getLast_mem _))⟩, nofun, nofun⟩
  | emptyArray hu =>
    exact ⟨⟨']', List.getLast?_concat, rfl⟩, fun _ _ => List.getLast?_concat, nofun⟩
  | array hu he =>
    exact ⟨⟨']', List.getLast?_concat, rfl⟩, fun _ _ => List.getLast?_concat, nofun⟩
  | emptyObject hu =>
    exact ⟨⟨'}', List.getLast?_concat, rfl⟩, nofun, fun _ _ => List.getLast?_concat⟩
  | object hu hm hc =>
    exact ⟨⟨'}', List.getLast?_concat, rfl⟩, nofun, fun _ _ => List.getLast?_concat⟩

end Value

/-! ## Readings of any kind -/

section Read

variable {n : Nat} {k : Kind} {s w rest : List Char} {v : Json}

/-- A rule takes nothing but what the syntax derives. -/
theorem derived_of_read (h : (k.parser self).read (rules.answer n) s = .took v rest) :
    Derived s v rest := by
  have ha := rules.within_answer n
  by_cases hk : k = .any
  · subst hk
    exact derived_of_read_value ha (derived_of_read_self n) h
  · exact derived_of_read_kind ha (derived_of_read_self n) (mem_kinds hk) h

/-- A rule for one kind of value succeeds on that kind only. -/
theorem kindAt?_of_read (hk : k ≠ .any)
    (h : (k.parser self).read (rules.answer n) s = .took v rest) : kindAt? s = some k := by
  refine Classical.byContradiction fun hne => ?_
  have hrefused : ((k.parser self).read (rules.answer n) s).IsRefused :=
    isRefused_kind (rules.within_answer n) (mem_kinds hk) hne
  obtain ⟨l, r, hread⟩ := hrefused
  rw [h] at hread
  cases hread

/-- **A rule takes its values whatever follows**, if that is apart. -/
theorem read_kind_append (hv : Value w v) (hk : k = .any ∨ kindAt? w = some k) {t : List Char}
    (ht : Apart v t) (hn : w.length ≤ n) :
    (k.parser self).read (rules.answer n) (w ++ t) = .took v (trail v t) := by
  have htakes := takes n w v hv hn t ht
  rcases hk with rfl | hk
  · exact htakes
  · have hkind : kindAt? (w ++ t) = some k := by
      cases w with
      | nil => cases hk
      | cons x w => exact hk
    exact read_kind_of_value (rules.within_answer n) hkind htakes

end Read

/-! ## What a rule takes at a cursor -/

/-- **What a rule takes** where it succeeds at `c`: the characters `w` of the value, and the white
space `u` that belongs to it. Neither depends on what follows, unless the value is a number. -/
structure Extent (level : Level) (k : Kind) (c : Cursor) (v : Json) (rest : Cursor)
    (w u : List Char) : Prop where
  ahead_eq : c.ahead = w ++ u ++ rest.ahead
  rest_eq : rest = c.skip (w ++ u).length
  value : Value w v
  first : ∃ x, w.head? = some x ∧ isSpace x = false
  last : ∃ x, w.getLast? = some x ∧ isSpace x = false
  closes_array : ∀ es, v = .array es → w.getLast? = some ']'
  closes_object : ∀ ms, v = .object ms → w.getLast? = some '}'
  space : u = spaceAfter v (u ++ rest.ahead)
  independent : v.isNumber = false → ∀ c' t, c'.ahead = w ++ t →
    ((k.parser self).runWith rules level c').outcome =
      .success v (c'.skip (w ++ spaceAfter v t).length)

section Cursor

variable (level : Level) {k : Kind} {c : Cursor}

/-- At white space, every rule fails. -/
theorem fails_of_isSpace (k : Kind) {x : Char} {d : Cursor} (hnext : c.next = some (x, d))
    (hx : isSpace x = true) :
    ∃ f, ((k.parser self).runWith rules level c).outcome = .failure f := by
  have hahead := Cursor.ahead_of_next hnext
  refine (steady_kind k).exists_failure level (length_lt_depth c) ?_
  rcases Reading.sane_iff.1 ((steady_kind k).sane _ _ (length_lt_depth c)) with
    ⟨v, r, hread⟩ | hrefused
  · -- a value would begin with another character
    obtain ⟨w, r', hs, hv, -⟩ := derived_of_read hread
    obtain ⟨y, hy, hsolid⟩ := first_of_value hv
    obtain ⟨w, rfl⟩ := List.head?_eq_some_iff.1 hy
    rw [hahead, List.cons_append] at hs
    obtain ⟨rfl, -⟩ := List.cons.inj hs
    rw [hx] at hsolid
    cases hsolid
  · exact hrefused

/-- Every success of a rule for values has an extent. -/
theorem exists_extent {v : Json} {rest : Cursor}
    (h : ((k.parser self).runWith rules level c).outcome = .success v rest) :
    ∃ w u, Extent level k c v rest w u := by
  rw [(steady_kind k).outcome_runWith level (length_lt_depth c)] at h
  obtain ⟨r, hread, rfl⟩ := Reading.took_of_outcome h
  obtain ⟨w, t, hc, hv, rfl⟩ := derived_of_read hread
  -- only a value that ends in a bracket takes white space after it
  have hsplit := spaceAfter_append_trail v t
  have hall : c.ahead = (w ++ spaceAfter v t) ++ trail v t := by
    rw [List.append_assoc, hsplit, hc]
  have hahead : (c.upTo (trail v t)).ahead = trail v t := Cursor.ahead_upTo ⟨_, hall.symm⟩
  obtain ⟨hlast, harray, hobject⟩ := last_of_value hv
  have hkind : k = .any ∨ kindAt? w = some k := by
    by_cases hk : k = .any
    · exact .inl hk
    · have hat := kindAt?_of_read hk hread
      rw [hc] at hat
      obtain ⟨x, hx, -⟩ := first_of_value hv
      obtain ⟨w, rfl⟩ := List.head?_eq_some_iff.1 hx
      exact .inr hat
  refine ⟨w, spaceAfter v t, ?_, Cursor.upTo_append hall, hv, first_of_value hv, hlast, harray,
    hobject, ?_, ?_⟩
  · rw [hahead, ← hall]
  · rw [hahead, hsplit]
  · -- any other continuation: the value is accepted where it stands, whatever comes after it
    intro hnumber c' t' hc'
    have hle : w.length ≤ rules.depth c' := by
      have hlt := length_lt_depth c'
      rw [hc', List.length_append] at hlt
      omega
    have hread' := read_kind_append hv hkind (apart_of_not_isNumber hnumber t') hle
    have hall' : c'.ahead = (w ++ spaceAfter v t') ++ trail v t' := by
      rw [List.append_assoc, spaceAfter_append_trail, hc']
    rw [(steady_kind k).outcome_runWith level (length_lt_depth c'), hc', hread',
      Reading.outcome_took, Cursor.upTo_append hall']

end Cursor

/-- **How much a rule takes.** Where a rule of the grammar succeeds, it has taken a value, whose
first and last characters are no white space, and after a closing bracket all the white space that
follows. What it takes is the same before any other characters, unless it is a number. Where white
space comes first, every rule fails. -/
theorem kind_extent (level : Level) (k : Kind) (c : Cursor) :
    (∀ v rest, ((k.parser self).runWith rules level c).outcome = .success v rest →
      ∃ w u, Extent level k c v rest w u) ∧
    ∀ x d, c.next = some (x, d) → isSpace x = true →
      ∃ f, ((k.parser self).runWith rules level c).outcome = .failure f := by
  constructor
  · intro v rest h
    exact exists_extent level h
  · intro x d hnext hx
    exact fails_of_isSpace level k hnext hx

/-- The white space after the outer bracket is taken, the last line feed with it. -/
theorem kind_extent_array :
    ∃ v, parseKind .array (utf8 "[null, [] ]\n\t ") =
        .success v ((Cursor.ofText (utf8 "[null, [] ]\n\t ")).skip 15) ∧
      ∃ w u, Extent .info .array (.ofText (utf8 "[null, [] ]\n\t ")) v
        ((Cursor.ofText (utf8 "[null, [] ]\n\t ")).skip 15) w u := by
  have htaken : (parseKind .array (utf8 "[null, [] ]\n\t ")).map (fun _ => ()) =
      .success () ((Cursor.ofText (utf8 "[null, [] ]\n\t ")).skip 15) := by
    decide +kernel
  obtain ⟨v, hv, -⟩ := Outcome.map_eq_success.1 htaken
  exact ⟨v, hv, (kind_extent .info .array (.ofText (utf8 "[null, [] ]\n\t "))).1 v _ hv⟩

end Descent.Json
