import Descent.Proofs.Json.Value
import Descent.Proofs.Parser.Adequacy
import Descent.Proofs.Source.Coherence

/-!
# The parser accepts the syntax

The rule for values refers to itself. At every depth of nesting it takes nothing
but what the syntax derives, and at a depth that covers the characters ahead it
takes all of it. So parsing succeeds on exactly the documents of the syntax, and
gives their values.

* `derived_of_read_self`: nothing but the syntax, by induction on the depth.
* `takes`: all of the syntax, by induction on the depth.
* `parse_accepts`: parsing and the syntax agree on every text.
-/

namespace Descent.Json

open Descent.Parser Syntax Grammar

/-! ## Nothing but the syntax -/

/-- The rule for values, one call deeper. -/
theorem read_self_succ (n : Nat) (s : List Char) :
    self.read (rules.answer (n + 1)) s = (value self).read (rules.answer n) s :=
  Rules.read_ref_succ (R := rules) (r := ()) rfl _ n s

/-- **Nothing is taken but what the syntax derives**, at any depth. -/
theorem derived_of_read_self (n : Nat) (s : List Char) (v : Json) (rest : List Char)
    (h : self.read (rules.answer n) s = .took v rest) : Derived s v rest := by
  induction n generalizing s v rest with
  | zero => cases h
  | succ n ih => exact derived_of_read_value (rules.within_answer n) ih h

/-! ## All of the syntax -/

/-- The characters that a number might go on with. -/
def continuesNumber (x : Char) : Bool := x.isDigit || x == '.' || isMark x

/-- What follows cannot be mistaken for a part of the value. Only numbers have no end of
their own. -/
def Apart : Json → List Char → Prop
  | .number _, rest => Stops continuesNumber rest
  | _, _ => True

/-- Where a number cannot go on, no value runs into what follows. -/
theorem apart_of_stops (v : Json) {rest : List Char} (h : Stops continuesNumber rest) :
    Apart v rest := by
  cases v with
  | number x => exact h
  | _ => trivial

/-- Where a number cannot go on, it ends, whatever its parts are. -/
theorem numberEnds_of_stops {rest : List Char} (h : Stops continuesNumber rest)
    (fr ex : List Char) : NumberEnds fr ex rest := by
  have hx (x : Char) (hx : x ∈ rest.head?) :
      (x.isDigit = false ∧ (x == '.') = false) ∧ isMark x = false := by
    simpa only [continuesNumber, Bool.or_eq_false_iff] using h x hx
  exact ⟨fun x hm => (hx x hm).1.1, fun _ _ x hm => (hx x hm).1.2, fun _ x hm => (hx x hm).2⟩

/-- White space does not go on with a number. -/
theorem stops_blank {u : List Char} (hu : Blank u) : Stops continuesNumber u := by
  intro y hy
  have hspace : isSpace y = true := hu y (List.mem_of_mem_head? hy)
  have hcases : y = ' ' ∨ y = '\t' ∨ y = '\n' ∨ y = '\r' := by simpa [isSpace] using hspace
  rcases hcases with rfl | rfl | rfl | rfl <;> decide

theorem stops_blank_cons {u : List Char} (hu : Blank u) {x : Char}
    (hx : continuesNumber x = false) (rest : List Char) :
    Stops continuesNumber (u ++ x :: rest) :=
  stops_append (stops_blank hu) fun _ => stops_cons hx rest

/-- A number is known by its first character. -/
theorem kindAt?_of_number {w : List Char} (h : Number w) (rest : List Char) :
    kindAt? (w ++ rest) = some .number := by
  obtain ⟨x, w', rfl, hx⟩ := head_of_number h
  simp [kindAt?, kindOf?, hx]

/-- A string is known by its first character. -/
theorem kindAt?_of_quoted {w : List Char} {t : Text} (h : Quoted w t) (rest : List Char) :
    kindAt? (w ++ rest) = some .string := by
  obtain ⟨-, -⟩ := h
  rfl

/-- A value begins with a character that tells its kind. -/
theorem exists_kindAt? {w : List Char} {v : Json} (h : Value w v) (rest : List Char) :
    ∃ k, kindAt? (w ++ rest) = some k := by
  cases h with
  | null => exact ⟨.null, rfl⟩
  | true => exact ⟨.bool, rfl⟩
  | false => exact ⟨.bool, rfl⟩
  | string hq => exact ⟨_, kindAt?_of_quoted hq rest⟩
  | number hn _ => exact ⟨_, kindAt?_of_number hn rest⟩
  | emptyArray _ => exact ⟨.array, rfl⟩
  | array _ _ => exact ⟨.array, rfl⟩
  | emptyObject _ => exact ⟨.object, rfl⟩
  | object _ _ _ => exact ⟨.object, rfl⟩

/-- No value begins with white space. -/
theorem stops_isSpace_of_kindAt? {s : List Char} {k : Kind} (h : kindAt? s = some k) :
    Stops isSpace s := by
  intro x hx
  rw [kindAt?, Option.mem_def.1 hx, Option.bind_some] at h
  by_cases hs : isSpace x = true
  · have hcases : x = ' ' ∨ x = '\t' ∨ x = '\n' ∨ x = '\r' := by simpa [isSpace] using hs
    rcases hcases with rfl | rfl | rfl | rfl <;> exact absurd h (by decide +revert)
  · simpa using hs

section Items

variable {n : Nat} {w u : List Char} {v : Json} {x : Char}

/-- A value in a list is taken with the white space after it. -/
theorem read_element_append
    (hv : ∀ rest, Apart v rest →
      (value self).read (rules.answer n) (w ++ rest) = .took v (trail v rest))
    (hu : Blank u) (hx : continuesNumber x = false) (hs : isSpace x = false) (rest : List Char) :
    (element self).read (rules.answer (n + 1)) (w ++ (u ++ x :: rest)) = .took v (x :: rest) := by
  have hself : self.read (rules.answer (n + 1)) (w ++ (u ++ x :: rest)) =
      .took v (trail v (u ++ x :: rest)) :=
    hv _ (apart_of_stops v (stops_blank_cons hu hx rest))
  rw [read_element (rules.within_answer _) hself, dropWhile_trail, dropWhile_append_blank hu,
    dropWhile_of_stops (stops_cons hs rest)]

/-- A member is read as it was written, white space included, if its value is. -/
theorem read_member_append {k u₁ u₂ : List Char} {key : Text} (hk : Quoted k key)
    (hu₁ : Blank u₁) (hu₂ : Blank u₂)
    (hv : ∀ rest, Apart v rest →
      (value self).read (rules.answer n) (w ++ rest) = .took v (trail v rest))
    (hw : Value w v) (hu : Blank u) (hx : continuesNumber x = false) (hs : isSpace x = false)
    (rest : List Char) :
    (member self).read (rules.answer (n + 1))
        (k ++ (u₁ ++ ':' :: (u₂ ++ (w ++ (u ++ x :: rest))))) =
      .took (key, v) (x :: rest) := by
  have ha := rules.within_answer (n + 1)
  have hcolon : Stops isSpace (':' :: (u₂ ++ (w ++ (u ++ x :: rest)))) := stops_cons (by decide) _
  obtain ⟨kind, hkind⟩ := exists_kindAt? hw (u ++ x :: rest)
  rw [read_member ha, read_quotedString_append ha hk, Reading.andThen_took,
    dropWhile_append_blank hu₁, dropWhile_of_stops hcolon, read_token_cons ha,
    Reading.andThen_took, dropWhile_append_blank hu₂,
    dropWhile_of_stops (stops_isSpace_of_kindAt? hkind), read_element_append hv hu hx hs]
  rfl

/-- What begins no value is refused for an element. -/
theorem isRefused_element {s : List Char} (h : kindAt? s = none) :
    ((element self).read (rules.answer (n + 1)) s).IsRefused := by
  unfold element
  rw [read_left, read_self_succ]
  exact (isRefused_value (rules.within_answer n) h).andThen _

/-- What does not begin with a quote is refused for a member. -/
theorem isRefused_member {s : List Char} (h : s.head? ≠ some '"') :
    ((member self).read (rules.answer n) s).IsRefused := by
  rw [read_member (rules.within_answer n)]
  exact (isRefused_quotedString h).andThen _

/-- The elements of an array do not begin with white space. -/
theorem stops_isSpace_of_elements {vs : List Json} (h : Elements w vs) (rest : List Char) :
    Stops isSpace (w ++ rest) := by
  cases h with
  | one hv hu =>
    rw [List.append_assoc]
    obtain ⟨k, hk⟩ := exists_kindAt? hv _
    exact stops_isSpace_of_kindAt? hk
  | more hv hu hu' he =>
    simp only [List.append_assoc]
    obtain ⟨k, hk⟩ := exists_kindAt? hv _
    exact stops_isSpace_of_kindAt? hk

/-- The members of an object do not begin with white space. -/
theorem stops_isSpace_of_members {ms : List (Text × Json)} (h : Syntax.Members w ms)
    (rest : List Char) : Stops isSpace (w ++ rest) := by
  cases h with
  | one hk hu₁ hu₂ hv hu =>
    simp only [List.append_assoc]
    exact stops_isSpace_of_kindAt? (kindAt?_of_quoted hk _)
  | more hk hu₁ hu₂ hv hu hu' hm =>
    simp only [List.append_assoc]
    exact stops_isSpace_of_kindAt? (kindAt?_of_quoted hk _)

/-- An array is read as the list of its elements is. -/
theorem read_array_of_elements {s rest : List Char} {vs : List Json} (hu : Blank u)
    (hs : Stops isSpace s)
    (h : ((element self).sepBy (token ',')).read (rules.answer n) s = .took vs (']' :: rest)) :
    (value self).read (rules.answer n) ('[' :: (u ++ s)) =
      .took (.array vs) (rest.dropWhile isSpace) := by
  have ha := rules.within_answer n
  refine read_value_of_kind ha (k := .array) (by decide) rfl (Reading.relabel_eq_took.2 ?_)
  exact Reading.map_eq_took.2 ⟨vs, read_bracketed ha hu hs h, rfl⟩

/-- An object is read as the list of its members is. -/
theorem read_object_of_members {s rest : List Char} {ms : List (Text × Json)} (hu : Blank u)
    (hs : Stops isSpace s)
    (h : ((member self).sepBy (token ',')).read (rules.answer n) s = .took ms ('}' :: rest)) :
    (value self).read (rules.answer n) ('{' :: (u ++ s)) =
      .took (.ofMembers ms) (rest.dropWhile isSpace) := by
  have ha := rules.within_answer n
  refine read_value_of_kind ha (k := .object) (by decide) rfl (Reading.relabel_eq_took.2 ?_)
  exact Reading.map_eq_took.2 ⟨ms, read_bracketed ha hu hs h, rfl⟩

end Items

/-- Values of at most `n` characters are taken at depth `n`, whatever follows them. -/
def Takes (n : Nat) : Prop :=
  ∀ w v, Value w v → w.length ≤ n → ∀ rest, Apart v rest →
    (value self).read (rules.answer n) (w ++ rest) = .took v (trail v rest)

/-- A list of elements is taken if values are, one level further down. -/
theorem read_elements_append {n : Nat} (ht : Takes n) {w : List Char} {vs : List Json}
    (h : Elements w vs) (hn : w.length ≤ n) (rest : List Char) :
    ((element self).sepBy1 (token ',')).read (rules.answer (n + 1)) (w ++ ']' :: rest) =
      .took vs (']' :: rest) := by
  have ha := rules.within_answer (n + 1)
  induction vs generalizing w with
  | nil => cases h
  | cons v vs ih =>
    cases h with
    | @one w u _ hv hu =>
      have hlen : w.length ≤ n := by rw [List.length_append] at hn; omega
      rw [List.append_assoc]
      refine read_items_one ha (by decide) ?_
      exact read_element_append (ht w v hv hlen) hu (by decide) (by decide) rest
    | @more w u u' w' _ _ hv hu hu' he =>
      have hlen : w.length ≤ n ∧ w'.length ≤ n := by
        simp only [List.length_append, List.length_cons] at hn
        omega
      simp only [List.append_assoc, List.cons_append]
      refine read_items_more ha ?_ hu' (stops_isSpace_of_elements he _) (ih he hlen.2)
      exact read_element_append (ht w v hv hlen.1) hu (by decide) (by decide) _

/-- A list of members is taken if values are, one level further down. -/
theorem read_members_append {n : Nat} (ht : Takes n) {w : List Char} {ms : List (Text × Json)}
    (h : Syntax.Members w ms) (hn : w.length ≤ n) (rest : List Char) :
    ((member self).sepBy1 (token ',')).read (rules.answer (n + 1)) (w ++ '}' :: rest) =
      .took ms ('}' :: rest) := by
  have ha := rules.within_answer (n + 1)
  induction ms generalizing w with
  | nil => cases h
  | cons m ms ih =>
    cases h with
    | @one k u₁ u₂ w u key v hk hu₁ hu₂ hv hu =>
      have hlen : w.length ≤ n := by
        simp only [List.length_append, List.length_cons] at hn
        omega
      simp only [List.append_assoc, List.cons_append]
      refine read_items_one ha (by decide) ?_
      exact read_member_append hk hu₁ hu₂ (ht w v hv hlen) hv hu (by decide) (by decide) rest
    | @more k u₁ u₂ w u u' w' key v _ hk hu₁ hu₂ hv hu hu' hm =>
      have hlen : w.length ≤ n ∧ w'.length ≤ n := by
        simp only [List.length_append, List.length_cons] at hn
        omega
      simp only [List.append_assoc, List.cons_append]
      refine read_items_more ha ?_ hu' (stops_isSpace_of_members hm _) (ih hm hlen.2)
      exact read_member_append hk hu₁ hu₂ (ht w v hv hlen.1) hv hu (by decide) (by decide) _

/-- One level further up, longer values are taken: a bracket is one of their characters. -/
theorem takes_succ {n : Nat} (ht : Takes n) : Takes (n + 1) := by
  intro w v h hn rest hr
  have ha := rules.within_answer (n + 1)
  -- the first character tells the kind, and the rule for that kind is the one to take the value
  cases h with
  | null =>
    refine read_value_of_kind ha (k := .null) (by decide) rfl ?_
    exact Reading.relabel_eq_took.2 (read_constant_append "null" _ rest)
  | true =>
    refine read_value_of_kind ha (k := .bool) (by decide) rfl (Reading.relabel_eq_took.2 ?_)
    exact Reading.orElse_eq_took.2 (.inl (read_constant_append "true" _ rest))
  | false =>
    refine read_value_of_kind ha (k := .bool) (by decide) rfl (Reading.relabel_eq_took.2 ?_)
    refine Reading.orElse_eq_took.2 (.inr ⟨isRefused_constant ?_, ?_⟩)
    · exact not_prefix_of_stops (stops_cons (by decide) _)
    · exact read_constant_append "false" _ rest
  | string hq =>
    refine read_value_of_kind ha (k := .string) (by decide) (kindAt?_of_quoted hq rest) ?_
    refine Reading.relabel_eq_took.2 (Reading.map_eq_took.2 ⟨_, ?_, rfl⟩)
    exact read_quotedString_append ha hq rest
  | number hnum hx =>
    refine read_value_of_kind ha (k := .number) (by decide) (kindAt?_of_number hnum rest) ?_
    obtain ⟨sg, wh, fr, ex, rfl, hs, hw, hf, he⟩ := hnum
    rw [← numberOf_eq hx]
    exact read_number_append ha hs hw hf he (numberEnds_of_stops hr fr ex)
  | @emptyArray u hu =>
    rw [List.append_assoc, List.cons_append, List.singleton_append]
    refine read_array_of_elements hu (stops_cons (by decide) rest) (read_items_none ?_)
    exact isRefused_element rfl
  | @array u w vs hu he =>
    -- the brackets are two characters, so the elements are covered by one level less
    have hlen : w.length ≤ n := by
      simp only [List.length_append, List.length_cons, List.length_nil] at hn
      omega
    rw [List.append_assoc, List.append_assoc, List.cons_append, List.singleton_append]
    refine read_array_of_elements hu (stops_isSpace_of_elements he _) ?_
    rw [read_sepBy, read_elements_append ht he hlen rest, Reading.orElse_took]
  | @emptyObject u hu =>
    rw [List.append_assoc, List.cons_append, List.singleton_append]
    refine read_object_of_members hu (stops_cons (by decide) rest) (read_items_none ?_)
    exact isRefused_member (by simp)
  | @object u w ms mapping hu hm hc =>
    have hlen : w.length ≤ n := by
      simp only [List.length_append, List.length_cons, List.length_nil] at hn
      omega
    rw [List.append_assoc, List.append_assoc, List.cons_append, List.singleton_append,
      Members.collects_iff.1 hc]
    refine read_object_of_members hu (stops_isSpace_of_members hm _) ?_
    rw [read_sepBy, read_members_append ht hm hlen rest, Reading.orElse_took]

/-- **All that the syntax derives is taken**, if the depth covers it. -/
theorem takes (n : Nat) : Takes n := by
  induction n with
  | zero =>
    -- no value is empty, so there is nothing to take at depth zero
    intro w v h hn
    obtain ⟨k, hk⟩ := exists_kindAt? h []
    rw [List.length_eq_zero_iff.1 (Nat.le_zero.1 hn)] at hk
    cases hk
  | succ n ih => exact takes_succ ih

/-! ## Documents -/

/-- A document is read in four steps: white space, a value, white space, the end. -/
theorem read_document (n : Nat) (s : List Char) :
    (document self).read (rules.answer n) s =
      ((value self).read (rules.answer n) (s.dropWhile isSpace)).andThen fun v r =>
        (readEnd (r.dropWhile isSpace)).map fun _ => v := by
  have ha := rules.within_answer n
  unfold document
  rw [read_between, read_ws ha, Reading.andThen_took, read_left, Reading.andThen_assoc]
  congr 1
  funext v r
  rw [read_ws ha]
  rfl

/-- Nothing but white space may be left at the end of a document. -/
theorem readEnd_eq_took {s rest : List Char} (hs : Stops isSpace s)
    (h : readEnd s = .took () rest) : s = [] := by
  cases s with
  | nil => rfl
  | cons x s =>
    rw [readEnd] at h
    split at h
    · rename_i hx
      rw [hx.1] at hs
      exact absurd (hs '\n' rfl) (by decide)
    · cases h

/-- **A document is taken exactly if the syntax derives it.** -/
theorem read_document_iff {n : Nat} {s : List Char} (hn : s.length ≤ n) (v : Json) :
    (∃ rest, (document self).read (rules.answer n) s = .took v rest) ↔ Document s v := by
  rw [read_document]
  constructor
  · rintro ⟨rest, h⟩
    obtain ⟨v', r, hv, h⟩ := Reading.andThen_eq_took.1 h
    obtain ⟨_, hend, rfl⟩ := Reading.map_eq_took.1 h
    obtain ⟨w, r', hs, hw, rfl⟩ :=
      derived_of_read_value (rules.within_answer n) (derived_of_read_self n) hv
    obtain ⟨u, hu, he⟩ := exists_blank_dropWhile s
    obtain ⟨u', hu', he'⟩ := exists_blank_dropWhile r'
    -- a line feed at the end is white space, so nothing is left for the end of the input
    have hnil : r'.dropWhile isSpace = [] := by
      rw [← dropWhile_trail v']
      exact readEnd_eq_took (stops_dropWhile isSpace _) hend
    rw [hnil, List.append_nil] at he'
    rw [he, hs, he', ← List.append_assoc]
    exact .intro hu hw hu'
  · rintro ⟨hu, hw, hu'⟩
    rename_i u w u'
    have hlen : w.length ≤ n := by
      simp only [List.length_append] at hn
      omega
    have hnil : u'.dropWhile isSpace = [] := by
      have := dropWhile_append_blank hu' []
      rwa [List.append_nil] at this
    have hapart : Apart v u' := apart_of_stops v (stops_blank hu')
    obtain ⟨k, hk⟩ := exists_kindAt? hw u'
    refine ⟨[], ?_⟩
    rw [List.append_assoc, dropWhile_append_blank hu,
      dropWhile_of_stops (stops_isSpace_of_kindAt? hk), takes n w v hw hlen u' hapart,
      Reading.andThen_took, dropWhile_trail, hnil]
    rfl

theorem standard_self : self.Standard := trivial

/-- The grammar of JSON has no foreign parts. -/
theorem standard_rules : rules.Standard := by
  rintro r p ⟨⟩
  exact standard_value standard_self

/-- The depth of calls covers the characters ahead. -/
theorem length_le_depth (c : Cursor) : c.ahead.length ≤ rules.depth c := by
  show c.ahead.length ≤ (1 + 1) * (c.ahead.length + 1)
  omega

/-- A run that ends in success is a reading that took something. -/
theorem outcome_eq_success {α : Type} {r : Reading α} {c : Cursor} {v : α} :
    (∃ rest, r.outcome c = .success v rest) ↔ ∃ rest, r = .took v rest := by
  cases r <;> simp [Reading.outcome]

/-- The outcome of parsing is that of reading the characters of the text. -/
theorem parse_eq_outcome (t : Text) :
    parse t = ((document self).read (rules.answer (rules.depth (.ofText t)))
      (sourceChars t)).outcome (.ofText t) := by
  rw [← Cursor.ahead_ofText]
  exact outcome_runWith (standard_document standard_self) standard_rules .info (.ofText t)

theorem length_sourceChars_le (t : Text) : (sourceChars t).length ≤ rules.depth (.ofText t) := by
  rw [← Cursor.ahead_ofText]
  exact length_le_depth _

/-- **Parsing succeeds on the documents of the syntax and on nothing else**, with the value that
the syntax gives them. -/
theorem parse_accepts (t : Text) (v : Json) :
    (∃ rest, parse t = .success v rest) ↔ Document (sourceChars t) v := by
  -- a success of the outcome is one of the reading, and the depth covers the whole text
  rw [parse_eq_outcome, outcome_eq_success]
  exact read_document_iff (length_sourceChars_le t) v

end Descent.Json
