import Descent.Json.Parse
import Descent.Proofs.Json.Nesting

/-!
# Readings of values

The first character of a value tells its kind, and the parsers for the other
kinds fail there, so an ordered choice between the kinds is as good as any.

* `read_value_of_kind`: a value is read as its kind is.
* `derived_of_read_value`: nothing is taken but what the syntax derives.
* `sane_kind`: no rule is at fault if the rule for values is not, on anything
  shorter.
-/

namespace Descent.Json.Grammar

open Descent.Parser Syntax

variable {ρ : Type} {τ : ρ → Type} {answer : Answer ρ τ} {self : Parser ρ τ Json}

/-! ## Standard parsers -/

theorem standard_ws : (ws : Parser ρ τ (List Char)).Standard := standard_anyOf _

theorem standard_token (x : Char) : (token x : Parser ρ τ Char).Standard :=
  (standard_char x).left standard_ws

theorem standard_constant (word : Text) (v : Json) : (constant word v : Parser ρ τ Json).Standard :=
  standard_literal word

theorem standard_escapedChar : (escapedChar : Parser ρ τ CodePoint).Standard := by
  refine Standard.choice fun q hq => ?_
  simp only [List.mem_cons, List.not_mem_nil, or_false] at hq
  rcases hq with rfl | rfl | rfl | rfl | rfl | rfl | rfl | rfl <;> exact standard_literal _

theorem standard_numberedChar : (numberedChar : Parser ρ τ CodePoint).Standard := by
  refine (standard_literal _).right (Standard.mapOrRaise (Standard.sequence fun q hq => ?_) _)
  simp only [List.mem_cons, List.not_mem_nil, or_false, or_self] at hq
  rw [hq]
  exact standard_anyOf _

theorem standard_stringChar : (stringChar : Parser ρ τ CodePoint).Standard := by
  refine Standard.choice fun q hq => ?_
  simp only [List.mem_cons, List.not_mem_nil, or_false] at hq
  rcases hq with rfl | rfl | rfl
  · exact trivial
  · exact standard_escapedChar
  · exact standard_numberedChar

theorem standard_quotedString : (quotedString : Parser ρ τ Text).Standard :=
  Standard.between (p := stringChar.many) (standard_char '"') standard_stringChar
    (standard_char '"')

theorem standard_optionalPart {p : Parser ρ τ Char} {q : Parser ρ τ (List Char)}
    (hp : p.Standard) (hq : q.Standard) : (optionalPart p q).Standard := by
  refine ⟨hp.optional, fun o => ?_⟩
  cases o with
  | none => trivial
  | some x => exact hq

theorem standard_digits1 : (digit.many1 : Parser ρ τ (List Char)).Standard :=
  Standard.many1 (p := digit) trivial

theorem standard_number : (number : Parser ρ τ Json).Standard := by
  refine Standard.sequence fun q hq => ?_
  simp only [List.mem_cons, List.not_mem_nil, or_false] at hq
  rcases hq with rfl | rfl | rfl | rfl
  · exact Standard.optional (standard_char '-')
  · exact ⟨(standard_literal _).left (q := .notFollowedBy _ _) trivial,
      Standard.lift2 _ (p := .satisfy _ _) (q := digit.many) trivial trivial⟩
  · exact standard_optionalPart (standard_char '.') standard_digits1
  · exact standard_optionalPart (standard_anyOf _)
      (Standard.lift2 _ (Standard.optional (standard_anyOf _)) standard_digits1)

theorem standard_bracketed {α : Type} {item : Parser ρ τ α} (h : item.Standard) (o c : Char) :
    (bracketed o c item).Standard :=
  Standard.between (standard_token o) (h.sepBy (standard_token ',')) (standard_token c)

theorem standard_element (h : self.Standard) : (element self).Standard := h.left standard_ws

theorem standard_member (h : self.Standard) : (member self).Standard :=
  ((standard_quotedString.left standard_ws).left (standard_token ':')).andThen (standard_element h)

/-- The rules for the single kinds of value. -/
def kinds : List Kind := [.null, .bool, .string, .number, .array, .object]

theorem mem_kinds {k : Kind} (h : k ≠ .any) : k ∈ kinds := by
  revert h
  cases k <;> decide

theorem value_eq (self : Parser ρ τ Json) : value self = choice (kinds.map (Kind.parser self)) :=
  rfl

theorem standard_kind_of_mem (h : self.Standard) {k : Kind} (hk : k ∈ kinds) :
    (k.parser self).Standard := by
  cases k with
  | null => exact standard_constant _ _
  | bool => exact ⟨standard_constant _ _, standard_constant _ _⟩
  | string => exact standard_quotedString
  | number => exact standard_number
  | array => exact standard_bracketed (standard_element h) '[' ']'
  | object => exact standard_bracketed (standard_member h) '{' '}'
  | any => exact absurd hk (by decide)

theorem standard_value (h : self.Standard) : (value self).Standard := by
  rw [value_eq]
  refine Standard.choice fun q hq => ?_
  obtain ⟨k, hk, rfl⟩ := List.mem_map.1 hq
  exact standard_kind_of_mem h hk

theorem standard_kind (h : self.Standard) (k : Kind) : (k.parser self).Standard := by
  by_cases hk : k = .any
  · subst hk
    exact standard_value h
  · exact standard_kind_of_mem h (mem_kinds hk)

theorem standard_document (h : self.Standard) : (document self).Standard :=
  Standard.between (p := (value self).left ws) (c := .endOfInput) standard_ws
    ((standard_value h).left standard_ws) trivial

/-! ## The kind of a value -/

/-- **The kind of a value by its first character.** -/
def kindOf? (x : Char) : Option Kind :=
  if beginsNumber x then some .number
  else if x = 'n' then some .null
  else if x = 't' ∨ x = 'f' then some .bool
  else if x = '"' then some .string
  else if x = '[' then some .array
  else if x = '{' then some .object
  else none

/-- The kind of the value that some characters begin with. -/
def kindAt? (s : List Char) : Option Kind := s.head?.bind kindOf?

/-- Where no value of a kind begins, no character comes first that would begin one. -/
theorem stops_of_kindAt? {k : Kind} {accepts : Char → Bool}
    (h : ∀ x, accepts x = true → kindOf? x = some k) {s : List Char} (hs : kindAt? s ≠ some k) :
    Stops accepts s := by
  intro x hx
  by_cases ha : accepts x = true
  · refine absurd ?_ hs
    rw [kindAt?, Option.mem_def.1 hx, Option.bind_some, h x ha]
  · simpa using ha

theorem kindOf?_of_beq {k : Kind} {y : Char} (h : kindOf? y = some k) (x : Char)
    (hx : (x == y) = true) : kindOf? x = some k := by
  rwa [eq_of_beq hx]

/-- A word does not stand where its first character does not. -/
theorem not_prefix_of_stops {y : Char} {w s : List Char} (hs : Stops (· == y) s) :
    ¬ y :: w <+: s := by
  rintro ⟨r, rfl⟩
  have := hs y rfl
  simp at this

/-- **The parser for a kind of value fails before a value of another kind.** -/
theorem isRefused_kind (ha : answer.Within) {k : Kind} (hk : k ∈ kinds) {s : List Char}
    (h : kindAt? s ≠ some k) : ((k.parser self).read answer s).IsRefused := by
  have hstops {y : Char} (hy : kindOf? y = some k) : Stops (· == y) s :=
    stops_of_kindAt? (kindOf?_of_beq hy) h
  -- the parser of each kind begins with a character that tells this kind
  cases k with
  | null =>
    have hn : ¬ "null".toList <+: s := not_prefix_of_stops (hstops (y := 'n') (by decide))
    exact (isRefused_constant hn).relabel _
  | bool =>
    have ht : ¬ "true".toList <+: s := not_prefix_of_stops (hstops (y := 't') (by decide))
    have hf : ¬ "false".toList <+: s := not_prefix_of_stops (hstops (y := 'f') (by decide))
    refine Reading.IsRefused.relabel ?_ _
    rw [read_orElse, (isRefused_constant ht).orElse_eq]
    exact isRefused_constant hf
  | string =>
    have hq := hstops (y := '"') (by decide)
    refine ((isRefused_quotedString fun he => ?_).map _).relabel _
    simpa using hq '"' he
  | number => exact isRefused_number ha (stops_of_kindAt? (fun x hx => by simp [kindOf?, hx]) h)
  | array =>
    exact ((isRefused_bracketed ha _ (hstops (y := '[') (by decide))).map _).relabel _
  | object =>
    exact ((isRefused_bracketed ha _ (hstops (y := '{') (by decide))).map _).relabel _
  | any => exact absurd hk (by decide)

/-- **A value is read as its kind is.** -/
theorem read_value_of_kind (ha : answer.Within) {k : Kind} (hk : k ∈ kinds) {s rest : List Char}
    {v : Json} (hs : kindAt? s = some k) (h : (k.parser self).read answer s = .took v rest) :
    (value self).read answer s = .took v rest := by
  rw [value_eq]
  -- the order of the alternatives is of no account, as all the others fail
  refine read_choice_of_took ⟨_, List.mem_map_of_mem hk, h⟩ fun q hq => ?_
  obtain ⟨k', hk', rfl⟩ := List.mem_map.1 hq
  by_cases he : k' = k
  · subst he
    exact .inl h
  · refine .inr (isRefused_kind ha hk' ?_)
    rw [hs]
    exact fun h => he (Option.some.inj h).symm

/-- A value is of the kind that its first character tells, and read as that kind. -/
theorem read_kind_of_value (ha : answer.Within) {k : Kind} {s rest : List Char} {v : Json}
    (hs : kindAt? s = some k) (h : (value self).read answer s = .took v rest) :
    (k.parser self).read answer s = .took v rest := by
  rw [value_eq] at h
  obtain ⟨p, hp, hr⟩ := exists_of_choice_eq_took h
  obtain ⟨k', hk', rfl⟩ := List.mem_map.1 hp
  by_cases he : kindAt? s = some k'
  · rw [hs] at he
    obtain rfl := Option.some.inj he
    exact hr
  · have hrefused : ((k'.parser self).read answer s).IsRefused := isRefused_kind ha hk' he
    obtain ⟨l, r, hrefused⟩ := hrefused
    rw [hrefused] at hr
    cases hr

/-- A value is refused where none begins. -/
theorem isRefused_value (ha : answer.Within) {s : List Char} (hs : kindAt? s = none) :
    ((value self).read answer s).IsRefused := by
  have hne : kinds.map (Kind.parser self) ≠ [] := List.cons_ne_nil _ _
  rw [value_eq]
  refine isRefused_choice hne fun q hq => ?_
  obtain ⟨k, hk, rfl⟩ := List.mem_map.1 hq
  refine isRefused_kind ha hk ?_
  rw [hs]
  exact nofun

/-! ## From readings to derivations -/

/-- What the rule of a kind takes is derived by the syntax, if so is what it is given for values. -/
theorem derived_of_read_kind (ha : answer.Within)
    (hself : ∀ s v rest, self.read answer s = .took v rest → Derived s v rest) {k : Kind}
    (hk : k ∈ kinds) {s rest : List Char} {v : Json}
    (h : (k.parser self).read answer s = .took v rest) : Derived s v rest := by
  -- each rule takes what one form of the syntax is made of
  cases k with
  | null =>
    obtain ⟨rfl, rfl⟩ := constant_of_read (Reading.relabel_eq_took.1 h)
    exact ⟨_, rest, rfl, .null, rfl⟩
  | bool =>
    rcases Reading.orElse_eq_took.1 (Reading.relabel_eq_took.1 h) with h | ⟨-, h⟩
    · obtain ⟨rfl, rfl⟩ := constant_of_read h
      exact ⟨_, rest, rfl, .true, rfl⟩
    · obtain ⟨rfl, rfl⟩ := constant_of_read h
      exact ⟨_, rest, rfl, .false, rfl⟩
  | string =>
    obtain ⟨t, ht, rfl⟩ := Reading.map_eq_took.1 (Reading.relabel_eq_took.1 h)
    obtain ⟨w, hw, rfl⟩ := quoted_of_read ha ht
    exact ⟨w, rest, rfl, .string hw, rfl⟩
  | number =>
    obtain ⟨sg, wh, fr, ex, rfl, rfl, hs, hw, hf, he, -⟩ := number_of_read ha h
    have hn : Number (sg ++ wh ++ fr ++ ex) := ⟨sg, wh, fr, ex, rfl, hs, hw, hf, he⟩
    obtain ⟨x, hx⟩ := exists_ofLiteral? hn
    rw [numberOf_eq hx]
    exact ⟨_, rest, rfl, .number hn hx, rfl⟩
  | array => exact array_of_read ha hself h
  | object => exact object_of_read ha hself h
  | any => exact absurd hk (by decide)

/-- What the rule for values takes is derived by the syntax. -/
theorem derived_of_read_value (ha : answer.Within)
    (hself : ∀ s v rest, self.read answer s = .took v rest → Derived s v rest)
    {s rest : List Char} {v : Json} (h : (value self).read answer s = .took v rest) :
    Derived s v rest := by
  rw [value_eq] at h
  obtain ⟨p, hp, h⟩ := exists_of_choice_eq_took h
  obtain ⟨k, hk, rfl⟩ := List.mem_map.1 hp
  exact derived_of_read_kind ha hself hk h

/-! ## Freedom from faults -/

/-- The rule of a kind has no fault if the rule for values has none on fewer characters. -/
theorem sane_kind_of_mem (ha : answer.Within) {s : List Char}
    (h : ∀ r, r.length < s.length → (self.read answer r).Sane) {k : Kind} (hk : k ∈ kinds) :
    ((k.parser self).read answer s).Sane := by
  cases k with
  | null => exact (sane_constant _ _ s).relabel _
  | bool => exact ((sane_constant _ _ s).orElse (sane_constant _ _ s)).relabel _
  | string => exact ((sane_quotedString ha s).map _).relabel _
  | number => exact sane_number ha s
  | array => exact sane_array ha h
  | object => exact sane_object ha h
  | any => exact absurd hk (by decide)

/-- The rule for values has no fault if it has none on fewer characters. -/
theorem sane_value (ha : answer.Within) {s : List Char}
    (h : ∀ r, r.length < s.length → (self.read answer r).Sane) :
    ((value self).read answer s).Sane := by
  rw [value_eq]
  have hne : kinds.map (Kind.parser self) ≠ [] := List.cons_ne_nil _ _
  refine sane_choice hne fun q hq => ?_
  obtain ⟨k, hk, rfl⟩ := List.mem_map.1 hq
  exact sane_kind_of_mem ha h hk

/-- **Every rule is free of faults** if the rule for values is, on anything shorter. -/
theorem sane_kind (ha : answer.Within) {s : List Char}
    (h : ∀ r, r.length < s.length → (self.read answer r).Sane) (k : Kind) :
    ((k.parser self).read answer s).Sane := by
  by_cases hk : k = .any
  · subst hk
    exact sane_value ha h
  · exact sane_kind_of_mem ha h (mem_kinds hk)

end Descent.Json.Grammar
