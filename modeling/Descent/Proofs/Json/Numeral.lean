import Descent.Proofs.Decimal.Literal
import Descent.Proofs.Json.Token
import Mathlib.Data.List.TakeWhile

/-!
# Readings of number literals

A number is read in four parts, and each part gives its own characters. A part
takes as much as it can and stops at a character that could not go on with it,
so what it takes depends on what follows. `Scans` says this exactly: the part
takes `w` before `rest` if and only if `w` is of the right form and `rest` does
not go on with it.

* `scans_sign`, `scans_whole`, `scans_fraction`, `scans_exponent`: the parts.
* `read_number_append`, `number_of_read`: a whole literal.
* `number_iff`: the literals of the syntax among those of decimal numbers.
-/

namespace Descent.Json.Grammar

open Descent.Parser Syntax

variable {ρ : Type} {τ : ρ → Type} {answer : Answer ρ τ}

/-- No digit comes first. -/
abbrev NoDigit (s : List Char) : Prop := Stops Char.isDigit s

/-- **A parser scans a form**: it takes `w` before `rest` exactly if `w` has the form and
`rest` does not go on with it, and otherwise it fails. -/
structure Scans (answer : Answer ρ τ) (p : Parser ρ τ (List Char)) (form : List Char → Prop)
    (ends : List Char → List Char → Prop) : Prop where
  append : ∀ w rest, form w → ends w rest → p.read answer (w ++ rest) = .took w rest
  of_read : ∀ s w rest, p.read answer s = .took w rest → s = w ++ rest ∧ form w ∧ ends w rest
  sane : ∀ s, (p.read answer s).Sane

/-! ## Digits -/

theorem read_digits (ha : answer.Within) (s : List Char) :
    (digit.many : Parser ρ τ (List Char)).read answer s =
      .took (s.takeWhile Char.isDigit) (s.dropWhile Char.isDigit) :=
  read_many_of_readChar ha (fun _ => rfl) s

/-- One character of a class, and as many digits as there are. -/
theorem scans_cons_digits (ha : answer.Within) {p : Parser ρ τ (List Char)}
    {accepts : Char → Bool} {label : Text}
    (hp : ∀ s, p.read answer s = (readChar accepts label s).andThen fun x rest =>
      ((digit.many : Parser ρ τ (List Char)).read answer rest).map (x :: ·)) :
    Scans answer p (fun w => ∃ x ds, w = x :: ds ∧ accepts x = true ∧ ∀ y ∈ ds, y.isDigit = true)
      fun _ rest => NoDigit rest where
  append := by
    rintro w rest ⟨x, ds, rfl, hx, hds⟩ hr
    rw [hp, List.cons_append, readChar_cons_of hx, Reading.andThen_took, read_digits ha,
      takeWhile_append_of_stops hds hr, dropWhile_append_of_stops hds hr]
    rfl
  of_read := by
    intro s w rest h
    rw [hp, Reading.andThen_eq_took] at h
    obtain ⟨x, r, hr, h⟩ := h
    obtain ⟨rfl, hx⟩ := readChar_eq_took.1 hr
    rw [read_digits ha] at h
    cases h
    refine ⟨?_, ⟨x, _, rfl, hx, fun _ => List.mem_takeWhile_imp⟩, stops_dropWhile _ r⟩
    rw [List.cons_append, List.takeWhile_append_dropWhile]
  sane := by
    intro s
    rw [hp]
    refine (sane_readChar _ _ s).andThen fun x r _ => ?_
    rw [read_digits ha]
    trivial

/-- A parser scans another description of the same form just as well. -/
theorem Scans.congr {p : Parser ρ τ (List Char)} {form form' : List Char → Prop}
    {ends ends' : List Char → List Char → Prop} (h : Scans answer p form ends)
    (hf : ∀ w, form w ↔ form' w) (he : ∀ w rest, form w → (ends w rest ↔ ends' w rest)) :
    Scans answer p form' ends' where
  append w rest hw hr := h.append w rest ((hf w).2 hw) ((he w rest ((hf w).2 hw)).2 hr)
  of_read s w rest hr := by
    obtain ⟨hs, hw, hends⟩ := h.of_read s w rest hr
    exact ⟨hs, (hf w).1 hw, (he w rest hw).1 hends⟩
  sane := h.sane

theorem digits_iff (w : List Char) :
    (∃ x ds, w = x :: ds ∧ x.isDigit = true ∧ ∀ y ∈ ds, y.isDigit = true) ↔ Digits w := by
  constructor
  · rintro ⟨x, ds, rfl, hx, hds⟩
    exact ⟨List.cons_ne_nil _ _, List.forall_mem_cons.2 ⟨hx, hds⟩⟩
  · rintro ⟨hne, hw⟩
    obtain ⟨x, ds, rfl⟩ := List.exists_cons_of_ne_nil hne
    exact ⟨x, ds, rfl, List.forall_mem_cons.1 hw⟩

/-- Digits, of which there is at least one, end where no digit follows. -/
theorem scans_digits1 (ha : answer.Within) :
    Scans answer (digit.many1 : Parser ρ τ (List Char)) Digits fun _ rest => NoDigit rest :=
  (scans_cons_digits ha fun s => read_many1 digit s).congr digits_iff fun _ _ _ => .rfl

/-! ## Parts that may be missing -/

section Optional

variable {p : Parser ρ τ Char} {accepts : Char → Bool} {label : Text}

/-- A character that does not come next may be missing. -/
theorem read_optional_of_stops (hp : ∀ s, p.read answer s = readChar accepts label s)
    {s : List Char} (hs : Stops accepts s) : (optional p).read answer s = .took none s := by
  rw [read_optional, hp]
  cases s with
  | nil => rfl
  | cons x s => rw [readChar_cons_of_not (hs x rfl)]; rfl

/-- A character that may be missing is taken if it comes next. -/
theorem read_optional_cons (hp : ∀ s, p.read answer s = readChar accepts label s) {x : Char}
    (hx : accepts x = true) (s : List Char) :
    (optional p).read answer (x :: s) = .took (some x) s := by
  rw [read_optional, hp, readChar_cons_of hx]
  rfl

/-- An optional character is put before what is read after it. -/
def withLead (o : Option Char) (rest : List Char) (body : Reading (List Char)) :
    Reading (List Char) :=
  match o with
  | none => .took [] rest
  | some x => body.map (x :: ·)

/-- A part that may be missing is read by its first character, and then by the rest. -/
theorem read_optionalPart (p : Parser ρ τ Char) (body : Parser ρ τ (List Char)) (s : List Char) :
    (optionalPart p body).read answer s =
      ((optional p).read answer s).andThen fun o rest =>
        withLead o rest (body.read answer rest) := by
  unfold optionalPart
  rw [read_bind]
  congr 1
  funext o rest
  cases o <;> rfl

/-- A part that may be missing is there if its first character is. -/
theorem scans_optionalPart (hp : ∀ s, p.read answer s = readChar accepts label s)
    {body : Parser ρ τ (List Char)} {form : List Char → Prop}
    {ends : List Char → List Char → Prop} (hb : Scans answer body form ends) :
    Scans answer (optionalPart p body)
      (fun w => w = [] ∨ ∃ x b, w = x :: b ∧ accepts x = true ∧ form b)
      (fun w rest => (w = [] → Stops accepts rest) ∧ ∀ x b, w = x :: b → ends b rest) where
  append := by
    rintro w rest (rfl | ⟨x, b, rfl, hx, hf⟩) ⟨he, hbe⟩
    · rw [read_optionalPart, List.nil_append, read_optional_of_stops hp (he rfl)]
      rfl
    · rw [read_optionalPart, List.cons_append, read_optional_cons hp hx, Reading.andThen_took,
        hb.append b rest hf (hbe x b rfl)]
      rfl
  of_read := by
    intro s w rest h
    rw [read_optionalPart] at h
    rcases stops_or_exists accepts s with hs | ⟨x, r, rfl, hx⟩
    · -- nothing was taken, so what follows does not begin with the character
      rw [read_optional_of_stops hp hs] at h
      cases h
      exact ⟨rfl, .inl rfl, fun _ => hs, fun x b hw => nomatch hw⟩
    · rw [read_optional_cons hp hx] at h
      obtain ⟨b, hr, rfl⟩ := Reading.map_eq_took.1 h
      obtain ⟨rfl, hf, hends⟩ := hb.of_read _ _ _ hr
      refine ⟨rfl, .inr ⟨x, b, rfl, hx, hf⟩, (fun hw => nomatch hw), ?_⟩
      rintro _ _ ⟨⟩
      exact hends
  sane := by
    intro s
    rw [read_optionalPart]
    rcases stops_or_exists accepts s with hs | ⟨x, r, rfl, hx⟩
    · rw [read_optional_of_stops hp hs]
      trivial
    · rw [read_optional_cons hp hx]
      exact (hb.sane r).map _

/-- A character that may be missing. -/
theorem scans_optionalChar (hp : ∀ s, p.read answer s = readChar accepts label s) :
    Scans answer ((optional p).map Option.toList)
      (fun w => w = [] ∨ ∃ x, w = [x] ∧ accepts x = true)
      (fun w rest => w = [] → Stops accepts rest) where
  append := by
    rintro w rest (rfl | ⟨x, rfl, hx⟩) he
    · rw [read_map, List.nil_append, read_optional_of_stops hp (he rfl)]
      rfl
    · rw [read_map, List.singleton_append, read_optional_cons hp hx]
      rfl
  of_read := by
    intro s w rest h
    rw [read_map] at h
    rcases stops_or_exists accepts s with hs | ⟨x, r, rfl, hx⟩
    · rw [read_optional_of_stops hp hs] at h
      cases h
      exact ⟨rfl, .inl rfl, fun _ => hs⟩
    · rw [read_optional_cons hp hx] at h
      cases h
      exact ⟨rfl, .inr ⟨x, rfl, hx⟩, fun hw => nomatch hw⟩
  sane := by
    intro s
    rw [read_map]
    rcases stops_or_exists accepts s with hs | ⟨x, r, rfl, hx⟩
    · rw [read_optional_of_stops hp hs]
      trivial
    · rw [read_optional_cons hp hx]
      trivial

end Optional

/-! ## The four parts -/

/-- A sign is scanned: there is none only where no minus sign comes next. -/
theorem scans_sign :
    Scans answer (sign : Parser ρ τ (List Char)) Sign fun w rest =>
      w = [] → Stops (· == '-') rest := by
  refine (scans_optionalChar fun s => read_char '-' s).congr (fun w => ?_) fun _ _ _ => .rfl
  simp [Sign]

/-! A zero is read with a look at what follows it, the other whole numbers with all the
digits that follow. So neither form ends before a digit. -/

theorem scans_zero :
    Scans answer (zero : Parser ρ τ (List Char)) (· = ['0']) fun _ rest => NoDigit rest := by
  -- the digit zero, and then a look at the next character that takes nothing
  have hread (s : List Char) : (zero : Parser ρ τ (List Char)).read answer s =
      ((literal (utf8 "0") : Parser ρ τ Text).read answer s).andThen fun _ rest =>
        (readAhead Char.isDigit (utf8 "digit") rest).map fun _ => ['0'] := by
    unfold zero
    rw [read_map, read_left, Reading.map_andThen]
    simp only [Reading.map_map]
    rfl
  have hzero : Utf8.decode (utf8 "0") = ['0'] := decode_utf8 "0"
  constructor
  · rintro w rest rfl hr
    rw [hread, ← hzero, read_literal_append, Reading.andThen_took]
    cases rest with
    | nil => rw [readAhead, hzero]; rfl
    | cons x rest => rw [readAhead, if_neg (by simp [hr x rfl]), hzero]; rfl
  · intro s w rest h
    rw [hread, Reading.andThen_eq_took] at h
    obtain ⟨t, r, ht, h⟩ := h
    have hs := read_literal_eq_took ht
    rw [hzero] at hs
    subst hs
    obtain ⟨_, hr, rfl⟩ := Reading.map_eq_took.1 h
    cases r with
    | nil =>
      cases hr
      exact ⟨rfl, rfl, stops_nil _⟩
    | cons x r =>
      rw [readAhead] at hr
      split at hr
      · cases hr
      · rename_i hx
        cases hr
        exact ⟨rfl, rfl, stops_cons (by simpa using hx) _⟩
  · intro s
    rw [hread]
    refine (sane_literal _ s).andThen fun _ r _ => Reading.Sane.map ?_ _
    cases r with
    | nil => trivial
    | cons x r => rw [readAhead]; split <;> trivial

/-- A whole number that does not begin with zero is scanned up to its last digit. -/
theorem scans_positive (ha : answer.Within) :
    Scans answer (positive : Parser ρ τ (List Char))
      (fun w => ∃ x ds, w = x :: ds ∧ ('1' ≤ x ∧ x ≤ '9') ∧ ∀ y ∈ ds, y.isDigit = true)
      fun _ rest => NoDigit rest := by
  refine (scans_cons_digits ha fun s => read_lift2 _ _ _ s).congr (fun w => ?_) fun _ _ _ => .rfl
  simp only [Bool.and_eq_true, decide_eq_true_eq]

/-- If the forms of two parsers begin differently, their choice scans both. -/
theorem Scans.orElse {p q : Parser ρ τ (List Char)} {form form' : List Char → Prop}
    {ends : List Char → List Char → Prop} (hp : Scans answer p form ends)
    (hq : Scans answer q form' ends)
    (hd : ∀ w w' rest rest', form w → form' w' → w ++ rest ≠ w' ++ rest') :
    Scans answer (p.orElse q) (fun w => form w ∨ form' w) ends where
  append := by
    rintro w rest (hw | hw) he
    · rw [read_orElse, hp.append w rest hw he, Reading.orElse_took]
    · rw [read_orElse]
      -- the first parser cannot succeed on a form of the second
      rcases Reading.sane_iff.1 (hp.sane (w ++ rest)) with ⟨w', r, hr⟩ | hr
      · obtain ⟨hs, hw', -⟩ := hp.of_read _ _ _ hr
        exact absurd hs.symm (hd w' w r rest hw' hw)
      · rw [hr.orElse_eq, hq.append w rest hw he]
  of_read := by
    intro s w rest h
    rw [read_orElse, Reading.orElse_eq_took] at h
    rcases h with h | ⟨-, h⟩
    · obtain ⟨hs, hw, he⟩ := hp.of_read s w rest h
      exact ⟨hs, .inl hw, he⟩
    · obtain ⟨hs, hw, he⟩ := hq.of_read s w rest h
      exact ⟨hs, .inr hw, he⟩
  sane := fun s => (hp.sane s).orElse (hq.sane s)

/-- The whole part is scanned. -/
theorem scans_whole (ha : answer.Within) :
    Scans answer (whole : Parser ρ τ (List Char)) Whole fun _ rest => NoDigit rest := by
  refine (scans_zero.orElse (scans_positive ha) ?_).congr (fun w => ?_) fun _ _ _ => .rfl
  · rintro _ _ rest rest' rfl ⟨x, ds, rfl, ⟨hx, -⟩, -⟩ he
    obtain ⟨rfl, -⟩ := List.cons.inj he
    exact absurd hx (by decide)
  · simp only [Whole, and_assoc]

/-- The fraction is scanned, and there is none only where no point comes next. -/
theorem scans_fraction (ha : answer.Within) :
    Scans answer (fraction : Parser ρ τ (List Char)) Fraction fun w rest =>
      (w = [] → Stops (· == '.') rest) ∧ (w ≠ [] → NoDigit rest) := by
  refine (scans_optionalPart (fun s => read_char '.' s) (scans_digits1 ha)).congr
    (fun w => ?_) fun w rest _ => and_congr_right fun _ => ?_
  · simp only [Fraction, beq_iff_eq, exists_eq_left, exists_and_left, and_left_comm]
  · simp [List.ne_nil_iff_exists_cons]

/-- The marks of an exponent. -/
def isMark (x : Char) : Bool := ['e', 'E'].contains x

/-- The mark of an exponent is read by a test. -/
theorem read_mark (s : List Char) :
    (anyOf (utf8 "eE") : Parser ρ τ Char).read answer s =
      readChar isMark (utf8 "any of " ++ utf8 "eE") s := by
  have hd : Utf8.decode (utf8 "eE") = ['e', 'E'] := decode_utf8 _
  rw [read_anyOf (by rw [hd]; exact List.cons_ne_nil _ _), hd]
  rfl

/-- The signs of an exponent. -/
def isSign (x : Char) : Bool := ['+', '-'].contains x

/-- The sign of an exponent is read by a test. -/
theorem read_exponentSign (s : List Char) :
    (anyOf (utf8 "+-") : Parser ρ τ Char).read answer s =
      readChar isSign (utf8 "any of " ++ utf8 "+-") s := by
  have hd : Utf8.decode (utf8 "+-") = ['+', '-'] := decode_utf8 _
  rw [read_anyOf (by rw [hd]; exact List.cons_ne_nil _ _), hd]
  rfl

/-- Two parts, of which the second cannot begin with what the first would go on with. -/
theorem Scans.andThen {p q pq : Parser ρ τ (List Char)} {form form' : List Char → Prop}
    {ends : List Char → List Char → Prop} {ends' : List Char → Prop}
    (hp : Scans answer p form ends) (hq : Scans answer q form' fun _ rest => ends' rest)
    (hpq : ∀ s, pq.read answer s = (p.read answer s).andThen fun w rest =>
      (q.read answer rest).map (w ++ ·))
    (hd : ∀ w w' rest, form w → form' w' → ends w (w' ++ rest)) :
    Scans answer pq (fun w => ∃ w₁ w₂, w = w₁ ++ w₂ ∧ form w₁ ∧ form' w₂)
      fun _ rest => ends' rest where
  append := by
    rintro w rest ⟨w₁, w₂, rfl, h₁, h₂⟩ he
    rw [hpq, List.append_assoc, hp.append w₁ _ h₁ (hd w₁ w₂ rest h₁ h₂), Reading.andThen_took,
      hq.append w₂ rest h₂ he]
    rfl
  of_read := by
    intro s w rest h
    rw [hpq, Reading.andThen_eq_took] at h
    obtain ⟨w₁, r, h₁, h⟩ := h
    obtain ⟨w₂, h₂, rfl⟩ := Reading.map_eq_took.1 h
    obtain ⟨rfl, hf₁, -⟩ := hp.of_read _ _ _ h₁
    obtain ⟨rfl, hf₂, he⟩ := hq.of_read _ _ _ h₂
    exact ⟨(List.append_assoc _ _ _).symm, ⟨w₁, w₂, rfl, hf₁, hf₂⟩, he⟩
  sane := by
    intro s
    rw [hpq]
    exact (hp.sane s).andThen fun w r _ => (hq.sane r).map _

theorem not_isSign_of_isDigit {x : Char} (h : x.isDigit = true) : isSign x = false := by
  simp only [isSign, List.contains_cons, List.contains_nil, Bool.or_false, Bool.or_eq_false_iff,
    beq_eq_false_iff_ne]
  constructor <;> rintro rfl <;> exact absurd h (by decide)

theorem stops_of_digits {accepts : Char → Bool} (h : ∀ x, x.isDigit = true → accepts x = false)
    {ds : List Char} (hd : Digits ds) (rest : List Char) : Stops accepts (ds ++ rest) := by
  obtain ⟨hne, hds⟩ := hd
  obtain ⟨x, ds, rfl⟩ := List.exists_cons_of_ne_nil hne
  exact stops_cons (h x (hds x List.mem_cons_self)) _

/-- What follows the mark of an exponent is scanned: a sign or none, and digits. -/
theorem scans_exponentBody (ha : answer.Within) :
    Scans answer (lift2 (fun s ds => s.toList ++ ds) (optional (anyOf (utf8 "+-"))) digit.many1 :
        Parser ρ τ (List Char))
      (fun b => ∃ sign ds, b = sign ++ ds ∧ (sign = [] ∨ ∃ x, sign = [x] ∧ isSign x = true) ∧
        Digits ds)
      fun _ rest => NoDigit rest := by
  refine (scans_optionalChar read_exponentSign).andThen (scans_digits1 ha) (fun s => ?_) ?_
  · rw [read_lift2, read_map, Reading.andThen_map]
  · intro w ds rest _ hd _
    exact stops_of_digits (fun x => not_isSign_of_isDigit) hd rest

/-- The exponent is scanned, and there is none only where no mark comes next. -/
theorem scans_exponent (ha : answer.Within) :
    Scans answer (exponent : Parser ρ τ (List Char)) Exponent fun w rest =>
      (w = [] → Stops isMark rest) ∧ (w ≠ [] → NoDigit rest) := by
  refine (scans_optionalPart read_mark (scans_exponentBody ha)).congr
    (fun w => or_congr_right ?_) fun w rest _ => and_congr_right fun _ => ?_
  · constructor
    · rintro ⟨mark, _, rfl, hm, sign, ds, rfl, hs, hd⟩
      refine ⟨mark, sign, ds, rfl, by simpa [isMark] using hm, ?_, hd⟩
      rcases hs with rfl | ⟨x, rfl, hx⟩
      · exact .inl rfl
      · simpa [isSign] using hx
    · rintro ⟨mark, sign, ds, rfl, hm, hs, hd⟩
      refine ⟨mark, _, rfl, by simpa [isMark] using hm, sign, ds, rfl, ?_, hd⟩
      rcases hs with rfl | rfl | rfl
      · exact .inl rfl
      · exact .inr ⟨'+', rfl, by decide⟩
      · exact .inr ⟨'-', rfl, by decide⟩
  · simp [List.ne_nil_iff_exists_cons]

/-! ## Whole literals -/

/-- **What follows does not go on with a number**: no digit, no point if the number has neither
fraction nor exponent, and no mark of an exponent if it has none. -/
structure NumberEnds (fraction exponent rest : List Char) : Prop where
  digit : NoDigit rest
  point : fraction = [] → exponent = [] → Stops (· == '.') rest
  mark : exponent = [] → Stops isMark rest

theorem head_of_fraction {w : List Char} (h : Fraction w) : ∀ x ∈ w.head?, x = '.' := by
  rcases h with rfl | ⟨ds, rfl, -⟩
  · intro x hx; cases hx
  · intro x hx; cases hx; rfl

theorem head_of_exponent {w : List Char} (h : Exponent w) : ∀ x ∈ w.head?, isMark x = true := by
  rcases h with rfl | ⟨mark, sign, ds, rfl, hm, -⟩
  · intro x hx; cases hx
  · intro x hx
    cases hx
    simpa [isMark] using hm

theorem of_isMark {accepts : Char → Bool} (he : accepts 'e' = false) (hE : accepts 'E' = false)
    {x : Char} (hx : isMark x = true) : accepts x = false := by
  have : x = 'e' ∨ x = 'E' := by simpa [isMark] using hx
  rcases this with rfl | rfl
  · exact he
  · exact hE

/-- A fraction does not begin with a digit, nor does what follows if there is none. -/
theorem noDigit_fraction_append {w rest : List Char} (h : Fraction w)
    (hr : w = [] → NoDigit rest) : NoDigit (w ++ rest) := by
  refine stops_append (fun x hx => ?_) hr
  rw [head_of_fraction h x hx]
  decide

/-- Nothing but a mark comes first in an exponent, nor in what follows if there is none. -/
theorem stops_exponent_append {accepts : Char → Bool} (he : accepts 'e' = false)
    (hE : accepts 'E' = false) {w rest : List Char} (h : Exponent w)
    (hr : w = [] → Stops accepts rest) : Stops accepts (w ++ rest) :=
  stops_append (fun x hx => of_isMark he hE (head_of_exponent h x hx)) hr

/-- A number is read in four parts, one after the other. -/
theorem read_parts (s : List Char) :
    (sequence [sign, whole, fraction, exponent] : Parser ρ τ (List (List Char))).read answer s =
      ((sign : Parser ρ τ (List Char)).read answer s).andThen fun sg r =>
        ((whole : Parser ρ τ (List Char)).read answer r).andThen fun wh r =>
          ((fraction : Parser ρ τ (List Char)).read answer r).andThen fun fr r =>
            ((exponent : Parser ρ τ (List Char)).read answer r).map fun ex => [sg, wh, fr, ex] := by
  simp only [read_sequence_cons, read_sequence_nil, Reading.map_andThen, Reading.map_map,
    Reading.map_took, Reading.andThen_eq_map]

theorem head_of_whole {w : List Char} (h : Whole w) : ∃ x ds, w = x :: ds ∧ x.isDigit = true := by
  rcases h with rfl | ⟨x, ds, rfl, h1, h9, -⟩
  · exact ⟨'0', [], rfl, by decide⟩
  · refine ⟨x, ds, rfl, ?_⟩
    have h0 : '0' ≤ x := Char.le_trans (by decide) h1
    simp only [Char.isDigit, Bool.and_eq_true, decide_eq_true_eq]
    exact ⟨h0, h9⟩

/-- **The parts of a number are read as they were written**, where the number ends. -/
theorem read_parts_append (ha : answer.Within) {sg wh fr ex rest : List Char} (hs : Sign sg)
    (hw : Whole wh) (hf : Fraction fr) (he : Exponent ex) (hend : NumberEnds fr ex rest) :
    (sequence [sign, whole, fraction, exponent] : Parser ρ τ (List (List Char))).read answer
        (sg ++ (wh ++ (fr ++ (ex ++ rest)))) = .took [sg, wh, fr, ex] rest := by
  -- each part ends where the next one begins
  have hdigit : NoDigit (ex ++ rest) :=
    stops_exponent_append (by decide) (by decide) he fun _ => hend.digit
  have hsign : sg = [] → Stops (· == '-') (wh ++ (fr ++ (ex ++ rest))) := by
    intro _
    obtain ⟨x, ds, rfl, hx⟩ := head_of_whole hw
    refine stops_cons ?_ _
    rw [beq_eq_false_iff_ne]
    rintro rfl
    exact absurd hx (by decide)
  have hwhole : NoDigit (fr ++ (ex ++ rest)) := noDigit_fraction_append hf fun _ => hdigit
  have hpoint : fr = [] → Stops (· == '.') (ex ++ rest) := fun h =>
    stops_exponent_append (by decide) (by decide) he (hend.point h)
  rw [read_parts, scans_sign.append _ _ hs hsign, Reading.andThen_took,
    (scans_whole ha).append _ _ hw hwhole, Reading.andThen_took,
    (scans_fraction ha).append _ _ hf ⟨hpoint, fun _ => hdigit⟩, Reading.andThen_took,
    (scans_exponent ha).append _ _ he ⟨hend.mark, fun _ => hend.digit⟩]
  rfl

/-- **What is read as the parts of a number is of their form**, and the number ends there. -/
theorem parts_of_read (ha : answer.Within) {s rest : List Char} {parts : List (List Char)}
    (h : (sequence [sign, whole, fraction, exponent] : Parser ρ τ (List (List Char))).read
      answer s = .took parts rest) :
    ∃ sg wh fr ex, parts = [sg, wh, fr, ex] ∧ s = sg ++ (wh ++ (fr ++ (ex ++ rest))) ∧
      Sign sg ∧ Whole wh ∧ Fraction fr ∧ Exponent ex ∧ NumberEnds fr ex rest := by
  rw [read_parts, Reading.andThen_eq_took] at h
  obtain ⟨sg, r₁, h₁, h⟩ := h
  obtain ⟨wh, r₂, h₂, h⟩ := Reading.andThen_eq_took.1 h
  obtain ⟨fr, r₃, h₃, h⟩ := Reading.andThen_eq_took.1 h
  obtain ⟨ex, h₄, rfl⟩ := Reading.map_eq_took.1 h
  obtain ⟨rfl, hs, -⟩ := scans_sign.of_read _ _ _ h₁
  obtain ⟨rfl, hw, hdw⟩ := (scans_whole ha).of_read _ _ _ h₂
  obtain ⟨rfl, hf, hpf, hdf⟩ := (scans_fraction ha).of_read _ _ _ h₃
  obtain ⟨rfl, he, hme, hde⟩ := (scans_exponent ha).of_read _ _ _ h₄
  refine ⟨sg, wh, fr, ex, rfl, rfl, hs, hw, hf, he, ?_, ?_, hme⟩
  · -- the last part that is not empty has stopped before `rest`
    by_cases hex : ex = []
    · subst hex
      by_cases hfr : fr = []
      · subst hfr
        exact hdw
      · exact hdf hfr
    · exact hde hex
  · rintro rfl rfl
    exact hpf rfl

/-- **A number takes a literal** that what follows does not go on with. -/
theorem read_number_append (ha : answer.Within) {sg wh fr ex rest : List Char} (hs : Sign sg)
    (hw : Whole wh) (hf : Fraction fr) (he : Exponent ex) (hend : NumberEnds fr ex rest) :
    (number : Parser ρ τ Json).read answer (sg ++ wh ++ fr ++ ex ++ rest) =
      .took (numberOf (sg ++ wh ++ fr ++ ex)) rest := by
  unfold number
  simp only [List.append_assoc]
  rw [read_relabel, read_map, read_parts_append ha hs hw hf he hend]
  simp

/-- **A number that is read is such a literal.** -/
theorem number_of_read (ha : answer.Within) {s rest : List Char} {v : Json}
    (h : (number : Parser ρ τ Json).read answer s = .took v rest) :
    ∃ sg wh fr ex, s = sg ++ wh ++ fr ++ ex ++ rest ∧ v = numberOf (sg ++ wh ++ fr ++ ex) ∧
      Sign sg ∧ Whole wh ∧ Fraction fr ∧ Exponent ex ∧ NumberEnds fr ex rest := by
  unfold number at h
  rw [read_relabel, Reading.relabel_eq_took, read_map, Reading.map_eq_took] at h
  obtain ⟨parts, hp, rfl⟩ := h
  obtain ⟨sg, wh, fr, ex, rfl, rfl, hs, hw, hf, he, hend⟩ := parts_of_read ha hp
  refine ⟨sg, wh, fr, ex, ?_, ?_, hs, hw, hf, he, hend⟩
  · simp only [List.append_assoc]
  · simp

/-- A number has no fault. -/
theorem sane_number (ha : answer.Within) (s : List Char) :
    ((number : Parser ρ τ Json).read answer s).Sane := by
  unfold number
  rw [read_relabel, read_map]
  refine ((sane_sequence ?_ s).map _).relabel _
  intro p hp
  simp only [List.mem_cons, List.not_mem_nil, or_false] at hp
  rcases hp with rfl | rfl | rfl | rfl
  · exact scans_sign.sane
  · exact (scans_whole ha).sane
  · exact (scans_fraction ha).sane
  · exact (scans_exponent ha).sane

/-- The characters that a number may begin with. -/
def beginsNumber (x : Char) : Bool := x == '-' || x.isDigit

/-- A number begins with a digit or a minus sign. -/
theorem head_of_number {w : List Char} (h : Number w) :
    ∃ x w', w = x :: w' ∧ beginsNumber x = true := by
  obtain ⟨sg, wh, fr, ex, rfl, hs, hw, -, -⟩ := h
  rcases hs with rfl | rfl
  · obtain ⟨x, ds, rfl, hx⟩ := head_of_whole hw
    exact ⟨x, _, rfl, by simp [beginsNumber, hx]⟩
  · exact ⟨'-', _, rfl, by decide⟩

/-- What begins with something else is refused. -/
theorem isRefused_number (ha : answer.Within) {s : List Char} (hs : Stops beginsNumber s) :
    ((number : Parser ρ τ Json).read answer s).IsRefused := by
  have hsane : ((number : Parser ρ τ Json).read answer s).Sane := sane_number ha s
  rcases Reading.sane_iff.1 hsane with ⟨v, rest, h⟩ | h
  · obtain ⟨sg, wh, fr, ex, rfl, -, hsg, hw, hf, he, -⟩ := number_of_read ha h
    obtain ⟨x, w, hx, hb⟩ := head_of_number ⟨sg, wh, fr, ex, rfl, hsg, hw, hf, he⟩
    rw [hx] at hs
    have := hs x rfl
    rw [hb] at this
    cases this
  · exact h

/-! ## What a literal denotes -/

/-- A mark and digits are read as an exponent. -/
theorem readExponent?_digits {mark : Char} (hm : mark = 'e' ∨ mark = 'E') {ds : List Char}
    (hd : Digits ds) :
    Literal.readExponent? (mark :: ds) = (Literal.readExponentDigits? ds).map Int.ofNat := by
  obtain ⟨hne, hds⟩ := hd
  obtain ⟨x, ds, rfl⟩ := List.exists_cons_of_ne_nil hne
  have hx := hds x List.mem_cons_self
  unfold Literal.readExponent?
  dsimp only
  rw [if_pos hm]
  split
  · rename_i h
    cases h
    exact absurd hx (by decide)
  · rename_i h
    cases h
    exact absurd hx (by decide)
  · rfl

/-- Every exponent of the syntax can be read. -/
theorem exists_readExponent? {ex : List Char} (h : Exponent ex) :
    ∃ e, Literal.readExponent? ex = some e := by
  rcases h with rfl | ⟨mark, sign, ds, rfl, hm, hs, hd⟩
  · exact ⟨0, rfl⟩
  have hdigits : Literal.readExponentDigits? ds = some (Literal.exponentOf ds) :=
    if_pos ⟨hd.1, List.all_eq_true.2 hd.2⟩
  rcases hs with rfl | rfl | rfl
  · rw [List.singleton_append, readExponent?_digits hm hd, hdigits]
    exact ⟨_, rfl⟩
  · unfold Literal.readExponent?
    simp only [List.cons_append, List.nil_append, if_pos hm, hdigits]
    exact ⟨_, rfl⟩
  · unfold Literal.readExponent?
    simp only [List.cons_append, List.nil_append, if_pos hm, hdigits]
    exact ⟨_, rfl⟩

theorem digits_of_whole {w : List Char} (h : Whole w) : Digits w := by
  rcases h with rfl | ⟨x, ds, rfl, h1, h9, hds⟩
  · exact ⟨List.cons_ne_nil _ _, by simp⟩
  · obtain ⟨y, ds', he, hy⟩ := head_of_whole (.inr ⟨x, ds, rfl, h1, h9, hds⟩)
    obtain ⟨rfl, rfl⟩ := List.cons.inj he
    exact (digits_iff _).1 ⟨_, _, rfl, hy, hds⟩

theorem head_ne_zero_of_whole {w : List Char} (h : Whole w) :
    w = ['0'] ∨ w.head? ≠ some '0' := by
  rcases h with rfl | ⟨x, ds, rfl, h1, -, -⟩
  · exact .inl rfl
  · right
    intro h0
    obtain rfl := Option.some.inj h0
    exact absurd h1 (by decide)

/-- Digits are a whole part, unless a zero comes before others. -/
theorem whole_of_digits {w : List Char} (h : Digits w) (h0 : w = ['0'] ∨ w.head? ≠ some '0') :
    Whole w := by
  rcases h0 with rfl | h0
  · exact .inl rfl
  · obtain ⟨x, ds, rfl, hx, hds⟩ := (digits_iff w).2 h
    have hne : x ≠ '0' := fun he => h0 (congrArg some he)
    simp only [Char.isDigit, Bool.and_eq_true, decide_eq_true_eq] at hx
    have hle : '0'.toNat ≤ x.toNat := hx.1
    have hlt : '0'.toNat ≠ x.toNat := fun he => hne (Char.toNat_inj.1 he).symm
    have h1 : '1'.toNat ≤ x.toNat := Nat.lt_of_le_of_ne hle hlt
    exact .inr ⟨x, ds, rfl, h1, hx.2, hds⟩

/-- What is read as an exponent is one of the syntax. -/
theorem exponent_of_readExponent? {ex : List Char} {e : Int}
    (h : Literal.readExponent? ex = some e) : Exponent ex := by
  have hdigits {ds : List Char} {n : Nat} (hd : Literal.readExponentDigits? ds = some n) :
      Digits ds := by
    unfold Literal.readExponentDigits? at hd
    split at hd
    · rename_i hds
      exact ⟨hds.1, List.all_eq_true.1 hds.2⟩
    · cases hd
  cases ex with
  | nil => exact .inl rfl
  | cons mark cs =>
    have hm := Literal.head_of_readExponent? h mark rfl
    unfold Literal.readExponent? at h
    dsimp only at h
    rw [if_pos hm] at h
    right
    -- with a plus sign, with a minus sign, or with digits at once
    split at h
    · obtain ⟨n, hn, -⟩ := Option.map_eq_some_iff.1 h
      exact ⟨mark, ['+'], _, rfl, hm, .inr (.inl rfl), hdigits hn⟩
    · obtain ⟨_, hi, -⟩ := Option.map_eq_some_iff.1 h
      obtain ⟨n, hn, -⟩ := Option.bind_eq_some_iff.1 hi
      exact ⟨mark, ['-'], _, rfl, hm, .inr (.inr rfl), hdigits hn⟩
    · obtain ⟨n, hn, -⟩ := Option.map_eq_some_iff.1 h
      exact ⟨mark, [], _, rfl, hm, .inl rfl, hdigits hn⟩

/-- Every number of the syntax is read as a literal. -/
theorem exists_read? {w : List Char} (h : Number w) :
    ∃ l, Literal.read? w = some l ∧ (l.whole = ['0'] ∨ l.whole.head? ≠ some '0') := by
  obtain ⟨sg, wh, fr, ex, rfl, hs, hw, hf, he⟩ := h
  obtain ⟨negative, rfl⟩ : ∃ negative, sg = Literal.signText negative := by
    rcases hs with rfl | rfl
    · exact ⟨false, rfl⟩
    · exact ⟨true, rfl⟩
  obtain ⟨fs, rfl, hfs⟩ : ∃ fs, fr = Literal.fractionText fs ∧ ∀ x ∈ fs, x.isDigit = true := by
    rcases hf with rfl | ⟨ds, rfl, hd⟩
    · exact ⟨[], rfl, by simp⟩
    · obtain ⟨x, ds', rfl⟩ := List.exists_cons_of_ne_nil hd.1
      exact ⟨x :: ds', rfl, hd.2⟩
  obtain ⟨e, hex⟩ := exists_readExponent? he
  obtain ⟨hne, hwd⟩ := digits_of_whole hw
  exact ⟨_, Literal.read?_parts negative hne hwd hfs hex, head_ne_zero_of_whole hw⟩

/-- What is read as a literal is a number of the syntax, unless a zero comes before its digits. -/
theorem number_of_read? {w : List Char} {l : Literal} (h : Literal.read? w = some l)
    (h0 : l.whole = ['0'] ∨ l.whole.head? ≠ some '0') : Number w := by
  obtain ⟨ex, rfl, hne, hwd, hfs, hex⟩ := Literal.parts_of_read? h
  refine ⟨_, _, _, ex, rfl, ?_, whole_of_digits ⟨hne, hwd⟩ h0, ?_, exponent_of_readExponent? hex⟩
  · cases l.negative
    · exact .inl rfl
    · exact .inr rfl
  · generalize l.fraction = fs at hfs
    cases fs with
    | nil => exact .inl rfl
    | cons x ds => exact .inr ⟨x :: ds, rfl, List.cons_ne_nil x ds, hfs⟩

/-- **The literals of the syntax** are those that can be read and have no needless zero. -/
theorem number_iff {w : List Char} :
    Number w ↔ ∃ l, Literal.read? w = some l ∧ (l.whole = ['0'] ∨ l.whole.head? ≠ some '0') :=
  ⟨exists_read?, fun ⟨_, h, h0⟩ => number_of_read? h h0⟩

/-- **Every literal of the syntax denotes a number.** -/
theorem exists_ofLiteral? {w : List Char} (h : Number w) :
    ∃ x, Binary64.ofLiteral? w = some x := by
  obtain ⟨l, hl, -⟩ := exists_read? h
  rw [Binary64.ofLiteral?, hl]
  exact ⟨_, rfl⟩

/-- The digits, one by one. -/
def digitChars : List Char := "0123456789".toList

theorem mem_digitChars {x : Char} (h : x.isDigit = true) : x ∈ digitChars := by
  have key : ∀ m < 10, Char.ofNat (48 + m) ∈ digitChars := by decide
  simp only [Char.isDigit, Bool.and_eq_true, decide_eq_true_eq] at h
  have h0 : 48 ≤ x.toNat := h.1
  have h9 : x.toNat ≤ 57 := h.2
  have hx := key (x.toNat - 48) (by omega)
  rwa [Nat.add_sub_cancel' h0, Char.ofNat_toNat] at hx

/-- The characters of numbers: signs, the point, the marks of an exponent and the digits. -/
def numberChars : List Char := "+-.eE".toList ++ digitChars

theorem mem_numberChars {w : List Char} (h : Number w) {x : Char} (hx : x ∈ w) :
    x ∈ numberChars := by
  have hdigit {ds : List Char} (hd : ∀ y ∈ ds, y.isDigit = true) (hx : x ∈ ds) :
      x ∈ numberChars := List.mem_append_right _ (mem_digitChars (hd x hx))
  obtain ⟨sg, wh, fr, ex, rfl, hs, hw, hf, he⟩ := h
  simp only [List.mem_append] at hx
  -- in the sign, in the whole part, in the fraction, in the exponent
  rcases hx with ((hx | hx) | hx) | hx
  · rcases hs with rfl | rfl
    · cases hx
    · rw [List.mem_singleton.1 hx]
      decide
  · exact hdigit (digits_of_whole hw).2 hx
  · rcases hf with rfl | ⟨ds, rfl, hd⟩
    · cases hx
    · rcases List.mem_cons.1 hx with rfl | hx
      · decide
      · exact hdigit hd.2 hx
  · rcases he with rfl | ⟨mark, sign, ds, rfl, hm, hs, hd⟩
    · cases hx
    · rcases List.mem_append.1 hx with hx | hx
      · rcases List.mem_cons.1 hx with rfl | hx
        · rcases hm with rfl | rfl <;> decide
        · rcases hs with rfl | rfl | rfl
          · cases hx
          · rw [List.mem_singleton.1 hx]
            decide
          · rw [List.mem_singleton.1 hx]
            decide
      · exact hdigit hd.2 hx

theorem numberOf_eq {w : List Char} {x : Binary64} (h : Binary64.ofLiteral? w = some x) :
    numberOf w = .number x := by
  rw [numberOf, h, Option.getD_some]

end Descent.Json.Grammar
