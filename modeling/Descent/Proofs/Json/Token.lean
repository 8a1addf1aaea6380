import Descent.Json.Grammar
import Descent.Proofs.Json.Syntax
import Descent.Proofs.Parser.Combinator
import Descent.Proofs.Text.Runs
import Mathlib.Data.List.TakeWhile

/-!
# Readings of white space, punctuation and words

What the parsers for the smallest parts of JSON read: white space as far as it
goes, a punctuation mark and the white space after it, a word that stands for a
value. Here as in the files on strings, numbers and values, a parser takes what
the syntax derives (`read_…_append`) and nothing else (`…_of_read`), and is never
at fault (`sane_…`).
-/

namespace Descent

theorem decode_utf8 (s : String) : Utf8.decode (utf8 s) = s.toList := Utf8.decode_encode _

namespace Json.Grammar

open Descent.Parser Syntax

variable {ρ : Type} {τ : ρ → Type} {answer : Answer ρ τ}

/-! ## White space -/

theorem read_space (s : List Char) :
    (anyOf (utf8 " \t\n\r") : Parser ρ τ Char).read answer s =
      readChar isSpace (utf8 "any of " ++ utf8 " \t\n\r") s := by
  have hd : Utf8.decode (utf8 " \t\n\r") = [' ', '\t', '\n', '\r'] := decode_utf8 _
  rw [read_anyOf (by rw [hd]; exact List.cons_ne_nil _ _), hd]
  rfl

/-- **White space is taken as far as it goes.** -/
theorem read_ws (ha : answer.Within) (s : List Char) :
    (ws : Parser ρ τ (List Char)).read answer s =
      .took (s.takeWhile isSpace) (s.dropWhile isSpace) :=
  read_many_of_readChar ha read_space s

theorem blank_takeWhile (s : List Char) : Blank (s.takeWhile isSpace) :=
  fun _ => List.mem_takeWhile_imp

/-- Whatever white space comes first is skipped. -/
theorem dropWhile_append_blank {u : List Char} (hu : Blank u) (s : List Char) :
    (u ++ s).dropWhile isSpace = s.dropWhile isSpace :=
  List.dropWhile_append_of_pos hu

/-- Skipping takes white space away, and nothing else. -/
theorem exists_blank_dropWhile (s : List Char) : ∃ u, Blank u ∧ s = u ++ s.dropWhile isSpace :=
  ⟨s.takeWhile isSpace, blank_takeWhile s, List.takeWhile_append_dropWhile.symm⟩

theorem dropWhile_suffix (s : List Char) : s.dropWhile isSpace <:+ s :=
  List.dropWhile_suffix _

/-! ## Punctuation -/

/-- A character is refused where none that passes the test comes first. -/
theorem readChar_of_stops {accepts : Char → Bool} {s : List Char} (h : Stops accepts s)
    (label : Text) : readChar accepts label s = .refused label s := by
  cases s with
  | nil => rfl
  | cons x s => exact readChar_cons_of_not (h x rfl) label s

/-- A token is its character, and the white space behind. -/
theorem read_token (ha : answer.Within) (x : Char) (s : List Char) :
    (token x : Parser ρ τ Char).read answer s =
      (readChar (· == x) (Utf8.encodeChar x) s).andThen fun y rest =>
        .took y (rest.dropWhile isSpace) := by
  unfold token
  rw [read_left, read_char]
  congr 1
  funext y rest
  rw [read_ws ha]
  rfl

theorem read_token_cons (ha : answer.Within) (x : Char) (s : List Char) :
    (token x : Parser ρ τ Char).read answer (x :: s) = .took x (s.dropWhile isSpace) := by
  rw [read_token ha, readChar_cons_of (by simp)]
  rfl

theorem isRefused_token (ha : answer.Within) {x y : Char} (h : y ≠ x) (s : List Char) :
    ((token x : Parser ρ τ Char).read answer (y :: s)).IsRefused := by
  rw [read_token ha, readChar_cons_of_not (by simp [h])]
  exact Reading.isRefused_refused _ _

/-- A mark that does not come first is refused before what comes first. -/
theorem read_token_of_stops (ha : answer.Within) {x : Char} {s : List Char}
    (h : Stops (· == x) s) :
    (token x : Parser ρ τ Char).read answer s = .refused (Utf8.encodeChar x) s := by
  rw [read_token ha, readChar_of_stops h]
  rfl

theorem sane_token (ha : answer.Within) (x : Char) (s : List Char) :
    ((token x : Parser ρ τ Char).read answer s).Sane := by
  rw [read_token ha]
  exact (sane_readChar _ _ s).andThen fun _ _ _ => trivial

/-- What was taken for a token is its character, and the white space behind is left out. -/
theorem token_of_read (ha : answer.Within) {x y : Char} {s rest : List Char}
    (h : (token x : Parser ρ τ Char).read answer s = .took y rest) :
    ∃ r, s = x :: r ∧ rest = r.dropWhile isSpace := by
  rw [read_token ha, Reading.andThen_eq_took] at h
  obtain ⟨z, r, hz, hr⟩ := h
  obtain ⟨rfl, hx⟩ := readChar_eq_took.1 hz
  cases hr
  exact ⟨r, by rw [eq_of_beq hx], rfl⟩

theorem length_lt_of_token (ha : answer.Within) {x y : Char} {s rest : List Char}
    (h : (token x : Parser ρ τ Char).read answer s = .took y rest) : rest.length < s.length := by
  obtain ⟨r, rfl, rfl⟩ := token_of_read ha h
  have := (dropWhile_suffix r).length_le
  simp only [List.length_cons]
  omega

/-! ## Words -/

/-- A word is taken where it stands, for its value. -/
theorem read_constant_append (word : String) (v : Json) (rest : List Char) :
    (constant (utf8 word) v : Parser ρ τ Json).read answer (word.toList ++ rest) =
      .took v rest := by
  unfold constant
  rw [read_map, ← decode_utf8, read_literal_append]
  rfl

theorem isRefused_constant {word : String} {v : Json} {s : List Char}
    (h : ¬ word.toList <+: s) :
    ((constant (utf8 word) v : Parser ρ τ Json).read answer s).IsRefused := by
  unfold constant
  rw [read_map]
  exact (read_literal_refused (by rwa [decode_utf8])).map _

/-- What was taken for a word is that word, and has its value. -/
theorem constant_of_read {word : String} {v w : Json} {s rest : List Char}
    (h : (constant (utf8 word) v : Parser ρ τ Json).read answer s = .took w rest) :
    w = v ∧ s = word.toList ++ rest := by
  obtain ⟨t, ht, rfl⟩ := Reading.map_eq_took.1 h
  refine ⟨rfl, ?_⟩
  rw [read_literal_eq_took ht, decode_utf8]

theorem sane_constant (word : Text) (v : Json) (s : List Char) :
    ((constant word v : Parser ρ τ Json).read answer s).Sane :=
  (sane_literal word s).map _

end Json.Grammar

end Descent
