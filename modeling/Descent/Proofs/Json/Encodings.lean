import Descent.Proofs.Json.Acceptance
import Descent.Proofs.Source.Forward
import Descent.Proofs.Source.Spelling

/-!
# Every way of writing a string

A string has many texts: each of its characters may stand for itself, or be
written by a letter, by a number, or by the numbers of its two surrogates, and
each choice is made apart from the others. The rule for strings decodes them all.

The code points of the escapes are joined only after the whole string is read,
so what has to be seen is that no choice changes how its neighbours are read: a
surrogate comes from the escape of a pair alone, and its other half is next to it.

* `Written.exists_stringBody`: the code points of a written string stand for its
  characters.
* `parseKind_string_written`: whatever text follows the string.
-/

namespace Descent.Json

open Descent.Parser Syntax Grammar

/-! ## Writing characters -/

/-- A backslash, a `u` and four hexadecimal digits, and the number that they write. The digits may
be of either case, each on its own. -/
inductive Numbered : List Char → Nat → Prop where
  | intro {a b c d : Char} {i j k l : Nat} :
      HexDigit a i → HexDigit b j → HexDigit c k → HexDigit d l →
      Numbered ['\\', 'u', a, b, c, d] (((i * 16 + j) * 16 + k) * 16 + l)

/-- The first half of the surrogate pair of a character. -/
def highHalf (x : Char) : Nat := 0xD800 + (x.toNat - 0x10000) / 0x400

/-- The second half of the surrogate pair of a character. -/
def lowHalf (x : Char) : Nat := 0xDC00 + (x.toNat - 0x10000) % 0x400

/-- **A way of writing a character** between quotes. -/
inductive WrittenChar : List Char → Char → Prop where
  | raw {x : Char} : x ≠ '"' → x ≠ '\\' → WrittenChar [x] x
  | letter {letter x : Char} : (letter, x) ∈ escapes → WrittenChar ['\\', letter] x
  | number {w : List Char} {x : Char} : Numbered w x.toNat → WrittenChar w x
  | pair {w w' : List Char} {x : Char} :
      0x10000 ≤ x.toNat → Numbered w (highHalf x) → Numbered w' (lowHalf x) →
      WrittenChar (w ++ w') x

/-- **A way of writing characters** between quotes, chosen for each of them. -/
inductive Written : List Char → List Char → Prop where
  | nil : Written [] []
  | cons {w b : List Char} {x : Char} {cs : List Char} :
      WrittenChar w x → Written b cs → Written (w ++ b) (x :: cs)

/-! ## Reading them back -/

theorem Numbered.stringChar {w : List Char} {n : Nat} (h : Numbered w n) : StringChar w n := by
  cases h with
  | intro ha hb hc hd => exact .number ha hb hc hd

section Halves

variable {x : Char}

theorem isHigh_highHalf (h : 0x10000 ≤ x.toNat) : CodePoint.IsHigh (highHalf x : Int) := by
  have hx := Utf8.toNat_lt x
  rw [CodePoint.isHigh_iff]
  unfold highHalf
  omega

theorem isLow_lowHalf (x : Char) : CodePoint.IsLow (lowHalf x : Int) := by
  rw [CodePoint.isLow_iff]
  unfold lowHalf
  omega

/-- The halves of a character bring all of its bits. -/
theorem toNat_eq_halves (h : 0x10000 ≤ x.toNat) :
    (x.toNat : Int) = ((highHalf x : Int) - 0xD800) * 0x400 + (lowHalf x - 0xDC00) + 0x10000 := by
  unfold highHalf lowHalf
  omega

end Halves

/-- **A written character stands for itself**, before any code points. -/
theorem WrittenChar.exists_stringBody {w b : List Char} {x : Char} {us : List CodePoint}
    {cs : List Char} (h : WrittenChar w x) (hb : StringBody b us) (hs : CodePoint.StandFor us cs) :
    ∃ us', StringBody (w ++ b) us' ∧ CodePoint.StandFor us' (x :: cs) := by
  cases h with
  | raw hq hbs => exact ⟨_, .cons (.plain hq hbs) hb, .char x hs⟩
  | letter hl => exact ⟨_, .cons (.escape hl) hb, .char x hs⟩
  | number hn => exact ⟨_, .cons hn.stringChar hb, .char x hs⟩
  | pair hx hw hw' =>
    refine ⟨highHalf x :: lowHalf x :: us, ?_, ?_⟩
    · rw [List.append_assoc]
      exact .cons hw.stringChar (.cons hw'.stringChar hb)
    · exact .pair (isHigh_highHalf hx) (isLow_lowHalf x) (toNat_eq_halves hx) hs

/-- **The code points of a written string stand for its characters.** -/
theorem Written.exists_stringBody {b cs : List Char} (h : Written b cs) :
    ∃ us, StringBody b us ∧ CodePoint.StandFor us cs := by
  induction h with
  | nil => exact ⟨[], .nil, .nil⟩
  | cons hw _ ih =>
    obtain ⟨us, hb, hs⟩ := ih
    exact hw.exists_stringBody hb hs

/-- What is written between quotes is a string of the syntax. -/
theorem Written.quoted {b cs : List Char} (h : Written b cs) :
    Quoted ('"' :: b ++ ['"']) (Utf8.encode cs) := by
  obtain ⟨us, hb, hs⟩ := h.exists_stringBody
  exact .intro hb hs

/-! ## The rule for strings -/

/-- The rule for strings takes a quoted string that is ahead of a cursor. -/
theorem run_string_of_quoted {w rest : List Char} {t : Text} (h : Quoted w t) {c : Cursor}
    (hc : c.ahead = w ++ rest) (level : Level) :
    ((Kind.string.parser self).runWith rules level c).outcome =
      .success (.string t) (c.skip w.length) := by
  have hread : (Kind.string.parser self).read (rules.answer (rules.depth c)) (w ++ rest) =
      .took (.string t) rest := by
    refine Reading.relabel_eq_took.2 (Reading.map_eq_took.2 ⟨t, ?_, rfl⟩)
    exact read_quotedString_append (rules.within_answer _) h rest
  rw [outcome_runWith (standard_kind standard_self .string) standard_rules, hc, hread,
    Reading.outcome_took, Cursor.upTo_append hc]

/-- A quoted string without a line break of two characters is ahead of its text as it is
written. -/
theorem ahead_quoted_append {b : List Char} (h : ¬ ['\r', '\n'] <:+: b) (after : Text) :
    (Cursor.ofText (Utf8.encode ('"' :: b ++ ['"']) ++ after)).ahead =
      ('"' :: b ++ ['"']) ++ (spelling after ++ ['\n']) := by
  have hbreak : ¬ ['\r', '\n'] <:+: '"' :: b ++ ['"'] := by
    rw [List.infix_concat_iff, List.infix_cons_iff, List.cons_prefix_cons]
    rintro (hend | ⟨hx, -⟩ | hin)
    · obtain ⟨l, hl⟩ := hend
      have hx := congrArg List.getLast? hl
      rw [List.getLast?_concat, List.getLast?_append] at hx
      exact absurd (Option.some.inj hx) (by decide)
    · exact absurd hx (by decide)
    · exact h hin
  have hlast : ('"' :: b ++ ['"']).getLast? ≠ some '\r' := by
    rw [List.getLast?_concat]
    decide
  have hne : Utf8.encode ('"' :: b ++ ['"']) ++ after ≠ [] := by
    rw [List.cons_append, Utf8.encode_cons]
    exact List.append_ne_nil_of_left_ne_nil
      (List.append_ne_nil_of_left_ne_nil (Utf8.encodeChar_ne_nil _) _) _
  rw [Cursor.ahead_ofText, sourceChars_eq hne, spelling_encode_append hbreak hlast,
    List.append_assoc]

/-- **The rule for strings decodes every way of writing a string**, whatever text follows it, and
goes on right after the closing quote. The one thing that cannot be written is a carriage return
right before a line feed, each as itself. -/
theorem parseKind_string_written {b cs : List Char} (h : Written b cs)
    (hbreak : ¬ ['\r', '\n'] <:+: b) (after : Text) :
    ∃ rest, parseKind .string (Utf8.encode ('"' :: b ++ ['"']) ++ after) =
        .success (.string (Utf8.encode cs)) rest ∧
      rest = (Cursor.ofText (Utf8.encode ('"' :: b ++ ['"']) ++ after)).skip (b.length + 2) ∧
      rest.ahead = spelling after ++ ['\n'] := by
  have hahead := ahead_quoted_append hbreak after
  have hrun := run_string_of_quoted h.quoted hahead .info
  refine ⟨_, hrun, by simp, ?_⟩
  rw [Cursor.ahead_skip, hahead, List.drop_left]

/-- A string with every way of writing a character: as itself, also a line feed and a character
above `0xFFFF`, by a letter, by a number with digits of both cases, and by a pair. A carriage
return is last. -/
def mixedBody : List Char := "é\\\"\\uD83d\\uDe00😀\n\\u0041\\ufFfD\r".toList

/-- The characters that `mixedBody` writes. -/
def mixedChars : List Char := "é\"😀😀\nA\uFFFD\r".toList

theorem written_mixed : Written mixedBody mixedChars := by
  have hquote : WrittenChar ['\\', '"'] '"' := .letter (by decide)
  have hhigh : Numbered ['\\', 'u', 'D', '8', '3', 'd'] (highHalf '😀') :=
    .intro (i := 13) (j := 8) (k := 3) (l := 13) (by decide) (by decide) (by decide) (by decide)
  have hlow : Numbered ['\\', 'u', 'D', 'e', '0', '0'] (lowHalf '😀') :=
    .intro (i := 13) (j := 14) (k := 0) (l := 0) (by decide) (by decide) (by decide) (by decide)
  have hA : Numbered ['\\', 'u', '0', '0', '4', '1'] 'A'.toNat :=
    .intro (i := 0) (j := 0) (k := 4) (l := 1) (by decide) (by decide) (by decide) (by decide)
  have hreplacement : Numbered ['\\', 'u', 'f', 'F', 'f', 'D'] '\uFFFD'.toNat :=
    .intro (i := 15) (j := 15) (k := 15) (l := 13) (by decide) (by decide) (by decide) (by decide)
  have hwritten : Written _ _ :=
    .cons (.raw (x := 'é') (by decide) (by decide)) <|
    .cons hquote <|
    .cons (.pair (by decide) hhigh hlow) <|
    .cons (.raw (x := '😀') (by decide) (by decide)) <|
    .cons (.raw (x := '\n') (by decide) (by decide)) <|
    .cons (.number hA) <|
    .cons (.number hreplacement) <|
    .cons (.raw (x := '\r') (by decide) (by decide)) .nil
  exact hwritten

/-- The string is decoded before a line feed, a byte that is no character, and a quote. -/
theorem parseKind_string_mixed :
    Written mixedBody mixedChars ∧ ¬ ['\r', '\n'] <:+: mixedBody ∧
      ∃ rest, parseKind .string (Utf8.encode ('"' :: mixedBody ++ ['"']) ++ [0x0A, 0xFF, 0x22]) =
          .success (.string (Utf8.encode mixedChars)) rest ∧
        rest = (Cursor.ofText (Utf8.encode ('"' :: mixedBody ++ ['"']) ++ [0x0A, 0xFF, 0x22])).skip
          (mixedBody.length + 2) ∧
        rest.ahead = spelling [0x0A, 0xFF, 0x22] ++ ['\n'] :=
  have hbreak : ¬ ['\r', '\n'] <:+: mixedBody := by decide +kernel
  ⟨written_mixed, hbreak, parseKind_string_written written_mixed hbreak [0x0A, 0xFF, 0x22]⟩

end Descent.Json
