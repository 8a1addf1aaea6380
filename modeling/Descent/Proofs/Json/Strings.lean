import Descent.Proofs.Json.Token

/-!
# Readings of strings

A string is taken up to its closing quote, one character or escape at a time. The
four digits of an escape by number are digits to the parser exactly if they are
digits to the reader of hexadecimal numbers, so the latter never objects.

* `read_stringChar_append`, `stringChar_of_read`: one character of a string.
* `read_quotedString_append`, `quoted_of_read`: a whole string.
-/

namespace Descent

namespace Json.Grammar

open Descent.Parser Syntax

variable {ρ : Type} {τ : ρ → Type} {answer : Answer ρ τ}

/-! ## Plain characters and escapes by a letter -/

theorem read_plainChar (s : List Char) :
    (plainChar : Parser ρ τ CodePoint).read answer s =
      (readChar (fun x => x != '"' && x != '\\') (utf8 "char") s).map CodePoint.ofChar := rfl

/-- An escape by a letter is taken where it stands. -/
theorem read_escape_append {word : String} {letter : Char} (hw : word.toList = ['\\', letter])
    (x : Char) (rest : List Char) :
    (escape word x : Parser ρ τ CodePoint).read answer ('\\' :: letter :: rest) =
      .took (CodePoint.ofChar x) rest := by
  have he : '\\' :: letter :: rest = Utf8.decode (utf8 word) ++ rest := by rw [decode_utf8, hw]; rfl
  unfold escape
  rw [read_map, he, read_literal_append]
  rfl

/-- An escape by a letter is refused where it does not stand. -/
theorem isRefused_escape {word : String} {letter : Char} (hw : word.toList = ['\\', letter])
    (x : Char) {s : List Char} (h : ¬ ['\\', letter] <+: s) :
    ((escape word x : Parser ρ τ CodePoint).read answer s).IsRefused := by
  unfold escape
  rw [read_map]
  exact (read_literal_refused (by rwa [decode_utf8, hw])).map _

/-- The escapes of the grammar, with the words that they are written by. -/
def escapeWords : List (String × Char × Char) :=
  [("\\\"", '"', '"'), ("\\\\", '\\', '\\'), ("\\/", '/', '/'), ("\\b", 'b', '\x08'),
    ("\\f", 'f', '\x0c'), ("\\n", 'n', '\n'), ("\\r", 'r', '\r'), ("\\t", 't', '\t')]

theorem toList_of_mem_escapeWords {e : String × Char × Char} (h : e ∈ escapeWords) :
    e.1.toList = ['\\', e.2.1] := by
  revert e
  decide

theorem escapes_eq : escapes = escapeWords.map Prod.snd := rfl

theorem escapedChar_eq : (escapedChar : Parser ρ τ CodePoint) =
    (choice (escapeWords.map fun e => escape e.1 e.2.2)).relabel (utf8 "escaped char") := rfl

/-- No two escapes have the same letter. -/
theorem eq_of_letter_eq {e e' : String × Char × Char} (he : e ∈ escapeWords)
    (he' : e' ∈ escapeWords) (h : e.2.1 = e'.2.1) : e = e' := by
  have key : ∀ e ∈ escapeWords, ∀ e' ∈ escapeWords, e.2.1 = e'.2.1 → e = e' := by decide
  exact key e he e' he' h

/-- The rule for escapes by letters takes each of them. -/
theorem read_escapedChar_append {letter x : Char} (h : (letter, x) ∈ escapes) (rest : List Char) :
    (escapedChar : Parser ρ τ CodePoint).read answer ('\\' :: letter :: rest) =
      .took (CodePoint.ofChar x) rest := by
  rw [escapes_eq] at h
  obtain ⟨⟨word, _, _⟩, he, rfl, rfl⟩ := List.mem_map.1 h
  have hread : (escape word x : Parser ρ τ CodePoint).read answer ('\\' :: letter :: rest) =
      .took (CodePoint.ofChar x) rest :=
    read_escape_append (toList_of_mem_escapeWords he) x rest
  rw [escapedChar_eq, read_relabel, Reading.relabel_eq_took]
  refine read_choice_of_took ⟨_, List.mem_map_of_mem he, hread⟩ fun q hq => ?_
  obtain ⟨e', he', rfl⟩ := List.mem_map.1 hq
  by_cases hl : e'.2.1 = letter
  · rw [eq_of_letter_eq he' he hl]
    exact .inl hread
  · exact .inr (isRefused_escape (toList_of_mem_escapeWords he') _ (by simp [hl]))

/-- What was taken for an escape by a letter is one. -/
theorem escapedChar_of_read {s rest : List Char} {u : CodePoint}
    (h : (escapedChar : Parser ρ τ CodePoint).read answer s = .took u rest) :
    ∃ letter x, (letter, x) ∈ escapes ∧ u = CodePoint.ofChar x ∧ s = '\\' :: letter :: rest := by
  rw [escapedChar_eq, read_relabel, Reading.relabel_eq_took] at h
  obtain ⟨p, hp, hr⟩ := exists_of_choice_eq_took h
  obtain ⟨e, he, rfl⟩ := List.mem_map.1 hp
  obtain ⟨t, ht, hu⟩ := Reading.map_eq_took.1 hr
  refine ⟨e.2.1, e.2.2, ?_, hu.symm, ?_⟩
  · rw [escapes_eq]
    exact List.mem_map.2 ⟨e, he, rfl⟩
  · rw [read_literal_eq_took ht, decode_utf8, toList_of_mem_escapeWords he]
    rfl

/-- What begins with no escape by a letter is refused as one. -/
theorem isRefused_escapedChar {s : List Char} (h : ∀ e ∈ escapeWords, ¬ ['\\', e.2.1] <+: s) :
    ((escapedChar : Parser ρ τ CodePoint).read answer s).IsRefused := by
  rw [escapedChar_eq, read_relabel]
  refine (isRefused_choice (by simp [escapeWords]) fun p hp => ?_).relabel _
  obtain ⟨e, he, rfl⟩ := List.mem_map.1 hp
  exact isRefused_escape (toList_of_mem_escapeWords he) _ (h e he)

/-- An escape by a letter has no fault. -/
theorem sane_escapedChar (s : List Char) :
    ((escapedChar : Parser ρ τ CodePoint).read answer s).Sane := by
  rw [escapedChar_eq, read_relabel]
  refine (sane_choice (by simp [escapeWords]) fun p hp => ?_).relabel _
  obtain ⟨e, -, rfl⟩ := List.mem_map.1 hp
  exact (sane_literal _ s).map _

/-! ## Escapes by number -/

/-- The characters that the grammar takes for hexadecimal digits. -/
def hexChars : List Char := "0123456789ABCDEFabcdef".toList

theorem read_hexDigit (s : List Char) :
    (hexDigit : Parser ρ τ Char).read answer s =
      readChar (fun x => hexChars.contains x)
        (utf8 "any of " ++ utf8 "0123456789ABCDEFabcdef") s := by
  have hd : Utf8.decode (utf8 "0123456789ABCDEFabcdef") = hexChars := decode_utf8 _
  unfold hexDigit
  rw [read_anyOf (by rw [hd]; exact List.cons_ne_nil _ _), hd]

/-- The value of a digit, as the reader of hexadecimal numbers has it. -/
def hexValue (x : Char) : Nat := (Hex.digit? (.ofNat x.toNat)).getD 0

theorem hexDigit_hexValue {x : Char} (h : x ∈ hexChars) : HexDigit x (hexValue x) := by
  have key : ∀ x ∈ hexChars, HexDigit x (hexValue x) :=
    forall_of_all (by decide)
  exact key x h

theorem encodeChar_of_mem_hexChars {x : Char} (h : x ∈ hexChars) :
    Utf8.encodeChar x = [.ofNat x.toNat] := by
  have key : ∀ x ∈ hexChars, Utf8.encodeChar x = [.ofNat x.toNat] :=
    forall_of_all (by decide)
  exact key x h

/-- The conversion of hexadecimal numbers takes each hexadecimal character for its digit. -/
theorem digit?_of_mem_hexChars {x : Char} (h : x ∈ hexChars) :
    Hex.digit? (.ofNat x.toNat) = some (hexValue x) := by
  have key : ∀ x ∈ hexChars, Hex.digit? (.ofNat x.toNat) = some (hexValue x) :=
    forall_of_all (by decide)
  exact key x h

theorem hexValue_lt {x : Char} (h : x ∈ hexChars) : hexValue x < 16 := by
  have key : ∀ x ∈ hexChars, hexValue x < 16 :=
    forall_of_all (by decide)
  exact key x h

/-- Hexadecimal digits of the syntax are those of the grammar, with the same values. -/
theorem mem_hexChars_of_hexDigit {x : Char} {n : Nat} (h : HexDigit x n) :
    x ∈ hexChars ∧ n = hexValue x := by
  have k0 : ∀ m < 10, Char.ofNat (48 + m) ∈ hexChars ∧ hexValue (Char.ofNat (48 + m)) = m := by
    decide
  have ka : ∀ m < 6, Char.ofNat (97 + m) ∈ hexChars ∧ hexValue (Char.ofNat (97 + m)) = 10 + m := by
    decide
  have kA : ∀ m < 6, Char.ofNat (65 + m) ∈ hexChars ∧ hexValue (Char.ofNat (65 + m)) = 10 + m := by
    decide
  have hx : Char.ofNat x.toNat = x := Char.ofNat_toNat x
  have le (a b : Char) : a ≤ b ↔ a.toNat ≤ b.toNat := Iff.rfl
  unfold HexDigit at h
  simp only [le, Char.reduceToNat] at h
  rcases h with ⟨h1, h2, hn⟩ | ⟨h1, h2, hn⟩ | ⟨h1, h2, hn⟩
  · obtain ⟨hm, hv⟩ := k0 (x.toNat - 48) (by omega)
    rw [Nat.add_sub_cancel' h1, hx] at hm hv
    exact ⟨hm, by omega⟩
  · obtain ⟨hm, hv⟩ := ka (x.toNat - 97) (by omega)
    rw [Nat.add_sub_cancel' h1, hx] at hm hv
    exact ⟨hm, by omega⟩
  · obtain ⟨hm, hv⟩ := kA (x.toNat - 65) (by omega)
    rw [Nat.add_sub_cancel' h1, hx] at hm hv
    exact ⟨hm, by omega⟩

/-- As long as it does not wrap around, a hexadecimal number grows digit by digit. -/
theorem push_natCast {v d : Nat} (h : v * 16 + d < 0x80000000) :
    Hex.push v d = (v * 16 + d : Nat) := by
  unfold Hex.push
  rw [Int.bmod_def]
  omega

/-- The number that four digits denote. -/
def fourDigits (a b c d : Char) : Nat :=
  ((hexValue a * 16 + hexValue b) * 16 + hexValue c) * 16 + hexValue d

/-- **Four digits of the grammar are a hexadecimal number.** -/
theorem read_four_hexChars {a b c d : Char} (ha : a ∈ hexChars) (hb : b ∈ hexChars)
    (hc : c ∈ hexChars) (hd : d ∈ hexChars) :
    Hex.read (Utf8.encode [a, b, c, d]) = .ok (fourDigits a b c d) := by
  have la := hexValue_lt ha
  have lb := hexValue_lt hb
  have lc := hexValue_lt hc
  have ld := hexValue_lt hd
  simp only [Utf8.encode_cons, Utf8.encode_nil, encodeChar_of_mem_hexChars ha,
    encodeChar_of_mem_hexChars hb, encodeChar_of_mem_hexChars hc, encodeChar_of_mem_hexChars hd,
    List.cons_append, List.nil_append, Hex.read, Hex.readFrom, digit?_of_mem_hexChars ha,
    digit?_of_mem_hexChars hb, digit?_of_mem_hexChars hc, digit?_of_mem_hexChars hd]
  have h0 : Hex.push 0 (hexValue a) = (hexValue a : Nat) := by
    rw [← Int.natCast_zero, push_natCast (by omega), Nat.zero_mul, Nat.zero_add]
  rw [h0, push_natCast (by omega), push_natCast (by omega), push_natCast (by omega)]
  rfl

theorem read_hexDigit_cons {x : Char} (h : x ∈ hexChars) (s : List Char) :
    (hexDigit : Parser ρ τ Char).read answer (x :: s) = .took x s := by
  rw [read_hexDigit, readChar_cons_of (by simpa using h)]

theorem hexDigit_of_read {x : Char} {s rest : List Char}
    (h : (hexDigit : Parser ρ τ Char).read answer s = .took x rest) :
    s = x :: rest ∧ x ∈ hexChars := by
  rw [read_hexDigit, readChar_eq_took] at h
  exact ⟨h.1, by simpa using h.2⟩

/-- The digits of an escape by number. -/
theorem fourHexDigits_of_read {s rest ds : List Char}
    (h : (sequence [hexDigit, hexDigit, hexDigit, hexDigit] : Parser ρ τ (List Char)).read
      answer s = .took ds rest) :
    ∃ a b c d, ds = [a, b, c, d] ∧ s = a :: b :: c :: d :: rest ∧
      a ∈ hexChars ∧ b ∈ hexChars ∧ c ∈ hexChars ∧ d ∈ hexChars := by
  simp only [read_sequence_cons, read_sequence_nil, Reading.andThen_eq_took,
    Reading.map_eq_took] at h
  obtain ⟨a, r₁, h₁, _, ⟨b, r₂, h₂, _, ⟨c, r₃, h₃, _, ⟨d, r₄, h₄, _, h₅, rfl⟩, rfl⟩, rfl⟩, rfl⟩ := h
  cases h₅
  obtain ⟨rfl, ha⟩ := hexDigit_of_read h₁
  obtain ⟨rfl, hb⟩ := hexDigit_of_read h₂
  obtain ⟨rfl, hc⟩ := hexDigit_of_read h₃
  obtain ⟨rfl, hd⟩ := hexDigit_of_read h₄
  exact ⟨a, b, c, d, rfl, rfl, ha, hb, hc, hd⟩

theorem read_numberedChar (s : List Char) :
    (numberedChar : Parser ρ τ CodePoint).read answer s =
      ((literal (utf8 "\\u") : Parser ρ τ Text).read answer s).andThen fun _ rest =>
        ((sequence [hexDigit, hexDigit, hexDigit, hexDigit] :
          Parser ρ τ (List Char)).read answer rest).andThen fun ds rest' =>
            .ofExcept rest' ((Hex.read (Utf8.encode ds)).mapError Fault.badHex) := by
  unfold numberedChar
  rw [read_right]
  congr 1
  funext t rest
  rw [read_mapOrRaise]

/-- The rule for escapes by numbers takes each of them, for the number that it spells. -/
theorem read_numberedChar_append {a b c d : Char} (ha : a ∈ hexChars) (hb : b ∈ hexChars)
    (hc : c ∈ hexChars) (hd : d ∈ hexChars) (rest : List Char) :
    (numberedChar : Parser ρ τ CodePoint).read answer ('\\' :: 'u' :: a :: b :: c :: d :: rest) =
      .took (fourDigits a b c d) rest := by
  have he : '\\' :: 'u' :: a :: b :: c :: d :: rest =
      Utf8.decode (utf8 "\\u") ++ a :: b :: c :: d :: rest := by rw [decode_utf8]; rfl
  rw [read_numberedChar, he, read_literal_append]
  simp only [Reading.andThen_took, read_sequence_cons, read_sequence_nil, read_hexDigit_cons ha,
    read_hexDigit_cons hb, read_hexDigit_cons hc, read_hexDigit_cons hd, Reading.map_took,
    read_four_hexChars ha hb hc hd]
  rfl

/-- What was taken for an escape by a number is one. -/
theorem numberedChar_of_read {s rest : List Char} {u : CodePoint}
    (h : (numberedChar : Parser ρ τ CodePoint).read answer s = .took u rest) :
    ∃ a b c d, a ∈ hexChars ∧ b ∈ hexChars ∧ c ∈ hexChars ∧ d ∈ hexChars ∧
      u = fourDigits a b c d ∧ s = '\\' :: 'u' :: a :: b :: c :: d :: rest := by
  rw [read_numberedChar, Reading.andThen_eq_took] at h
  obtain ⟨t, r, ht, h⟩ := h
  obtain ⟨ds, r', hds, h⟩ := Reading.andThen_eq_took.1 h
  obtain ⟨a, b, c, d, rfl, hr, ha, hb, hc, hd⟩ := fourHexDigits_of_read hds
  rw [read_four_hexChars ha hb hc hd] at h
  cases h
  refine ⟨a, b, c, d, ha, hb, hc, hd, rfl, ?_⟩
  rw [read_literal_eq_took ht, decode_utf8, hr]
  rfl

/-- The reader of hexadecimal numbers never objects to the digits of the grammar. -/
theorem sane_numberedChar (s : List Char) :
    ((numberedChar : Parser ρ τ CodePoint).read answer s).Sane := by
  rw [read_numberedChar]
  refine (sane_literal _ s).andThen fun t r _ => ?_
  refine Reading.Sane.andThen (sane_sequence (fun p hp r => ?_) r) fun ds r' hds => ?_
  · have : p = hexDigit := by simpa using hp
    rw [this, read_hexDigit]
    exact sane_readChar _ _ r
  · obtain ⟨a, b, c, d, rfl, -, ha, hb, hc, hd⟩ := fourHexDigits_of_read hds
    rw [read_four_hexChars ha hb hc hd]
    trivial

/-! ## One character of a string -/

/-- A character is tried as it is, then as a letter after a backslash, then as a number. -/
theorem read_stringChar (s : List Char) :
    (stringChar : Parser ρ τ CodePoint).read answer s =
      ((plainChar : Parser ρ τ CodePoint).read answer s).orElse fun _ =>
        ((escapedChar : Parser ρ τ CodePoint).read answer s).orElse fun _ =>
          (numberedChar : Parser ρ τ CodePoint).read answer s := by
  unfold stringChar
  rw [read_choice_cons, read_choice_cons, read_choice_singleton]

theorem isRefused_plainChar_backslash (s : List Char) :
    ((plainChar : Parser ρ τ CodePoint).read answer ('\\' :: s)).IsRefused := by
  rw [read_plainChar, readChar_cons_of_not (by decide)]
  exact Reading.isRefused_refused _ _

/-- **What the syntax has as a character of a string is taken as one.** -/
theorem read_stringChar_append {w : List Char} {u : CodePoint} (h : StringChar w u)
    (rest : List Char) :
    (stringChar : Parser ρ τ CodePoint).read answer (w ++ rest) = .took u rest := by
  rw [read_stringChar]
  cases h with
  | plain h1 h2 =>
    rw [List.singleton_append, read_plainChar, readChar_cons_of (by simp [h1, h2])]
    rfl
  | escape h =>
    rw [List.cons_append, List.singleton_append, (isRefused_plainChar_backslash _).orElse_eq,
      read_escapedChar_append h]
    rfl
  | number ha hb hc hd =>
    obtain ⟨ma, rfl⟩ := mem_hexChars_of_hexDigit ha
    obtain ⟨mb, rfl⟩ := mem_hexChars_of_hexDigit hb
    obtain ⟨mc, rfl⟩ := mem_hexChars_of_hexDigit hc
    obtain ⟨md, rfl⟩ := mem_hexChars_of_hexDigit hd
    -- no escape by a letter has the letter `u`, so the choice goes on to the numbers
    have hu : ∀ e ∈ escapeWords, e.2.1 ≠ 'u' := by decide
    simp only [List.cons_append, List.nil_append]
    rw [(isRefused_plainChar_backslash _).orElse_eq,
      (isRefused_escapedChar fun e he => by simp [hu e he]).orElse_eq,
      read_numberedChar_append ma mb mc md]
    rfl

/-- **What is taken as a character of a string is one in the syntax.** -/
theorem stringChar_of_read {s rest : List Char} {u : CodePoint}
    (h : (stringChar : Parser ρ τ CodePoint).read answer s = .took u rest) :
    ∃ w, StringChar w u ∧ s = w ++ rest := by
  -- why the alternatives before it failed does not matter here
  rw [read_stringChar, Reading.orElse_eq_took, Reading.orElse_eq_took] at h
  rcases h with h | ⟨-, h | ⟨-, h⟩⟩
  · rw [read_plainChar, Reading.map_eq_took] at h
    obtain ⟨x, hx, rfl⟩ := h
    obtain ⟨rfl, hp⟩ := readChar_eq_took.1 hx
    simp only [Bool.and_eq_true, bne_iff_ne] at hp
    exact ⟨[x], .plain hp.1 hp.2, rfl⟩
  · obtain ⟨letter, x, he, rfl, rfl⟩ := escapedChar_of_read h
    exact ⟨_, .escape he, rfl⟩
  · obtain ⟨a, b, c, d, ha, hb, hc, hd, rfl, rfl⟩ := numberedChar_of_read h
    exact ⟨_, .number (hexDigit_hexValue ha) (hexDigit_hexValue hb) (hexDigit_hexValue hc)
      (hexDigit_hexValue hd), rfl⟩

/-- A character of a string is written with something. -/
theorem ne_nil_of_stringChar {w : List Char} {u : CodePoint} (h : StringChar w u) : w ≠ [] := by
  cases h <;> exact List.cons_ne_nil _ _

/-- Code points of a string are characters or halves of surrogate pairs. -/
theorem isUnit_of_stringChar {w : List Char} {u : CodePoint} (h : StringChar w u) : u.IsUnit := by
  cases h with
  | plain _ _ => exact .inl ⟨_, rfl⟩
  | escape _ => exact .inl ⟨_, rfl⟩
  | number ha hb hc hd =>
    obtain ⟨ma, rfl⟩ := mem_hexChars_of_hexDigit ha
    obtain ⟨mb, rfl⟩ := mem_hexChars_of_hexDigit hb
    obtain ⟨mc, rfl⟩ := mem_hexChars_of_hexDigit hc
    obtain ⟨md, rfl⟩ := mem_hexChars_of_hexDigit hd
    have la := hexValue_lt ma
    have lb := hexValue_lt mb
    have lc := hexValue_lt mc
    have ld := hexValue_lt md
    exact CodePoint.isUnit_natCast (by omega)

/-- A character that was taken moves on. -/
theorem ne_of_stringChar {s rest : List Char} {u : CodePoint}
    (h : (stringChar : Parser ρ τ CodePoint).read answer s = .took u rest) : rest ≠ s := by
  obtain ⟨w, hw, rfl⟩ := stringChar_of_read h
  intro he
  exact ne_nil_of_stringChar hw (List.self_eq_append_left.1 he)

/-- A quote is no character of a string. -/
theorem isRefused_stringChar_quote (s : List Char) :
    ((stringChar : Parser ρ τ CodePoint).read answer ('"' :: s)).IsRefused := by
  have h1 : ((plainChar : Parser ρ τ CodePoint).read answer ('"' :: s)).IsRefused := by
    rw [read_plainChar, readChar_cons_of_not (by decide)]
    exact Reading.isRefused_refused _ _
  rw [read_stringChar, h1.orElse_eq, (isRefused_escapedChar fun e he => by simp).orElse_eq,
    read_numberedChar]
  exact (read_literal_refused (by rw [decode_utf8]; simp)).andThen _

theorem sane_stringChar (s : List Char) :
    ((stringChar : Parser ρ τ CodePoint).read answer s).Sane := by
  rw [read_stringChar, read_plainChar]
  exact ((sane_readChar _ _ s).map _).orElse ((sane_escapedChar s).orElse (sane_numberedChar s))

/-! ## Whole strings -/

/-- The characters of a string are taken up to the quote behind them. -/
theorem read_stringBody_append (ha : answer.Within) {b : List Char} {us : List CodePoint}
    (h : StringBody b us) (rest : List Char) :
    (stringChar : Parser ρ τ CodePoint).many.read answer (b ++ '"' :: rest) =
      .took us ('"' :: rest) := by
  induction h with
  | nil => exact read_many_of_refused ha (isRefused_stringChar_quote rest)
  | @cons w b u us hw _ ih =>
    have hr : (stringChar : Parser ρ τ CodePoint).read answer (w ++ (b ++ '"' :: rest)) =
        .took u (b ++ '"' :: rest) := read_stringChar_append hw _
    rw [List.append_assoc, read_many_of_took ha hr (ne_of_stringChar hr), ih]
    rfl

/-- Characters that were taken one after the other are the body of a string. -/
theorem stringBody_of_rounds {s rest : List Char} {us : List CodePoint}
    (h : Rounds answer (stringChar : Parser ρ τ CodePoint) s us rest) :
    ∃ b, StringBody b us ∧ s = b ++ rest := by
  induction h with
  | nil s => exact ⟨[], .nil, rfl⟩
  | cons hr _ _ ih =>
    obtain ⟨w, hw, rfl⟩ := stringChar_of_read hr
    obtain ⟨b, hb, rfl⟩ := ih
    exact ⟨w ++ b, .cons hw hb, by rw [List.append_assoc]⟩

/-- The body of a string stands for units of UTF-16 and scalars. -/
theorem isUnit_of_stringBody {b : List Char} {us : List CodePoint} (h : StringBody b us) :
    ∀ u ∈ us, u.IsUnit := by
  induction h with
  | nil => intro u hu; cases hu
  | cons hw _ ih =>
    intro u hu
    rcases List.mem_cons.1 hu with rfl | hu
    · exact isUnit_of_stringChar hw
    · exact ih u hu

theorem read_quoteMark (s : List Char) :
    (quoteMark : Parser ρ τ Char).read answer s =
      (readChar (· == '"') (Utf8.encodeChar '"') s).relabel (utf8 "quote") := rfl

theorem read_quoteMark_cons (s : List Char) :
    (quoteMark : Parser ρ τ Char).read answer ('"' :: s) = .took '"' s := by
  rw [read_quoteMark, readChar_cons_of (by decide)]
  rfl

theorem sane_quoteMark (s : List Char) :
    ((quoteMark : Parser ρ τ Char).read answer s).Sane :=
  (sane_readChar _ _ s).relabel _

theorem quoteMark_of_read {s rest : List Char} {x : Char}
    (h : (quoteMark : Parser ρ τ Char).read answer s = .took x rest) : s = '"' :: rest := by
  rw [read_quoteMark, Reading.relabel_eq_took, readChar_eq_took] at h
  rw [h.1, eq_of_beq h.2]

theorem read_quotedString (s : List Char) :
    (quotedString : Parser ρ τ Text).read answer s =
      (((quoteMark : Parser ρ τ Char).read answer s).andThen fun _ rest =>
        ((stringChar : Parser ρ τ CodePoint).many.read answer rest).andThen fun us rest' =>
          ((quoteMark : Parser ρ τ Char).read answer rest').map fun _ => us).map
        fun us => Utf8.encode (CodePoint.join us) := by
  unfold quotedString
  rw [read_map, read_between]

/-- **A string is taken up to its closing quote.** -/
theorem read_quotedString_append (ha : answer.Within) {w : List Char} {t : Text} (h : Quoted w t)
    (rest : List Char) :
    (quotedString : Parser ρ τ Text).read answer (w ++ rest) = .took t rest := by
  obtain ⟨hb, hs⟩ := h
  rw [read_quotedString, List.append_assoc, List.cons_append, List.singleton_append,
    read_quoteMark_cons, Reading.andThen_took, read_stringBody_append ha hb, Reading.andThen_took,
    read_quoteMark_cons]
  simp only [Reading.map_took, hs.join_eq]

/-- **What is taken as a string is one in the syntax.** -/
theorem quoted_of_read (ha : answer.Within) {s rest : List Char} {t : Text}
    (h : (quotedString : Parser ρ τ Text).read answer s = .took t rest) :
    ∃ w, Quoted w t ∧ s = w ++ rest := by
  rw [read_quotedString, Reading.map_eq_took] at h
  obtain ⟨us, h, rfl⟩ := h
  obtain ⟨_, r₁, h₁, h⟩ := Reading.andThen_eq_took.1 h
  obtain ⟨us', r₂, h₂, h⟩ := Reading.andThen_eq_took.1 h
  obtain ⟨_, h₃, rfl⟩ := Reading.map_eq_took.1 h
  obtain ⟨b, hb, rfl⟩ := stringBody_of_rounds (rounds_of_many ha h₂).1
  refine ⟨'"' :: b ++ ['"'], .intro hb (CodePoint.standFor_join (isUnit_of_stringBody hb)), ?_⟩
  rw [quoteMark_of_read h₁, quoteMark_of_read h₃]
  simp

/-- A string is refused where there is no quote. -/
theorem isRefused_quotedString {s : List Char} (h : s.head? ≠ some '"') :
    ((quotedString : Parser ρ τ Text).read answer s).IsRefused := by
  have hq : ((quoteMark : Parser ρ τ Char).read answer s).IsRefused := by
    cases s with
    | nil => exact Reading.isRefused_refused _ _
    | cons x s =>
      rw [read_quoteMark, readChar_cons_of_not (by simpa using h)]
      exact Reading.isRefused_refused _ _
  rw [read_quotedString]
  exact (hq.andThen _).map _

theorem sane_quotedString (ha : answer.Within) (s : List Char) :
    ((quotedString : Parser ρ τ Text).read answer s).Sane := by
  rw [read_quotedString]
  refine ((sane_quoteMark s).andThen fun _ r _ => ?_).map _
  refine (sane_many ha (fun r' _ => sane_stringChar r') fun _ _ _ _ => ne_of_stringChar).andThen
    fun _ r' _ => (sane_quoteMark r').map _

end Json.Grammar

end Descent
