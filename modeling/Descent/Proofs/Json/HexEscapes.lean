import Descent.Json.Parse
import Descent.Proofs.Json.Quote
import Descent.Proofs.Json.Strings
import Descent.Proofs.Parser.Choices
import Descent.Proofs.Text.Hex

/-!
# Hexadecimal numbers in strings

Escapes by number bring together three parts that each know the hexadecimal
digits: the grammar takes them, `Hex.answer` reads them, and quoting writes them.
The grammar takes exactly the digits that can be read, four of them always make a
number below `2 ^ 16`, and what quoting writes for a control character is read
back.

* `run_hexDigit_eq_success`: what the grammar takes for a digit.
* `answer_of_hexChars`: digits of the grammar are read without loss.
* `quoteChar_control`: the escape of a control character.
* `hex_exact`: all about reading hexadecimal numbers.
-/

namespace Descent.Json

open Hex Descent.Parser Grammar

variable {ρ : Type} {τ : ρ → Type} {level : Level} {call : Call ρ τ}

/-! ## Digits of the grammar -/

/-- Only a character below U+0080 has a single byte, its own number. -/
theorem ascii_of_encodeChar {x : Char} {b : UInt8} (h : Utf8.encodeChar x = [b]) :
    x.toNat < 0x80 ∧ b = .ofNat x.toNat := by
  by_cases hx : x.toNat < 0x80
  · rw [Utf8.encodeChar_of_ascii hx] at h
    exact ⟨hx, (List.cons.inj h).1.symm⟩
  · unfold Utf8.encodeChar at h
    rw [if_neg hx] at h
    split at h
    · cases h
    split at h
    · cases h
    · cases h

/-- The characters that the grammar takes for digits are those with a digit for their only byte. -/
theorem mem_hexChars_iff {x : Char} :
    x ∈ hexChars ↔ ∃ b, Utf8.encodeChar x = [b] ∧ IsDigit b := by
  constructor
  · intro h
    exact ⟨_, encodeChar_of_mem_hexChars h, _, digit?_eq_some_iff.1 (digit?_of_mem_hexChars h)⟩
  · rintro ⟨b, hx, d, hb⟩
    obtain ⟨hascii, rfl⟩ := ascii_of_encodeChar hx
    have key : ∀ n < 0x80, (digit? (.ofNat n)).isSome = true → Char.ofNat n ∈ hexChars := by
      decide +kernel
    rw [← Char.ofNat_toNat x]
    exact key x.toNat hascii (Option.isSome_of_eq_some (digit?_eq_some_iff.2 hb))

/-- A test takes the next character, if it accepts it. -/
theorem takeChar_eq_success {accepts : Char → Bool} {label : Text} {c rest : Cursor} {x : Char} :
    takeChar accepts label c = .success x rest ↔ c.next = some (x, rest) ∧ accepts x = true := by
  unfold takeChar
  cases c.next with
  | none => exact iff_of_false (fun h => nomatch h) (fun h => nomatch h.1)
  | some n =>
    obtain ⟨y, d⟩ := n
    dsimp only
    by_cases hy : accepts y = true
    · rw [if_pos hy, Outcome.success.injEq, Option.some.injEq, Prod.mk.injEq]
      exact ⟨fun h => ⟨h, h.1 ▸ hy⟩, And.left⟩
    · rw [if_neg hy]
      refine iff_of_false (fun h => nomatch h) fun h => hy ?_
      rw [(Prod.mk.inj (Option.some.inj h.1)).1]
      exact h.2

/-- **What the grammar takes for a digit.** -/
theorem run_hexDigit_eq_success {c rest : Cursor} {x : Char} :
    ((hexDigit : Parser ρ τ Char).run level call c).outcome = .success x rest ↔
      c.next = some (x, rest) ∧ x ∈ hexChars := by
  have hchars : Utf8.decode (utf8 "0123456789ABCDEFabcdef") = hexChars := decode_utf8 _
  have hrun : (hexDigit : Parser ρ τ Char).run level call c = _ := run_anyOf (by decide) c
  rw [hchars] at hrun
  rw [hrun]
  show takeChar (fun x => hexChars.contains x) _ c = _ ↔ _
  rw [takeChar_eq_success, List.contains_iff_mem]

/-- Several digits in a row. -/
theorem hexChars_of_run_sequence {k : Nat} {c rest : Cursor} {ds : List Char}
    (h : ((sequence (List.replicate k hexDigit) :
      Parser ρ τ (List Char)).run level call c).outcome = .success ds rest) :
    ds.length = k ∧ ∀ x ∈ ds, x ∈ hexChars := by
  induction k generalizing c ds with
  | zero =>
    cases h
    exact ⟨rfl, fun x hx => nomatch hx⟩
  | succ k ih =>
    rw [List.replicate_succ, run_sequence_cons, Run.outcome_andThen_eq_success] at h
    obtain ⟨x, d, hx, hrest⟩ := h
    obtain ⟨es, hes, rfl⟩ := Outcome.map_eq_success.1 hrest
    obtain ⟨hlen, hmem⟩ := ih hes
    have hdigit : x ∈ hexChars := (run_hexDigit_eq_success.1 hx).2
    exact ⟨congrArg Nat.succ hlen, List.forall_mem_cons.2 ⟨hdigit, hmem⟩⟩

theorem encode_hexChars {ds : List Char} (h : ∀ x ∈ ds, x ∈ hexChars) :
    Utf8.encode ds = ds.map fun x => .ofNat x.toNat := by
  induction ds with
  | nil => rfl
  | cons x ds ih =>
    obtain ⟨hx, hds⟩ := List.forall_mem_cons.1 h
    rw [Utf8.encode_cons, encodeChar_of_mem_hexChars hx, ih hds]
    rfl

/-- The bytes of digits of the grammar are digits that can be read. -/
theorem isDigit_of_mem_encode {ds : List Char} (h : ∀ x ∈ ds, x ∈ hexChars) :
    ∀ b ∈ Utf8.encode ds, IsDigit b := by
  rw [encode_hexChars h]
  intro b hb
  obtain ⟨x, hx, rfl⟩ := List.mem_map.1 hb
  exact ⟨_, digit?_eq_some_iff.1 (digit?_of_mem_hexChars (h x hx))⟩

/-- **Digits of the grammar are read without loss**, up to seven of them. -/
theorem answer_of_hexChars {ds : List Char} (h : ∀ x ∈ ds, x ∈ hexChars) (hne : ds ≠ [])
    (hlen : ds.length ≤ 7) :
    ∃ n, n < 16 ^ ds.length ∧ Spells (Utf8.encode ds) n ∧
      answer (Utf8.encode ds) = ((n : Int), none) := by
  have hlength : (Utf8.encode ds).length = ds.length := by rw [encode_hexChars h, List.length_map]
  have hne' : Utf8.encode ds ≠ [] := by
    rw [← List.length_pos_iff, hlength, List.length_pos_iff]
    exact hne
  obtain ⟨n, hn⟩ := exists_spells (isDigit_of_mem_encode h)
  refine ⟨n, ?_, hn, answer_of_length_le hne' (hlength ▸ hlen) hn⟩
  rw [← hlength]
  exact hn.lt

/-! ## Digits of quoting -/

/-- **The escape of a control character** names it by two digits after two zeros, and these four
are read back. -/
theorem quoteChar_control {c : Char} (hc : c.toNat < 0x20) (hletter : controlLetter? c = none) :
    ∃ x y, quoteChar c = ['\\', 'u', '0', '0', x, y] ∧
      answer (Utf8.encode ['0', '0', x, y]) = ((c.toNat : Int), none) := by
  have hslash : c ≠ '\\' := by
    rintro rfl
    exact absurd hc (by decide)
  have hmark : c ≠ '"' := by
    rintro rfl
    exact absurd hc (by decide)
  have hplain : (c == '\\' || c == '"') = false := by simp [hslash, hmark]
  have hquote : quoteChar c = numberEscape c := by
    unfold quoteChar
    rw [hplain, if_neg Bool.false_ne_true, if_pos hc, hletter]
  have hzero : c.toNat / 16 / 16 = 0 := by omega
  have hdigits : hexDigits 4 c.toNat =
      ['0', '0', Nat.digitChar (c.toNat / 16 % 16), Nat.digitChar (c.toNat % 16)] := by
    rw [hexDigits_four, hzero]
    rfl
  refine ⟨Nat.digitChar (c.toNat / 16 % 16), Nat.digitChar (c.toNat % 16), ?_, ?_⟩
  · rw [hquote, numberEscape, hdigits]
  · rw [← hdigits]
    exact answer_hexDigits (by decide) (by omega) (by omega)

/-! ## All together -/

/-- **Hexadecimal numbers are read exactly**, and errors say what is wrong. The grammar takes for
digits what can be read, any four of its digits make the number below `2 ^ 16` that they spell, and
what quoting writes for a control character without a letter is read back. -/
theorem hex_exact (t : Text) (level : Level) (call : Call ρ τ) (c rest : Cursor) :
    Answered t ∧ Function.Injective ReadError.message ∧
      (∀ x, ((hexDigit : Parser ρ τ Char).run level call c).outcome = .success x rest ↔
        c.next = some (x, rest) ∧ ∃ b, Utf8.encodeChar x = [b] ∧ IsDigit b) ∧
      (∀ ds, ((sequence [hexDigit, hexDigit, hexDigit, hexDigit] :
          Parser ρ τ (List Char)).run level call c).outcome = .success ds rest →
        ∃ n, n ≤ 0xFFFF ∧ Spells (Utf8.encode ds) n ∧
          answer (Utf8.encode ds) = ((n : Int), none)) ∧
      ∀ x : Char, x.toNat < 0x20 → controlLetter? x = none →
        ∃ i j, quoteChar x = ['\\', 'u', '0', '0', i, j] ∧
          answer (Utf8.encode ['0', '0', i, j]) = ((x.toNat : Int), none) := by
  refine ⟨answered t, message_injective, fun x => ?_, fun ds h => ?_, fun x hx hletter => ?_⟩
  · rw [run_hexDigit_eq_success, mem_hexChars_iff]
  · obtain ⟨hlen, hmem⟩ := hexChars_of_run_sequence (k := 4) h
    have hne : ds ≠ [] := List.ne_nil_of_length_pos (by omega)
    obtain ⟨n, hlt, hn, hanswer⟩ := answer_of_hexChars hmem hne (by omega)
    rw [hlen] at hlt
    exact ⟨n, by omega, hn, hanswer⟩
  · exact quoteChar_control hx hletter

/-- Four digits of both cases that name half of a surrogate pair. -/
theorem hex_exact_surrogate :
    ((sequence [hexDigit, hexDigit, hexDigit, hexDigit]).run .info (rules.call .info 0)
        (.ofText (utf8 "d83D"))).outcome =
      .success ['d', '8', '3', 'D'] ((Cursor.ofText (utf8 "d83D")).skip 4) ∧
    (∃ n, n ≤ 0xFFFF ∧ Spells (utf8 "d83D") n ∧ answer (utf8 "d83D") = ((n : Int), none)) ∧
    answer (List.replicate 5 0x30 ++ utf8 "d83D") = answer (utf8 "d83D") := by
  have hrun : ((sequence [hexDigit, hexDigit, hexDigit, hexDigit]).run .info (rules.call .info 0)
      (.ofText (utf8 "d83D"))).outcome =
        .success ['d', '8', '3', 'D'] ((Cursor.ofText (utf8 "d83D")).skip 4) := by
    decide +kernel
  obtain ⟨hread, -, -, hfour, -⟩ := hex_exact (utf8 "d83D") .info (rules.call .info 0)
    (.ofText (utf8 "d83D")) ((Cursor.ofText (utf8 "d83D")).skip 4)
  exact ⟨hrun, hfour _ hrun, hread.zeros (by decide) 5⟩

end Descent.Json
