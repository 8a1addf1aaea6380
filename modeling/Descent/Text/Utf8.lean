/-!
# UTF-8 text with stray bytes

Source text, labels, messages and JSON strings are byte sequences, and nothing
promises that they are well-formed UTF-8. A text therefore splits into
**pieces**: a piece is an encoded character or a single **stray** byte, one at
which no encoded character begins. Decoding puts U+FFFD in place of every stray.

* `charAt?_eq_some_iff`: the character at the head of a text is the one whose
  encoding the text starts with.
* `pieces_encodeChar_append`, `pieces_stray`: the two ways in which pieces arise.
* `decode_encode_append`: encoded characters decode to themselves, whatever
  follows them.
-/

namespace Descent

/-- **A text is a sequence of bytes**, UTF-8 as a rule but not always. -/
abbrev Text := List UInt8

/-- The replacement character, U+FFFD: it stands for whatever is no character. -/
def replacement : Char := '\uFFFD'

namespace Utf8

/-- The one to four bytes of a character. -/
def encodeChar (c : Char) : Text :=
  let n := c.toNat
  if n < 0x80 then [.ofNat n]
  else if n < 0x800 then [.ofNat (0xC0 + n / 0x40), .ofNat (0x80 + n % 0x40)]
  else if n < 0x10000 then
    [.ofNat (0xE0 + n / 0x1000), .ofNat (0x80 + n / 0x40 % 0x40), .ofNat (0x80 + n % 0x40)]
  else
    [.ofNat (0xF0 + n / 0x40000), .ofNat (0x80 + n / 0x1000 % 0x40),
      .ofNat (0x80 + n / 0x40 % 0x40), .ofNat (0x80 + n % 0x40)]

/-- The bytes of a sequence of characters. -/
def encode (cs : List Char) : Text := cs.flatMap encodeChar

/-- The only character whose encoding a text can start with. The first byte tells how
many bytes to read, and each further byte brings six bits. -/
def candidate (t : Text) : Char :=
  let lead := (t[0]?.getD 0).toNat
  let low (i : Nat) : Nat := (t[i]?.getD 0).toNat % 0x40
  Char.ofNat <|
    if lead < 0x80 then lead
    else if lead < 0xE0 then lead % 0x20 * 0x40 + low 1
    else if lead < 0xF0 then lead % 0x10 * 0x1000 + low 1 * 0x40 + low 2
    else lead % 0x08 * 0x40000 + low 1 * 0x1000 + low 2 * 0x40 + low 3

/-- The character encoded at the head of a text. Encoding the candidate again rules out
truncated and overlong forms, surrogates, and numbers above U+10FFFF. -/
def charAt? (t : Text) : Option Char :=
  if (encodeChar (candidate t)).isPrefixOf t then some (candidate t) else none

/-- A piece of a text: an encoded character, or a byte at which none begins. -/
inductive Piece where
  | char (c : Char)
  | stray (b : UInt8)
  deriving DecidableEq, Repr

/-- The character that a piece is read as. -/
def Piece.toChar : Piece → Char
  | .char c => c
  | .stray _ => replacement

/-- Whether a piece is an encoded character. -/
def Piece.isChar : Piece → Bool
  | .char _ => true
  | .stray _ => false

/-- The pieces of a text after its first `skip` bytes. -/
def piecesAfter : Nat → Text → List Piece
  | _, [] => []
  | skip + 1, _ :: t => piecesAfter skip t
  | 0, b :: t =>
    match charAt? (b :: t) with
    | some c => .char c :: piecesAfter ((encodeChar c).length - 1) t
    | none => .stray b :: piecesAfter 0 t

/-- **The pieces of a text**, from left to right. -/
def pieces (t : Text) : List Piece := piecesAfter 0 t

/-- The characters of a text, U+FFFD for every stray byte. -/
def decode (t : Text) : List Char := (pieces t).map Piece.toChar

/-- Whether a text is well-formed UTF-8: it has no stray byte. -/
def isValid (t : Text) : Bool := (pieces t).all Piece.isChar

theorem encodeChar_ne_nil (c : Char) : encodeChar c ≠ [] := by
  simp only [encodeChar]
  repeat' split
  all_goals simp

@[simp]
theorem encode_nil : encode [] = [] := rfl

@[simp]
theorem encode_cons (c : Char) (cs : List Char) : encode (c :: cs) = encodeChar c ++ encode cs := by
  simp [encode]

@[simp]
theorem encode_append (cs ds : List Char) : encode (cs ++ ds) = encode cs ++ encode ds := by
  simp [encode]

theorem toNat_lt (c : Char) : c.toNat < 0x110000 := by
  have hv := c.valid
  simp only [UInt32.isValidChar, Nat.isValidChar] at hv
  change c.val.toNat < _
  omega

/-- A character is the candidate of every text that starts with its encoding. -/
theorem candidate_encodeChar_append (c : Char) (t : Text) :
    candidate (encodeChar c ++ t) = c := by
  have hv := toNat_lt c
  have hc : Char.ofNat c.toNat = c := Char.ofNat_toNat c
  generalize hn : c.toNat = n at hv hc
  simp only [encodeChar, hn]
  -- one case for each number of bytes: the lead byte tells it, and the low bits add up to the
  -- number
  split
  · rename_i h
    have h1 : n % 256 = n := by omega
    simp [candidate, h1, h, hc]
  · split
    · rename_i h1 h2
      have e0 : (0xC0 + n / 0x40) % 256 = 0xC0 + n / 0x40 := by omega
      have e1 : (0x80 + n % 0x40) % 256 = 0x80 + n % 0x40 := by omega
      have l1 : ¬ 0xC0 + n / 0x40 < 0x80 := by omega
      have l2 : 0xC0 + n / 0x40 < 0xE0 := by omega
      have e : (0xC0 + n / 0x40) % 0x20 * 0x40 + (0x80 + n % 0x40) % 0x40 = n := by omega
      simp only [candidate, List.cons_append, List.nil_append, List.getElem?_cons_zero,
        List.getElem?_cons_succ, Option.getD_some, UInt8.toNat_ofNat', Nat.reducePow, e0, e1, l1,
        l2, if_false, if_true, e, hc]
    · split
      · rename_i h1 h2 h3
        have e0 : (0xE0 + n / 0x1000) % 256 = 0xE0 + n / 0x1000 := by omega
        have e1 : (0x80 + n / 0x40 % 0x40) % 256 = 0x80 + n / 0x40 % 0x40 := by omega
        have e2 : (0x80 + n % 0x40) % 256 = 0x80 + n % 0x40 := by omega
        have l1 : ¬ 0xE0 + n / 0x1000 < 0x80 := by omega
        have l2 : ¬ 0xE0 + n / 0x1000 < 0xE0 := by omega
        have l3 : 0xE0 + n / 0x1000 < 0xF0 := by omega
        have e : (0xE0 + n / 0x1000) % 0x10 * 0x1000 + (0x80 + n / 0x40 % 0x40) % 0x40 * 0x40 +
            (0x80 + n % 0x40) % 0x40 = n := by omega
        simp only [candidate, List.cons_append, List.nil_append, List.getElem?_cons_zero,
          List.getElem?_cons_succ, Option.getD_some, UInt8.toNat_ofNat', Nat.reducePow, e0, e1, e2,
          l1, l2, l3, if_false, if_true, e, hc]
      · rename_i h1 h2 h3
        have e0 : (0xF0 + n / 0x40000) % 256 = 0xF0 + n / 0x40000 := by omega
        have e1 : (0x80 + n / 0x1000 % 0x40) % 256 = 0x80 + n / 0x1000 % 0x40 := by omega
        have e2 : (0x80 + n / 0x40 % 0x40) % 256 = 0x80 + n / 0x40 % 0x40 := by omega
        have e3 : (0x80 + n % 0x40) % 256 = 0x80 + n % 0x40 := by omega
        have l1 : ¬ 0xF0 + n / 0x40000 < 0x80 := by omega
        have l2 : ¬ 0xF0 + n / 0x40000 < 0xE0 := by omega
        have l3 : ¬ 0xF0 + n / 0x40000 < 0xF0 := by omega
        have e : (0xF0 + n / 0x40000) % 0x08 * 0x40000 +
            (0x80 + n / 0x1000 % 0x40) % 0x40 * 0x1000 +
            (0x80 + n / 0x40 % 0x40) % 0x40 * 0x40 + (0x80 + n % 0x40) % 0x40 = n := by omega
        simp only [candidate, List.cons_append, List.nil_append, List.getElem?_cons_zero,
          List.getElem?_cons_succ, Option.getD_some, UInt8.toNat_ofNat', Nat.reducePow, e0, e1, e2,
          e3, l1, l2, l3, if_false, e, hc]

/-- **The character at the head of a text** is the one whose encoding it starts with. -/
theorem charAt?_eq_some_iff {t : Text} {c : Char} : charAt? t = some c ↔ encodeChar c <+: t := by
  constructor
  · intro h
    simp only [charAt?] at h
    split at h
    · rename_i hp
      obtain rfl := Option.some.inj h
      simpa using hp
    · cases h
  · rintro ⟨r, rfl⟩
    simp only [charAt?, candidate_encodeChar_append]
    simp

@[simp]
theorem charAt?_encodeChar_append (c : Char) (t : Text) :
    charAt? (encodeChar c ++ t) = some c :=
  charAt?_eq_some_iff.mpr (List.prefix_append _ _)

theorem piecesAfter_eq (k : Nat) (t : Text) : piecesAfter k t = pieces (t.drop k) := by
  induction k generalizing t with
  | zero => rfl
  | succ k ih =>
    cases t with
    | nil => simp [piecesAfter, pieces]
    | cons b t => simp [piecesAfter, ih]

@[simp]
theorem pieces_nil : pieces [] = [] := rfl

/-- An encoded character is one piece. -/
@[simp]
theorem pieces_encodeChar_append (c : Char) (t : Text) :
    pieces (encodeChar c ++ t) = .char c :: pieces t := by
  obtain ⟨b, r, hb⟩ := List.exists_cons_of_ne_nil (encodeChar_ne_nil c)
  have hc := charAt?_encodeChar_append c t
  rw [hb, List.cons_append] at hc
  rw [hb, List.cons_append, pieces, piecesAfter, hc]
  simp [piecesAfter_eq, hb]

/-- A byte at which no encoded character begins is one piece. -/
theorem pieces_stray {b : UInt8} {t : Text} (h : charAt? (b :: t) = none) :
    pieces (b :: t) = .stray b :: pieces t := by
  rw [pieces, piecesAfter, h]
  rfl

@[simp]
theorem decode_nil : decode [] = [] := rfl

/-- An encoded character is decoded, whatever follows. -/
@[simp]
theorem decode_encodeChar_append (c : Char) (t : Text) :
    decode (encodeChar c ++ t) = c :: decode t := by
  simp [decode, Piece.toChar]

/-- **Encoded characters decode to themselves**, whatever follows. -/
theorem decode_encode_append (cs : List Char) (t : Text) :
    decode (encode cs ++ t) = cs ++ decode t := by
  induction cs with
  | nil => simp
  | cons c cs ih => simp [List.append_assoc, ih]

/-- Encoded characters are decoded again. -/
@[simp]
theorem decode_encode (cs : List Char) : decode (encode cs) = cs := by
  simpa using decode_encode_append cs []

end Utf8

/-- The bytes of a string. -/
def utf8 (s : String) : Text := Utf8.encode s.toList

end Descent
