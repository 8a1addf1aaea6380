import Descent.Json.Parse

/-!
# Relaxed JSON documents

A relaxed document may have comments wherever it may have white space, and one
comma after the last element or member. **Standardizing** it writes spaces over
these, byte for byte, so that every other byte keeps its line and its column.
It is a reading of the whole document by rules of its own, stricter than the
grammar about strings, and it gives up on a text that is no relaxed document.
-/

namespace Descent.Json.Relaxed

/-- An ASCII character as a byte. -/
def byte (x : Char) : UInt8 := .ofNat x.toNat

/-- **A reader** takes a beginning of a text and gives what to write in its place, and the
rest of the text. -/
abbrev Reader := Text → Option (Text × Text)

namespace Reader

/-- Takes the given byte and keeps it. -/
def keep (b : UInt8) : Reader
  | [] => none
  | a :: t => if a = b then some ([a], t) else none

/-- One reader after another. -/
def seq (r s : Reader) : Reader := fun t =>
  match r t with
  | none => none
  | some (w, t) =>
    match s t with
    | none => none
    | some (x, t) => some (w ++ x, t)

end Reader

/-! ## White space and comments -/

/-- The four white-space bytes. -/
def isSpace (b : UInt8) : Bool :=
  b == byte ' ' || b == byte '\t' || b == byte '\r' || b == byte '\n'

/-- A byte of a comment becomes a space, unless it is white space. -/
def blank (b : UInt8) : UInt8 := if isSpace b then b else byte ' '

/-- A text up to its first line feed, which it must have, and the rest. -/
def splitLine? : Reader
  | [] => none
  | b :: t =>
    if b = byte '\n' then some ([b], t) else (splitLine? t).map fun (c, rest) => (b :: c, rest)

/-- A text up to its first `*/`, which it must have, and the rest. -/
def splitBlock? : Reader
  | [] => none
  | [_] => none
  | a :: b :: t =>
    if a = byte '*' ∧ b = byte '/' then some ([a, b], t)
    else (splitBlock? (b :: t)).map fun (c, rest) => (a :: c, rest)

/-- The rest of a comment after its first slash. -/
def splitComment? : Reader
  | [] => none
  | b :: t =>
    if b = byte '/' then (splitLine? t).map fun (c, rest) => (b :: c, rest)
    else if b = byte '*' then (splitBlock? t).map fun (c, rest) => (b :: c, rest)
    else none

/-- White space is kept and comments, which must be well-formed UTF-8, are blanked. -/
def extraUpTo : Nat → Reader
  | 0 => fun t => some ([], t)
  | fuel + 1 => fun
    | [] => some ([], [])
    | b :: t =>
      if isSpace b then (extraUpTo fuel t).map fun (w, rest) => (b :: w, rest)
      else if b = byte '/' then
        match splitComment? t with
        | none => none
        | some (c, rest) =>
          if Utf8.isValid c then
            (extraUpTo fuel rest).map fun (w, rest) => (byte ' ' :: c.map blank ++ w, rest)
          else none
      else some ([], b :: t)

/-- **White space and comments**, as far as they go. -/
def extra : Reader := fun t => extraUpTo t.length t

/-! ## Literals -/

/-- The letters that may follow a backslash. -/
def isEscapeLetter (b : UInt8) : Bool := (utf8 "\"\\/bfnrt").contains b

/-- A hexadecimal digit of either case. -/
def isHexDigit (b : UInt8) : Bool := (Hex.digit? b).isSome

/-- The rest of a string literal after its first quote: no controls, and only the escapes
of JSON. -/
def stringRest : Reader
  | [] => none
  | b :: t =>
    if b = byte '"' then some ([b], t)
    else if b < 0x20 then none
    else if b = byte '\\' then
      match t with
      | [] => none
      | e :: t =>
        if isEscapeLetter e then (stringRest t).map fun (w, rest) => (b :: e :: w, rest)
        else if e = byte 'u' then
          match t with
          | h1 :: h2 :: h3 :: h4 :: t =>
            if [h1, h2, h3, h4].all isHexDigit then
              (stringRest t).map fun (w, rest) => (b :: e :: h1 :: h2 :: h3 :: h4 :: w, rest)
            else none
          | _ => none
        else none
    else (stringRest t).map fun (w, rest) => (b :: w, rest)

/-- A string literal. -/
def string : Reader := (Reader.keep (byte '"')).seq stringRest

/-- The bytes of words and numbers: ASCII letters and digits, signs and the point. -/
def isWordByte (b : UInt8) : Bool :=
  (byte 'a' ≤ b && b ≤ byte 'z') || (byte 'A' ≤ b && b ≤ byte 'Z') ||
    (byte '0' ≤ b && b ≤ byte '9') || b == byte '+' || b == byte '-' || b == byte '.'

/-- A JSON number: a decimal literal whose whole part has no needless zero. -/
def isNumberWord (w : Text) : Bool :=
  match Literal.read? (Utf8.decode w) with
  | none => false
  | some l => l.whole == ['0'] || l.whole.head? != some '0'

/-- The words that are values. -/
def isValueWord (w : Text) : Bool :=
  w == utf8 "null" || w == utf8 "true" || w == utf8 "false" || isNumberWord w

/-- The longest word, which must be a value. -/
def word : Reader := fun t =>
  if isValueWord (t.takeWhile isWordByte) then
    some (t.takeWhile isWordByte, t.dropWhile isWordByte)
  else none

/-! ## Arrays, objects, documents -/

/-- Items up to the closing bracket, at least one. A comma that no item follows is blanked. -/
def itemsUpTo (item : Reader) (close : UInt8) : Nat → Reader
  | 0 => fun _ => none
  | fuel + 1 => fun t =>
    match (item.seq extra) t with
    | none => none
    | some (_, []) => none
    | some (w, b :: t) =>
      if b = close then some (w ++ [b], t)
      else if b = byte ',' then
        match extra t with
        | none => none
        | some (_, []) => none
        | some (x, c :: t) =>
          if c = close then some (w ++ byte ' ' :: x ++ [c], t)
          else
            (itemsUpTo item close fuel (c :: t)).map fun (y, rest) => (w ++ b :: x ++ y, rest)
      else none

/-- Items up to the closing bracket, if any. -/
def items (item : Reader) (close : UInt8) : Reader := fun t =>
  match Reader.keep close t with
  | some r => some r
  | none => itemsUpTo item close (t.length + 1) t

/-- What is between a pair of brackets, and the brackets. -/
def bracketed (opening close : UInt8) (item : Reader) : Reader :=
  ((Reader.keep opening).seq extra).seq (items item close)

/-- A member of an object. -/
def member (value : Reader) : Reader :=
  (((string.seq extra).seq (Reader.keep (byte ':'))).seq extra).seq value

/-- A value, nested at most as deep as given. -/
def valueUpTo : Nat → Reader
  | 0 => fun _ => none
  | depth + 1 => fun t =>
    match t.head? with
    | none => none
    | some b =>
      if b = byte '[' then bracketed (byte '[') (byte ']') (valueUpTo depth) t
      else if b = byte '{' then bracketed (byte '{') (byte '}') (member (valueUpTo depth)) t
      else if b = byte '"' then string t
      else word t

/-- A value with white space and comments around it. -/
def document : Reader := fun t => ((extra.seq (valueUpTo (t.length + 1))).seq extra) t

/-- **The standard form of a relaxed document.** -/
def standardize? (t : Text) : Option Text :=
  match document t with
  | some (w, []) => some w
  | _ => none

end Descent.Json.Relaxed

namespace Descent.Json

/-- Parses the standard form of a text that has one, and any other text as it is, so that a
failure is about the text as it was given. -/
def parseRelaxedBy (standardize : Text → Option Text) (t : Text) : Outcome Json :=
  parse ((standardize t).getD t)

/-- **Parses a text as a relaxed document**, or else as a document. -/
def parseRelaxed (t : Text) : Outcome Json := parseRelaxedBy Relaxed.standardize? t

end Descent.Json
