import Descent.Proofs.Json.Acceptance
import Descent.Proofs.Json.Relaxed.Outline
import Descent.Proofs.Source.Spelling

/-!
# Standard forms are documents

The standard form of a relaxed document is a sequence of bytes, and the syntax of
documents is one of characters. Every part of a standard form is spelled on its
own: no cut is within a character, as the parts begin with ASCII bytes, and none
within a line break, as only white space ends with a carriage return. Within a
string, bytes above the ASCII range may or may not be characters, but none of them
is read as a quote or a backslash.

* `quoted_of_stringLiteral`: string literals are strings.
* `separated_of_items`: items in standard form, with commas between them only.
* `exists_document`: standard forms are documents.
-/

namespace Descent.Json.Relaxed

open Grammar
open Syntax (Blank)

/-! ## Spelling the parts -/

/-- An ASCII byte is spelled by its character, unless it is a carriage return. -/
theorem spelling_byte {x : Char} (hx : x.toNat < 0x80) (hcr : x ≠ '\r') (t : Text) :
    spelling (byte x :: t) = x :: spelling t := spelling_cons hx hcr t

/-- The characters that stand between the parts of arrays and objects. -/
def marks : List Char := [',', ':', ']', '}']

/-- A text is spelled part by part if it is cut before a mark, or before a comment. -/
theorem spelling_append_mark {x : Char} (hx : x ∈ '/' :: marks) (a t : Text) :
    spelling (a ++ byte x :: t) = spelling a ++ x :: spelling t := by
  have key : ∀ x ∈ '/' :: marks, x.toNat < 0x80 ∧ (byte x).toNat < 0x80 ∧ byte x ≠ lineFeed ∧
      x ≠ '\r' := forall_of_all (by decide)
  obtain ⟨hascii, hbyte, hlf, hcr⟩ := key x hx
  rw [← spelling_byte hascii hcr]
  exact spelling_append (asciiHead_cons hbyte t) fun _ h => hlf (Option.some.inj h)

/-- The characters that open a value are ASCII, and no line breaks. -/
theorem ascii_of_mem_openers {x : Char} (hx : x ∈ openers) :
    x.toNat < 0x80 ∧ (byte x).toNat < 0x80 ∧ byte x ≠ lineFeed ∧ x ≠ '\r' := by
  have key : ∀ x ∈ openers, x.toNat < 0x80 ∧ (byte x).toNat < 0x80 ∧ byte x ≠ lineFeed ∧
      x ≠ '\r' := forall_of_all (by decide)
  exact key x hx

/-- A text may be cut before what opens a value. -/
theorem spelling_append_opens {t : Text} (h : Opens t) (a : Text) :
    spelling (a ++ t) = spelling a ++ spelling t := by
  obtain ⟨x, hx, s, rfl⟩ := h
  obtain ⟨-, hbyte, hlf, -⟩ := ascii_of_mem_openers hx
  exact spelling_append (asciiHead_cons hbyte s) fun _ h => hlf (Option.some.inj h)

/-- Characters that begin as a value does. -/
def Begins (s : List Char) : Prop := ∃ x ∈ openers, ∃ r, s = x :: r

/-- What opens a value begins one when it is spelled. -/
theorem begins_spelling {t : Text} (h : Opens t) : Begins (spelling t) := by
  obtain ⟨x, hx, s, rfl⟩ := h
  obtain ⟨hascii, -, -, hcr⟩ := ascii_of_mem_openers hx
  exact ⟨x, hx, spelling s, spelling_byte hascii hcr s⟩

theorem asciiHead_mark {x : Char} (hx : x ∈ marks) (t : Text) : AsciiHead (byte x :: t) := by
  have key : ∀ x ∈ marks, (byte x).toNat < 0x80 := forall_of_all (by decide)
  exact asciiHead_cons (key x hx) t

theorem ascii_of_isSpace {b : UInt8} (h : isSpace b = true) :
    b.toNat < 0x80 ∧ Syntax.isSpace (Char.ofNat b.toNat) = true := by
  simp only [isSpace, Bool.or_eq_true, beq_iff_eq] at h
  rcases h with ((rfl | rfl) | rfl) | rfl <;> decide

theorem asciiHead_of_isSpace {a : Text} (h : ∀ b ∈ a, isSpace b = true) : AsciiHead a :=
  fun b hb => (ascii_of_isSpace (h b (List.mem_of_mem_head? hb))).1

/-- White space and comments begin with an ASCII byte. -/
theorem Extra.asciiHead {e x : Text} (h : Extra e x) : AsciiHead e := by
  intro b hb
  rcases h.head b hb with hs | rfl
  · exact (ascii_of_isSpace hs).1
  · decide

/-- A text may be cut behind a solid part. -/
theorem Solid.spelling_append {t : Text} (h : Solid t) {s : Text} (hs : AsciiHead s) :
    spelling (t ++ s) = spelling t ++ spelling s :=
  Descent.spelling_append hs fun hlast => absurd hlast h.last_ne

/-- A solid text, white space and comments, and a mark after them. -/
theorem Solid.spelling_append_mark {t : Text} (h : Solid t) {e : Text} (he : AsciiHead e) {x : Char}
    (hx : x ∈ marks) (s : Text) :
    spelling (t ++ (e ++ byte x :: s)) = spelling t ++ (spelling e ++ x :: spelling s) := by
  rw [h.spelling_append (he.append (asciiHead_mark hx s)),
    Relaxed.spelling_append_mark (List.mem_cons_of_mem _ hx)]

/-- White space is spelled as white space. -/
theorem blank_spelling {a : Text} (h : ∀ b ∈ a, isSpace b = true) : Blank (spelling a) := by
  intro x hx
  obtain ⟨b, hb, rfl⟩ := exists_of_mem_spelling (fun b hb => (ascii_of_isSpace (h b hb)).1) hx
  exact (ascii_of_isSpace (h b hb)).2

/-! ## Strings -/

/-- Plain characters may be put before the body of a string. -/
theorem stringBody_plain_append {cs s : List Char} {us : List CodePoint}
    (hcs : ∀ x ∈ cs, x ≠ '"' ∧ x ≠ '\\') (h : Syntax.StringBody s us) :
    ∃ us', Syntax.StringBody (cs ++ s) us' := by
  induction cs with
  | nil => exact ⟨us, h⟩
  | cons x cs ih =>
    obtain ⟨us', h'⟩ := ih fun y hy => hcs y (List.mem_cons_of_mem _ hy)
    obtain ⟨hq, hb⟩ := hcs x List.mem_cons_self
    have hcons : Syntax.StringBody ([x] ++ (cs ++ s)) _ := .cons (.plain hq hb) h'
    exact ⟨_, hcons⟩

theorem exists_escape {e : UInt8} (h : isEscapeLetter e = true) :
    ∃ letter x, (letter, x) ∈ Syntax.escapes ∧ letter.toNat < 0x80 ∧ e = byte letter := by
  have key : ∀ e ∈ utf8 "\"\\/bfnrt",
      (Syntax.escapes.any fun p => p.1.toNat < 0x80 ∧ e = byte p.1) = true :=
    forall_of_all (by decide)
  obtain ⟨⟨letter, x⟩, hp, hletter⟩ := List.any_eq_true.1 (key e (List.elem_iff.1 h))
  obtain ⟨hascii, he⟩ := of_decide_eq_true hletter
  exact ⟨letter, x, hp, hascii, he⟩

theorem exists_hexChar {b : UInt8} (h : isHexDigit b = true) :
    ∃ x ∈ hexChars, x.toNat < 0x80 ∧ b = byte x := by
  have key : ∀ n < 256, isHexDigit (.ofNat n) = true →
      (hexChars.any fun x => x.toNat < 0x80 ∧ UInt8.ofNat n = byte x) = true := by decide +kernel
  have hb := key b.toNat b.toNat_lt
  rw [UInt8.ofNat_toNat] at hb
  obtain ⟨x, hx, hchar⟩ := List.any_eq_true.1 (hb h)
  exact ⟨x, hx, of_decide_eq_true hchar⟩

theorem exists_byte {b : UInt8} (h : b.toNat < 0x80) : ∃ x : Char, x.toNat < 0x80 ∧ b = byte x := by
  obtain ⟨x, hx⟩ := CodePoint.exists_char (n := b.toNat) (.inl (by omega))
  refine ⟨x, by omega, ?_⟩
  rw [byte, hx, UInt8.ofNat_toNat]

theorem decode_byte {x : Char} (hx : x.toNat < 0x80) (t : Text) :
    Utf8.decode (byte x :: t) = x :: Utf8.decode t := Utf8.decode_ascii_cons hx t

/-- A unit of a string that begins with an ASCII byte is a character of a string. -/
theorem StringUnit.cases_ascii {u : Text} (h : StringUnit u) :
    (∃ b, u = [b] ∧ 0x80 ≤ b.toNat) ∨
      ∃ w c, Syntax.StringChar w c ∧
        ∀ t, AsciiHead (u ++ t) ∧ Utf8.decode (u ++ t) = w ++ Utf8.decode t := by
  cases h with
  | @plain b hlow hq hb =>
    -- only a plain unit may be part of a longer character
    rcases Nat.lt_or_ge b.toNat 0x80 with hascii | hhigh
    · obtain ⟨x, hx, rfl⟩ := exists_byte hascii
      refine .inr ⟨[x], _, .plain ?_ ?_, fun t => ⟨asciiHead_cons hascii t, decode_byte hx t⟩⟩
      · rintro rfl
        exact hq rfl
      · rintro rfl
        exact hb rfl
    · exact .inl ⟨b, rfl, hhigh⟩
  | escape he =>
    obtain ⟨letter, x, hp, hascii, rfl⟩ := exists_escape he
    refine .inr ⟨_, _, .escape hp, fun t => ⟨asciiHead_cons (by decide) _, ?_⟩⟩
    simp only [List.cons_append, List.nil_append]
    rw [decode_byte (by decide), decode_byte hascii]
  | number hd =>
    simp only [List.all_cons, List.all_nil, Bool.and_true, Bool.and_eq_true] at hd
    obtain ⟨h₁, h₂, h₃, h₄⟩ := hd
    obtain ⟨a, ha, hascii₁, rfl⟩ := exists_hexChar h₁
    obtain ⟨b, hb, hascii₂, rfl⟩ := exists_hexChar h₂
    obtain ⟨c, hc, hascii₃, rfl⟩ := exists_hexChar h₃
    obtain ⟨d, hd, hascii₄, rfl⟩ := exists_hexChar h₄
    refine .inr ⟨_, _, .number (hexDigit_hexValue ha) (hexDigit_hexValue hb)
      (hexDigit_hexValue hc) (hexDigit_hexValue hd), fun t => ⟨asciiHead_cons (by decide) _, ?_⟩⟩
    simp only [List.cons_append, List.nil_append]
    rw [decode_byte (by decide), decode_byte (by decide), decode_byte hascii₁,
      decode_byte hascii₂, decode_byte hascii₃, decode_byte hascii₄]

/-- **The body of a string literal is one of a string.** Bytes above the ASCII range are put
aside until an ASCII byte ends them. -/
theorem exists_stringBody {b : Text} (h : StringBody b) {p : Text} (hp : ∀ y ∈ p, 0x80 ≤ y.toNat) :
    ∃ us, Syntax.StringBody (Utf8.decode (p ++ b)) us := by
  -- what was put aside decodes to characters that need no escape, be it well-formed or not
  have hplain {p : Text} (hp : ∀ y ∈ p, 0x80 ≤ y.toNat) :
      ∀ x ∈ Utf8.decode p, x ≠ '"' ∧ x ≠ '\\' := by
    intro x hx
    constructor <;> rintro rfl
    · exact absurd (hp _ (Utf8.mem_of_mem_decode (by decide) hx)) (by decide)
    · exact absurd (hp _ (Utf8.mem_of_mem_decode (by decide) hx)) (by decide)
  induction h generalizing p with
  | nil =>
    rw [List.append_nil, ← List.append_nil (Utf8.decode p)]
    exact stringBody_plain_append (hplain hp) .nil
  | @cons u b hu _ ih =>
    rcases hu.cases_ascii with ⟨y, rfl, hy⟩ | ⟨w, c, hw, hunit⟩
    · rw [← List.append_assoc]
      refine ih fun z hz => ?_
      rcases List.mem_append.1 hz with hz | hz
      · exact hp z hz
      · rw [List.mem_singleton.1 hz]
        exact hy
    · obtain ⟨us, hus⟩ := ih (p := []) fun z hz => nomatch hz
      obtain ⟨hhead, hdecode⟩ := hunit b
      rw [decode_append_of_head hhead, hdecode]
      exact stringBody_plain_append (hplain hp) (.cons hw hus)

/-- There is no carriage return within a string. -/
theorem carriageReturn_not_mem {b : Text} (h : StringBody b) : carriageReturn ∉ b := by
  induction h with
  | nil => exact List.not_mem_nil
  | cons hu _ ih =>
    rw [List.mem_append, not_or]
    refine ⟨fun hm => ?_, ih⟩
    -- a control may not be plain, and no escape is written with one
    cases hu with
    | plain hlow _ _ =>
      rw [← List.mem_singleton.1 hm] at hlow
      exact hlow (by decide)
    | escape he =>
      simp only [List.mem_cons, List.not_mem_nil, or_false] at hm
      rcases hm with hm | rfl
      · exact absurd hm (by decide)
      · exact absurd he (by decide)
    | number hd =>
      simp only [List.mem_cons, List.not_mem_nil, or_false] at hm
      rw [List.all_eq_true] at hd
      rcases hm with hm | hm | hm
      · exact absurd hm (by decide)
      · exact absurd hm (by decide)
      · have hhex := hd carriageReturn (by simpa using hm)
        exact absurd hhex (by decide)

/-- **String literals are strings.** -/
theorem quoted_of_stringLiteral {t : Text} (h : StringLiteral t) :
    ∃ text, Syntax.Quoted (spelling t) text := by
  obtain ⟨hb⟩ := h
  rename_i b
  obtain ⟨us, hus⟩ := exists_stringBody hb (p := []) fun y hy => nomatch hy
  have hspell : spelling (byte '"' :: (b ++ [byte '"'])) = '"' :: Utf8.decode b ++ ['"'] := by
    have hopens : Opens [byte '"'] := ⟨'"', by decide, [], rfl⟩
    rw [spelling_byte (by decide) (by decide), spelling_append_opens hopens,
      spelling_byte (by decide) (by decide), spelling_of_not_mem (carriageReturn_not_mem hb)]
    rfl
  rw [hspell]
  exact ⟨_, .intro hus (CodePoint.standFor_join (isUnit_of_stringBody hus))⟩

/-! ## Words -/

/-- **Words are values**, and none of those that white space is read after. -/
theorem exists_value_of_word {t : Text} (h : Word t) :
    ∃ v, Syntax.Value (spelling t) v ∧ ∀ rest, trail v rest = rest := by
  cases h with
  | null =>
    rw [utf8, spelling_encode (by decide)]
    exact ⟨_, .null, fun _ => rfl⟩
  | true =>
    rw [utf8, spelling_encode (by decide)]
    exact ⟨_, .true, fun _ => rfl⟩
  | false =>
    rw [utf8, spelling_encode (by decide)]
    exact ⟨_, .false, fun _ => rfl⟩
  | number hn =>
    have hcr : '\r' ∉ numberChars := by decide
    rw [spelling_encode fun hm => hcr (mem_numberChars hn hm)]
    obtain ⟨x, hx⟩ := exists_ofLiteral? hn
    exact ⟨_, .number hn hx, fun _ => rfl⟩

/-! ## Items, values and documents -/

section Items

variable {α : Type} {Core : List Char → α → Prop} {Item : Text → Text → Prop} {t w : Text}

/-- White space may follow. -/
def Padded (Core : List Char → α → Prop) (s : List Char) (v : α) : Prop :=
  ∃ s' u, s = s' ++ u ∧ Core s' v ∧ Blank u

/-- **Items in standard form** have commas between them only. -/
theorem separated_of_items (hsolid : SolidForm Item)
    (hcore : ∀ t w, Item t w → ∃ v, Core (spelling w) v) (h : Items Item t w) :
    ∃ vs, Separated (Padded Core) (spelling w) vs := by
  -- an item, and nothing but white space after it
  have hone {t w x : Text} (hi : Item t w) (hx : ∀ b ∈ x, isSpace b = true) :
      ∃ v, Padded Core (spelling w ++ spelling x) v := by
    obtain ⟨v, hv⟩ := hcore t w hi
    exact ⟨v, spelling w, spelling x, rfl, hv, blank_spelling hx⟩
  induction h with
  | @last t w e x hi he =>
    obtain ⟨v, hv⟩ := hone hi he.isSpace_of_mem
    rw [(hsolid t w hi).2.spelling_append (asciiHead_of_isSpace he.isSpace_of_mem)]
    exact ⟨[v], .one hv⟩
  | @trailing t w e x e' x' hi he he' =>
    have hspace : ∀ b ∈ x ++ byte ' ' :: x', isSpace b = true := by
      intro b hb
      rcases List.mem_append.1 hb with hb | hb
      · exact he.isSpace_of_mem b hb
      · rcases List.mem_cons.1 hb with rfl | hb
        · decide
        · exact he'.isSpace_of_mem b hb
    obtain ⟨v, hv⟩ := hone hi hspace
    rw [(hsolid t w hi).2.spelling_append (asciiHead_of_isSpace hspace)]
    exact ⟨[v], .one hv⟩
  | @more t w e x e' x' t' w' hi he he' hitems ih =>
    obtain ⟨v, hv⟩ := hone hi he.isSpace_of_mem
    obtain ⟨vs, hvs⟩ := ih
    have hhead := asciiHead_of_isSpace he.isSpace_of_mem
    rw [(hsolid t w hi).2.spelling_append_mark hhead (by decide),
      spelling_append_opens (hitems.opens hsolid).2, ← List.append_assoc, ← List.cons_append,
      ← List.append_assoc]
    exact ⟨v :: vs, .more hv (blank_spelling he'.isSpace_of_mem) hvs⟩

end Items

/-- A key, a colon and a value. -/
def MemberCore (s : List Char) (m : Text × Json) : Prop :=
  ∃ k u₁ u₂ s', s = k ++ (u₁ ++ ':' :: (u₂ ++ s')) ∧ Syntax.Quoted k m.1 ∧ Blank u₁ ∧ Blank u₂ ∧
    Syntax.Value s' m.2

/-- **Members in standard form** are members, if values are values. -/
theorem exists_memberCore {Inner : Text → Text → Prop} (hsolid : SolidForm Inner)
    (hvalue : ∀ t w, Inner t w → ∃ v, Syntax.Value (spelling w) v) {t w : Text}
    (h : Member Inner t w) : ∃ m, MemberCore (spelling w) m := by
  cases h with
  | @intro k e₁ x₁ e₂ x₂ t w hk he₁ he₂ ht =>
    obtain ⟨key, hkey⟩ := quoted_of_stringLiteral hk
    obtain ⟨v, hv⟩ := hvalue t w ht
    have hhead := asciiHead_of_isSpace he₁.isSpace_of_mem
    rw [hk.solid.spelling_append_mark hhead (by decide),
      spelling_append_opens (hsolid t w ht).2.opens]
    exact ⟨(key, v), _, _, _, _, rfl, hkey, blank_spelling he₁.isSpace_of_mem,
      blank_spelling he₂.isSpace_of_mem, hv⟩

/-- **Items in brackets**, in characters. -/
def Brackets {α : Type} (o c : Char) (Core : List Char → α → Prop) (s : List Char) : Prop :=
  ∃ u m, s = o :: (u ++ (m ++ [c])) ∧ Blank u ∧ (m = [] ∨ ∃ vs, Separated (Padded Core) m vs)

/-- A text in brackets is spelled between its brackets. -/
theorem spelling_brackets {o c : Char} (ho : o ∈ openers) (hc : c ∈ marks) (a : Text) :
    spelling (byte o :: (a ++ [byte c])) = o :: (spelling a ++ [c]) := by
  obtain ⟨hascii, -, -, hcr⟩ := ascii_of_mem_openers ho
  rw [spelling_byte hascii hcr, spelling_append_mark (List.mem_cons_of_mem _ hc)]
  rfl

/-- Within brackets, a text may be cut before what opens a value. -/
theorem spelling_brackets_items {o c : Char} (ho : o ∈ openers) (hc : c ∈ marks) (a : Text)
    {t : Text} (ht : Opens t) :
    spelling (byte o :: (a ++ (t ++ [byte c]))) = o :: (spelling a ++ (spelling t ++ [c])) := by
  rw [← List.append_assoc, spelling_brackets ho hc, spelling_append_opens ht, List.append_assoc]

/-- The standard form of a list in brackets is one of the syntax, if those of its items are. -/
theorem brackets_of_bracketed {α : Type} {Core : List Char → α → Prop}
    {Item : Text → Text → Prop} (hsolid : SolidForm Item)
    (hcore : ∀ t w, Item t w → ∃ v, Core (spelling w) v) {o c : Char} (ho : o ∈ openers)
    (hc : c ∈ marks) {t w : Text} (h : Bracketed (byte o) (byte c) Item t w) :
    Brackets o c Core (spelling w) := by
  cases h with
  | @empty e x he =>
    rw [spelling_brackets ho hc]
    exact ⟨spelling x, [], rfl, blank_spelling he.isSpace_of_mem, .inl rfl⟩
  | @items e x t w he hitems =>
    rw [spelling_brackets_items ho hc x (hitems.opens hsolid).2]
    exact ⟨spelling x, spelling w, rfl, blank_spelling he.isSpace_of_mem,
      .inr (separated_of_items hsolid hcore hitems)⟩

/-- Items in brackets, and what they stand for. -/
def BracketsOf {α : Type} (o c : Char) (Core : List Char → α → Prop) (s : List Char)
    (vs : List α) : Prop :=
  ∃ u m, s = o :: (u ++ (m ++ [c])) ∧ Blank u ∧
    ((m = [] ∧ vs = []) ∨ Separated (Padded Core) m vs)

/-- A list in brackets has items. -/
theorem Brackets.exists_bracketsOf {α : Type} {o c : Char} {Core : List Char → α → Prop}
    {s : List Char} (h : Brackets o c Core s) : ∃ vs, BracketsOf o c Core s vs := by
  obtain ⟨u, m, hs, hu, rfl | ⟨vs, hvs⟩⟩ := h
  · exact ⟨[], u, [], hs, hu, .inl ⟨rfl, rfl⟩⟩
  · exact ⟨vs, u, m, hs, hu, .inr hvs⟩

/-- Values in square brackets are an array. -/
theorem BracketsOf.array {s : List Char} {vs : List Json}
    (h : BracketsOf '[' ']' Syntax.Value s vs) : Syntax.Value s (.array vs) := by
  obtain ⟨u, m, rfl, hu, ⟨rfl, rfl⟩ | hvs⟩ := h
  · exact .emptyArray hu
  · have hvalue := Syntax.Value.array hu (elements_of_separated hvs)
    rwa [List.append_assoc] at hvalue

/-- Members in curly brackets are an object. -/
theorem BracketsOf.object {s : List Char} {ms : List (Text × Json)}
    (h : BracketsOf '{' '}' MemberCore s ms) : Syntax.Value s (.ofMembers ms) := by
  obtain ⟨u, m, rfl, hu, ⟨rfl, rfl⟩ | hms⟩ := h
  · exact .emptyObject hu
  · have hmembers : Syntax.Members m ms := by
      refine members_of_separated (hms.imp fun s m hm => ?_)
      obtain ⟨s', u, rfl, ⟨k, u₁, u₂, w, rfl, hk, hu₁, hu₂, hv⟩, hu⟩ := hm
      exact ⟨k, u₁, u₂, w, u, by simp, hk, hu₁, hu₂, hv, hu⟩
    have hvalue := Syntax.Value.object hu hmembers (Members.collects_iff.2 rfl)
    rwa [List.append_assoc] at hvalue

theorem exists_array {s : List Char} (h : Brackets '[' ']' Syntax.Value s) :
    ∃ v, Syntax.Value s v := by
  obtain ⟨vs, hvs⟩ := h.exists_bracketsOf
  exact ⟨_, hvs.array⟩

theorem exists_object {s : List Char} (h : Brackets '{' '}' MemberCore s) :
    ∃ v, Syntax.Value s v := by
  obtain ⟨ms, hms⟩ := h.exists_bracketsOf
  exact ⟨_, hms.object⟩

/-- **Values in standard form are values.** -/
theorem exists_value {depth : Nat} {t w : Text} (h : NestedValue depth t w) :
    ∃ v, Syntax.Value (spelling w) v := by
  induction depth generalizing t w with
  | zero => cases h
  | succ depth ih =>
    have hsolid := solidForm_nestedValue depth
    have hvalue (t w : Text) (h : NestedValue depth t w) : ∃ v, Syntax.Value (spelling w) v := ih h
    cases h with
    | string hs =>
      obtain ⟨text, hq⟩ := quoted_of_stringLiteral hs
      exact ⟨_, .string hq⟩
    | word hw =>
      obtain ⟨v, hv, -⟩ := exists_value_of_word hw
      exact ⟨v, hv⟩
    | array hb =>
      exact exists_array (brackets_of_bracketed hsolid hvalue (by decide) (by decide) hb)
    | object hb =>
      exact exists_object (brackets_of_bracketed (solidForm_member hsolid)
        (fun t w => exists_memberCore hsolid hvalue) (by decide) (by decide) hb)

/-- A value with white space around it is a document. -/
theorem document_of_value {x t x' : Text} {v : Json} (hx : ∀ b ∈ x, isSpace b = true)
    (hsolid : Solid t) (hv : Syntax.Value (spelling t) v) (hx' : ∀ b ∈ x', isSpace b = true) :
    Syntax.Document (sourceChars (x ++ (t ++ x'))) v := by
  have hne : x ++ (t ++ x') ≠ [] := by
    obtain ⟨z, -, s, hz⟩ := hsolid.opens
    simp [hz]
  have hspell : spelling (x ++ (t ++ x')) = spelling x ++ spelling t ++ spelling x' := by
    rw [spelling_append_opens (hsolid.opens.append x'),
      hsolid.spelling_append (asciiHead_of_isSpace hx'), List.append_assoc]
  have hblank : Blank (spelling x' ++ ['\n']) := by
    intro z hz
    rcases List.mem_append.1 hz with hz | hz
    · exact blank_spelling hx' z hz
    · rw [List.mem_singleton.1 hz]
      decide
  rw [sourceChars_eq hne, hspell, List.append_assoc]
  exact .intro (blank_spelling hx) hv hblank

/-- **Standard forms are documents.** -/
theorem exists_document {t w : Text} (h : Document t w) :
    ∃ v, Syntax.Document (sourceChars w) v := by
  obtain ⟨he, ⟨depth, hv⟩, he'⟩ := h
  obtain ⟨v, hvalue⟩ := exists_value hv
  exact ⟨v, document_of_value he.isSpace_of_mem (solidForm_nestedValue depth _ _ hv).2 hvalue
    he'.isSpace_of_mem⟩

end Descent.Json.Relaxed
