import Descent.Proofs.Json.RoundTrip

/-!
# Canonical texts are standard JSON

The syntax that is parsed is wider than that of the standard: in a string, any
character but a quote and a backslash may stand for itself, controls and line
breaks too. Canonical texts make no use of this, whatever bytes the strings and
keys of the value consist of, and they have no white space but in strings.

* `Strict.Value w v`: the characters `w` are standard JSON, and what they say is
  `v` up to its stray bytes.
* `Place.exposed`: the characters outside strings.
* `strict_text`: what holds of the text of every value.
-/

namespace Descent

namespace Json

open Syntax Grammar

/-! ## Standard JSON -/

namespace Strict

/-- **A string** in quotes, and its text. Control characters have to be escaped. -/
structure Quoted (w : List Char) (t : Text) : Prop where
  quoted : Syntax.Quoted w t
  noControl : ∀ x ∈ w, 0x20 ≤ x.toNat

mutual

/-- **A value**, and what it stands for. Its members have the order in which they are written,
and of the stray bytes of a string or key only U+FFFD is written. -/
inductive Value : List Char → Json → Prop where
  | null : Value "null".toList .null
  | true : Value "true".toList (.bool true)
  | false : Value "false".toList (.bool false)
  | string {w : List Char} {t : Text} : Quoted w (repairText t) → Value w (.string t)
  | number {w : List Char} {x : Binary64} :
      Number w → Binary64.ofLiteral? w = some x → Value w (.number x)
  | emptyArray {u : List Char} : Blank u → Value ('[' :: u ++ [']']) (.array [])
  | array {u w : List Char} {vs : List Json} :
      Blank u → Separated Element w vs → Value ('[' :: u ++ w ++ [']']) (.array vs)
  | emptyObject {u : List Char} : Blank u → Value ('{' :: u ++ ['}']) (.object [])
  | object {u w : List Char} {ms : List (Text × Json)} :
      Blank u → Separated Member w ms → Value ('{' :: u ++ w ++ ['}']) (.object ms)

/-- A value with white space after it. -/
inductive Element : List Char → Json → Prop where
  | intro {w u : List Char} {v : Json} : Value w v → Blank u → Element (w ++ u) v

/-- A key and a value with white space after it. -/
inductive Member : List Char → Text × Json → Prop where
  | intro {k u₁ u₂ w u : List Char} {key : Text} {v : Json} :
      Quoted k (repairText key) → Blank u₁ → Blank u₂ → Value w v → Blank u →
      Member (k ++ u₁ ++ ':' :: u₂ ++ w ++ u) (key, v)

end

/-- **A document**: one value, with white space around it. -/
inductive Document : List Char → Json → Prop where
  | intro {u w u' : List Char} {v : Json} :
      Blank u → Value w v → Blank u' → Document (u ++ w ++ u') v

/-! ## From values to derivations -/

/-- A quoted text is a strict string, with the repaired text for its value. -/
theorem quoted_quote (t : Text) : Quoted (quote t) (repairText t) where
  quoted := Json.quoted_quote t
  noControl _ hx := (isClear_of_mem_quote hx).1

/-- A rendered value is a strict element. -/
theorem element_render {v : Json} (h : Value v.render v) : Element v.render v := by
  have helement := Element.intro h blank_nil
  rwa [List.append_nil] at helement

/-- A rendered member is a strict member. -/
theorem member_memberChars {m : Text × Json} (h : Value m.2.render m.2) :
    Member (memberChars m) m := by
  have hmember := Member.intro (quoted_quote m.1) blank_nil blank_nil h blank_nil
  rwa [List.append_nil, List.append_nil, List.append_assoc] at hmember

/-- Items in writing are items, each for what it was written from. -/
theorem separated_items {β : Type} {Item : List Char → β → Prop} {text : β → List Char}
    {bs : List β} (hne : bs ≠ []) (h : ∀ b ∈ bs, Item (text b) b) :
    Separated Item (commaJoin (bs.map text)) bs := by
  have hitems : Separated Item (commaJoin (bs.map text)) (bs.map id) := separated_commaJoin hne h
  rwa [List.map_id] at hitems

/-- **The text of a value is standard JSON.** -/
theorem value_render {v : Json} (hn : v.NoNaN) : Value v.render v := by
  induction v using Json.induction with
  | null => exact .null
  | bool b =>
    cases b with
    | true => exact .true
    | false => exact .false
  | number x =>
    obtain ⟨hnumber, hx⟩ := number_numberText (hn x (.whole _))
    exact .number hnumber hx
  | string t => exact .string (quoted_quote t)
  | array es ih =>
    -- elements are rendered without white space around them
    have hes (e : Json) (he : e ∈ es) : Element e.render e :=
      element_render (ih e he (noNaN_array.1 hn e he))
    cases es with
    | nil => exact .emptyArray blank_nil
    | cons e es =>
      rw [render_array]
      exact .array blank_nil (separated_items (List.cons_ne_nil e es) hes)
  | object ms ih =>
    have hms (m : Text × Json) (hm : m ∈ ms) : Member (memberChars m) m :=
      member_memberChars (ih m hm (noNaN_object.1 hn m hm))
    cases ms with
    | nil => exact .emptyObject blank_nil
    | cons m ms =>
      rw [render_object]
      exact .object blank_nil (separated_items (List.cons_ne_nil m ms) hms)

end Strict

/-! ## Outside strings -/

/-- **A place in a text**: outside strings, in a string, or in one and right after a backslash. -/
inductive Place where
  | outside
  | inside
  | escaped
  deriving DecidableEq

namespace Place

/-- The place after a character. -/
def next : Place → Char → Place
  | .outside, x => if x = '"' then .inside else .outside
  | .inside, x => if x = '"' then .outside else if x = '\\' then .escaped else .inside
  | .escaped, _ => .inside

/-- The place after some text. -/
def after (p : Place) (w : List Char) : Place := w.foldl next p

/-- **The characters outside strings**, in a text that begins at some place. -/
def exposed : Place → List Char → List Char
  | _, [] => []
  | .outside, x :: w => x :: (next .outside x).exposed w
  | p, x :: w => (p.next x).exposed w

@[simp]
theorem after_nil (p : Place) : p.after [] = p := rfl

theorem after_append (p : Place) (w w' : List Char) : p.after (w ++ w') = (p.after w).after w' :=
  List.foldl_append

@[simp]
theorem exposed_nil (p : Place) : p.exposed [] = [] := by
  cases p <;> rfl

@[simp]
theorem exposed_outside_cons (x : Char) (w : List Char) :
    exposed .outside (x :: w) = x :: (next .outside x).exposed w := rfl

/-- What is exposed in a text is what is exposed in its parts, each at its place. -/
theorem exposed_append (p : Place) (w w' : List Char) :
    p.exposed (w ++ w') = p.exposed w ++ (p.after w).exposed w' := by
  induction w generalizing p with
  | nil => rw [exposed_nil, after_nil, List.nil_append, List.nil_append]
  | cons x w ih =>
    cases p with
    | outside => exact congrArg (x :: ·) (ih _)
    | inside => exact ih _
    | escaped => exact ih _

end Place

/-- **Hidden text**, when it is in a string: it does not end the string. -/
structure Hidden (w : List Char) : Prop where
  after : Place.inside.after w = .inside
  exposed : Place.inside.exposed w = []

namespace Hidden

theorem nil : Hidden [] := ⟨rfl, rfl⟩

/-- Hidden texts may be put together. -/
theorem append {w w' : List Char} (h : Hidden w) (h' : Hidden w') : Hidden (w ++ w') where
  after := by rw [Place.after_append, h.after, h'.after]
  exposed := by rw [Place.exposed_append, h.exposed, h.after, h'.exposed, List.nil_append]

/-- A character is hidden if one is still inside a string after it. -/
theorem of_next {x : Char} (h : Place.next .inside x = .inside) : Hidden [x] where
  after := h
  exposed := Place.exposed_nil (Place.next .inside x)

theorem of_hexDigit {x : Char} {n : Nat} (h : HexDigit x n) : Hidden [x] := by
  have key : ∀ x ∈ hexChars, Place.next .inside x = .inside := forall_of_all (by decide)
  exact of_next (key x (mem_hexChars_of_hexDigit h).1)

/-- A character of a string is hidden, however it is written. -/
theorem of_stringChar {w : List Char} {u : CodePoint} (h : StringChar w u) : Hidden w := by
  cases h with
  | plain hquote hbackslash => exact of_next (by rw [Place.next, if_neg hquote, if_neg hbackslash])
  -- a quote or a backslash after a backslash is passed over
  | escape _ => exact ⟨rfl, rfl⟩
  | number ha hb hc hd =>
    have hmark : Hidden ['\\', 'u'] := ⟨rfl, rfl⟩
    exact hmark.append ((of_hexDigit ha).append ((of_hexDigit hb).append
      ((of_hexDigit hc).append (of_hexDigit hd))))

/-- The body of a string is hidden. -/
theorem of_stringBody {w : List Char} {us : List CodePoint} (h : StringBody w us) : Hidden w := by
  induction h with
  | nil => exact .nil
  | cons hchar _ ih => exact (of_stringChar hchar).append ih

end Hidden

/-- **Of a string, the opening quote is all that is exposed.** -/
theorem exposed_quoted {w : List Char} {t : Text} (h : Syntax.Quoted w t) :
    Place.outside.after w = .outside ∧ Place.outside.exposed w = ['"'] := by
  cases h with
  | intro hbody _ =>
    have hhidden := Hidden.of_stringBody hbody
    constructor
    · show Place.inside.after (_ ++ ['"']) = _
      rw [Place.after_append, hhidden.after]
      rfl
    · show '"' :: Place.inside.exposed (_ ++ ['"']) = _
      rw [Place.exposed_append, hhidden.exposed, hhidden.after]
      rfl

/-- What is outside the strings of a text is a bare character or begins a string. -/
theorem exposed_pieces {w : List Char} (h : Pieces w) :
    ∀ x ∈ Place.outside.exposed w, x ∈ '"' :: bareChars := by
  have key : ∀ x ∈ bareChars, Place.next .outside x = .outside := forall_of_all (by decide)
  induction h with
  | nil => exact nofun
  | bare hx _ ih =>
    rw [Place.exposed_outside_cons, key _ hx]
    exact List.forall_mem_cons.2 ⟨List.mem_cons_of_mem _ hx, ih⟩
  | string t _ ih =>
    obtain ⟨hafter, hexposed⟩ := exposed_quoted (quoted_quote t)
    rw [Place.exposed_append, hafter, hexposed]
    exact List.forall_mem_cons.2 ⟨List.mem_cons_self, ih⟩

/-- A rendered value has no white space outside of strings. -/
theorem isSpace_of_mem_exposed {v : Json} {x : Char} (h : x ∈ Place.outside.exposed v.render) :
    isSpace x = false := by
  have key : ∀ x ∈ '"' :: bareChars, isSpace x = false := forall_of_all (by decide)
  exact key x (exposed_pieces (pieces_render v) x h)

/-! ## Members in order -/

/-- The parts of a canonical value are canonical. -/
theorem Part.canonical {p v : Json} (h : Part p v) (hc : v.Canonical) : p.Canonical := by
  induction h with
  | whole => exact hc
  | element he _ ih => exact ih (hc.element he)
  | member hm _ ih => exact ih (hc.member hm)

/-- However its members are given, an object has them in order. -/
theorem canonical_ofMembers {ms : List (Text × Json)} (h : ∀ m ∈ ms, m.2.Canonical) :
    (ofMembers ms).Canonical := by
  refine .object (Members.sorted_ofList ms) fun m hm => h m ?_
  exact Members.mem_of_collects (Members.collects_iff.2 rfl) hm

/-! ## Texts of values -/

/-- **The text of a value is standard JSON.** Whatever bytes its strings and keys consist of, if
every number in it is one then the text is well-formed and a document of the standard. The members
of each object are written in the order they have in the value, and that is the increasing order
of their keys. There is no line break and no line separator in the text, and no white space
outside strings. -/
theorem strict_text {v : Json} (hc : v.Canonical) (hn : v.NoNaN) :
    Utf8.isValid v.text = true ∧
      Strict.Document (Utf8.decode v.text) v ∧
      (∀ x ∈ Utf8.decode v.text, x ≠ '\r' ∧ x ≠ '\n' ∧ x ≠ '\u2028' ∧ x ≠ '\u2029') ∧
      (∀ x ∈ Place.outside.exposed (Utf8.decode v.text), isSpace x = false) ∧
      ∀ ms, Part (.object ms) v → (Members.keys ms).Pairwise (· < ·) := by
  have hdecode : Utf8.decode v.text = v.render := Utf8.decode_encode v.render
  rw [hdecode]
  refine ⟨Utf8.isValid_encode _, ?_, fun x hx => ?_, fun x hx => isSpace_of_mem_exposed hx,
    fun ms hms => (hms.canonical hc).sorted⟩
  · have hdocument := Strict.Document.intro blank_nil (Strict.value_render hn) blank_nil
    rwa [List.append_nil] at hdocument
  · have hclear := isClear_of_mem_render hx
    refine ⟨?_, ?_, ?_, ?_⟩
    all_goals
      rintro rfl
      exact absurd hclear (by decide)

/-- An object whose members are given out of order, with a line break, a line separator, an
infinity and stray bytes. -/
def strayObject : Json :=
  ofMembers [([0xFF], .string (utf8 "\n \u2028")),
    (utf8 "k", .number ⟨true, Binary64.infinite, by decide⟩), ([0x80], .array [.null])]

/-- Two of the keys look the same in writing. They come in the order of the bytes that they stand
for. -/
theorem strict_text_strayObject :
    Utf8.decode strayObject.text =
        "\x7b\"k\":-1e999,\"\\ufffd\":[null],\"\\ufffd\":\"\\n \\u2028\"\x7d".toList ∧
      Strict.Document (Utf8.decode strayObject.text) strayObject := by
  have hc : strayObject.Canonical := by
    have harray : Canonical (.array [.null]) := .array (List.forall_mem_singleton.2 .null)
    exact canonical_ofMembers (List.forall_mem_cons.2 ⟨.string _,
      List.forall_mem_cons.2 ⟨.number _, List.forall_mem_singleton.2 harray⟩⟩)
  have hn : strayObject.NoNaN := by
    have hmembers : strayObject = .object [(utf8 "k", .number ⟨true, Binary64.infinite, by decide⟩),
      ([0x80], .array [.null]), ([0xFF], .string (utf8 "\n \u2028"))] := rfl
    have harray : NoNaN (.array [.null]) := noNaN_array.2 (List.forall_mem_singleton.2 noNaN_null)
    rw [hmembers, noNaN_object]
    exact List.forall_mem_cons.2 ⟨noNaN_number.2 (by decide),
      List.forall_mem_cons.2 ⟨harray, List.forall_mem_singleton.2 (noNaN_string _)⟩⟩
  exact ⟨by decide +kernel, (strict_text hc hn).2.1⟩

end Json

end Descent
