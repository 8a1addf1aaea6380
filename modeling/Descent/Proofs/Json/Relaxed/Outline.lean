import Descent.Proofs.Json.Numeral
import Descent.Proofs.Json.Relaxed.Syntax
import Descent.Proofs.Text.Utf8

/-!
# The outline of relaxed documents

What can be told of the parts of a relaxed document from their first and last
bytes, and from their length. Values and members begin with one of a few
characters and do not end within a line break (`Solid`); white space and comments
begin with neither of these; and a value is nested less deep than it is long.

* `ValueOver.solid`, `solidForm_member`: values and members are solid.
* `Extra.plain_or_comment`: white space, as it stands, or a comment somewhere.
* `Overwrites.of_document`: a standard form has spaces in place of some bytes, and
  no other change.
* `nestedValue_of_lt`: the length of a value bounds its depth.
-/

namespace Descent.Json.Relaxed

open Grammar

/-! ## White space and comments -/

theorem isSpace_blank (b : UInt8) : isSpace (blank b) = true := by
  unfold blank
  split
  · assumption
  · decide

section Extra

variable {e x : Text}

/-- Nothing but white space is left of white space and comments. -/
theorem Extra.isSpace_of_mem (h : Extra e x) : ∀ b ∈ x, isSpace b = true := by
  induction h with
  | nil => exact fun b hb => nomatch hb
  | space hb _ ih => exact List.forall_mem_cons.2 ⟨hb, ih⟩
  | comment _ _ _ ih =>
    intro b hb
    rcases List.mem_append.1 hb with hb | hb
    · obtain ⟨a, -, rfl⟩ := List.mem_map.1 hb
      exact isSpace_blank a
    · exact ih b hb

theorem Comment.exists_eq_cons {c : Text} (h : Comment c) : ∃ c', c = byte '/' :: c' := by
  cases h with
  | line _ => exact ⟨_, rfl⟩
  | block _ => exact ⟨_, rfl⟩

/-- White space and comments begin with white space or with a slash. -/
theorem Extra.head (h : Extra e x) : ∀ b ∈ e.head?, isSpace b = true ∨ b = byte '/' := by
  intro b hb
  cases h with
  | nil => cases hb
  | space hs _ =>
    obtain rfl := Option.some.inj hb
    exact .inl hs
  | comment hc _ _ =>
    obtain ⟨c, rfl⟩ := hc.exists_eq_cons
    obtain rfl := Option.some.inj hb
    exact .inr rfl

/-- **White space stays as it is**, unless there is a comment in it. -/
theorem Extra.plain_or_comment (h : Extra e x) :
    (x = e ∧ ∀ b ∈ e, isSpace b = true) ∨
      ∃ a c, e = a ++ byte '/' :: c ∧ ∀ b ∈ a, isSpace b = true := by
  induction h with
  | nil => exact .inl ⟨rfl, fun b hb => nomatch hb⟩
  | space hb _ ih =>
    rcases ih with ⟨rfl, hspace⟩ | ⟨a, c, rfl, hspace⟩
    · exact .inl ⟨rfl, List.forall_mem_cons.2 ⟨hb, hspace⟩⟩
    · exact .inr ⟨_ :: a, c, rfl, List.forall_mem_cons.2 ⟨hb, hspace⟩⟩
  | comment hc _ _ _ =>
    obtain ⟨c, rfl⟩ := hc.exists_eq_cons
    exact .inr ⟨[], _, rfl, fun b hb => nomatch hb⟩

end Extra

/-! ## The first and the last byte -/

/-- The characters that a value may begin with. -/
def openers : List Char := ['"', '[', '{', 'n', 't', 'f', '-'] ++ digitChars

/-- A text begins as a value does. -/
def Opens (t : Text) : Prop := ∃ x ∈ openers, ∃ s, t = byte x :: s

theorem Opens.append {t : Text} (h : Opens t) (s : Text) : Opens (t ++ s) := by
  obtain ⟨x, hx, r, rfl⟩ := h
  exact ⟨x, hx, r ++ s, rfl⟩

/-- **A solid text** begins as a value does, and no line break is cut at its end. -/
structure Solid (t : Text) : Prop where
  opens : Opens t
  last_ne : t.getLast? ≠ some carriageReturn

/-- A form that only solid texts have. -/
def SolidForm (Item : Text → Text → Prop) : Prop := ∀ t w, Item t w → Solid t ∧ Solid w

/-- A text in brackets is solid. -/
theorem solid_brackets {o c : Char} (ho : o ∈ openers) (hc : byte c ≠ carriageReturn) (m : Text) :
    Solid (byte o :: (m ++ [byte c])) where
  opens := ⟨o, ho, _, rfl⟩
  last_ne := by
    rw [List.getLast?_cons, List.getLast?_concat]
    exact fun h => hc (Option.some.inj h)

/-- A solid text is solid with something before it that opens a value. -/
theorem Solid.append_left {t : Text} (h : Solid t) {k : Text} (hk : Opens k) (m : Text) :
    Solid (k ++ (m ++ t)) where
  opens := hk.append _
  last_ne := by
    obtain ⟨x, -, s, ht⟩ := h.opens
    have hlast : t.getLast? = some (s.getLast?.getD (byte x)) := by rw [ht, List.getLast?_cons]
    have hne := h.last_ne
    rw [hlast] at hne
    rw [List.getLast?_append, List.getLast?_append, hlast, Option.some_or, Option.some_or]
    exact hne

theorem StringLiteral.solid {t : Text} (h : StringLiteral t) : Solid t := by
  obtain ⟨-⟩ := h
  exact solid_brackets (by decide) (by decide) _

theorem isWordByte_of_mem_numberChars {x : Char} (h : x ∈ numberChars) :
    Utf8.encodeChar x = [byte x] ∧ isWordByte (byte x) = true := by
  have key : ∀ x ∈ numberChars, x.toNat < 0x80 ∧ isWordByte (byte x) = true :=
    forall_of_all (by decide)
  exact ⟨Utf8.encodeChar_of_ascii (key x h).1, (key x h).2⟩

/-- A word is made of bytes of words. -/
theorem isWordByte_of_word {t : Text} (h : Word t) : ∀ b ∈ t, isWordByte b = true := by
  cases h with
  | null => exact forall_of_all (by decide)
  | true => exact forall_of_all (by decide)
  | false => exact forall_of_all (by decide)
  | number hn =>
    intro b hb
    obtain ⟨x, hx, hm⟩ := List.mem_flatMap.1 hb
    obtain ⟨henc, hbyte⟩ := isWordByte_of_mem_numberChars (mem_numberChars hn hx)
    rw [henc, List.mem_singleton] at hm
    rw [hm]
    exact hbyte

/-- A word begins with a character that opens a value. -/
theorem opens_of_word {t : Text} (h : Word t) :
    ∃ x ∈ openers, isWordByte (byte x) = true ∧ ∃ s, t = byte x :: s := by
  cases h with
  | null => exact ⟨'n', by decide, by decide, _, rfl⟩
  | true => exact ⟨'t', by decide, by decide, _, rfl⟩
  | false => exact ⟨'f', by decide, by decide, _, rfl⟩
  | number hn =>
    obtain ⟨x, w, rfl, hx⟩ := head_of_number hn
    obtain ⟨henc, hbyte⟩ := isWordByte_of_mem_numberChars (mem_numberChars hn List.mem_cons_self)
    refine ⟨x, ?_, hbyte, Utf8.encode w, ?_⟩
    · rw [beginsNumber, Bool.or_eq_true] at hx
      rcases hx with hx | hx
      · rw [eq_of_beq hx]
        decide
      · exact List.mem_append_right _ (mem_digitChars hx)
    · rw [Utf8.encode_cons, henc, List.singleton_append]

/-- A word is solid. -/
theorem Word.solid {t : Text} (h : Word t) : Solid t where
  opens := by
    obtain ⟨x, hx, -, s, rfl⟩ := opens_of_word h
    exact ⟨x, hx, s, rfl⟩
  last_ne := by
    intro hlast
    have hcr := isWordByte_of_word h carriageReturn (List.mem_of_getLast? hlast)
    exact absurd hcr (by decide)

section Value

variable {Item Inner : Text → Text → Prop} {t w : Text}

theorem Bracketed.exists_eq_cons {o c : UInt8} (h : Bracketed o c Item t w) : ∃ s, t = o :: s := by
  cases h with
  | empty _ => exact ⟨_, rfl⟩
  | items _ _ => exact ⟨_, rfl⟩

/-- A list in brackets is solid, and so is its standard form. -/
theorem Bracketed.solid {o c : Char} (h : Bracketed (byte o) (byte c) Item t w) (ho : o ∈ openers)
    (hc : byte c ≠ carriageReturn) : Solid t ∧ Solid w := by
  cases h with
  | empty _ => exact ⟨solid_brackets ho hc _, solid_brackets ho hc _⟩
  | items _ _ =>
    rw [← List.append_assoc, ← List.append_assoc]
    exact ⟨solid_brackets ho hc _, solid_brackets ho hc _⟩

/-- **Values are solid**, whatever their items are. -/
theorem ValueOver.solid (h : ValueOver Inner t w) : Solid t ∧ Solid w := by
  cases h with
  | string h => exact ⟨h.solid, h.solid⟩
  | word h => exact ⟨h.solid, h.solid⟩
  | array h => exact h.solid (by decide) (by decide)
  | object h => exact h.solid (by decide) (by decide)

/-- **Values are solid, and so are their standard forms**, by induction on the depth. -/
theorem solidForm_nestedValue (depth : Nat) : SolidForm (NestedValue depth) := by
  intro t w h
  cases depth with
  | zero => cases h
  | succ depth => exact ValueOver.solid h

/-- **Members are solid** if values are. -/
theorem solidForm_member (hv : SolidForm Inner) : SolidForm (Member Inner) := by
  intro t w h
  cases h with
  | @intro k e₁ x₁ e₂ x₂ t w hk _ _ ht =>
    have hassoc (a b v : Text) :
        k ++ (a ++ byte ':' :: (b ++ v)) = k ++ ((a ++ byte ':' :: b) ++ v) := by
      simp only [List.append_assoc, List.cons_append]
    rw [hassoc, hassoc]
    exact ⟨(hv t w ht).1.append_left hk.solid.opens _, (hv t w ht).2.append_left hk.solid.opens _⟩

/-- A list begins with something that opens a value, and so does its standard form. -/
theorem Items.opens (hitem : SolidForm Item) (h : Items Item t w) : Opens t ∧ Opens w := by
  cases h with
  | last hi _ => exact ⟨(hitem _ _ hi).1.opens.append _, (hitem _ _ hi).2.opens.append _⟩
  | trailing hi _ _ => exact ⟨(hitem _ _ hi).1.opens.append _, (hitem _ _ hi).2.opens.append _⟩
  | more hi _ _ _ => exact ⟨(hitem _ _ hi).1.opens.append _, (hitem _ _ hi).2.opens.append _⟩

end Value

/-! ## What is written over -/

/-- **One text is written over another**, byte for byte: a byte is kept, or it becomes a space.
Line feeds are kept. -/
inductive Overwrites : Text → Text → Prop where
  | nil : Overwrites [] []
  | keep {b : UInt8} {t w : Text} : Overwrites t w → Overwrites (b :: t) (b :: w)
  | blank {b : UInt8} {t w : Text} :
      b ≠ byte '\n' → Overwrites t w → Overwrites (b :: t) (byte ' ' :: w)

namespace Overwrites

variable {t w t' w' : Text}

theorem refl (t : Text) : Overwrites t t := by
  induction t with
  | nil => exact .nil
  | cons b t ih => exact .keep ih

/-- Parts may be overwritten one by one. -/
theorem append (h : Overwrites t w) (h' : Overwrites t' w') : Overwrites (t ++ t') (w ++ w') := by
  induction h with
  | nil => exact h'
  | keep _ ih => exact .keep ih
  | blank hb _ ih => exact .blank hb ih

/-- A comment is overwritten by white space. -/
theorem map_blank (c : Text) : Overwrites c (c.map Relaxed.blank) := by
  induction c with
  | nil => exact .nil
  | cons b c ih =>
    rw [List.map_cons]
    by_cases hb : isSpace b = true
    · have hkeep : Relaxed.blank b = b := if_pos hb
      rw [hkeep]
      exact .keep ih
    · have hblank : Relaxed.blank b = byte ' ' := if_neg hb
      rw [hblank]
      refine .blank (fun he => hb ?_) ih
      rw [he]
      decide

/-- White space and comments are overwritten by white space. -/
theorem of_extra (h : Extra t w) : Overwrites t w := by
  induction h with
  | nil => exact .nil
  | space _ _ ih => exact .keep ih
  | comment _ _ _ ih => exact (map_blank _).append ih

/-- Items are overwritten by their standard forms, and trailing commas by white space. -/
theorem of_items {Item : Text → Text → Prop} (hitem : ∀ t w, Item t w → Overwrites t w)
    (h : Items Item t w) : Overwrites t w := by
  induction h with
  | last hi he => exact (hitem _ _ hi).append (of_extra he)
  | trailing hi he he' =>
    exact (hitem _ _ hi).append ((of_extra he).append (.blank (by decide) (of_extra he')))
  | more hi he he' _ ih =>
    exact (hitem _ _ hi).append ((of_extra he).append (.keep ((of_extra he').append ih)))

/-- A list in brackets is overwritten if its items are. -/
theorem of_bracketed {Item : Text → Text → Prop} (hitem : ∀ t w, Item t w → Overwrites t w)
    {o c : UInt8} (h : Bracketed o c Item t w) : Overwrites t w := by
  cases h with
  | empty he => exact .keep ((of_extra he).append (refl _))
  | items he hi => exact .keep ((of_extra he).append ((of_items hitem hi).append (refl _)))

/-- A member is overwritten if its value is. -/
theorem of_member {Inner : Text → Text → Prop} (hinner : ∀ t w, Inner t w → Overwrites t w)
    (h : Member Inner t w) : Overwrites t w := by
  cases h with
  | intro _ he₁ he₂ hv =>
    exact (refl _).append ((of_extra he₁).append (.keep ((of_extra he₂).append (hinner _ _ hv))))

/-- A value is overwritten by its standard form. -/
theorem of_nestedValue {depth : Nat} (h : NestedValue depth t w) : Overwrites t w := by
  induction depth generalizing t w with
  | zero => cases h
  | succ depth ih =>
    cases h with
    | string _ => exact refl t
    | word _ => exact refl t
    | array hb => exact of_bracketed (fun _ _ => ih) hb
    | object hb => exact of_bracketed (fun _ _ => of_member fun _ _ => ih) hb

/-- **A standard form is written over its document.** -/
theorem of_document (h : Document t w) : Overwrites t w := by
  obtain ⟨he, ⟨depth, hv⟩, he'⟩ := h
  exact (of_extra he).append ((of_nestedValue hv).append (of_extra he'))

end Overwrites

/-! ## Depth -/

section Depth

variable {P Q : Text → Text → Prop} {t w : Text}

/-- A property of items may be replaced, for items no longer than the list. -/
theorem Items.imp (h : Items P t w)
    (hpq : ∀ t' w', t'.length ≤ t.length → P t' w' → Q t' w') : Items Q t w := by
  induction h with
  | last hp he => exact .last (hpq _ _ (by simp) hp) he
  | trailing hp he he' => exact .trailing (hpq _ _ (by simp) hp) he he'
  | more hp he he' _ ih =>
    refine .more (hpq _ _ (by simp) hp) he he' (ih fun t' w' hlen => hpq t' w' ?_)
    simp only [List.length_append, List.length_cons]
    omega

/-- A property of items may be replaced, for items shorter than the list in brackets. -/
theorem Bracketed.imp {o c : UInt8} (h : Bracketed o c P t w)
    (hpq : ∀ t' w', t'.length < t.length → P t' w' → Q t' w') : Bracketed o c Q t w := by
  cases h with
  | empty he => exact .empty he
  | items he hi =>
    refine .items he (hi.imp fun t' w' hlen => hpq t' w' ?_)
    simp only [List.length_append, List.length_cons]
    omega

/-- A property of values may be replaced, for values shorter than the member. -/
theorem Member.imp (h : Member P t w)
    (hpq : ∀ t' w', t'.length < t.length → P t' w' → Q t' w') : Member Q t w := by
  cases h with
  | intro hk he₁ he₂ hp =>
    refine .intro hk he₁ he₂ (hpq _ _ ?_ hp)
    simp only [List.length_append, List.length_cons]
    omega

/-- **A value is nested less deep than it is long.** -/
theorem nestedValue_of_lt {depth : Nat} (h : NestedValue depth t w) {n : Nat} (hn : t.length < n) :
    NestedValue n t w := by
  induction n generalizing depth t w with
  | zero => omega
  | succ n ih =>
    cases depth with
    | zero => cases h
    | succ depth =>
      -- an item is shorter than the brackets it is in
      have hitem (t' w' : Text) (hlen : t'.length < t.length) (h' : NestedValue depth t' w') :
          NestedValue n t' w' := ih h' (by omega)
      cases h with
      | string hs => exact .string hs
      | word hw => exact .word hw
      | array hb => exact .array (hb.imp hitem)
      | object hb =>
        refine .object (hb.imp fun t' w' hlen hm => hm.imp fun t'' w'' hlen' => hitem t'' w'' ?_)
        omega

end Depth

end Descent.Json.Relaxed
