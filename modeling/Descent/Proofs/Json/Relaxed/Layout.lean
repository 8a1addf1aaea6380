import Descent.Proofs.Json.Relaxed.Standard

/-!
# Tokens and their layout

A document in standard JSON is a sequence of tokens with white space anywhere
between them. Here the two are taken apart: rules of derivation say which
sequences of tokens are values, and a **layout** puts a gap after each token. The
text of a token, and not the gaps, decides what a value stands for.

* `laid_append`: a layout of two sequences is one of each, one after the other.
* `NestedValue.exists_spells`: all the layouts of a value with white space between
  its tokens stand for the same.
-/

namespace Descent.Json

open Grammar (Separated)
open Relaxed (byte isSpace StringLiteral Word Solid Opens openers marks Padded MemberCore BracketsOf
  asciiHead_of_isSpace blank_spelling)

/-- **A token**: a punctuation mark, or the text of a string, a number or a constant. -/
inductive Token where
  | mark (x : Char)
  | scalar (t : Text)

namespace Token

/-- The bytes of a token. -/
def text : Token → Text
  | .mark x => [byte x]
  | .scalar t => t

/-- A bracket that closes an array or an object. -/
def Closes (k : Token) : Prop := k = .mark ']' ∨ k = .mark '}'

/-- A value may end with the token. -/
def EndsValue (k : Token) : Prop := k.Closes ∨ ∃ t, k = .scalar t

end Token

namespace Tokens

/-! ## Values -/

/-- Items with commas between them, at least one. -/
inductive Items (Item : List Token → Prop) : List Token → Prop where
  | one {ts : List Token} : Item ts → Items Item ts
  | more {ts us : List Token} : Item ts → Items Item us → Items Item (ts ++ .mark ',' :: us)

/-- Items in brackets, or nothing. -/
inductive Bracketed (o c : Char) (Item : List Token → Prop) : List Token → Prop where
  | empty : Bracketed o c Item [.mark o, .mark c]
  | items {ts : List Token} :
      Items Item ts → Bracketed o c Item (.mark o :: (ts ++ [.mark c]))

/-- A key, a colon and a value. -/
inductive Member (Value : List Token → Prop) : List Token → Prop where
  | intro {k : Text} {ts : List Token} :
      StringLiteral k → Value ts → Member Value (.scalar k :: .mark ':' :: ts)

/-- A value whose items are of the given form. -/
inductive ValueOver (Inner : List Token → Prop) : List Token → Prop where
  | string {t : Text} : StringLiteral t → ValueOver Inner [.scalar t]
  | word {t : Text} : Word t → ValueOver Inner [.scalar t]
  | array {ts : List Token} : Bracketed '[' ']' Inner ts → ValueOver Inner ts
  | object {ts : List Token} : Bracketed '{' '}' (Member Inner) ts → ValueOver Inner ts

/-- A value, nested less deep than given. -/
def NestedValue : Nat → List Token → Prop
  | 0 => fun _ => False
  | depth + 1 => ValueOver (NestedValue depth)

/-- **The tokens of a value**, nested as deep as it may be. No comma is after the last item. -/
def Value (ts : List Token) : Prop := ∃ depth, NestedValue depth ts

/-! ## Layouts -/

/-- What may stand between two tokens. There is none before the first and after the last. -/
abbrev Gap := Option Token → Option Token → Text → Prop

/-- White space, between any two tokens. -/
def white : Gap := fun _ _ g => ∀ b ∈ g, isSpace b = true

/-- **Tokens laid out**, each with a gap after it, before the token `after`. -/
inductive Laid (gap : Gap) (after : Option Token) : List Token → Text → Prop where
  | nil : Laid gap after [] []
  | cons {k : Token} {ts : List Token} {g t : Text} :
      gap (some k) (ts.head?.or after) g → Laid gap after ts t →
      Laid gap after (k :: ts) (k.text ++ (g ++ t))

/-- **A layout of a whole text**, which may begin with a gap. -/
inductive LaidOut (gap : Gap) (ts : List Token) : Text → Prop where
  | intro {g t : Text} : gap none ts.head? g → Laid gap none ts t → LaidOut gap ts (g ++ t)

section Laid

variable {gap : Gap} {after : Option Token} {k : Token} {ts us : List Token} {t : Text}

/-- A layout begins with a token and the gap before the next one. -/
theorem laid_cons :
    Laid gap after (k :: ts) t ↔ ∃ g s, t = k.text ++ (g ++ s) ∧
      gap (some k) (ts.head?.or after) g ∧ Laid gap after ts s := by
  constructor
  · intro h
    cases h with
    | cons hg hs => exact ⟨_, _, rfl, hg, hs⟩
  · rintro ⟨g, s, rfl, hg, hs⟩
    exact .cons hg hs

theorem laid_singleton :
    Laid gap after [k] t ↔ ∃ g, t = k.text ++ g ∧ gap (some k) after g := by
  rw [laid_cons]
  constructor
  · rintro ⟨g, s, rfl, hg, ⟨⟩⟩
    exact ⟨g, by rw [List.append_nil], hg⟩
  · rintro ⟨g, rfl, hg⟩
    exact ⟨g, [], by rw [List.append_nil], hg, .nil⟩

/-- **Layouts go one after the other**: what follows the first is how the second begins. -/
theorem laid_append :
    Laid gap after (ts ++ us) t ↔
      ∃ a b, t = a ++ b ∧ Laid gap (us.head?.or after) ts a ∧ Laid gap after us b := by
  induction ts generalizing t with
  | nil =>
    constructor
    · exact fun h => ⟨[], t, rfl, .nil, h⟩
    · rintro ⟨a, b, rfl, ⟨⟩, hb⟩
      exact hb
  | cons k ts ih =>
    have hnext : (ts ++ us).head?.or after = ts.head?.or (us.head?.or after) := by
      rw [List.head?_append, Option.or_assoc]
    rw [List.cons_append, laid_cons, hnext]
    constructor
    · rintro ⟨g, s, rfl, hg, hs⟩
      obtain ⟨a, b, rfl, ha, hb⟩ := ih.1 hs
      exact ⟨k.text ++ (g ++ a), b, by simp only [List.append_assoc], .cons hg ha, hb⟩
    · rintro ⟨a, b, rfl, ha, hb⟩
      obtain ⟨g, s, rfl, hg, hs⟩ := laid_cons.1 ha
      exact ⟨g, s ++ b, by simp only [List.append_assoc], hg, ih.2 ⟨s, b, rfl, hs, hb⟩⟩

end Laid

/-! ## What layouts with white space stand for -/

section Spells

variable {α : Type} {Core : List Char → α → Prop} {Item : List Token → Prop} {ts : List Token}

/-- **Tokens spell the same in every layout** with white space: up to the gap after the last of
them they have the given form. -/
def Spells (Core : List Char → α → Prop) (ts : List Token) (v : α) : Prop :=
  ∀ after t, Laid white after ts t →
    ∃ s g, t = s ++ g ∧ (∀ b ∈ g, isSpace b = true) ∧ Solid s ∧ Core (spelling s) v

theorem Spells.imp {β : Type} {Core' : List Char → β → Prop} {v : α} {v' : β}
    (h : Spells Core ts v) (himp : ∀ s, Core s v → Core' s v') : Spells Core' ts v' := by
  intro after t hlaid
  obtain ⟨s, g, ht, hg, hs, hcore⟩ := h after t hlaid
  exact ⟨s, g, ht, hg, hs, himp _ hcore⟩

theorem spells_scalar {t : Text} {v : α} (hs : Solid t) (h : Core (spelling t) v) :
    Spells Core [.scalar t] v := by
  intro after s hlaid
  obtain ⟨g, rfl, hg⟩ := laid_singleton.1 hlaid
  exact ⟨t, g, rfl, hg, hs, h⟩

/-- Items that are laid out are a list of the syntax. -/
theorem Items.exists_separated (hitem : ∀ ts, Item ts → ∃ v, Spells Core ts v)
    (h : Items Item ts) :
    ∃ vs, ∀ after t, Laid white after ts t →
      Opens t ∧ Separated (Padded Core) (spelling t) vs := by
  induction h with
  | one hi =>
    obtain ⟨v, hv⟩ := hitem _ hi
    refine ⟨[v], fun after t hlaid => ?_⟩
    obtain ⟨s, g, rfl, hg, hs, hcore⟩ := hv after t hlaid
    rw [hs.spelling_append (asciiHead_of_isSpace hg)]
    exact ⟨hs.opens.append g, .one ⟨_, _, rfl, hcore, blank_spelling hg⟩⟩
  | more hi _ ih =>
    obtain ⟨v, hv⟩ := hitem _ hi
    obtain ⟨vs, hvs⟩ := ih
    refine ⟨v :: vs, fun after t hlaid => ?_⟩
    obtain ⟨a, b, rfl, ha, hb⟩ := laid_append.1 hlaid
    obtain ⟨g', b, rfl, hg', hb⟩ := laid_cons.1 hb
    obtain ⟨s, g, rfl, hg, hs, hcore⟩ := hv _ a ha
    obtain ⟨hopens, hsep⟩ := hvs after b hb
    have htext : s ++ g ++ ((Token.mark ',').text ++ (g' ++ b)) =
        s ++ (g ++ byte ',' :: (g' ++ b)) := List.append_assoc _ _ _
    have hpadded : Padded Core (spelling s ++ spelling g) v :=
      ⟨_, _, rfl, hcore, blank_spelling hg⟩
    refine ⟨hs.opens.append _ |>.append _, ?_⟩
    -- the text may be cut at the comma and at what opens the next item
    rw [htext, hs.spelling_append_mark (asciiHead_of_isSpace hg) (by decide),
      Relaxed.spelling_append_opens hopens, ← List.append_assoc, ← List.cons_append,
      ← List.append_assoc]
    exact .more hpadded (blank_spelling hg') hsep

/-- A list in brackets is spelled if its items are. -/
theorem Bracketed.exists_spells {o c : Char} (ho : o ∈ openers) (hc : c ∈ marks)
    (hitem : ∀ ts, Item ts → ∃ v, Spells Core ts v) (h : Bracketed o c Item ts) :
    ∃ vs, Spells (BracketsOf o c Core) ts vs := by
  have hcr : byte c ≠ carriageReturn := by
    have key : ∀ c ∈ marks, byte c ≠ carriageReturn := forall_of_all (by decide)
    exact key c hc
  cases h with
  | empty =>
    refine ⟨[], fun after t hlaid => ?_⟩
    obtain ⟨g, s, rfl, hg, hs⟩ := laid_cons.1 hlaid
    obtain ⟨g', rfl, hg'⟩ := laid_singleton.1 hs
    refine ⟨byte o :: (g ++ [byte c]), g', ?_, hg', Relaxed.solid_brackets ho hcr g, ?_⟩
    · simp [Token.text]
    · rw [Relaxed.spelling_brackets ho hc]
      exact ⟨spelling g, [], rfl, blank_spelling hg, .inl ⟨rfl, rfl⟩⟩
  | items hitems =>
    obtain ⟨vs, hvs⟩ := hitems.exists_separated hitem
    refine ⟨vs, fun after t hlaid => ?_⟩
    obtain ⟨g, s, rfl, hg, hs⟩ := laid_cons.1 hlaid
    obtain ⟨a, b, rfl, ha, hb⟩ := laid_append.1 hs
    obtain ⟨g', rfl, hg'⟩ := laid_singleton.1 hb
    obtain ⟨hopens, hsep⟩ := hvs _ a ha
    refine ⟨byte o :: (g ++ (a ++ [byte c])), g', ?_, hg', ?_, ?_⟩
    · simp [Token.text]
    · rw [← List.append_assoc]
      exact Relaxed.solid_brackets ho hcr _
    · rw [Relaxed.spelling_brackets_items ho hc g hopens]
      exact ⟨spelling g, spelling a, rfl, blank_spelling hg, .inr hsep⟩

/-- A member is spelled if its value is. -/
theorem Member.exists_spells {Inner : List Token → Prop}
    (hvalue : ∀ ts, Inner ts → ∃ v, Spells Syntax.Value ts v) (h : Member Inner ts) :
    ∃ m, Spells MemberCore ts m := by
  cases h with
  | @intro k ts hk hts =>
    obtain ⟨key, hkey⟩ := Relaxed.quoted_of_stringLiteral hk
    obtain ⟨v, hv⟩ := hvalue ts hts
    refine ⟨(key, v), fun after t hlaid => ?_⟩
    obtain ⟨g₁, s, rfl, hg₁, hs⟩ := laid_cons.1 hlaid
    obtain ⟨g₂, s, rfl, hg₂, hs⟩ := laid_cons.1 hs
    obtain ⟨s, g, rfl, hg, hsolid, hcore⟩ := hv after s hs
    have hassoc : k ++ (g₁ ++ byte ':' :: (g₂ ++ s)) = k ++ ((g₁ ++ byte ':' :: g₂) ++ s) := by
      simp only [List.append_assoc, List.cons_append]
    refine ⟨k ++ (g₁ ++ byte ':' :: (g₂ ++ s)), g, ?_, hg, ?_, ?_⟩
    · simp [Token.text]
    · rw [hassoc]
      exact hsolid.append_left hk.solid.opens _
    · rw [hk.solid.spelling_append_mark (asciiHead_of_isSpace hg₁) (by decide),
        Relaxed.spelling_append_opens hsolid.opens]
      exact ⟨_, _, _, _, rfl, hkey, blank_spelling hg₁, blank_spelling hg₂, hcore⟩

end Spells

/-- **Every layout of a value stands for the same**, if there is nothing but white space between
its tokens. -/
theorem NestedValue.exists_spells {depth : Nat} {ts : List Token} (h : NestedValue depth ts) :
    ∃ v, Spells Syntax.Value ts v := by
  induction depth generalizing ts with
  | zero => cases h
  | succ depth ih =>
    have hvalue (ts : List Token) (h : NestedValue depth ts) : ∃ v, Spells Syntax.Value ts v := ih h
    cases h with
    | string hs =>
      obtain ⟨text, hq⟩ := Relaxed.quoted_of_stringLiteral hs
      exact ⟨_, spells_scalar hs.solid (.string hq)⟩
    | word hw =>
      obtain ⟨v, hv, -⟩ := Relaxed.exists_value_of_word hw
      exact ⟨v, spells_scalar hw.solid hv⟩
    | array hb =>
      obtain ⟨vs, hvs⟩ := hb.exists_spells (by decide) (by decide) hvalue
      exact ⟨_, hvs.imp fun _ => BracketsOf.array⟩
    | object hb =>
      obtain ⟨ms, hms⟩ :=
        hb.exists_spells (by decide) (by decide) fun _ hm => hm.exists_spells hvalue
      exact ⟨_, hms.imp fun _ => BracketsOf.object⟩

end Tokens

end Descent.Json
