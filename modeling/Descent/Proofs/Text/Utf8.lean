import Descent.Source.Lines

/-!
# Decoding texts piece by piece

A text is empty, or begins with an encoded character, or with a stray byte, and
`textInduction` proves by these three cases. A byte below `0x80` is never part
of a longer character, so decoding may be cut before it, whatever is on either
side (`decode_append_of_ascii`).

* `encode_decode`: well-formed text is what its characters encode to.
* `mem_of_mem_decode`: an ASCII character of a text is one of its bytes.
-/

namespace Descent.Utf8

/-- **Induction on the pieces of a text.** -/
theorem textInduction {motive : Text → Prop} (nil : motive [])
    (char : ∀ c t, motive t → motive (encodeChar c ++ t))
    (stray : ∀ b t, charAt? (b :: t) = none → motive t → motive (b :: t)) (t : Text) :
    motive t := by
  induction hn : t.length using Nat.strongRecOn generalizing t with
  | ind n ih =>
    subst hn
    cases t with
    | nil => exact nil
    | cons b t =>
      cases hc : charAt? (b :: t) with
      | none => exact stray b t hc (ih t.length (by simp) t rfl)
      | some c =>
        obtain ⟨r, hr⟩ := charAt?_eq_some_iff.1 hc
        have hpos := List.length_pos_iff.2 (encodeChar_ne_nil c)
        have hlen := congrArg List.length hr
        rw [List.length_append] at hlen
        rw [← hr]
        exact char c r (ih r.length (by omega) r rfl)

/-- The bytes of a character after the first are above the ASCII range. -/
theorem le_of_mem_tail_encodeChar {c : Char} {b : UInt8} (h : b ∈ (encodeChar c).tail) :
    0x80 ≤ b.toNat := by
  have key : ∀ n : Nat, 0x80 ≤ (UInt8.ofNat (0x80 + n % 0x40)).toNat := by
    intro n
    rw [UInt8.toNat_ofNat']
    omega
  unfold encodeChar at h
  dsimp only at h
  split at h
  · simp at h
  · split at h
    · simp only [List.tail_cons, List.mem_singleton] at h
      subst h
      exact key _
    · split at h
      · simp only [List.tail_cons, List.mem_cons, List.not_mem_nil, or_false] at h
        rcases h with rfl | rfl <;> exact key _
      · simp only [List.tail_cons, List.mem_cons, List.not_mem_nil, or_false] at h
        rcases h with rfl | rfl | rfl <;> exact key _

/-- What is no character at the head of a text is none before an ASCII byte either. -/
theorem charAt?_append_of_ascii {l r : Text} {b : UInt8} (hb : b.toNat < 0x80) (hl : l ≠ [])
    (h : charAt? l = none) : charAt? (l ++ b :: r) = none := by
  cases hc : charAt? (l ++ b :: r) with
  | none => rfl
  | some c =>
    exfalso
    have hp := charAt?_eq_some_iff.1 hc
    rcases List.prefix_or_prefix_of_prefix hp (List.prefix_append l (b :: r)) with h' | ⟨u, hu⟩
    · rw [charAt?_eq_some_iff.2 h'] at h
      cases h
    -- the encoding goes past `l`, so `b` is one of its later bytes
    · obtain ⟨v, hv⟩ := hp
      rw [← hu, List.append_assoc] at hv
      have hv' := List.append_cancel_left hv
      cases u with
      | nil =>
        rw [List.append_nil] at hu
        have hl' : charAt? l = some c := charAt?_eq_some_iff.2 ⟨[], by rw [List.append_nil, hu]⟩
        rw [hl'] at h
        cases h
      | cons x u =>
        obtain ⟨rfl, -⟩ := List.cons.inj (by simpa using hv' : x :: (u ++ v) = b :: r)
        have hm : x ∈ (encodeChar c).tail := by
          rw [← hu, List.tail_append_of_ne_nil hl]
          simp
        have := le_of_mem_tail_encodeChar hm
        omega

/-- **Decoding may be cut before an ASCII byte.** -/
theorem pieces_append_of_ascii {b : UInt8} (hb : b.toNat < 0x80) (l r : Text) :
    pieces (l ++ b :: r) = pieces l ++ pieces (b :: r) := by
  induction l using textInduction with
  | nil => rfl
  | char c t ih => rw [List.append_assoc, pieces_encodeChar_append, ih, pieces_encodeChar_append,
      List.cons_append]
  | stray a t h ih =>
    have h' : charAt? (a :: (t ++ b :: r)) = none := by
      rw [← List.cons_append]
      exact charAt?_append_of_ascii hb (List.cons_ne_nil a t) h
    rw [List.cons_append, pieces_stray h', ih, pieces_stray h, List.cons_append]

/-- Before an ASCII byte, a text is decoded as if nothing followed. -/
theorem decode_append_of_ascii {b : UInt8} (hb : b.toNat < 0x80) (l r : Text) :
    decode (l ++ b :: r) = decode l ++ decode (b :: r) := by
  unfold decode
  rw [pieces_append_of_ascii hb, List.map_append]

theorem encodeChar_of_ascii {c : Char} (h : c.toNat < 0x80) : encodeChar c = [.ofNat c.toNat] :=
  if_pos h

theorem decode_ascii_cons {c : Char} (h : c.toNat < 0x80) (t : Text) :
    decode (.ofNat c.toNat :: t) = c :: decode t := by
  have := decode_encodeChar_append c t
  rwa [encodeChar_of_ascii h] at this

theorem decode_lineFeed_cons (t : Text) : decode (lineFeed :: t) = '\n' :: decode t :=
  decode_ascii_cons (c := '\n') (by decide) t

/-- A byte that begins no character is replaced. -/
theorem decode_stray {b : UInt8} {t : Text} (h : charAt? (b :: t) = none) :
    decode (b :: t) = replacement :: decode t := by
  unfold decode
  rw [pieces_stray h]
  rfl

/-- What is not empty is decoded to something. -/
theorem decode_ne_nil {t : Text} (h : t ≠ []) : decode t ≠ [] := by
  cases t using textInduction with
  | nil => exact absurd rfl h
  | char c t => simp
  | stray b t hb => simp [decode_stray hb]

/-- An ASCII character of a text is one of its bytes. -/
theorem mem_of_mem_decode {t : Text} {c : Char} (hc : c.toNat < 0x80) (h : c ∈ decode t) :
    .ofNat c.toNat ∈ t := by
  induction t using textInduction with
  | nil => cases h
  | char d t ih =>
    rw [decode_encodeChar_append, List.mem_cons] at h
    rcases h with rfl | h
    · rw [encodeChar_of_ascii hc]
      exact List.mem_cons_self
    · exact List.mem_append_right _ (ih h)
  | stray b t hb ih =>
    rw [decode_stray hb, List.mem_cons] at h
    rcases h with rfl | h
    · exact absurd hc (by decide)
    · exact List.mem_cons_of_mem _ (ih h)

/-- A byte of the ASCII range in the encoding of a character is the whole of it. -/
theorem toNat_eq_of_mem_encodeChar {c : Char} {b : UInt8} (h : b ∈ encodeChar c)
    (hb : b.toNat < 0x80) : c.toNat = b.toNat := by
  by_cases hc : c.toNat < 0x80
  · rw [encodeChar_of_ascii hc, List.mem_singleton] at h
    rw [h, UInt8.toNat_ofNat']
    omega
  · -- the first byte of a longer encoding is out of the range, and so are the others
    exfalso
    have hvalid := toNat_lt c
    have hhead : ∀ x ∈ (encodeChar c).head?, 0x80 ≤ x.toNat := by
      intro x hx
      unfold encodeChar at hx
      simp only [if_neg hc] at hx
      split at hx
      · obtain rfl := Option.some.inj hx
        rw [UInt8.toNat_ofNat']
        omega
      · split at hx
        · obtain rfl := Option.some.inj hx
          rw [UInt8.toNat_ofNat']
          omega
        · obtain rfl := Option.some.inj hx
          rw [UInt8.toNat_ofNat']
          omega
    have htail (x : UInt8) (hx : x ∈ (encodeChar c).tail) := le_of_mem_tail_encodeChar hx
    obtain ⟨x, l, hl⟩ := List.exists_cons_of_ne_nil (encodeChar_ne_nil c)
    rw [hl] at h hhead htail
    rcases List.mem_cons.1 h with rfl | h
    · have := hhead b rfl
      omega
    · have := htail b h
      omega

/-- An ASCII byte occurs in the encoding of its own character only. -/
theorem eq_of_mem_encodeChar {x c : Char} (hx : x.toNat < 0x80)
    (h : .ofNat x.toNat ∈ encodeChar c) : c = x := by
  have hb : (UInt8.ofNat x.toNat).toNat = x.toNat := by
    rw [UInt8.toNat_ofNat']
    omega
  exact Char.toNat_inj.1 ((toNat_eq_of_mem_encodeChar h (by omega)).trans hb)

/-- An ASCII byte of an encoded text is one of its characters. -/
theorem mem_of_mem_encode {cs : List Char} {b : UInt8} (h : b ∈ encode cs)
    (hb : b.toNat < 0x80) : ∃ c ∈ cs, c.toNat = b.toNat := by
  obtain ⟨c, hc, hm⟩ := List.mem_flatMap.1 h
  exact ⟨c, hc, toNat_eq_of_mem_encodeChar hm hb⟩

/-- **Well-formed text is what its characters encode to.** -/
theorem encode_decode {t : Text} (h : isValid t = true) : encode (decode t) = t := by
  induction t using textInduction with
  | nil => rfl
  | char c t ih =>
    have ht : isValid t = true := by
      unfold isValid at h
      rw [pieces_encodeChar_append, List.all_cons] at h
      exact (Bool.and_eq_true_iff.1 h).2
    rw [decode_encodeChar_append, encode_cons, ih ht]
  | stray b t hb ih =>
    unfold isValid at h
    rw [pieces_stray hb] at h
    cases h

/-- **Encoded characters are well-formed.** -/
theorem isValid_encode (cs : List Char) : isValid (encode cs) = true := by
  induction cs with
  | nil => rfl
  | cons c cs ih =>
    unfold isValid at ih ⊢
    rw [encode_cons, pieces_encodeChar_append, List.all_cons, ih]
    rfl

/-- **A text comes back from its characters** exactly if it is well-formed. -/
theorem encode_decode_eq_self_iff {t : Text} : encode (decode t) = t ↔ isValid t = true := by
  constructor
  · intro h
    rw [← h]
    exact isValid_encode _
  · exact encode_decode

/-- A text that decodes without a replacement character is well-formed. -/
theorem encode_decode_of_not_mem {t : Text} (h : replacement ∉ decode t) :
    encode (decode t) = t := by
  induction t using textInduction with
  | nil => rfl
  | char c t ih =>
    rw [decode_encodeChar_append] at h ⊢
    rw [encode_cons, ih fun hm => h (List.mem_cons_of_mem _ hm)]
  | stray b t hb ih =>
    rw [decode_stray hb] at h
    exact absurd List.mem_cons_self h

end Descent.Utf8
