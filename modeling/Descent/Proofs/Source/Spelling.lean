import Descent.Proofs.Source.Coherence
import Descent.Proofs.Text.CodePoint

/-!
# Spelling a text piece by piece

The characters of a text are those of its parts, one after the other, unless the
text is cut within a line break or within a character. A cut before an ASCII byte
is never within a character, and it is within a line break only between a
carriage return and a line feed.

* `unifyBreaks_append`: unifying line breaks, part by part.
* `spelling_append`, `spelling_cons`: spelling a text, part by part.
* `spelling_encode_append`: encoded characters come back, whatever text follows.
-/

namespace Descent

/-- **The characters of a text**, its line breaks unified. -/
def spelling (t : Text) : List Char := Utf8.decode (unifyBreaks t)

theorem sourceChars_eq {t : Text} (h : t ≠ []) : sourceChars t = spelling t ++ ['\n'] := if_neg h

/-! ## Line breaks -/

theorem unifyBreaks_cons {b : UInt8} (hb : b ≠ carriageReturn) (t : Text) :
    unifyBreaks (b :: t) = b :: unifyBreaks t := by
  cases t with
  | nil => rfl
  | cons c t => rw [unifyBreaks, if_neg fun h => hb h.1]

/-- **Line breaks are unified part by part**, if none of them is cut. -/
theorem unifyBreaks_append {a b : Text}
    (h : a.getLast? = some carriageReturn → b.head? ≠ some lineFeed) :
    unifyBreaks (a ++ b) = unifyBreaks a ++ unifyBreaks b := by
  -- on the first part, with the cases of the definition
  induction a using unifyBreaks.induct with
  | case1 => rfl
  | case2 x =>
    cases b with
    | nil => rfl
    | cons y b =>
      -- at the border, where a break would be cut
      have hxy : ¬ (x = carriageReturn ∧ y = lineFeed) := by
        rintro ⟨rfl, rfl⟩
        exact h rfl rfl
      show unifyBreaks (x :: y :: b) = x :: unifyBreaks (y :: b)
      rw [unifyBreaks, if_neg hxy]
  | case3 x y t hxy ih =>
    have ht : t.getLast? = some carriageReturn → b.head? ≠ some lineFeed := by
      intro hlast
      refine h ?_
      rw [List.getLast?_cons, List.getLast?_cons, hlast]
      rfl
    rw [List.cons_append, List.cons_append, unifyBreaks, if_pos hxy, unifyBreaks, if_pos hxy,
      ih ht, List.cons_append]
  | case4 x y t hxy ih =>
    rw [List.getLast?_cons_cons] at h
    rw [List.cons_append, List.cons_append, unifyBreaks, if_neg hxy, unifyBreaks, if_neg hxy,
      ← List.cons_append, ih h, List.cons_append]

/-- Nothing is put in where the ends of lines are made the same. -/
theorem mem_of_mem_unifyBreaks {t : Text} {b : UInt8} (h : b ∈ unifyBreaks t) : b ∈ t := by
  induction t using unifyBreaks.induct with
  | case1 => exact h
  | case2 x => exact h
  | case3 x y t hxy ih =>
    rw [unifyBreaks, if_pos hxy, ← hxy.2, List.mem_cons] at h
    rcases h with rfl | h
    · exact List.mem_cons_of_mem _ List.mem_cons_self
    · exact List.mem_cons_of_mem _ (List.mem_cons_of_mem _ (ih h))
  | case4 x y t hxy ih =>
    rw [unifyBreaks, if_neg hxy, List.mem_cons] at h
    rcases h with rfl | h
    · exact List.mem_cons_self
    · exact List.mem_cons_of_mem _ (ih h)

/-- The first byte stays, unless it is the carriage return of a line break. -/
theorem head_unifyBreaks {t : Text} {b : UInt8} (h : b ∈ (unifyBreaks t).head?) :
    b ∈ t.head? ∨ b = lineFeed := by
  cases t using unifyBreaks.fun_cases with
  | case1 => cases h
  | case2 x => exact .inl h
  | case3 x y t hxy =>
    rw [unifyBreaks, if_pos hxy] at h
    exact .inr (Option.some.inj h).symm
  | case4 x y t hxy =>
    rw [unifyBreaks, if_neg hxy] at h
    exact .inl h

/-! ## Characters -/

/-- An ASCII byte comes first, if any. -/
def AsciiHead (t : Text) : Prop := ∀ b ∈ t.head?, b.toNat < 0x80

theorem asciiHead_cons {b : UInt8} (h : b.toNat < 0x80) (t : Text) : AsciiHead (b :: t) := by
  intro y hy
  obtain rfl := Option.some.inj hy
  exact h

theorem AsciiHead.append {a b : Text} (ha : AsciiHead a) (hb : AsciiHead b) :
    AsciiHead (a ++ b) := by
  cases a with
  | nil => exact hb
  | cons x a => exact ha

/-- Before ASCII, a text is decoded as if nothing followed. -/
theorem decode_append_of_head {a b : Text} (hb : AsciiHead b) :
    Utf8.decode (a ++ b) = Utf8.decode a ++ Utf8.decode b := by
  cases b with
  | nil => rw [List.append_nil, Utf8.decode_nil, List.append_nil]
  | cons y b => exact Utf8.decode_append_of_ascii (hb y rfl) a b

/-- **A text is spelled part by part**, if it is cut before an ASCII byte and not within a line
break. -/
theorem spelling_append {a b : Text} (hb : AsciiHead b)
    (h : a.getLast? = some carriageReturn → b.head? ≠ some lineFeed) :
    spelling (a ++ b) = spelling a ++ spelling b := by
  unfold spelling
  rw [unifyBreaks_append h]
  refine decode_append_of_head fun y hy => ?_
  rcases head_unifyBreaks hy with hy | rfl
  · exact hb y hy
  · decide

/-- An ASCII character that is no carriage return is spelled by its byte. -/
theorem spelling_cons {x : Char} (hx : x.toNat < 0x80) (hcr : x ≠ '\r') (t : Text) :
    spelling (.ofNat x.toNat :: t) = x :: spelling t := by
  have hb : UInt8.ofNat x.toNat ≠ carriageReturn := by
    intro he
    have hn := congrArg UInt8.toNat he
    rw [UInt8.toNat_ofNat', Nat.mod_eq_of_lt (by omega)] at hn
    exact hcr (Char.toNat_inj.1 hn)
  unfold spelling
  rw [unifyBreaks_cons hb, Utf8.decode_ascii_cons hx]

/-- Without carriage returns, the spelling is what is decoded. -/
theorem spelling_of_not_mem {t : Text} (h : carriageReturn ∉ t) : spelling t = Utf8.decode t := by
  unfold spelling
  rw [unifyBreaks_of_not_mem h]

/-- Characters without a carriage return are the spelling of their encoding. -/
theorem spelling_encode {cs : List Char} (h : '\r' ∉ cs) : spelling (Utf8.encode cs) = cs := by
  rw [spelling_of_not_mem (carriageReturn_not_mem_encode h), Utf8.decode_encode]

/-- An ASCII byte comes first in an encoding only if its character does. -/
theorem head?_of_head?_encode {x : Char} (hx : x.toNat < 0x80) {cs : List Char}
    (h : (Utf8.encode cs).head? = some (.ofNat x.toNat)) : cs.head? = some x := by
  cases cs with
  | nil => cases h
  | cons y cs =>
    obtain ⟨b, bs, hb⟩ := List.exists_cons_of_ne_nil (Utf8.encodeChar_ne_nil y)
    rw [Utf8.encode_cons, hb] at h
    have hm : .ofNat x.toNat ∈ Utf8.encodeChar y := by
      rw [hb, ← Option.some.inj h]
      exact List.mem_cons_self
    rw [Utf8.eq_of_mem_encodeChar hx hm]
    rfl

/-- An ASCII byte comes last in an encoding only if its character does. -/
theorem getLast?_of_getLast?_encode {x : Char} (hx : x.toNat < 0x80) {cs : List Char}
    (h : (Utf8.encode cs).getLast? = some (.ofNat x.toNat)) : cs.getLast? = some x := by
  obtain rfl | ⟨ds, y, rfl⟩ := List.eq_nil_or_concat cs
  · cases h
  · rw [List.concat_eq_append, Utf8.encode_append, List.getLast?_append] at h
    have hy : (Utf8.encode [y]).getLast? = some (.ofNat x.toNat) := by
      rw [List.getLast?_eq_some_getLast (by simpa using Utf8.encodeChar_ne_nil y)] at h ⊢
      exact h
    have hm : .ofNat x.toNat ∈ Utf8.encodeChar y := by simpa using List.mem_of_getLast? hy
    rw [List.concat_eq_append, List.getLast?_concat, Utf8.eq_of_mem_encodeChar hx hm]

/-- A character is no line break of two characters, so nothing is unified in its bytes. -/
theorem unifyBreaks_encodeChar (x : Char) :
    unifyBreaks (Utf8.encodeChar x) = Utf8.encodeChar x := by
  by_cases hx : x = '\r'
  · rw [hx]
    rfl
  · exact unifyBreaks_of_not_mem fun hm => hx (Utf8.eq_of_mem_encodeChar (by decide) hm)

/-- **Characters are encoded as unified**, if no line break of two characters is among them. -/
theorem unifyBreaks_encode {cs : List Char} (h : ¬ ['\r', '\n'] <:+: cs) :
    unifyBreaks (Utf8.encode cs) = Utf8.encode cs := by
  induction cs with
  | nil => rfl
  | cons x cs ih =>
    have htail : ¬ ['\r', '\n'] <:+: cs := fun hi => h (List.infix_cons hi)
    have hcut : (Utf8.encodeChar x).getLast? = some carriageReturn →
        (Utf8.encode cs).head? ≠ some lineFeed := by
      intro hlast hhead
      have hx : x = '\r' := Utf8.eq_of_mem_encodeChar (by decide) (List.mem_of_getLast? hlast)
      obtain ⟨ds, rfl⟩ := List.head?_eq_some_iff.1
        (head?_of_head?_encode (x := '\n') (by decide) hhead)
      exact h ⟨[], ds, by rw [hx]; rfl⟩
    rw [Utf8.encode_cons, unifyBreaks_append hcut, unifyBreaks_encodeChar, ih htail]

/-- **Encoded characters are spelled as they are**, whatever text follows, if no line break of two
characters is among them or cut at their end. -/
theorem spelling_encode_append {cs : List Char} (h : ¬ ['\r', '\n'] <:+: cs)
    (hlast : cs.getLast? ≠ some '\r') (t : Text) :
    spelling (Utf8.encode cs ++ t) = cs ++ spelling t := by
  have hcut : (Utf8.encode cs).getLast? = some carriageReturn → t.head? ≠ some lineFeed :=
    fun hl => absurd (getLast?_of_getLast?_encode (x := '\r') (by decide) hl) hlast
  unfold spelling
  rw [unifyBreaks_append hcut, unifyBreaks_encode h, Utf8.decode_encode_append]

/-- The characters of an ASCII text are its bytes. -/
theorem decode_of_forall_ascii {t : Text} (h : ∀ b ∈ t, b.toNat < 0x80) :
    Utf8.decode t = t.map fun b => Char.ofNat b.toNat := by
  induction t with
  | nil => rfl
  | cons b t ih =>
    have hb : b.toNat < 0x80 := h b List.mem_cons_self
    have hchar : (Char.ofNat b.toNat).toNat = b.toNat := by
      obtain ⟨c, hc⟩ := CodePoint.exists_char (n := b.toNat) (.inl (by omega))
      rw [← hc, Char.ofNat_toNat]
    have hbyte : UInt8.ofNat (Char.ofNat b.toNat).toNat = b := by rw [hchar, UInt8.ofNat_toNat]
    have hcons := Utf8.decode_ascii_cons (c := Char.ofNat b.toNat) (by omega) t
    rw [hbyte] at hcons
    rw [hcons, ih fun c hc => h c (List.mem_cons_of_mem _ hc), List.map_cons]

/-- The characters of an ASCII text are among its bytes. -/
theorem exists_of_mem_spelling {t : Text} (h : ∀ b ∈ t, b.toNat < 0x80) {x : Char}
    (hx : x ∈ spelling t) : ∃ b ∈ t, x = Char.ofNat b.toNat := by
  unfold spelling at hx
  rw [decode_of_forall_ascii fun b hb => h b (mem_of_mem_unifyBreaks hb)] at hx
  obtain ⟨b, hb, rfl⟩ := List.mem_map.1 hx
  exact ⟨b, mem_of_mem_unifyBreaks hb, rfl⟩

end Descent
