import Descent.Proofs.Json.Relaxed.Outline

/-!
# Reading white space, comments and literals

`Reads` says what a reader does: it takes every text of a form from the front of
a longer one, if what follows cannot be mistaken for a part of it, and it takes
nothing that has not the form. Both directions are put together by `Reads.seq`
for one reader after another.

* `reads_extra`: white space and comments.
* `reads_string`, `reads_word`: literals.
-/

namespace Descent.Json.Relaxed

open Grammar

/-! ## Readers and forms -/

/-- **A reader reads a form**: it takes the texts of the form before any rest that does not go on
with them, and nothing else. -/
structure Reads (r : Reader) (Form : Text → Text → Prop) (Ends : Text → Prop) : Prop where
  append : ∀ t w rest, Form t w → Ends rest → r (t ++ rest) = some (w, rest)
  of_read : ∀ s w rest, r s = some (w, rest) → ∃ t, s = t ++ rest ∧ Form t w

/-- Texts of one form, and of another after it. -/
def Then (F G : Text → Text → Prop) (t w : Text) : Prop :=
  ∃ t₁ w₁ t₂ w₂, t = t₁ ++ t₂ ∧ w = w₁ ++ w₂ ∧ F t₁ w₁ ∧ G t₂ w₂

/-- One byte, which is kept. -/
def Single (b : UInt8) (t w : Text) : Prop := t = [b] ∧ w = [b]

section Reads

variable {r s : Reader} {F F' G : Text → Text → Prop} {E E' : Text → Prop}

/-- Readers that follow one another succeed if both do. -/
theorem seq_eq_some {t w rest : Text} :
    (r.seq s) t = some (w, rest) ↔
      ∃ w₁ t' w₂, r t = some (w₁, t') ∧ s t' = some (w₂, rest) ∧ w = w₁ ++ w₂ := by
  unfold Reader.seq
  constructor
  · intro h
    split at h
    · cases h
    · rename_i w₁ t' hr
      split at h
      · cases h
      · rename_i w₂ t'' hs
        obtain ⟨rfl, rfl⟩ := Prod.mk.inj (Option.some.inj h)
        exact ⟨w₁, t', w₂, hr, hs, rfl⟩
  · rintro ⟨w₁, t', w₂, hr, hs, rfl⟩
    simp only [hr, hs]

/-- **One reader after another**, if what the second takes does not go on with the first. -/
theorem Reads.seq (hr : Reads r F E) (hs : Reads s G E')
    (hd : ∀ t w rest, G t w → E' rest → E (t ++ rest)) : Reads (r.seq s) (Then F G) E' where
  append := by
    rintro t w rest ⟨t₁, w₁, t₂, w₂, rfl, rfl, hf, hg⟩ he
    refine seq_eq_some.2 ⟨w₁, t₂ ++ rest, w₂, ?_, hs.append t₂ w₂ rest hg he, rfl⟩
    rw [List.append_assoc]
    exact hr.append t₁ w₁ _ hf (hd t₂ w₂ rest hg he)
  of_read := by
    intro t w rest h
    obtain ⟨w₁, t', w₂, h₁, h₂, rfl⟩ := seq_eq_some.1 h
    obtain ⟨t₁, rfl, hf⟩ := hr.of_read _ _ _ h₁
    obtain ⟨t₂, rfl, hg⟩ := hs.of_read _ _ _ h₂
    exact ⟨t₁ ++ t₂, (List.append_assoc _ _ _).symm, t₁, w₁, t₂, w₂, rfl, rfl, hf, hg⟩

theorem Reads.congr (hr : Reads r F E) (hf : ∀ t w, F t w ↔ F' t w) : Reads r F' E where
  append t w rest h := hr.append t w rest ((hf t w).2 h)
  of_read t w rest h := by
    obtain ⟨t₁, ht, hf₁⟩ := hr.of_read t w rest h
    exact ⟨t₁, ht, (hf t₁ w).1 hf₁⟩

theorem reads_keep (b : UInt8) : Reads (Reader.keep b) (Single b) fun _ => True where
  append := by
    rintro t w rest ⟨rfl, rfl⟩ -
    exact if_pos rfl
  of_read := by
    intro t w rest h
    cases t with
    | nil => cases h
    | cons a t =>
      rw [Reader.keep] at h
      split at h
      · rename_i hab
        subst hab
        obtain ⟨rfl, rfl⟩ := Prod.mk.inj (Option.some.inj h)
        exact ⟨[a], rfl, rfl, rfl⟩
      · cases h

end Reads

/-! ## Comments -/

/-- A comment to the end of the line is split at the first line feed. -/
theorem splitLine?_eq_some {s c rest : Text} :
    splitLine? s = some (c, rest) ↔
      ∃ b, byte '\n' ∉ b ∧ c = b ++ [byte '\n'] ∧ s = c ++ rest := by
  constructor
  · intro h
    induction s generalizing c with
    | nil => cases h
    | cons a s ih =>
      rw [splitLine?] at h
      split at h
      · rename_i ha
        obtain ⟨rfl, rfl⟩ := Prod.mk.inj (Option.some.inj h)
        exact ⟨[], List.not_mem_nil, by rw [ha]; rfl, rfl⟩
      · rename_i ha
        obtain ⟨⟨c', r⟩, ho, he⟩ := Option.map_eq_some_iff.1 h
        obtain ⟨rfl, rfl⟩ := Prod.mk.inj he
        obtain ⟨b, hb, rfl, rfl⟩ := ih ho
        exact ⟨a :: b, by simp [Ne.symm ha, hb], rfl, rfl⟩
  · rintro ⟨b, hb, rfl, rfl⟩
    induction b with
    | nil => exact if_pos rfl
    | cons a b ih =>
      have ha : a ≠ byte '\n' := fun he => hb (he ▸ List.mem_cons_self)
      rw [List.cons_append, List.cons_append, splitLine?, if_neg ha,
        ih fun hm => hb (List.mem_cons_of_mem _ hm)]
      rfl

/-- The end of a block comment is no part of what comes before it. -/
abbrev Unclosed (b : Text) : Prop := ¬ [byte '*', byte '/'] <:+: b ++ [byte '*']

theorem unclosed_nil : Unclosed [] := fun h => absurd h.length_le (by decide)

/-- A text without the end of a comment has none further on, and does not begin with one. -/
theorem unclosed_cons {a : UInt8} {b : Text} :
    Unclosed (a :: b) ↔
      ¬ (a = byte '*' ∧ (b ++ [byte '*']).head? = some (byte '/')) ∧ Unclosed b := by
  unfold Unclosed
  rw [List.cons_append, List.infix_cons_iff, not_or]
  refine and_congr_left fun _ => not_congr ?_
  rw [List.cons_prefix_cons]
  refine and_congr ⟨Eq.symm, Eq.symm⟩ ?_
  cases b ++ [byte '*'] with
  | nil => simp
  | cons x l => simp [List.cons_prefix_cons, eq_comm]

/-- A comment in a block is split at its first end. -/
theorem splitBlock?_eq_some {s c rest : Text} :
    splitBlock? s = some (c, rest) ↔
      ∃ b, Unclosed b ∧ c = b ++ [byte '*', byte '/'] ∧ s = c ++ rest := by
  constructor
  · intro h
    fun_induction splitBlock? s generalizing c with
    | case1 => cases h
    | case2 x => cases h
    | case3 x y t hxy =>
      obtain ⟨rfl, rfl⟩ := hxy
      obtain ⟨rfl, rfl⟩ := Prod.mk.inj (Option.some.inj h)
      exact ⟨[], unclosed_nil, rfl, rfl⟩
    | case4 x y t hxy ih =>
      obtain ⟨⟨c', r⟩, ho, he⟩ := Option.map_eq_some_iff.1 h
      obtain ⟨rfl, rfl⟩ := Prod.mk.inj he
      obtain ⟨b, hb, rfl, hs⟩ := ih ho
      refine ⟨x :: b, unclosed_cons.2 ⟨?_, hb⟩, rfl, by rw [hs]; rfl⟩
      -- the byte after `x` is the first one of the rest of the comment
      rintro ⟨hx, hy⟩
      refine hxy ⟨hx, ?_⟩
      cases b with
      | nil => exact absurd hy (by decide)
      | cons z b =>
        rw [(List.cons.inj hs).1]
        exact Option.some.inj hy
  · rintro ⟨b, hb, rfl, rfl⟩
    induction b with
    | nil => exact if_pos ⟨rfl, rfl⟩
    | cons a b ih =>
      obtain ⟨hne, hb⟩ := unclosed_cons.1 hb
      have hrec := ih hb
      obtain ⟨y, t, ht⟩ : ∃ y t, b ++ [byte '*', byte '/'] ++ rest = y :: t :=
        List.exists_cons_of_ne_nil (by simp)
      have hy : (b ++ [byte '*']).head? = some y := by
        cases b with
        | nil => exact congrArg some (List.cons.inj ht).1
        | cons z b => exact congrArg some (List.cons.inj ht).1
      have hay : ¬ (a = byte '*' ∧ y = byte '/') := by
        rintro ⟨ha, rfl⟩
        exact hne ⟨ha, hy⟩
      rw [ht] at hrec
      rw [List.cons_append, List.cons_append, ht, splitBlock?, if_neg hay, hrec]
      rfl

/-- After a slash, a comment is split where it ends. -/
theorem splitComment?_eq_some {s c rest : Text} :
    splitComment? s = some (c, rest) ↔ Comment (byte '/' :: c) ∧ s = c ++ rest := by
  constructor
  · intro h
    cases s with
    | nil => cases h
    | cons a s =>
      rw [splitComment?] at h
      split at h
      · rename_i ha
        obtain ⟨⟨c', r⟩, ho, he⟩ := Option.map_eq_some_iff.1 h
        obtain ⟨rfl, rfl⟩ := Prod.mk.inj he
        obtain ⟨b, hb, rfl, rfl⟩ := splitLine?_eq_some.1 ho
        rw [ha]
        exact ⟨.line hb, rfl⟩
      · split at h
        · rename_i ha
          obtain ⟨⟨c', r⟩, ho, he⟩ := Option.map_eq_some_iff.1 h
          obtain ⟨rfl, rfl⟩ := Prod.mk.inj he
          obtain ⟨b, hb, rfl, rfl⟩ := splitBlock?_eq_some.1 ho
          rw [ha]
          exact ⟨.block hb, rfl⟩
        · cases h
  · -- the second byte of a comment tells how it ends
    rintro ⟨hc, rfl⟩
    generalize hcc : byte '/' :: c = cc at hc
    cases hc with
    | @line b hb =>
      obtain ⟨-, rfl⟩ := List.cons.inj hcc
      have hline : splitLine? (b ++ [byte '\n'] ++ rest) = some (b ++ [byte '\n'], rest) :=
        splitLine?_eq_some.2 ⟨b, hb, rfl, rfl⟩
      rw [List.cons_append, splitComment?, if_pos rfl, hline]
      rfl
    | @block b hb =>
      obtain ⟨-, rfl⟩ := List.cons.inj hcc
      have hblock : splitBlock? (b ++ [byte '*', byte '/'] ++ rest) =
          some (b ++ [byte '*', byte '/'], rest) := splitBlock?_eq_some.2 ⟨b, hb, rfl, rfl⟩
      rw [List.cons_append, splitComment?, if_neg (by decide), if_pos rfl, hblock]
      rfl

/-- A slash before a text does not make it well-formed, nor ill-formed. -/
theorem isValid_slash_cons (c : Text) : Utf8.isValid (byte '/' :: c) = Utf8.isValid c := by
  have hpieces := Utf8.pieces_encodeChar_append '/' c
  rw [Utf8.encodeChar_of_ascii (by decide)] at hpieces
  unfold Utf8.isValid
  rw [byte, ← List.singleton_append, hpieces, List.all_cons]
  rfl

/-! ## White space -/

/-- What follows is neither white space nor a comment. -/
def ExtraEnds (rest : Text) : Prop := ∀ b ∈ rest.head?, isSpace b = false ∧ b ≠ byte '/'

/-- White space and comments that were read are such. -/
theorem extra_of_extraUpTo {fuel : Nat} {s x rest : Text}
    (h : extraUpTo fuel s = some (x, rest)) : ∃ e, s = e ++ rest ∧ Extra e x := by
  -- on the fuel, which is used up by one for each byte of white space and for each comment
  induction fuel generalizing s x with
  | zero =>
    obtain ⟨rfl, rfl⟩ := Prod.mk.inj (Option.some.inj h)
    exact ⟨[], rfl, .nil⟩
  | succ fuel ih =>
    cases s with
    | nil =>
      obtain ⟨rfl, rfl⟩ := Prod.mk.inj (Option.some.inj h)
      exact ⟨[], rfl, .nil⟩
    | cons b s =>
      simp only [extraUpTo] at h
      split at h
      · rename_i hb
        obtain ⟨⟨x', r⟩, ho, he⟩ := Option.map_eq_some_iff.1 h
        obtain ⟨rfl, rfl⟩ := Prod.mk.inj he
        obtain ⟨e, rfl, hextra⟩ := ih ho
        exact ⟨b :: e, rfl, .space hb hextra⟩
      · split at h
        · rename_i hb
          split at h
          · cases h
          · rename_i c r hc
            split at h
            · rename_i hvalid
              obtain ⟨⟨x', r'⟩, ho, he⟩ := Option.map_eq_some_iff.1 h
              obtain ⟨rfl, rfl⟩ := Prod.mk.inj he
              obtain ⟨hcomment, rfl⟩ := splitComment?_eq_some.1 hc
              obtain ⟨e, rfl, hextra⟩ := ih ho
              refine ⟨byte '/' :: c ++ e, ?_, .comment hcomment ?_ hextra⟩
              · rw [hb, List.append_assoc, List.cons_append]
              · rw [isValid_slash_cons, hvalid]
            · cases h
        · obtain ⟨rfl, rfl⟩ := Prod.mk.inj (Option.some.inj h)
          exact ⟨[], rfl, .nil⟩

/-- White space and comments are read as far as they go, if there is fuel for their length. -/
theorem extraUpTo_append {e x : Text} (h : Extra e x) {rest : Text} (hr : ExtraEnds rest)
    {fuel : Nat} (hf : e.length ≤ fuel) : extraUpTo fuel (e ++ rest) = some (x, rest) := by
  -- every step takes at least a byte, so the fuel lasts
  induction h generalizing fuel with
  | nil =>
    cases fuel with
    | zero => rfl
    | succ fuel =>
      cases rest with
      | nil => rfl
      | cons b rest =>
        obtain ⟨hs, hb⟩ := hr b rfl
        simp only [List.nil_append, extraUpTo, hs, hb, if_false, Bool.false_eq_true]
  | @space b t w hb _ ih =>
    cases fuel with
    | zero => cases hf
    | succ fuel =>
      have hlen : t.length ≤ fuel := by
        rw [List.length_cons] at hf
        omega
      simp only [List.cons_append, extraUpTo, if_pos hb, ih hlen, Option.map_some]
  | @comment c t w hc hvalid _ ih =>
    obtain ⟨c, rfl⟩ := hc.exists_eq_cons
    cases fuel with
    | zero => cases hf
    | succ fuel =>
      have hlen : t.length ≤ fuel := by
        simp only [List.length_append, List.length_cons] at hf
        omega
      have hsplit : splitComment? (c ++ (t ++ rest)) = some (c, t ++ rest) :=
        splitComment?_eq_some.2 ⟨hc, rfl⟩
      have hspace : ¬ isSpace (byte '/') = true := by decide
      rw [isValid_slash_cons] at hvalid
      simp only [List.append_assoc, List.cons_append, extraUpTo, if_neg hspace, if_true, hsplit,
        if_pos hvalid, ih hlen, Option.map_some, List.map_cons]
      rfl

/-- **White space and comments are read as far as they go.** -/
theorem reads_extra : Reads extra Extra ExtraEnds where
  append e x rest h hr := extraUpTo_append h hr (by simp)
  of_read _ _ _ h := extra_of_extraUpTo h

/-! ## Strings -/

/-- The rest of a string that was read is a body and a quote. -/
theorem stringBody_of_stringRest {s w rest : Text} (h : stringRest s = some (w, rest)) :
    ∃ b, StringBody b ∧ w = b ++ [byte '"'] ∧ s = w ++ rest := by
  -- each unit goes before what the rest of the string is made of
  have push {u s' w : Text} (hu : StringUnit u)
      (hm : (stringRest s').map (fun p => (u ++ p.1, p.2)) = some (w, rest))
      (ih : ∀ w', stringRest s' = some (w', rest) →
        ∃ b, StringBody b ∧ w' = b ++ [byte '"'] ∧ s' = w' ++ rest) :
      ∃ b, StringBody b ∧ w = b ++ [byte '"'] ∧ u ++ s' = w ++ rest := by
    obtain ⟨⟨w', r⟩, ho, he⟩ := Option.map_eq_some_iff.1 hm
    obtain ⟨rfl, rfl⟩ := Prod.mk.inj he
    obtain ⟨b, hb, rfl, rfl⟩ := ih w' ho
    exact ⟨u ++ b, .cons hu hb, (List.append_assoc _ _ _).symm, by simp only [List.append_assoc]⟩
  fun_induction stringRest s generalizing w with
  | case1 => cases h
  | case2 t =>
    obtain ⟨rfl, rfl⟩ := Prod.mk.inj (Option.some.inj h)
    exact ⟨[], .nil, rfl, rfl⟩
  | case3 b t hq hlow => cases h
  | case4 => cases h
  | case5 e t he _ _ ih => exact push (.escape he) h fun w' => ih
  | case6 h₁ h₂ h₃ h₄ t hd _ _ _ ih => exact push (.number hd) h fun w' => ih
  | case7 => cases h
  | case8 => cases h
  | case9 => cases h
  | case10 b t hq hlow hb ih => exact push (.plain hlow hq hb) h fun w' => ih

/-- One unit of a string is taken at a time. -/
theorem stringRest_unit {u : Text} (hu : StringUnit u) (t : Text) :
    stringRest (u ++ t) = (stringRest t).map fun p => (u ++ p.1, p.2) := by
  have hquote : byte '\\' ≠ byte '"' := by decide
  have hcontrol : ¬ byte '\\' < 0x20 := by decide
  rw [stringRest.eq_def]
  cases hu with
  | plain hlow hq hb =>
    simp only [List.cons_append, List.nil_append, if_neg hq, if_neg hlow, if_neg hb]
  | escape he =>
    simp only [List.cons_append, List.nil_append, if_neg hquote, if_neg hcontrol, if_pos he,
      if_true]
  | number hd =>
    have hletter : ¬ isEscapeLetter (byte 'u') = true := by decide
    simp only [List.cons_append, List.nil_append, if_neg hquote, if_neg hcontrol, if_neg hletter,
      if_pos hd, if_true]

/-- A body and a quote are read as the rest of a string. -/
theorem stringRest_append {b : Text} (h : StringBody b) (rest : Text) :
    stringRest (b ++ byte '"' :: rest) = some (b ++ [byte '"'], rest) := by
  induction h with
  | nil =>
    rw [List.nil_append, stringRest.eq_def]
    exact if_pos rfl
  | cons hu _ ih =>
    rw [List.append_assoc, stringRest_unit hu, ih, Option.map_some, List.append_assoc]

/-- **String literals are read up to the closing quote.** -/
theorem reads_string : Reads string (fun t w => w = t ∧ StringLiteral t) fun _ => True where
  append := by
    rintro t _ rest ⟨rfl, ⟨hb⟩⟩ -
    rename_i b
    have hrest : stringRest (b ++ [byte '"'] ++ rest) = some (b ++ [byte '"'], rest) := by
      rw [List.append_assoc, List.singleton_append]
      exact stringRest_append hb rest
    have hquote := (reads_keep (byte '"')).append _ _ (b ++ [byte '"'] ++ rest) ⟨rfl, rfl⟩ trivial
    exact seq_eq_some.2 ⟨[byte '"'], _, _, hquote, hrest, rfl⟩
  of_read := by
    intro s w rest h
    obtain ⟨w₁, t', w₂, h₁, h₂, rfl⟩ := seq_eq_some.1 h
    obtain ⟨t₁, rfl, rfl, rfl⟩ := (reads_keep _).of_read _ _ _ h₁
    obtain ⟨b, hb, rfl, rfl⟩ := stringBody_of_stringRest h₂
    exact ⟨_, rfl, rfl, .intro hb⟩

/-! ## Words -/

/-- What follows does not go on with a word. -/
def WordEnds (rest : Text) : Prop := ∀ b ∈ rest.head?, isWordByte b = false

/-- A word is taken for a number if it is one of the syntax. -/
theorem isNumberWord_iff {t : Text} :
    isNumberWord t = true ↔ ∃ cs, Syntax.Number cs ∧ t = Utf8.encode cs := by
  constructor
  · intro h
    have hnumber : Syntax.Number (Utf8.decode t) := by
      unfold isNumberWord at h
      split at h
      · cases h
      · rename_i l hl
        simp only [Bool.or_eq_true, beq_iff_eq, bne_iff_ne] at h
        exact number_iff.2 ⟨l, hl, h⟩
    -- the characters of a number are no replacements, so the text is made of them
    have hmem : replacement ∉ Utf8.decode t := by
      intro hm
      have := mem_numberChars hnumber hm
      exact absurd this (by decide)
    exact ⟨Utf8.decode t, hnumber, (Utf8.encode_decode_of_not_mem hmem).symm⟩
  · rintro ⟨cs, hnumber, rfl⟩
    obtain ⟨l, hl, h0⟩ := number_iff.1 hnumber
    unfold isNumberWord
    rw [Utf8.decode_encode, hl]
    simpa only [Bool.or_eq_true, beq_iff_eq, bne_iff_ne] using h0

/-- A word is taken for a value if it is a literal or a number. -/
theorem isValueWord_iff {t : Text} : isValueWord t = true ↔ Word t := by
  simp only [isValueWord, Bool.or_eq_true, beq_iff_eq, isNumberWord_iff]
  constructor
  · rintro (((rfl | rfl) | rfl) | ⟨cs, hn, rfl⟩)
    · exact .null
    · exact .true
    · exact .false
    · exact .number hn
  · intro h
    cases h with
    | null => exact .inl (.inl (.inl rfl))
    | true => exact .inl (.inl (.inr rfl))
    | false => exact .inl (.inr rfl)
    | number hn => exact .inr ⟨_, hn, rfl⟩

/-- **Words are read as far as they go.** -/
theorem reads_word : Reads word (fun t w => w = t ∧ Word t) WordEnds where
  append := by
    rintro t _ rest ⟨rfl, hw⟩ hr
    have hbytes := isWordByte_of_word hw
    have htake : rest.takeWhile isWordByte = [] := by
      cases rest with
      | nil => rfl
      | cons b rest => exact List.takeWhile_cons_of_neg (by simp [hr b rfl])
    have hdrop : rest.dropWhile isWordByte = rest := by
      cases rest with
      | nil => rfl
      | cons b rest => exact List.dropWhile_cons_of_neg (by simp [hr b rfl])
    unfold word
    rw [List.takeWhile_append_of_pos hbytes, List.dropWhile_append_of_pos hbytes, htake, hdrop,
      List.append_nil, if_pos (isValueWord_iff.2 hw)]
  of_read := by
    intro s w rest h
    unfold word at h
    split at h
    · rename_i hw
      obtain ⟨rfl, rfl⟩ := Prod.mk.inj (Option.some.inj h)
      exact ⟨_, List.takeWhile_append_dropWhile.symm, rfl, isValueWord_iff.1 hw⟩
    · cases h

end Descent.Json.Relaxed
