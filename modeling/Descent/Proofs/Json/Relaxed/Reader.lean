import Descent.Proofs.Json.Relaxed.Token

/-!
# The standard form is found by reading

Reading a relaxed document from left to right, with a look at the next byte only,
finds its standard form. Items end at a comma or at the closing bracket, and
neither can go on with a value, with white space or with a comment.

* `reads_items`, `reads_bracketed`, `reads_member`: items, for any reader of values.
* `reads_valueUpTo`: values, by induction on the depth.
* `standardizes_standardize?`: the standard form of a document, and of nothing else.
-/

namespace Descent.Json.Relaxed

/-! ## What may follow -/

/-- What follows goes on neither with a word nor with white space and comments. -/
def PartEnds (rest : Text) : Prop := ExtraEnds rest ∧ WordEnds rest

/-- A byte that closes brackets goes on with nothing, and neither is a comma nor begins a value. -/
structure Closes (c : UInt8) : Prop where
  not_space : isSpace c = false
  not_word : isWordByte c = false
  ne_slash : c ≠ byte '/'
  ne_comma : c ≠ byte ','
  ne_opener : ∀ x ∈ openers, byte x ≠ c

theorem closes_bracket : Closes (byte ']') :=
  ⟨by decide, by decide, by decide, by decide, forall_of_all (by decide)⟩

theorem closes_brace : Closes (byte '}') :=
  ⟨by decide, by decide, by decide, by decide, forall_of_all (by decide)⟩

/-- A part ends before a byte that is neither white space nor a slash nor part of a word. -/
theorem partEnds_cons {b : UInt8} (hspace : isSpace b = false) (hslash : b ≠ byte '/')
    (hword : isWordByte b = false) (rest : Text) : PartEnds (b :: rest) := by
  constructor
  · intro a ha
    obtain rfl := Option.some.inj ha
    exact ⟨hspace, hslash⟩
  · intro a ha
    obtain rfl := Option.some.inj ha
    exact hword

/-- A part ends before a closing mark. -/
theorem Closes.partEnds {c : UInt8} (h : Closes c) (rest : Text) : PartEnds (c :: rest) :=
  partEnds_cons h.not_space h.ne_slash h.not_word rest

theorem partEnds_comma (rest : Text) : PartEnds (byte ',' :: rest) :=
  partEnds_cons (by decide) (by decide) (by decide) rest

theorem partEnds_colon (rest : Text) : PartEnds (byte ':' :: rest) :=
  partEnds_cons (by decide) (by decide) (by decide) rest

theorem partEnds_nil : PartEnds [] := ⟨fun _ hb => (nomatch hb), fun _ hb => (nomatch hb)⟩

/-- White space and comments end before what opens a value. -/
theorem extraEnds_of_opens {t : Text} (h : Opens t) (rest : Text) :
    ExtraEnds (t ++ rest) := by
  have key : ∀ x ∈ openers, isSpace (byte x) = false ∧ byte x ≠ byte '/' :=
    forall_of_all (by decide)
  obtain ⟨x, hx, s, rfl⟩ := h
  intro b hb
  obtain rfl := Option.some.inj hb
  exact key x hx

theorem isWordByte_of_isSpace {b : UInt8} (h : isSpace b = true) : isWordByte b = false := by
  simp only [isSpace, Bool.or_eq_true, beq_iff_eq] at h
  rcases h with ((rfl | rfl) | rfl) | rfl <;> decide

/-- White space and comments do not go on with a word. -/
theorem wordEnds_extra_append {e x rest : Text} (h : Extra e x) (hr : WordEnds rest) :
    WordEnds (e ++ rest) := by
  intro b hb
  cases e with
  | nil => exact hr b hb
  | cons a e =>
    rcases h.head b hb with hs | rfl
    · exact isWordByte_of_isSpace hs
    · decide

/-- What is read up to some ends is read up to fewer. -/
theorem Reads.of_ends {r : Reader} {F : Text → Text → Prop} {E E' : Text → Prop}
    (hr : Reads r F E) (h : ∀ rest, E' rest → E rest) : Reads r F E' where
  append t w rest hf he := hr.append t w rest hf (h rest he)
  of_read := hr.of_read

/-! ## Items in brackets -/

section Items

variable {item : Reader} {Item : Text → Text → Prop} {c : UInt8}

/-- An item is read together with the white space and the comments after it. -/
theorem reads_padded (hr : Reads item Item WordEnds) :
    Reads (item.seq extra) (Then Item Extra) PartEnds :=
  hr.seq (reads_extra.of_ends fun _ => And.left) fun _ _ _ he hrest =>
    wordEnds_extra_append he hrest.2

/-- Items that were read are items of the syntax, up to the closing mark. -/
theorem items_of_itemsUpTo (hr : Reads item Item WordEnds) {fuel : Nat} {s w rest : Text}
    (h : itemsUpTo item c fuel s = some (w, rest)) :
    ∃ t' w', s = t' ++ c :: rest ∧ w = w' ++ [c] ∧ Items Item t' w' := by
  induction fuel generalizing s w with
  | zero => cases h
  | succ fuel ih =>
    simp only [itemsUpTo] at h
    -- an item with padding, and then the closing mark or a comma
    split at h
    · cases h
    · cases h
    · rename_i _ b s₀ hseq
      obtain ⟨_, rfl, t₁, w₁, e, x, rfl, rfl, hi, he⟩ := (reads_padded hr).of_read _ _ _ hseq
      split at h
      · rename_i hb
        subst hb
        obtain ⟨rfl, rfl⟩ := Prod.mk.inj (Option.some.inj h)
        exact ⟨t₁ ++ e, w₁ ++ x, rfl, rfl, .last hi he⟩
      · split at h
        · rename_i hb
          subst hb
          split at h
          · cases h
          · cases h
          · rename_i x' b s₁ hextra
            obtain ⟨e', rfl, he'⟩ := reads_extra.of_read _ _ _ hextra
            split at h
            · rename_i hb
              subst hb
              obtain ⟨rfl, rfl⟩ := Prod.mk.inj (Option.some.inj h)
              exact ⟨_, _, by simp, by simp, .trailing hi he he'⟩
            · obtain ⟨⟨y, r⟩, ho, hy⟩ := Option.map_eq_some_iff.1 h
              obtain ⟨rfl, rfl⟩ := Prod.mk.inj hy
              obtain ⟨t', w', hs, rfl, hitems⟩ := ih ho
              refine ⟨_, _, ?_, ?_, .more hi he he' hitems⟩
              · rw [hs]
                simp
              · simp
        · cases h

/-- Items of the syntax are read, if there is fuel for their length. -/
theorem itemsUpTo_append (hr : Reads item Item WordEnds) (hsolid : SolidForm Item)
    (hc : Closes c) {t w : Text} (h : Items Item t w) {fuel : Nat} (hf : t.length < fuel)
    (rest : Text) :
    itemsUpTo item c fuel (t ++ c :: rest) = some (w ++ [c], rest) := by
  have hpad {t w e x : Text} (hi : Item t w) (he : Extra e x) {r : Text} (hends : PartEnds r) :
      (item.seq extra) (t ++ (e ++ r)) = some (w ++ x, r) := by
    rw [← List.append_assoc]
    exact (reads_padded hr).append _ _ r ⟨t, w, e, x, rfl, rfl, hi, he⟩ hends
  have hcomma : byte ',' ≠ c := Ne.symm hc.ne_comma
  induction h generalizing fuel with
  | last hi he =>
    obtain ⟨fuel, rfl⟩ := Nat.exists_eq_succ_of_ne_zero (Nat.ne_of_gt (Nat.zero_lt_of_lt hf))
    simp only [List.append_assoc, itemsUpTo, hpad hi he (hc.partEnds rest), if_true]
  | trailing hi he he' =>
    obtain ⟨fuel, rfl⟩ := Nat.exists_eq_succ_of_ne_zero (Nat.ne_of_gt (Nat.zero_lt_of_lt hf))
    have hextra := reads_extra.append _ _ _ he' (hc.partEnds rest).1
    simp only [List.append_assoc, List.cons_append, itemsUpTo, hpad hi he (partEnds_comma _),
      if_neg hcomma, if_true, hextra]
  | @more t w e x e' x' t' w' hi he he' hitems ih =>
    -- what opens the next item is no closing mark, so the comma was not a trailing one
    obtain ⟨fuel, rfl⟩ := Nat.exists_eq_succ_of_ne_zero (Nat.ne_of_gt (Nat.zero_lt_of_lt hf))
    have hlen : t'.length < fuel := by
      simp only [List.length_append, List.length_cons] at hf
      omega
    have hopens := (hitems.opens hsolid).1
    have hextra := reads_extra.append _ _ (t' ++ c :: rest) he' (extraEnds_of_opens hopens _)
    have hmore := ih hlen
    obtain ⟨y, hy, s, rfl⟩ := hopens
    simp only [List.cons_append] at hextra hmore
    simp only [List.append_assoc, List.cons_append, itemsUpTo, hpad hi he (partEnds_comma _),
      if_neg hcomma, if_true, hextra, if_neg (hc.ne_opener y hy), hmore, Option.map_some]

/-- Items and the closing bracket, or the closing bracket alone. -/
def Closed (c : UInt8) (Item : Text → Text → Prop) (t w : Text) : Prop :=
  Single c t w ∨ ∃ t' w', t = t' ++ [c] ∧ w = w' ++ [c] ∧ Items Item t' w'

/-- White space and comments end before a list, be it empty or not. -/
theorem Closed.extraEnds (hsolid : SolidForm Item) (hc : Closes c) {t w : Text}
    (h : Closed c Item t w) (rest : Text) : ExtraEnds (t ++ rest) := by
  rcases h with ⟨rfl, rfl⟩ | ⟨t', w', rfl, rfl, hitems⟩
  · exact (hc.partEnds rest).1
  · rw [List.append_assoc]
    exact extraEnds_of_opens (hitems.opens hsolid).1 _

/-- **Items are read up to the closing bracket.** -/
theorem reads_items (hr : Reads item Item WordEnds) (hsolid : SolidForm Item) (hc : Closes c) :
    Reads (items item c) (Closed c Item) fun _ => True where
  append := by
    rintro t w rest (⟨rfl, rfl⟩ | ⟨t', w', rfl, rfl, hitems⟩) -
    · have hkeep := (reads_keep c).append _ _ rest ⟨rfl, rfl⟩ trivial
      unfold items
      rw [hkeep]
    · obtain ⟨y, hy, s, rfl⟩ := (hitems.opens hsolid).1
      have hkeep : Reader.keep c (byte y :: s ++ [c] ++ rest) = none :=
        if_neg (hc.ne_opener y hy)
      unfold items
      rw [hkeep, List.append_assoc, List.singleton_append]
      refine itemsUpTo_append hr hsolid hc hitems ?_ rest
      simp only [List.length_append, List.length_cons]
      omega
  of_read := by
    intro s w rest h
    unfold items at h
    split at h
    · rename_i r hkeep
      rw [h] at hkeep
      obtain ⟨t, ht, hsingle⟩ := (reads_keep c).of_read _ _ _ hkeep
      exact ⟨t, ht, .inl hsingle⟩
    · obtain ⟨t', w', rfl, rfl, hitems⟩ := items_of_itemsUpTo hr h
      exact ⟨t' ++ [c], by simp, .inr ⟨t', w', rfl, rfl, hitems⟩⟩

/-- **Items are read in their brackets.** -/
theorem reads_bracketed (hr : Reads item Item WordEnds) (hsolid : SolidForm Item) (o : UInt8)
    (hc : Closes c) :
    Reads (bracketed o c item) (Bracketed o c Item) fun _ => True := by
  have hopening : Reads ((Reader.keep o).seq extra) (Then (Single o) Extra) ExtraEnds :=
    (reads_keep o).seq reads_extra fun _ _ _ _ _ => trivial
  refine (hopening.seq (reads_items hr hsolid hc) ?_).congr fun t w => ?_
  · exact fun t w rest h _ => h.extraEnds hsolid hc rest
  · constructor
    · rintro ⟨_, _, _, _, rfl, rfl, ⟨_, _, e, x, rfl, rfl, ⟨rfl, rfl⟩, he⟩, hclosed⟩
      rcases hclosed with ⟨rfl, rfl⟩ | ⟨t', w', rfl, rfl, hitems⟩
      · exact .empty he
      · simp only [List.cons_append]
        exact .items he hitems
    · rintro (⟨he⟩ | ⟨he, hitems⟩)
      · exact ⟨_ :: _, _ :: _, [c], [c], rfl, rfl, ⟨[o], [o], _, _, rfl, rfl, ⟨rfl, rfl⟩, he⟩,
          .inl ⟨rfl, rfl⟩⟩
      · exact ⟨_ :: _, _ :: _, _, _, rfl, rfl, ⟨[o], [o], _, _, rfl, rfl, ⟨rfl, rfl⟩, he⟩,
          .inr ⟨_, _, rfl, rfl, hitems⟩⟩

end Items

/-! ## Members and values -/

/-- **A member is read** if its value is. -/
theorem reads_member {value : Reader} {Inner : Text → Text → Prop}
    (hr : Reads value Inner WordEnds) (hsolid : SolidForm Inner) :
    Reads (member value) (Member Inner) WordEnds := by
  have hkey := reads_string.seq reads_extra fun _ _ _ _ _ => trivial
  have hmark := hkey.seq (reads_keep (byte ':')) fun t w rest h _ => by
    obtain ⟨rfl, rfl⟩ := h
    exact (partEnds_colon rest).1
  have hgap := hmark.seq reads_extra fun _ _ _ _ _ => trivial
  refine (hgap.seq hr fun t w rest h _ => ?_).congr fun t w => ?_
  · exact extraEnds_of_opens (hsolid t w h).1.opens rest
  · constructor
    · rintro ⟨_, _, t, w, rfl, rfl, ⟨_, _, e₂, x₂, rfl, rfl, ⟨_, _, _, _, rfl, rfl,
        ⟨k, _, e₁, x₁, rfl, rfl, ⟨rfl, hk⟩, he₁⟩, ⟨rfl, rfl⟩⟩, he₂⟩, hv⟩
      simp only [List.append_assoc, List.singleton_append]
      exact .intro hk he₁ he₂ hv
    · rintro ⟨hk, he₁, he₂, hv⟩
      rename_i k e₁ x₁ e₂ x₂ t w
      refine ⟨k ++ e₁ ++ [byte ':'] ++ e₂, k ++ x₁ ++ [byte ':'] ++ x₂, t, w, by simp, by simp,
        ⟨_, _, e₂, x₂, rfl, rfl, ⟨_, _, _, _, rfl, rfl, ?_, ⟨rfl, rfl⟩⟩, he₂⟩, hv⟩
      exact ⟨k, k, e₁, x₁, rfl, rfl, ⟨rfl, hk⟩, he₁⟩

theorem valueUpTo_succ_cons (depth : Nat) (b : UInt8) (t : Text) :
    valueUpTo (depth + 1) (b :: t) =
      if b = byte '[' then bracketed (byte '[') (byte ']') (valueUpTo depth) (b :: t)
      else if b = byte '{' then
        bracketed (byte '{') (byte '}') (member (valueUpTo depth)) (b :: t)
      else if b = byte '"' then string (b :: t)
      else word (b :: t) := rfl

/-- **Values are read** as deep as they are nested. -/
theorem reads_valueUpTo (depth : Nat) :
    Reads (valueUpTo depth) (NestedValue depth) WordEnds := by
  induction depth with
  | zero => exact ⟨fun _ _ _ h => (nomatch h), fun _ _ _ h => (nomatch h)⟩
  | succ depth ih =>
    have hsolid := solidForm_nestedValue depth
    have harray := reads_bracketed ih hsolid (byte '[') closes_bracket
    have hobject := reads_bracketed (reads_member ih hsolid) (solidForm_member hsolid) (byte '{')
      closes_brace
    constructor
    · -- the first byte tells which of the readers is called
      intro t w rest h hr
      cases h with
      | string hs =>
        obtain ⟨hb⟩ := hs
        exact reads_string.append _ _ rest ⟨rfl, .intro hb⟩ trivial
      | word hw =>
        have key : ∀ x ∈ openers, isWordByte (byte x) = true →
            byte x ≠ byte '[' ∧ byte x ≠ byte '{' ∧ byte x ≠ byte '"' := forall_of_all (by decide)
        obtain ⟨x, hx, hbyte, s, hs⟩ := opens_of_word hw
        obtain ⟨h₁, h₂, h₃⟩ := key x hx hbyte
        have hread := reads_word.append t t rest ⟨rfl, hw⟩ hr
        rw [hs, List.cons_append] at hread ⊢
        rw [valueUpTo_succ_cons, if_neg h₁, if_neg h₂, if_neg h₃, hread]
      | array hb =>
        have hread := harray.append t w rest hb trivial
        obtain ⟨s, rfl⟩ := hb.exists_eq_cons
        exact hread
      | object hb =>
        have hread := hobject.append t w rest hb trivial
        obtain ⟨s, rfl⟩ := hb.exists_eq_cons
        exact hread
    · -- the readers are called in order, each for its first byte and the last for all others
      intro s w rest h
      cases s with
      | nil => cases h
      | cons b s =>
        rw [valueUpTo_succ_cons] at h
        split at h
        · obtain ⟨t, ht, hb⟩ := harray.of_read _ _ _ h
          exact ⟨t, ht, .array hb⟩
        · split at h
          · obtain ⟨t, ht, hb⟩ := hobject.of_read _ _ _ h
            exact ⟨t, ht, .object hb⟩
          · split at h
            · obtain ⟨t, ht, rfl, hs⟩ := reads_string.of_read _ _ _ h
              exact ⟨w, ht, .string hs⟩
            · obtain ⟨t, ht, rfl, hw⟩ := reads_word.of_read _ _ _ h
              exact ⟨w, ht, .word hw⟩

/-! ## Documents -/

/-- A text is standardized if it is read as a document up to its end. -/
theorem standardize?_eq_some {t w : Text} :
    standardize? t = some w ↔ document t = some (w, []) := by
  unfold standardize?
  split
  · rename_i w' h
    rw [h]
    simp
  · rename_i hno
    constructor
    · intro h
      cases h
    · intro h
      exact absurd h (hno w)

/-- **Standardizing finds the standard form of every relaxed document, and of nothing else.** -/
theorem standardizes_standardize? : Standardizes standardize? := by
  intro t w
  have hread : Reads ((extra.seq (valueUpTo (t.length + 1))).seq extra)
      (Then (Then Extra (NestedValue (t.length + 1))) Extra) PartEnds := by
    have hvalue := reads_extra.seq (reads_valueUpTo (t.length + 1)) fun t w rest h _ =>
      extraEnds_of_opens (solidForm_nestedValue _ t w h).1.opens rest
    exact hvalue.seq (reads_extra.of_ends fun _ => And.left) fun _ _ _ he hrest =>
      wordEnds_extra_append he hrest.2
  rw [standardize?_eq_some]
  constructor
  · intro h
    obtain ⟨t', ht, _, _, e', x', rfl, rfl, ⟨e, x, v, y, rfl, rfl, he, hv⟩, he'⟩ :=
      hread.of_read _ _ _ h
    rw [ht, List.append_nil, List.append_assoc, List.append_assoc]
    exact .intro he ⟨_, hv⟩ he'
  · rintro ⟨he, ⟨depth, hv⟩, he'⟩
    rename_i e x v y e' x'
    have hdepth : NestedValue ((e ++ (v ++ e')).length + 1) v y := by
      refine nestedValue_of_lt hv ?_
      simp only [List.length_append]
      omega
    have happend := hread.append (e ++ (v ++ e')) (x ++ (y ++ x')) [] ⟨e ++ v, x ++ y, e', x',
      (List.append_assoc _ _ _).symm, (List.append_assoc _ _ _).symm,
      ⟨e, x, v, y, rfl, rfl, he, hdepth⟩, he'⟩ partEnds_nil
    rwa [List.append_nil] at happend

end Descent.Json.Relaxed
