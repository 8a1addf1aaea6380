import Descent.Proofs.Json.Encodings

/-!
# Joining code points repairs them

`join` takes one code point at a time or two, as it finds them. Here the same is
said of each code point alone, by what stands on either side of it: the first
half of a pair becomes the code point of the pair, the second half nothing, and
any other number that is no character becomes U+FFFD. A low surrogate is no high
one, so pairs do not overlap, and no more than the neighbours has to be known.

* `repaired`: the repair of a sequence, code point by code point.
* `map_ofChar_join`: `join` repairs, whatever the numbers are.
* `length_join_add`: each pair makes the sequence shorter by one.
* `join_append`: sequences may be joined apart, unless a pair is cut.
* `join_exact`: what this says about the text of the joined characters.
-/

namespace Descent.CodePoint

open Json (highHalf lowHalf)

/-! ## Repair by the neighbours -/

/-- A Unicode scalar value: the number of a character. -/
def IsScalar (u : CodePoint) : Prop := (0 ≤ u ∧ u < 0xD800) ∨ (0xE000 ≤ u ∧ u < 0x110000)

instance (u : CodePoint) : Decidable (IsScalar u) := inferInstanceAs (Decidable (_ ∨ _))

/-- Two neighbours are a surrogate pair. At the ends of a sequence there is no neighbour. -/
def IsPair : Option CodePoint → Option CodePoint → Prop
  | some u, some v => u.IsHigh ∧ v.IsLow
  | _, _ => False

instance : (u v : Option CodePoint) → Decidable (IsPair u v)
  | some u, some v => inferInstanceAs (Decidable (u.IsHigh ∧ v.IsLow))
  | some _, none => .isFalse id
  | none, _ => .isFalse id

/-- The code point that a surrogate pair encodes. -/
def pairValue (high low : CodePoint) : CodePoint :=
  (high - 0xD800) * 0x400 + (low - 0xDC00) + 0x10000

/-- **What a code point is repaired to**, by its neighbours. -/
def repairBetween (before : Option CodePoint) (u : CodePoint) (after : Option CodePoint) :
    List CodePoint :=
  if IsPair before (some u) then []
  else if IsPair (some u) after then after.toList.map (pairValue u)
  else if u.IsScalar then [u]
  else [0xFFFD]

/-- The repair of what comes after the code point `before`. -/
def repairAfter (before : Option CodePoint) : List CodePoint → List CodePoint
  | [] => []
  | u :: us => repairBetween before u us.head? ++ repairAfter (some u) us

/-- **The repair of a sequence of code points.** -/
def repaired (us : List CodePoint) : List CodePoint := repairAfter none us

/-- The number of surrogate pairs in a sequence. -/
def pairs (us : List CodePoint) : Nat :=
  (us.zip us.tail).countP fun p => IsPair (some p.1) (some p.2)

section

variable {u v : CodePoint} {us vs : List CodePoint}

theorem isScalar_iff {u : Int} :
    IsScalar u ↔ (0 ≤ u ∧ u < 0xD800) ∨ (0xE000 ≤ u ∧ u < 0x110000) := Iff.rfl

theorem not_isHigh_of_isLow (h : v.IsLow) : ¬ v.IsHigh := by
  intro hh
  rw [isLow_iff] at h
  rw [isHigh_iff] at hh
  omega

theorem not_isPair_none_left (o : Option CodePoint) : ¬ IsPair none o := id

theorem not_isPair_none_right (o : Option CodePoint) : ¬ IsPair o none := by
  cases o <;> exact id

/-- After the second half of a pair, no pair goes on. -/
theorem not_isPair_of_isLow (h : v.IsLow) (o : Option CodePoint) : ¬ IsPair (some v) o := by
  cases o with
  | none => exact id
  | some w => exact fun hp => not_isHigh_of_isLow h hp.1

/-- The character with a number has that number, or is U+FFFD. -/
theorem ofChar_toChar (u : Int) : ofChar (toChar u) = if IsScalar u then u else 0xFFFD := by
  have hscalar : (0 ≤ u ∧ u.toNat.isValidChar) ↔ IsScalar u := by
    rw [isValidChar_iff, isScalar_iff]
    omega
  unfold toChar
  by_cases h : IsScalar u
  · have hvalid := hscalar.2 h
    obtain ⟨c, hc⟩ := exists_char hvalid.2
    rw [if_pos hvalid, if_pos h, ← hc, Char.ofNat_toNat, ofChar, hc]
    exact Int.toNat_of_nonneg hvalid.1
  · rw [if_neg (mt hscalar.1 h), if_neg h]
    rfl

/-- A code point that belongs to no pair is repaired alone. -/
theorem repairBetween_of_not_isPair {before after : Option CodePoint}
    (hb : ¬ IsPair before (some u)) (ha : ¬ IsPair (some u) after) :
    repairBetween before u after = [ofChar (toChar u)] := by
  rw [repairBetween, if_neg hb, if_neg ha, ofChar_toChar]
  split <;> rfl

/-! ## Joining is repair -/

/-- **`join` repairs** what comes after any code point, unless the two are a pair. -/
theorem map_ofChar_join_after {before : Option CodePoint} (h : ¬ IsPair before us.head?) :
    (join us).map ofChar = repairAfter before us := by
  induction us using join.induct generalizing before with
  | case1 => rfl
  | case2 u =>
    have halone := repairBetween_of_not_isPair h (not_isPair_none_right (some u))
    simp [join, repairAfter, halone]
  | case3 u v us hp ih =>
    have hb : ¬ IsPair before (some u) := h
    -- the first half stands for the pair, the second is passed over, and nothing pairs with it
    have hp' : IsPair (some u) (some v) := hp
    have hvalue : ofChar (ofPair u v) = pairValue u v := toNat_ofPair hp.1 hp.2
    have hfirst : repairBetween before u (some v) = [pairValue u v] := by
      rw [repairBetween, if_neg hb, if_pos hp']
      rfl
    have hsecond : repairBetween (some u) v us.head? = [] := by
      rw [repairBetween, if_pos hp']
    have hrest := ih (not_isPair_of_isLow hp.2 us.head?)
    rw [join_pair hp.1 hp.2, List.map_cons, hvalue, hrest]
    simp [repairAfter, hfirst, hsecond]
  | case4 u v us hp ih =>
    have hp' : ¬ IsPair (some u) (some v) := hp
    have halone := repairBetween_of_not_isPair h hp'
    rw [join, if_neg hp, List.map_cons, ih hp']
    simp [repairAfter, halone]

/-- Joined characters are the repaired units. -/
theorem map_ofChar_join (us : List CodePoint) : (join us).map ofChar = repaired us :=
  map_ofChar_join_after id

/-! ## Pairs -/

/-- A unit before others makes one more pair if it is the first half of one with the next. -/
theorem pairs_cons (u : CodePoint) (us : List CodePoint) :
    pairs (u :: us) = pairs us + if IsPair (some u) us.head? then 1 else 0 := by
  cases us with
  | nil => rfl
  | cons v us =>
    unfold pairs
    rw [List.tail_cons, List.zip_cons_cons, List.countP_cons]
    by_cases hp : IsPair (some u) (some v) <;> simp [hp]

/-- **Each pair makes the sequence shorter by one.** -/
theorem length_join_add (us : List CodePoint) : (join us).length + pairs us = us.length := by
  induction us using join.induct with
  | case1 => rfl
  | case2 u => rfl
  | case3 u v us hp ih =>
    have hp' : IsPair (some u) (v :: us).head? := hp
    rw [join_pair hp.1 hp.2, pairs_cons, if_pos hp', pairs_cons,
      if_neg (not_isPair_of_isLow hp.2 us.head?)]
    simp only [List.length_cons]
    omega
  | case4 u v us hp ih =>
    have hp' : ¬ IsPair (some u) (v :: us).head? := hp
    rw [join, if_neg hp, pairs_cons, if_neg hp']
    simp only [List.length_cons] at ih ⊢
    omega

/-- A pair of the whole is one of a part, or it is cut by the border. -/
theorem pairs_append (us vs : List CodePoint) :
    pairs (us ++ vs) = pairs us + pairs vs + if IsPair us.getLast? vs.head? then 1 else 0 := by
  induction us with
  | nil => simp [not_isPair_none_left, pairs]
  | cons u us ih =>
    rw [List.cons_append, pairs_cons, pairs_cons, ih]
    cases us with
    | nil =>
      rw [List.nil_append, List.getLast?_singleton, List.getLast?_nil, List.head?_nil,
        if_neg (not_isPair_none_left _), if_neg (not_isPair_none_right _)]
      omega
    | cons v us =>
      rw [List.getLast?_cons_cons, List.cons_append, List.head?_cons, List.head?_cons]
      omega

/-! ## Joining apart -/

/-- **Sequences may be joined apart**, unless a pair is cut. -/
theorem join_append (h : ¬ IsPair us.getLast? vs.head?) : join (us ++ vs) = join us ++ join vs := by
  induction us using join.induct with
  | case1 => rfl
  | case2 u =>
    rw [List.singleton_append, join_single]
    · rfl
    · intro v hv hp
      rw [Option.mem_def.1 hv] at h
      exact h hp
  | case3 u v us hp ih =>
    rw [List.cons_append, List.cons_append, join_pair hp.1 hp.2, join_pair hp.1 hp.2, ih]
    · rfl
    · intro hcut
      cases us with
      | nil => exact hcut
      | cons w us => exact h hcut
  | case4 u v us hp ih =>
    rw [List.getLast?_cons_cons] at h
    rw [join, if_neg hp, List.cons_append, List.cons_append, join, if_neg hp, ← List.cons_append,
      ih h]
    rfl

/-- Where a pair is cut, it is lost. -/
theorem join_append_ne (h : IsPair us.getLast? vs.head?) :
    join (us ++ vs) ≠ join us ++ join vs := by
  intro he
  have hlength := congrArg List.length he
  have hboth := length_join_add (us ++ vs)
  have hleft := length_join_add us
  have hright := length_join_add vs
  rw [pairs_append, if_pos h] at hboth
  rw [List.length_append] at hlength hboth
  omega

end

/-! ## UTF-16 -/

/-- The code points of a character in UTF-16. -/
def utf16 (x : Char) : List CodePoint :=
  if x.toNat < 0x10000 then [x.toNat] else [highHalf x, lowHalf x]

/-- The units that characters are encoded with stand for them. -/
theorem standFor_utf16 (cs : List Char) : StandFor (cs.flatMap utf16) cs := by
  induction cs with
  | nil => exact .nil
  | cons x cs ih =>
    rw [List.flatMap_cons]
    unfold utf16
    split
    · exact .char x ih
    · rename_i hx
      have hx : 0x10000 ≤ x.toNat := by omega
      exact .pair (Json.isHigh_highHalf hx) (Json.isLow_lowHalf x) (Json.toNat_eq_halves hx) ih

/-! ## The text of the joined characters -/

/-- **Joining is repair, written in UTF-8.** For any numbers, the text of the joined characters is
well-formed and has the repaired code points, one fewer for each pair. Sequences may be joined
apart exactly if that cuts no pair, and what UTF-16 makes of characters is joined to the same
characters. -/
theorem join_exact (us vs : List CodePoint) (cs : List Char) :
    Utf8.isValid (Utf8.encode (join us)) = true ∧
      (Utf8.decode (Utf8.encode (join us))).map ofChar = repaired us ∧
      (Utf8.decode (Utf8.encode (join us))).length + pairs us = us.length ∧
      (Utf8.encode (join (us ++ vs)) = Utf8.encode (join us) ++ Utf8.encode (join vs) ↔
        ¬ IsPair us.getLast? vs.head?) ∧
      Utf8.encode (join (cs.flatMap utf16)) = Utf8.encode cs := by
  refine ⟨Utf8.isValid_encode _, ?_, ?_, ⟨?_, ?_⟩, ?_⟩
  · rw [Utf8.decode_encode, map_ofChar_join]
  · rw [Utf8.decode_encode, length_join_add]
  · intro h hcut
    -- equal texts are texts of equal characters, and a pair that is cut is one character more
    have hdecoded := congrArg Utf8.decode h
    rw [← Utf8.encode_append, Utf8.decode_encode, Utf8.decode_encode] at hdecoded
    exact join_append_ne hcut hdecoded
  · intro hcut
    rw [join_append hcut, Utf8.encode_append]
  · rw [(standFor_utf16 cs).join_eq]

/-- Of two high surrogates before a low one, only the second makes a pair. -/
example : repaired [0xD83D, 0xD83D, 0xDE00, -1, 0xDE00, 0x110000] =
    [0xFFFD, 0x1F600, 0xFFFD, 0xFFFD, 0xFFFD] := by
  decide

end Descent.CodePoint
