import Descent.Text.CodePoint

/-!
# What code points stand for

A rule of reading for sequences of code points that are characters or halves of
surrogate pairs, and the proof that `join` follows it: a sequence stands for one
sequence of characters, and `join` finds it.

* `standFor_join`: what `join` gives is what the code points stand for.
* `StandFor.join_eq`: they stand for nothing else.
-/

namespace Descent

namespace CodePoint

/-- Half of a surrogate pair. -/
def IsSurrogate (u : CodePoint) : Prop := 0xD800 ≤ u ∧ u < 0xE000

/-- **Code points stand for characters**: a character for itself, a high and a low surrogate
in a row for the character that they encode, any other surrogate for U+FFFD. -/
inductive StandFor : List CodePoint → List Char → Prop where
  | nil : StandFor [] []
  | char {us : List CodePoint} {cs : List Char} (c : Char) :
      StandFor us cs → StandFor (c.toNat :: us) (c :: cs)
  | pair {high low : CodePoint} {us : List CodePoint} {cs : List Char} {c : Char} :
      high.IsHigh → low.IsLow →
      (c.toNat : Int) = (high - 0xD800) * 0x400 + (low - 0xDC00) + 0x10000 →
      StandFor us cs → StandFor (high :: low :: us) (c :: cs)
  | lone {u : CodePoint} {us : List CodePoint} {cs : List Char} :
      u.IsSurrogate → (∀ v ∈ us.head?, ¬ (u.IsHigh ∧ v.IsLow)) →
      StandFor us cs → StandFor (u :: us) (replacement :: cs)

/-- A character, or half of a surrogate pair. -/
def IsUnit (u : CodePoint) : Prop := (∃ c : Char, u = c.toNat) ∨ u.IsSurrogate

theorem isHigh_iff {u : Int} : IsHigh u ↔ 0xD800 ≤ u ∧ u < 0xDC00 := Iff.rfl

theorem isLow_iff {u : Int} : IsLow u ↔ 0xDC00 ≤ u ∧ u < 0xE000 := Iff.rfl

theorem isSurrogate_iff {u : Int} : IsSurrogate u ↔ 0xD800 ≤ u ∧ u < 0xE000 := Iff.rfl

theorem isValidChar_iff {n : Nat} :
    n.isValidChar ↔ n < 0xD800 ∨ (0xDFFF < n ∧ n < 0x110000) := Iff.rfl

/-- Outside of the surrogates, every number up to U+10FFFF is that of a character. -/
theorem exists_char {n : Nat} (h : n.isValidChar) : ∃ c : Char, c.toNat = n :=
  ⟨Char.ofNatAux n h, rfl⟩

theorem toChar_natCast (c : Char) : toChar (c.toNat : Int) = c := toChar_ofChar c

/-- A surrogate is no character. -/
theorem toChar_of_isSurrogate {u : Int} (h : IsSurrogate u) : toChar u = replacement := by
  rw [isSurrogate_iff] at h
  unfold toChar
  rw [if_neg]
  rintro ⟨-, hv⟩
  rw [isValidChar_iff] at hv
  omega

theorem not_isSurrogate_natCast (c : Char) : ¬ IsSurrogate (c.toNat : Int) := by
  have hv : c.toNat.isValidChar := c.valid
  rw [isValidChar_iff] at hv
  rw [isSurrogate_iff]
  omega

theorem IsHigh.isSurrogate {u : Int} (h : IsHigh u) : IsSurrogate u := by
  rw [isHigh_iff] at h
  rw [isSurrogate_iff]
  omega

/-- Every number of sixteen bits is a character or half of a surrogate pair. -/
theorem isUnit_natCast {n : Nat} (h : n < 0x10000) : IsUnit (n : Int) := by
  by_cases hs : IsSurrogate (n : Int)
  · exact .inr hs
  · have hv : n.isValidChar := by
      rw [isSurrogate_iff] at hs
      rw [isValidChar_iff]
      omega
    obtain ⟨c, hc⟩ := exists_char hv
    exact .inl ⟨c, congrArg Nat.cast hc.symm⟩

/-- The two halves of a pair bring ten bits each. -/
theorem toNat_ofPair {high low : Int} (hh : IsHigh high) (hl : IsLow low) :
    ((ofPair high low).toNat : Int) = (high - 0xD800) * 0x400 + (low - 0xDC00) + 0x10000 := by
  rw [isHigh_iff] at hh
  rw [isLow_iff] at hl
  have key (n : Int) (hn : (high - 0xD800) * 0x400 + (low - 0xDC00) + 0x10000 = n) :
      ((toChar n).toNat : Int) = n := by
    have hv : n.toNat.isValidChar := by
      rw [isValidChar_iff]
      omega
    obtain ⟨c, hc⟩ := exists_char hv
    unfold toChar
    rw [if_pos ⟨(by omega : 0 ≤ n), hv⟩, ← hc, Char.ofNat_toNat]
    omega
  exact key _ rfl

/-- **`join` gives what code points stand for.** -/
theorem standFor_join {us : List CodePoint} (h : ∀ u ∈ us, u.IsUnit) : StandFor us (join us) := by
  induction us using join.induct with
  | case1 => exact .nil
  | case2 u =>
    rcases h u List.mem_cons_self with ⟨c, rfl⟩ | hs
    · rw [join, toChar_natCast]
      exact .char c .nil
    · rw [join, toChar_of_isSurrogate hs]
      exact .lone hs (by simp) .nil
  | case3 u v us hp ih =>
    rw [join_pair hp.1 hp.2]
    refine .pair hp.1 hp.2 (toNat_ofPair hp.1 hp.2) (ih fun w hw => h w ?_)
    exact List.mem_cons_of_mem _ (List.mem_cons_of_mem _ hw)
  | case4 u v us hp ih =>
    have hp' : ∀ w ∈ (v :: us).head?, ¬ (u.IsHigh ∧ w.IsLow) := by
      intro w hw
      obtain rfl := Option.some.inj hw
      exact hp
    rw [join_single hp']
    have ih' := ih fun w hw => h w (List.mem_cons_of_mem _ hw)
    rcases h u List.mem_cons_self with ⟨c, rfl⟩ | hs
    · rw [toChar_natCast]
      exact .char c ih'
    · rw [toChar_of_isSurrogate hs]
      exact .lone hs hp' ih'

/-- **Code points stand for what `join` gives**, and for nothing else. -/
theorem StandFor.join_eq {us : List CodePoint} {cs : List Char} (h : StandFor us cs) :
    join us = cs := by
  induction h with
  | nil => rfl
  | char c h ih =>
    rw [join_single, ih, toChar_natCast]
    exact fun v _ hp => not_isSurrogate_natCast c hp.1.isSurrogate
  | pair hh hl hc h ih =>
    rw [join_pair hh hl, ih]
    congr 1
    apply Char.toNat_inj.1
    exact Int.ofNat_inj.1 ((toNat_ofPair hh hl).trans hc.symm)
  | lone hs hp h ih => rw [join_single hp, ih, toChar_of_isSurrogate hs]

end CodePoint

end Descent
