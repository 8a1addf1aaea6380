import Descent.Json.Approx
import Descent.Proofs.Json.Repair
import Mathlib.Data.List.Forall2

/-!
# Approximate comparison and infinities

Comparing up to a fraction is symmetric, and a value without NaN equals itself. It
comes down to comparing **counterparts**, the numbers at the same place of two
values of the same shape.

Finite numbers are measured against each other, and an infinity is equal to
itself. But any fraction of an infinity other than zero is infinite, and so is the
distance of an infinity from everything else, so that distance is small enough: up
to a positive fraction, an infinity passes for every number.

* `close_iff`: two values are close exactly if they have the same shape and close
  counterparts.
* `close_iff_passes`: which numbers are close, infinities included.
* `tellsInfinities_iff`: only a fraction of zero tells infinities from other
  numbers.
-/

namespace Descent

/-! ## Numbers -/

namespace Binary64

variable {fraction x y : Binary64}

/-- The number zero, with a positive sign. -/
def zero : Binary64 := ofMagnitude false 0

/-- Both numbers are finite, or they are the same infinity. -/
def Commensurate (x y : Binary64) : Prop := (x.IsFinite ∧ y.IsFinite) ∨ (x.IsInf ∧ x = y)

instance (x y : Binary64) : Decidable (x.Commensurate y) := inferInstanceAs (Decidable (_ ∨ _))

theorem isFinite_or_isInf (h : ¬ x.IsNaN) : x.IsFinite ∨ x.IsInf := by
  unfold IsNaN at h
  unfold IsFinite IsInf
  omega

theorem not_isNaN_of_isInf (h : x.IsInf) : ¬ x.IsNaN := by
  unfold IsInf at h
  unfold IsNaN
  omega

theorem not_isFinite_of_isInf (h : x.IsInf) : ¬ x.IsFinite := by
  unfold IsInf at h
  unfold IsFinite
  omega

theorem ext_of_fields (hs : x.negative = y.negative) (hm : x.magnitude = y.magnitude) : x = y := by
  cases x
  cases y
  simp only at hs hm
  subst hs hm
  rfl

theorem natAbs_orderKey (x : Binary64) : x.orderKey.natAbs = x.magnitude := by
  unfold orderKey
  split <;> omega

/-- The key of a number other than zero has its sign. -/
theorem orderKey_neg_iff (h : 0 < x.magnitude) : x.orderKey < 0 ↔ x.negative = true := by
  unfold orderKey
  cases x.negative with
  | false => exact iff_of_false (by simp) Bool.false_ne_true
  | true => exact iff_of_true (by simp; omega) rfl

/-- Numbers other than zero with the same key have the same sign. -/
theorem negative_eq_of_orderKey (h : 0 < x.magnitude) (hkey : x.orderKey = y.orderKey) :
    x.negative = y.negative := by
  have hy : 0 < y.magnitude := by rwa [← natAbs_orderKey, ← hkey, natAbs_orderKey]
  rw [Bool.eq_iff_iff, ← orderKey_neg_iff h, ← orderKey_neg_iff hy, hkey]

theorem sameValue_self (h : ¬ x.IsNaN) : x.SameValue x := ⟨h, h, rfl⟩

theorem SameValue.symm (h : x.SameValue y) : y.SameValue x := ⟨h.2.1, h.1, h.2.2.symm⟩

/-- There are two infinities, told apart by their sign. -/
theorem eq_of_isInf (hx : x.IsInf) (hy : y.IsInf) (hs : x.negative = y.negative) : x = y :=
  ext_of_fields hs (hx.trans hy.symm)

/-- Numbers of the same value are both finite, or the same infinity: only zero has two signs. -/
theorem SameValue.commensurate (h : x.SameValue y) : x.Commensurate y := by
  obtain ⟨hx, hy, hkey⟩ := h
  have hm : x.magnitude = y.magnitude := by rw [← natAbs_orderKey, ← natAbs_orderKey, hkey]
  rcases isFinite_or_isInf hx with hf | hi
  · exact .inl ⟨hf, show y.magnitude < infinite from hm ▸ hf⟩
  · have hpos : 0 < x.magnitude := by
      rw [show x.magnitude = infinite from hi]
      decide
    exact .inr ⟨hi, eq_of_isInf hi (hm.symm.trans hi) (negative_eq_of_orderKey hpos hkey)⟩

theorem distance_comm (x y : Binary64) : x.distance y = y.distance x := by
  have hsub : (x.signedUnits - y.signedUnits).natAbs = (y.signedUnits - x.signedUnits).natAbs := by
    omega
  unfold distance
  simp only [or_comm, and_left_comm, eq_comm, hsub]

theorem maxAbs_comm (x y : Binary64) : x.maxAbs y = y.maxAbs x := by
  unfold maxAbs
  split <;> split
  · exact ext_of_fields rfl (by simp only [abs]; omega)
  · rfl
  · rfl
  · omega

theorem Close.symm (h : Close fraction x y) : Close fraction y x := by
  rcases h with h | h
  · exact .inl h.symm
  · rw [distance_comm, maxAbs_comm] at h
    exact .inr h

/-! ### What is infinite -/

/-- The positive infinity. -/
def infinity : Binary64 := ofMagnitude false infinite

theorem isInf_infinity : infinity.IsInf := by decide

/-- No magnitude is larger than that of an infinity. -/
theorem maxAbs_of_isInf (hx : x.IsInf) (hy : ¬ y.IsNaN) : x.maxAbs y = infinity := by
  have hinf : infinity.magnitude = infinite := isInf_infinity
  unfold IsInf at hx
  unfold IsNaN at hy
  unfold maxAbs
  split <;>
  · refine ext_of_fields rfl ?_
    simp only [abs]
    omega

/-- An infinity is infinitely far from everything else. -/
theorem distance_of_isInf (hx : x.IsInf) (hy : ¬ y.IsNaN) (hne : x ≠ y) :
    x.distance y = infinity := by
  have hnan : ¬ (x.IsNaN ∨ y.IsNaN) := not_or.2 ⟨not_isNaN_of_isInf hx, hy⟩
  have hsame : ¬ (x.IsInf ∧ y.IsInf ∧ x.negative = y.negative) :=
    fun h => hne (eq_of_isInf hx h.2.1 h.2.2)
  unfold distance
  rw [if_neg hnan, if_neg hsame, if_pos (.inl hx)]
  rfl

/-- A fraction of at least zero, other than zero, has no minus sign. -/
theorem negative_of_atMost (h : zero.AtMost fraction) (hzero : fraction.magnitude ≠ 0) :
    fraction.negative = false := by
  have hkey : 0 ≤ fraction.orderKey := h.2.2
  have hpos : 0 < fraction.magnitude := Nat.pos_of_ne_zero hzero
  exact Bool.eq_false_iff.2 fun hs => Int.not_lt.2 hkey ((orderKey_neg_iff hpos).2 hs)

/-- A part of an infinity is infinite, or no number at all if the part is zero. -/
theorem mul_infinity (h : zero.AtMost fraction) :
    fraction.mul infinity = if fraction.magnitude = 0 then nan else infinity := by
  have hnan : ¬ (fraction.IsNaN ∨ infinity.IsNaN) :=
    not_or.2 ⟨h.2.1, not_isNaN_of_isInf isInf_infinity⟩
  unfold mul
  dsimp only
  rw [if_neg hnan, if_pos (.inr isInf_infinity)]
  by_cases hzero : fraction.magnitude = 0
  · rw [if_pos (.inl hzero), if_pos hzero]
  · have hnonzero : ¬ (fraction.magnitude = 0 ∨ infinity.magnitude = 0) :=
      not_or.2 ⟨hzero, by decide⟩
    rw [if_neg hnonzero, if_neg hzero, negative_of_atMost h hzero]
    rfl

/-- **When an infinity is close to a number**: if it is that number, and up to any fraction other
than zero. -/
theorem close_of_isInf_iff (h : zero.AtMost fraction) (hx : x.IsInf) (hy : ¬ y.IsNaN) :
    Close fraction x y ↔ x = y ∨ fraction.magnitude ≠ 0 := by
  by_cases hxy : x = y
  · subst hxy
    exact iff_of_true (.inl (sameValue_self hy)) (.inl rfl)
  · have hvalue : ¬ x.SameValue y := by
      intro hv
      rcases hv.commensurate with hf | he
      · exact not_isFinite_of_isInf hx hf.1
      · exact hxy he.2
    unfold Close
    rw [distance_of_isInf hx hy hxy, maxAbs_of_isInf hx hy, mul_infinity h]
    by_cases hzero : fraction.magnitude = 0
    · rw [if_pos hzero]
      exact iff_of_false (not_or.2 ⟨hvalue, by decide⟩) (not_or.2 ⟨hxy, fun hne => hne hzero⟩)
    · rw [if_neg hzero]
      exact iff_of_true (.inr (by decide)) (.inr hzero)

/-- **The numbers that pass for each other** up to a fraction. -/
inductive Passes (fraction : Binary64) : Binary64 → Binary64 → Prop where
  /-- Finite numbers, if their distance is small enough. -/
  | measured {x y : Binary64} : x.IsFinite → y.IsFinite → Close fraction x y → Passes fraction x y
  /-- An infinity for itself. -/
  | itself {x : Binary64} : x.IsInf → Passes fraction x x
  /-- An infinity for anything else, unless the fraction is zero. -/
  | infinite {x y : Binary64} : fraction.magnitude ≠ 0 → x.IsInf ∨ y.IsInf → Passes fraction x y

/-- Up to a fraction of zero, an infinity passes for nothing but itself. -/
theorem Passes.commensurate (hzero : fraction.magnitude = 0) (h : Passes fraction x y) :
    x.Commensurate y := by
  cases h with
  | measured hx hy _ => exact .inl ⟨hx, hy⟩
  | itself hx => exact .inr ⟨hx, rfl⟩
  | infinite hne _ => exact absurd hzero hne

/-- An infinity passes for what it equals, and for anything if the fraction is not zero. -/
theorem passes_of_isInf (hx : x.IsInf) (h : x = y ∨ fraction.magnitude ≠ 0) :
    Passes fraction x y ∧ Passes fraction y x := by
  rcases h with rfl | hne
  · exact ⟨.itself hx, .itself hx⟩
  · exact ⟨.infinite hne (.inl hx), .infinite hne (.inr hx)⟩

/-- Numbers are close exactly if they pass for each other. -/
theorem close_iff_passes (h : zero.AtMost fraction) (hx : ¬ x.IsNaN) (hy : ¬ y.IsNaN) :
    Close fraction x y ↔ Passes fraction x y := by
  constructor
  · intro hc
    rcases isFinite_or_isInf hx with hfx | hix
    · rcases isFinite_or_isInf hy with hfy | hiy
      · exact .measured hfx hfy hc
      · exact (passes_of_isInf hiy ((close_of_isInf_iff h hiy hx).1 hc.symm)).2
    · exact (passes_of_isInf hix ((close_of_isInf_iff h hix hy).1 hc)).1
  · intro hp
    cases hp with
    | measured _ _ hc => exact hc
    | itself _ => exact .inl (sameValue_self hx)
    | infinite hne hi =>
      rcases hi with hi | hi
      · exact (close_of_isInf_iff h hi hy).2 (.inr hne)
      · exact ((close_of_isInf_iff h hi hx).2 (.inr hne)).symm

end Binary64

/-! ## Members by their keys -/

namespace Members

theorem mem_of_find? {ms : Members} {key : Text} {v : Json} (h : ms.find? key = some v) :
    (key, v) ∈ ms := by
  induction ms with
  | nil => cases h
  | cons m ms ih =>
    rw [find?] at h
    split at h
    · rename_i heq
      subst heq
      obtain rfl := Option.some.inj h
      exact List.mem_cons_self
    · exact List.mem_cons_of_mem _ (ih h)

/-- A key among the later ones is not that of the first member. -/
theorem find?_cons_of_mem_keys {k key : Text} {v : Json} {ms : Members}
    (h : Sorted ((k, v) :: ms)) (hkey : key ∈ ms.keys) :
    find? ((k, v) :: ms) key = ms.find? key := by
  have hlt : k < key := (sorted_cons.1 h).1 key hkey
  rw [find?, if_neg]
  rintro rfl
  exact List.lt_irrefl _ hlt

variable {R : Json → Json → Prop} {ms ns : Members}

/-- **Members in order correspond one by one** exactly if they correspond by their keys. -/
theorem forall₂_iff_find? (hs : ms.Sorted) :
    List.Forall₂ (fun m n => m.1 = n.1 ∧ R m.2 n.2) ms ns ↔
      ms.keys = ns.keys ∧
        ∀ key v w, ms.find? key = some v → ns.find? key = some w → R v w := by
  induction ms generalizing ns with
  | nil =>
    cases ns with
    | nil => exact iff_of_true .nil ⟨rfl, fun key v w hv => nomatch hv⟩
    | cons n ns => exact iff_of_false (fun h => nomatch h) (fun h => nomatch h.1)
  | cons m ms ih =>
    cases ns with
    | nil => exact iff_of_false (fun h => nomatch h) (fun h => nomatch h.1)
    | cons n ns =>
      obtain ⟨k, v⟩ := m
      obtain ⟨l, w⟩ := n
      rw [List.forall₂_cons, ih (sorted_cons.1 hs).2]
      constructor
      · -- the first key is found in both places, any other one among the later members
        rintro ⟨⟨rfl, hr⟩, hkeys, h⟩
        refine ⟨congrArg (List.cons k) hkeys, fun key v' w' hv hw => ?_⟩
        rw [find?] at hv hw
        split at hv
        · rw [if_pos ‹_›] at hw
          obtain rfl := Option.some.inj hv
          obtain rfl := Option.some.inj hw
          exact hr
        · rw [if_neg ‹_›] at hw
          exact h key v' w' hv hw
      · rintro ⟨hkeys, h⟩
        obtain ⟨rfl, hrest⟩ : k = l ∧ keys ms = keys ns := List.cons.inj hkeys
        -- a later key is not the first one, as the keys are in order
        have hsn : Sorted ((k, w) :: ns) := by
          unfold Sorted at hs ⊢
          rwa [← hkeys]
        refine ⟨⟨rfl, h k v w (if_pos rfl) (if_pos rfl)⟩, hrest, fun key v' w' hv hw => ?_⟩
        refine h key v' w' ?_ ?_
        · rw [find?_cons_of_mem_keys hs (mem_keys_of_find? hv), hv]
        · rw [find?_cons_of_mem_keys hsn (mem_keys_of_find? hw), hw]

end Members

/-! ## Values -/

namespace Json

variable {fraction : Binary64}

/-- **Two numbers stand at the same place** of two values: under the same indices and keys. -/
inductive Counterpart (x y : Binary64) : Json → Json → Prop where
  | number : Counterpart x y (.number x) (.number y)
  | element {es fs : List Json} {i : Nat} {e f : Json} :
      es[i]? = some e → fs[i]? = some f → Counterpart x y e f →
      Counterpart x y (.array es) (.array fs)
  | member {ms ns : Members} {key : Text} {v w : Json} :
      ms.find? key = some v → ns.find? key = some w → Counterpart x y v w →
      Counterpart x y (.object ms) (.object ns)

/-- **Two values are the same but for their numbers.** -/
inductive SameShape : Json → Json → Prop where
  | null : SameShape .null .null
  | bool (b : Bool) : SameShape (.bool b) (.bool b)
  | number (x y : Binary64) : SameShape (.number x) (.number y)
  | string (t : Text) : SameShape (.string t) (.string t)
  | array {es fs : List Json} :
      es.length = fs.length →
      (∀ (i : Nat) e f, es[i]? = some e → fs[i]? = some f → SameShape e f) →
      SameShape (.array es) (.array fs)
  | object {ms ns : Members} :
      ms.keys = ns.keys →
      (∀ key v w, ms.find? key = some v → ns.find? key = some w → SameShape v w) →
      SameShape (.object ms) (.object ns)

/-- Counterparts are numbers of the two values. -/
theorem Counterpart.part {x y : Binary64} {a b : Json} (h : Counterpart x y a b) :
    Part (.number x) a ∧ Part (.number y) b := by
  induction h with
  | number => exact ⟨.whole _, .whole _⟩
  | element he hf _ ih =>
    exact ⟨.element (List.mem_of_getElem? he) ih.1, .element (List.mem_of_getElem? hf) ih.2⟩
  | member hv hw _ ih =>
    exact ⟨.member (Members.mem_of_find? hv) ih.1, .member (Members.mem_of_find? hw) ih.2⟩

/-! ### One level of a comparison -/

/-- Elements are compared one by one. -/
theorem closeElements_iff {es fs : List Json} :
    closeElements fraction es fs = true ↔
      List.Forall₂ (fun e f => close fraction e f = true) es fs := by
  induction es generalizing fs with
  | nil => cases fs <;> simp [closeElements]
  | cons e es ih => cases fs <;> simp [closeElements, ih]

/-- Members are compared one by one, keys first. -/
theorem closeMembers_iff {ms ns : Members} :
    closeMembers fraction ms ns = true ↔
      List.Forall₂ (fun m n => m.1 = n.1 ∧ close fraction m.2 n.2 = true) ms ns := by
  induction ms generalizing ns with
  | nil => cases ns <;> simp [closeMembers]
  | cons m ms ih => cases ns <;> simp [closeMembers, ih]

/-- Arrays are close element by element. -/
theorem close_array {es fs : List Json} :
    close fraction (.array es) (.array fs) = true ↔
      es.length = fs.length ∧
        ∀ (i : Nat) e f, es[i]? = some e → fs[i]? = some f → close fraction e f = true := by
  rw [close, closeElements_iff, List.forall₂_iff_get]
  refine and_congr_right fun _ => ⟨fun h i e f he hf => ?_, fun h i hi hj => ?_⟩
  · obtain ⟨hi, rfl⟩ := List.getElem?_eq_some_iff.1 he
    obtain ⟨hj, rfl⟩ := List.getElem?_eq_some_iff.1 hf
    exact h i hi hj
  · exact h i _ _ (List.getElem?_eq_getElem hi) (List.getElem?_eq_getElem hj)

/-- Objects are close key by key. -/
theorem close_object {ms ns : Members} (hs : ms.Sorted) :
    close fraction (.object ms) (.object ns) = true ↔
      ms.keys = ns.keys ∧
        ∀ key v w, ms.find? key = some v → ns.find? key = some w → close fraction v w = true := by
  rw [close, closeMembers_iff]
  exact Members.forall₂_iff_find? (R := fun v w => close fraction v w = true) hs

/-! ### Whole values -/

variable {a b : Json} {x y : Binary64}

theorem SameShape.symm (h : SameShape a b) : SameShape b a := by
  induction h with
  | null => exact .null
  | bool c => exact .bool c
  | number x y => exact .number y x
  | string t => exact .string t
  | array hlength _ ih => exact .array hlength.symm fun i f e hf he => ih i e f he hf
  | object hkeys _ ih => exact .object hkeys.symm fun key w v hw hv => ih key v w hv hw

theorem Counterpart.symm (h : Counterpart x y a b) : Counterpart y x b a := by
  induction h with
  | number => exact .number
  | element he hf _ ih => exact .element hf he ih
  | member hv hw _ ih => exact .member hw hv ih

/-- Every value has its own shape. -/
theorem sameShape_self (a : Json) : SameShape a a := by
  induction a using Json.induction with
  | null => exact .null
  | bool c => exact .bool c
  | number x => exact .number x x
  | string t => exact .string t
  | array es ih =>
    refine .array rfl fun i e f he hf => ?_
    obtain rfl := Option.some.inj (he.symm.trans hf)
    exact ih e (List.mem_of_getElem? he)
  | object ms ih =>
    refine .object rfl fun key v w hv hw => ?_
    obtain rfl := Option.some.inj (hv.symm.trans hw)
    exact ih _ (Members.mem_of_find? hv)

/-- In one and the same value, a number is its own counterpart. -/
theorem Counterpart.eq_of_self (h : Counterpart x y a a) : x = y := by
  induction a using Json.induction with
  | null => cases h
  | bool c => cases h
  | number z => cases h; rfl
  | string t => cases h
  | array es ih =>
    cases h with
    | element he hf hc =>
      obtain rfl := Option.some.inj (he.symm.trans hf)
      exact ih _ (List.mem_of_getElem? he) hc
  | object ms ih =>
    cases h with
    | member hv hw hc =>
      obtain rfl := Option.some.inj (hv.symm.trans hw)
      exact ih _ (Members.mem_of_find? hv) hc

/-- Values that are close have the same shape. -/
theorem sameShape_of_close (ha : a.Canonical) (h : close fraction a b = true) : SameShape a b := by
  -- values of two different kinds are never close
  induction a using Json.induction generalizing b with
  | null =>
    cases b with
    | null => exact .null
    | _ => cases h
  | bool c =>
    cases b with
    | bool d =>
      obtain rfl := eq_of_beq h
      exact .bool c
    | _ => cases h
  | number x =>
    cases b with
    | number y => exact .number x y
    | _ => cases h
  | string t =>
    cases b with
    | string u =>
      obtain rfl := eq_of_beq h
      exact .string t
    | _ => cases h
  | array es ih =>
    cases b with
    | array fs =>
      obtain ⟨hlength, hes⟩ := close_array.1 h
      refine .array hlength fun i e f he hf => ?_
      have hmem := List.mem_of_getElem? he
      exact ih e hmem (ha.element hmem) (hes i e f he hf)
    | _ => cases h
  | object ms ih =>
    cases b with
    | object ns =>
      obtain ⟨hkeys, hms⟩ := (close_object ha.sorted).1 h
      refine .object hkeys fun key v w hv hw => ?_
      have hmem := Members.mem_of_find? hv
      exact ih _ hmem (ha.member hmem) (hms key v w hv hw)
    | _ => cases h

/-- Counterparts in close values are close. -/
theorem Counterpart.close (hc : Counterpart x y a b) (ha : a.Canonical)
    (h : Json.close fraction a b = true) : Binary64.Close fraction x y := by
  induction hc with
  | number => exact of_decide_eq_true h
  | element he hf _ ih =>
    exact ih (ha.element (List.mem_of_getElem? he)) ((close_array.1 h).2 _ _ _ he hf)
  | member hv hw _ ih =>
    exact ih (ha.member (Members.mem_of_find? hv)) (((close_object ha.sorted).1 h).2 _ _ _ hv hw)

/-- Values of the same shape are close if their counterparts are. -/
theorem SameShape.close (hs : SameShape a b) (ha : a.Canonical)
    (h : ∀ x y, Counterpart x y a b → Binary64.Close fraction x y) :
    Json.close fraction a b = true := by
  induction hs with
  | null => rfl
  | bool c => exact beq_self_eq_true c
  | number x y => exact decide_eq_true (h x y .number)
  | string t => exact beq_self_eq_true t
  | array hlength _ ih =>
    refine close_array.2 ⟨hlength, fun i e f he hf => ?_⟩
    exact ih i e f he hf (ha.element (List.mem_of_getElem? he)) fun x y hc =>
      h x y (.element he hf hc)
  | object hkeys _ ih =>
    refine (close_object ha.sorted).2 ⟨hkeys, fun key v w hv hw => ?_⟩
    exact ih key v w hv hw (ha.member (Members.mem_of_find? hv)) fun x y hc =>
      h x y (.member hv hw hc)

/-- **What it means for two values to be close**: they have the same shape, and their counterparts
are close. -/
theorem close_iff (ha : a.Canonical) :
    close fraction a b = true ↔
      SameShape a b ∧ ∀ x y, Counterpart x y a b → Binary64.Close fraction x y := by
  constructor
  · exact fun h => ⟨sameShape_of_close ha h, fun x y hc => hc.close ha h⟩
  · exact fun h => h.1.close ha h.2

theorem close_symm (ha : a.Canonical) (hb : b.Canonical) (h : close fraction a b = true) :
    close fraction b a = true := by
  obtain ⟨hshape, hclose⟩ := (close_iff ha).1 h
  exact (close_iff hb).2 ⟨hshape.symm, fun x y hc => (hclose y x hc.symm).symm⟩

/-- **Comparing up to a fraction is symmetric.** -/
theorem close_comm (ha : a.Canonical) (hb : b.Canonical) :
    close fraction a b = close fraction b a :=
  Bool.eq_iff_iff.2 ⟨close_symm ha hb, close_symm hb ha⟩

/-- **A value without NaN is close to itself**, up to any fraction. -/
theorem close_self (ha : a.Canonical) (hn : a.NoNaN) : close fraction a a = true := by
  refine (close_iff ha).2 ⟨sameShape_self a, fun x y hc => ?_⟩
  obtain rfl := hc.eq_of_self
  exact .inl (Binary64.sameValue_self (hn x hc.part.1))

/-! ## Infinities -/

/-- A comparison up to `fraction` **tells infinities** from other numbers: in values that are
close, every infinity has itself for a counterpart. -/
def TellsInfinities (fraction : Binary64) : Prop :=
  ∀ a b : Json, a.Canonical → b.Canonical → a.NoNaN → b.NoNaN → close fraction a b = true →
    ∀ x y, Counterpart x y a b → x.Commensurate y

/-- The counterparts in close values pass for each other, and that is all there is to it. -/
theorem close_iff_counterparts_pass (h : Binary64.zero.AtMost fraction) (ha : a.Canonical)
    (hna : a.NoNaN) (hnb : b.NoNaN) :
    close fraction a b = true ↔
      SameShape a b ∧ ∀ x y, Counterpart x y a b → Binary64.Passes fraction x y := by
  rw [close_iff ha]
  refine and_congr_right fun _ => forall₂_congr fun x y => imp_congr_right fun hc => ?_
  exact Binary64.close_iff_passes h (hna x hc.part.1) (hnb y hc.part.2)

/-- **Only a fraction of zero tells infinities from other numbers.** -/
theorem tellsInfinities_iff (h : Binary64.zero.AtMost fraction) :
    TellsInfinities fraction ↔ fraction.magnitude = 0 := by
  constructor
  · intro ht
    refine Classical.byContradiction fun hne => ?_
    have hz : ¬ Binary64.zero.IsNaN := h.1
    have hclose : close fraction (.number .infinity) (.number .zero) = true :=
      decide_eq_true ((Binary64.close_of_isInf_iff h Binary64.isInf_infinity hz).2 (.inr hne))
    have hcommensurate := ht _ _ (.number _) (.number _) (noNaN_number.2 (by decide))
      (noNaN_number.2 hz) hclose _ _ .number
    exact absurd hcommensurate (by decide)
  · intro hzero a b ha _ hna hnb hclose x y hc
    exact (((close_iff_counterparts_pass h ha hna hnb).1 hclose).2 x y hc).commensurate hzero

/-- **What comparing up to a fraction makes of infinities.** Infinities are told from other numbers
exactly if the fraction is zero. Up to any fraction, the comparison is symmetric and every value
equals itself, and values are close exactly if they have the same shape and their counterparts pass
for each other: finite numbers by their distance, an infinity for itself, and, unless the fraction
is zero, an infinity for anything. -/
theorem close_infinities {fraction : Binary64} (h : Binary64.zero.AtMost fraction) :
    (TellsInfinities fraction ↔ fraction.magnitude = 0) ∧
      ∀ a b : Json, a.Canonical → b.Canonical → a.NoNaN → b.NoNaN →
        close fraction a b = close fraction b a ∧ close fraction a a = true ∧
          (close fraction a b = true ↔
            SameShape a b ∧ ∀ x y, Counterpart x y a b → Binary64.Passes fraction x y) := by
  refine ⟨tellsInfinities_iff h, fun a b ha hb hna hnb => ⟨?_, ?_, ?_⟩⟩
  · exact close_comm ha hb
  · exact close_self ha hna
  · exact close_iff_counterparts_pass h ha hna hnb

/-- The number `1e-12`. -/
def trillionth : Binary64 := .ofBits 0x3D719799812DEA11

/-- The number one. -/
def one : Binary64 := .ofBits 0x3FF0000000000000

/-- The negative infinity. -/
def negativeInfinity : Binary64 := .ofMagnitude true Binary64.infinite

/-- The object `{"range":[x,1]}`. -/
def rangeFrom (x : Binary64) : Json := .object [(utf8 "range", .array [.number x, .number one])]

theorem canonical_rangeFrom (x : Binary64) : (rangeFrom x).Canonical := by
  refine .object (List.pairwise_singleton _ _) fun m hm => ?_
  obtain rfl := List.mem_singleton.1 hm
  refine .array (List.forall_mem_cons.2 ⟨.number x, fun e he => ?_⟩)
  obtain rfl := List.mem_singleton.1 he
  exact .number one

theorem noNaN_rangeFrom {x : Binary64} (h : ¬ x.IsNaN) : (rangeFrom x).NoNaN := by
  refine noNaN_object.2 fun m hm => ?_
  obtain rfl := List.mem_singleton.1 hm
  refine noNaN_array.2 (List.forall_mem_cons.2 ⟨noNaN_number.2 h, fun e he => ?_⟩)
  obtain rfl := List.mem_singleton.1 he
  exact noNaN_number.2 (by decide)

/-- Up to a fraction of `1e-12`, the two infinities are not told apart. -/
theorem close_infinities_opposite :
    Binary64.zero.AtMost trillionth ∧ ¬ TellsInfinities trillionth ∧
      close trillionth (rangeFrom .infinity) (rangeFrom negativeInfinity) = true ∧
      Binary64.Passes trillionth negativeInfinity .infinity := by
  have h : Binary64.zero.AtMost trillionth := by decide
  have hneg : ¬ negativeInfinity.IsNaN := by decide
  have hpos : ¬ Binary64.infinity.IsNaN := by decide
  have hclose : close trillionth (rangeFrom negativeInfinity) (rangeFrom .infinity) = true := by
    decide
  have hplace : Counterpart negativeInfinity .infinity (rangeFrom negativeInfinity)
      (rangeFrom .infinity) := by
    have hkey (x : Binary64) : Members.find? [(utf8 "range", .array [.number x, .number one])]
        (utf8 "range") = some (.array [.number x, .number one]) := rfl
    exact .member (hkey _) (hkey _) (.element (i := 0) rfl rfl .number)
  obtain ⟨htells, hvalues⟩ := close_infinities h
  obtain ⟨hsymm, -, hpasses⟩ := hvalues _ _ (canonical_rangeFrom negativeInfinity)
    (canonical_rangeFrom .infinity) (noNaN_rangeFrom hneg) (noNaN_rangeFrom hpos)
  refine ⟨h, ?_, ?_, ?_⟩
  · intro ht
    exact absurd (htells.1 ht) (by decide)
  · rw [← hsymm]
    exact hclose
  · exact (hpasses.1 hclose).2 _ _ hplace

/-- An infinity is close to one, up to a fraction of `1e-12`. -/
theorem close_infinity_one :
    (Binary64.zero.AtMost trillionth ∧ ¬ one.AtMost trillionth) ∧
      (NoNaN (.number .infinity) ∧ NoNaN (.number one)) ∧
      close trillionth (.number .infinity) (.number one) = true ∧
      Counterpart .infinity one (.number .infinity) (.number one) ∧
      ¬ Binary64.infinity.Commensurate one := by
  refine ⟨by decide, ⟨?_, ?_⟩, by decide, .number, by decide⟩
  · exact noNaN_number.2 (by decide)
  · exact noNaN_number.2 (by decide)

end Json

end Descent
