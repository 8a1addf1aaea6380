import Descent.Proofs.Json.Members
import Descent.Proofs.Text.Utf8

/-!
# Repaired values

A string or key may hold stray bytes, which no JSON text can express. To **repair**
a value is to put U+FFFD in the place of each of them. Keys of one object that were
different may then be the same, and the member whose key was the greatest prevails.

* `Part`: what is inside a value.
* `repairKeys_eq`: in sorted members, the last one prevails.
* `repair_eq_self`: a well-formed value needs no repair.
-/

namespace Descent

/-- **Induction on values**: for all elements of an array, for all members of an object. -/
theorem Json.induction {motive : Json → Prop} (null : motive .null)
    (bool : ∀ b, motive (.bool b)) (number : ∀ x, motive (.number x))
    (string : ∀ t, motive (.string t))
    (array : ∀ es, (∀ e ∈ es, motive e) → motive (.array es))
    (object : ∀ ms : Members, (∀ m ∈ ms, motive m.2) → motive (.object ms)) (v : Json) :
    motive v := by
  refine @Json.rec motive (fun es => ∀ e ∈ es, motive e) (fun ms => ∀ m ∈ ms, motive m.2)
    (fun m => motive m.2) null bool number string array object ?_ ?_ ?_ ?_ ?_ v
  · intro e he
    cases he
  · intro e es he hes e' he'
    rcases List.mem_cons.1 he' with rfl | he'
    · exact he
    · exact hes e' he'
  · intro m hm
    cases hm
  · intro m ms hm hms m' hm'
    rcases List.mem_cons.1 hm' with rfl | hm'
    · exact hm
    · exact hms m' hm'
  · intro k v hv
    exact hv

namespace Json

/-! ## Parts of a value -/

/-- **A value is part of another**: it is that value, or part of an element or of the value of
a member. -/
inductive Part : Json → Json → Prop where
  | whole (v : Json) : Part v v
  | element {p e : Json} {es : List Json} : e ∈ es → Part p e → Part p (.array es)
  | member {p : Json} {m : Text × Json} {ms : Members} :
      m ∈ ms → Part p m.2 → Part p (.object ms)

/-- Every number in the value is one. -/
def NoNaN (v : Json) : Prop := ∀ x, Part (.number x) v → ¬ x.IsNaN

/-- Every string and every key in the value is well-formed. -/
structure WellFormed (v : Json) : Prop where
  string : ∀ t, Part (.string t) v → Utf8.isValid t = true
  key : ∀ ms, Part (.object ms) v → ∀ k ∈ Members.keys ms, Utf8.isValid k = true

theorem noNaN_null : NoNaN .null := by
  intro x hx
  cases hx

theorem noNaN_bool (b : Bool) : NoNaN (.bool b) := by
  intro x hx
  cases hx

theorem noNaN_number {x : Binary64} : NoNaN (.number x) ↔ ¬ x.IsNaN := by
  constructor
  · exact fun h => h x (.whole _)
  · intro h y hy
    cases hy
    exact h

theorem noNaN_string (t : Text) : NoNaN (.string t) := by
  intro x hx
  cases hx

theorem noNaN_array {es : List Json} : NoNaN (.array es) ↔ ∀ e ∈ es, NoNaN e := by
  constructor
  · exact fun h e he x hx => h x (.element he hx)
  · intro h x hx
    cases hx with
    | element he hx => exact h _ he x hx

theorem noNaN_object {ms : Members} : NoNaN (.object ms) ↔ ∀ m ∈ ms, NoNaN m.2 := by
  constructor
  · exact fun h m hm x hx => h x (.member hm hx)
  · intro h x hx
    cases hx with
    | member hm hx => exact h _ hm x hx

theorem Canonical.element {es : List Json} (h : Canonical (.array es)) {e : Json} (he : e ∈ es) :
    e.Canonical := by
  cases h with
  | array h => exact h e he

theorem Canonical.member {ms : Members} (h : Canonical (.object ms)) {m : Text × Json}
    (hm : m ∈ ms) : m.2.Canonical := by
  cases h with
  | object _ h => exact h m hm

theorem Canonical.sorted {ms : Members} (h : Canonical (.object ms)) : ms.Sorted := by
  cases h with
  | object h _ => exact h

theorem WellFormed.element {es : List Json} (h : WellFormed (.array es)) {e : Json} (he : e ∈ es) :
    WellFormed e where
  string t ht := h.string t (.element he ht)
  key ms hms := h.key ms (.element he hms)

theorem WellFormed.member {ms : Members} (h : WellFormed (.object ms)) {m : Text × Json}
    (hm : m ∈ ms) : WellFormed m.2 where
  string t ht := h.string t (.member hm ht)
  key ms' hms := h.key ms' (.member hm hms)

/-! ## Repair -/

/-- A text with U+FFFD in place of each stray byte. -/
def repairText (t : Text) : Text := Utf8.encode (Utf8.decode t)

/-- A member **prevails** if no other key with the same repair is greater. -/
def Prevails (ms : Members) (m : Text × Json) : Prop :=
  ∀ m' ∈ ms, repairText m'.1 = repairText m.1 → ¬ m.1 < m'.1

instance (ms : Members) (m : Text × Json) : Decidable (Prevails ms m) :=
  inferInstanceAs (Decidable (∀ m' ∈ ms, repairText m'.1 = repairText m.1 → ¬ m.1 < m'.1))

/-- Members with their keys repaired; of those that come to have the same key, the one that
prevails is kept. -/
def repairKeys (ms : Members) : Members :=
  Members.ofList ((ms.filter fun m => Prevails ms m).map fun m => (repairText m.1, m.2))

mutual

/-- **A value with its strings and keys repaired.** -/
def repair : Json → Json
  | .null => .null
  | .bool b => .bool b
  | .number x => .number x
  | .string t => .string (repairText t)
  | .array es => .array (repairElements es)
  | .object ms => .object (repairKeys (repairValues ms))

/-- Elements, each repaired. -/
def repairElements : List Json → List Json
  | [] => []
  | e :: es => e.repair :: repairElements es

/-- Members with their values repaired, under their keys as they are. -/
def repairValues : List (Text × Json) → List (Text × Json)
  | [] => []
  | (k, v) :: ms => (k, v.repair) :: repairValues ms

end

theorem repairElements_eq (es : List Json) : repairElements es = es.map repair := by
  induction es with
  | nil => rfl
  | cons e es ih => rw [repairElements, ih, List.map_cons]

theorem repairValues_eq (ms : Members) :
    repairValues ms = ms.map fun m => (m.1, m.2.repair) := by
  induction ms with
  | nil => rfl
  | cons m ms ih => rw [repairValues, ih, List.map_cons]

/-! ## The last member prevails -/

/-- A search is not changed by a filter that keeps what it finds. -/
theorem find?_filter_of_keeps {α : Type} {accepts keeps : α → Bool} {l : List α}
    (h : ∀ a, l.find? accepts = some a → keeps a = true) :
    (l.filter keeps).find? accepts = l.find? accepts := by
  rw [List.find?_filter]
  cases hf : l.find? accepts with
  | none =>
    rw [List.find?_eq_none] at hf ⊢
    intro a ha hk
    exact hf a ha (Bool.and_eq_true_iff.1 (by simpa using hk)).2
  | some a =>
    have hkeep := h a hf
    rw [List.find?_eq_some_iff_append] at hf ⊢
    obtain ⟨ha, as, bs, hl, has⟩ := hf
    refine ⟨by simp [hkeep, ha], as, bs, hl, fun x hx => ?_⟩
    have := has x hx
    simp only [Bool.not_eq_true'] at this ⊢
    simp [this]

/-- Of sorted members, the last with a repaired key prevails. -/
theorem prevails_of_find? {ms : Members} (hs : ms.Sorted) {key : Text} {m : Text × Json}
    (h : ms.reverse.find? (fun m => repairText m.1 == key) = some m) : Prevails ms m := by
  obtain ⟨hm, as, bs, hl, has⟩ := List.find?_eq_some_iff_append.1 h
  intro m' hm' he hlt
  have hdec : ms.reverse.Pairwise fun a b => b.1 < a.1 := by
    rw [List.pairwise_reverse]
    exact List.pairwise_map.1 hs
  have hm'' : m' ∈ as ++ m :: bs := by
    rw [← hl]
    exact List.mem_reverse.2 hm'
  rcases List.mem_append.1 hm'' with hin | hin
  · -- before the last one there is none with its key
    have := has m' hin
    rw [he, hm] at this
    cases this
  · rcases List.mem_cons.1 hin with rfl | hin
    · exact List.lt_irrefl _ hlt
    -- after it, in the reversed list, all keys are smaller
    · rw [hl, List.pairwise_append] at hdec
      have hgt : m'.1 < m.1 := (List.pairwise_cons.1 hdec.2.1).1 m' hin
      exact List.lt_irrefl _ (List.lt_trans hlt hgt)

/-- The last value of a repaired key is that of the last key which is repaired to it. -/
theorem lastValue?_map (key : Text) (ms : Members) :
    Syntax.lastValue? key (ms.map fun m => (repairText m.1, m.2)) =
      (ms.reverse.find? fun m => repairText m.1 == key).map Prod.snd := by
  unfold Syntax.lastValue?
  rw [← List.map_reverse, List.find?_map, Option.map_map]
  rfl

/-- **In sorted members, the last one prevails**: to keep those that prevail is to insert all
of them in order. -/
theorem repairKeys_eq {ms : Members} (hs : ms.Sorted) :
    repairKeys ms = Members.ofList (ms.map fun m => (repairText m.1, m.2)) := by
  -- both sides are sorted, so it suffices to look up each key
  refine Members.ext_of_sorted (Members.sorted_ofList _) (Members.sorted_ofList _) fun key => ?_
  rw [repairKeys, Members.find?_ofList, Members.find?_ofList, lastValue?_map, lastValue?_map,
    ← List.filter_reverse]
  congr 1
  refine find?_filter_of_keeps fun m hm => ?_
  exact decide_eq_true (prevails_of_find? hs hm)

/-! ## Nothing to repair -/

/-- A well-formed text needs no repair. -/
theorem repairText_eq_self {t : Text} (h : Utf8.isValid t = true) : repairText t = t :=
  Utf8.encode_decode h

theorem keys_repairValues (ms : Members) : Members.keys (repairValues ms) = ms.keys := by
  rw [repairValues_eq, Members.keys, List.map_map]
  rfl

/-- To repair the values keeps the keys in order. -/
theorem sorted_repairValues {ms : Members} (h : ms.Sorted) : Members.Sorted (repairValues ms) := by
  unfold Members.Sorted
  rwa [keys_repairValues]

/-- **A well-formed value needs no repair.** -/
theorem repair_eq_self {v : Json} (hc : v.Canonical) (hw : v.WellFormed) : v.repair = v := by
  induction v using Json.induction with
  | null => rfl
  | bool b => rfl
  | number x => rfl
  | string t =>
    rw [repair, repairText_eq_self (hw.string t (.whole _))]
  | array es ih =>
    have hmap : es.map repair = es.map id :=
      List.map_congr_left fun e he => ih e he (hc.element he) (hw.element he)
    rw [repair, repairElements_eq, hmap, List.map_id]
  | object ms ih =>
    have hvalues : repairValues ms = ms := by
      have hmap : ms.map (fun m => (m.1, m.2.repair)) = ms.map id :=
        List.map_congr_left fun m hm => by
          rw [ih m hm (hc.member hm) (hw.member hm)]
          rfl
      rw [repairValues_eq, hmap, List.map_id]
    have hkeys : ms.map (fun m => (repairText m.1, m.2)) = ms.map id :=
      List.map_congr_left fun m hm => by
        rw [repairText_eq_self (hw.key ms (.whole _) m.1 (List.mem_map_of_mem hm))]
        rfl
    rw [repair, hvalues, repairKeys_eq hc.sorted, hkeys, List.map_id,
      Members.ofList_of_sorted hc.sorted]

end Json

end Descent
