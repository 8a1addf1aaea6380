import Descent.Json.Render
import Descent.Proofs.Json.Members
import Mathlib.Data.List.Dedup

/-!
# Values as they are put together

A **draft** says how a value is put together: an object by a sequence of insertions,
of which the last one of each key counts, and so at every level. Two drafts give
the same value exactly if they come to the same mappings, whatever the order of
their insertions and whatever was replaced on the way.

* `Draft.Same`: the same mapping at every level.
* `Draft.value_eq_iff`: this is what decides about the value.
* `Draft.Shuffled`: insertions in another order, that of each key kept.
* `Members.mem_keys_ofList`, `Members.length_ofList`: the keys of an object.
-/

namespace Descent

/-! ## The keys of members -/

namespace Members

open Json.Syntax (lastValue?)

theorem exists_find?_of_mem_keys {ms : Members} {key : Text} (h : key ∈ ms.keys) :
    ∃ v, ms.find? key = some v := by
  induction ms with
  | nil => cases h
  | cons m ms ih =>
    rw [find?]
    split
    · exact ⟨_, rfl⟩
    · rename_i hne
      exact ih ((List.mem_cons.1 h).resolve_left hne)

theorem mem_keys_iff {ms : Members} {key : Text} : key ∈ ms.keys ↔ ∃ v, ms.find? key = some v :=
  ⟨exists_find?_of_mem_keys, fun ⟨_, hv⟩ => mem_keys_of_find? hv⟩

/-- A key has a last value if it is one of the keys. -/
theorem exists_lastValue?_iff {ms : List (Text × Json)} {key : Text} :
    (∃ v, lastValue? key ms = some v) ↔ key ∈ ms.map Prod.fst := by
  unfold lastValue?
  rw [← Option.isSome_iff_exists, Option.isSome_map, List.find?_isSome]
  simp only [List.mem_reverse, List.mem_map, beq_iff_eq]

/-- **The keys are the inserted ones.** -/
theorem mem_keys_ofList {ms : List (Text × Json)} {key : Text} :
    key ∈ (ofList ms).keys ↔ key ∈ ms.map Prod.fst := by
  rw [mem_keys_iff, ← exists_lastValue?_iff]
  simp only [find?_ofList]

/-- Keys in order are all different. -/
theorem nodup_keys {ms : Members} (h : ms.Sorted) : ms.keys.Nodup := by
  refine List.Pairwise.imp (fun {a b} hlt => ?_) h
  rintro rfl
  exact List.lt_irrefl _ hlt

/-- **There are as many members as different keys.** -/
theorem length_ofList (ms : List (Text × Json)) :
    (ofList ms).length = (ms.map Prod.fst).dedup.length := by
  have hkeys : (ofList ms).keys.length = (ofList ms).length := List.length_map _
  have hperm : (ofList ms).keys.Perm (ms.map Prod.fst).dedup := by
    rw [List.perm_ext_iff_of_nodup (nodup_keys (sorted_ofList ms)) (List.nodup_dedup _)]
    intro key
    rw [mem_keys_ofList, List.mem_dedup]
  rw [← hkeys, hperm.length_eq]

end Members

namespace Json

open Syntax (lastValue?)

/-! ## Drafts -/

/-- **A value as it is put together.** An object is a sequence of insertions. -/
inductive Draft where
  | null
  | bool (b : Bool)
  | number (x : Binary64)
  | string (t : Text)
  | array (elements : List Draft)
  | object (insertions : List (Text × Draft))

namespace Draft

/-- **Induction on drafts**: for all elements of an array, for all insertions of an object. -/
theorem induction {motive : Draft → Prop} (null : motive .null) (bool : ∀ b, motive (.bool b))
    (number : ∀ x, motive (.number x)) (string : ∀ t, motive (.string t))
    (array : ∀ ds, (∀ d ∈ ds, motive d) → motive (.array ds))
    (object : ∀ ms : List (Text × Draft), (∀ m ∈ ms, motive m.2) → motive (.object ms))
    (d : Draft) : motive d := by
  refine @Draft.rec motive (fun ds => ∀ d ∈ ds, motive d) (fun ms => ∀ m ∈ ms, motive m.2)
    (fun m => motive m.2) null bool number string array object nofun ?_ nofun ?_ ?_ d
  · intro d ds hd hds
    exact List.forall_mem_cons.2 ⟨hd, hds⟩
  · intro m ms hm hms
    exact List.forall_mem_cons.2 ⟨hm, hms⟩
  · intro k d hd
    exact hd

mutual

/-- **The value that a draft comes to**: later insertions of a key replace earlier ones. -/
def value : Draft → Json
  | .null => .null
  | .bool b => .bool b
  | .number x => .number x
  | .string t => .string t
  | .array ds => .array (values ds)
  | .object ms => .ofMembers (memberValues ms)

/-- Elements, each as the value it comes to. -/
def values : List Draft → List Json
  | [] => []
  | d :: ds => d.value :: values ds

/-- Insertions, each with the value it comes to. -/
def memberValues : List (Text × Draft) → List (Text × Json)
  | [] => []
  | (k, d) :: ms => (k, d.value) :: memberValues ms

end

theorem values_eq (ds : List Draft) : values ds = ds.map value := by
  induction ds with
  | nil => rfl
  | cons d ds ih => rw [values, ih, List.map_cons]

theorem memberValues_eq (ms : List (Text × Draft)) :
    memberValues ms = ms.map fun m => (m.1, m.2.value) := by
  induction ms with
  | nil => rfl
  | cons m ms ih => rw [memberValues, ih, List.map_cons]

theorem value_array (ds : List Draft) : (array ds).value = .array (ds.map value) := by
  rw [value, values_eq]

theorem value_object (ms : List (Text × Draft)) :
    (object ms).value = .ofMembers (ms.map fun m => (m.1, m.2.value)) := by
  rw [value, memberValues_eq]

/-- What was inserted last under a key. -/
def last? (key : Text) (ms : List (Text × Draft)) : Option Draft :=
  (ms.reverse.find? fun m => m.1 == key).map Prod.snd

/-- The last member with a key, in a draft and in its value. -/
theorem lastValue?_map (key : Text) (ms : List (Text × Draft)) :
    lastValue? key (ms.map fun m => (m.1, m.2.value)) = (last? key ms).map value := by
  unfold lastValue? last?
  rw [← List.map_reverse, List.find?_map, Option.map_map, Option.map_map]
  rfl

theorem mem_of_last? {key : Text} {ms : List (Text × Draft)} {d : Draft}
    (h : last? key ms = some d) : (key, d) ∈ ms := Members.mem_of_find?_reverse h

/-- Objects are the same if each key has the same value, or none, in both. -/
theorem value_object_eq_iff {ms ms' : List (Text × Draft)} :
    (object ms).value = (object ms').value ↔
      ∀ key, (last? key ms).map value = (last? key ms').map value := by
  rw [value_object, value_object, ofMembers, ofMembers, Json.object.injEq]
  constructor
  · intro h key
    rw [← lastValue?_map, ← lastValue?_map, ← Members.find?_ofList, ← Members.find?_ofList, h]
  · intro h
    refine Members.ext_of_sorted (Members.sorted_ofList _) (Members.sorted_ofList _) fun key => ?_
    rw [Members.find?_ofList, Members.find?_ofList, lastValue?_map, lastValue?_map, h key]

/-! ## The same mapping -/

/-- **Two drafts come to the same**: arrays element by element, and objects key by key, where only
the last insertion of a key counts. -/
inductive Same : Draft → Draft → Prop where
  | null : Same .null .null
  | bool (b : Bool) : Same (.bool b) (.bool b)
  | number (x : Binary64) : Same (.number x) (.number x)
  | string (t : Text) : Same (.string t) (.string t)
  | array {ds ds' : List Draft} :
      ds.length = ds'.length →
      (∀ (i : Nat) d d', ds[i]? = some d → ds'[i]? = some d' → Same d d') →
      Same (.array ds) (.array ds')
  | object {ms ms' : List (Text × Draft)} :
      (∀ key, last? key ms = none ↔ last? key ms' = none) →
      (∀ key d d', last? key ms = some d → last? key ms' = some d' → Same d d') →
      Same (.object ms) (.object ms')

/-- Drafts that come to the same have the same value. -/
theorem Same.value_eq {d d' : Draft} (h : Same d d') : d.value = d'.value := by
  induction h with
  | null => rfl
  | bool b => rfl
  | number x => rfl
  | string t => rfl
  | @array ds ds' hlen _ ih =>
    rw [value_array, value_array, Json.array.injEq]
    refine List.ext_getElem (by simpa using hlen) fun i hi hi' => ?_
    rw [List.getElem_map, List.getElem_map]
    exact ih i _ _ (List.getElem?_eq_getElem _) (List.getElem?_eq_getElem _)
  | @object ms ms' hnone _ ih =>
    refine value_object_eq_iff.2 fun key => ?_
    cases hd : last? key ms with
    | none => rw [(hnone key).1 hd]
    | some d =>
      cases hd' : last? key ms' with
      | none =>
        rw [(hnone key).2 hd'] at hd
        cases hd
      | some d' => rw [Option.map_some, Option.map_some, ih key d d' hd hd']

/-- Drafts with the same value come to the same. -/
theorem same_of_value_eq {d d' : Draft} (h : d.value = d'.value) : Same d d' := by
  induction d using Draft.induction generalizing d' with
  | null => cases d' <;> cases h; exact .null
  | bool b => cases d' <;> cases h; exact .bool b
  | number x => cases d' <;> cases h; exact .number x
  | string t => cases d' <;> cases h; exact .string t
  | array ds ih =>
    cases d' with
    | array ds' =>
      rw [value_array, value_array, Json.array.injEq] at h
      refine .array (by simpa using congrArg List.length h) fun i d d' hd hd' => ?_
      refine ih d (List.mem_of_getElem? hd) ?_
      have hi := congrArg (·[i]?) h
      simpa [hd, hd'] using hi
    | _ => cases h
  | object ms ih =>
    cases d' with
    | object ms' =>
      have hkey := value_object_eq_iff.1 h
      refine .object (fun key => ?_) fun key d d' hd hd' => ?_
      · rw [← Option.map_eq_none_iff (f := value), hkey key, Option.map_eq_none_iff]
      · refine ih (key, d) (mem_of_last? hd) ?_
        simpa [hd, hd'] using hkey key
    | _ => cases h

/-- **A value is determined by its mappings**, and determines them. -/
theorem value_eq_iff {d d' : Draft} : d.value = d'.value ↔ Same d d' :=
  ⟨same_of_value_eq, Same.value_eq⟩

/-! ## Insertions in another order -/

/-- **Members in another order**, in which those with the same key follow one another as before. -/
structure Rearranged (ms ms' : List (Text × Draft)) : Prop where
  perm : ms.Perm ms'
  order : ∀ key, ms.filter (fun m => m.1 == key) = ms'.filter fun m => m.1 == key

/-- The last member with a key is the last one of those that have it. -/
theorem last?_eq_filter (key : Text) (ms : List (Text × Draft)) :
    last? key ms = (ms.filter fun m => m.1 == key).getLast?.map Prod.snd := by
  unfold last?
  rw [← List.head?_filter, List.filter_reverse, List.head?_reverse]

/-- Neighbours with different keys may change places. -/
theorem Rearranged.swap {m m' : Text × Draft} (hne : m.1 ≠ m'.1)
    (before after : List (Text × Draft)) :
    Rearranged (before ++ m :: m' :: after) (before ++ m' :: m :: after) where
  perm := (List.Perm.swap m' m after).append_left before
  order key := by
    by_cases h : m.1 = key
    · have h' : m'.1 ≠ key := fun h' => hne (h.trans h'.symm)
      simp [h, h']
    · simp [List.filter_cons, h]

/-- **Members are rearranged** in any of the objects of a draft, any number of times. -/
inductive Shuffled : Draft → Draft → Prop where
  | refl (d : Draft) : Shuffled d d
  | trans {d d' d'' : Draft} : Shuffled d d' → Shuffled d' d'' → Shuffled d d''
  | here {ms ms' : List (Text × Draft)} : Rearranged ms ms' → Shuffled (.object ms) (.object ms')
  | element {before after : List Draft} {d d' : Draft} :
      Shuffled d d' → Shuffled (.array (before ++ d :: after)) (.array (before ++ d' :: after))
  | member {before after : List (Text × Draft)} {key : Text} {d d' : Draft} :
      Shuffled d d' →
      Shuffled (.object (before ++ (key, d) :: after)) (.object (before ++ (key, d') :: after))

/-- **The order of members makes no difference**, but for those with the same key. -/
theorem Shuffled.value_eq {d d' : Draft} (h : Shuffled d d') : d.value = d'.value := by
  induction h with
  | refl d => rfl
  | trans _ _ ih ih' => exact ih.trans ih'
  | here h =>
    refine value_object_eq_iff.2 fun key => ?_
    rw [last?_eq_filter, last?_eq_filter, h.order key]
  | element _ ih =>
    simp only [value_array, List.map_append, List.map_cons, ih]
  | member _ ih =>
    simp only [value_object, List.map_append, List.map_cons, ih]

end Draft

end Json

end Descent
