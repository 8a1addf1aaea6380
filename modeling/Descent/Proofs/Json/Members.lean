import Descent.Proofs.Json.Syntax

/-!
# Members as a mapping

The members of an object are a mapping from keys to values, kept as a sorted
list. Such a list is determined by its values, so the mapping that a list of
members gives is the only one in which each key has the value of its last member.

* `sorted_insert`, `sorted_ofList`: insertion keeps the order of the keys.
* `ext_of_sorted`: a sorted list is determined by the values of its keys.
* `collects_iff`: to collect members is to insert them one after the other.
-/

namespace Descent.Members

/-! ## The order of the keys -/

theorem mem_keys_insert {ms : Members} {key k : Text} {value : Json}
    (h : k ∈ (ms.insert key value).keys) : k = key ∨ k ∈ ms.keys := by
  induction ms with
  | nil =>
    left
    simpa [insert, keys] using h
  | cons m ms ih =>
    obtain ⟨k', v'⟩ := m
    unfold insert at h
    split at h
    · simp only [keys, List.map_cons, List.mem_cons] at h ⊢
      exact h.imp_right .inr
    · split at h
      · simpa only [keys, List.map_cons, List.mem_cons] using h
      · simp only [keys, List.map_cons, List.mem_cons] at h ⊢
        rcases h with rfl | h
        · exact .inr (.inl rfl)
        · exact (ih h).imp_right .inr

theorem sorted_nil : Sorted [] := List.Pairwise.nil

/-- Keys are in order if the first one comes before the others, and these are in order. -/
theorem sorted_cons {k : Text} {v : Json} {ms : Members} :
    Sorted ((k, v) :: ms) ↔ (∀ k' ∈ ms.keys, k < k') ∧ ms.Sorted := List.pairwise_cons

/-- **Insertion keeps the order of the keys.** -/
theorem sorted_insert {ms : Members} (h : ms.Sorted) (key : Text) (value : Json) :
    (ms.insert key value).Sorted := by
  induction ms with
  | nil => exact List.pairwise_singleton _ _
  | cons m ms ih =>
    obtain ⟨k, v⟩ := m
    obtain ⟨hk, hms⟩ := sorted_cons.1 h
    unfold insert
    split
    · rename_i heq
      subst heq
      exact sorted_cons.2 ⟨hk, hms⟩
    · rename_i hne
      split
      · rename_i hlt
        refine sorted_cons.2 ⟨fun k' hk' => ?_, h⟩
        rcases List.mem_cons.1 hk' with rfl | hk'
        · exact hlt
        · exact List.lt_trans hlt (hk k' hk')
      · rename_i hlt
        have hgt : k < key := Std.lt_of_le_of_ne hlt (Ne.symm hne)
        refine sorted_cons.2 ⟨fun k' hk' => ?_, ih hms⟩
        rcases mem_keys_insert hk' with rfl | hk'
        · exact hgt
        · exact hk k' hk'

theorem sorted_foldl {acc : Members} (h : acc.Sorted) (ms : List (Text × Json)) :
    Sorted (ms.foldl (fun acc (k, v) => acc.insert k v) acc) := by
  induction ms generalizing acc with
  | nil => exact h
  | cons m ms ih => exact ih (sorted_insert h m.1 m.2)

/-- Members that were collected have their keys in order. -/
theorem sorted_ofList (ms : List (Text × Json)) : (ofList ms).Sorted :=
  sorted_foldl sorted_nil ms

/-! ## The values of the keys -/

theorem find?_eq_none {ms : Members} {key : Text} (h : ∀ k ∈ ms.keys, k ≠ key) :
    ms.find? key = none := by
  induction ms with
  | nil => rfl
  | cons m ms ih =>
    obtain ⟨hk, hms⟩ := List.forall_mem_cons.1 h
    rw [find?, if_neg (Ne.symm hk)]
    exact ih hms

theorem mem_keys_of_find? {ms : Members} {key : Text} {v : Json} (h : ms.find? key = some v) :
    key ∈ ms.keys := by
  induction ms with
  | nil => cases h
  | cons m ms ih =>
    obtain ⟨k, w⟩ := m
    rw [find?] at h
    split at h
    · rename_i heq
      subst heq
      exact List.mem_cons_self
    · exact List.mem_cons_of_mem _ (ih h)

theorem find?_of_mem {ms : Members} (h : ms.Sorted) {m : Text × Json} (hm : m ∈ ms) :
    ms.find? m.1 = some m.2 := by
  induction ms with
  | nil => cases hm
  | cons m' ms ih =>
    obtain ⟨k, v⟩ := m'
    obtain ⟨hk, hms⟩ := sorted_cons.1 h
    rw [find?]
    rcases List.mem_cons.1 hm with rfl | hm
    · exact if_pos rfl
    · have hlt : k < m.1 := hk m.1 (List.mem_map_of_mem hm)
      have hne : m.1 ≠ k := by
        intro he
        rw [he] at hlt
        exact List.lt_irrefl _ hlt
      rw [if_neg hne]
      exact ih hms hm

/-- The first key does not come again. -/
theorem find?_of_sorted_cons {k : Text} {v : Json} {ms : Members} (h : Sorted ((k, v) :: ms)) :
    ms.find? k = none := by
  refine find?_eq_none fun k' hk' heq => ?_
  subst heq
  exact List.lt_irrefl _ ((sorted_cons.1 h).1 _ hk')

/-- No key comes before the first one. -/
theorem head_le_of_find? {k key : Text} {v w : Json} {ms : Members} (h : Sorted ((k, v) :: ms))
    (hf : find? ((k, v) :: ms) key = some w) : key = k ∨ k < key := by
  rcases List.mem_cons.1 (mem_keys_of_find? hf) with heq | hm
  · exact .inl heq
  · exact .inr ((sorted_cons.1 h).1 key hm)

/-- **A sorted list is determined by the values of its keys.** -/
theorem ext_of_sorted {ms ms' : Members} (h : ms.Sorted) (h' : ms'.Sorted)
    (he : ∀ key, ms.find? key = ms'.find? key) : ms = ms' := by
  induction ms generalizing ms' with
  | nil =>
    cases ms' with
    | nil => rfl
    | cons m ms' => have := he m.1; simp [find?] at this
  | cons m ms ih =>
    obtain ⟨k, v⟩ := m
    cases ms' with
    | nil => have := he k; simp [find?] at this
    | cons m' ms' =>
      obtain ⟨k', v'⟩ := m'
      -- each list has the least key of the other, so the least keys agree
      have hk : find? ((k', v') :: ms') k = some v := by rw [← he k, find?, if_pos rfl]
      have hk' : find? ((k, v) :: ms) k' = some v' := by rw [he k', find?, if_pos rfl]
      obtain rfl : k = k' := by
        rcases head_le_of_find? h' hk with heq | hlt
        · exact heq
        · rcases head_le_of_find? h hk' with heq | hlt'
          · exact heq.symm
          · exact absurd (List.lt_trans hlt hlt') (List.lt_irrefl _)
      obtain rfl : v' = v := by simpa [find?] using hk
      have htail : ms = ms' := by
        refine ih (sorted_cons.1 h).2 (sorted_cons.1 h').2 fun key => ?_
        by_cases heq : key = k
        · rw [heq, find?_of_sorted_cons h, find?_of_sorted_cons h']
        · have := he key
          rwa [find?, find?, if_neg heq, if_neg heq] at this
      rw [htail]

/-! ## The mapping that a list of members gives -/

/-- One more member is one more insertion. -/
theorem ofList_append (ms : List (Text × Json)) (m : Text × Json) :
    ofList (ms ++ [m]) = (ofList ms).insert m.1 m.2 := by
  rw [ofList, List.foldl_append]
  rfl

open Json.Syntax (lastValue? Collects)

/-- The last member decides about its own key, and about no other. -/
theorem lastValue?_append (key : Text) (ms : List (Text × Json)) (m : Text × Json) :
    lastValue? key (ms ++ [m]) = if key = m.1 then some m.2 else lastValue? key ms := by
  rw [lastValue?, List.reverse_append, List.reverse_singleton, List.singleton_append]
  by_cases h : key = m.1
  · rw [if_pos h, List.find?_cons_of_pos (by simp [h])]
    rfl
  · rw [if_neg h, List.find?_cons_of_neg (by simp [Ne.symm h])]
    rfl

theorem mem_of_find?_reverse {α : Type} {ms : List (Text × α)} {key : Text} {v : α}
    (h : (ms.reverse.find? fun m => m.1 == key).map Prod.snd = some v) : (key, v) ∈ ms := by
  obtain ⟨m, hm, rfl⟩ := Option.map_eq_some_iff.1 h
  have hkey : m.1 = key := by simpa using List.find?_some hm
  rw [← hkey]
  exact List.mem_reverse.1 (List.mem_of_find?_eq_some hm)

/-- The last value of a key is that of a member. -/
theorem mem_of_lastValue? {ms : List (Text × Json)} {key : Text} {v : Json}
    (h : lastValue? key ms = some v) : (key, v) ∈ ms := mem_of_find?_reverse h

/-- **Each key has the value of its last member.** -/
theorem find?_ofList (ms : List (Text × Json)) (key : Text) :
    (ofList ms).find? key = lastValue? key ms := by
  -- induction from the end: the last member is the last one inserted
  induction hn : ms.length generalizing ms with
  | zero =>
    rw [List.eq_nil_of_length_eq_zero hn]
    rfl
  | succ n ih =>
    rcases List.eq_nil_or_concat ms with rfl | ⟨ms, m, rfl⟩
    · cases hn
    · have hlen : ms.length = n := by simpa using hn
      rw [List.concat_eq_append, ofList_append, find?_insert, lastValue?_append, ih ms hlen]

/-- **To collect members is to insert them one after the other.** -/
theorem collects_iff {ms : List (Text × Json)} {mapping : Members} :
    Collects ms mapping ↔ mapping = ofList ms := by
  constructor
  · rintro ⟨hs, hf⟩
    refine ext_of_sorted hs (sorted_ofList ms) fun key => ?_
    rw [hf key, find?_ofList]
  · rintro rfl
    exact ⟨sorted_ofList ms, find?_ofList ms⟩

/-- What is collected was among the members. -/
theorem mem_of_collects {ms : List (Text × Json)} {mapping : Members} (h : Collects ms mapping)
    {m : Text × Json} (hm : m ∈ mapping) : m ∈ ms := by
  have hfind := find?_of_mem h.1 hm
  rw [h.2 m.1] at hfind
  exact mem_of_lastValue? hfind

/-- A key after all others is inserted at the end. -/
theorem insert_of_forall_lt {ms : Members} {key : Text} (h : ∀ k ∈ ms.keys, k < key)
    (value : Json) : ms.insert key value = ms ++ [(key, value)] := by
  induction ms with
  | nil => rfl
  | cons m ms ih =>
    obtain ⟨k, v⟩ := m
    obtain ⟨hk, hms⟩ := List.forall_mem_cons.1 h
    have hne : key ≠ k := by
      rintro rfl
      exact List.lt_irrefl _ hk
    have hlt : ¬ key < k := fun hlt => List.lt_irrefl _ (List.lt_trans hlt hk)
    rw [insert, if_neg hne, if_neg hlt, ih hms]
    rfl

/-- Members in order are inserted one after the other. -/
theorem foldl_insert_of_sorted {acc ms : Members} (h : Sorted (acc ++ ms)) :
    ms.foldl (fun acc (k, v) => acc.insert k v) acc = acc ++ ms := by
  induction ms generalizing acc with
  | nil => exact (List.append_nil acc).symm
  | cons m ms ih =>
    obtain ⟨k, v⟩ := m
    have hlast : ∀ k' ∈ acc.keys, k' < k := by
      unfold Sorted keys at h
      rw [List.map_append, List.pairwise_append] at h
      exact fun k' hk' => h.2.2 k' hk' k List.mem_cons_self
    rw [List.foldl_cons]
    dsimp only
    rw [insert_of_forall_lt hlast, ih]
    · rw [List.append_assoc, List.singleton_append]
    · rwa [List.append_assoc, List.singleton_append]

/-- Sorted members give themselves. -/
theorem ofList_of_sorted {ms : Members} (h : ms.Sorted) : ofList ms = ms :=
  @foldl_insert_of_sorted [] ms h

end Descent.Members
