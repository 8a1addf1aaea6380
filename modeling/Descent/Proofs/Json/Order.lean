import Descent.Proofs.Json.Draft
import Descent.Proofs.Json.RoundTrip

/-!
# Objects have no order

A source says how a value is put together: its members are the insertions of an
object, from left to right, with keys as they are decoded. So what is known of
drafts holds of sources: to move members about, in any object and at any depth,
changes nothing, as long as members with the same key keep their order.

* `Draft.Writes w d`: the characters `w` are a way to write the draft `d`.
* `d.Source t`: so does the text `t`, with white space around.
* `parse_iff_source`: parsing gives the value of what is written.
* `order_free`: values, lengths, keys and texts depend on the mappings alone.
-/

namespace Descent

namespace Json

open Syntax (Blank Quoted Number)
open Grammar (Separated)

namespace Draft

/-! ## Drafts in writing -/

mutual

/-- **A way to write a draft.** The insertions of an object are written from left to right. -/
inductive Writes : List Char → Draft → Prop where
  | null : Writes "null".toList .null
  | true : Writes "true".toList (.bool true)
  | false : Writes "false".toList (.bool false)
  | string {w : List Char} {t : Text} : Quoted w t → Writes w (.string t)
  | number {w : List Char} {x : Binary64} :
      Number w → Binary64.ofLiteral? w = some x → Writes w (.number x)
  | emptyArray {u : List Char} : Blank u → Writes ('[' :: u ++ [']']) (.array [])
  | array {u w : List Char} {ds : List Draft} :
      Blank u → Separated WritesElement w ds → Writes ('[' :: u ++ w ++ [']']) (.array ds)
  | emptyObject {u : List Char} : Blank u → Writes ('{' :: u ++ ['}']) (.object [])
  | object {u w : List Char} {ms : List (Text × Draft)} :
      Blank u → Separated WritesMember w ms → Writes ('{' :: u ++ w ++ ['}']) (.object ms)

/-- A draft in writing, and white space after it. -/
inductive WritesElement : List Char → Draft → Prop where
  | intro {w u : List Char} {d : Draft} : Writes w d → Blank u → WritesElement (w ++ u) d

/-- A key and a draft in writing, and white space after each. -/
inductive WritesMember : List Char → Text × Draft → Prop where
  | intro {k u₁ u₂ w u : List Char} {key : Text} {d : Draft} :
      Quoted k key → Blank u₁ → Blank u₂ → Writes w d → Blank u →
      WritesMember (k ++ u₁ ++ ':' :: u₂ ++ w ++ u) (key, d)

end

/-- **What writes a draft derives its value.** -/
theorem Writes.value {w : List Char} {d : Draft} (h : Writes w d) : Syntax.Value w d.value := by
  -- on the draft: each form of writing is one of the forms of the syntax
  induction d using Draft.induction generalizing w with
  | null =>
    cases h with
    | null => exact .null
  | bool b =>
    cases h with
    | true => exact .true
    | false => exact .false
  | number x =>
    cases h with
    | number hn hx => exact .number hn hx
  | string t =>
    cases h with
    | string hq => exact .string hq
  | array ds ih =>
    rw [value_array]
    cases h with
    | emptyArray hu => exact .emptyArray hu
    | array hu hsep =>
      refine .array hu (Grammar.elements_of_separated (hsep.map ?_))
      rintro _ d hd ⟨hw, hu⟩
      exact ⟨_, _, rfl, ih d hd hw, hu⟩
  | object ms ih =>
    rw [value_object]
    cases h with
    | emptyObject hu => exact .emptyObject hu
    | object hu hsep =>
      refine .object hu (Grammar.members_of_separated (hsep.map ?_))
        (Members.collects_iff.2 rfl)
      rintro _ m hm ⟨hk, hu₁, hu₂, hw, hu⟩
      exact ⟨_, _, _, _, _, rfl, hk, hu₁, hu₂, ih _ hm hw, hu⟩

mutual

/-- **What derives a value writes a draft of it**, in which the members that are replaced still
occur. -/
theorem exists_writes {w : List Char} {v : Json} : Syntax.Value w v → ∃ d, Writes w d ∧ d.value = v
  | .null => ⟨.null, .null, rfl⟩
  | .true => ⟨.bool true, .true, rfl⟩
  | .false => ⟨.bool false, .false, rfl⟩
  | .string hq => ⟨.string _, .string hq, rfl⟩
  | .number hn hx => ⟨.number _, .number hn hx, rfl⟩
  | .emptyArray hu => ⟨.array [], .emptyArray hu, rfl⟩
  | .array hu he =>
    let ⟨ds, hds, hvs⟩ := exists_writes_elements he
    ⟨.array ds, .array hu hds, by rw [value_array, hvs]⟩
  | .emptyObject hu => ⟨.object [], .emptyObject hu, rfl⟩
  | .object hu hm hc =>
    let ⟨ms, hms, hvs⟩ := exists_writes_members hm
    ⟨.object ms, .object hu hms, by rw [value_object, hvs, Members.collects_iff.1 hc]; rfl⟩

/-- Elements of the syntax are written by drafts with their values. -/
theorem exists_writes_elements {w : List Char} {vs : List Json} :
    Syntax.Elements w vs → ∃ ds, Separated WritesElement w ds ∧ ds.map value = vs
  | .one hv hu =>
    let ⟨d, hd, hval⟩ := exists_writes hv
    ⟨[d], .one (.intro hd hu), by rw [List.map_singleton, hval]⟩
  | .more hv hu hu' he =>
    let ⟨d, hd, hval⟩ := exists_writes hv
    let ⟨ds, hds, hvs⟩ := exists_writes_elements he
    ⟨d :: ds, .more (.intro hd hu) hu' hds, by rw [List.map_cons, hval, hvs]⟩

/-- Members of the syntax are written by drafts with their keys and values. -/
theorem exists_writes_members {w : List Char} {vs : List (Text × Json)} :
    Syntax.Members w vs →
      ∃ ms, Separated WritesMember w ms ∧ (ms.map fun m => (m.1, m.2.value)) = vs
  | .one hk hu₁ hu₂ hv hu =>
    let ⟨d, hd, hval⟩ := exists_writes hv
    ⟨[(_, d)], .one (.intro hk hu₁ hu₂ hd hu), by rw [List.map_singleton, hval]⟩
  | .more hk hu₁ hu₂ hv hu hu' hm =>
    let ⟨d, hd, hval⟩ := exists_writes hv
    let ⟨ms, hms, hvs⟩ := exists_writes_members hm
    ⟨(_, d) :: ms, .more (.intro hk hu₁ hu₂ hd hu) hu' hms, by rw [List.map_cons, hval, hvs]⟩

end

/-- **A text that writes a draft**, with white space around. -/
inductive Source (d : Draft) (t : Text) : Prop where
  | intro {u w u' : List Char} :
      sourceChars t = u ++ w ++ u' → Blank u → Writes w d → Blank u' → Source d t

end Draft

/-- **Parsing gives the value of what is written**, and fails if nothing is. -/
theorem parse_iff_source (t : Text) (v : Json) :
    (∃ rest, parse t = .success v rest) ↔ ∃ d : Draft, d.Source t ∧ d.value = v := by
  rw [parse_accepts]
  constructor
  · intro h
    generalize hs : sourceChars t = s at h
    obtain ⟨hu, hw, hu'⟩ := h
    obtain ⟨d, hd, hv⟩ := Draft.exists_writes hw
    exact ⟨d, ⟨hs, hu, hd, hu'⟩, hv⟩
  · rintro ⟨d, ⟨hs, hu, hd, hu'⟩, rfl⟩
    rw [hs]
    exact .intro hu hd.value hu'

/-- The value of the draft that a text writes. -/
theorem Draft.Source.parse {t : Text} {d : Draft} (h : d.Source t) :
    ∃ rest, Json.parse t = .success d.value rest :=
  (parse_iff_source t d.value).2 ⟨d, h, rfl⟩

/-! ## What depends on the mappings alone -/

/-- **Objects have no order.** Drafts come to the same value exactly if they come to the same
mapping at every level, and then lengths, keys and texts are the same. The keys of an object are
the inserted ones, in increasing order, each once. And parsing gives the value of what is written,
so a text in which members were rearranged, with those of each key in the same order as before,
gives the same value. -/
theorem order_free :
    (∀ d d' : Draft, d.Same d' ↔ d.value = d'.value) ∧
      (∀ d d' : Draft, d.Same d' →
        d.value.length? = d'.value.length? ∧ d.value.keys? = d'.value.keys? ∧
          d.value.text = d'.value.text) ∧
      (∀ ms : List (Text × Draft), ∃ keys, (Draft.object ms).value.keys? = some keys ∧
        keys.Pairwise (· < ·) ∧ (∀ key, key ∈ keys ↔ key ∈ ms.map Prod.fst) ∧
          (Draft.object ms).value.length? = some (ms.map Prod.fst).dedup.length) ∧
      (∀ t v, (∃ rest, parse t = .success v rest) ↔ ∃ d : Draft, d.Source t ∧ d.value = v) ∧
      ∀ (t t' : Text) (d d' : Draft), d.Source t → d'.Source t' → d.Shuffled d' →
        ∃ v rest rest', parse t = .success v rest ∧ parse t' = .success v rest' := by
  refine ⟨fun d d' => Draft.value_eq_iff.symm, fun d d' h => ?_, fun ms => ?_, parse_iff_source,
    fun t t' d d' h h' hs => ?_⟩
  · rw [h.value_eq]
    exact ⟨rfl, rfl, rfl⟩
  · have hkeys : (ms.map fun m => (m.1, m.2.value)).map Prod.fst = ms.map Prod.fst := by
      rw [List.map_map]
      rfl
    rw [Draft.value_object, ← hkeys]
    refine ⟨_, rfl, Members.sorted_ofList _, fun key => Members.mem_keys_ofList, ?_⟩
    exact congrArg some (Members.length_ofList _)
  · obtain ⟨rest, hparse⟩ := h.parse
    obtain ⟨rest', hparse'⟩ := h'.parse
    rw [← hs.value_eq] at hparse'
    exact ⟨d.value, rest, rest', hparse, hparse'⟩

/-- A key is written in two ways, and its members keep their order while another one comes to the
front. Two members of the object in this one change places as well. -/
theorem order_free_moved :
    ∃ v rest rest',
      parse (utf8 "\x7b\"a\":null,\"b\":\x7b\"x\":true,\"y\":null\x7d,\"\\u0061\":false\x7d") =
          .success v rest ∧
        parse (utf8 "\x7b\"b\":\x7b\"y\":null,\"x\":true\x7d,\"a\":null,\"\\u0061\":false\x7d") =
          .success v rest' := by
  have hkey {x : Char} (hquote : x ≠ '"') (hslash : x ≠ '\\') :
      Quoted ['"', x, '"'] (Utf8.encode [x]) :=
    .intro (.cons (.plain hquote hslash) .nil) (.char x .nil)
  have hnumbered : Quoted ('"' :: ['\\', 'u', '0', '0', '6', '1'] ++ ['"']) (Utf8.encode ['a']) :=
    .intro (.cons (.number (i := 0) (j := 0) (k := 6) (l := 1) (by decide) (by decide) (by decide)
      (by decide)) .nil) (.char 'a' .nil)
  have hmember {k w : List Char} {key : Text} {d : Draft} (hk : Quoted k key) (hd : d.Writes w) :
      Draft.WritesMember (k ++ [] ++ ':' :: [] ++ w ++ []) (key, d) :=
    .intro hk blank_nil blank_nil hd blank_nil
  have ha := hmember (hkey (x := 'a') (by decide) (by decide)) .null
  have ha' := hmember hnumbered .false
  have hx := hmember (hkey (x := 'x') (by decide) (by decide)) .true
  have hy := hmember (hkey (x := 'y') (by decide) (by decide)) .null
  have hb := hmember (hkey (x := 'b') (by decide) (by decide))
    (.object blank_nil (.more hx blank_nil (.one hy)))
  have hb' := hmember (hkey (x := 'b') (by decide) (by decide))
    (.object blank_nil (.more hy blank_nil (.one hx)))
  have hd := Draft.Writes.object blank_nil (.more ha blank_nil (.more hb blank_nil (.one ha')))
  have hd' := Draft.Writes.object blank_nil (.more hb' blank_nil (.more ha blank_nil (.one ha')))
  have hend : Blank ['\n'] := List.forall_mem_singleton.2 (by decide)
  refine order_free.2.2.2.2 _ _ _ _ ⟨?_, blank_nil, hd, hend⟩ ⟨?_, blank_nil, hd', hend⟩ ?_
  · decide +kernel
  · decide +kernel
  · refine .trans (@Draft.Shuffled.member [_] [_] _ _ _ (.here (.swap ?_ [] [])))
      (.here (.swap ?_ [] [_]))
    · decide
    · decide

end Json

end Descent
