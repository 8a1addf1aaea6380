import Descent.Proofs.Json.Members
import Descent.Proofs.Json.Numeral
import Descent.Proofs.Json.Strings

/-!
# Readings of arrays and objects

An array and an object are both items in brackets, with commas between them. This
file reads them in terms of what the parser for their values reads, so nothing
here depends on how a grammar ties the knot.

* `trail`: where a value leaves off, given what follows it.
* `array_of_read`, `object_of_read`: from readings to derivations.
* `sane_array`, `sane_object`: no fault, if there is none in anything shorter.
-/

namespace Descent.Json.Grammar

open Descent.Parser Syntax

variable {ρ : Type} {τ : ρ → Type} {answer : Answer ρ τ} {α : Type}

/-! ## Where values leave off -/

/-- **Where a value leaves off.** After a closing bracket, white space is taken too. -/
def trail : Json → List Char → List Char
  | .array _, rest => rest.dropWhile isSpace
  | .object _, rest => rest.dropWhile isSpace
  | _, rest => rest

/-- After a value, white space is dropped, whether the value took some of it or not. -/
theorem dropWhile_trail (v : Json) (rest : List Char) :
    (trail v rest).dropWhile isSpace = rest.dropWhile isSpace := by
  have hdrop : (rest.dropWhile isSpace).dropWhile isSpace = rest.dropWhile isSpace :=
    dropWhile_of_stops (stops_dropWhile isSpace rest)
  cases v with
  | array es => exact hdrop
  | object ms => exact hdrop
  | null => rfl
  | bool b => rfl
  | number x => rfl
  | string t => rfl

/-- **A value has been derived** up to where it leaves off. -/
def Derived (s : List Char) (v : Json) (rest : List Char) : Prop :=
  ∃ w r, s = w ++ r ∧ Value w v ∧ rest = trail v r

/-! ## Items in brackets -/

/-- Items with commas between them, in brackets. -/
def bracketed (opening closing : Char) (item : Parser ρ τ α) : Parser ρ τ (List α) :=
  between (token opening) (item.sepBy (token ',')) (token closing)

theorem array_eq (self : Parser ρ τ Json) :
    array self = ((bracketed '[' ']' (element self)).map Json.array).relabel (utf8 "array") := rfl

theorem object_eq (self : Parser ρ τ Json) :
    object self = ((bracketed '{' '}' (member self)).map Json.ofMembers).relabel (utf8 "object") :=
  rfl

section Bracketed

variable {item : Parser ρ τ α} {o c : Char}

/-- Without the opening mark, there is no list in brackets. -/
theorem isRefused_bracketed (ha : answer.Within) (item : Parser ρ τ α) {s : List Char}
    (h : Stops (· == o) s) : ((bracketed o c item).read answer s).IsRefused := by
  unfold bracketed
  rw [read_between]
  refine Reading.IsRefused.andThen ?_ _
  cases s with
  | nil => exact ⟨_, _, rfl⟩
  | cons x s => exact isRefused_token ha (by simpa using h x rfl) s

/-- Items in brackets are read as the list between the brackets is. -/
theorem read_bracketed (ha : answer.Within) {u s rest : List Char} {vs : List α} (hu : Blank u)
    (hs : Stops isSpace s)
    (h : (item.sepBy (token ',')).read answer s = .took vs (c :: rest)) :
    (bracketed o c item).read answer (o :: (u ++ s)) = .took vs (rest.dropWhile isSpace) := by
  unfold bracketed
  rw [read_between, read_token_cons ha, Reading.andThen_took, dropWhile_append_blank hu,
    dropWhile_of_stops hs, h, Reading.andThen_took, read_token_cons ha]
  rfl

/-- A list in brackets that was read has its marks, and white space after them. -/
theorem bracketed_of_read (ha : answer.Within) {s rest : List Char} {vs : List α}
    (h : (bracketed o c item).read answer s = .took vs rest) :
    ∃ u r r', Blank u ∧ s = o :: (u ++ r) ∧
      (item.sepBy (token ',')).read answer r = .took vs (c :: r') ∧
      rest = r'.dropWhile isSpace := by
  unfold bracketed at h
  rw [read_between, Reading.andThen_eq_took] at h
  obtain ⟨_, r₁, h₁, h⟩ := h
  obtain ⟨vs', r₂, h₂, h⟩ := Reading.andThen_eq_took.1 h
  obtain ⟨_, h₃, rfl⟩ := Reading.map_eq_took.1 h
  obtain ⟨r, rfl, rfl⟩ := token_of_read ha h₁
  obtain ⟨r', rfl, rfl⟩ := token_of_read ha h₃
  obtain ⟨u, hu, he⟩ := exists_blank_dropWhile r
  exact ⟨u, _, r', hu, by rw [← he], h₂, rfl⟩

/-- A list in brackets has no fault if its items have none, as it takes a mark before them. -/
theorem sane_bracketed (ha : answer.Within) {s : List Char}
    (h : ∀ r, r.length < s.length → (item.read answer r).Sane) :
    ((bracketed o c item).read answer s).Sane := by
  unfold bracketed
  rw [read_between]
  refine (sane_token ha o s).andThen fun _ r hr => Reading.Sane.andThen ?_ fun _ r' _ => ?_
  · -- the opening bracket is gone, so every item begins further on
    have hlt := length_lt_of_token ha hr
    refine sane_sepBy ha (fun r' hr' => h r' ?_) (sane_token ha ',') fun _ _ _ h =>
      length_lt_of_token ha h
    have := hr'.length_le
    omega
  · exact (sane_token ha c r').map _

end Bracketed

/-! ## Items with commas between them -/

/-- Items with commas between them, of one form or another. -/
inductive Separated (Item : List Char → α → Prop) : List Char → List α → Prop where
  | one {w : List Char} {v : α} : Item w v → Separated Item w [v]
  | more {w u w' : List Char} {v : α} {vs : List α} :
      Item w v → Blank u → Separated Item w' vs → Separated Item (w ++ ',' :: u ++ w') (v :: vs)

theorem Separated.imp {Item Item' : List Char → α → Prop} {w : List Char} {vs : List α}
    (h : Separated Item w vs) (himp : ∀ w v, Item w v → Item' w v) : Separated Item' w vs := by
  induction h with
  | one h => exact .one (himp _ _ h)
  | more h hu _ ih => exact .more (himp _ _ h) hu ih

/-- Items of one form that stand for items of another form. -/
theorem Separated.map {β : Type} {Item : List Char → α → Prop} {Item' : List Char → β → Prop}
    {f : α → β} {w : List Char} {vs : List α} (h : Separated Item w vs)
    (hf : ∀ w, ∀ v ∈ vs, Item w v → Item' w (f v)) : Separated Item' w (vs.map f) := by
  induction h with
  | one h => exact .one (hf _ _ List.mem_cons_self h)
  | more h hu _ ih =>
    refine .more (hf _ _ List.mem_cons_self h) hu (ih fun w v hv => ?_)
    exact hf w v (List.mem_cons_of_mem _ hv)

/-- Each item of a list has a text of its own. -/
theorem Separated.exists_of_mem {Item : List Char → α → Prop} {w : List Char} {vs : List α}
    (h : Separated Item w vs) {v : α} (hv : v ∈ vs) : ∃ w', Item w' v := by
  induction h with
  | one h =>
    obtain rfl := List.mem_singleton.1 hv
    exact ⟨_, h⟩
  | more h _ _ ih =>
    rcases List.mem_cons.1 hv with rfl | hv
    · exact ⟨_, h⟩
    · exact ih hv

/-- Rounds of a comma and an item are items with commas between them. -/
theorem separated_of_rounds (ha : answer.Within) {item : Parser ρ τ α}
    {Item : List Char → α → Prop}
    (hitem : ∀ s v rest, item.read answer s = .took v rest → ∃ w, s = w ++ rest ∧ Item w v)
    {s r rest : List Char} {v : α} {vs : List α} (h : item.read answer s = .took v r)
    (hr : Rounds answer ((token ',').right item) r vs rest) :
    ∃ w, s = w ++ rest ∧ Separated Item w (v :: vs) := by
  induction hr generalizing s v with
  | nil r =>
    obtain ⟨w, hs, hw⟩ := hitem s v r h
    exact ⟨w, hs, .one hw⟩
  | cons hround _ _ ih =>
    -- the item of this round is the first one of the items after it
    rw [read_right, Reading.andThen_eq_took] at hround
    obtain ⟨_, m, hcomma, hnext⟩ := hround
    obtain ⟨r', rfl, rfl⟩ := token_of_read ha hcomma
    obtain ⟨u, hu, he⟩ := exists_blank_dropWhile r'
    obtain ⟨w, rfl, hw⟩ := hitem s v _ h
    obtain ⟨w', hw', hsep⟩ := ih hnext
    refine ⟨w ++ ',' :: u ++ w', ?_, .more hw hu hsep⟩
    rw [he, hw']
    simp only [List.append_assoc, List.cons_append]

/-- What stands in brackets is nothing, or items with commas between them. -/
theorem separated_of_sepBy (ha : answer.Within) {item : Parser ρ τ α}
    {Item : List Char → α → Prop}
    (hitem : ∀ s v rest, item.read answer s = .took v rest → ∃ w, s = w ++ rest ∧ Item w v)
    {s rest : List Char} {vs : List α}
    (h : (item.sepBy (token ',')).read answer s = .took vs rest) :
    (vs = [] ∧ s = rest) ∨ ∃ w, s = w ++ rest ∧ Separated Item w vs := by
  rcases sepBy_of_read ha h with ⟨rfl, rfl⟩ | ⟨v, vs', r, rfl, hv, hrounds⟩
  · exact .inl ⟨rfl, rfl⟩
  · exact .inr (separated_of_rounds ha hitem hv hrounds)

section Items

variable {item : Parser ρ τ α}

/-- Without a first item, the list is empty. -/
theorem read_items_none {s : List Char} (h : (item.read answer s).IsRefused) :
    (item.sepBy (token ',')).read answer s = .took [] s := by
  rw [read_sepBy, read_sepBy1, (h.andThen _).orElse_eq]

/-- An item that no comma follows is the last one. -/
theorem read_items_one (ha : answer.Within) {s rest : List Char} {v : α} {x : Char} (hx : x ≠ ',')
    (h : item.read answer s = .took v (x :: rest)) :
    (item.sepBy1 (token ',')).read answer s = .took [v] (x :: rest) := by
  have hcomma : (((token ',').right item).read answer (x :: rest)).IsRefused := by
    rw [read_right]
    exact (isRefused_token ha hx rest).andThen _
  rw [read_sepBy1, h, Reading.andThen_took, read_many_of_refused ha hcomma]
  rfl

/-- An item, a comma and a list make a list. -/
theorem read_items_more (ha : answer.Within) {s u s' rest : List Char} {v : α} {vs : List α}
    (h : item.read answer s = .took v (',' :: (u ++ s'))) (hu : Blank u) (hs : Stops isSpace s')
    (hmore : (item.sepBy1 (token ',')).read answer s' = .took vs rest) :
    (item.sepBy1 (token ',')).read answer s = .took (v :: vs) rest := by
  have hcomma : (token ',' : Parser ρ τ Char).read answer (',' :: (u ++ s')) = .took ',' s' := by
    rw [read_token_cons ha, dropWhile_append_blank hu, dropWhile_of_stops hs]
  rw [read_sepBy1, h, Reading.andThen_took,
    read_many_right_of_sepBy1 ha hcomma (length_lt_of_token ha hcomma) hmore]
  rfl

/-- **Items are blocked** if one of them is not taken, at the beginning or after a comma. -/
inductive Blocked (answer : Answer ρ τ) (item : Parser ρ τ α) : List Char → Prop where
  | here {s : List Char} : (item.read answer s).IsRefused → Blocked answer item s
  | later {s s' : List Char} {v : α} :
      item.read answer s = .took v (',' :: s') → Stops isSpace s' → Blocked answer item s' →
      Blocked answer item s

/-- Blocked items are taken up to a comma at most. -/
theorem Blocked.read (ha : answer.Within) {s : List Char} (h : Blocked answer item s) :
    (item.read answer s).IsRefused ∨
      ∃ vs r, (item.sepBy1 (token ',')).read answer s = .took vs (',' :: r) := by
  induction h with
  | here h => exact .inl h
  | @later s s' v h hs _ ih =>
    right
    rcases ih with hrefused | ⟨vs, r, hmore⟩
    -- a round is a comma and an item, so the comma before the bad item is left too
    · have hround : (((token ',').right item).read answer (',' :: s')).IsRefused := by
        rw [read_right, read_token_cons ha, Reading.andThen_took, dropWhile_of_stops hs]
        exact hrefused
      refine ⟨[v], s', ?_⟩
      rw [read_sepBy1, h, Reading.andThen_took, read_many_of_refused ha hround]
      rfl
    · exact ⟨v :: vs, r, read_items_more (u := []) ha h (fun _ hx => nomatch hx) hs hmore⟩

/-- **Blocked items in brackets are refused.** -/
theorem isRefused_bracketed_of_blocked (ha : answer.Within) {o c : Char} {s : List Char}
    (h : Blocked answer item s) (hs : Stops isSpace s) (hc : Stops (· == c) s) (hcomma : ',' ≠ c) :
    ((bracketed o c item).read answer (o :: s)).IsRefused := by
  unfold bracketed
  rw [read_between, read_token_cons ha, Reading.andThen_took, dropWhile_of_stops hs]
  -- what is left begins with the bad item or with a comma, and neither closes the brackets
  rcases h.read ha with hrefused | ⟨vs, r, htook⟩
  · rw [read_items_none hrefused, Reading.andThen_took]
    refine Reading.IsRefused.map ?_ _
    cases s with
    | nil => exact ⟨_, _, rfl⟩
    | cons x s => exact isRefused_token ha (by simpa using hc x rfl) s
  · rw [read_sepBy, htook, Reading.orElse_took, Reading.andThen_took]
    exact (isRefused_token ha hcomma r).map _

end Items

/-! ## Elements -/

/-- An element is a value and the white space after it. -/
theorem read_element (ha : answer.Within) {self : Parser ρ τ Json} {s rest : List Char} {v : Json}
    (h : self.read answer s = .took v rest) :
    (element self).read answer s = .took v (rest.dropWhile isSpace) := by
  unfold element
  rw [read_left, h, Reading.andThen_took, read_ws ha]
  rfl

/-- What was read as an element is a value and the white space after it. -/
theorem element_of_read (ha : answer.Within) {self : Parser ρ τ Json} {s rest : List Char}
    {v : Json} (h : (element self).read answer s = .took v rest) :
    ∃ r, self.read answer s = .took v r ∧ rest = r.dropWhile isSpace := by
  unfold element at h
  rw [read_left, Reading.andThen_eq_took] at h
  obtain ⟨v', r, hv, h⟩ := h
  rw [read_ws ha] at h
  cases h
  exact ⟨r, hv, rfl⟩

/-- An element has no fault if its value has none. -/
theorem sane_element (ha : answer.Within) {self : Parser ρ τ Json} {s : List Char}
    (h : (self.read answer s).Sane) : ((element self).read answer s).Sane := by
  unfold element
  rw [read_left]
  refine h.andThen fun v r _ => ?_
  rw [read_ws ha]
  trivial

/-- A value, and white space after it. -/
def ElementText (w : List Char) (v : Json) : Prop := ∃ w' u, w = w' ++ u ∧ Value w' v ∧ Blank u

/-- An element that was read is one of the syntax, if its value is. -/
theorem elementText_of_read (ha : answer.Within) {self : Parser ρ τ Json}
    (hself : ∀ s v rest, self.read answer s = .took v rest → Derived s v rest)
    (s : List Char) (v : Json) (rest : List Char)
    (h : (element self).read answer s = .took v rest) : ∃ w, s = w ++ rest ∧ ElementText w v := by
  obtain ⟨r, hr, rfl⟩ := element_of_read ha h
  obtain ⟨w, r', rfl, hw, rfl⟩ := hself s v r hr
  obtain ⟨u, hu, he⟩ := exists_blank_dropWhile r'
  refine ⟨w ++ u, ?_, w, u, rfl, hw, hu⟩
  rw [dropWhile_trail, List.append_assoc, ← he]

/-- Elements with commas in between are elements of the syntax. -/
theorem elements_of_separated {w : List Char} {vs : List Json} (h : Separated ElementText w vs) :
    Elements w vs := by
  induction h with
  | one h =>
    obtain ⟨w, u, rfl, hv, hu⟩ := h
    exact .one hv hu
  | more h hu' _ ih =>
    obtain ⟨w, u, rfl, hv, hu⟩ := h
    exact .more hv hu hu' ih

/-- **An array that was read is one of the syntax**, if its elements are. -/
theorem array_of_read (ha : answer.Within) {self : Parser ρ τ Json}
    (hself : ∀ s v rest, self.read answer s = .took v rest → Derived s v rest)
    {s rest : List Char} {v : Json} (h : (array self).read answer s = .took v rest) :
    Derived s v rest := by
  rw [array_eq, read_relabel, Reading.relabel_eq_took, read_map, Reading.map_eq_took] at h
  obtain ⟨vs, h, rfl⟩ := h
  obtain ⟨u, r, r', hu, rfl, hr, rfl⟩ := bracketed_of_read ha h
  rcases separated_of_sepBy ha (elementText_of_read ha hself) hr with
    ⟨rfl, rfl⟩ | ⟨w, rfl, hsep⟩
  · refine ⟨'[' :: u ++ [']'], r', ?_, .emptyArray hu, rfl⟩
    simp
  · refine ⟨'[' :: u ++ w ++ [']'], r', ?_, .array hu (elements_of_separated hsep), rfl⟩
    simp

/-- An array has no fault if its elements have none. -/
theorem sane_array (ha : answer.Within) {self : Parser ρ τ Json} {s : List Char}
    (h : ∀ r, r.length < s.length → (self.read answer r).Sane) :
    ((array self).read answer s).Sane := by
  rw [array_eq, read_relabel, read_map]
  exact ((sane_bracketed ha fun r hr => sane_element ha (h r hr)).map _).relabel _

/-! ## Members -/

/-- A member is read in four steps: a key, white space, a colon, an element. -/
theorem read_member (ha : answer.Within) (self : Parser ρ τ Json) (s : List Char) :
    (member self).read answer s =
      ((quotedString : Parser ρ τ Text).read answer s).andThen fun key r =>
        ((token ':' : Parser ρ τ Char).read answer (r.dropWhile isSpace)).andThen fun _ r' =>
          ((element self).read answer r').map fun v => (key, v) := by
  unfold member
  rw [read_andThen, read_left, read_left, Reading.andThen_assoc, Reading.andThen_assoc]
  congr 1
  funext key r
  rw [read_ws ha, Reading.andThen_map, Reading.andThen_took, Reading.andThen_map]

/-- A key, a colon, a value, and white space after each. -/
def MemberText (w : List Char) (m : Text × Json) : Prop :=
  ∃ k u₁ u₂ w' u, w = k ++ u₁ ++ ':' :: u₂ ++ w' ++ u ∧ Quoted k m.1 ∧ Blank u₁ ∧ Blank u₂ ∧
    Value w' m.2 ∧ Blank u

/-- A member that was read is one of the syntax, if its value is. -/
theorem memberText_of_read (ha : answer.Within) {self : Parser ρ τ Json}
    (hself : ∀ s v rest, self.read answer s = .took v rest → Derived s v rest)
    (s : List Char) (m : Text × Json) (rest : List Char)
    (h : (member self).read answer s = .took m rest) : ∃ w, s = w ++ rest ∧ MemberText w m := by
  rw [read_member ha, Reading.andThen_eq_took] at h
  obtain ⟨key, r₁, h₁, h⟩ := h
  obtain ⟨_, r₂, h₂, h⟩ := Reading.andThen_eq_took.1 h
  obtain ⟨v, h₃, rfl⟩ := Reading.map_eq_took.1 h
  obtain ⟨k, hk, rfl⟩ := quoted_of_read ha h₁
  obtain ⟨u₁, hu₁, he₁⟩ := exists_blank_dropWhile r₁
  obtain ⟨r, hr, rfl⟩ := token_of_read ha h₂
  obtain ⟨u₂, hu₂, he₂⟩ := exists_blank_dropWhile r
  obtain ⟨w, hw, w', u, rfl, hv, hu⟩ := elementText_of_read ha hself _ _ _ h₃
  refine ⟨k ++ u₁ ++ ':' :: u₂ ++ w' ++ u, ?_, k, u₁, u₂, w', u, rfl, hk, hu₁, hu₂, hv, hu⟩
  rw [he₁, hr, he₂, hw]
  simp only [List.append_assoc, List.cons_append]

/-- Members with commas in between are members of the syntax. -/
theorem members_of_separated {w : List Char} {ms : List (Text × Json)}
    (h : Separated MemberText w ms) : Syntax.Members w ms := by
  induction h with
  | one h =>
    obtain ⟨k, u₁, u₂, w', u, rfl, hk, hu₁, hu₂, hv, hu⟩ := h
    exact .one hk hu₁ hu₂ hv hu
  | more h hu' _ ih =>
    obtain ⟨k, u₁, u₂, w', u, rfl, hk, hu₁, hu₂, hv, hu⟩ := h
    exact .more hk hu₁ hu₂ hv hu hu' ih

/-- **An object that was read is one of the syntax**, if its values are. -/
theorem object_of_read (ha : answer.Within) {self : Parser ρ τ Json}
    (hself : ∀ s v rest, self.read answer s = .took v rest → Derived s v rest)
    {s rest : List Char} {v : Json} (h : (object self).read answer s = .took v rest) :
    Derived s v rest := by
  rw [object_eq, read_relabel, Reading.relabel_eq_took, read_map, Reading.map_eq_took] at h
  obtain ⟨ms, h, rfl⟩ := h
  obtain ⟨u, r, r', hu, rfl, hr, rfl⟩ := bracketed_of_read ha h
  rcases separated_of_sepBy ha (memberText_of_read ha hself) hr with
    ⟨rfl, rfl⟩ | ⟨w, rfl, hsep⟩
  · refine ⟨'{' :: u ++ ['}'], r', ?_, .emptyObject hu, rfl⟩
    simp
  · refine ⟨'{' :: u ++ w ++ ['}'], r', ?_,
      .object hu (members_of_separated hsep) (Members.collects_iff.2 rfl), rfl⟩
    simp

/-- A member has no fault if its value has none. -/
theorem sane_member (ha : answer.Within) {self : Parser ρ τ Json} {s : List Char}
    (h : ∀ r, r.length < s.length → (self.read answer r).Sane) :
    ((member self).read answer s).Sane := by
  rw [read_member ha]
  refine (sane_quotedString ha s).andThen fun key r₁ h₁ => ?_
  refine (sane_token ha ':' _).andThen fun _ r₂ h₂ => (sane_element ha (h r₂ ?_)).map _
  obtain ⟨w, -, rfl⟩ := quoted_of_read ha h₁
  have hlt := length_lt_of_token ha h₂
  have hdrop := (dropWhile_suffix r₁).length_le
  rw [List.length_append]
  omega

/-- An object has no fault if its members have none. -/
theorem sane_object (ha : answer.Within) {self : Parser ρ τ Json} {s : List Char}
    (h : ∀ r, r.length < s.length → (self.read answer r).Sane) :
    ((object self).read answer s).Sane := by
  rw [object_eq, read_relabel, read_map]
  refine ((sane_bracketed ha fun r hr => ?_).map _).relabel _
  exact sane_member ha fun r' hr' => h r' (by omega)

end Descent.Json.Grammar
