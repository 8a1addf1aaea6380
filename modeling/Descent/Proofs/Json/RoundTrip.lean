import Descent.Json.Render
import Descent.Proofs.Json.Acceptance
import Descent.Proofs.Json.Number
import Descent.Proofs.Json.Quote
import Descent.Proofs.Json.Repair

/-!
# Values in writing read back

The text of a value is a document of the syntax, for the value repaired, unless
there is something in it that is not a number. In that case the parser stops where
the word `NaN` begins, and so do the parsers of all the arrays and objects around
it: nothing is taken.

* `value_render`: from values to derivations.
* `isRefused_render`: where there is no derivation, the rule for values fails.
* `pieces_render`: the characters that a text is made of.
* `parse_text`: what parsing the text of a value gives.
-/

namespace Descent.Json

open Descent.Parser Syntax Grammar

/-! ## Items with commas between them -/

/-- Texts with commas between them. -/
def commaJoin : List (List Char) → List Char
  | [] => []
  | [w] => w
  | w :: w' :: ws => w ++ ',' :: commaJoin (w' :: ws)

/-- A key, a colon and a value in writing. -/
def memberChars (m : Text × Json) : List Char := quote m.1 ++ ':' :: m.2.render

theorem renderElements_eq (es : List Json) : renderElements es = commaJoin (es.map render) := by
  induction es with
  | nil => rfl
  | cons e es ih =>
    cases es with
    | nil => rw [renderElements, renderMoreElements, List.append_nil]; rfl
    | cons e' es =>
      rw [List.map_cons, List.map_cons, commaJoin, ← List.map_cons, ← ih, renderElements,
        renderMoreElements, renderElements]
      rfl

theorem renderMembers_eq (ms : Members) : renderMembers ms = commaJoin (ms.map memberChars) := by
  induction ms with
  | nil => rfl
  | cons m ms ih =>
    obtain ⟨k, v⟩ := m
    cases ms with
    | nil => rw [renderMembers, renderMoreMembers, List.append_nil]; rfl
    | cons m' ms =>
      obtain ⟨k', v'⟩ := m'
      rw [List.map_cons, List.map_cons, commaJoin, ← List.map_cons, ← ih, renderMembers,
        renderMoreMembers, renderMembers]
      rfl

theorem render_array (es : List Json) :
    (Json.array es).render = '[' :: commaJoin (es.map render) ++ [']'] := by
  show '[' :: renderElements es ++ [']'] = _
  rw [renderElements_eq]

theorem render_object (ms : Members) :
    (Json.object ms).render = '{' :: commaJoin (ms.map memberChars) ++ ['}'] := by
  show '{' :: renderMembers ms ++ ['}'] = _
  rw [renderMembers_eq]

theorem render_of_isNaN {x : Binary64} (h : x.IsNaN) :
    (Json.number x).render = ['N', 'a', 'N'] := by
  show numberText x = _
  rw [numberText, if_pos h]
  rfl

section Items

variable {α β : Type} {bs : List β} {text : β → List Char}

/-- Items in writing are items with commas between them. -/
theorem separated_commaJoin {Item : List Char → α → Prop} {value : β → α} (hne : bs ≠ [])
    (h : ∀ b ∈ bs, Item (text b) (value b)) :
    Separated Item (commaJoin (bs.map text)) (bs.map value) := by
  induction bs with
  | nil => exact absurd rfl hne
  | cons b bs ih =>
    have hb := h b List.mem_cons_self
    cases bs with
    | nil => exact .one hb
    | cons b' bs =>
      have htail := ih (List.cons_ne_nil _ _) fun b'' hb'' => h b'' (List.mem_cons_of_mem _ hb'')
      have hmore := Separated.more hb (u := []) (fun _ hx => nomatch hx) htail
      rw [List.append_assoc] at hmore
      exact hmore

/-- The first item comes first. -/
theorem exists_commaJoin_cons (b : β) (bs : List β) (text : β → List Char) (rest : List Char) :
    ∃ rest', commaJoin ((b :: bs).map text) ++ rest = text b ++ rest' := by
  cases bs with
  | nil => exact ⟨rest, rfl⟩
  | cons b' bs =>
    rw [List.map_cons, List.map_cons, commaJoin, List.append_assoc]
    exact ⟨_, rfl⟩

/-- No part is longer than the whole. -/
theorem length_le_commaJoin {b : β} (hb : b ∈ bs) :
    (text b).length ≤ (commaJoin (bs.map text)).length := by
  induction bs with
  | nil => cases hb
  | cons b' bs ih =>
    cases bs with
    | nil =>
      rw [List.mem_singleton.1 hb]
      exact Nat.le_refl _
    | cons b'' bs =>
      simp only [List.map_cons, commaJoin, List.length_append, List.length_cons] at ih ⊢
      rcases List.mem_cons.1 hb with rfl | hb
      · omega
      · have := ih hb
        omega

/-- Items in writing are blocked at the first one that is not taken. -/
theorem blocked_commaJoin {answer : Answer Unit RuleType} {item : Parser Unit RuleType α}
    {good : β → Prop}
    (htake : ∀ b ∈ bs, good b → ∀ rest, ∃ v,
      item.read answer (text b ++ ',' :: rest) = .took v (',' :: rest))
    (hblock : ∀ b ∈ bs, ¬ good b → ∀ rest, (item.read answer (text b ++ rest)).IsRefused)
    (hstops : ∀ b rest, Stops isSpace (text b ++ rest)) (h : ¬ ∀ b ∈ bs, good b)
    (rest : List Char) : Blocked answer item (commaJoin (bs.map text) ++ rest) := by
  induction bs with
  | nil => exact absurd (fun b hb => nomatch hb) h
  | cons b bs ih =>
    by_cases hb : good b
    · -- this item is taken, so one of the later ones is not
      cases bs with
      | nil =>
        refine absurd (fun b' hb' => ?_) h
        rwa [List.mem_singleton.1 hb']
      | cons b' bs =>
        have htail := ih (fun b'' h'' => htake b'' (List.mem_cons_of_mem _ h''))
          (fun b'' h'' => hblock b'' (List.mem_cons_of_mem _ h''))
          fun hall => h (List.forall_mem_cons.2 ⟨hb, hall⟩)
        obtain ⟨v, hv⟩ := htake b List.mem_cons_self hb (commaJoin ((b' :: bs).map text) ++ rest)
        have htext : commaJoin ((b :: b' :: bs).map text) ++ rest =
            text b ++ ',' :: (commaJoin ((b' :: bs).map text) ++ rest) := by
          rw [List.map_cons, List.map_cons, commaJoin, List.append_assoc, List.cons_append]
        rw [htext]
        refine .later hv ?_ htail
        obtain ⟨rest', he⟩ := exists_commaJoin_cons b' bs text rest
        rw [he]
        exact hstops b' rest'
    · -- whatever comes after it, this item is not taken
      obtain ⟨rest', he⟩ := exists_commaJoin_cons b bs text rest
      rw [he]
      exact .here (hblock b List.mem_cons_self hb rest')

/-- Items in writing, in brackets, are refused if one of them is. -/
theorem isRefused_bracketed_commaJoin {answer : Answer Unit RuleType} (ha : answer.Within)
    {item : Parser Unit RuleType α} {good : β → Prop} {o c : Char}
    (htake : ∀ b ∈ bs, good b → ∀ rest, ∃ v,
      item.read answer (text b ++ ',' :: rest) = .took v (',' :: rest))
    (hblock : ∀ b ∈ bs, ¬ good b → ∀ rest, (item.read answer (text b ++ rest)).IsRefused)
    (hstops : ∀ b rest, Stops isSpace (text b ++ rest))
    (hclose : ∀ b rest, Stops (· == c) (text b ++ rest)) (hcomma : ',' ≠ c)
    (h : ¬ ∀ b ∈ bs, good b) (rest : List Char) :
    ((bracketed o c item).read answer (o :: commaJoin (bs.map text) ++ [c] ++ rest)).IsRefused := by
  have hblocked := blocked_commaJoin htake hblock hstops h (c :: rest)
  obtain ⟨b, bs, rfl⟩ : ∃ b bs', bs = b :: bs' :=
    List.exists_cons_of_ne_nil (by rintro rfl; exact h fun b hb => nomatch hb)
  obtain ⟨rest', he⟩ := exists_commaJoin_cons b bs text (c :: rest)
  rw [List.append_assoc, List.cons_append, List.singleton_append]
  refine isRefused_bracketed_of_blocked ha hblocked ?_ ?_ hcomma
  · rw [he]
    exact hstops b rest'
  · rw [he]
    exact hclose b rest'

end Items

/-! ## From values to derivations -/

theorem blank_nil : Blank [] := fun _ hx => nomatch hx

/-- Rendered elements are elements of the syntax, if each of them is a value. -/
theorem elements_render {es : List Json} (hne : es ≠ [])
    (h : ∀ e ∈ es, Value e.render e.repair) :
    Elements (commaJoin (es.map render)) (es.map repair) := by
  refine elements_of_separated (separated_commaJoin hne fun e he => ?_)
  exact ⟨e.render, [], (List.append_nil _).symm, h e he, blank_nil⟩

/-- Rendered members are members of the syntax, if each of their values is one. -/
theorem members_render {ms : Members} (hne : ms ≠ [])
    (h : ∀ m ∈ ms, Value m.2.render m.2.repair) :
    Syntax.Members (commaJoin (ms.map memberChars))
      (ms.map fun m => (repairText m.1, m.2.repair)) := by
  refine members_of_separated (separated_commaJoin hne fun m hm => ?_)
  refine ⟨quote m.1, [], [], m.2.render, [], ?_, quoted_quote m.1, blank_nil, blank_nil, h m hm,
    blank_nil⟩
  rw [memberChars]
  simp only [List.append_nil, List.append_assoc, List.cons_append, List.nil_append]

/-- **The text of a value is a document**, for the value repaired. -/
theorem value_render {v : Json} (hc : v.Canonical) (hn : v.NoNaN) : Value v.render v.repair := by
  induction v using Json.induction with
  | null => exact .null
  | bool b =>
    cases b with
    | true => exact .true
    | false => exact .false
  | number x =>
    obtain ⟨hnum, hx⟩ := number_numberText (hn x (.whole _))
    exact .number hnum hx
  | string t => exact .string (quoted_quote t)
  | array es ih =>
    have hes (e : Json) (he : e ∈ es) := ih e he (hc.element he) (noNaN_array.1 hn e he)
    -- the syntax has a rule of its own for brackets with nothing in between
    cases es with
    | nil => exact .emptyArray blank_nil
    | cons e es =>
      have harray := Value.array blank_nil (elements_render (List.cons_ne_nil _ _) hes)
      rw [render_array, repair, repairElements_eq]
      exact harray
  | object ms ih =>
    have hms (m : Text × Json) (hm : m ∈ ms) := ih m hm (hc.member hm) (noNaN_object.1 hn m hm)
    cases ms with
    | nil => exact .emptyObject blank_nil
    | cons m ms =>
      have hobject := Value.object blank_nil (members_render (List.cons_ne_nil _ _) hms)
        (Members.collects_iff.2 rfl)
      rw [render_object, repair, repairKeys_eq (sorted_repairValues hc.sorted), repairValues_eq,
        List.map_map]
      exact hobject

/-! ## No derivation -/

/-- A rendered value begins with neither white space nor a closing bracket. -/
theorem head_render (v : Json) :
    ∃ x s, v.render = x :: s ∧ isSpace x = false ∧ x ≠ ']' := by
  cases v with
  | null => exact ⟨'n', _, rfl, by decide, by decide⟩
  | bool b =>
    cases b with
    | true => exact ⟨'t', _, rfl, by decide, by decide⟩
    | false => exact ⟨'f', _, rfl, by decide, by decide⟩
  | number x =>
    by_cases hx : x.IsNaN
    · exact ⟨'N', ['a', 'N'], render_of_isNaN hx, by decide, by decide⟩
    · obtain ⟨hnum, -⟩ := number_numberText hx
      obtain ⟨y, s, hy, hb⟩ := head_of_number hnum
      refine ⟨y, s, hy, ?_, ?_⟩
      · have hkind : kindAt? [y] = some .number := by simp [kindAt?, kindOf?, hb]
        exact stops_isSpace_of_kindAt? hkind y rfl
      · rintro rfl
        exact absurd hb (by decide)
  | string t => exact ⟨'"', _, rfl, by decide, by decide⟩
  | array es => exact ⟨'[', _, rfl, by decide, by decide⟩
  | object ms => exact ⟨'{', _, rfl, by decide, by decide⟩

theorem stops_close_render (v : Json) (rest : List Char) :
    Stops (· == ']') (v.render ++ rest) := by
  obtain ⟨x, s, hx, -, hc⟩ := head_render v
  rw [hx]
  exact stops_cons (by simpa using hc) _

/-- No white space comes first in a rendered value. -/
theorem stops_isSpace_render (v : Json) (rest : List Char) : Stops isSpace (v.render ++ rest) := by
  obtain ⟨x, s, hx, hs, -⟩ := head_render v
  rw [hx]
  exact stops_cons hs _

/-- Where the rule for its kind refuses a value, so does the rule for values. -/
theorem isRefused_value_of_kind {answer : Answer Unit RuleType} (ha : answer.Within) {k : Kind}
    {s : List Char} (hs : kindAt? s = some k)
    (h : ((k.parser self).read answer s).IsRefused) : ((value self).read answer s).IsRefused := by
  have hne : kinds.map (Kind.parser self) ≠ [] := List.cons_ne_nil _ _
  rw [value_eq]
  refine isRefused_choice hne fun q hq => ?_
  obtain ⟨k', hk', rfl⟩ := List.mem_map.1 hq
  by_cases he : k' = k
  · rwa [he]
  · refine isRefused_kind ha hk' ?_
    rw [hs]
    exact fun h => he (Option.some.inj h).symm

section Refused

variable {n : Nat} {w : List Char}

/-- Where the rule for values refuses, so does that for elements. -/
theorem isRefused_element_of_value {rest : List Char}
    (h : ((value self).read (rules.answer n) (w ++ rest)).IsRefused) :
    ((element self).read (rules.answer (n + 1)) (w ++ rest)).IsRefused := by
  unfold element
  rw [read_left, read_self_succ]
  exact h.andThen _

/-- A member is refused where its value is. -/
theorem isRefused_member_of_value {m : Text × Json} {rest : List Char}
    (h : ((value self).read (rules.answer n) (m.2.render ++ rest)).IsRefused) :
    ((member self).read (rules.answer (n + 1)) (memberChars m ++ rest)).IsRefused := by
  have ha := rules.within_answer (n + 1)
  have hcolon : Stops isSpace (':' :: (m.2.render ++ rest)) := stops_cons (by decide) _
  have hs := stops_isSpace_render m.2 rest
  rw [memberChars, List.append_assoc, List.cons_append, read_member ha,
    read_quotedString_append ha (quoted_quote m.1), Reading.andThen_took,
    dropWhile_of_stops hcolon, read_token_cons ha, Reading.andThen_took, dropWhile_of_stops hs]
  exact (isRefused_element_of_value h).map _

end Refused

/-- **Where there is something that is not a number, nothing is taken.** -/
theorem isRefused_render {v : Json} (hc : v.Canonical) (hn : ¬ v.NoNaN) (n : Nat)
    (hlen : v.render.length ≤ n) (rest : List Char) :
    ((value self).read (rules.answer n) (v.render ++ rest)).IsRefused := by
  induction v using Json.induction generalizing n rest with
  | null => exact absurd (fun x hx => nomatch hx) hn
  | bool b => exact absurd (fun x hx => nomatch hx) hn
  | string t => exact absurd (fun x hx => nomatch hx) hn
  | number x =>
    have hx : x.IsNaN := by
      refine Decidable.byContradiction fun hx => hn fun y hy => ?_
      cases hy
      exact hx
    rw [render_of_isNaN hx]
    exact isRefused_value (rules.within_answer n) rfl
  | array es ih =>
    rw [render_array] at hlen ⊢
    -- the bracket pays for the level that the elements are read on
    obtain ⟨m, rfl⟩ : ∃ m, n = m + 1 := ⟨n - 1, by simp at hlen; omega⟩
    have hle (e : Json) (he : e ∈ es) : e.render.length ≤ m := by
      have hjoin : e.render.length ≤ (commaJoin (es.map render)).length := length_le_commaJoin he
      simp only [List.length_append, List.length_cons] at hlen
      omega
    have ha := rules.within_answer (m + 1)
    refine isRefused_value_of_kind ha (k := .array) rfl (.relabel (.map ?_ _) _)
    refine isRefused_bracketed_commaJoin ha (fun e he hgood rest => ?_) (fun e he hbad rest => ?_)
      stops_isSpace_render stops_close_render (by decide) (fun h => hn (noNaN_array.2 h)) rest
    · have hread := takes m _ _ (value_render (hc.element he) hgood) (hle e he)
      exact ⟨_, read_element_append hread blank_nil (by decide) (by decide) rest⟩
    · exact isRefused_element_of_value (ih e he (hc.element he) hbad m (hle e he) rest)
  | object ms ih =>
    rw [render_object] at hlen ⊢
    obtain ⟨m, rfl⟩ : ∃ m, n = m + 1 := ⟨n - 1, by simp at hlen; omega⟩
    have hle (a : Text × Json) (he : a ∈ ms) : a.2.render.length ≤ m := by
      have hjoin : (memberChars a).length ≤ (commaJoin (ms.map memberChars)).length :=
        length_le_commaJoin he
      rw [memberChars, List.length_append, List.length_cons] at hjoin
      simp only [List.length_append, List.length_cons] at hlen
      omega
    have ha := rules.within_answer (m + 1)
    have hquote (a : Text × Json) (rest : List Char) (accepts : Char → Bool)
        (h : accepts '"' = false) : Stops accepts (memberChars a ++ rest) := stops_cons h _
    refine isRefused_value_of_kind ha (k := .object) rfl (.relabel (.map ?_ _) _)
    refine isRefused_bracketed_commaJoin ha (fun a he hgood rest => ?_) (fun a he hbad rest => ?_)
      (fun a rest => hquote a rest _ (by decide)) (fun a rest => hquote a rest _ (by decide))
      (by decide) (fun h => hn (noNaN_object.2 h)) rest
    · have hvalue := value_render (hc.member he) hgood
      have hread := takes m _ _ hvalue (hle a he)
      have htook := read_member_append (quoted_quote a.1) blank_nil blank_nil hread hvalue
        blank_nil (x := ',') (by decide) (by decide) rest
      rw [memberChars, List.append_assoc, List.cons_append]
      exact ⟨_, htook⟩
    · exact isRefused_member_of_value (ih a he (hc.member he) hbad m (hle a he) rest)

/-! ## The pieces of a text -/

/-- The characters that are written outside strings. -/
def bareChars : List Char := "nulltruefalseNaN[]{},:".toList ++ numberChars

/-- **Bare characters and strings**, one after the other. -/
inductive Pieces : List Char → Prop where
  | nil : Pieces []
  | bare {x : Char} {w : List Char} : x ∈ bareChars → Pieces w → Pieces (x :: w)
  | string (t : Text) {w : List Char} : Pieces w → Pieces (quote t ++ w)

theorem Pieces.append {w w' : List Char} (h : Pieces w) (h' : Pieces w') : Pieces (w ++ w') := by
  induction h with
  | nil => exact h'
  | bare hx _ ih => exact .bare hx ih
  | string t _ ih =>
    rw [List.append_assoc]
    exact .string t ih

theorem pieces_of_forall_mem {w : List Char} (h : ∀ x ∈ w, x ∈ bareChars) : Pieces w := by
  induction w with
  | nil => exact .nil
  | cons x w ih =>
    obtain ⟨hx, hw⟩ := List.forall_mem_cons.1 h
    exact .bare hx (ih hw)

theorem pieces_quote (t : Text) : Pieces (quote t) := by
  have h := Pieces.string t .nil
  rwa [List.append_nil] at h

theorem pieces_numberText (x : Binary64) : Pieces (numberText x) := by
  by_cases hx : x.IsNaN
  · rw [numberText, if_pos hx]
    exact pieces_of_forall_mem (forall_of_all (by decide))
  · have hnumber := (number_numberText hx).1
    exact pieces_of_forall_mem fun y hy => List.mem_append_right _ (mem_numberChars hnumber hy)

theorem pieces_commaJoin {ws : List (List Char)} (h : ∀ w ∈ ws, Pieces w) :
    Pieces (commaJoin ws) := by
  induction ws using commaJoin.induct with
  | case1 => exact .nil
  | case2 w => exact h w List.mem_cons_self
  | case3 w w' ws ih =>
    obtain ⟨hw, hws⟩ := List.forall_mem_cons.1 h
    exact hw.append (.bare (by decide) (ih hws))

theorem pieces_brackets {o c : Char} {ws : List (List Char)} (ho : o ∈ bareChars)
    (hc : c ∈ bareChars) (h : ∀ w ∈ ws, Pieces w) : Pieces (o :: commaJoin ws ++ [c]) :=
  .bare ho ((pieces_commaJoin h).append (.bare hc .nil))

/-- **A text is made of bare characters and strings.** -/
theorem pieces_render (v : Json) : Pieces v.render := by
  induction v using Json.induction with
  | null => exact pieces_of_forall_mem (forall_of_all (by decide))
  | bool b =>
    cases b with
    | true => exact pieces_of_forall_mem (forall_of_all (by decide))
    | false => exact pieces_of_forall_mem (forall_of_all (by decide))
  | number x => exact pieces_numberText x
  | string t => exact pieces_quote t
  | array es ih =>
    rw [render_array]
    exact pieces_brackets (by decide) (by decide) (List.forall_mem_map.2 ih)
  | object ms ih =>
    rw [render_object]
    refine pieces_brackets (by decide) (by decide) (List.forall_mem_map.2 fun m hm => ?_)
    exact (pieces_quote m.1).append (.bare (by decide) (ih m hm))

/-- What is made of pieces has neither controls nor separators of lines. -/
theorem isClear_of_mem_pieces {w : List Char} (h : Pieces w) {x : Char} (hx : x ∈ w) :
    IsClear x := by
  have key : ∀ x ∈ bareChars, IsClear x := forall_of_all (by decide)
  induction h with
  | nil => cases hx
  | bare hbare _ ih =>
    rcases List.mem_cons.1 hx with rfl | hx
    · exact key _ hbare
    · exact ih hx
  | string t _ ih =>
    rcases List.mem_append.1 hx with hx | hx
    · exact isClear_of_mem_quote hx
    · exact ih hx

/-- **The text of a value has clear characters only**, so it is one line. -/
theorem isClear_of_mem_render {v : Json} {x : Char} (h : x ∈ v.render) : IsClear x :=
  isClear_of_mem_pieces (pieces_render v) h

/-! ## Parsing the text of a value -/

/-- The characters of a canonical text are those that were rendered, and a line feed. -/
theorem sourceChars_text (v : Json) : sourceChars v.text = v.render ++ ['\n'] := by
  obtain ⟨x, s, hx, -⟩ := head_render v
  refine sourceChars_encode (by rw [hx]; exact List.cons_ne_nil _ _) fun hm => ?_
  exact absurd (isClear_of_mem_render hm) (by decide)

/-- A rendered value without NaN is a document, and its value is the repaired one. -/
theorem document_render {v : Json} (hc : v.Canonical) (hn : v.NoNaN) :
    Document (v.render ++ ['\n']) v.repair := by
  have hblank : Blank ['\n'] := by
    intro x hx
    rw [List.mem_singleton.1 hx]
    decide
  exact .intro blank_nil (value_render hc hn) hblank

/-- A value with NaN is no document when it is rendered. -/
theorem noNaN_of_document {v w : Json} (hc : v.Canonical)
    (h : Document (v.render ++ ['\n']) w) : v.NoNaN := by
  refine Classical.byContradiction fun hn => ?_
  -- what the syntax derives is taken, but here nothing is
  obtain ⟨rest, hread⟩ := (read_document_iff (Nat.le_refl _) w).2 h
  rw [read_document, dropWhile_of_stops (stops_isSpace_render v _)] at hread
  have hlen : v.render.length ≤ (v.render ++ ['\n']).length := by
    rw [List.length_append]
    omega
  obtain ⟨l, r, hr⟩ := isRefused_render hc hn _ hlen ['\n']
  rw [hr] at hread
  cases hread

/-- **Parsing the text of a value** succeeds if and only if every number in it is one, and gives
the value repaired; a value that is well-formed throughout comes back as it was. -/
theorem parse_text {v : Json} (hc : v.Canonical) :
    ((∃ w rest, parse v.text = .success w rest) ↔ v.NoNaN) ∧
      (∀ w rest, parse v.text = .success w rest → w = v.repair) ∧
      (v.WellFormed → v.NoNaN → ∃ rest, parse v.text = .success v rest) := by
  have haccept (w : Json) : (∃ rest, parse v.text = .success w rest) ↔
      Document (v.render ++ ['\n']) w := by
    rw [← sourceChars_text, parse_eq_outcome, outcome_eq_success]
    exact read_document_iff (length_sourceChars_le v.text) w
  have hnoNaN (w : Json) (rest : Cursor) (h : parse v.text = .success w rest) : v.NoNaN :=
    noNaN_of_document hc ((haccept w).1 ⟨rest, h⟩)
  have hrepair (hn : v.NoNaN) : ∃ rest, parse v.text = .success v.repair rest :=
    (haccept _).2 (document_render hc hn)
  refine ⟨⟨?_, ?_⟩, ?_, ?_⟩
  · rintro ⟨w, rest, h⟩
    exact hnoNaN w rest h
  · intro hn
    exact ⟨_, hrepair hn⟩
  · intro w rest h
    obtain ⟨rest', h'⟩ := hrepair (hnoNaN w rest h)
    rw [h] at h'
    cases h'
    rfl
  · intro hw hn
    obtain ⟨rest, h⟩ := hrepair hn
    rw [repair_eq_self hc hw] at h
    exact ⟨rest, h⟩

/-- Two keys that are a stray byte each come to be the same key. The greater one prevails. -/
theorem parse_text_stray_keys :
    Canonical (.object [([0x80], .null), ([0xFF], .bool true)]) ∧
      ∃ rest, parse (Json.text (.object [([0x80], .null), ([0xFF], .bool true)])) =
        .success (.object [(utf8 "\uFFFD", .bool true)]) rest := by
  have hc : Canonical (.object [([0x80], .null), ([0xFF], .bool true)]) := by
    refine .object (by unfold Members.Sorted; decide) fun m hm => ?_
    simp only [List.mem_cons, List.not_mem_nil, or_false] at hm
    rcases hm with rfl | rfl
    · exact .null
    · exact .bool true
  have hn : NoNaN (.object [([0x80], .null), ([0xFF], .bool true)]) := by
    refine noNaN_object.2 fun m hm x hx => ?_
    simp only [List.mem_cons, List.not_mem_nil, or_false] at hm
    rcases hm with rfl | rfl <;> cases hx
  obtain ⟨hiff, hvalue, -⟩ := parse_text hc
  obtain ⟨w, rest, h⟩ := hiff.2 hn
  refine ⟨hc, rest, ?_⟩
  rw [h, hvalue w rest h]
  rfl

end Descent.Json
