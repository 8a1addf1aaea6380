import Descent.Proofs.Json.Relaxed.Reader
import Descent.Proofs.Json.Relaxed.Standard

/-!
# Relaxed documents extend documents

A document proper that is also a relaxed one is its own standard form, although
its strings may hold what looks like a comment or a trailing comma. The two
derivations are compared from left to right: where the syntax has white space,
the next character begins a value or is a mark, so there is no comment, and after
a comma there is a value, so the comma is not the last one.

* `extra_kept`, `items_kept`, `nestedValue_kept`: what the syntax also derives is
  kept as it is.
* `eq_of_document`: documents are kept as they are.
* `parseRelaxedBy_conserves`: relaxed parsing succeeds wherever parsing does, with the
  same value, and fails as parsing does.
-/

namespace Descent.Json.Relaxed

open Grammar
open Syntax (Blank)

/-! ## White space -/

theorem Begins.append {s : List Char} (h : Begins s) (r : List Char) : Begins (s ++ r) := by
  obtain ⟨x, hx, s, rfl⟩ := h
  exact ⟨x, hx, s ++ r, rfl⟩

theorem Begins.ne_cons {s : List Char} (h : Begins s) {c : Char} (hc : c ∉ openers)
    (r : List Char) : s ≠ c :: r := by
  rintro rfl
  obtain ⟨x, hx, _, hcons⟩ := h
  rw [← (List.cons.inj hcons).1] at hx
  exact hc hx

/-- **A boundary** is where white space and comments have ended: neither comes next. -/
def Boundary (s : List Char) : Prop := Stops (fun x => Syntax.isSpace x || x == '/') s

/-- What begins a value is a boundary. -/
theorem Begins.boundary {s : List Char} (h : Begins s) : Boundary s := by
  have key : ∀ x ∈ openers, (Syntax.isSpace x || x == '/') = false := forall_of_all (by decide)
  obtain ⟨x, hx, s, rfl⟩ := h
  exact stops_cons (key x hx) s

theorem boundary_mark {x : Char} (hx : x ∈ marks) (s : List Char) : Boundary (x :: s) := by
  have key : ∀ x ∈ marks, (Syntax.isSpace x || x == '/') = false := forall_of_all (by decide)
  exact stops_cons (key x hx) s

/-- There is no white space at a boundary. -/
theorem Boundary.stops_isSpace {s : List Char} (h : Boundary s) : Stops Syntax.isSpace s :=
  fun x hx => (Bool.or_eq_false_iff.1 (h x hx)).1

/-- **White space of the syntax is kept**, and has no comment in it. -/
theorem extra_kept {e x : Text} (h : Extra e x) {u s s' : List Char} (hu : Blank u)
    (hs : Boundary s) (hs' : Boundary s') (heq : spelling e ++ s = u ++ s') :
    x = e ∧ s = s' := by
  have hdrop := congrArg (List.dropWhile Syntax.isSpace) heq
  rw [dropWhile_append_blank hu, dropWhile_of_stops hs'.stops_isSpace] at hdrop
  rcases h.plain_or_comment with ⟨rfl, hspace⟩ | ⟨a, c, rfl, hspace⟩
  · rw [dropWhile_append_blank (blank_spelling hspace),
      dropWhile_of_stops hs.stops_isSpace] at hdrop
    exact ⟨rfl, hdrop⟩
  -- the slash of the first comment is where the white space ends
  · rw [spelling_append_mark List.mem_cons_self, List.append_assoc,
      dropWhile_append_blank (blank_spelling hspace), List.cons_append,
      dropWhile_of_stops (stops_cons (by decide) _)] at hdrop
    rw [← hdrop] at hs'
    have hslash := hs' '/' rfl
    exact absurd hslash (by decide)

/-- A number goes on neither with white space or comments nor with a mark behind them. -/
theorem stops_extra_cons {e x : Text} (h : Extra e x) {y : Char} (hy : continuesNumber y = false)
    (s : List Char) : Stops continuesNumber (spelling e ++ y :: s) := by
  rcases h.plain_or_comment with ⟨rfl, hspace⟩ | ⟨a, c, rfl, hspace⟩
  · exact stops_blank_cons (blank_spelling hspace) hy s
  · rw [spelling_append_mark List.mem_cons_self, List.append_assoc]
    exact stops_blank_cons (blank_spelling hspace) (by decide) _

theorem continuesNumber_of_mem_marks {y : Char} (hy : y ∈ marks) : continuesNumber y = false := by
  have key : ∀ y ∈ marks, continuesNumber y = false := forall_of_all (by decide)
  exact key y hy

/-! ## Items -/

section Items

variable {α : Type} {Core : List Char → α → Prop} {Item : Text → Text → Prop} {t w : Text}
  {s : List Char}

/-- **What the syntax derives is kept**: where a text of a form begins as one of the syntax does,
it is its own standard form, and both end at the same place. -/
def Kept (Item : Text → Text → Prop) (Core : List Char → α → Prop) : Prop :=
  ∀ t w s v r r', Item t w → Core s v → Stops continuesNumber r → Stops continuesNumber r' →
    spelling t ++ r = s ++ r' → w = t ∧ r = r'

/-- An item is kept with the white space after it, up to the mark that ends it. -/
theorem padded_kept (hkept : Kept Item Core) {e x : Text} {v : α} (hi : Item t w)
    (he : Extra e x) (hp : Padded Core s v) {y y' : Char} (hy : y ∈ marks) (hy' : y' ∈ marks)
    {r r' : List Char} (heq : spelling t ++ (spelling e ++ y :: r) = s ++ y' :: r') :
    w = t ∧ x = e ∧ y = y' ∧ r = r' := by
  obtain ⟨s, u, rfl, hcore, hu⟩ := hp
  have hstops := stops_extra_cons he (continuesNumber_of_mem_marks hy) r
  have hstops' := stops_blank_cons hu (continuesNumber_of_mem_marks hy') r'
  rw [List.append_assoc] at heq
  obtain ⟨hw, heq⟩ := hkept t w s v _ _ hi hcore hstops hstops' heq
  obtain ⟨hx, heq⟩ := extra_kept he hu (boundary_mark hy r) (boundary_mark hy' r') heq
  obtain ⟨hyy, hr⟩ := List.cons.inj heq
  exact ⟨hw, hx, hyy, hr⟩

/-- A list begins as its first item does. -/
theorem begins_of_separated (hbegins : ∀ s v, Core s v → Begins s) {vs : List α}
    (h : Separated (Padded Core) s vs) : Begins s := by
  cases h with
  | one hp =>
    obtain ⟨s, u, rfl, hcore, -⟩ := hp
    exact (hbegins s _ hcore).append u
  | more hp _ _ =>
    obtain ⟨s, u, rfl, hcore, -⟩ := hp
    rw [List.append_assoc, List.append_assoc]
    exact (hbegins s _ hcore).append _

/-- **Items of the syntax are kept**, and no comma follows the last one. -/
theorem items_kept (hsolid : SolidForm Item)
    (hbegins : ∀ s v, Core s v → Begins s) (hkept : Kept Item Core) {c : Char} (hc : c ∈ marks)
    (hcomma : c ≠ ',') (hopener : c ∉ openers) (h : Items Item t w) {vs : List α}
    (hs : Separated (Padded Core) s vs) {r r' : List Char}
    (heq : spelling t ++ c :: r = s ++ c :: r') : w = t ∧ r = r' := by
  have hmark : ',' ∈ marks := by decide
  induction h generalizing s vs with
  | @last t w e x hi he =>
    rw [(hsolid t w hi).1.spelling_append he.asciiHead, List.append_assoc] at heq
    cases hs with
    | one hp =>
      obtain ⟨rfl, rfl, -, hr⟩ := padded_kept hkept hi he hp hc hc heq
      exact ⟨rfl, hr⟩
    | more hp _ _ =>
      simp only [List.append_assoc, List.cons_append] at heq
      obtain ⟨-, -, hy, -⟩ := padded_kept hkept hi he hp hc hmark heq
      exact absurd hy hcomma
  | @trailing t w e x e' x' hi he he' =>
    rw [(hsolid t w hi).1.spelling_append_mark he.asciiHead hmark] at heq
    simp only [List.append_assoc, List.cons_append] at heq
    cases hs with
    | one hp =>
      obtain ⟨-, -, hy, -⟩ := padded_kept hkept hi he hp hmark hc heq
      exact absurd hy.symm hcomma
    | more hp hu hmore =>
      -- the syntax has another item where the closing bracket is
      simp only [List.append_assoc, List.cons_append] at heq
      obtain ⟨-, -, -, heq⟩ := padded_kept hkept hi he hp hmark hmark heq
      have hnext := (begins_of_separated hbegins hmore).append (c :: r')
      obtain ⟨-, hclose⟩ := extra_kept he' hu (boundary_mark hc r) hnext.boundary heq
      exact absurd hclose (hnext.ne_cons hopener r).symm
  | @more t w e x e' x' t' w' hi he he' hitems ih =>
    have hopens := (hitems.opens hsolid).1
    rw [(hsolid t w hi).1.spelling_append_mark he.asciiHead hmark,
      spelling_append_opens hopens] at heq
    simp only [List.append_assoc, List.cons_append] at heq
    cases hs with
    | one hp =>
      obtain ⟨-, -, hy, -⟩ := padded_kept hkept hi he hp hmark hc heq
      exact absurd hy.symm hcomma
    | more hp hu hmore =>
      simp only [List.append_assoc, List.cons_append] at heq
      obtain ⟨rfl, rfl, -, heq⟩ := padded_kept hkept hi he hp hmark hmark heq
      have hnext := (begins_of_separated hbegins hmore).append (c :: r')
      obtain ⟨rfl, hitem⟩ := extra_kept he' hu ((begins_spelling hopens).append _).boundary
        hnext.boundary heq
      obtain ⟨rfl, hr⟩ := ih hmore hitem
      exact ⟨rfl, hr⟩

/-- **Brackets of the syntax are kept** if the items in them are. -/
theorem bracketed_kept (hsolid : SolidForm Item)
    (hbegins : ∀ s v, Core s v → Begins s) (hkept : Kept Item Core) {o c : Char}
    (ho : o ∈ openers) (hc : c ∈ marks) (hcomma : c ≠ ',') (hopener : c ∉ openers)
    (h : Bracketed (byte o) (byte c) Item t w) (hs : Brackets o c Core s) {r r' : List Char}
    (heq : spelling t ++ r = s ++ r') : w = t ∧ r = r' := by
  obtain ⟨u, m, rfl, hu, hm⟩ := hs
  -- an item of one side cannot begin where the other side closes the brackets
  cases h with
  | @empty e x he =>
    rw [spelling_brackets ho hc] at heq
    simp only [List.append_assoc, List.cons_append, List.nil_append] at heq
    have heq := (List.cons.inj heq).2
    rcases hm with rfl | ⟨vs, hvs⟩
    · obtain ⟨rfl, hr⟩ := extra_kept he hu (boundary_mark hc r) (boundary_mark hc r') heq
      exact ⟨rfl, (List.cons.inj hr).2⟩
    · have hnext := (begins_of_separated hbegins hvs).append (c :: r')
      obtain ⟨-, hr⟩ := extra_kept he hu (boundary_mark hc r) hnext.boundary heq
      exact absurd hr (hnext.ne_cons hopener r).symm
  | @items e x t w he hitems =>
    have hopens := (hitems.opens hsolid).1
    rw [spelling_brackets_items ho hc e hopens] at heq
    simp only [List.append_assoc, List.cons_append, List.nil_append] at heq
    have heq := (List.cons.inj heq).2
    have hfirst := (begins_spelling hopens).append (c :: r)
    rcases hm with rfl | ⟨vs, hvs⟩
    · obtain ⟨-, hr⟩ := extra_kept he hu hfirst.boundary (boundary_mark hc r') heq
      exact absurd hr (hfirst.ne_cons hopener r')
    · have hnext := (begins_of_separated hbegins hvs).append (c :: r')
      obtain ⟨rfl, hitem⟩ := extra_kept he hu hfirst.boundary hnext.boundary heq
      obtain ⟨rfl, hr⟩ := items_kept hsolid hbegins hkept hc hcomma hopener hitems hvs hitem
      exact ⟨rfl, hr⟩

end Items

/-! ## Values of the syntax -/

/-- The characters that tell a kind are those that open a value. -/
theorem mem_openers_of_kindOf? {x : Char} {k : Kind} (h : kindOf? x = some k) : x ∈ openers := by
  unfold kindOf? at h
  split at h
  · rename_i hx
    rw [beginsNumber, Bool.or_eq_true] at hx
    rcases hx with hx | hx
    · rw [eq_of_beq hx]
      decide
    · exact List.mem_append_right _ (mem_digitChars hx)
  · split at h
    · rename_i hx
      rw [hx]
      decide
    · split at h
      · rename_i hx
        rcases hx with rfl | rfl <;> decide
      · split at h
        · rename_i hx
          rw [hx]
          decide
        · split at h
          · rename_i hx
            rw [hx]
            decide
          · split at h
            · rename_i hx
              rw [hx]
              decide
            · cases h

/-- A value begins with one of the characters that open a value. -/
theorem begins_of_value {s : List Char} {v : Json} (h : Syntax.Value s v) : Begins s := by
  obtain ⟨k, hk⟩ := exists_kindAt? h []
  rw [List.append_nil] at hk
  cases s with
  | nil => cases hk
  | cons x s => exact ⟨x, mem_openers_of_kindOf? hk, s, rfl⟩

/-- Where a string ends is told by the string. -/
theorem quoted_append_inj {k k' r r' : List Char} {t t' : Text} (h : Syntax.Quoted k t)
    (h' : Syntax.Quoted k' t') (heq : k ++ r = k' ++ r') : r = r' := by
  have hread := read_quotedString_append (rules.within_answer 0) h r
  rw [heq, read_quotedString_append (rules.within_answer 0) h' r'] at hread
  exact (Reading.took.inj hread).2.symm

/-- Where a value ends is told by the value, if no white space is read after it. -/
theorem value_append_inj {s s' r r' : List Char} {v v' : Json} (h : Syntax.Value s v)
    (h' : Syntax.Value s' v') (hr : Stops continuesNumber r) (hr' : Stops continuesNumber r')
    (htrail : ∀ rest, trail v rest = rest) (heq : s ++ r = s' ++ r') : r = r' := by
  have hread := takes (s.length + s'.length) s v h (by omega) r (apart_of_stops v hr)
  have hread' := takes (s.length + s'.length) s' v' h' (by omega) r' (apart_of_stops v' hr')
  rw [heq, hread'] at hread
  obtain ⟨rfl, hrest⟩ := Reading.took.inj hread
  rw [htrail, htrail] at hrest
  exact hrest.symm

/-- Elements of the syntax are values with white space after them and commas in between. -/
theorem separated_of_elements {s : List Char} {vs : List Json} (h : Syntax.Elements s vs) :
    Separated (Padded Syntax.Value) s vs := by
  induction vs generalizing s with
  | nil => cases h
  | cons v vs ih =>
    cases h with
    | one hv hu => exact .one ⟨_, _, rfl, hv, hu⟩
    | more hv hu hu' he => exact .more ⟨_, _, rfl, hv, hu⟩ hu' (ih he)

/-- Members of the syntax are members with white space after them and commas in between. -/
theorem separated_of_members {s : List Char} {ms : List (Text × Json)}
    (h : Syntax.Members s ms) : Separated (Padded MemberCore) s ms := by
  induction ms generalizing s with
  | nil => cases h
  | cons m ms ih =>
    cases h with
    | one hk hu₁ hu₂ hv hu =>
      exact .one ⟨_, _, rfl, ⟨_, _, _, _, by simp, hk, hu₁, hu₂, hv⟩, hu⟩
    | more hk hu₁ hu₂ hv hu hu' hm =>
      exact .more ⟨_, _, rfl, ⟨_, _, _, _, by simp, hk, hu₁, hu₂, hv⟩, hu⟩ hu' (ih hm)

theorem head_of_quoted {k : List Char} {t : Text} (h : Syntax.Quoted k t) : k.head? = some '"' := by
  obtain ⟨-, -⟩ := h
  rfl

/-- A value that begins with a bracket is a list in brackets. -/
theorem brackets_of_value {s : List Char} {v : Json} (h : Syntax.Value s v) :
    (s.head? = some '[' → Brackets '[' ']' Syntax.Value s) ∧
      (s.head? = some '{' → Brackets '{' '}' MemberCore s) := by
  cases h with
  | null => exact ⟨fun h => absurd h (by decide), fun h => absurd h (by decide)⟩
  | true => exact ⟨fun h => absurd h (by decide), fun h => absurd h (by decide)⟩
  | false => exact ⟨fun h => absurd h (by decide), fun h => absurd h (by decide)⟩
  | string hq =>
    rw [head_of_quoted hq]
    exact ⟨fun h => absurd h (by decide), fun h => absurd h (by decide)⟩
  | number hn _ =>
    obtain ⟨x, w, rfl, hx⟩ := head_of_number hn
    constructor <;> intro h <;> obtain rfl := Option.some.inj h
    · exact absurd hx (by decide)
    · exact absurd hx (by decide)
  | emptyArray hu =>
    exact ⟨fun _ => ⟨_, [], rfl, hu, .inl rfl⟩, fun h => absurd h (by simp)⟩
  | array hu he =>
    refine ⟨fun _ => ⟨_, _, ?_, hu, .inr ⟨_, separated_of_elements he⟩⟩,
      fun h => absurd h (by simp)⟩
    rw [List.append_assoc]
    rfl
  | emptyObject hu =>
    exact ⟨fun h => absurd h (by simp), fun _ => ⟨_, [], rfl, hu, .inl rfl⟩⟩
  | object hu hm _ =>
    refine ⟨fun h => absurd h (by simp),
      fun _ => ⟨_, _, ?_, hu, .inr ⟨_, separated_of_members hm⟩⟩⟩
    rw [List.append_assoc]
    rfl

/-! ## Members, values and documents -/

/-- A member begins with one of the characters that open a value. -/
theorem begins_of_memberCore {s : List Char} {m : Text × Json} (h : MemberCore s m) : Begins s := by
  obtain ⟨k, u₁, u₂, s', rfl, hk, -⟩ := h
  exact (begins_of_value (.string hk)).append _

/-- **Members are kept** if their values are. -/
theorem member_kept {Inner : Text → Text → Prop} (hsolid : SolidForm Inner)
    (hkept : Kept Inner Syntax.Value) : Kept (Member Inner) MemberCore := by
  intro t w s m r r' h hcore hr hr' heq
  obtain ⟨k', u₁, u₂, s', rfl, hk', hu₁, hu₂, hv⟩ := hcore
  cases h with
  | @intro k e₁ x₁ e₂ x₂ t w hk he₁ he₂ ht =>
    have hcolon : ':' ∈ marks := by decide
    have hopens := (hsolid t w ht).1.opens
    obtain ⟨key, hkey⟩ := quoted_of_stringLiteral hk
    rw [hk.solid.spelling_append_mark he₁.asciiHead hcolon, spelling_append_opens hopens] at heq
    simp only [List.append_assoc, List.cons_append] at heq
    -- the key, the white space before and after the colon, the value
    have hafter := quoted_append_inj hkey hk' heq
    obtain ⟨rfl, hmark⟩ :=
      extra_kept he₁ hu₁ (boundary_mark hcolon _) (boundary_mark hcolon _) hafter
    obtain ⟨rfl, hvalue⟩ := extra_kept he₂ hu₂ ((begins_spelling hopens).append r).boundary
      ((begins_of_value hv).append r').boundary (List.cons.inj hmark).2
    obtain ⟨rfl, hrest⟩ := hkept t w s' m.2 r r' ht hv hr hr' hvalue
    exact ⟨rfl, hrest⟩

/-- Two ways to take a text apart agree about its opening bracket. -/
theorem head_of_bracketed {o : Char} {c : UInt8} (ho : o ∈ openers) {Item : Text → Text → Prop}
    {t w : Text} (h : Bracketed (byte o) c Item t w) {s r r' : List Char} (hs : Begins s)
    (heq : spelling t ++ r = s ++ r') : s.head? = some o := by
  obtain ⟨hascii, -, -, hcr⟩ := ascii_of_mem_openers ho
  obtain ⟨m, rfl⟩ := h.exists_eq_cons
  obtain ⟨x, -, s, rfl⟩ := hs
  rw [spelling_byte hascii hcr] at heq
  exact congrArg some (List.cons.inj heq).1.symm

/-- **Values of the syntax are kept.** -/
theorem nestedValue_kept (depth : Nat) : Kept (NestedValue depth) Syntax.Value := by
  induction depth with
  | zero => exact fun _ _ _ _ _ _ h => nomatch h
  | succ depth ih =>
    intro t w s v r r' h hv hr hr' heq
    have hsolid := solidForm_nestedValue depth
    have hbegins := begins_of_value hv
    cases h with
    | string hs =>
      obtain ⟨text, hq⟩ := quoted_of_stringLiteral hs
      exact ⟨rfl, value_append_inj (.string hq) hv hr hr' (fun _ => rfl) heq⟩
    | word hw =>
      obtain ⟨v', hv', htrail⟩ := exists_value_of_word hw
      exact ⟨rfl, value_append_inj hv' hv hr hr' htrail heq⟩
    | array hb =>
      -- both readings begin with the same bracket, so both are lists in brackets
      have hhead : s.head? = some '[' := head_of_bracketed (by decide) hb hbegins heq
      exact bracketed_kept hsolid (fun _ _ => begins_of_value) ih (by decide) (by decide)
        (by decide) (by decide) hb ((brackets_of_value hv).1 hhead) heq
    | object hb =>
      have hhead : s.head? = some '{' := head_of_bracketed (by decide) hb hbegins heq
      exact bracketed_kept (solidForm_member hsolid) (fun _ _ => begins_of_memberCore)
        (member_kept hsolid ih) (by decide) (by decide) (by decide) (by decide) hb
        ((brackets_of_value hv).2 hhead) heq

/-- **Documents are their own standard form**, if they have one. -/
theorem eq_of_document {t w : Text} {v : Json} (h : Document t w)
    (hs : Syntax.Document (sourceChars t) v) : w = t := by
  obtain ⟨he, ⟨depth, hvalue⟩, he'⟩ := h
  rename_i e x t w e' x'
  have hsolid := (solidForm_nestedValue depth t w hvalue).1
  have hopens := hsolid.opens.append e'
  have hne : e ++ (t ++ e') ≠ [] := by
    obtain ⟨z, -, s, hz⟩ := hopens
    rw [hz]
    simp
  rw [sourceChars_eq hne, spelling_append_opens hopens, hsolid.spelling_append he'.asciiHead] at hs
  generalize hsource : spelling e ++ (spelling t ++ spelling e') ++ ['\n'] = source at hs
  obtain ⟨hu, hv, hu'⟩ := hs
  rename_i u s u'
  simp only [List.append_assoc] at hsource
  have hfirst : Boundary (spelling t ++ (spelling e' ++ ['\n'])) :=
    ((begins_spelling hsolid.opens).append _).boundary
  have hfirst' : Boundary (s ++ u') := ((begins_of_value hv).append u').boundary
  have hstops : Stops continuesNumber (spelling e' ++ ['\n']) :=
    stops_extra_cons he' (by decide) []
  obtain ⟨rfl, hrest⟩ := extra_kept he hu hfirst hfirst' hsource
  obtain ⟨rfl, hend⟩ := nestedValue_kept depth t w s v _ _ hvalue hv hstops (stops_blank hu')
    hrest
  -- what is left of the document is white space, so there is no comment in it
  have hlast : x' = e' := by
    rcases he'.plain_or_comment with ⟨hx, -⟩ | ⟨a, c, rfl, -⟩
    · exact hx
    · rw [spelling_append_mark List.mem_cons_self] at hend
      have hslash : Syntax.isSpace '/' = true := hu' '/' (by rw [← hend]; simp)
      exact absurd hslash (by decide)
  rw [hlast]

end Descent.Json.Relaxed

namespace Descent.Json

/-- Documents of the syntax are parsed. -/
theorem exists_parse_success {t : Text} {v : Json} (h : Syntax.Document (sourceChars t) v) :
    ∃ rest, parse t = .success v rest := by
  rw [parse_eq_outcome, outcome_eq_success]
  exact (read_document_iff (length_sourceChars_le t) v).2 h

/-- What is parsed is a document of the syntax. -/
theorem document_of_parse_success {t : Text} {v : Json} {rest : Cursor}
    (h : parse t = .success v rest) : Syntax.Document (sourceChars t) v := by
  rw [parse_eq_outcome] at h
  exact (read_document_iff (length_sourceChars_le t) v).1 (outcome_eq_success.1 ⟨rest, h⟩)

/-- **Relaxed parsing is a conservative extension of parsing.** Whatever finds the standard form
of relaxed documents and of nothing else: a text that can be parsed gives the same value in both
ways; a text that cannot be parsed in the relaxed way fails with the very failure that parsing it
as it is ends in; and a standard form, which is written over the text, can always be parsed. -/
theorem parseRelaxedBy_conserves {standardize : Text → Option Text}
    (hstandardize : Relaxed.Standardizes standardize) (t : Text) :
    parseRelaxedBy standardize t = parseRelaxed t ∧
      (∀ v rest, parse t = .success v rest → parseRelaxedBy standardize t = .success v rest) ∧
      (∀ f, parseRelaxedBy standardize t = .failure f → parse t = .failure f) ∧
      ∀ w, standardize t = some w →
        Relaxed.Overwrites t w ∧ ∃ v rest, parse w = .success v rest := by
  have hstandard (w : Text) (hw : standardize t = some w) :
      ∃ v rest, parse w = .success v rest := by
    obtain ⟨v, hv⟩ := Relaxed.exists_document ((hstandardize t w).1 hw)
    obtain ⟨rest, hrest⟩ := exists_parse_success hv
    exact ⟨v, rest, hrest⟩
  refine ⟨?_, fun v rest hparse => ?_, fun f hf => ?_, fun w hw => ?_⟩
  · have hsame : standardize t = Relaxed.standardize? t := by
      ext w
      rw [hstandardize t w, Relaxed.standardizes_standardize? t w]
    unfold parseRelaxed parseRelaxedBy
    rw [hsame]
  · unfold parseRelaxedBy
    cases hw : standardize t with
    | none => exact hparse
    | some w =>
      have hdocument := document_of_parse_success hparse
      rw [Option.getD_some, Relaxed.eq_of_document ((hstandardize t w).1 hw) hdocument]
      exact hparse
  · unfold parseRelaxedBy at hf
    cases hw : standardize t with
    | none =>
      rw [hw] at hf
      exact hf
    | some w =>
      -- the standard form can be parsed, so this is no failure
      obtain ⟨v, rest, hparse⟩ := hstandard w hw
      rw [hw, Option.getD_some, hparse] at hf
      cases hf
  · exact ⟨.of_document ((hstandardize t w).1 hw), hstandard w hw⟩

/-- A comment and a trailing comma are written over, and what looks like them in a string is
not. -/
theorem parseRelaxedBy_conserves_string :
    Relaxed.Standardizes Relaxed.standardize? ∧
      Relaxed.standardize? (utf8 "// a\n[\"//,]\", 1,]") = some (utf8 "    \n[\"//,]\", 1 ]") ∧
      ∃ v rest, parse (utf8 "    \n[\"//,]\", 1 ]") = .success v rest := by
  have hform : Relaxed.standardize? (utf8 "// a\n[\"//,]\", 1,]") =
      some (utf8 "    \n[\"//,]\", 1 ]") := by decide +kernel
  have hconserves := parseRelaxedBy_conserves Relaxed.standardizes_standardize?
    (utf8 "// a\n[\"//,]\", 1,]")
  exact ⟨Relaxed.standardizes_standardize?, hform, (hconserves.2.2.2 _ hform).2⟩

end Descent.Json
