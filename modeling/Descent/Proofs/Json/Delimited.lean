import Descent.Proofs.Json.Totality
import Descent.Proofs.Parser.Composition

/-!
# Where delimited values fail

Strings, arrays and objects are written between an opening and a closing mark,
with items in between: characters, elements, members. Once the opening mark is
taken, nothing but the closing mark can be missing, since items are taken as long
as there are any. So a failure stands at the end of the **last good item**, and
what was taken before it wants only the closing mark to be a value.

* `Steady`: parsers that read the same at every depth that covers the characters.
* `Delimited`: the three kinds of value, each with its marks and its items.
* `items_of_refused`: where a delimited value fails, its items have been taken.
* `value_of_body`: items that were taken are a value between the marks.
* `delimited_failure`: what comes before a failure can be closed.
-/

namespace Descent.Json

open Descent.Parser Syntax Grammar

/-! ## Steady parsers -/

/-- **A parser is steady** if it has no foreign parts, and no fault at any depth that exceeds the
number of characters ahead. -/
structure Steady {α : Type} (p : Parser Unit RuleType α) : Prop where
  standard : p.Standard
  sane : ∀ n s, s.length < n → (p.read (rules.answer n) s).Sane

theorem length_lt_depth (c : Cursor) : c.ahead.length < rules.depth c := by
  show c.ahead.length < (1 + 1) * (c.ahead.length + 1)
  omega

namespace Steady

variable {α β : Type} {p : Parser Unit RuleType α} {q : Parser Unit RuleType β}

/-- What a steady parser reads does not depend on the depth. -/
theorem read_eq (hp : Steady p) {m n : Nat} {s : List Char} (hm : s.length < m)
    (hn : s.length < n) : p.read (rules.answer m) s = p.read (rules.answer n) s := by
  have hleast (n : Nat) (hn : s.length < n) :
      p.read (rules.answer n) s = p.read (rules.answer (s.length + 1)) s := by
    have hlead := leadsTo_read (fun label r s => rules.leadsTo_answer hn label r s) p s
    exact hlead.eq_of_sane (hp.sane _ s (Nat.lt_succ_self _))
  rw [hleast m hm, hleast n hn]

/-- A run of a steady parser comes to what is read, to any depth beyond the characters ahead. -/
theorem outcome_runWith (hp : Steady p) (level : Level) {c : Cursor} {n : Nat}
    (hn : c.ahead.length < n) :
    (p.runWith rules level c).outcome = (p.read (rules.answer n) c.ahead).outcome c := by
  rw [Parser.outcome_runWith hp.standard standard_rules, hp.read_eq (length_lt_depth c) hn]

/-- A steady parser has no fault. -/
theorem outcome_ne_fault (hp : Steady p) (level : Level) (c : Cursor) (e : Fault) :
    (p.runWith rules level c).outcome ≠ .fault e := by
  intro h
  have hsettled := (hp.sane _ _ (length_lt_depth c)).settled c
  rw [← hp.outcome_runWith level (length_lt_depth c), h] at hsettled
  exact hsettled

/-- What a steady parser refuses to read is a failure when it runs. -/
theorem exists_failure (hp : Steady p) (level : Level) {c : Cursor} {n : Nat}
    (hn : c.ahead.length < n) (h : (p.read (rules.answer n) c.ahead).IsRefused) :
    ∃ f, (p.runWith rules level c).outcome = .failure f := by
  obtain ⟨l, r, hread⟩ := h
  rw [hp.outcome_runWith level hn, hread]
  exact ⟨_, rfl⟩

/-- Steady parsers may follow one another. -/
theorem right (hp : Steady p) (hq : Steady q) : Steady (p.right q) where
  standard := hp.standard.right hq.standard
  sane := by
    intro n s hn
    rw [read_right]
    refine (hp.sane n s hn).andThen ?_
    intro v r hr
    have hwithin := within_read (rules.within_answer n) p s
    rw [hr] at hwithin
    have hle := hwithin.length_le
    exact hq.sane n r (by omega)

end Steady

theorem steady_kind (k : Kind) : Steady (k.parser self) where
  standard := standard_kind standard_self k
  sane _ _ hn := sane_rule k (Nat.le_of_lt hn)

theorem steady_token (x : Char) : Steady (token x) where
  standard := standard_token x
  sane n s _ := sane_token (rules.within_answer n) x s

theorem steady_quoteMark : Steady quoteMark where
  standard := standard_char '"'
  sane _ s _ := sane_quoteMark s

theorem steady_stringChar : Steady stringChar where
  standard := standard_stringChar
  sane _ s _ := sane_stringChar s

theorem steady_element : Steady (element self) where
  standard := standard_element standard_self
  sane n s hn := sane_element (rules.within_answer n) (sane_self n s hn)

theorem steady_member : Steady (member self) where
  standard := standard_member standard_self
  sane n _ hn := sane_member (rules.within_answer n) fun r hr => sane_self n r (by omega)

/-- Items with commas between them are steady if the items are. -/
theorem Steady.commaList {α : Type} {p : Parser Unit RuleType α} (hp : Steady p) :
    Steady (p.sepBy (token ',')) where
  standard := hp.standard.sepBy (standard_token ',')
  sane := by
    intro n s hn
    have ha := rules.within_answer n
    refine sane_sepBy ha ?_ (sane_token ha ',') fun _ _ _ => length_lt_of_token ha
    intro r hr
    have hle := hr.length_le
    exact hp.sane n r (by omega)

/-! ## Marks -/

/-- Takes a mark: a quote alone, any other mark with the white space after it. -/
def mark (x : Char) : Parser Unit RuleType Char := if x = '"' then quoteMark else token x

theorem steady_mark (x : Char) : Steady (mark x) := by
  unfold mark
  split
  · exact steady_quoteMark
  · exact steady_token x

/-- A mark is taken where it stands. -/
theorem exists_read_mark (n : Nat) (x : Char) (s : List Char) :
    ∃ rest, (mark x).read (rules.answer n) (x :: s) = .took x rest := by
  by_cases hx : x = '"'
  · subst hx
    exact ⟨_, read_quoteMark_cons s⟩
  · rw [mark, if_neg hx]
    exact ⟨_, read_token_cons (rules.within_answer n) x s⟩

/-- A mark is refused where it does not stand. -/
theorem read_mark_of_stops (n : Nat) {x : Char} {s : List Char} (h : Stops (· == x) s) :
    ∃ l, (mark x).read (rules.answer n) s = .refused l s := by
  by_cases hx : x = '"'
  · subst hx
    exact ⟨_, congrArg (Reading.relabel _) (readChar_of_stops h _)⟩
  · rw [mark, if_neg hx]
    exact ⟨_, read_token_of_stops (rules.within_answer n) h⟩

/-- A mark is refused where something else comes first, and nowhere else. -/
theorem stops_of_mark {n : Nat} {x : Char} {l : Text} {s r : List Char}
    (h : (mark x).read (rules.answer n) s = .refused l r) : r = s ∧ Stops (· == x) s := by
  rcases stops_or_exists (· == x) s with hs | ⟨y, t, rfl, hy⟩
  · obtain ⟨l', hread⟩ := read_mark_of_stops n hs
    rw [hread] at h
    cases h
    exact ⟨rfl, hs⟩
  · obtain rfl := eq_of_beq hy
    obtain ⟨rest, hread⟩ := exists_read_mark n y t
    rw [hread] at h
    cases h

/-! ## Delimited values -/

/-- The kinds of value that are written between delimiters. -/
inductive Delimited where
  | string
  | array
  | object

namespace Delimited

/-- The rule for the kind of value. -/
def kind : Delimited → Kind
  | .string => .string
  | .array => .array
  | .object => .object

/-- The mark that such a value begins with. -/
def opener : Delimited → Char
  | .string => '"'
  | .array => '['
  | .object => '{'

/-- The mark that such a value ends with. -/
def closer : Delimited → Char
  | .string => '"'
  | .array => ']'
  | .object => '}'

/-- What stands between the marks, one after the other. -/
def Item : Delimited → Type
  | .string => CodePoint
  | .array => Json
  | .object => Text × Json

/-- Takes the items. -/
def body : (k : Delimited) → Parser Unit RuleType (List k.Item)
  | .string => stringChar.many
  | .array => (element self).sepBy (token ',')
  | .object => (member self).sepBy (token ',')

/-- Takes one item more, after the given ones. -/
def more : (k : Delimited) → List k.Item → Parser Unit RuleType k.Item
  | .string, _ => stringChar
  | .array, [] => element self
  | .array, _ :: _ => (token ',').right (element self)
  | .object, [] => member self
  | .object, _ :: _ => (token ',').right (member self)

/-- **The value of the items.** -/
def build : (k : Delimited) → List k.Item → Json
  | .string, us => .string (Utf8.encode (CodePoint.join us))
  | .array, vs => .array vs
  | .object, ms => .ofMembers ms

/-- Where the items begin, after the opening mark. -/
def start : Delimited → List Char → List Char
  | .string, s => s
  | .array, s => s.dropWhile isSpace
  | .object, s => s.dropWhile isSpace

/-- The body of an array, of an object or of a string is steady. -/
theorem steady_body (k : Delimited) : Steady k.body := by
  cases k with
  | string =>
    refine ⟨standard_stringChar, ?_⟩
    intro n s _
    exact sane_many (rules.within_answer n) (fun r _ => sane_stringChar r)
      fun _ _ _ _ => ne_of_stringChar
  | array => exact steady_element.commaList
  | object => exact steady_member.commaList

theorem steady_more (k : Delimited) (items : List k.Item) : Steady (k.more items) := by
  cases k with
  | string => exact steady_stringChar
  | array =>
    cases items with
    | nil => exact steady_element
    | cons v vs => exact (steady_token ',').right steady_element
  | object =>
    cases items with
    | nil => exact steady_member
    | cons m ms => exact (steady_token ',').right steady_member

section Read

variable {n : Nat} {s r : List Char} {k : Delimited} {items : List k.Item}

/-- **A delimited value is read** mark by mark, with the items in between. -/
theorem read_eq (k : Delimited) (n : Nat) (s : List Char) :
    (k.kind.parser self).read (rules.answer n) s =
      ((((mark k.opener).read (rules.answer n) s).andThen fun _ r =>
        (k.body.read (rules.answer n) r).andThen fun items r' =>
          ((mark k.closer).read (rules.answer n) r').map fun _ => items).map k.build).relabel
        (kindLabel k.kind) := by
  cases k with
  | string =>
    show ((quotedString.map Json.string).relabel (utf8 "quoted string")).read _ s = _
    rw [read_relabel, read_map, read_quotedString, Reading.map_map]
    rfl
  | array =>
    show ((bracketed '[' ']' (element self)).map Json.array |>.relabel (utf8 "array")).read _ s = _
    rw [read_relabel, read_map, bracketed, read_between]
    rfl
  | object =>
    show ((bracketed '{' '}' (member self)).map Json.ofMembers |>.relabel
      (utf8 "object")).read _ s = _
    rw [read_relabel, read_map, bracketed, read_between]
    rfl

/-- The opening mark is taken with the white space after it. -/
theorem read_opening (k : Delimited) (n : Nat) (s : List Char) :
    (mark k.opener).read (rules.answer n) (k.opener :: s) = .took k.opener (k.start s) := by
  cases k with
  | string => exact read_quoteMark_cons s
  | array => exact read_token_cons (rules.within_answer n) '[' s
  | object => exact read_token_cons (rules.within_answer n) '{' s

/-- **A delimited value is refused at once** where its opening mark is missing. -/
theorem read_of_stops (n : Nat) (h : Stops (· == k.opener) s) :
    (k.kind.parser self).read (rules.answer n) s = .refused (kindLabel k.kind) s := by
  obtain ⟨l, hmark⟩ := read_mark_of_stops n h
  rw [read_eq, hmark]
  rfl

/-- The body between the marks may be empty, so it is never refused. -/
theorem not_isRefused_body (k : Delimited) (n : Nat) (s : List Char) :
    ¬ (k.body.read (rules.answer n) s).IsRefused := by
  cases k with
  | string => exact not_isRefused_many _ s
  | array => exact not_isRefused_sepBy _ _ s
  | object => exact not_isRefused_sepBy _ _ s

/-- **Where a delimited value fails**, items have been taken up to there, and the closing mark is
missing. -/
theorem items_of_refused {l : Text}
    (h : (k.kind.parser self).read (rules.answer n) (k.opener :: s) = .refused l r) :
    l = kindLabel k.kind ∧ ∃ items, k.body.read (rules.answer n) (k.start s) = .took items r ∧
      Stops (· == k.closer) r := by
  rw [read_eq, read_opening, Reading.andThen_took, Reading.relabel_eq_refused] at h
  obtain ⟨hl, l', h⟩ := h
  refine ⟨hl, ?_⟩
  have h := Reading.andThen_eq_refused.1 (Reading.map_eq_refused.1 h)
  rcases h with hbody | ⟨items, r', hbody, h⟩
  · exact absurd ⟨_, _, hbody⟩ (not_isRefused_body k n _)
  · obtain ⟨rfl, hs⟩ := stops_of_mark (Reading.map_eq_refused.1 h)
    exact ⟨items, hbody, hs⟩

/-- No item more can be taken where the items end. -/
theorem isRefused_more (h : k.body.read (rules.answer n) s = .took items r) :
    ((k.more items).read (rules.answer n) r).IsRefused := by
  have ha := rules.within_answer n
  cases k with
  | string => exact (rounds_of_many ha h).2
  | array =>
    rcases isRefused_of_sepBy ha h with ⟨rfl, hr⟩ | ⟨hne, hr⟩
    · exact hr
    · obtain ⟨v, vs, rfl⟩ := List.exists_cons_of_ne_nil hne
      exact hr
  | object =>
    rcases isRefused_of_sepBy ha h with ⟨rfl, hr⟩ | ⟨hne, hr⟩
    · exact hr
    · obtain ⟨m, ms, rfl⟩ := List.exists_cons_of_ne_nil hne
      exact hr

/-! ## Closing what was taken -/

/-- **Items that were taken are a value** between the marks. -/
theorem value_of_body (h : k.body.read (rules.answer n) (k.start s) = .took items r) :
    ∃ w, s = w ++ r ∧ Value (k.opener :: w ++ [k.closer]) (k.build items) := by
  have ha := rules.within_answer n
  cases k with
  | string =>
    obtain ⟨b, hb, hs⟩ := stringBody_of_rounds (rounds_of_many ha h).1
    have hjoin := CodePoint.standFor_join (isUnit_of_stringBody hb)
    exact ⟨b, hs, .string (.intro hb hjoin)⟩
  | array =>
    obtain ⟨u, hu, hs⟩ := exists_blank_dropWhile s
    have hitems := separated_of_sepBy ha (elementText_of_read ha (derived_of_read_self n)) h
    -- no items, so only white space was taken; or items with commas in between
    rcases hitems with ⟨rfl, hr⟩ | ⟨w, hw, hsep⟩
    · refine ⟨u, ?_, .emptyArray hu⟩
      rw [← hr]
      exact hs
    · refine ⟨u ++ w, ?_, .array hu (elements_of_separated hsep)⟩
      rw [List.append_assoc, ← hw]
      exact hs
  | object =>
    obtain ⟨u, hu, hs⟩ := exists_blank_dropWhile s
    have hitems := separated_of_sepBy ha (memberText_of_read ha (derived_of_read_self n)) h
    rcases hitems with ⟨rfl, hr⟩ | ⟨w, hw, hsep⟩
    · refine ⟨u, ?_, .emptyObject hu⟩
      rw [← hr]
      exact hs
    · refine ⟨u ++ w, ?_,
        .object hu (members_of_separated hsep) (Members.collects_iff.2 rfl)⟩
      rw [List.append_assoc, ← hw]
      exact hs

/-- Where a delimited value fails after its opening mark, some characters are taken. -/
theorem length_lt_of_refused {l : Text}
    (h : (k.kind.parser self).read (rules.answer n) (k.opener :: s) = .refused l r) :
    r.length < (k.opener :: s).length := by
  obtain ⟨-, items, hbody, -⟩ := items_of_refused h
  obtain ⟨w, rfl, -⟩ := value_of_body hbody
  rw [List.length_cons, List.length_append]
  omega

/-- **A value between the marks is taken**, whatever comes after it. -/
theorem read_closed {w : List Char}
    (hv : Value (k.opener :: w ++ [k.closer]) (k.build items)) (t : List Char)
    (hn : w.length + 2 ≤ n) :
    (k.kind.parser self).read (rules.answer n) (k.opener :: w ++ k.closer :: t) =
      .took (k.build items) (trail (k.build items) t) := by
  have hkind : kindAt? (k.opener :: w ++ k.closer :: t) = some k.kind := by
    cases k <;> rfl
  have hapart : Apart (k.build items) t := by
    cases k <;> trivial
  have hlength : (k.opener :: w ++ [k.closer]).length ≤ n := by
    simp only [List.length_append, List.length_cons, List.length_nil]
    omega
  have htakes := takes n _ _ hv hlength t hapart
  rw [List.append_assoc, List.singleton_append] at htakes
  exact read_kind_of_value (rules.within_answer n) hkind htakes

/-- Of all characters but a quote, only a backslash may begin no character of a string. -/
theorem eq_backslash_of_isRefused {x : Char} (hx : s.head? = some x) (hs : Stops (· == '"') s)
    (h : (stringChar.read (rules.answer n) s).IsRefused) : x = '\\' := by
  obtain ⟨t, rfl⟩ := List.head?_eq_some_iff.1 hx
  have hquote : x ≠ '"' := by simpa using hs x rfl
  by_cases hb : x = '\\'
  · exact hb
  · have hread : stringChar.read (rules.answer n) ([x] ++ t) = .took _ t :=
      read_stringChar_append (.plain hquote hb) t
    obtain ⟨l, r, h⟩ := h
    rw [List.singleton_append, h] at hread
    cases hread

theorem start_suffix (k : Delimited) (s : List Char) : k.start s <:+ s := by
  cases k with
  | string => exact List.suffix_refl s
  | array => exact dropWhile_suffix s
  | object => exact dropWhile_suffix s

end Read

end Delimited

/-! ## Failures -/

/-- **A failure marks a viable prefix.** It stands `n` characters after `c`, where the items have
been taken that come after the opening mark, and where no item more can be taken; in a string, this
is at the end of the input or before a backslash. With the closing mark in place of whatever comes
there, the characters before it are a value, and its items are those that were taken. -/
structure Viable (level : Level) (k : Delimited) (c : Cursor) (f : Failure) (n : Nat)
    (items : List k.Item) : Prop where
  pos : 0 < n
  le : n ≤ c.ahead.length
  before : c.pos.Before f.pos
  failure_eq : f = .here (kindLabel k.kind) (c.skip n).obstacle (c.skip n)
  collected : ∃ x m, ((mark k.opener).runWith rules level c).outcome = .success x m ∧
    (k.body.runWith rules level m).outcome = .success items (c.skip n)
  stops : ∃ g, ((k.more items).runWith rules level (c.skip n)).outcome = .failure g
  escape : k = .string → ∀ x, f.cause = .unexpected x → x = '\\'
  closes : ∀ c' t, c'.ahead = c.ahead.take n ++ k.closer :: t →
    ((k.kind.parser self).runWith rules level c').outcome =
      .success (k.build items) (c'.upTo (trail (k.build items) t))

section Failures

variable (level : Level) {k : Delimited} {c : Cursor} {N : Nat} {w r : List Char}
  {items : List k.Item}

/-- The items of a run are those of its reading. -/
theorem collected_of_read (hN : c.ahead.length < N) (hc : c.ahead = k.opener :: (w ++ r))
    (h : k.body.read (rules.answer N) (k.start (w ++ r)) = .took items r) :
    ∃ x m, ((mark k.opener).runWith rules level c).outcome = .success x m ∧
      (k.body.runWith rules level m).outcome = .success items (c.upTo r) := by
  have hsuffix : k.start (w ++ r) <:+ c.ahead := by
    rw [hc]
    exact (k.start_suffix _).trans (List.suffix_cons _ _)
  have hr : r <:+ k.start (w ++ r) := by
    have hwithin := within_read (rules.within_answer N) k.body (k.start (w ++ r))
    rw [h] at hwithin
    exact hwithin
  have hahead := Cursor.ahead_upTo hsuffix
  have hle := hsuffix.length_le
  refine ⟨k.opener, c.upTo (k.start (w ++ r)), ?_, ?_⟩
  · rw [(steady_mark k.opener).outcome_runWith level hN, hc, k.read_opening]
    rfl
  · rw [(k.steady_body).outcome_runWith level (n := N) (by rw [hahead]; omega), hahead, h,
      Reading.outcome_took, Cursor.upTo_upTo hsuffix hr]

/-- With the closing mark, the items that were read are those of the value. -/
theorem closes_of_value (hv : Value (k.opener :: w ++ [k.closer]) (k.build items)) {t : List Char}
    (hc : c.ahead = k.opener :: w ++ k.closer :: t) :
    ((k.kind.parser self).runWith rules level c).outcome =
      .success (k.build items) (c.upTo (trail (k.build items) t)) := by
  have hlength : w.length + 2 ≤ c.ahead.length + 1 := by
    rw [hc]
    simp only [List.length_append, List.length_cons]
    omega
  rw [(steady_kind k.kind).outcome_runWith level (Nat.lt_succ_self _), hc]
  rw [hc] at hlength
  rw [Delimited.read_closed hv t hlength]
  rfl

end Failures

/-- **A failure of a delimited value marks a viable prefix.** Where a string, an array or an object
fails after its opening mark, everything before the failure is well formed: with a closing mark
there, it is a value of the items taken so far, at any cursor that delivers the same
characters. -/
theorem delimited_failure (level : Level) (k : Delimited) (c : Cursor) (f : Failure)
    (hopen : c.ahead.head? = some k.opener)
    (hf : ((k.kind.parser self).runWith rules level c).outcome = .failure f) :
    ∃ n items, Viable level k c f n items := by
  obtain ⟨s, hc⟩ := List.head?_eq_some_iff.1 hopen
  have hdepth := length_lt_depth c
  rw [(steady_kind k.kind).outcome_runWith level hdepth, hc] at hf
  obtain ⟨l, r, hread, hfail⟩ := Reading.outcome_eq_failure hf
  obtain ⟨rfl, items, hbody, hstops⟩ := Delimited.items_of_refused hread
  obtain ⟨w, rfl, hv⟩ := Delimited.value_of_body hbody
  have hmore := Delimited.isRefused_more hbody
  -- the failure is behind the opening mark and the characters of the items
  have hplace : c.upTo r = c.skip (w.length + 1) := Cursor.upTo_append (w := k.opener :: w) hc
  have hahead : (c.upTo r).ahead = r := Cursor.ahead_upTo ⟨k.opener :: w, hc.symm⟩
  have hlength : w.length + 1 + r.length = c.ahead.length := by
    rw [hc, List.length_cons, List.length_append]
    omega
  have hcollected := collected_of_read level hdepth hc hbody
  rw [hplace] at hfail hcollected hahead
  refine ⟨w.length + 1, items, Nat.succ_pos _, by omega, ?_, hfail, hcollected, ?_, ?_, ?_⟩
  · rw [hfail]
    exact Cursor.before_skip (Nat.succ_pos _) (by omega)
  · have hlt : (c.skip (w.length + 1)).ahead.length < rules.depth c := by
      rw [hahead]
      omega
    rw [← hahead] at hmore
    exact (k.steady_more items).exists_failure level hlt hmore
  · rintro rfl x hx
    rw [hfail] at hx
    have hhead := Cursor.obstacle_eq_unexpected_iff.1 hx
    rw [hahead] at hhead
    exact Delimited.eq_backslash_of_isRefused hhead hstops hmore
  · intro c' t hc'
    have htake : c.ahead.take (w.length + 1) = k.opener :: w := by
      rw [hc, List.take_succ_cons, List.take_left]
    rw [htake] at hc'
    exact closes_of_value level hv hc'

/-- The second member lacks a colon, so the comma before it dangles, and the object fails there. -/
theorem delimited_failure_dangling :
    (Cursor.ofText (utf8 "\x7b\"a\": [true], \"b\" 3\x7d")).ahead.head? = some '{' ∧
    ((Kind.object.parser self).runWith rules .info
        (.ofText (utf8 "\x7b\"a\": [true], \"b\" 3\x7d"))).outcome =
      .failure ⟨utf8 "object", .unexpected ',', ⟨0, 12⟩, utf8 "\x7b\"a\": [true], \"b\" 3\x7d"⟩ ∧
    ∃ n items, Viable .info .object (.ofText (utf8 "\x7b\"a\": [true], \"b\" 3\x7d"))
      ⟨utf8 "object", .unexpected ',', ⟨0, 12⟩, utf8 "\x7b\"a\": [true], \"b\" 3\x7d"⟩
      n items := by
  have hopen : (Cursor.ofText (utf8 "\x7b\"a\": [true], \"b\" 3\x7d")).ahead.head? =
      some '{' := by
    decide +kernel
  have hf : (((Kind.object.parser self).runWith rules .info
      (.ofText (utf8 "\x7b\"a\": [true], \"b\" 3\x7d"))).outcome.map fun _ => ()) =
        .failure ⟨utf8 "object", .unexpected ',', ⟨0, 12⟩,
          utf8 "\x7b\"a\": [true], \"b\" 3\x7d"⟩ := by
    decide +kernel
  have hf := Outcome.map_eq_failure.1 hf
  exact ⟨hopen, hf, delimited_failure .info .object _ _ hopen hf⟩

end Descent.Json
