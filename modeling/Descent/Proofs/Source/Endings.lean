import Descent.Json.Parse
import Descent.Proofs.Source.Enumeration
import Descent.Proofs.Source.Spelling

/-!
# Line endings

A line may end in a line feed alone or in a carriage return and a line feed, and
each line of a text in its own way. To change from the one to the other, carriage
returns are put before some of the line feeds. The cursor over the text is then
the same as before, so nothing that is parsed can tell the difference.

A carriage return alone is a character like any other. The text must not have one
before a line feed already: only the last of several carriage returns belongs to
the line break, so one more of them would show.

* `unifyBreaks_withReturns`: the carriage returns that were put in are dropped.
* `exists_unifyBreaks_ne`: a second one before a line feed is not.
* `endings_alike`: the same cursor, the same runs, the same value.
-/

namespace Descent

/-- The line break of two bytes. -/
def returnBreak : Text := [carriageReturn, lineFeed]

/-- A byte, with a carriage return before it if it is a line feed and its place is marked. -/
def withReturn (marked : Nat → Bool) (b : UInt8 × Nat) : Text :=
  if b.1 = lineFeed ∧ marked b.2 then [carriageReturn, b.1] else [b.1]

/-- **A text with carriage returns** before those of its line feeds whose places are marked. -/
def withReturns (marked : Nat → Bool) (t : Text) : Text := t.zipIdx.flatMap (withReturn marked)

/-! ## Carriage returns that are dropped -/

/-- A text that begins with a line feed after the returns were put in did so before. -/
theorem head?_of_zipIdx_withReturn {marked : Nat → Bool} {t : Text} {n : Nat}
    (h : ((t.zipIdx n).flatMap (withReturn marked)).head? = some lineFeed) :
    t.head? = some lineFeed := by
  cases t with
  | nil => exact h
  | cons b t =>
    rw [List.zipIdx_cons, List.flatMap_cons] at h
    unfold withReturn at h
    split at h
    · exact absurd (Option.some.inj h) (by decide)
    · exact h

/-- Returns that were put in before line feeds are taken out again. -/
theorem unifyBreaks_zipIdx {marked : Nat → Bool} {t : Text} (h : ¬ returnBreak <:+: t) (n : Nat) :
    unifyBreaks ((t.zipIdx n).flatMap (withReturn marked)) = t := by
  induction t generalizing n with
  | nil => rfl
  | cons b t ih =>
    have htail : ¬ returnBreak <:+: t := fun hi => h (List.infix_cons hi)
    rw [List.zipIdx_cons, List.flatMap_cons, withReturn]
    split
    · -- the carriage return before a marked line feed goes again
      rename_i hb
      obtain rfl : b = lineFeed := hb.1
      change unifyBreaks (carriageReturn :: lineFeed :: (t.zipIdx (n + 1)).flatMap _) = _
      rw [unifyBreaks, if_pos ⟨rfl, rfl⟩, ih htail]
    · -- a carriage return of the text stays, as no line feed comes next
      have hcut : [b].getLast? = some carriageReturn →
          ((t.zipIdx (n + 1)).flatMap (withReturn marked)).head? ≠ some lineFeed := by
        intro hlast hhead
        obtain rfl : b = carriageReturn := Option.some.inj hlast
        obtain ⟨t, rfl⟩ := List.head?_eq_some_iff.1 (head?_of_zipIdx_withReturn hhead)
        exact h ⟨[], t, rfl⟩
      rw [unifyBreaks_append hcut, ih htail]
      rfl

/-- **The carriage returns that were put in are dropped**, and nothing else is. -/
theorem unifyBreaks_withReturns {t : Text} (h : ¬ returnBreak <:+: t) (marked : Nat → Bool) :
    unifyBreaks (withReturns marked t) = t :=
  unifyBreaks_zipIdx h 0

/-- Where nothing is marked, nothing is put in. -/
theorem zipIdx_withReturn_of_unmarked {marked : Nat → Bool} {t : Text} {n : Nat}
    (h : ∀ i, n ≤ i → i < n + t.length → marked i = false) :
    (t.zipIdx n).flatMap (withReturn marked) = t := by
  induction t generalizing n with
  | nil => rfl
  | cons b t ih =>
    have hn : marked n = false := h n (Nat.le_refl n) (by simp)
    have htail : ∀ i, n + 1 ≤ i → i < n + 1 + t.length → marked i = false := by
      intro i hi hlt
      refine h i (by omega) ?_
      rw [List.length_cons]
      omega
    rw [List.zipIdx_cons, List.flatMap_cons, ih htail, withReturn, if_neg (by simp [hn])]
    rfl

/-- A text without a carriage return before a line feed is kept. -/
theorem unifyBreaks_of_not_infix {t : Text} (h : ¬ returnBreak <:+: t) : unifyBreaks t = t := by
  have hnone : withReturns (fun _ => false) t = t := zipIdx_withReturn_of_unmarked fun _ _ _ => rfl
  have hunify := unifyBreaks_withReturns h fun _ => false
  rwa [hnone] at hunify

/-- The lines of a text do not depend on how they end. -/
theorem sourceLines_withReturns {t : Text} (h : ¬ returnBreak <:+: t) (marked : Nat → Bool) :
    sourceLines (withReturns marked t) = sourceLines t := by
  have hunify := unifyBreaks_withReturns h marked
  have hnil : withReturns marked t = [] ↔ t = [] := by
    constructor
    · intro ht
      rw [← hunify, ht]
      rfl
    · rintro rfl
      rfl
  unfold sourceLines
  simp only [hnil, hunify, unifyBreaks_of_not_infix h]

/-! ## Carriage returns that show -/

/-- A carriage return put before one line feed only. -/
theorem withReturns_beq (a b : Text) :
    withReturns (· == a.length) (a ++ lineFeed :: b) = a ++ carriageReturn :: lineFeed :: b := by
  have ha : (a.zipIdx 0).flatMap (withReturn (· == a.length)) = a := by
    apply zipIdx_withReturn_of_unmarked
    intro i _ hi
    exact beq_eq_false_iff_ne.2 (by omega)
  have hb : (b.zipIdx (a.length + 1)).flatMap (withReturn (· == a.length)) = b := by
    apply zipIdx_withReturn_of_unmarked
    intro i hi _
    exact beq_eq_false_iff_ne.2 (by omega)
  rw [withReturns, List.zipIdx_append, List.flatMap_append, ha, List.zipIdx_cons,
    List.flatMap_cons, Nat.zero_add, hb, withReturn, if_pos (by simp)]
  rfl

/-- **A second carriage return before a line feed is not dropped.** -/
theorem exists_unifyBreaks_ne {t : Text} (h : returnBreak <:+: t) :
    ∃ marked, unifyBreaks (withReturns marked t) ≠ unifyBreaks t := by
  obtain ⟨a, b, rfl⟩ := h
  refine ⟨(· == (a ++ [carriageReturn]).length), ?_⟩
  have hsplit : a ++ returnBreak ++ b = (a ++ [carriageReturn]) ++ lineFeed :: b := by
    simp [returnBreak]
  have hreturn : ∀ c : Text, c.getLast? = some carriageReturn →
      (returnBreak ++ b).head? ≠ some lineFeed := by
    intro c _ hhead
    exact absurd (Option.some.inj hhead) (by decide)
  have hone : unifyBreaks (a ++ [carriageReturn]) = unifyBreaks a ++ [carriageReturn] :=
    unifyBreaks_append fun _ => by decide
  have hnew : withReturns (· == (a ++ [carriageReturn]).length)
      ((a ++ [carriageReturn]) ++ lineFeed :: b) = (a ++ [carriageReturn]) ++ (returnBreak ++ b) :=
    withReturns_beq _ b
  -- both are cut before the last carriage return, and one of them has another one before the cut
  rw [hsplit, hnew, ← hsplit, unifyBreaks_append (hreturn _), List.append_assoc,
    unifyBreaks_append (hreturn a), hone]
  intro he
  have hlen := congrArg List.length he
  simp only [List.length_append, List.length_singleton] at hlen
  omega

/-- Texts with the same cursor are the same once the ends of lines are. -/
theorem unifyBreaks_of_ofText_eq {t t' : Text} (h : Cursor.ofText t = Cursor.ofText t') :
    unifyBreaks t = unifyBreaks t' := by
  have hlines : sourceLines t = sourceLines t' := by
    have := congrArg (fun c : Cursor => c.lines.toList) h
    simpa [Cursor.ofText] using this
  rw [← intercalate_sourceLines, ← intercalate_sourceLines, hlines]

/-! ## The same cursor -/

/-- The cursor of a text does not depend on how its lines end. -/
theorem ofText_withReturns {t : Text} (h : ¬ returnBreak <:+: t) (marked : Nat → Bool) :
    Cursor.ofText (withReturns marked t) = Cursor.ofText t := by
  unfold Cursor.ofText
  rw [sourceLines_withReturns h]

/-- **Line endings make no difference.** Carriage returns before any of the line feeds of a text
leave the cursor over it as it is, exactly if none of the line feeds had one before. Every parser
then runs in the same way under all rules, and the text is the same document. -/
theorem endings_alike (t : Text) :
    ((∀ marked, Cursor.ofText (withReturns marked t) = Cursor.ofText t) ↔
        ¬ returnBreak <:+: t) ∧
      (¬ returnBreak <:+: t → ∀ marked,
        (∀ {ρ : Type} {τ : ρ → Type} {α : Type} (R : Rules ρ τ) (level : Level)
            (p : Parser ρ τ α),
          p.runWith R level (.ofText (withReturns marked t)) = p.runWith R level (.ofText t) ∧
            p.parse R (withReturns marked t) = p.parse R t) ∧
          Json.parse (withReturns marked t) = Json.parse t) := by
  refine ⟨⟨?_, ofText_withReturns⟩, ?_⟩
  · intro hall hbreak
    obtain ⟨marked, hne⟩ := exists_unifyBreaks_ne hbreak
    exact hne (unifyBreaks_of_ofText_eq (hall marked))
  · intro h marked
    have hcursor := ofText_withReturns h marked
    refine ⟨fun R level p => ⟨by rw [hcursor], ?_⟩, ?_⟩
    · unfold Parser.parse
      rw [hcursor]
    · unfold Json.parse Parser.parse
      rw [hcursor]

/-- A string over three lines, the second of which begins with a carriage return, and an empty line
after it: the first and the last line break become line breaks of two bytes. -/
theorem endings_alike_mixed :
    ¬ returnBreak <:+: utf8 "[\"\n\rx\n\"]\n" ∧
    withReturns (fun i => i != 5) (utf8 "[\"\n\rx\n\"]\n") = utf8 "[\"\r\n\rx\n\"]\r\n" ∧
    Cursor.ofText (utf8 "[\"\r\n\rx\n\"]\r\n") = Cursor.ofText (utf8 "[\"\n\rx\n\"]\n") ∧
    Json.parse (utf8 "[\"\r\n\rx\n\"]\r\n") = Json.parse (utf8 "[\"\n\rx\n\"]\n") := by
  have hnone : ¬ returnBreak <:+: utf8 "[\"\n\rx\n\"]\n" := by decide +kernel
  have hreturns : withReturns (fun i => i != 5) (utf8 "[\"\n\rx\n\"]\n") =
      utf8 "[\"\r\n\rx\n\"]\r\n" := by decide +kernel
  obtain ⟨hcursor, hparse⟩ := endings_alike (utf8 "[\"\n\rx\n\"]\n")
  rw [← hreturns]
  exact ⟨hnone, rfl, hcursor.2 hnone _, (hparse hnone _).2⟩

end Descent
