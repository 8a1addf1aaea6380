import Descent.Proofs.Parser.Diagnosis

/-!
# Parsers only move forward

Where a parser succeeds, the rest of the input is reached from the place where it
began by reading on, character by character. Nothing but `Cursor.next` makes a
new cursor, so this holds of every expression whose foreign parts read in the
same way, and it holds of alternatives that go back to an earlier cursor, since
that cursor is again the beginning of what follows.

* `Cursor.Reaches`: reading on, one character after another.
* `Parser.onward_run`: one parser, if the rules that it calls move forward.
* `Rules.onward_call`: the rules, by induction on the depth of calls.
* `success_onward`: what this says about the rest of every success.
-/

namespace Descent

namespace Cursor

/-- **Reading on**: from the first cursor to the second by steps that each deliver a
character. -/
inductive Reaches : Cursor → Cursor → Prop where
  | here (c : Cursor) : Reaches c c
  | step {c d e : Cursor} {x : Char} : c.next = some (x, d) → Reaches d e → Reaches c e

namespace Reaches

variable {c d e : Cursor}

theorem of_next {x : Char} (h : c.next = some (x, d)) : c.Reaches d := .step h (.here d)

theorem trans (h₁ : c.Reaches d) (h₂ : d.Reaches e) : c.Reaches e := by
  induction h₁ with
  | here c => exact h₂
  | step hx _ ih => exact .step hx (ih h₂)

/-- All cursors of a text share its lines. -/
theorem lines_eq (h : c.Reaches d) : d.lines = c.lines := by
  induction h with
  | here c => rfl
  | step hx _ ih => exact ih.trans (lines_of_next hx)

theorem coherent (h : c.Reaches d) (hc : c.Coherent) : d.Coherent := by
  induction h with
  | here c => exact hc
  | step hx _ ih =>
    apply ih
    rw [← advance_of_next hx]
    exact hc.advance

/-- Every step moves the position forward. -/
theorem eq_or_before (h : c.Reaches d) : d = c ∨ c.pos.Before d.pos := by
  induction h with
  | here c => exact .inl rfl
  | step hx _ ih =>
    right
    rcases ih with rfl | hb
    · exact before_of_next hx
    · exact (before_of_next hx).trans hb

/-- Reading on leads to no earlier place. -/
theorem not_before (h : c.Reaches d) : ¬ d.pos.Before c.pos := by
  intro hb
  rcases h.eq_or_before with rfl | hb'
  · exact Position.Before.irrefl _ hb
  · exact Position.Before.irrefl _ (hb.trans hb')

/-- Where something was read, the position is another one. -/
theorem pos_ne (h : c.Reaches d) (hne : d ≠ c) : d.pos ≠ c.pos := by
  intro hp
  rcases h.eq_or_before with he | hb
  · exact hne he
  · rw [hp] at hb
    exact Position.Before.irrefl _ hb

/-- No more characters are ahead of a cursor that is reached. -/
theorem length_le (h : c.Reaches d) : d.ahead.length ≤ c.ahead.length := by
  induction h with
  | here c => exact Nat.le_refl _
  | step hx _ ih =>
    rw [ahead_of_next hx, List.length_cons]
    omega

/-- Where something was read, less is ahead. -/
theorem length_lt (h : c.Reaches d) (hne : d ≠ c) : d.ahead.length < c.ahead.length := by
  cases h with
  | here => exact absurd rfl hne
  | step hx h =>
    have hle := h.length_le
    rw [ahead_of_next hx, List.length_cons]
    omega

/-- What is reached is so many characters further on, each of them delivered. -/
theorem exists_skip (h : c.Reaches d) :
    ∃ k, d = c.skip k ∧ ∀ i < k, ∃ x, (c.skip i).next = some (x, c.skip (i + 1)) := by
  induction h with
  | here c => exact ⟨0, rfl, fun i hi => absurd hi (Nat.not_lt_zero i)⟩
  | @step c d e x hx _ ih =>
    obtain ⟨k, rfl, hk⟩ := ih
    have hskip (i : Nat) : c.skip (i + 1) = d.skip i := by
      rw [skip, advance_of_next hx]
    refine ⟨k + 1, (hskip k).symm, fun i hi => ?_⟩
    cases i with
    | zero => exact ⟨x, by rw [hskip 0]; exact hx⟩
    | succ i =>
      rw [hskip i, hskip (i + 1)]
      exact hk i (by omega)

end Reaches

/-- **The cursor is in a line**: it stands in one of the lines, at one of its characters or behind
the last one, and reads on from there. -/
def InLine (c : Cursor) : Prop :=
  ∃ l, c.lines[c.line]? = some l ∧ c.currentLine = l ∧ c.column ≤ (Utf8.decode l).length ∧
    c.ahead = (Utf8.decode l).drop c.column ++ '\n' :: stream (c.lines.toList.drop (c.line + 1))

/-- A cursor that is not at the end stands within its line. -/
theorem Coherent.inLine {c : Cursor} (hc : c.Coherent) (h : c.atEnd = false) : c.InLine := by
  have hend : ¬ c.atEnd = true := by simp [h]
  have hlt : c.line < c.lines.size :=
    Nat.lt_of_le_of_ne hc.line_le fun he => hend (hc.atEnd_iff.2 he)
  have hl := Array.getElem?_eq_getElem hlt
  have hcurrent : c.currentLine = c.lines[c.line] := by
    unfold currentLine
    rw [hl]
    rfl
  have hcolumn := hc.column_le_currentLine
  rw [if_neg hend, hcurrent] at hcolumn
  exact ⟨c.lines[c.line], hl, hcurrent, hcolumn, hc.ahead_eq_append hl⟩

/-- **A cursor further on** in the same text: it is reached by reading, it stands where its line
and its column say, in a line or at the end, and its position is a later one unless nothing was
read. -/
structure Onward (c d : Cursor) : Prop where
  reached : ∃ k, d = c.skip k ∧ ∀ i < k, ∃ x, (c.skip i).next = some (x, c.skip (i + 1))
  lines_eq : d.lines = c.lines
  coherent : d.Coherent
  inLine : d.atEnd = false → d.InLine
  not_before : ¬ d.pos.Before c.pos
  eq_of_pos_eq : d.pos = c.pos → d = c

/-- From a coherent cursor, everything that is reached lies onward. -/
theorem Reaches.onward {c d : Cursor} (h : c.Reaches d) (hc : c.Coherent) : c.Onward d where
  reached := h.exists_skip
  lines_eq := h.lines_eq
  coherent := h.coherent hc
  inLine := (h.coherent hc).inLine
  not_before := h.not_before
  eq_of_pos_eq := by
    intro hp
    rcases h.eq_or_before with he | hb
    · exact he
    · rw [hp] at hb
      exact absurd hb (Position.Before.irrefl _)

end Cursor

/-! ## Outcomes -/

/-- If the outcome is a success, the rest is reached by reading on. -/
def Outcome.Onward {α : Type} (c : Cursor) (o : Outcome α) : Prop :=
  ∀ v rest, o = .success v rest → c.Reaches rest

namespace Outcome

variable {α β : Type} {c d : Cursor}

theorem onward_success {v : α} (h : c.Reaches d) : (success v d).Onward c := by
  rintro _ _ ⟨⟩
  exact h

theorem onward_failure (f : Failure) : (failure f : Outcome α).Onward c := nofun

theorem onward_fault (e : Fault) : (fault e : Outcome α).Onward c := nofun

/-- What lies onward from a cursor does so from every cursor that it is reached from. -/
theorem Onward.trans {o : Outcome α} (h : o.Onward d) (hd : c.Reaches d) : o.Onward c :=
  fun v rest ho => hd.trans (h v rest ho)

theorem Onward.map {o : Outcome α} (h : o.Onward c) (f : α → β) : (o.map f).Onward c := by
  cases o with
  | success v rest => exact onward_success (h v rest rfl)
  | failure e => exact onward_failure e
  | fault e => exact onward_fault e

theorem Onward.relabel {o : Outcome α} (h : o.Onward c) (label : Text) :
    (o.relabel label).Onward c := by
  cases o with
  | success v rest => exact onward_success (h v rest rfl)
  | failure e => exact onward_failure _
  | fault e => exact onward_fault e

end Outcome

/-! ## Runs -/

namespace Run

variable {α β : Type} {c : Cursor}

/-- If one run goes onward, and so does every one that follows, both do so in sequence. -/
theorem onward_andThen {r : Run α} {k : α → Cursor → Run β} (h : r.outcome.Onward c)
    (hk : ∀ v d, c.Reaches d → (k v d).outcome.Onward d) : (r.andThen k).outcome.Onward c := by
  unfold andThen
  cases hr : r.outcome with
  | success v rest =>
    have hd := h v rest hr
    exact (hk v rest hd).trans hd
  | failure f => exact Outcome.onward_failure f
  | fault e => exact Outcome.onward_fault e

/-- If two runs go onward, so does the choice between them. -/
theorem onward_orElse {r : Run α} {k : Unit → Run α} (h : r.outcome.Onward c)
    (hk : (k ()).outcome.Onward c) : (r.orElse k).outcome.Onward c := by
  unfold orElse
  cases hr : r.outcome with
  | success v rest => exact h
  | failure f => exact hk
  | fault e => exact h

/-- **A repetition moves forward** if each round does: a round begins where the one before it has
left off, and a round that fails is given up. -/
theorem onward_iterate {label : Text} {step : Cursor → Run α}
    (hs : ∀ d, d.Coherent → (step d).outcome.Onward d) (budget : List Char) (hc : c.Coherent) :
    (iterate label step budget c).outcome.Onward c := by
  induction budget generalizing c with
  | nil =>
    unfold iterate
    dsimp only
    cases (step c).outcome with
    | success v rest => dsimp only; split <;> exact Outcome.onward_fault _
    | failure f => exact Outcome.onward_success (.here c)
    | fault e => exact Outcome.onward_fault e
  | cons x budget ih =>
    have hstep := hs c hc
    unfold iterate
    dsimp only
    cases hr : (step c).outcome with
    | success v rest =>
      dsimp only
      split
      · exact Outcome.onward_fault _
      · have hrest := hstep v rest hr
        have hmore := (ih (hrest.coherent hc)).map (v :: ·)
        exact hmore.trans hrest
    | failure f => exact Outcome.onward_success (.here c)
    | fault e => exact Outcome.onward_fault e

end Run

/-! ## Parsers -/

/-- Calls move forward. -/
def Call.Onward {ρ : Type} {τ : ρ → Type} (call : Call ρ τ) : Prop :=
  ∀ label r c, c.Coherent → (call label r c).outcome.Onward c

namespace Parser

variable {ρ : Type} {τ : ρ → Type} {α : Type}

/-- **A parser advances by reading** if its foreign parts do, wherever they are run. -/
def Advances {α : Type} : Parser ρ τ α → Prop
  | .map p _ => p.Advances
  | .bind p f => p.Advances ∧ ∀ v, (f v).Advances
  | .orElse p q => p.Advances ∧ q.Advances
  | .many p => p.Advances
  | .named p _ => p.Advances
  | .relabel p _ => p.Advances
  | .trace p => p.Advances
  | .custom _ step => ∀ c, c.Coherent → (step c).Onward c
  | _ => True

/-- Without foreign parts there is nothing else than reading. -/
theorem Standard.advances {p : Parser ρ τ α} (hp : p.Standard) : p.Advances := by
  induction p with
  | map p f ih => exact ih hp
  | bind p f ihp ihf => exact ⟨ihp hp.1, fun v => ihf v (hp.2 v)⟩
  | orElse p q ihp ihq => exact ⟨ihp hp.1, ihq hp.2⟩
  | many p ih => exact ih hp
  | named p label ih => exact ih hp
  | relabel p label ih => exact ih hp
  | trace p ih => exact ih hp
  | custom label step => exact hp.elim
  | _ => trivial

/-- To advance by reading is to have parts that do. -/
theorem inherited_advances : @Inherited ρ τ Parser.Advances where
  standard := Standard.advances
  map _ := id
  bind := And.intro
  orElse := And.intro
  many := id
  named _ := id
  relabel _ := id
  trace := id

theorem onward_takeChar (accepts : Char → Bool) (label : Text) (c : Cursor) :
    (takeChar accepts label c).Onward c := by
  unfold takeChar
  split
  · exact Outcome.onward_failure _
  · rename_i x rest hx
    split
    · exact Outcome.onward_success (.of_next hx)
    · exact Outcome.onward_failure _

theorem onward_lookAhead (refuses : Char → Bool) (label : Text) (c : Cursor) :
    (lookAhead refuses label c).Onward c := by
  unfold lookAhead
  split
  · exact Outcome.onward_success (.here c)
  · split
    · exact Outcome.onward_failure _
    · exact Outcome.onward_success (.here c)

theorem onward_takeEnd (c : Cursor) : (takeEnd c).Onward c := by
  unfold takeEnd
  split
  · exact Outcome.onward_success (.here c)
  · rename_i x rest hx
    split
    · exact Outcome.onward_success (.of_next hx)
    · exact Outcome.onward_failure _

/-- **A parser moves forward** if its calls do. -/
theorem onward_run {p : Parser ρ τ α} (hp : p.Advances) {call : Call ρ τ} (hcall : call.Onward)
    (level : Level) {c : Cursor} (hc : c.Coherent) : (p.run level call c).outcome.Onward c := by
  induction p generalizing c with
  | satisfy accepts label => exact onward_takeChar accepts label c
  | notFollowedBy refuses label => exact onward_lookAhead refuses label c
  | endOfInput => exact onward_takeEnd c
  | succeed label v => exact Outcome.onward_success (.here c)
  | map p f ih => exact (ih hp hc).map f
  | bind p f ihp ihf =>
    exact Run.onward_andThen (ihp hp.1 hc) fun v d hd => ihf v (hp.2 v) (hd.coherent hc)
  | orElse p q ihp ihq => exact Run.onward_orElse (ihp hp.1 hc) (ihq hp.2 hc)
  | many p ih => exact Run.onward_iterate (fun d hd => ih hp hd) c.ahead hc
  | named p label ih => exact ih hp hc
  | relabel p label ih => exact (ih hp hc).relabel label
  | trace p ih =>
    simp only [run]
    split <;> exact ih hp hc
  | ref label r => exact hcall label r c hc
  | custom label step => exact hp c hc
  | raise label e => exact Outcome.onward_fault e

/-- Taking any characters, however many, is reading on. -/
theorem onward_takeMore (label : Text) (n : Nat) (taken : List Char) (c : Cursor) :
    (takeMore label n taken c).Onward c := by
  induction n generalizing taken c with
  | zero => exact Outcome.onward_success (.here c)
  | succ n ih =>
    unfold takeMore
    split
    · rename_i x rest hx
      exact (ih (x :: taken) rest).trans (.of_next hx)
    · exact Outcome.onward_failure _

/-- Taking a number of characters goes onward. -/
theorem advances_take (n : Int) : (take n : Parser ρ τ Text).Advances :=
  fun c _ => onward_takeMore _ _ _ c

end Parser

namespace Rules

variable {ρ : Type} {τ : ρ → Type}

/-- Every rule advances by reading. -/
def Advances (R : Rules ρ τ) : Prop := ∀ r p, R.find r = some p → p.Advances

/-- **Rules move forward**, to any depth of calls. -/
theorem onward_call {R : Rules ρ τ} (hR : R.Advances) (level : Level) (depth : Nat) :
    (R.call level depth).Onward := by
  induction depth with
  | zero => exact fun label r c _ => Outcome.onward_fault _
  | succ depth ih =>
    intro label r c hc
    unfold call
    cases h : R.find r with
    | none => exact Outcome.onward_fault _
    | some p => exact Parser.onward_run (hR r p h) ih level hc

end Rules

namespace Parser

variable {ρ : Type} {τ : ρ → Type} {α : Type}

/-- **The rest of a success is further on in the same text.** This holds of every parser whose
foreign parts advance by reading, under such rules called to any depth, at every cursor that
stands where its line and its column say. -/
theorem success_onward {R : Rules ρ τ} (hR : R.Advances) {p : Parser ρ τ α} (hp : p.Advances)
    (level : Level) (depth : Nat) {c : Cursor} (hc : c.Coherent) {v : α} {rest : Cursor}
    (h : (p.run level (R.call level depth) c).outcome = .success v rest) : c.Onward rest :=
  (onward_run hp (Rules.onward_call hR level depth) level hc v rest h).onward hc

/-- Two characters of any kind, a line break among them, and a group of parentheses. -/
theorem success_onward_group :
    ((((take 2).andThen (.ref (utf8 "group") ()) : Parser Unit (fun _ => Char) _).run .info
        (parentheses.call .info 9) (.ofText (utf8 "x\n(()))"))).outcome =
      .success (utf8 "x\n", '(') ((Cursor.ofText (utf8 "x\n(()))")).skip 6)) ∧
    (Cursor.ofText (utf8 "x\n(()))")).Onward ((Cursor.ofText (utf8 "x\n(()))")).skip 6) := by
  have hrules : parentheses.Advances := fun r p h => (standard_parentheses r p h).advances
  have hp : ((take 2).andThen (.ref (utf8 "group") ()) : Parser Unit (fun _ => Char) _).Advances :=
    ⟨advances_take 2, fun _ => ⟨trivial, fun _ => trivial⟩⟩
  have hrun : (((take 2).andThen (.ref (utf8 "group") ()) : Parser Unit (fun _ => Char) _).run .info
        (parentheses.call .info 9) (.ofText (utf8 "x\n(()))"))).outcome =
      .success (utf8 "x\n", '(') ((Cursor.ofText (utf8 "x\n(()))")).skip 6) := by
    decide +kernel
  exact ⟨hrun, success_onward hrules hp .info 9 (Cursor.coherent_ofText _) hrun⟩

end Parser

end Descent
