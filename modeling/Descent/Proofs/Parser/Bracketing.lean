import Descent.Proofs.Parser.Repetition
import Descent.Proofs.Parser.Tracing

/-!
# The log of a traced run is well bracketed

A traced parser writes one entry when it begins and one when it ends, so its two
entries enclose what was written in between. In the log of a run that ends, every
beginning has its end, with the same label and the same place, and what stands
between them began there or further on. A fault ends no parser: the log breaks
off, and the beginnings without an end are the traced parsers that were running.

* `Nested`: a log of complete calls, none of which begins before a given place.
* `Interrupted`: a log that breaks off within calls.
* `unclosed`: the calls that a log leaves open, found by reading it with a stack.
* `Parser.Active`: the traced parsers that are running when a fault comes up.
* `log_bracketed`: what this says about every run.
-/

namespace Descent

/-! ## Complete calls -/

/-- **A traced parser that runs**: its label, and the place where it began. -/
structure Frame where
  label : Text
  pos : Position
  deriving DecidableEq, Repr

/-- **The entries that close a call**: a success that ends where the call began or further on, or a
failure. -/
inductive Entry.Closes : Frame → Entry → Prop where
  | succeeded {f : Frame} {stop : Position} :
      ¬ stop.Before f.pos → Closes f (.succeeded f.label f.pos stop)
  | failed {f : Frame} (message : Text) : Closes f (.failed f.label f.pos message)

/-- **A log of complete calls**, one after the other, none of which begins before `floor`. Between
the beginning and the end of a call stand complete calls that do not begin before it. -/
inductive Nested : Position → List Entry → Prop where
  | nil (floor : Position) : Nested floor []
  | call {floor : Position} {f : Frame} {inner rest : List Entry} {closing : Entry} :
      ¬ f.pos.Before floor → Nested f.pos inner → closing.Closes f → Nested floor rest →
      Nested floor (.began f.label f.pos :: (inner ++ closing :: rest))

namespace Nested

variable {floor floor' : Position} {log log' : List Entry}

/-- Complete calls may follow one another. -/
theorem append (h : Nested floor log) (h' : Nested floor log') : Nested floor (log ++ log') := by
  induction h with
  | nil floor => exact h'
  | call hpos hinner hclose _ _ ih =>
    rw [List.cons_append, List.append_assoc, List.cons_append]
    exact .call hpos hinner hclose (ih h')

/-- Calls that begin at a place or further on begin after every earlier place. -/
theorem lower (h : Nested floor' log) (hfloor : ¬ floor'.Before floor) : Nested floor log := by
  induction h with
  | nil floor' => exact .nil floor
  | call hpos hinner hclose _ _ ih =>
    exact .call (Position.not_before_trans hfloor hpos) hinner hclose (ih hfloor)

/-- What begins and ends around complete calls is a complete call. -/
theorem pair {f : Frame} {closing : Entry} (hpos : ¬ f.pos.Before floor) (h : Nested f.pos log)
    (hclose : closing.Closes f) : Nested floor (.began f.label f.pos :: (log ++ [closing])) :=
  .call hpos h hclose (.nil floor)

end Nested

/-! ## Logs that break off -/

/-- **A log that breaks off** within the calls `active`, the innermost first. Up to there, it is a
log of complete calls on every level. -/
inductive Interrupted : Position → List Entry → List Frame → Prop where
  | outside {floor : Position} {log : List Entry} : Nested floor log → Interrupted floor log []
  | within {floor : Position} {before inner : List Entry} {f : Frame} {active : List Frame} :
      Nested floor before → ¬ f.pos.Before floor → Interrupted f.pos inner active →
      Interrupted floor (before ++ .began f.label f.pos :: inner) (active ++ [f])

namespace Interrupted

variable {floor floor' : Position} {before log : List Entry} {active : List Frame}

/-- A log breaks off as before if complete calls stand in front of it. -/
theorem after (h : Interrupted floor log active) (hbefore : Nested floor before) :
    Interrupted floor (before ++ log) active := by
  cases h with
  | outside hlog => exact .outside (hbefore.append hlog)
  | within hmore hpos hinner =>
    rw [← List.append_assoc]
    exact .within (hbefore.append hmore) hpos hinner

/-- A log that breaks off beyond a place does so beyond every earlier one. -/
theorem lower (h : Interrupted floor' log active) (hfloor : ¬ floor'.Before floor) :
    Interrupted floor log active := by
  cases h with
  | outside hlog => exact .outside (hlog.lower hfloor)
  | within hbefore hpos hinner =>
    exact .within (hbefore.lower hfloor) (Position.not_before_trans hfloor hpos) hinner

/-- **Closing what is open completes the log**, the innermost call first. -/
theorem nested_append (h : Interrupted floor log active) (message : Text) :
    Nested floor (log ++ active.map fun f => .failed f.label f.pos message) := by
  induction h with
  | outside hlog =>
    rw [List.map_nil, List.append_nil]
    exact hlog
  | within hbefore hpos _ ih =>
    rw [List.map_append, List.append_assoc, List.cons_append, ← List.append_assoc]
    exact hbefore.append (.pair hpos ih (.failed message))

end Interrupted

/-! ## Reading a log with a stack -/

/-- The call that an entry belongs to. -/
def Entry.frame : Entry → Frame
  | .began label pos => ⟨label, pos⟩
  | .succeeded label pos _ => ⟨label, pos⟩
  | .failed label pos _ => ⟨label, pos⟩

/-- **The open calls after an entry**, the innermost first. An entry that ends a call must name the
innermost one. -/
def Entry.follow (stack : List Frame) : Entry → Option (List Frame)
  | .began label pos => some (⟨label, pos⟩ :: stack)
  | e =>
    match stack with
    | [] => none
    | top :: stack => if top = e.frame then some stack else none

/-- **The calls that a log leaves open**, the innermost first. -/
def unclosed (log : List Entry) : Option (List Frame) := log.foldlM Entry.follow []

/-- An entry that closes a call takes it from the stack. -/
theorem Entry.Closes.follow_eq {f : Frame} {e : Entry} (h : e.Closes f) (stack : List Frame) :
    e.follow (f :: stack) = some stack := by
  cases h with
  | succeeded => exact if_pos rfl
  | failed message => exact if_pos rfl

/-- Complete calls leave the stack as it was. -/
theorem Nested.foldlM_follow {floor : Position} {log : List Entry} (h : Nested floor log)
    (stack : List Frame) : log.foldlM Entry.follow stack = some stack := by
  induction h generalizing stack with
  | nil floor => rfl
  | @call _ f _ _ _ _ _ hclose _ ihinner ihrest =>
    have hbegan : (Entry.began f.label f.pos).follow stack = some (f :: stack) := rfl
    simp only [List.foldlM_cons, List.foldlM_append, hbegan, Option.bind_eq_bind, Option.bind_some,
      ihinner, hclose.follow_eq, ihrest]

/-- A log that breaks off leaves its open calls on the stack. -/
theorem Interrupted.foldlM_follow {floor : Position} {log : List Entry} {active : List Frame}
    (h : Interrupted floor log active) (stack : List Frame) :
    log.foldlM Entry.follow stack = some (active ++ stack) := by
  induction h generalizing stack with
  | outside hlog => exact hlog.foldlM_follow stack
  | @within _ _ _ f _ hbefore _ _ ih =>
    have hbegan : (Entry.began f.label f.pos).follow stack = some (f :: stack) := rfl
    simp only [List.foldlM_append, hbefore.foldlM_follow, List.foldlM_cons, hbegan,
      Option.bind_eq_bind, Option.bind_some, ih, List.append_assoc, List.cons_append,
      List.nil_append]

/-- The calls that a log breaks off within are those that it leaves open. -/
theorem Interrupted.unclosed_eq {floor : Position} {log : List Entry} {active : List Frame}
    (h : Interrupted floor log active) : unclosed log = some active := by
  have hfollow := h.foldlM_follow []
  rwa [List.append_nil] at hfollow

/-! ## Runs that end -/

namespace Run

variable {α β : Type} {c d : Cursor} {r : Run α}

/-- A run that is not at fault logs complete calls, from `floor` on. -/
def Bracketed (floor : Position) (r : Run α) : Prop :=
  (∀ e, r.outcome ≠ .fault e) → Nested floor r.log

theorem bracketed_quiet (floor : Position) (o : Outcome α) : (quiet o).Bracketed floor :=
  fun _ => .nil floor

/-- The log of a success is one of complete calls. -/
theorem Bracketed.of_success {floor : Position} (h : r.Bracketed floor) {v : α}
    (hr : r.outcome = .success v d) : Nested floor r.log :=
  h (by simp [hr])

/-- The log of a failure is one of complete calls. -/
theorem Bracketed.of_failure {floor : Position} (h : r.Bracketed floor) {f : Failure}
    (hr : r.outcome = .failure f) : Nested floor r.log :=
  h (by simp [hr])

/-- What is done with the outcome leaves the log bracketed, if faults stay faults. -/
theorem Bracketed.mapOutcome {floor : Position} (h : r.Bracketed floor)
    {g : Outcome α → Outcome β} (hg : ∀ e, g (.fault e) = .fault e) :
    (r.mapOutcome g).Bracketed floor := by
  intro hend
  apply h
  intro e he
  exact hend e ((congrArg g he).trans (hg e))

/-- A bracketed run, then one from where it got to, is bracketed. -/
theorem Bracketed.andThen {k : α → Cursor → Run β} (h : r.Bracketed c.pos)
    (hr : r.outcome.Onward c) (hk : ∀ v d, c.Reaches d → (k v d).Bracketed d.pos) :
    (r.andThen k).Bracketed c.pos := by
  unfold Run.andThen
  cases ho : r.outcome with
  | success v d =>
    intro hend
    have hd : c.Reaches d := hr v d ho
    exact (h.of_success ho).append ((hk v d hd hend).lower hd.not_before)
  | failure f => exact fun _ => h.of_failure ho
  | fault e => exact fun hend => absurd rfl (hend e)

/-- A bracketed run, then another one from the same place, is bracketed. -/
theorem Bracketed.orElse {k : Unit → Run α} {floor : Position} (h : r.Bracketed floor)
    (hk : (k ()).Bracketed floor) : (r.orElse k).Bracketed floor := by
  unfold Run.orElse
  cases ho : r.outcome with
  | success v d => exact h
  | failure f => exact fun hend => (h.of_failure ho).append (hk hend)
  | fault e => exact h

/-- **The runs of a chain log complete calls**: each of them has succeeded. -/
theorem Chain.nested {step : Cursor → Run α} {vs : List α} {log : List Entry}
    (h : Chain step c vs log d) (hs : ∀ d, c.Reaches d → (step d).Bracketed d.pos) :
    Nested c.pos log := by
  induction h with
  | here c => exact .nil c.pos
  | @cons c d _ _ _ _ hv hd _ _ ih =>
    have hrest := ih fun e he => hs e (hd.trans he)
    exact ((hs c (.here c)).of_success hv).append (hrest.lower hd.not_before)

/-- The log of a chain of rounds is one of complete calls, whatever complete calls follow. -/
theorem Chain.nested_append {step : Cursor → Run α} {vs : List α} {log last : List Entry}
    (h : Chain step c vs log d) (hs : ∀ d, c.Reaches d → (step d).Bracketed d.pos)
    (hlast : Nested d.pos last) : Nested c.pos (log ++ last) :=
  (h.nested hs).append (hlast.lower h.reaches.not_before)

/-- **A traced run is one call** around the calls of the run. -/
theorem log_traced (label : Text) (hr : r.outcome.Onward c) (hend : ∀ e, r.outcome ≠ .fault e) :
    ∃ closing : Entry, closing.Closes ⟨label, c.pos⟩ ∧
      (r.traced label c.pos).log = .began label c.pos :: (r.log ++ [closing]) := by
  unfold traced
  cases ho : r.outcome with
  | success v d => exact ⟨_, .succeeded (hr v d ho).not_before, rfl⟩
  | failure f => exact ⟨_, .failed f.message, rfl⟩
  | fault e => exact absurd ho (hend e)

/-- Tracing puts one more call around a bracketed log. -/
theorem Bracketed.traced (h : r.Bracketed c.pos) (label : Text) (hr : r.outcome.Onward c) :
    (r.traced label c.pos).Bracketed c.pos := by
  intro hend
  obtain ⟨closing, hclose, hlog⟩ := log_traced label hr hend
  rw [hlog]
  exact .pair (Position.Before.irrefl _) (h hend) hclose

end Run

/-- Calls that are not at fault log complete calls. -/
def Call.Bracketed {ρ : Type} {τ : ρ → Type} (call : Call ρ τ) : Prop :=
  ∀ label r c, c.Coherent → (call label r c).Bracketed c.pos

namespace Parser

variable {ρ : Type} {τ : ρ → Type} {α : Type}

/-- **A run that is not at fault logs complete calls**, if this holds of the rules that it
calls. -/
theorem bracketed_run {p : Parser ρ τ α} (hp : p.Advances) {call : Call ρ τ} (hcall : call.Onward)
    (hlog : call.Bracketed) (level : Level) {c : Cursor} (hc : c.Coherent) :
    (p.run level call c).Bracketed c.pos := by
  induction p generalizing c with
  | map p f ih => exact (ih hp hc).mapOutcome fun _ => rfl
  | bind p f ihp ihf =>
    exact (ihp hp.1 hc).andThen (onward_run hp.1 hcall level hc)
      fun v d hd => ihf v (hp.2 v) (hd.coherent hc)
  | orElse p q ihp ihq => exact (ihp hp.1 hc).orElse (ihq hp.2 hc)
  | many p ih =>
    obtain ⟨vs, log, d, hchain, hhalts⟩ := Run.exists_chain (onwardFrom_run (p := p) hp hcall hc)
    have hround (d : Cursor) (hd : c.Reaches d) := ih hp (hd.coherent hc)
    rw [run_many_of_chain hchain hhalts]
    intro hend
    -- the log of the round that ends the repetition is complete unless there is a fault
    cases ho : (p.run level call d).outcome with
    | failure f =>
      exact hchain.nested_append hround ((hround d hchain.reaches).of_failure ho)
    | success v e => exact absurd (by rw [ho]; rfl) (hend (.noProgress p.label d.pos))
    | fault e => exact absurd (by rw [ho]; rfl) (hend e)
  | named p label ih => exact ih hp hc
  | relabel p label ih => exact (ih hp hc).mapOutcome fun _ => rfl
  | trace p ih =>
    simp only [run]
    split
    · exact (ih hp hc).traced p.label (onward_run (p := p) hp hcall level hc)
    · exact ih hp hc
  | ref label r => exact hlog label r c hc
  | _ => exact Run.bracketed_quiet _ _

end Parser

namespace Rules

variable {ρ : Type} {τ : ρ → Type} {R : Rules ρ τ}

/-- The log of a rule is bracketed, at every depth. -/
theorem bracketed_call (hR : R.Advances) (level : Level) (depth : Nat) :
    (R.call level depth).Bracketed := by
  induction depth with
  | zero => exact fun label r c _ => Run.bracketed_quiet _ _
  | succ depth ih =>
    intro label r c hc
    unfold call
    cases h : R.find r with
    | none => exact Run.bracketed_quiet _ _
    | some p => exact Parser.bracketed_run (hR r p h) (onward_call hR level depth) ih level hc

theorem bracketed_run (hR : R.Advances) (level : Level) (depth : Nat) {α : Type}
    {p : Parser ρ τ α} (hp : p.Advances) {c : Cursor} (hc : c.Coherent) :
    (p.run level (R.call level depth) c).Bracketed c.pos :=
  Parser.bracketed_run hp (onward_call hR level depth) (bracketed_call hR level depth) level hc

end Rules

/-! ## Runs that are at fault -/

namespace Parser

variable {ρ : Type} {τ : ρ → Type} {α : Type}

/-- **The traced parsers that are running when a fault comes up** in the run of a parser, the
innermost first. The way to the fault goes by the outcomes of what has ended before it: into the
second of two parsers where the first has succeeded, into an alternative where the one before it has
failed, along the rounds of a repetition. No log is looked at. -/
inductive Active (R : Rules ρ τ) (level : Level) :
    Nat → {α : Type} → Parser ρ τ α → Cursor → List Frame → Prop where
  | raise (depth : Nat) {α : Type} (label : Text) (e : Fault) (c : Cursor) :
      Active R level depth (.raise label e : Parser ρ τ α) c []
  | custom {depth α label c e} {step : Cursor → Outcome α} :
      step c = .fault e → Active R level depth (.custom label step) c []
  | endless (label : Text) (r : ρ) (c : Cursor) : Active R level 0 (.ref label r) c []
  | unresolved {depth label r c} :
      R.find r = none → Active R level (depth + 1) (.ref label r) c []
  | rule {depth label r c active} {p : Parser ρ τ (τ r)} :
      R.find r = some p → Active R level depth p c active →
      Active R level (depth + 1) (.ref label r) c active
  | map {depth α β c active} {p : Parser ρ τ α} {f : α → β} :
      Active R level depth p c active → Active R level depth (.map p f) c active
  | named {depth α label c active} {p : Parser ρ τ α} :
      Active R level depth p c active → Active R level depth (.named p label) c active
  | relabel {depth α label c active} {p : Parser ρ τ α} :
      Active R level depth p c active → Active R level depth (.relabel p label) c active
  | bind {depth α β c active} {p : Parser ρ τ α} {f : α → Parser ρ τ β} :
      Active R level depth p c active → Active R level depth (.bind p f) c active
  | bindThen {depth α β c d v active} {p : Parser ρ τ α} {f : α → Parser ρ τ β} :
      (p.run level (R.call level depth) c).outcome = .success v d →
      Active R level depth (f v) d active → Active R level depth (.bind p f) c active
  | orElse {depth α c active} {p q : Parser ρ τ α} :
      Active R level depth p c active → Active R level depth (.orElse p q) c active
  | orElseThen {depth α c e active} {p q : Parser ρ τ α} :
      (p.run level (R.call level depth) c).outcome = .failure e →
      Active R level depth q c active → Active R level depth (.orElse p q) c active
  | round {depth α c d vs log active} {p : Parser ρ τ α} :
      Run.Chain (p.run level (R.call level depth)) c vs log d →
      Active R level depth p d active → Active R level depth (.many p) c active
  | stuck {depth α c d vs log v} {p : Parser ρ τ α} :
      Run.Chain (p.run level (R.call level depth)) c vs log d →
      (p.run level (R.call level depth) d).outcome = .success v d →
      Active R level depth (.many p) c []
  | trace {depth α c active} {p : Parser ρ τ α} :
      Active R level depth p c active →
      Active R level depth (.trace p) c (active ++ [⟨p.label, c.pos⟩])

end Parser

namespace Run

variable {α β : Type} {c d : Cursor} {r : Run α} {floor : Position} {active : List Frame}

/-- A run is at fault, and its log breaks off within the calls `active`. -/
def BreaksOff (floor : Position) (active : List Frame) (r : Run α) : Prop :=
  (∃ e, r.outcome = .fault e) ∧ Interrupted floor r.log active

theorem breaksOff_quiet (floor : Position) (e : Fault) :
    (quiet (.fault e) : Run α).BreaksOff floor [] :=
  ⟨⟨e, rfl⟩, .outside (.nil floor)⟩

namespace BreaksOff

theorem mapOutcome (h : r.BreaksOff floor active) {g : Outcome α → Outcome β}
    (hg : ∀ e, g (.fault e) = .fault e) : (r.mapOutcome g).BreaksOff floor active := by
  obtain ⟨⟨e, he⟩, hlog⟩ := h
  exact ⟨⟨e, (congrArg g he).trans (hg e)⟩, hlog⟩

/-- A run that breaks off does so whatever was to follow. -/
theorem andThen (h : r.BreaksOff floor active) (k : α → Cursor → Run β) :
    (r.andThen k).BreaksOff floor active := by
  obtain ⟨⟨e, he⟩, hlog⟩ := h
  unfold Run.andThen
  rw [he]
  exact ⟨⟨e, rfl⟩, hlog⟩

/-- A run that breaks off does so whatever was to be tried instead. -/
theorem orElse (h : r.BreaksOff floor active) (k : Unit → Run α) :
    (r.orElse k).BreaksOff floor active := by
  obtain ⟨⟨e, he⟩, hlog⟩ := h
  unfold Run.orElse
  rw [he]
  exact ⟨⟨e, he⟩, hlog⟩

/-- What has ended before the run leaves nothing open. -/
theorem after {log : List Entry} (h : r.BreaksOff d.pos active) (hlog : Nested c.pos log)
    (hd : c.Reaches d) : (r.after log).BreaksOff c.pos active := by
  obtain ⟨hfault, hinner⟩ := h
  exact ⟨hfault, (hinner.lower hd.not_before).after hlog⟩

/-- A fault leaves a traced run without an end. -/
theorem traced (h : r.BreaksOff c.pos active) (label : Text) :
    (r.traced label c.pos).BreaksOff c.pos (active ++ [⟨label, c.pos⟩]) := by
  obtain ⟨⟨e, he⟩, hlog⟩ := h
  refine ⟨⟨e, he⟩, ?_⟩
  unfold Run.traced
  rw [he, closing, List.append_nil]
  exact .within (f := ⟨label, c.pos⟩) (.nil c.pos) (Position.Before.irrefl _) hlog

end BreaksOff

end Run

namespace Parser

variable {ρ : Type} {τ : ρ → Type} {α : Type} {R : Rules ρ τ} {level : Level} {depth : Nat}
  {p : Parser ρ τ α} {c : Cursor} {active : List Frame}

/-- **Where parsers are active, the run is at fault**, and its log breaks off within them. -/
theorem Active.breaksOff (h : Active R level depth p c active) (hR : R.Advances) (hp : p.Advances)
    (hlevel : level.isVerbose = true) (hc : c.Coherent) :
    (p.run level (R.call level depth) c).BreaksOff c.pos active := by
  have hcall (depth : Nat) := Rules.onward_call hR level depth
  induction h with
  | raise depth label e c => exact Run.breaksOff_quiet c.pos e
  | custom he =>
    simp only [run, he]
    exact Run.breaksOff_quiet _ _
  | endless label r c => exact Run.breaksOff_quiet c.pos .endless
  | @unresolved depth label r c hr =>
    simp only [run, Rules.call, hr]
    exact Run.breaksOff_quiet c.pos (.unresolved label)
  | @rule depth label r c active p hr _ ih =>
    simp only [run, Rules.call, hr]
    exact ih (hR r p hr) hc
  | map _ ih => exact (ih hp hc).mapOutcome fun _ => rfl
  | named _ ih => exact ih hp hc
  | relabel _ ih => exact (ih hp hc).mapOutcome fun _ => rfl
  | bind _ ih => exact (ih hp.1 hc).andThen _
  | @bindThen depth _ _ c d v active p f hv _ ih =>
    have hd : c.Reaches d := onward_run hp.1 (hcall depth) level hc v d hv
    have hfirst := (Rules.bracketed_run hR level depth hp.1 hc).of_success hv
    simp only [run, Run.andThen, hv]
    exact (ih (hp.2 v) (hd.coherent hc)).after hfirst hd
  | orElse _ ih => exact (ih hp.1 hc).orElse _
  | @orElseThen depth _ c e active p q he _ ih =>
    have hfirst := (Rules.bracketed_run hR level depth hp.1 hc).of_failure he
    simp only [run, Run.orElse, he]
    exact (ih hp.2 hc).after hfirst (.here c)
  | @round depth _ c d vs log active p hchain _ ih =>
    have hround (d : Cursor) (hd : c.Reaches d) :=
      Rules.bracketed_run hR level depth (p := p) hp (hd.coherent hc)
    -- the fault is that of the last round, and the rounds before it have ended
    have hlast := ih hp (hchain.reaches.coherent hc)
    obtain ⟨e, he⟩ := hlast.1
    have hhalts : Run.Halts (p.run level (R.call level depth)) d :=
      Run.halts_of_ne_success (by simp [he])
    rw [run_many_of_chain hchain hhalts]
    have hall := hlast.after (hchain.nested hround) hchain.reaches
    exact ⟨⟨e, by rw [he]; rfl⟩, hall.2⟩
  | @stuck depth _ c d vs log v p hchain hv =>
    have hround (d : Cursor) (hd : c.Reaches d) :=
      Rules.bracketed_run hR level depth (p := p) hp (hd.coherent hc)
    -- all rounds have ended: the fault is that of the repetition, outside of them
    have hlast := (hround d hchain.reaches).of_success hv
    rw [run_many_of_chain hchain (Run.halts_of_stuck hv)]
    exact ⟨⟨_, by rw [hv]; rfl⟩, .outside (hchain.nested_append hround hlast)⟩
  | trace _ ih =>
    simp only [run, hlevel, if_true]
    exact (ih hp hc).traced _

theorem takeChar_ne_fault (accepts : Char → Bool) (label : Text) (c : Cursor) (e : Fault) :
    takeChar accepts label c ≠ .fault e := by
  unfold takeChar
  split
  · nofun
  · split <;> nofun

theorem lookAhead_ne_fault (refuses : Char → Bool) (label : Text) (c : Cursor) (e : Fault) :
    lookAhead refuses label c ≠ .fault e := by
  unfold lookAhead
  split
  · nofun
  · split <;> nofun

theorem takeEnd_ne_fault (c : Cursor) (e : Fault) : takeEnd c ≠ .fault e := by
  unfold takeEnd
  split
  · nofun
  · split <;> nofun

/-- **Every fault has its active parsers**, if this holds of the rules that are called. -/
theorem exists_active_run (hR : R.Advances) (hp : p.Advances) (hc : c.Coherent)
    (hcall : ∀ label r c, c.Coherent → ∀ e, (R.call level depth label r c).outcome = .fault e →
      ∃ active, Active R level depth (.ref label r) c active)
    {e : Fault} (he : (p.run level (R.call level depth) c).outcome = .fault e) :
    ∃ active, Active R level depth p c active := by
  have honward := Rules.onward_call hR level depth
  induction p generalizing c e with
  | satisfy accepts label => exact absurd he (takeChar_ne_fault accepts label c e)
  | notFollowedBy refuses label => exact absurd he (lookAhead_ne_fault refuses label c e)
  | endOfInput => exact absurd he (takeEnd_ne_fault c e)
  | succeed label v => cases he
  | map p f ih =>
    obtain ⟨active, ha⟩ := ih hp hc (Outcome.map_eq_fault.1 he)
    exact ⟨active, .map ha⟩
  | bind p f ihp ihf =>
    -- what ran before has ended, so only one of the two parts is active
    rcases Run.outcome_andThen_eq_fault.1 he with he | ⟨v, d, hv, he⟩
    · obtain ⟨active, ha⟩ := ihp hp.1 hc he
      exact ⟨active, .bind ha⟩
    · have hd : c.Reaches d := onward_run hp.1 honward level hc v d hv
      obtain ⟨active, ha⟩ := ihf v (hp.2 v) (hd.coherent hc) he
      exact ⟨active, .bindThen hv ha⟩
  | orElse p q ihp ihq =>
    rcases Run.outcome_orElse_eq_fault.1 he with he | ⟨f, hf, he⟩
    · obtain ⟨active, ha⟩ := ihp hp.1 hc he
      exact ⟨active, .orElse ha⟩
    · obtain ⟨active, ha⟩ := ihq hp.2 hc he
      exact ⟨active, .orElseThen hf ha⟩
  | many p ih =>
    -- the last round is at fault, or it did not move and the repetition itself is
    obtain ⟨vs, log, d, hchain, hlast | ⟨⟨v, hv⟩, -⟩⟩ :=
      (outcome_many_eq_fault p (onwardFrom_run hp honward hc)).1 he
    · obtain ⟨active, ha⟩ := ih hp (hchain.reaches.coherent hc) hlast
      exact ⟨active, .round hchain ha⟩
    · exact ⟨[], .stuck hchain hv⟩
  | named p label ih =>
    obtain ⟨active, ha⟩ := ih hp hc he
    exact ⟨active, .named ha⟩
  | relabel p label ih =>
    obtain ⟨active, ha⟩ := ih hp hc (Outcome.relabel_eq_fault.1 he)
    exact ⟨active, .relabel ha⟩
  | trace p ih =>
    -- tracing adds entries to the log, and a frame to those that are open
    have hinner : (p.run level (R.call level depth) c).outcome = .fault e := by
      simp only [run] at he
      split at he <;> exact he
    obtain ⟨active, ha⟩ := ih hp hc hinner
    exact ⟨_, .trace ha⟩
  | ref label r => exact hcall label r c hc e he
  | custom label step => exact ⟨[], .custom he⟩
  | raise label e' => exact ⟨[], .raise depth label e' c⟩

/-- Where a rule has a fault, there are traced parsers that were running. -/
theorem exists_active_call (hR : R.Advances) (depth : Nat) (label : Text) (r : ρ) (c : Cursor)
    (hc : c.Coherent) (e : Fault) (he : (R.call level depth label r c).outcome = .fault e) :
    ∃ active, Active R level depth (.ref label r) c active := by
  induction depth generalizing label r c e with
  | zero => exact ⟨[], .endless label r c⟩
  | succ depth ih =>
    unfold Rules.call at he
    cases hr : R.find r with
    | none => exact ⟨[], .unresolved hr⟩
    | some p =>
      rw [hr] at he
      obtain ⟨active, ha⟩ := exists_active_run hR (hR r p hr) hc ih he
      exact ⟨active, .rule hr ha⟩

/-- **A well bracketed run.** If it ends, it logs complete calls from the cursor on, and the same
parser traced writes one call around them. If it is at fault, then certain traced parsers and no
others are running at that moment; they are what the log leaves open, and an end for each of them
would make it a log of complete calls. -/
structure WellBracketed (R : Rules ρ τ) (level : Level) (depth : Nat) (p : Parser ρ τ α)
    (c : Cursor) : Prop where
  ended : (∀ e, (p.run level (R.call level depth) c).outcome ≠ .fault e) →
    Nested c.pos (p.run level (R.call level depth) c).log
  traced : (∀ e, (p.run level (R.call level depth) c).outcome ≠ .fault e) →
    ∃ closing : Entry, closing.Closes ⟨p.label, c.pos⟩ ∧
      (p.trace.run level (R.call level depth) c).log =
        .began p.label c.pos :: ((p.run level (R.call level depth) c).log ++ [closing])
  brokenOff : ∀ e, (p.run level (R.call level depth) c).outcome = .fault e →
    ∃ active, (∀ frames, Active R level depth p c frames ↔ frames = active) ∧
      unclosed (p.run level (R.call level depth) c).log = some active ∧
      ∀ message, Nested c.pos ((p.run level (R.call level depth) c).log ++
        active.map fun f => .failed f.label f.pos message)

/-- **The log of a traced run is well bracketed**, whatever is traced in a parser and in the rules
that it calls. This holds of every parser whose foreign parts advance by reading, under such rules
called to any depth, at every cursor that stands where its line and its column say, and at the
levels that take the entries of traced parsers. -/
theorem log_bracketed {R : Rules ρ τ} (hR : R.Advances) {p : Parser ρ τ α} (hp : p.Advances)
    {level : Level} (hlevel : level ∈ [Level.debug, .trace]) (depth : Nat) {c : Cursor}
    (hc : c.Coherent) : WellBracketed R level depth p c := by
  have hverbose : level.isVerbose = true := by
    have hall : ∀ l ∈ [Level.debug, .trace], l.isVerbose = true := by decide
    exact hall level hlevel
  have honward := Rules.onward_call hR level depth
  refine ⟨?_, ?_, ?_⟩
  · exact Rules.bracketed_run hR level depth hp hc
  · intro hend
    simp only [run, hverbose, if_true]
    exact Run.log_traced p.label (onward_run hp honward level hc) hend
  · intro e he
    obtain ⟨active, ha⟩ := exists_active_run hR hp hc (exists_active_call hR depth) he
    have hlog := (ha.breaksOff hR hp hverbose hc).2
    refine ⟨active, fun frames => ⟨fun hframes => ?_, fun hframes => hframes ▸ ha⟩,
      hlog.unclosed_eq, hlog.nested_append⟩
    -- the log has one reading, so it names the active parsers of every way to the fault
    have hother := (hframes.breaksOff hR hp hverbose hc).2
    exact Option.some.inj (hother.unclosed_eq.symm.trans hlog.unclosed_eq)

/-- Nested parentheses with a slip: what is repeated may be missing. -/
def looseParentheses : Rules Unit (fun _ => Char) where
  find _ := some (((char '(').trace.left (many (optional group.trace))).left (char ')'))
  count := 1

theorem advances_looseParentheses : looseParentheses.Advances := by
  intro r p h
  obtain rfl := Option.some.inj h
  have hgroups : (many (optional group.trace)).Standard :=
    Standard.optional (p := group.trace) trivial
  exact (((standard_char '(').left hgroups).left (standard_char ')')).advances

/-- The slip shows in a group within a group. Both are running then; a third one was tried and has
failed. -/
theorem log_bracketed_loose :
    Level.debug ∈ [Level.debug, .trace] ∧
      (group.trace.runWith looseParentheses .debug (.ofText (utf8 "(()"))).outcome =
        .fault (.noProgress (utf8 "optional group") ⟨0, 2⟩) ∧
      (group.trace.runWith looseParentheses .debug (.ofText (utf8 "(()"))).log.length = 10 ∧
      unclosed (group.trace.runWith looseParentheses .debug (.ofText (utf8 "(()"))).log =
        some [⟨utf8 "group", ⟨0, 1⟩⟩, ⟨utf8 "group", ⟨0, 0⟩⟩] ∧
      ∀ frames, Active looseParentheses .debug 10 group.trace (.ofText (utf8 "(()")) frames ↔
        frames = [⟨utf8 "group", ⟨0, 1⟩⟩, ⟨utf8 "group", ⟨0, 0⟩⟩] := by
  have hfault : (group.trace.runWith looseParentheses .debug (.ofText (utf8 "(()"))).outcome =
      .fault (.noProgress (utf8 "optional group") ⟨0, 2⟩) := by
    decide +kernel
  have hopen : unclosed (group.trace.runWith looseParentheses .debug (.ofText (utf8 "(()"))).log =
      some [⟨utf8 "group", ⟨0, 1⟩⟩, ⟨utf8 "group", ⟨0, 0⟩⟩] := by
    decide +kernel
  have hlog : WellBracketed looseParentheses .debug 10 group.trace (.ofText (utf8 "(()")) :=
    log_bracketed advances_looseParentheses (p := group.trace) trivial (by decide) 10
      (Cursor.coherent_ofText _)
  obtain ⟨active, hactive, hunclosed, -⟩ := hlog.brokenOff _ hfault
  obtain rfl := Option.some.inj (hunclosed.symm.trans hopen)
  exact ⟨by decide, hfault, by decide +kernel, hopen, hactive⟩

end Parser

end Descent
