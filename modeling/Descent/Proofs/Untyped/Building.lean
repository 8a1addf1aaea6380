import Descent.Proofs.Json.Value
import Descent.Proofs.Parser.Onward
import Descent.Untyped.Description

/-!
# What descriptions build

A description builds a parser or nothing, and what it builds is put together from
parsers that have no foreign parts, and from the few foreign parts that it names
itself. So a property that holds of parsers without foreign parts and passes from
parts to the whole is one of every parser that is built, if it holds of those few.

Both properties that results about parsers ask for are of this kind: to advance by
reading, which all foreign parts of descriptions do, and to be standard, which
none of them is.

* `Description.built`: what is built has every such property, by induction on the
  description.
* `Description.advances_of_build`, `Description.standard_of_build`: the two
  properties.
-/

namespace Descent

namespace Untyped

open Descent.Parser

universe u v

/-! ## Building -/

/-- **What was built is as promised**, or there was an empty choice. -/
def Built {α : Type u} (P : α → Prop) : Except Fault α → Prop
  | .ok v => P v
  | .error e => e = .emptyChoice

namespace Built

variable {α : Type u} {β : Type v} {P : α → Prop} {Q : β → Prop} {x : Except Fault α}

theorem of_ok (h : Built P x) {v : α} (hx : x = .ok v) : P v := by
  subst hx
  exact h

theorem of_error (h : Built P x) {e : Fault} (hx : x = .error e) : e = .emptyChoice := by
  subst hx
  exact h

theorem map {f : α → β} (h : Built P x) (hf : ∀ v, P v → Q (f v)) : Built Q (x.map f) := by
  cases x with
  | ok v => exact hf v h
  | error e => exact h

theorem bind {f : α → Except Fault β} (h : Built P x) (hf : ∀ v, P v → Built Q (f v)) :
    Built Q (x.bind f) := by
  cases x with
  | ok v => exact hf v h
  | error e => exact h

end Built

theorem standard_jsonSelf : AnyParser.jsonSelf.Standard := trivial

/-- **A foreign part of a description**: it fails in a given way, or takes a given number of
characters. -/
inductive Foreign where
  | failing (f : Failure)
  | taking (n : Int)

namespace Foreign

/-- The parser that a foreign part is. -/
def parser : Foreign → AnyParser
  | .failing f => Parser.failWith f
  | .taking n => .ofText (Parser.take n)

/-- Foreign parts advance by reading, or fail. -/
theorem advances (q : Foreign) : q.parser.Advances := by
  cases q with
  | failing f => exact fun _ _ => Outcome.onward_failure f
  | taking n => exact advances_take n

end Foreign

namespace Description

mutual

/-- The foreign parts of a description, those of its continuations included. -/
def foreign : Description → List Foreign
  | .failWith f => [.failing f]
  | .take n => [.taking n]
  | .choice ps | .sequence ps => foreignAll ps
  | .between opening p closing => opening.foreign ++ p.foreign ++ closing.foreign
  | .switch p cases otherwise => p.foreign ++ foreignCases cases ++ otherwise.foreign
  | .andThen p q | .left p q | .right p q | .orElse p q | .copies p q | .apply _ p q
  | .lift2 _ p q | .sepBy p q | .sepBy1 p q => p.foreign ++ q.foreign
  | .map _ p | .again p | .many p | .many1 p | .manyChars p | .manyChars1 p | .optional p
  | .relabel p _ | .trace p => p.foreign
  | _ => []

/-- The foreign parts of several descriptions. -/
def foreignAll : List Description → List Foreign
  | [] => []
  | p :: ps => p.foreign ++ foreignAll ps

/-- The foreign parts of the cases of a continuation. -/
def foreignCases : List (Text × Description) → List Foreign
  | [] => []
  | (_, p) :: cases => p.foreign ++ foreignCases cases

end

variable {P : {α : Type} → Parser Name Name.Result α → Prop}

/-- What is put off until it runs is a parser or a fault. -/
theorem deferred_of_built (hP : Inherited P) {x : Except Fault AnyParser} (h : Built P x) :
    P (deferred x) := by
  cases x with
  | ok p => exact h
  | error e => exact hP.standard trivial

/-- What is made of two parsers is built if both are, each from its part of the foreign parts. -/
theorem built_both {f : AnyParser → AnyParser → AnyParser} {x y : Except Fault AnyParser}
    {fs gs : List Foreign} (h : ∀ q ∈ fs ++ gs, P q.parser)
    (hx : (∀ q ∈ fs, P q.parser) → Built P x) (hy : (∀ q ∈ gs, P q.parser) → Built P y)
    (hf : ∀ p q, P p → P q → P (f p q)) : Built P (both f x y) := by
  obtain ⟨hfs, hgs⟩ := List.forall_mem_append.1 h
  exact (hx hfs).bind fun p hp => (hy hgs).map fun q hq => hf p q hp hq

/-- The cases of a continuation, or the parser for all other values. -/
theorem switch_of_forall {cases : List (Text × AnyParser)} {otherwise : AnyParser}
    (hcases : ∀ c ∈ cases, P c.2) (hotherwise : P otherwise) (v : Value) :
    P (AnyParser.switch cases otherwise v) := by
  unfold AnyParser.switch
  cases h : cases.find? (·.1 == v.plain) with
  | none => exact hotherwise
  | some c => exact hcases c (List.mem_of_find?_eq_some h)

mutual

/-- **What a description builds has every property that passes from parts to the whole**, if its
foreign parts have it. If nothing is built, there was an empty choice. -/
theorem built (hP : Inherited P) (p : Description) (h : ∀ q ∈ p.foreign, P q.parser) :
    Built P p.build := by
  match p with
  | .satisfy _ _ | .notFollowedBy _ _ | .codePoint _ | .endOfInput | .whitespace | .value _
  | .reference _ | .failSilently _ => exact hP.standard trivial
  | .spaces => exact hP.map _ (hP.standard standard_spaces)
  | .spaces1 => exact hP.map _ (hP.standard standard_spaces1)
  | .literal t => exact hP.map _ (hP.standard (standard_literal t))
  | .anyOf chars =>
    unfold build
    split
    · rfl
    · exact hP.map _ (hP.standard (standard_anyOf chars))
  | .json k => exact hP.map _ (hP.standard (Json.Grammar.standard_kind standard_jsonSelf k))
  | .failWith f => exact h _ List.mem_cons_self
  | .take n => exact h _ List.mem_cons_self
  | .map f p => exact (built hP p h).map fun q hq => hP.map f hq
  | .again p =>
    exact (built hP p h).map fun q hq => hP.bind hq fun v =>
      hP.map _ (hP.standard (standard_literal _))
  | .many p => exact (built hP p h).map fun q hq => hP.map _ (hP.many hq)
  | .many1 p => exact (built hP p h).map fun q hq => hP.map _ (hP.many1 hq)
  | .manyChars p => exact (built hP p h).map fun q hq => hP.map _ (hP.map _ (hP.many (hP.map _ hq)))
  | .manyChars1 p =>
    exact (built hP p h).map fun q hq => hP.map _ (hP.map _ (hP.many1 (hP.map _ hq)))
  | .optional p => exact (built hP p h).map fun q hq => hP.map _ (hP.optional hq)
  | .relabel p label => exact (built hP p h).map fun q hq => hP.relabel label hq
  | .trace p => exact (built hP p h).map fun q hq => hP.trace hq
  | .copies p q =>
    -- the parts that are built when they are needed, once a value is there
    obtain ⟨hp, hq⟩ := List.forall_mem_append.1 h
    refine (built hP p hp).map fun r hr => hP.bind hr fun v => hP.map _ (hP.sequence ?_)
    intro r hr
    obtain rfl := List.eq_of_mem_replicate hr
    exact deferred_of_built hP (built hP q hq)
  | .switch p cases otherwise =>
    obtain ⟨hpc, ho⟩ := List.forall_mem_append.1 h
    obtain ⟨hp, hc⟩ := List.forall_mem_append.1 hpc
    refine (built hP p hp).map fun q hq => hP.bind hq fun v => ?_
    exact switch_of_forall (built_cases hP cases hc)
      (deferred_of_built hP (built hP otherwise ho)) v
  | .andThen p q =>
    -- two parts and what is made of them: the foreign parts are those of the one and of the other
    exact built_both h (built hP p) (built hP q) fun p q hp hq => hP.map _ (hP.andThen hp hq)
  | .left p q => exact built_both h (built hP p) (built hP q) fun p q hp hq => hP.left hp hq
  | .right p q => exact built_both h (built hP p) (built hP q) fun p q hp hq => hP.right hp hq
  | .orElse p q => exact built_both h (built hP p) (built hP q) fun p q hp hq => hP.orElse hp hq
  | .apply f p q => exact built_both h (built hP p) (built hP q) fun p q hp hq => hP.lift2 f hp hq
  | .lift2 f p q => exact built_both h (built hP p) (built hP q) fun p q hp hq => hP.lift2 f hp hq
  | .sepBy p sep =>
    exact built_both h (built hP p) (built hP sep) fun p q hp hq => hP.map _ (hP.sepBy hp hq)
  | .sepBy1 p sep =>
    exact built_both h (built hP p) (built hP sep) fun p q hp hq => hP.map _ (hP.sepBy1 hp hq)
  | .between opening p closing =>
    obtain ⟨hop, hc⟩ := List.forall_mem_append.1 h
    obtain ⟨ho, hp⟩ := List.forall_mem_append.1 hop
    refine (built hP opening ho).bind fun o ho => ?_
    exact (built hP p hp).bind fun p hp => (built hP closing hc).map fun c hc =>
      hP.between ho hp hc
  | .choice ps =>
    -- a choice is built if there is something to choose from
    refine (built_all hP ps h).bind fun qs hqs => ?_
    unfold chosen
    split
    · rfl
    · exact hP.choice hqs
  | .sequence ps => exact (built_all hP ps h).map fun qs hqs => hP.map _ (hP.sequence hqs)

theorem built_all (hP : Inherited P) (ps : List Description) (h : ∀ q ∈ foreignAll ps, P q.parser) :
    Built (fun qs => ∀ q ∈ qs, P q) (buildAll ps) := by
  match ps with
  | [] => exact fun q hq => nomatch hq
  | p :: ps =>
    obtain ⟨hp, hps⟩ := List.forall_mem_append.1 h
    refine (built hP p hp).bind fun q hq => (built_all hP ps hps).map fun qs hqs => ?_
    exact List.forall_mem_cons.2 ⟨hq, hqs⟩

/-- The parsers that keys are told apart by are built if their foreign parts have the property. -/
theorem built_cases (hP : Inherited P) (cases : List (Text × Description))
    (h : ∀ q ∈ foreignCases cases, P q.parser) : ∀ c ∈ buildCases cases, P c.2 := by
  match cases with
  | [] => exact fun c hc => nomatch hc
  | (t, p) :: cases =>
    obtain ⟨hp, hcases⟩ := List.forall_mem_append.1 h
    exact List.forall_mem_cons.2
      ⟨deferred_of_built hP (built hP p hp), built_cases hP cases hcases⟩

end

/-- **Every parser that a description builds advances by reading.** -/
theorem advances_of_build {p : Description} {q : AnyParser} (h : p.build = .ok q) : q.Advances :=
  (p.built inherited_advances fun r _ => r.advances).of_ok h

/-- **A description without foreign parts builds a standard parser.** -/
theorem standard_of_build {p : Description} {q : AnyParser} (hp : p.foreign = [])
    (h : p.build = .ok q) : q.Standard := by
  refine (p.built inherited_standard ?_).of_ok h
  rw [hp]
  exact fun r hr => nomatch hr

/-- Only an empty choice stands in the way of building. -/
theorem eq_emptyChoice_of_build {p : Description} {e : Fault} (h : p.build = .error e) :
    e = .emptyChoice :=
  (p.built inherited_advances fun r _ => r.advances).of_error h

end Description

namespace RuleBook

variable {P : {α : Type} → Parser Name Name.Result α → Prop}

/-- The foreign parts of the rules of a grammar. -/
def foreign (book : RuleBook) : List Foreign := book.flatMap fun rule => rule.2.foreign

theorem built_all (hP : Inherited P) (book : RuleBook) (h : ∀ q ∈ book.foreign, P q.parser) :
    Built (fun given => ∀ rule ∈ given, P rule.2) book.buildAll := by
  induction book with
  | nil => exact fun q hq => nomatch hq
  | cons rule book ih =>
    obtain ⟨name, p⟩ := rule
    obtain ⟨hp, hbook⟩ := List.forall_mem_append.1 h
    refine (p.built hP hp).bind fun q hq => (ih hbook).map fun given hgiven => ?_
    exact List.forall_mem_cons.2 ⟨hq, hgiven⟩

/-- **The rules that are built have every property that passes from parts to the whole**, if their
foreign parts have it. If they are not built, there was an empty choice. -/
theorem built (hP : Inherited P) (book : RuleBook) (h : ∀ q ∈ book.foreign, P q.parser) :
    Built (fun R => ∀ r p, R.find r = some p → P p) book.build := by
  refine (built_all hP book h).map fun given hgiven r p hp => ?_
  cases r with
  | json =>
    obtain rfl := Option.some.inj hp
    exact hP.standard (Json.Grammar.standard_value standard_jsonSelf)
  | rule name =>
    obtain ⟨rule, hrule, rfl⟩ := Option.map_eq_some_iff.1 hp
    exact hgiven rule (List.mem_reverse.1 (List.mem_of_find?_eq_some hrule))

variable {book : RuleBook} {R : Rules Name Name.Result}

theorem advances_of_build (h : book.build = .ok R) : R.Advances :=
  (book.built inherited_advances fun r _ => r.advances).of_ok h

theorem standard_of_build (hbook : book.foreign = []) (h : book.build = .ok R) : R.Standard := by
  refine (book.built inherited_standard ?_).of_ok h
  rw [hbook]
  exact fun r hr => nomatch hr

theorem eq_emptyChoice_of_build {e : Fault} (h : book.build = .error e) : e = .emptyChoice :=
  (book.built inherited_advances fun r _ => r.advances).of_error h

/-- The rules of a grammar are those that were built from its descriptions. -/
theorem exists_of_build (h : book.build = .ok R) : ∃ given, R = AnyParser.rules given := by
  unfold build at h
  cases hall : book.buildAll with
  | ok given =>
    rw [hall] at h
    exact ⟨given, (Except.ok.inj h).symm⟩
  | error e =>
    rw [hall] at h
    cases h

end RuleBook

/-! ## Running descriptions -/

namespace Description

variable {p : Description} {book : RuleBook} {level : Level} {c : Cursor}

/-- A run of a description is a run of the parser that it builds, under the rules that are built. -/
theorem runWith_eq_ok {label : Text} {r : Run Value} :
    p.runWith book level c = .ok (label, r) ↔
      ∃ R q, book.build = .ok R ∧ p.build = .ok q ∧ q.label = label ∧
        q.runWith R level c = r := by
  unfold runWith
  cases hbook : book.build with
  | error e => simp
  | ok R =>
    cases hp : p.build with
    | error e => simp
    | ok q => simp [Prod.mk.injEq]

/-- **A description is not run only if there is an empty choice**, in it or in the rules. -/
theorem eq_emptyChoice_of_runWith {e : Fault} (h : p.runWith book level c = .error e) :
    e = .emptyChoice := by
  unfold runWith at h
  cases hbook : book.build with
  | error e' =>
    simp only [hbook, Except.error.injEq] at h
    exact h ▸ RuleBook.eq_emptyChoice_of_build hbook
  | ok R =>
    cases hp : p.build with
    | error e' =>
      simp only [hbook, hp, Except.error.injEq] at h
      exact h ▸ eq_emptyChoice_of_build hp
    | ok q => simp [hbook, hp] at h

/-- **Where a description succeeds, the rest is reached by reading on.** -/
theorem reaches_of_runWith {label : Text} {r : Run Value} (hc : c.Coherent)
    (h : p.runWith book level c = .ok (label, r)) {v : Value} {rest : Cursor}
    (hr : r.outcome = .success v rest) : c.Reaches rest := by
  obtain ⟨R, q, hR, hq, -, rfl⟩ := runWith_eq_ok.1 h
  exact onward_run (advances_of_build hq)
    (Rules.onward_call (RuleBook.advances_of_build hR) level _) level hc v rest hr

/-- **Where a description without foreign parts fails, its failure points to a cursor that is
reached from there**, and can be reported. -/
theorem points_of_runWith (hp : p.foreign = []) (hbook : book.foreign = []) {label : Text}
    {r : Run Value} (h : p.runWith book level c = .ok (label, r)) {f : Failure}
    (hr : r.outcome = .failure f) :
    ∃ k, f.PointsTo (c.skip k) ∧ ∃ report, f.report = .ok report := by
  obtain ⟨R, q, hR, hq, -, rfl⟩ := runWith_eq_ok.1 h
  rw [outcome_runWith (standard_of_build hp hq) (RuleBook.standard_of_build hbook hR)] at hr
  obtain ⟨k, hk⟩ := Reading.pointsTo_of_outcome hr
  exact ⟨k, hk, hk.report_ok⟩

end Description

end Untyped

end Descent
