import Descent.Proofs.Json.Totality
import Descent.Proofs.Parser.Tracing
import Descent.Proofs.Untyped.Building

/-!
# JSON in untyped grammars

An untyped grammar has the rules of JSON at hand: next to the rules that it gives,
its rule for values refers to itself by another name. That is the grammar of JSON
**grafted**, so a JSON rule runs in any untyped grammar as it does in its own, to
every depth of calls. What is proved of the runs of the typed grammar is thereby
proved of these: what is accepted, which value it has, and where and how a parser
fails.

* `Translation.kind`: to translate a rule is to translate its parser for values.
* `run_ofJson`: a JSON rule within an untyped grammar, to any depth of calls.
* `runWith_json`: its description, under any rules that can be built.
-/

namespace Descent

open Descent.Parser

/-! ## Translating the grammar of JSON -/

namespace Parser.Translation

open Json Json.Grammar

variable {ρ σ : Type} {τ : ρ → Type} {υ : σ → Type} (φ : Translation ρ τ σ υ)

@[simp]
theorem ws : φ.image Grammar.ws = Grammar.ws := by simp [Grammar.ws]

@[simp]
theorem token (x : Char) : φ.image (Grammar.token x) = Grammar.token x := by simp [Grammar.token]

@[simp]
theorem constant (word : Text) (v : Json) :
    φ.image (Grammar.constant word v) = Grammar.constant word v := by
  simp [Grammar.constant]

@[simp]
theorem quotedString : φ.image Grammar.quotedString = Grammar.quotedString := by
  simp [Grammar.quotedString, quoteMark, stringChar, plainChar, escapedChar, escape, numberedChar,
    hexDigit]

@[simp]
theorem optionalPart (lead : Parser ρ τ Char) (body : Parser ρ τ (List Char)) :
    φ.image (Grammar.optionalPart lead body) =
      Grammar.optionalPart (φ.image lead) (φ.image body) := by
  simp only [Grammar.optionalPart, bind, optional]
  congr 1
  funext o
  cases o with
  | none => exact φ.succeed _ _
  | some x => exact φ.map _ _

@[simp]
theorem number : φ.image Grammar.number = Grammar.number := by
  simp [Grammar.number, sign, whole, zero, positive, fraction, exponent, digit]

@[simp]
theorem element (self : Parser ρ τ Json) :
    φ.image (Grammar.element self) = Grammar.element (φ.image self) := by
  simp [Grammar.element]

@[simp]
theorem member (self : Parser ρ τ Json) :
    φ.image (Grammar.member self) = Grammar.member (φ.image self) := by
  simp [Grammar.member]

/-- The rule for values is translated by translating what it is given for values. -/
@[simp]
theorem value (self : Parser ρ τ Json) :
    φ.image (Grammar.value self) = Grammar.value (φ.image self) := by
  simp [Grammar.value, Grammar.null, Grammar.bool, Grammar.string, Grammar.array, Grammar.object]

/-- **The rule for a kind of value is translated** by translating the parser for values. -/
theorem kind (self : Parser ρ τ Json) (k : Kind) :
    φ.image (k.parser self) = k.parser (φ.image self) := by
  cases k <;>
    simp [Kind.parser, Grammar.null, Grammar.bool, Grammar.string, Grammar.array, Grammar.object]

end Parser.Translation

/-! ## Runs of the typed grammar -/

namespace Json

open Grammar

/-- The grammar of JSON traces nothing. -/
theorem untraced_rules : rules.untraced = rules :=
  congrArg (fun p : Parser Unit RuleType Json => (⟨fun _ => some p, 1⟩ : Rules Unit RuleType))
    (untracing.value self)

/-- The rules of the grammar trace nothing, so nothing is logged. -/
theorem log_run_kind (k : Kind) (level : Level) (depth : Nat) (c : Cursor) :
    ((k.parser self).run level (rules.call level depth) c).log = [] := by
  have h := log_run_untraced rules (k.parser self) level depth c
  rwa [untraced_rules, show (k.parser self).untraced = k.parser self from untracing.kind self k]
    at h

/-- **One run for all depths** that cover the characters ahead. -/
theorem run_kind_eq_runWith (k : Kind) (level : Level) {depth : Nat} {c : Cursor}
    (h : c.ahead.length ≤ depth) :
    (k.parser self).run level (rules.call level depth) c =
      (k.parser self).runWith rules level c := by
  obtain ⟨o, -, hwith, hdepth⟩ :=
    settles_of_sane (standard_kind standard_self k) (sane_rule k (Nat.le_refl _)) level
  have hlog : ((k.parser self).run level (rules.call level depth) c).log =
      ((k.parser self).runWith rules level c).log :=
    (log_run_kind k level depth c).trans (log_run_kind k level _ c).symm
  have houtcome := (hdepth depth h).trans hwith.symm
  have hrun := congr (congrArg Run.mk hlog) houtcome
  exact hrun

end Json

/-! ## Runs of untyped grammars -/

namespace Untyped

open AnyParser

/-- The rule for values, under the name that it has in an untyped grammar. -/
def inName (label : Text) : (r : Unit) → Parser Name Name.Result (Json.RuleType r) :=
  fun _ => .ref label Name.json

theorem label_inName (label : Text) (r : Unit) : (inName label r).label = label := rfl

/-- A rule of JSON with its references to the rule of the untyped grammar. -/
theorem graft_kind (k : Json.Grammar.Kind) :
    (k.parser Json.self).graft inName = k.parser jsonSelf :=
  (grafting inName label_inName).kind Json.self k

/-- With its name for a reference, a rule runs as it does with a reference of its own. -/
theorem run_kind_jsonSelf (k : Json.Grammar.Kind) (level : Level) (call : Call Name Name.Result)
    (c : Cursor) :
    (k.parser jsonSelf).run level call c =
      (k.parser Json.self).run level (fun label _ d => call label Name.json d) c := by
  rw [← graft_kind, run_graft label_inName]
  rfl

variable {given : List (Text × AnyParser)}

/-- **The rule for values is called as in its own grammar**, whatever other rules there are. -/
theorem call_json (level : Level) (depth : Nat) (label : Text) (c : Cursor) :
    (AnyParser.rules given).call level depth label Name.json c =
      Json.rules.call level depth label () c := by
  induction depth generalizing label c with
  | zero => rfl
  | succ depth ih =>
    change (Json.Grammar.Kind.any.parser jsonSelf).run level _ c =
      (Json.Grammar.Kind.any.parser Json.self).run level _ c
    rw [run_kind_jsonSelf]
    congr 1
    funext label _ d
    exact ih label d

/-- **A JSON rule within an untyped grammar** does what it does in its own, to any depth of calls,
and its value is made untyped. -/
theorem run_ofJson (k : Json.Grammar.Kind) (level : Level) (depth : Nat) (c : Cursor) :
    (ofJson (k.parser jsonSelf)).run level ((AnyParser.rules given).call level depth) c =
      ((k.parser Json.self).run level (Json.rules.call level depth) c).mapOutcome
        (Outcome.map Value.json) := by
  have hcall : (fun label (_ : Unit) d =>
      (AnyParser.rules given).call level depth label Name.json d) =
        Json.rules.call level depth := by
    funext label _ d
    exact call_json level depth label d
  change ((k.parser jsonSelf).run level _ c).mapOutcome _ = _
  rw [run_kind_jsonSelf, hcall]

/-- **Running the description of a JSON rule**, under any rules that can be built, is running the
rule of the typed grammar: the same label, the same rest, the same failure and the same log, and the
value made untyped. -/
theorem runWith_json {book : RuleBook} {R : Rules Name Name.Result} (h : book.build = .ok R)
    (k : Json.Grammar.Kind) (level : Level) (c : Cursor) :
    (Description.json k).runWith book level c =
      .ok (Json.kindLabel k, ((k.parser Json.self).runWith Json.rules level c).mapOutcome
        (Outcome.map Value.json)) := by
  obtain ⟨given, rfl⟩ := RuleBook.exists_of_build h
  have hdepth : c.ahead.length ≤ (AnyParser.rules given).depth c := by
    unfold Rules.depth
    exact Nat.le_trans (Nat.le_succ _) (Nat.le_mul_of_pos_left _ (Nat.succ_pos _))
  have hlabel : (k.parser jsonSelf).label = Json.kindLabel k := by
    rw [← graft_kind, label_graft label_inName, Json.kindLabel]
  refine Description.runWith_eq_ok.2 ⟨_, _, h, rfl, hlabel, ?_⟩
  rw [Parser.runWith, run_ofJson, Json.run_kind_eq_runWith k level hdepth]

end Untyped

end Descent
