import Descent.Untyped.AnyParser

/-!
# Descriptions of grammars

A description is a parser written down as plain data, without the types of its
values. **Building** it gives the parser, or a fault where there is none to
build: a choice between no parsers. In a continuation, which is built only when
it is reached, that fault arises when it runs.
-/

namespace Descent.Untyped

/-- **A parser, as data.** -/
inductive Description where
  | satisfy (accepts : Char → Bool) (label : Text)
  | notFollowedBy (refuses : Char → Bool) (label : Text)
  | codePoint (u : CodePoint)
  | anyOf (chars : Text)
  | literal (t : Text)
  | endOfInput
  | whitespace
  | spaces
  | spaces1
  | value (v : Value)
  | map (f : Value → Value) (p : Description)
  /-- Goes on with the text of the value once more. -/
  | again (p : Description)
  /-- Goes on with as many copies of the second parser as the digit says. -/
  | copies (p q : Description)
  /-- Goes on with the case for the text of the value. -/
  | switch (p : Description) (cases : List (Text × Description)) (otherwise : Description)
  | andThen (p q : Description)
  | left (p q : Description)
  | right (p q : Description)
  | orElse (p q : Description)
  | choice (ps : List Description)
  | sequence (ps : List Description)
  | apply (f : Value → Value → Value) (p q : Description)
  | lift2 (f : Value → Value → Value) (p q : Description)
  | between (opening p closing : Description)
  | many (p : Description)
  | many1 (p : Description)
  | manyChars (p : Description)
  | manyChars1 (p : Description)
  | optional (p : Description)
  | sepBy (p sep : Description)
  | sepBy1 (p sep : Description)
  | relabel (p : Description) (label : Text)
  | reference (name : Text)
  | trace (p : Description)
  | json (kind : Json.Grammar.Kind)
  | failWith (f : Failure)
  /-- Fails without saying how. -/
  | failSilently (label : Text)
  | take (n : Int)
  deriving Inhabited

namespace Description

/-- What was built, or its fault when it runs. -/
def deferred : Except Fault AnyParser → AnyParser
  | .ok p => p
  | .error e => .raise [] e

/-- Combines two parsers, the first of which is built first. -/
def both (f : AnyParser → AnyParser → AnyParser) (p q : Except Fault AnyParser) :
    Except Fault AnyParser :=
  p.bind fun p => q.map (f p)

/-- Builds a choice from its alternatives, of which there must be one. -/
def chosen (ps : List AnyParser) : Except Fault AnyParser :=
  if ps.isEmpty then .error .emptyChoice else .ok (Parser.choice ps)

mutual

/-- **Builds the parser that a description describes.** -/
def build : Description → Except Fault AnyParser
  | .satisfy accepts label => .ok (.ofChar (.satisfy accepts label))
  | .notFollowedBy refuses label => .ok (.ofUnit (.notFollowedBy refuses label))
  | .codePoint u => .ok (.ofChar (Parser.codePoint u))
  | .anyOf chars =>
    if chars.isEmpty then .error .emptyChoice else .ok (.ofChar (Parser.anyOf chars))
  | .literal t => .ok (.ofText (Parser.literal t))
  | .endOfInput => .ok (.ofUnit .endOfInput)
  | .whitespace => .ok (.ofChar Parser.whitespace)
  | .spaces => .ok (.ofText Parser.spaces)
  | .spaces1 => .ok (.ofText Parser.spaces1)
  | .value v => .ok (.ofValue v)
  | .map f p => p.build.map (·.map f)
  | .again p => p.build.map (·.bind AnyParser.again)
  | .copies p q => p.build.map (·.bind (AnyParser.copies (deferred q.build)))
  | .switch p cases otherwise =>
    p.build.map (·.bind (AnyParser.switch (buildCases cases) (deferred otherwise.build)))
  | .andThen p q => both (fun p q => .ofPair (p.andThen q)) p.build q.build
  | .left p q => both Parser.left p.build q.build
  | .right p q => both Parser.right p.build q.build
  | .orElse p q => both Parser.orElse p.build q.build
  | .choice ps => (buildAll ps).bind chosen
  | .sequence ps => (buildAll ps).map fun ps => .ofList (Parser.sequence ps)
  | .apply f p q => both (fun p q => (p.map f).apply q) p.build q.build
  | .lift2 f p q => both (Parser.lift2 f) p.build q.build
  | .between opening p closing =>
    opening.build.bind fun o => both (fun p c => Parser.between o p c) p.build closing.build
  | .many p => p.build.map fun p => .ofList p.many
  | .many1 p => p.build.map fun p => .ofList p.many1
  | .manyChars p => p.build.map AnyParser.manyChars
  | .manyChars1 p => p.build.map AnyParser.manyChars1
  | .optional p => p.build.map AnyParser.optional
  | .sepBy p sep => both (fun p sep => .ofList (p.sepBy sep)) p.build sep.build
  | .sepBy1 p sep => both (fun p sep => .ofList (p.sepBy1 sep)) p.build sep.build
  | .relabel p label => p.build.map (·.relabel label)
  | .reference name => .ok (AnyParser.reference name)
  | .trace p => p.build.map (·.trace)
  | .json kind => .ok (.ofJson (kind.parser AnyParser.jsonSelf))
  | .failWith f => .ok (Parser.failWith f)
  | .failSilently label => .ok (.raise label .missingFailure)
  | .take n => .ok (.ofText (Parser.take n))

/-- Builds parsers in order. -/
def buildAll : List Description → Except Fault (List AnyParser)
  | [] => .ok []
  | p :: ps => p.build.bind fun p => (buildAll ps).map (p :: ·)

/-- Builds the cases of a continuation. -/
def buildCases : List (Text × Description) → List (Text × AnyParser)
  | [] => []
  | (t, p) :: cases => (t, deferred p.build) :: buildCases cases

end

end Description

/-- Named descriptions, the rules of a grammar. -/
abbrev RuleBook := List (Text × Description)

namespace RuleBook

/-- Builds the parsers of named descriptions. -/
def buildAll : RuleBook → Except Fault (List (Text × AnyParser))
  | [] => .ok []
  | (name, p) :: book => p.build.bind fun p => (buildAll book).map ((name, p) :: ·)

/-- **Builds the rules of a grammar.** -/
def build (book : RuleBook) : Except Fault (Rules Name Name.Result) :=
  (buildAll book).map AnyParser.rules

/-- The fault of rules that cannot be built. -/
def fault? (book : RuleBook) : Option Fault :=
  match book.build with
  | .ok _ => none
  | .error e => some e

end RuleBook

/-- **Builds and runs a description** under rules: the label of the parser, and its run. -/
def Description.runWith (p : Description) (book : RuleBook) (level : Level) (c : Cursor) :
    Except Fault (Text × Run Value) :=
  match book.build, p.build with
  | .ok R, .ok p => .ok (p.label, p.runWith R level c)
  | .error e, _ => .error e
  | _, .error e => .error e

end Descent.Untyped
