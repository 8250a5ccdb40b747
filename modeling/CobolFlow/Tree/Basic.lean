import CobolFlow.Node

/-!
# Statement trees

The procedure divisions of a compilation unit as nested lists: programs, sections, paragraphs,
sentences, statements. A statement has a form with its parts, and may have a text and a position.

`Statement` and the clauses that hold statements again are defined together.
-/

namespace CobolFlow

mutual

/-- A statement with what is known of its source. -/
inductive Statement
  | mk (form : StatementForm) (text : Option String) (span : Span)

/-- The forms of statements. -/
inductive StatementForm
  | ifThen (body : List Statement) (otherwise : Option (List Statement))
  | evaluate (whens : List WhenClause) (other : Option (List Statement))
  | search (atEnd : Option (List Statement)) (whens : List WhenClause)
  | alter (clauses : List AlterClause)
  | exit
  /-- With several targets, or with DEPENDING ON, the jump is conditional. -/
  | goTo (targets : List QualifiedName) (depending : Bool)
  | nextSentence
  | perform (range : PerformRange)
  | loop (repetition : Repetition) (testAfter : Bool) (body : List Statement)
  | terminate (ending : Ending)
  | call (program : Option String) (conditions : List ExceptionClause)
  | ordinary (verb : Verb) (conditions : List ExceptionClause)

/-- A WHEN clause: phrases that share a body. -/
inductive WhenClause
  | mk (phrases : List String) (body : List Statement)

/-- An exception phrase such as AT END with its statements. -/
inductive ExceptionClause
  | mk (phrase : ExceptionPhrase) (body : List Statement)

end

/-- A period-terminated list of statements. -/
abbrev SentenceText := List Statement

structure ParagraphText where
  name : String
  span : Span := Span.unknown
  sentences : List SentenceText := []

structure SectionText where
  name : String
  span : Span := Span.unknown
  /-- Before the first paragraph. -/
  sentences : List SentenceText := []
  paragraphs : List ParagraphText := []

/-- A procedure division. -/
structure DivisionText where
  declaratives : List SectionText := []
  /-- Before the first header. -/
  sentences : List SentenceText := []
  /-- Before the first section. -/
  paragraphs : List ParagraphText := []
  sections : List SectionText := []

/-- A program or function with the programs contained in it. -/
inductive ProgramText
  | mk (name : String) (kind : ProgramKind) (division : Option DivisionText)
      (nested : List ProgramText)

/-- A compilation unit: its programs and functions in source order. -/
structure StatementTree where
  programs : List ProgramText := []

/-- The jump that a GO TO with these targets makes. -/
def Jump.ofTargets (targets : List QualifiedName) (depending : Bool) : Jump :=
  match targets, depending with
  | [target], false => .simple target
  | _, _ => .conditional targets

end CobolFlow
