import CobolFlow.Json.Value
import CobolFlow.Tree.Decode

/-!
# Statement trees written as JSON

The normal form of a tree: every member is written, with `null` or an empty list where there is
nothing, except for the text of a statement that has none and the qualifiers of a name that is not
qualified.
-/

namespace CobolFlow

namespace Json

/-- A value, or `null` in its place. -/
def orNull {α : Type} (encode : α → Json) : Option α → Json
  | some a => encode a
  | none => .null

end Json

def Span.toJson (s : Span) : Json :=
  .object
    [("start", .number s.start.toNat), ("end", .number s.stop.toNat),
     ("line", .number s.line.toNat), ("column", .number s.column.toNat)]

def QualifiedName.toJson (n : QualifiedName) : Json :=
  .object (("name", .string n.name) ::
    if n.qualifiers.isEmpty then []
    else [("qualifiers", .array (n.qualifiers.map .string))])

def AlterClause.toJson (c : AlterClause) : Json :=
  .object [("altered", c.altered.toJson), ("target", c.target.toJson)]

/-- The word for a value of a vocabulary, as JSON. -/
def wordJson {α : Type} [Vocabulary α] (a : α) : Json := .string (Vocabulary.word a)

/-- The word by which an ending is told as a statement. -/
def Ending.formWord : Ending → FormWord
  | .stopRun => .stopRun
  | .exitProgram => .exitProgram
  | .exitMethod => .exitMethod
  | .goback => .goback

/-- The word by which a form is told. -/
def StatementForm.formWord : StatementForm → FormWord
  | .ifThen _ _ => .ifThen
  | .evaluate _ _ => .evaluate
  | .search _ _ => .search
  | .alter _ => .alter
  | .exit => .exit
  | .goTo _ _ => .goTo
  | .nextSentence => .nextSentence
  | .perform _ => .perform
  | .loop _ _ _ => .loop
  | .terminate ending => ending.formWord
  | .call _ _ => .call
  | .ordinary _ _ => .ordinary

mutual

def Statement.toJson : Statement → Json
  | .mk form text span =>
    .object (("kind", wordJson form.formWord) :: StatementForm.members form ++
      (match text with
        | some text => [("text", .string text)]
        | none => []) ++
      [("span", span.toJson)])

/-- The members of a statement that belong to its form. -/
def StatementForm.members : StatementForm → List (String × Json)
  | .ifThen body otherwise => [("then", .array (statementsJson body)), ("else", partJson otherwise)]
  | .evaluate whens other => [("whens", .array (whensJson whens)), ("other", partJson other)]
  | .search atEnd whens => [("at_end", partJson atEnd), ("whens", .array (whensJson whens))]
  | .alter clauses => [("clauses", .array (clauses.map AlterClause.toJson))]
  | .exit => []
  | .goTo targets depending =>
    [("targets", .array (targets.map QualifiedName.toJson)), ("depending", .bool depending)]
  | .nextSentence => []
  | .perform range =>
    [("procedure", range.first.toJson), ("through", Json.orNull QualifiedName.toJson range.through)]
  | .loop repetition testAfter body =>
    [("iteration", wordJson repetition), ("test_after", .bool testAfter),
     ("body", .array (statementsJson body))]
  | .terminate _ => []
  | .call program conditions =>
    [("program", Json.orNull .string program), ("conditions", .array (conditionsJson conditions))]
  | .ordinary verb conditions =>
    [("verb", wordJson verb), ("conditions", .array (conditionsJson conditions))]

def statementsJson : List Statement → List Json
  | [] => []
  | s :: rest => s.toJson :: statementsJson rest

/-- The statements of an optional part. -/
def partJson : Option (List Statement) → Json
  | none => .null
  | some body => .array (statementsJson body)

def whensJson : List WhenClause → List Json
  | [] => []
  | .mk phrases body :: rest =>
    .object
        [("conditions", .array (phrases.map .string)), ("body", .array (statementsJson body))] ::
      whensJson rest

def conditionsJson : List ExceptionClause → List Json
  | [] => []
  | .mk phrase body :: rest =>
    .object [("condition", wordJson phrase), ("body", .array (statementsJson body))] ::
      conditionsJson rest

end

def sentencesJson (sentences : List SentenceText) : Json :=
  .array (sentences.map fun s => .array (statementsJson s))

def ParagraphText.toJson (p : ParagraphText) : Json :=
  .object
    [("name", .string p.name), ("span", p.span.toJson), ("sentences", sentencesJson p.sentences)]

def SectionText.toJson (s : SectionText) : Json :=
  .object
    [("name", .string s.name), ("span", s.span.toJson), ("sentences", sentencesJson s.sentences),
     ("paragraphs", .array (s.paragraphs.map ParagraphText.toJson))]

def DivisionText.toJson (d : DivisionText) : Json :=
  .object
    [("declaratives", .array (d.declaratives.map SectionText.toJson)),
     ("sentences", sentencesJson d.sentences),
     ("paragraphs", .array (d.paragraphs.map ParagraphText.toJson)),
     ("sections", .array (d.sections.map SectionText.toJson))]

mutual

def ProgramText.toJson : ProgramText → Json
  | .mk name kind division nested =>
    .object
      [("name", .string name), ("kind", wordJson kind),
       ("procedure_division", Json.orNull DivisionText.toJson division),
       ("nested", .array (programsJson nested))]

def programsJson : List ProgramText → List Json
  | [] => []
  | p :: rest => p.toJson :: programsJson rest

end

def StatementTree.toJson (t : StatementTree) : Json :=
  .object [("programs", .array (programsJson t.programs))]

end CobolFlow
