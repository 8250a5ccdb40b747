import CobolFlow.Json.Decode
import CobolFlow.Options
import CobolFlow.Tree.Basic

/-!
# Statement trees, names and options in JSON

How the members of each object are named, which of them have to be there, and what the others are
when they are left out.

A statement is the one object whose members depend on one of them: its `kind` says which others it
has. Its members are therefore set aside, all but `text` and `span`, which every statement can
have.

## Main definitions

* `StatementTree.decode`, `StatementTree.ofJson` — a compilation unit
* `QualifiedName.decode`, `Options.decode` — the other things that are given in JSON
-/

namespace CobolFlow

open Json Json.Decoder

/-! ### Positions and names -/

/-- The members of a position. -/
structure SpanParts where
  start : Option Nat := none
  stop : Option Nat := none
  line : Option Nat := none
  column : Option Nat := none

def Span.decode : Decoder Span := fun p d => do
  let r ← record "Span"
    [field "start" true SpanParts.start ({ · with start := some · }) size,
     field "end" true SpanParts.stop ({ · with stop := some · }) size,
     field "line" true SpanParts.line ({ · with line := some · }) word32,
     field "column" true SpanParts.column ({ · with column := some · }) word32] {} p d
  return {
    start := (r.start.getD 0).toUInt64
    stop := (r.stop.getD 0).toUInt64
    line := (r.line.getD 0).toUInt32
    column := (r.column.getD 0).toUInt32 }

/-- The members of a qualified name. -/
structure NameParts where
  name : Option String := none
  qualifiers : Option (List String) := none

def QualifiedName.decode : Decoder QualifiedName := fun p d => do
  let r ← record "SymbolRef"
    [field "name" true NameParts.name ({ · with name := some · }) string,
     field "qualifiers" false NameParts.qualifiers ({ · with qualifiers := some · })
       (list string)] {} p d
  return { name := r.name.getD "", qualifiers := r.qualifiers.getD [] }

/-- The members of a clause of ALTER. -/
structure AlterParts where
  altered : Option QualifiedName := none
  target : Option QualifiedName := none

def AlterClause.decode : Decoder AlterClause := fun p d => do
  let r ← record "AlterClause"
    [field "altered" true AlterParts.altered ({ · with altered := some · }) QualifiedName.decode,
     field "target" true AlterParts.target ({ · with target := some · }) QualifiedName.decode]
    {} p d
  let nowhere : QualifiedName := { name := "" }
  return { altered := r.altered.getD nowhere, target := r.target.getD nowhere }

/-! ### Statements -/

/-- The words by which the form of a statement is told. -/
inductive FormWord
  | ifThen | evaluate | search | alter | exit | goTo | nextSentence | perform | loop
  | stopRun | exitProgram | exitMethod | goback | call | ordinary
deriving DecidableEq

instance : Vocabulary FormWord where
  all :=
    [.ifThen, .evaluate, .search, .alter, .exit, .goTo, .nextSentence, .perform, .loop,
     .stopRun, .exitProgram, .exitMethod, .goback, .call, .ordinary]
  word
    | .ifThen => "if" | .evaluate => "evaluate" | .search => "search" | .alter => "alter"
    | .exit => "exit" | .goTo => "go_to" | .nextSentence => "next_sentence"
    | .perform => "perform" | .loop => "perform_loop" | .stopRun => "stop_run"
    | .exitProgram => "exit_program" | .exitMethod => "exit_method" | .goback => "goback"
    | .call => "call" | .ordinary => "statement"
  find_word a := by cases a <;> rfl

/-- The form that a member `kind` tells, by its word or by the place of the word in the list. -/
def FormWord.decode (d : Draft) : Except ReadError FormWord :=
  match d with
  | .string pieces => do ofWord (← Draft.text pieces)
  | .number n =>
    match n.value with
    | .natural k =>
      match (Vocabulary.all (α := FormWord))[k]? with
      | some w => .ok w
      | none => refuse (.invalidValue (.integer k) "variant index 0 <= i < 15")
    | _ => d.unwanted "variant identifier"
  | _ => d.unwanted "variant identifier"

/-- The members that any form of statement can have. -/
structure FormParts where
  body : Option (List Statement) := none
  otherwise : Option (Option (List Statement)) := none
  whens : Option (List WhenClause) := none
  clauses : Option (List AlterClause) := none
  targets : Option (List QualifiedName) := none
  depending : Option Bool := none
  procedure : Option QualifiedName := none
  through : Option (Option QualifiedName) := none
  iteration : Option Repetition := none
  testAfter : Option Bool := none
  program : Option (Option String) := none
  conditions : Option (List ExceptionClause) := none
  verb : Option Verb := none

/-- The members of a WHEN clause. -/
structure WhenParts where
  phrases : Option (List String) := none
  body : Option (List Statement) := none

def WhenClause.decode (statement : Decoder Statement) : Decoder WhenClause := fun p d => do
  let r ← record "WhenDef"
    [field "conditions" false WhenParts.phrases ({ · with phrases := some · }) (list string),
     field "body" false WhenParts.body ({ · with body := some · }) (list statement)] {} p d
  return .mk (r.phrases.getD []) (r.body.getD [])

/-- The members of an exception clause. -/
structure ExceptionParts where
  phrase : Option ExceptionPhrase := none
  body : Option (List Statement) := none

def ExceptionClause.decode (statement : Decoder Statement) : Decoder ExceptionClause :=
  fun p d => do
    let r ← record "ConditionDef"
      [field "condition" true ExceptionParts.phrase ({ · with phrase := some · }) word,
       field "body" false ExceptionParts.body ({ · with body := some · }) (list statement)] {} p d
    return .mk (r.phrase.getD .atEnd) (r.body.getD [])

namespace FormWord

section

variable (statement : Decoder Statement)

/-- The statements of an optional part. -/
def partField (name : String) : RecordField FormParts :=
  field name false FormParts.otherwise ({ · with otherwise := some · }) (optional (list statement))

def bodyField (name : String) (required : Bool) : RecordField FormParts :=
  field name required FormParts.body ({ · with body := some · }) (list statement)

def whensField : RecordField FormParts :=
  field "whens" false FormParts.whens ({ · with whens := some · })
    (list (WhenClause.decode statement))

def conditionsField : RecordField FormParts :=
  field "conditions" false FormParts.conditions ({ · with conditions := some · })
    (list (ExceptionClause.decode statement))

/-- The members of each form. -/
def fields : FormWord → List (RecordField FormParts)
  | .ifThen => [bodyField statement "then" true, partField statement "else"]
  | .evaluate => [whensField statement, partField statement "other"]
  | .search => [partField statement "at_end", whensField statement]
  | .alter =>
    [field "clauses" true FormParts.clauses ({ · with clauses := some · })
      (list AlterClause.decode)]
  | .goTo =>
    [field "targets" true FormParts.targets ({ · with targets := some · })
      (list QualifiedName.decode),
     field "depending" false FormParts.depending ({ · with depending := some · }) bool]
  | .perform =>
    [field "procedure" true FormParts.procedure ({ · with procedure := some · })
      QualifiedName.decode,
     field "through" false FormParts.through ({ · with through := some · })
      (optional QualifiedName.decode)]
  | .loop =>
    [field "iteration" false FormParts.iteration ({ · with iteration := some · }) word,
     field "test_after" false FormParts.testAfter ({ · with testAfter := some · }) bool,
     bodyField statement "body" false]
  | .call =>
    [field "program" false FormParts.program ({ · with program := some · }) (optional string),
     conditionsField statement]
  | .ordinary =>
    [field "verb" true FormParts.verb ({ · with verb := some · }) word,
     conditionsField statement]
  | .exit | .nextSentence | .stopRun | .exitProgram | .exitMethod | .goback => []

end

/-- The form with the given members, and with what those left out stand for. -/
def form (r : FormParts) : FormWord → StatementForm
  | .ifThen => .ifThen (r.body.getD []) (r.otherwise.getD none)
  | .evaluate => .evaluate (r.whens.getD []) (r.otherwise.getD none)
  | .search => .search (r.otherwise.getD none) (r.whens.getD [])
  | .alter => .alter (r.clauses.getD [])
  | .exit => .exit
  | .goTo => .goTo (r.targets.getD []) (r.depending.getD false)
  | .nextSentence => .nextSentence
  | .perform =>
    .perform { first := r.procedure.getD { name := "" }, through := r.through.getD none }
  | .loop => .loop (r.iteration.getD .once) (r.testAfter.getD false) (r.body.getD [])
  | .stopRun => .terminate .stopRun
  | .exitProgram => .terminate .exitProgram
  | .exitMethod => .terminate .exitMethod
  | .goback => .terminate .goback
  | .call => .call (r.program.getD none) (r.conditions.getD [])
  | .ordinary => .ordinary (r.verb.getD .carryOn) (r.conditions.getD [])

end FormWord

/-- The members of a statement: those that every statement can have, and those set aside. -/
structure StatementParts where
  text : Option (Option String) := none
  span : Option Span := none
  /-- The last one first. -/
  others : List (Draft × Draft) := []

/-- Reads the members of a statement, setting aside those that its kind decides about. -/
def StatementParts.read (p : Json.Place) :
    List (Draft × Draft) → StatementParts → Except ReadError StatementParts
  | [], r => .ok r
  | (key, value) :: rest, r => do
    let name ← key.keyText
    if name == "text" then
      if r.text.isSome then refuse (.duplicateField name)
      else read p rest { r with text := some (← optional string p value) }
    else if name == "span" then
      if r.span.isSome then refuse (.duplicateField name)
      else read p rest { r with span := some (← Span.decode p value) }
    else do
      unless p.setAside do value.settle p.depth
      read p rest { r with others := (key, value) :: r.others }

/-- The member `kind` among those set aside, and the others. -/
def FormWord.split : List (Draft × Draft) → Option FormWord → List (Draft × Draft) →
    Except ReadError (FormWord × List (Draft × Draft))
  | [], some w, others => .ok (w, others.reverse)
  | [], none, _ => refuse (.missingField "kind")
  | (key, value) :: rest, w?, others => do
    if (← key.keyText) == "kind" then
      if w?.isSome then refuse (.duplicateField "kind")
      else FormWord.split rest (some (← FormWord.decode value)) others
    else
      FormWord.split rest w? ((key, value) :: others)

/-- A statement. The first argument bounds how deep statements stand in each other; as each is a
container, the limit on containers bounds it too. -/
def Statement.decode : Nat → Decoder Statement
  | 0 => fun _ _ => .error .tooDeep
  | n + 1 => fun p d =>
    match d with
    | .object given ending => do
      let inner ← p.enter
      let parts ← StatementParts.read inner given {}
      ofFlaw (Draft.checkEnding ending)
      let (w, others) ← FormWord.split parts.others.reverse none []
      let r ← members (w.fields (Statement.decode n)) {} { inner with setAside := true } others
        .closed
      return .mk (w.form r) (parts.text.getD none) (parts.span.getD Span.unknown)
    | d => d.unwanted "struct StmtNode"

/-! ### Procedures and programs -/

/-- Sentences, each a list of statements. -/
def decodeSentences : Decoder (List SentenceText) := list (list (Statement.decode maxDepth))

/-- The members of paragraphs and sections. -/
structure ProcedureParts where
  name : Option String := none
  span : Option Span := none
  sentences : Option (List SentenceText) := none
  paragraphs : Option (List ParagraphText) := none

namespace ProcedureParts

/-- The members that paragraphs and sections have in common. -/
def commonFields : List (RecordField ProcedureParts) :=
  [field "name" true ProcedureParts.name ({ · with name := some · }) string,
   field "span" false ProcedureParts.span ({ · with span := some · }) Span.decode,
   field "sentences" false ProcedureParts.sentences ({ · with sentences := some · })
     decodeSentences]

end ProcedureParts

def ParagraphText.decode : Decoder ParagraphText := fun p d => do
  let r ← record "ParagraphDef" ProcedureParts.commonFields {} p d
  return {
    name := r.name.getD ""
    span := r.span.getD Span.unknown
    sentences := r.sentences.getD [] }

def SectionText.decode : Decoder SectionText := fun p d => do
  let r ← record "SectionDef"
    (ProcedureParts.commonFields ++
      [field "paragraphs" false ProcedureParts.paragraphs ({ · with paragraphs := some · })
        (list ParagraphText.decode)]) {} p d
  return {
    name := r.name.getD ""
    span := r.span.getD Span.unknown
    sentences := r.sentences.getD []
    paragraphs := r.paragraphs.getD [] }

/-- The members of a procedure division. -/
structure DivisionParts where
  declaratives : Option (List SectionText) := none
  sentences : Option (List SentenceText) := none
  paragraphs : Option (List ParagraphText) := none
  sections : Option (List SectionText) := none

def DivisionText.decode : Decoder DivisionText := fun p d => do
  let r ← record "DivisionDef"
    [field "declaratives" false DivisionParts.declaratives ({ · with declaratives := some · })
      (list SectionText.decode),
     field "sentences" false DivisionParts.sentences ({ · with sentences := some · })
      decodeSentences,
     field "paragraphs" false DivisionParts.paragraphs ({ · with paragraphs := some · })
      (list ParagraphText.decode),
     field "sections" false DivisionParts.sections ({ · with sections := some · })
      (list SectionText.decode)] {} p d
  return {
    declaratives := r.declaratives.getD []
    sentences := r.sentences.getD []
    paragraphs := r.paragraphs.getD []
    sections := r.sections.getD [] }

/-- The members of a program. -/
structure ProgramParts where
  name : Option String := none
  kind : Option ProgramKind := none
  division : Option (Option DivisionText) := none
  nested : Option (List ProgramText) := none

/-- A program or function. The first argument bounds how deep programs stand in each other; as each
is a container, the limit on containers bounds it too. -/
def ProgramText.decode : Nat → Decoder ProgramText
  | 0 => fun _ _ => .error .tooDeep
  | n + 1 => fun p d => do
    let r ← record "ProgramDef"
      [field "name" true ProgramParts.name ({ · with name := some · }) string,
       field "kind" false ProgramParts.kind ({ · with kind := some · }) word,
       field "procedure_division" false ProgramParts.division ({ · with division := some · })
        (optional DivisionText.decode),
       field "nested" false ProgramParts.nested ({ · with nested := some · })
        (list (ProgramText.decode n))] {} p d
    return .mk (r.name.getD "") (r.kind.getD .program) (r.division.getD none) (r.nested.getD [])

/-- The members of a compilation unit. -/
structure TreeParts where
  programs : Option (List ProgramText) := none

def StatementTree.decode : Decoder StatementTree := fun p d => do
  let r ← record "SourceTree"
    [field "programs" false TreeParts.programs ({ · with programs := some · })
      (list (ProgramText.decode maxDepth))] {} p d
  return { programs := r.programs.getD [] }

/-- The compilation unit that a JSON text describes. -/
def StatementTree.ofJson (text : List Char) : Except ReadError StatementTree :=
  decodeText StatementTree.decode text

/-! ### Options -/

/-- The members of the options. -/
structure OptionParts where
  mode : Option BuildMode := none
  evaluate : Option Lowering := none
  search : Option Lowering := none
  maxGraftDepth : Option Nat := none

/-- The options with the given members, and with the defaults for those left out. -/
def OptionParts.options (r : OptionParts) : Options :=
  let d : Options := {}
  { mode := r.mode.getD d.mode
    evaluate := r.evaluate.getD d.evaluate
    search := r.search.getD d.search
    maxGraftDepth := r.maxGraftDepth.getD d.maxGraftDepth }

def Options.decode : Decoder Options := fun p d => do
  let r ← record "CfgConfig"
    [field "mode" false OptionParts.mode ({ · with mode := some · }) word,
     field "evaluate" false OptionParts.evaluate ({ · with evaluate := some · }) word,
     field "search" false OptionParts.search ({ · with search := some · }) word,
     field "max_graft_depth" false OptionParts.maxGraftDepth ({ · with maxGraftDepth := some · })
      size] {} p d
  return r.options

end CobolFlow
