import CobolFlow.Source

/-!
# Nodes: what control flow sees of a statement

A source program is replayed as entries into and exits from *nodes*: headers, statements and the
clauses inside them. A node carries the payload that shapes the graph (the targets of a GO TO, the
range of a PERFORM); a block keeps only its `NodeTag`, the kind without the payload.

## Main definitions

* `NodeKind`, `Node` — a node with its payload, position and text
* `NodeKind.tag` — the payload forgotten
* `NodeTag.role` — the coarse part a node plays in control flow
* `NodeTag.isStatement` — whether entering the node begins a sentence
-/

namespace CobolFlow

/-- A node's number, unique within a compilation unit that follows the replay protocol. -/
abbrev NodeId := Nat

/-- A node's number as it is shown. -/
def NodeId.display (n : NodeId) : String := s!"n{n}"

/-- One `altered TO PROCEED TO target` clause of an ALTER statement. -/
structure AlterClause where
  altered : QualifiedName
  target : QualifiedName
deriving DecidableEq

/-- The two shapes of GO TO. -/
inductive Jump
  /-- Always to one place, which ALTER may extend. -/
  | simple (target : QualifiedName)
  /-- To one of several places, or on to the next statement when none applies. -/
  | conditional (targets : List QualifiedName)
deriving DecidableEq

def Jump.isSimple : Jump → Bool
  | .simple _ => true
  | .conditional _ => false

/-- How often an in-line PERFORM runs its body. -/
inductive Repetition
  | once | times | untilTrue | varying
deriving DecidableEq

namespace Repetition

def isIterative : Repetition → Bool
  | .once => false
  | _ => true

instance : Vocabulary Repetition where
  all := [.once, .times, .untilTrue, .varying]
  word
    | .once => "once" | .times => "times" | .untilTrue => "until" | .varying => "varying"
  find_word a := by cases a <;> rfl

end Repetition

/-- Statements that end the program or the run unit. -/
inductive Ending
  | stopRun | exitProgram | exitMethod | goback
deriving DecidableEq

/-- The name of the ending in drawings and listings. -/
def Ending.name : Ending → String
  | .stopRun => "Stop" | .exitProgram => "ExitProgram" | .exitMethod => "ExitMethod"
  | .goback => "Goback"

instance : Vocabulary Ending where
  all := [.stopRun, .exitProgram, .exitMethod, .goback]
  word
    | .stopRun => "stop_run" | .exitProgram => "exit_program" | .exitMethod => "exit_method"
    | .goback => "goback"
  find_word a := by cases a <;> rfl

/-- Phrases by which a statement names what to do when an exception does or does not occur. -/
inductive ExceptionPhrase
  | atEnd | notAtEnd | atEndOfPage | notAtEndOfPage
  | onException | notOnException | onOverflow | notOnOverflow
  | invalidKey | notInvalidKey | onSizeError | notOnSizeError
deriving DecidableEq

/-- The name of the phrase in drawings and listings. -/
def ExceptionPhrase.name : ExceptionPhrase → String
  | .atEnd => "AtEnd" | .notAtEnd => "NotAtEnd"
  | .atEndOfPage => "AtEndOfPage" | .notAtEndOfPage => "NotAtEndOfPage"
  | .onException => "OnException" | .notOnException => "NotOnException"
  | .onOverflow => "OnOverflow" | .notOnOverflow => "NotOnOverflow"
  | .invalidKey => "InvalidKey" | .notInvalidKey => "NotInvalidKey"
  | .onSizeError => "OnSizeError" | .notOnSizeError => "NotOnSizeError"

instance : Vocabulary ExceptionPhrase where
  all :=
    [.atEnd, .notAtEnd, .atEndOfPage, .notAtEndOfPage, .onException, .notOnException,
     .onOverflow, .notOnOverflow, .invalidKey, .notInvalidKey, .onSizeError, .notOnSizeError]
  word
    | .atEnd => "at_end" | .notAtEnd => "not_at_end"
    | .atEndOfPage => "at_end_of_page" | .notAtEndOfPage => "not_at_end_of_page"
    | .onException => "on_exception" | .notOnException => "not_on_exception"
    | .onOverflow => "on_overflow" | .notOnOverflow => "not_on_overflow"
    | .invalidKey => "invalid_key" | .notInvalidKey => "not_invalid_key"
    | .onSizeError => "on_size_error" | .notOnSizeError => "not_on_size_error"
  find_word a := by cases a <;> rfl

/-- Verbs that do their work and pass control on. -/
inductive Verb
  | accept | add | cancel | close | compute | carryOn | delete | display | divide | entry | exec
  | clear | inspect | invoke | merge | move | multiply | openFile | read | release
  | returnRecord | replaceRecord | set | sort | start | string | subtract | unstring | use | write
  | xmlGenerate | xmlParse
deriving DecidableEq

namespace Verb

/-- The name of the verb in drawings and listings. -/
def name : Verb → String
  | .accept => "Accept" | .add => "Add" | .cancel => "Cancel" | .close => "Close"
  | .compute => "Compute" | .carryOn => "Continue" | .delete => "Delete" | .display => "Display"
  | .divide => "Divide" | .entry => "Entry" | .exec => "Exec" | .clear => "Initialize"
  | .inspect => "Inspect" | .invoke => "Invoke" | .merge => "Merge" | .move => "Move"
  | .multiply => "Multiply" | .openFile => "Open" | .read => "Read" | .release => "Release"
  | .returnRecord => "Return" | .replaceRecord => "Rewrite" | .set => "Set" | .sort => "Sort"
  | .start => "Start" | .string => "String" | .subtract => "Subtract" | .unstring => "Unstring"
  | .use => "Use" | .write => "Write" | .xmlGenerate => "XmlGenerate" | .xmlParse => "XmlParse"

instance : Vocabulary Verb where
  all :=
    [.accept, .add, .cancel, .close, .compute, .carryOn, .delete, .display, .divide, .entry,
     .exec, .clear, .inspect, .invoke, .merge, .move, .multiply, .openFile, .read, .release,
     .returnRecord, .replaceRecord, .set, .sort, .start, .string, .subtract, .unstring, .use,
     .write, .xmlGenerate, .xmlParse]
  word
    | .accept => "accept" | .add => "add" | .cancel => "cancel" | .close => "close"
    | .compute => "compute" | .carryOn => "continue" | .delete => "delete"
    | .display => "display" | .divide => "divide" | .entry => "entry" | .exec => "exec"
    | .clear => "initialize" | .inspect => "inspect" | .invoke => "invoke" | .merge => "merge"
    | .move => "move" | .multiply => "multiply" | .openFile => "open" | .read => "read"
    | .release => "release" | .returnRecord => "return" | .replaceRecord => "rewrite"
    | .set => "set" | .sort => "sort" | .start => "start" | .string => "string"
    | .subtract => "subtract" | .unstring => "unstring" | .use => "use" | .write => "write"
    | .xmlGenerate => "xml_generate" | .xmlParse => "xml_parse"
  find_word a := by cases a <;> rfl

end Verb

/-- The range of an out-of-line PERFORM: one procedure, or a first and a last one. -/
structure PerformRange where
  first : QualifiedName
  through : Option QualifiedName := none
deriving DecidableEq

/-- The range as it is written: `P` or `P THRU Q`. -/
def PerformRange.display (r : PerformRange) : String :=
  match r.through with
  | some last => r.first.display ++ " THRU " ++ last.display
  | none => r.first.display

/-- What can own a procedure division. -/
inductive ProgramKind
  | program | function
deriving DecidableEq

instance : Vocabulary ProgramKind where
  all := [.program, .function]
  word
    | .program => "program" | .function => "function"
  find_word a := by cases a <;> rfl

/-- Everything that can be entered and left during a replay, with its payload. -/
inductive NodeKind
  | program (name : String)
  | function (name : String)
  | procedureDivision
  | declaratives
  | sectionHeader (name : String)
  | paragraphHeader (name : String)
  | ifThen
  | elsePart
  | evaluate
  | whenPhrase
  | whenOther
  | search
  | searchWhen
  | alter (clauses : List AlterClause)
  | exit
  | goTo (jump : Jump)
  | nextSentence
  | perform (range : PerformRange)
  | loop (repetition : Repetition) (testAfter : Bool)
  | terminate (ending : Ending)
  | exception (phrase : ExceptionPhrase)
  | call (program : Option String)
  | ordinary (verb : Verb)
deriving DecidableEq

/-- The kind of an instruction, without its payload. -/
inductive NodeTag
  | program | function | procedureDivision | declaratives | sectionHeader | paragraphHeader
  | ifThen | elsePart | evaluate | whenPhrase | whenOther | search | searchWhen
  | alter | exit | goToSimple | goToConditional | nextSentence | perform | loop
  | terminate (ending : Ending)
  | exception (phrase : ExceptionPhrase)
  | call
  | ordinary (verb : Verb)
deriving DecidableEq

/-- The kind with its payload forgotten. -/
def NodeKind.tag : NodeKind → NodeTag
  | .program _ => .program
  | .function _ => .function
  | .procedureDivision => .procedureDivision
  | .declaratives => .declaratives
  | .sectionHeader _ => .sectionHeader
  | .paragraphHeader _ => .paragraphHeader
  | .ifThen => .ifThen
  | .elsePart => .elsePart
  | .evaluate => .evaluate
  | .whenPhrase => .whenPhrase
  | .whenOther => .whenOther
  | .search => .search
  | .searchWhen => .searchWhen
  | .alter _ => .alter
  | .exit => .exit
  | .goTo (.simple _) => .goToSimple
  | .goTo (.conditional _) => .goToConditional
  | .nextSentence => .nextSentence
  | .perform _ => .perform
  | .loop _ _ => .loop
  | .terminate ending => .terminate ending
  | .exception phrase => .exception phrase
  | .call _ => .call
  | .ordinary verb => .ordinary verb

theorem NodeKind.tag_goTo (j : Jump) :
    (NodeKind.goTo j).tag = if j.isSimple then .goToSimple else .goToConditional := by
  cases j <;> rfl

/-- The part that a node plays in control flow. -/
inductive Role
  /-- Opens a construct with several alternatives. -/
  | decision
  /-- Leaves for a named procedure or sentence. -/
  | transfer
  /-- Ends the program. -/
  | ending
  /-- Joins the current block. -/
  | ordinary
  /-- A clause of an enclosing decision or statement. -/
  | clause
  /-- A program, division, section or paragraph header. -/
  | header
deriving DecidableEq

/-- The name under which a role is shown. -/
def Role.name : Role → String
  | .decision => "Decision"
  | .transfer => "ProcedureBranching"
  | .ending => "Ending"
  | .ordinary => "Ordinary"
  | .clause => "Clause"
  | .header => "Header"

namespace NodeTag

def role : NodeTag → Role
  | .program | .function | .procedureDivision | .declaratives | .sectionHeader
  | .paragraphHeader => .header
  | .ifThen | .evaluate | .search | .loop => .decision
  | .alter | .exit | .goToSimple | .goToConditional | .nextSentence | .perform => .transfer
  | .terminate _ => .ending
  | .elsePart | .whenPhrase | .whenOther | .searchWhen | .exception _ => .clause
  | .call | .ordinary _ => .ordinary

/-- Whether entering the node begins a sentence when none is open. ELSE does; the other clauses
never stand at the head of a sentence. -/
def isStatement (t : NodeTag) : Bool :=
  match t.role with
  | .decision | .transfer | .ending | .ordinary => true
  | .clause => t == .elsePart
  | .header => false

/-- The name of the tag in drawings and listings. -/
def name : NodeTag → String
  | .program => "Program"
  | .function => "Function"
  | .procedureDivision => "ProcedureDivision"
  | .declaratives => "Declaratives"
  | .sectionHeader => "Section"
  | .paragraphHeader => "Paragraph"
  | .ifThen => "If"
  | .elsePart => "Else"
  | .evaluate => "Evaluate"
  | .whenPhrase => "When"
  | .whenOther => "WhenOther"
  | .search => "Search"
  | .searchWhen => "WhenSearch"
  | .alter => "Alter"
  | .exit => "Exit"
  | .goToSimple | .goToConditional => "Goto"
  | .nextSentence => "NextSentence"
  | .perform => "PerformProcedure"
  | .loop => "Perform"
  | .terminate ending => ending.name
  | .exception phrase => phrase.name
  | .call => "Call"
  | .ordinary verb => verb.name

end NodeTag

/-- A node of the source program, as a replay presents it. -/
structure Node where
  id : NodeId
  kind : NodeKind
  span : Span := Span.unknown
  /-- The statement's source text, where it is known. -/
  text : Option String := none
deriving DecidableEq

def Node.tag (n : Node) : NodeTag := n.kind.tag

end CobolFlow
