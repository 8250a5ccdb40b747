import CobolFlow.Build.Fork
import CobolFlow.Options
import CobolFlow.Problem
import CobolFlow.Procedures

/-!
# The state of a build

One `Scope` for each program or function that is being read: the graph and the catalog so far,
where the next statement goes, the forks that are open, and the jumps that cannot be drawn before
the whole division is known.

A step of a build is a `Build` action: a change of the scope that may fail on a missing index.
Notifications that the replay protocol does not allow in the state at hand change nothing and
leave a `Violation` behind.

## Main definitions

* `Scope`, `Build` — the state, and a step on it
* `Build.newBlock`, `Build.addInstruction` — where statements end up
-/

namespace CobolFlow

/-- A GO TO that waits for its targets. -/
structure PendingJump where
  node : NodeId
  span : Span
  jump : Jump
  block : BlockId
deriving DecidableEq

/-- An ALTER that waits for the paragraphs it names. -/
structure PendingAlter where
  span : Span
  clauses : List AlterClause
deriving DecidableEq

/-- An out-of-line PERFORM that waits for its range. -/
structure PendingPerform where
  span : Span
  range : PerformRange
  group : GroupId
deriving DecidableEq

/-- A NEXT SENTENCE that waits for the sentence after its own. -/
structure PendingNextSentence where
  block : BlockId
  sentence : SentenceId
deriving DecidableEq

/-- What the end of the division resolves. -/
structure Pending where
  jumps : List PendingJump := []
  alters : List PendingAlter := []
  performs : List PendingPerform := []
  nextSentences : List PendingNextSentence := []
deriving DecidableEq

/-- A notification that the replay protocol does not allow where it came. -/
inductive Violation
  /-- A statement came while there was no block to put it into. -/
  | noCurrentBlock
  /-- A construct was continued or closed that was not open. -/
  | noOpenFork
  /-- An in-line PERFORM was closed whose fork has no test and body. -/
  | malformedLoop
  /-- DECLARATIVES inside DECLARATIVES. -/
  | nestedDeclaratives
  /-- A program was left that was not entered. -/
  | noOpenProgram
deriving DecidableEq

/-- The state of one program's build. -/
structure Scope where
  graph : Graph := {}
  procedures : Procedures := {}
  /-- In the order in which they were found. -/
  problems : List Problem := []
  /-- Between the entry into a procedure division and the exit from it. -/
  inDivision : Bool := false
  currentBlock : Option BlockId := none
  currentSentence : Option SentenceId := none
  currentSection : Option ProcedureId := none
  currentParagraph : Option ProcedureId := none
  /-- Innermost first. -/
  forks : List Fork := []
  /-- Inside the DECLARATIVES, the block that was current before them. -/
  declaratives : Option BlockId := none
  /-- The next sentence begins a USE procedure, which is entered from nowhere. -/
  declarativeEntry : Bool := false
  /-- The nodes entered and not left, innermost first. -/
  enclosing : List NodeTag := []
  pending : Pending := {}
  violations : List Violation := []
deriving DecidableEq

instance : Inhabited Scope := ⟨{}⟩

/-- A step of a build, which fails on a missing index. -/
abbrev Build := StateT Scope (Except Fault)

namespace Build

/-- A change of the graph as a step of the build. -/
def editGraph {α : Type} (e : Graph.Edit α) : Build α := fun s => do
  let (a, graph) ← e s.graph
  return (a, { s with graph })

/-- A change of the catalog as a step of the build. -/
def editProcedures {α : Type} (e : Procedures.Edit α) : Build α := fun s => do
  let (a, procedures) ← e s.procedures
  return (a, { s with procedures })

def report (p : Problem) : Build Unit := modify fun s => { s with problems := s.problems ++ [p] }

def violate (v : Violation) : Build Unit :=
  modify fun s => { s with violations := s.violations ++ [v] }

def setCurrent (b : BlockId) : Build Unit := modify fun s => { s with currentBlock := some b }

/-! ### Blocks -/

/-- The name of the innermost procedure that the program itself declares. -/
def currentTag : Build (Option String) := do
  let s ← get
  match s.currentParagraph.or s.currentSection with
  | some p =>
    let procedure ← s.procedures.procedure p
    return if procedure.name == rootSectionName then none else some procedure.name
  | none => return none

/-- Makes a block that belongs to the open sentence and begins with `leading`. -/
def newBlock (leading : Option Instruction) : Build BlockId := do
  let b ← editGraph Graph.addBlock
  let tag ← currentTag
  let declaratives := (← get).declaratives.isSome
  editGraph (Graph.modifyBlock b fun block => { block with tag, flags := { declaratives } })
  if let some i := leading then
    editGraph (Graph.appendInstruction b i)
  if let some sentence := (← get).currentSentence then
    editProcedures <|
      Procedures.modifySentence sentence fun s => { s with blocks := s.blocks ++ [b] }
  return b

/-- The block into which the next statement goes. -/
def current? : Build (Option BlockId) := do
  let b := (← get).currentBlock
  if b.isNone then violate .noCurrentBlock
  return b

/-- Puts an instruction at the end of the current block. -/
def addInstruction (i : Instruction) : Build Unit := do
  if let some b ← current? then
    editGraph (Graph.appendInstruction b i)

/-- Marks the current block. -/
def markCurrent (f : BlockFlags) : Build Unit := do
  if let some b ← current? then
    editGraph (Graph.markBlock b f)

end Build

end CobolFlow
