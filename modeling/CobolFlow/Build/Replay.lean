import CobolFlow.Build.Decision
import CobolFlow.Build.Graft

/-!
# Replays

A source program reaches a build as a list of notifications in source order: entries into and
exits from nodes, the starts of clauses, and periods. A `Builder` takes them one by one, keeps a
scope for each program or function that is open, and holds one finished `ProgramFlow` for each that
was closed, in the order in which they were entered.

## Main definitions

* `Notification`, `Builder.step` — one thing that happens, and what the builder does with it
* `Builder.finish` — closes what is still open, and answers with all programs
* `Builder.run` — a whole replay
-/

namespace CobolFlow

/-- One event of a replay. -/
inductive Notification
  | enter (node : Node)
  | leave (node : Node)
  /-- A period. -/
  | sentenceEnd
  /-- All WHEN phrases of a clause of an EVALUATE have been entered. -/
  | whenClause
  /-- The WHEN OTHER phrase of an EVALUATE has been entered. -/
  | whenOtherClause
  /-- A WHEN clause of a SEARCH, or its AT END clause, begins. -/
  | searchClause (atEnd : Bool)
deriving DecidableEq

/-- The finished result for one program or function. -/
structure ProgramFlow where
  name : String
  kind : ProgramKind
  /-- The place of the enclosing program among the results. -/
  parent : Option Nat
  graph : Graph
  procedures : Procedures
  problems : List Problem
deriving DecidableEq

/-! ### One program -/

namespace Build

/-- Resolves everything that waits for the end of the division. -/
def resolvePending (o : Options) : Build Unit := do
  let pending := (← get).pending
  modify fun s => { s with pending := {} }
  resolveNextSentences pending.nextSentences
  let alterations ← resolveAlters pending.alters
  resolveJumps alterations pending.jumps
  resolvePerforms pending.performs
  if o.isExtended then
    editGraph (graftGroups o)

def endDivision (o : Options) : Build Unit := do
  finishBlocks
  resolvePending o
  modify fun s => { s with inDivision := false }

/-- What a node does that is entered inside a division, by its kind. -/
def enterKind (o : Options) (n : Node) : Build Unit :=
  let i : Instruction := ⟨n.id, n.tag⟩
  match n.kind with
  | .program _ | .function _ | .procedureDivision => return
  | .declaratives => enterDeclaratives
  | .sectionHeader name => enterSection name n.span
  | .paragraphHeader name => enterParagraph name n.span
  | .ifThen => enterIf i
  | .elsePart => enterElse (some i)
  | .evaluate => enterEvaluate i
  | .whenPhrase | .whenOther | .searchWhen => deferPhrase i
  | .search => enterSearch o i
  | .alter clauses => enterAlter i n.span clauses
  | .goTo jump => enterJump i n.span jump
  | .nextSentence => enterNextSentence i
  | .perform range => enterPerform i n.span range
  | .loop _ testAfter => enterLoop i testAfter
  | .terminate _ => enterEnding i
  | .exception phrase => enterException o i phrase
  | .exit | .call _ | .ordinary _ => addInstruction i

/-- Enters a node inside a division. A statement begins a sentence if none is open. -/
def enterInside (o : Options) (n : Node) : Build Unit := do
  editGraph (Graph.recordNode n)
  if n.tag.isStatement then ensureSentence
  enterKind o n

/-- Enters a node; outside a division only its header counts. -/
def enterNode (o : Options) (n : Node) : Build Unit := do
  if n.tag = .procedureDivision then
    startDivision n
  else if (← get).inDivision then
    enterInside o n
  modify fun s => { s with enclosing := n.tag :: s.enclosing }

/-- What a node does that is left inside a division. -/
def leaveInside (o : Options) (n : Node) : Build Unit :=
  match n.kind with
  | .procedureDivision => endDivision o
  | .declaratives => leaveDeclaratives
  | .ifThen => leaveIf
  | .evaluate => leaveEvaluate o
  | .search => leaveSearch o
  | .loop repetition _ => leaveLoop repetition
  | .exception phrase => leaveException phrase
  | _ => return

/-- Leaves a node. -/
def leaveNode (o : Options) (n : Node) : Build Unit := do
  modify fun s => { s with enclosing := s.enclosing.tail }
  if (← get).inDivision then
    leaveInside o n

end Build

/-! ### All programs -/

/-- A program that has been entered and not left. -/
structure OpenProgram where
  name : String
  kind : ProgramKind
  /-- Its place among the results. -/
  slot : Nat
  parent : Option Nat
  scope : Scope

/-- The result of a program as it stands. -/
def OpenProgram.flow (p : OpenProgram) : ProgramFlow where
  name := p.name
  kind := p.kind
  parent := p.parent
  graph := p.scope.graph
  procedures := p.scope.procedures
  problems := p.scope.problems

/-- The state of a replay. -/
structure Builder where
  options : Options
  /-- Innermost first. -/
  scopes : List OpenProgram := []
  /-- A place for each program entered, filled when the program is left. -/
  finished : Array (Option ProgramFlow) := #[]
  /-- What the replay did against the protocol, in programs already left. -/
  violations : List Violation := []

namespace Builder

/-- Begins a program inside the one that is open. A program without a name qualifies nothing. -/
def openProgram (b : Builder) (name : String) (kind : ProgramKind) : Builder :=
  let opened : OpenProgram :=
    { name, kind
      slot := b.finished.size
      parent := b.scopes.head?.map (·.slot)
      scope := { procedures := { program := if name.isEmpty then none else some name } } }
  { b with scopes := opened :: b.scopes, finished := b.finished.push none }

/-- Ends the innermost program. -/
def closeProgram (b : Builder) : Except Fault Builder :=
  match b.scopes with
  | [] => .ok { b with violations := b.violations ++ [.noOpenProgram] }
  | p :: outer =>
    if p.slot < b.finished.size then
      .ok { b with
        scopes := outer
        finished := b.finished.setIfInBounds p.slot (some p.flow)
        violations := b.violations ++ p.scope.violations }
    else
      .error (.missingProgram p.slot)

/-- Takes a step of the innermost program, if any is open. -/
def inScope (b : Builder) (step : Build Unit) : Except Fault Builder :=
  match b.scopes with
  | [] => .ok b
  | p :: outer => do
    let ((), scope) ← step.run p.scope
    return { b with scopes := { p with scope } :: outer }

/-- What one notification does. A procedure division outside any program begins one without a
name. -/
def step (b : Builder) : Notification → Except Fault Builder
  | .enter n =>
    match n.kind with
    | .program name => .ok (b.openProgram name .program)
    | .function name => .ok (b.openProgram name .function)
    | .procedureDivision =>
      let b := if b.scopes.isEmpty then b.openProgram "" .program else b
      b.inScope (Build.enterNode b.options n)
    | _ => b.inScope (Build.enterNode b.options n)
  | .leave n =>
    match n.kind with
    | .program _ | .function _ => b.closeProgram
    | _ => b.inScope (Build.leaveNode b.options n)
  | .sentenceEnd => b.inScope Build.endSentence
  | .whenClause => b.inScope (Build.startWhen b.options)
  | .whenOtherClause => b.inScope Build.startWhenOther
  | .searchClause atEnd => b.inScope (Build.startSearchWhen b.options atEnd)

/-- Ends the programs that are still open. -/
def closeAll : Nat → Builder → Except Fault Builder
  | 0, b => .ok b
  | n + 1, b => do closeAll n (← b.closeProgram)

/-- All programs, in the order in which they were entered. -/
def finish (b : Builder) : Except Fault (List ProgramFlow) := do
  return (← closeAll b.scopes.length b).finished.toList.filterMap id

/-- Replays a list of notifications from the beginning. -/
def replay (o : Options) (events : List Notification) : Except Fault Builder :=
  events.foldlM step { options := o }

/-- The programs that a replay describes. -/
def run (o : Options) (events : List Notification) : Except Fault (List ProgramFlow) := do
  (← replay o events).finish

end Builder

end CobolFlow
