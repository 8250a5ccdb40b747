import CobolFlow.Build.Scope

/-!
# Sections, sentences and jumps

How headers and periods cut a division into procedures and sentences, and what a statement does
that leaves its sentence. Where a jump leads is not known yet: it is put aside until the division
ends.

A sentence begins with the first statement after a period or header, in a block of its own. What
was current before falls into that block, unless it is the first of a USE procedure, which becomes
a root instead.
-/

namespace CobolFlow.Build

/-! ### Sentences -/

/-- Opens a sentence, in a new block. -/
def startSentence : Build Unit := do
  let s ← get
  let owner := s.currentParagraph.or s.currentSection
  let sentence ← editProcedures (Procedures.addSentence owner s.declaratives.isSome)
  modify fun s => { s with currentSentence := some sentence }
  let b ← newBlock none
  let s ← get
  set { s with declarativeEntry := false }
  if s.declarativeEntry then
    editGraph (Graph.addRoot b)
  else if let some previous := s.currentBlock then
    let slot ← editGraph (Graph.addEdge previous b)
    editProcedures (Procedures.modifySentence sentence fun t => { t with entry := some slot })
  setCurrent b

/-- Opens a sentence unless one is open. -/
def ensureSentence : Build Unit := do
  if (← get).currentSentence.isNone then startSentence

/-- A period: closes the sentence, which is an empty one if none was open. -/
def endSentence : Build Unit := do
  if (← get).inDivision then
    ensureSentence
    modify fun s => { s with currentSentence := none }

/-! ### The division and its headers -/

/-- Enters a procedure division, at the block that starts the graph. -/
def startDivision (n : Node) : Build Unit := do
  modify fun s => { s with inDivision := true }
  editGraph (Graph.openDivision n.id)
  editGraph (Graph.recordNode n)
  let root ← editProcedures Procedures.rootSection
  modify fun s => { s with currentSection := some root }
  startSentence
  if let some b := (← get).currentBlock then
    editGraph (Graph.markBlock b { start := true })
    editGraph (Graph.addRoot b)
    editGraph (Graph.setBlockFor n.id b)

/-- Adds the block that ends the graph, to which the last block falls through. -/
def finishBlocks : Build Unit := do
  modify fun s => { s with currentSentence := none }
  let b ← editGraph Graph.addBlock
  editGraph (Graph.markBlock b { finish := true })
  if let some last := (← get).currentBlock then
    let _ ← editGraph (Graph.addEdge last b)
  setCurrent b

def enterSection (name : String) (span : Span) : Build Unit := do
  let declaratives := (← get).declaratives.isSome
  let p ← editProcedures (Procedures.addSection name declaratives span)
  modify fun s =>
    { s with
      currentSection := some p
      currentParagraph := none
      currentSentence := none
      declarativeEntry := s.declarativeEntry || declaratives }

def enterParagraph (name : String) (span : Span) : Build Unit := do
  let s ← get
  let p ← editProcedures
    (Procedures.addParagraph name s.currentSection s.declaratives.isSome span)
  modify fun s => { s with currentParagraph := some p, currentSentence := none }

def enterDeclaratives : Build Unit := do
  let s ← get
  if s.declaratives.isSome then violate .nestedDeclaratives
  if let some origin := s.currentBlock then
    modify fun s => { s with declaratives := some origin }

def leaveDeclaratives : Build Unit := do
  let root ← editProcedures Procedures.rootSection
  let origin? := (← get).declaratives
  modify fun s =>
    { s with
      declarativeEntry := false
      currentSection := some root
      currentParagraph := none
      declaratives := none }
  if let some origin := origin? then
    let next ← newBlock none
    editGraph (resumeAfterDeclaratives origin next)
    setCurrent next

/-! ### Statements that leave -/

/-- Continues in a new block, to which nothing leads yet. -/
def breakBlock : Build BlockId := do
  let next ← newBlock none
  setCurrent next
  return next

def enterJump (i : Instruction) (span : Span) (jump : Jump) : Build Unit := do
  if let some block ← current? then
    modify fun s =>
      { s with pending.jumps := s.pending.jumps ++ [{ node := i.node, span, jump, block }] }
    addInstruction i
    if jump.isSimple then
      markCurrent { ending := true }
      let _ ← breakBlock
    else
      let next ← breakBlock
      let _ ← editGraph (Graph.addEdge block next)

def enterEnding (i : Instruction) : Build Unit := do
  addInstruction i
  markCurrent { ending := true }
  let _ ← breakBlock

def enterNextSentence (i : Instruction) : Build Unit := do
  if let some block ← current? then
    addInstruction i
    markCurrent { ending := true }
    if let some sentence := (← get).currentSentence then
      modify fun s =>
        { s with pending.nextSentences := s.pending.nextSentences ++ [{ block, sentence }] }
    let _ ← breakBlock

def enterAlter (i : Instruction) (span : Span) (clauses : List AlterClause) : Build Unit := do
  addInstruction i
  modify fun s => { s with pending.alters := s.pending.alters ++ [{ span, clauses }] }

/-- An out-of-line PERFORM: a block of its own as call site, with a group still empty and an edge
to what follows the call. -/
def enterPerform (i : Instruction) (span : Span) (range : PerformRange) : Build Unit := do
  if let some origin ← current? then
    let callSite ← newBlock (some i)
    let group ← editGraph (Graph.addGroup callSite i.node range.display)
    editGraph Graph.markCompound
    let _ ← editGraph (Graph.addEdge origin callSite)
    let next ← breakBlock
    let _ ← editGraph (Graph.addEdge callSite next)
    modify fun s => { s with pending.performs := s.pending.performs ++ [{ span, range, group }] }

end CobolFlow.Build
