import CobolFlow.Build.Division

/-!
# Decisions

IF, EVALUATE, SEARCH, in-line PERFORM and exception phrases as forks of the graph.

EVALUATE and SEARCH have two lowerings. The direct one makes every WHEN a branch of one fork. The
cascade makes each WHEN a two-way decision of its own, nested in the else-branch of the one before
it; these levels have no statement of their own, and are closed together when the statement ends.

A WHEN phrase is entered before it is known in which block it is tested, so phrases wait in the
innermost fork until their clause begins.
-/

namespace CobolFlow.Build

/-! ### The stack of forks -/

def pushFork (f : Fork) : Build Unit := modify fun s => { s with forks := f :: s.forks }

/-- Takes the innermost fork off the stack. -/
def popFork? : Build (Option Fork) := do
  match (← get).forks with
  | f :: outer =>
    modify fun s => { s with forks := outer }
    return some f
  | [] =>
    violate .noOpenFork
    return none

/-- Takes the levels of a cascade off the stack, innermost first, and then the fork of the
statement they belong to. -/
def popCascade : Build (List Fork × Option Fork) := do
  let s ← get
  set { s with forks := s.forks.dropWhile (·.isLevel) }
  return (s.forks.takeWhile (·.isLevel), ← popFork?)

/-- Adds a branch to the innermost fork and goes on in it. -/
def openBranch (b : BlockId) : Build Unit := do
  if let f :: outer := (← get).forks then
    let f ← editGraph (f.addBranch b)
    modify fun s => { s with forks := f :: outer }
  setCurrent b

/-- Goes on after a fork, in a new block where its branches meet. -/
def joinFork (f : Fork) (originToNext : Bool) : Build Unit := do
  let next ← newBlock none
  editGraph (f.join originToNext next)
  setCurrent next

/-- The phrases that wait in the fork at the given depth of the stack, which no longer wait. -/
def takePhrases (depth : Nat) : Build (List Instruction) :=
  modifyGet fun s =>
    ((s.forks[depth]?.map (·.phrases)).getD [],
      { s with forks := s.forks.modify depth ({ · with phrases := [] }) })

/-- Lets a phrase wait in the innermost fork. -/
def deferPhrase (i : Instruction) : Build Unit := do
  match (← get).forks with
  | f :: outer =>
    modify fun s => { s with forks := { f with phrases := f.phrases ++ [i] } :: outer }
  | [] => violate .noOpenFork

/-- Whether a branch is the one that WHEN OTHER or AT END opened. -/
def isDefault (branch : Option BlockId) : Build Bool := do
  match branch with
  | some b => return (← (← get).graph.block b).flags.default
  | none => return false

/-! ### IF -/

def enterIf (i : Instruction) : Build Unit := do
  if let some origin ← current? then
    pushFork (.openedBy i origin)
    addInstruction i
    openBranch (← newBlock none)

/-- Begins the else-branch of the innermost fork, which ELSE itself or the next level of a cascade
opens. -/
def enterElse (i : Option Instruction) : Build Unit := do
  openBranch (← newBlock i)

def leaveIf : Build Unit := do
  if let some f ← popFork? then
    joinFork f (f.branches.length == 1)

/-! ### EVALUATE -/

def enterEvaluate (i : Instruction) : Build Unit := do
  if let some origin ← current? then
    pushFork (.openedBy i origin)
    addInstruction i

/-- Begins a further level of a cascade: the current block tests the waiting phrases, and a new
block holds what is done when they apply. -/
def pushLevel : Build Unit := do
  if let some origin ← current? then
    let below := (← get).forks.head?
    pushFork
      { opener := none, origin := some origin
        root := below.bind (·.root), rootSlot := below.bind (·.rootSlot) }
    for phrase in ← takePhrases 1 do
      addInstruction phrase
    openBranch (← newBlock none)

/-- Opens a branch of the innermost fork in a block that begins with the waiting phrases. -/
def openPhraseBranch (flags : BlockFlags) : Build Unit := do
  let phrases ← takePhrases 0
  let b ← newBlock none
  editGraph (Graph.markBlock b flags)
  for phrase in phrases do
    editGraph (Graph.appendInstruction b phrase)
  openBranch b

/-- All phrases of a WHEN clause of an EVALUATE have been entered. -/
def startWhen (o : Options) : Build Unit := do
  match (← get).forks.head? with
  | none => violate .noOpenFork
  | some top =>
    if o.evaluateCascade then
      unless top.isEvaluate do enterElse none
      pushLevel
    else
      openPhraseBranch .none

/-- The WHEN OTHER phrase of an EVALUATE has been entered. It tests nothing, so its block is known
to hold it without listing it. -/
def startWhenOther : Build Unit := do
  if (← get).forks.isEmpty then
    violate .noOpenFork
  else
    let phrases ← takePhrases 0
    let b ← newBlock none
    editGraph (Graph.markBlock b { default := true })
    for phrase in phrases do
      editGraph (Graph.setBlockFor phrase.node b)
    openBranch b

def leaveEvaluate (o : Options) : Build Unit := do
  if o.evaluateCascade then
    let (levels, statement?) ← popCascade
    for level in levels do
      joinFork level (level.branches.length == 1)
    if let some f := statement? then
      -- only a WHEN OTHER before which no WHEN stands is a branch of the statement itself
      unless f.branches.isEmpty do
        joinFork f !(← isDefault f.lastBranch?)
  else if let some f ← popFork? then
    joinFork f !(← isDefault f.lastBranch?)

/-! ### SEARCH -/

def enterSearch (o : Options) (i : Instruction) : Build Unit := do
  if let some here ← current? then
    if o.searchCascade then
      -- every round begins again at this block, so no earlier statement may stand in it
      let fresh := (← (← get).graph.block here).instructions.isEmpty
      if fresh then addInstruction i
      let (root, rootSlot) ←
        if fresh then
          pure (here, none)
        else do
          let b ← newBlock (some i)
          let slot ← editGraph (Graph.addEdge here b)
          pure (b, some slot)
      let body ← newBlock none
      let _ ← editGraph (Graph.addEdge root body)
      pushFork { Fork.openedBy i body with root := some root, rootSlot }
      setCurrent body
    else
      pushFork (.openedBy i here)
      addInstruction i

/-- All phrases of a WHEN clause of a SEARCH have been entered, or its AT END phrase has. -/
def startSearchWhen (o : Options) (atEnd : Bool) : Build Unit := do
  match (← get).forks.head? with
  | none => violate .noOpenFork
  | some top =>
    if atEnd || !o.searchCascade then
      openPhraseBranch { default := atEnd }
    else
      if top.isSearch then
        -- the first test hangs off the body of the SEARCH, even after an AT END
        if top.branches.length == 1 then
          if let some origin := top.origin then setCurrent origin
      else
        enterElse none
      pushLevel

/-- Closes the levels of a SEARCH from the innermost outwards. When the test of the innermost
level fails, the search goes on with its next round. -/
def closeSearchLevels : List Fork → Build (Option BlockId)
  | [] => return none
  | last :: outer => do
    let next ← newBlock none
    editGraph (last.join false next)
    if let (some origin, some root) := (last.origin, last.root) then
      let again ←
        match last.rootSlot with
        | some slot => pure slot
        | none => editGraph (Graph.newSlot root)
      let _ ← editGraph (Graph.link origin again)
    setCurrent next
    for level in outer do
      joinFork level (level.branches.length == 1)
    return (← get).currentBlock

def leaveSearch (o : Options) : Build Unit := do
  if o.searchCascade then
    let (levels, statement?) ← popCascade
    let continuation ← closeSearchLevels levels
    if let some f := statement? then
      let next ←
        match continuation with
        | some b => pure b
        | none => breakBlock
      match f.root with
      | some root => editGraph (f.joinAround f.branches.isEmpty root next)
      | none => editGraph (f.join f.branches.isEmpty next)
  else if let some f ← popFork? then
    joinFork f !(← isDefault f.branches.head?)

/-! ### In-line PERFORM -/

/-- Opens a loop with a block for its test and one for its body. The two slots that lead into them
are made at once, so that the end of the body can take the first again. -/
def enterLoop (i : Instruction) (testAfter : Bool) : Build Unit := do
  if let some origin ← current? then
    let test ← newBlock (some i)
    let body ← newBlock none
    let (testSlot, bodySlot) ←
      if testAfter then do
        let bodySlot ← editGraph (Graph.addEdge origin body)
        let testSlot ← editGraph (Graph.newSlot test)
        pure (testSlot, bodySlot)
      else do
        let testSlot ← editGraph (Graph.addEdge origin test)
        let bodySlot ← editGraph (Graph.newSlot body)
        pure (testSlot, bodySlot)
    let _ ← editGraph (Graph.link test bodySlot)
    pushFork (((Fork.openedBy i origin).trackBranch test testSlot).trackBranch body bodySlot)
    setCurrent body

/-- Closes a loop: its body goes back to the test, or on if the body runs only once. -/
def leaveLoop (repetition : Repetition) : Build Unit := do
  if let some f ← popFork? then
    match f.branches, f.branchSlots with
    | test :: body :: _, testSlot :: _ =>
      let unjoined ← (← get).graph.terminals body none
      let next ← newBlock none
      let nextSlot ← editGraph (Graph.newSlot next)
      if repetition.isIterative then
        let _ ← editGraph (Graph.link test nextSlot)
      let back := if repetition.isIterative then testSlot else nextSlot
      for b in unjoined do
        unless (← (← get).graph.block b).flags.ending do
          let _ ← editGraph (Graph.link b back)
      setCurrent next
    | _, _ => violate .malformedLoop

/-! ### Exception phrases -/

/-- Whether an AT END belongs to the SEARCH right above it. -/
def isSearchAtEnd (phrase : ExceptionPhrase) : Build Bool := do
  let s ← get
  return phrase == .atEnd && s.enclosing.head? == some .search && s.forks.head?.any (·.isSearch)

def enterException (o : Options) (i : Instruction) (phrase : ExceptionPhrase) : Build Unit := do
  if ← isSearchAtEnd phrase then
    deferPhrase i
    startSearchWhen o true
  else if let some origin ← current? then
    pushFork (.openedBy i origin)
    openBranch (← newBlock (some i))

def leaveException (phrase : ExceptionPhrase) : Build Unit := do
  unless ← isSearchAtEnd phrase do
    if let some f ← popFork? then
      joinFork f true

end CobolFlow.Build
