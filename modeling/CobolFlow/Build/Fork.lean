import CobolFlow.Graph.Walk

/-!
# Forks

A fork is one open decision: a block from which several alternatives start that rejoin later.
IF, EVALUATE, SEARCH, in-line PERFORM and exception phrases are all opened as forks and closed by
joining what is left open.

## Joining

The join looks at the graph, not at the source: whatever block can be reached from an alternative
and has no successor yet is open, and continues at the join unless it ends the program. All open
blocks share one edge slot.

## Main definitions

* `Fork`, `Fork.addBranch` — an open decision, and a further alternative of it
* `Fork.terminals` — the open blocks of all alternatives
* `Fork.join`, `Fork.joinAround` — continuing the open blocks, the second without entering a block
-/

namespace CobolFlow

/-- An open decision. -/
structure Fork where
  /-- The statement that opened it; none for a level of a cascade. -/
  opener : Option Instruction
  /-- The block from which the alternatives start. -/
  origin : Option BlockId := none
  /-- The first block of each alternative. -/
  branches : List BlockId := []
  /-- The slots that lead into the alternatives. -/
  branchSlots : List SlotId := []
  /-- WHEN, WHEN OTHER and AT END phrases that wait for their block. -/
  phrases : List Instruction := []
  /-- For SEARCH, the block that evaluates the search condition. -/
  root : Option BlockId := none
  /-- For SEARCH, the slot that leads into `root`, which a failed round takes again. -/
  rootSlot : Option SlotId := none
deriving DecidableEq

namespace Fork

/-- A fork that a statement opens at a block. -/
def openedBy (i : Instruction) (origin : BlockId) : Fork :=
  { opener := some i, origin := some origin }

/-- Whether the fork is a level of a cascade, which no statement of its own opened. -/
def isLevel (f : Fork) : Bool := f.opener.isNone

def isSearch (f : Fork) : Bool := f.opener.any (·.tag == .search)

def isEvaluate (f : Fork) : Bool := f.opener.any (·.tag == .evaluate)

def lastBranch? (f : Fork) : Option BlockId := f.branches.getLast?

/-- Notes an alternative that is entered through `slot`. -/
def trackBranch (f : Fork) (branch : BlockId) (slot : SlotId) : Fork :=
  { f with branches := f.branches ++ [branch], branchSlots := f.branchSlots ++ [slot] }

/-- Adds an alternative, with an edge from the origin if the fork has one. -/
def addBranch (f : Fork) (branch : BlockId) : Graph.Edit Fork := do
  match f.origin with
  | some origin => return f.trackBranch branch (← Graph.addEdge origin branch)
  | none => return { f with branches := f.branches ++ [branch] }

/-- The blocks without successors that the alternatives lead to, each once. -/
def terminals (f : Fork) (g : Graph) (stop : Option BlockId) : Except Fault (List BlockId) :=
  f.branches.foldlM (fun found branch => do
    return found ++ (← g.terminals branch stop).filter (!found.contains ·)) []

/-- Continues every open block of the alternatives at `next`, and the origin too if
`originToNext` says so. -/
def close (f : Fork) (originToNext : Bool) (stop : Option BlockId) (next : BlockId) :
    Graph.Edit Unit := do
  let g ← get
  let unjoined ← (← f.terminals g stop).filterM fun b => do
    return b != next && !(← g.block b).flags.ending
  let sources := unjoined ++ (if originToNext then f.origin.toList else [])
  unless sources.isEmpty do
    let slot ← Graph.newSlot next
    for source in sources do
      let _ ← Graph.link source slot

/-- Closes the fork at `next`. -/
def join (f : Fork) (originToNext : Bool) (next : BlockId) : Graph.Edit Unit :=
  f.close originToNext none next

/-- Closes the fork at `next`, leaving alone what can only be reached through `root`, to which a
SEARCH loops back. -/
def joinAround (f : Fork) (originToNext : Bool) (root next : BlockId) : Graph.Edit Unit :=
  f.close originToNext (some root) next

end Fork

/-- Leaves the DECLARATIVES, which are entered from nowhere: what was current before them
continues after them. -/
def resumeAfterDeclaratives (origin next : BlockId) : Graph.Edit Unit := do
  let _ ← Graph.addEdge origin next

end CobolFlow
