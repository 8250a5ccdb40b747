import CobolFlow.Build.Resolution

/-!
# Capturing performed ranges

The group of an out-of-line PERFORM holds private copies of the blocks of its range. Among the
copies, edges lead from copy to copy. An edge that leaves the range is dropped from the last block,
where it is the return from the PERFORM, and kept, with a problem reported, from any other.

Ranges that contain call sites are captured after the ranges these call. A call site met again
while its own range is still being captured closes a cycle of calls, and its group is marked
recursive.

## Main definitions

* `Build.capturedBlocks` — the blocks of a range
* `Build.relocate` — filling a group with their copies
* `Build.resolvePerforms` — all groups, in the order described above
-/

namespace CobolFlow.Build

/-! ### The blocks of a range -/

/-- The procedures from `first` to `last` in the order of declaration, without the paragraphs of
sections that are themselves among them. -/
def proceduresBetween (c : Procedures) (first last : ProcedureId) : List ProcedureId :=
  (List.range' first (last + 1 - first)).filter fun p =>
    match c.procedures[p]? with
    | some procedure =>
      procedure.kind != .paragraphProcedure ||
        !procedure.owner.any fun owner => first ≤ owner && owner ≤ last
    | none => true

/-- The blocks of all sentences from `first` to `last`. -/
def capturedBlocks (c : Procedures) (first last : ProcedureId) : Except Fault (List BlockId) := do
  let sentences ← (proceduresBetween c first last).mapM c.sentencesOf
  let blocks ← sentences.flatten.mapM fun s => return (← c.sentence s).blocks
  return blocks.flatten

/-- The first and the last procedure of a PERFORM, where both are known and stand in order. -/
def performedRange (w : PendingPerform) : Build (Option (ProcedureId × ProcedureId)) := do
  let some first ← lookup w.range.first w.span | return none
  let last? ←
    match w.range.through with
    | some through => lookup through w.span
    | none => pure (some first)
  let some last := last? | return none
  if last < first then
    let c := (← get).procedures
    report
      { kind := .invalidPerformRange (← c.procedure first).name (← c.procedure last).name
        span := w.span }
    return none
  else
    return some (first, last)

/-! ### Copies of a range -/

/-- The copy of each block. -/
abbrev Copies := List (BlockId × BlockId)

/-- The slot that takes the place of each slot already met among the copies. -/
abbrev Moves := List (SlotId × SlotId)

/-- The slot among the copies that corresponds to `slot`, if there is a copy of where it leads.
One is allocated for each slot, whichever edges share it. -/
def moveSlot (copies : Copies) (moves : Moves) (slot : SlotId) :
    Graph.Edit (Option SlotId × Moves) := do
  match moves.lookup slot with
  | some moved => return (some moved, moves)
  | none =>
    match copies.lookup (← (← get).target slot) with
    | some copy =>
      let moved ← Graph.newSlot copy
      return (some moved, (slot, moved) :: moves)
    | none => return (none, moves)

/-- Copies each of the blocks, without edges. -/
def copyBlocks (blocks : List BlockId) : Graph.Edit (List BlockId) := blocks.mapM Graph.cloneBlock

/-- What the edges of one captured block become on its copy; `isLast` says that the block ends the
range. -/
def relocateSlots (w : PendingPerform) (range : String) (copies : Copies) (block : Block)
    (b : BlockId) (isLast : Bool) (moves : Moves) : Build (List SlotId × Moves) :=
  block.successors.foldlM (fun (kept, moves) slot => do
    match ← editGraph (moveSlot copies moves slot) with
    | (some moved, moves) => return (kept ++ [moved], moves)
    | (none, moves) =>
      if isLast then
        return (kept, moves)
      else
        report { kind := .branchOutOfRange range (block.tag.getD "") b, span := w.span }
        return (kept ++ [slot], moves)) ([], moves)

/-- Fills a group with copies of the captured blocks. -/
def relocate (w : PendingPerform) (range : String) (captured : List BlockId) : Build Unit := do
  let members ← editGraph (copyBlocks captured)
  let copies := captured.zip members
  let last := captured.getLast?
  let _ ← copies.foldlM (fun (moves : Moves) (b, copy) => do
    let block ← (← get).graph.block b
    let (slots, moves) ← relocateSlots w range copies block b (some b == last) moves
    editGraph (Graph.setSuccessors copy slots)
    return moves) []
  let terminals ← (← get).graph.terminalsWithin members
  editGraph (Graph.modifyGroup w.group fun group => { group with members, terminals })

/-! ### The order of capture -/

/-- How far the capture of a range has come. -/
inductive Progress
  | waiting | underway | captured | failed
deriving DecidableEq

/-- The PERFORMs of a division, and how far each has come. -/
structure Capture where
  performs : Array PendingPerform
  progress : Array Progress

namespace Capture

def start (performs : List PendingPerform) : Capture where
  performs := performs.toArray
  progress := Array.replicate performs.length .waiting

/-- The PERFORM that a group belongs to. -/
def find? (c : Capture) (i : GroupId) : Option Nat := c.performs.findIdx? (·.group == i)

def set (c : Capture) (k : Nat) (p : Progress) : Capture :=
  { c with progress := c.progress.setIfInBounds k p }

end Capture

/-- Sees to the call that a captured block may hold: a range that waits is captured by `capture`,
one that is underway closes a cycle. -/
def visitCallSite (capture : Nat → Capture → Build Capture) (w : PendingPerform) (range : String)
    (b : BlockId) (c : Capture) : Build Capture := do
  let some nested := (← (← get).graph.block b).group | return c
  let some j := c.find? nested | return c
  match c.progress[j]? with
  | some .waiting => capture j c
  | some .underway =>
    report { kind := .recursivePerform range b, span := w.span }
    editGraph (Graph.modifyGroup nested fun group => { group with recursive := true })
    return c
  | _ => return c

/-- The blocks of a range, each once, after the ranges that they call. -/
def collect (capture : Nat → Capture → Build Capture) (w : PendingPerform) (range : String)
    (blocks : List BlockId) (c : Capture) : Build (List BlockId × Capture) :=
  blocks.foldlM (fun (collected, c) b => do
    if collected.contains b then
      report { kind := .recursivePerform range b, span := w.span }
      return (collected, c)
    else
      return (collected ++ [b], ← visitCallSite capture w range b c)) ([], c)

/-- Captures the range of the `k`-th PERFORM if it waits. Each nested capture starts one more of
the waiting PERFORMs, so their number bounds the nesting. -/
def resolvePerform : Nat → Nat → Capture → Build Capture
  | 0, _, c => return c
  | depth + 1, k, c => do
    let some w := c.performs[k]? | return c
    if c.progress[k]? = some .waiting then
      let c := c.set k .underway
      match ← performedRange w with
      | none => return c.set k .failed
      | some (first, last) =>
        let range := (← (← get).graph.group w.group).range
        let blocks ← capturedBlocks (← get).procedures first last
        let (collected, c) ← collect (resolvePerform depth) w range blocks c
        relocate w range collected
        return c.set k .captured
    else
      return c

/-- Captures the range of every PERFORM. -/
def resolvePerforms (waiting : List PendingPerform) : Build Unit := do
  let _ ← (List.range waiting.length).foldlM
    (fun c k => resolvePerform (waiting.length + 1) k c) (Capture.start waiting)

end CobolFlow.Build
