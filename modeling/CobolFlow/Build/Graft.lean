import CobolFlow.Build.Perform

/-!
# Splicing performed ranges in

In extended mode a group is copied once more, and the copy takes the place of the call: the call
site enters it, and its terminals go on where the call site went on. The call sites inside the
copy get groups of their own, which are spliced in the same way until the nesting limit is
reached.
-/

namespace CobolFlow.Build

/-- The edges of a member's copy: to the copies where there are any, and elsewhere as before. -/
def graftSlots (copies : Copies) (slots : List SlotId) (moves : Moves) :
    Graph.Edit (List SlotId × Moves) :=
  slots.foldlM (fun (kept, moves) slot => do
    let (moved?, moves) ← moveSlot copies moves slot
    return (kept ++ [moved?.getD slot], moves)) ([], moves)

/-- Copies the members of a group with the edges among them. -/
def copyMembers (members : List BlockId) : Graph.Edit (List BlockId) := do
  let copied ← copyBlocks members
  let copies := members.zip copied
  let _ ← copies.foldlM (fun (moves : Moves) (member, copy) => do
    let (slots, moves) ← graftSlots copies (← (← get).block member).successors moves
    Graph.setSuccessors copy slots
    return moves) []
  return copied

/-- Leads a call site into the copied members, and those of them without a way on to where the
call site led. Answers with the terminals among the copies. -/
def splice (callSite first : BlockId) (copied : List BlockId) : Graph.Edit (List BlockId) := do
  let terminals ← (← get).terminalsWithin copied
  let continuation := (← (← get).block callSite).successors.head?
  let entry ← Graph.newSlot first
  Graph.setSuccessors callSite [entry]
  if let some slot := continuation then
    for terminal in terminals do
      unless (← (← get).block terminal).flags.ending do
        let _ ← Graph.link terminal slot
  Graph.markBlock callSite { grafted := true }
  return terminals

/-- Splices a group in, unless it is empty or recursive. The first argument is how many levels of
groups may still be spliced in, this one included. -/
def graft : Nat → GroupId → Graph.Edit Unit
  | 0, _ => return
  | levels + 1, i => do
    let group ← (← get).group i
    unless group.recursive do
      let copied ← copyMembers group.members
      if let first :: _ := copied then
        let terminals ← splice group.callSite first copied
        for copy in copied do
          if let some nested := (← (← get).block copy).group then
            let source ← (← get).group nested
            let j ← Graph.addGroup copy source.node source.range
            if source.recursive then
              Graph.modifyGroup j fun g => { g with recursive := true }
            else unless source.isEmpty do
              if levels = 0 then
                Graph.modifyGroup j fun g => { g with truncated := true }
              else
                Graph.modifyGroup j fun g =>
                  { g with members := source.members, terminals := source.terminals }
                graft levels j
        Graph.modifyGroup i fun g => { g with members := copied, terminals }

/-- Splices in every group that the division has. -/
def graftGroups (o : Options) : Graph.Edit Unit := do
  for i in List.range (← get).groups.size do
    graft o.maxGraftDepth i

end CobolFlow.Build
