import CobolFlow.Graph.Basic

/-!
# Checking a graph

`Graph.check` looks for the first reference that leads nowhere, in the order in which a graph is
read: blocks with their edges and groups, then the entries, then the members of the groups.
-/

namespace CobolFlow

/-- A reference of a graph that leads nowhere, or a block that stands in the wrong place. -/
inductive Graph.Defect
  | misplacedBlock (block : BlockId) (index : Nat)
  | missingSlot (block : BlockId) (slot : SlotId)
  | missingTarget (slot : SlotId) (target : BlockId)
  | missingGroup (block : BlockId) (group : GroupId)
  | missingRoot (block : BlockId)
  | missingMember (group : GroupId) (block : BlockId)
deriving DecidableEq

namespace Graph

/-- The sentence in which a defect is reported. -/
def Defect.message : Defect → String
  | .misplacedBlock block index => s!"block {block} is stored at index {index}"
  | .missingSlot block slot => s!"block {block} refers to missing edge slot {slot}"
  | .missingTarget slot target => s!"edge slot {slot} points at missing block {target}"
  | .missingGroup block group => s!"block {block} belongs to missing group {group}"
  | .missingRoot block => s!"root block {block} does not exist"
  | .missingMember group block => s!"group {group} lists missing block {block}"

/-- The first defect among a block's edges. -/
def slotDefect? (g : Graph) (block : Block) (slot : SlotId) : Option Defect :=
  match g.slots[slot]? with
  | none => some (.missingSlot block.id slot)
  | some target => if target < g.size then none else some (.missingTarget slot target)

/-- The first defect of the block stored at `index`. -/
def blockDefect? (g : Graph) (block : Block) (index : Nat) : Option Defect :=
  if block.id = index then
    (block.successors.findSome? (g.slotDefect? block)).or <|
      match block.group with
      | some i => if i < g.groups.size then none else some (.missingGroup block.id i)
      | none => none
  else
    some (.misplacedBlock block.id index)

def rootDefect? (g : Graph) (root : BlockId) : Option Defect :=
  if root < g.size then none else some (.missingRoot root)

def groupDefect? (g : Graph) (group : Group) : Option Defect :=
  group.members.findSome? fun member =>
    if member < g.size then none else some (.missingMember group.id member)

/-- The first defect of the graph, if it has one. -/
def defect? (g : Graph) : Option Defect :=
  (g.blocks.toList.zipIdx.findSome? fun (block, index) => g.blockDefect? block index).or <|
    (g.roots.findSome? g.rootDefect?).or <|
      g.groups.toList.findSome? g.groupDefect?

/-- Accepts a graph without defects. -/
def check (g : Graph) : Except Defect Unit :=
  match g.defect? with
  | none => .ok ()
  | some d => .error d

end Graph

end CobolFlow
