import CobolFlow.Graph.Block

/-!
# Control-flow graphs

A graph is an array of blocks beside an append-only pool of edge slots, the groups of its
PERFORMs, and what is remembered of each node. Nothing is ever removed, so an index once valid
stays valid.

A handle that points at nothing is a `Fault`, not a default value: every use of an index goes
through one of the five accessors `block`, `target`, `group`, `modifyBlock`, `modifyGroup`, and
whatever is built from them either finds all it asks for or reports the first index that is
missing.

## Main definitions

* `Fault` — an index out of range
* `Graph`, `Graph.Edit` — a graph, and a change to one that may fail
* `Graph.successors` — where a block's edges lead
-/

namespace CobolFlow

/-- The use of an index that names nothing. -/
inductive Fault
  | missingBlock (id : Nat)
  | missingSlot (id : Nat)
  | missingGroup (id : Nat)
  | missingProcedure (id : Nat)
  | missingSentence (id : Nat)
  | missingProgram (id : Nat)
deriving DecidableEq

/-- What the graph remembers of a node beyond its tag. -/
structure NodeInfo where
  span : Span
  text : Option String
  /-- The literal program name of a CALL. -/
  callee : Option String
deriving DecidableEq

/-- What is worth remembering of a node. -/
def Node.info (n : Node) : NodeInfo where
  span := n.span
  text := n.text
  callee :=
    match n.kind with
    | .call program => program
    | _ => none

/-- The control-flow graph of one procedure division. -/
structure Graph where
  blocks : Array Block := #[]
  /-- The block that each slot points at. -/
  slots : Array BlockId := #[]
  /-- Where control can enter, in the order in which the entries were found. -/
  roots : List BlockId := []
  groups : Array Group := #[]
  /-- The block of a node; the latest entry for a node counts. -/
  owners : List (NodeId × BlockId) := []
  /-- What is remembered of a node; the latest entry for a node counts. -/
  nodes : List (NodeId × NodeInfo) := []
  /-- The procedure division the graph was made from. -/
  division : Option NodeId := none
  /-- Some statement performs a procedure out of line. -/
  compound : Bool := false
deriving DecidableEq

namespace Graph

instance : Inhabited Graph := ⟨{}⟩

/-- The number of blocks. -/
def size (g : Graph) : Nat := g.blocks.size

def isEmpty (g : Graph) : Bool := g.blocks.isEmpty

/-- Whether a procedure division was ever entered. -/
def isInitialized (g : Graph) : Bool := g.division.isSome

/-! ### Reading -/

def block (g : Graph) (b : BlockId) : Except Fault Block :=
  match g.blocks[b]? with
  | some block => .ok block
  | none => .error (.missingBlock b)

/-- The block that a slot points at. -/
def target (g : Graph) (s : SlotId) : Except Fault BlockId :=
  match g.slots[s]? with
  | some b => .ok b
  | none => .error (.missingSlot s)

def group (g : Graph) (i : GroupId) : Except Fault Group :=
  match g.groups[i]? with
  | some group => .ok group
  | none => .error (.missingGroup i)

theorem block_eq_ok_iff (g : Graph) (b : BlockId) (block : Block) :
    g.block b = .ok block ↔ g.blocks[b]? = some block := by
  unfold Graph.block; split <;> simp_all

theorem target_eq_ok_iff (g : Graph) (s : SlotId) (b : BlockId) :
    g.target s = .ok b ↔ g.slots[s]? = some b := by
  unfold Graph.target; split <;> simp_all

theorem group_eq_ok_iff (g : Graph) (i : GroupId) (group : Group) :
    g.group i = .ok group ↔ g.groups[i]? = some group := by
  unfold Graph.group; split <;> simp_all

/-- The blocks that `b` can pass control to, in edge order. -/
def successors (g : Graph) (b : BlockId) : Except Fault (List BlockId) := do
  (← g.block b).successors.mapM g.target

/-- The group of a call site. -/
def groupOf (g : Graph) (b : BlockId) : Except Fault (Option Group) := do
  match (← g.block b).group with
  | some i => return some (← g.group i)
  | none => return none

/-- The block that holds a node. -/
def blockFor (g : Graph) (n : NodeId) : Option BlockId := g.owners.lookup n

def nodeInfo (g : Graph) (n : NodeId) : Option NodeInfo := g.nodes.lookup n

/-- The first block that carries all the given marks. -/
def findFlagged (g : Graph) (f : BlockFlags) : Option BlockId :=
  (g.blocks.find? fun b => b.flags.contains f).map (·.id)

/-! ### Changing -/

/-- A change to a graph that answers with an `α`, or fails on a missing index. -/
abbrev Edit := StateT Graph (Except Fault)

def modifyBlock (b : BlockId) (f : Block → Block) : Edit Unit := fun g =>
  if b < g.blocks.size then .ok ((), { g with blocks := g.blocks.modify b f })
  else .error (.missingBlock b)

def modifyGroup (i : GroupId) (f : Group → Group) : Edit Unit := fun g =>
  if i < g.groups.size then .ok ((), { g with groups := g.groups.modify i f })
  else .error (.missingGroup i)

/-- A change of a block changes neither the number of blocks nor anything but the blocks. -/
theorem modifyBlock_eq_ok_iff (b : BlockId) (f : Block → Block) (g g' : Graph) :
    modifyBlock b f g = .ok ((), g') ↔
      b < g.size ∧ g' = { g with blocks := g.blocks.modify b f } := by
  unfold modifyBlock
  split
  · next h => simp [size, h, eq_comm]
  · next h => simp [size, h]

theorem size_modifyBlock {b : BlockId} {f : Block → Block} {g g' : Graph}
    (h : modifyBlock b f g = .ok ((), g')) : g'.size = g.size := by
  obtain ⟨_, rfl⟩ := (modifyBlock_eq_ok_iff b f g g').1 h
  simp [size]

/-- Appends an empty block. -/
def addBlock : Edit BlockId :=
  modifyGet fun g => (g.blocks.size, { g with blocks := g.blocks.push { id := g.blocks.size } })

/-- Appends a copy of a block, without its edges. -/
def cloneBlock (source : BlockId) : Edit BlockId := do
  let block ← (← get).block source
  modifyGet fun g =>
    (g.blocks.size, { g with blocks := g.blocks.push (block.detachedCopy g.blocks.size) })

/-- Allocates a slot that points at `dest`, and attaches it to nothing. -/
def newSlot (dest : BlockId) : Edit SlotId :=
  modifyGet fun g => (g.slots.size, { g with slots := g.slots.push dest })

/-- Allocates a slot that points at `dest` as the last edge of `source`. -/
def addEdge (source dest : BlockId) : Edit SlotId := do
  let slot ← newSlot dest
  modifyBlock source (·.addSuccessor slot)
  return slot

/-- Makes an existing slot the last edge of `source`, unless it is one of its edges already. -/
def link (source : BlockId) (slot : SlotId) : Edit Bool := do
  let block ← (← get).block source
  if block.successors.contains slot then
    return false
  else
    modifyBlock source (·.addSuccessor slot)
    return true

/-- Replaces the edges of a block. -/
def setSuccessors (b : BlockId) (slots : List SlotId) : Edit Unit :=
  modifyBlock b ({ · with successors := slots })

def markBlock (b : BlockId) (f : BlockFlags) : Edit Unit := modifyBlock b (·.mark f)

/-- Makes a block an entry, unless it is one already. -/
def addRoot (b : BlockId) : Edit Unit :=
  modify fun g => if g.roots.contains b then g else { g with roots := g.roots ++ [b] }

def openDivision (division : NodeId) : Edit Unit := modify ({ · with division := some division })

/-- Remembers a node's position, text and callee. -/
def recordNode (n : Node) : Edit Unit :=
  modify fun g => { g with nodes := (n.id, n.info) :: g.nodes }

def setBlockFor (n : NodeId) (b : BlockId) : Edit Unit :=
  modify fun g => { g with owners := (n, b) :: g.owners }

/-- Appends an instruction to a block, which becomes the block of its node. -/
def appendInstruction (b : BlockId) (i : Instruction) : Edit Unit := do
  modifyBlock b (·.append i)
  setBlockFor i.node b

/-- Opens an empty group at a call site. -/
def addGroup (callSite : BlockId) (node : NodeId) (range : String) : Edit GroupId := do
  let i ← modifyGet fun g =>
    (g.groups.size,
      { g with groups := g.groups.push { id := g.groups.size, callSite, node, range } })
  modifyBlock callSite ({ · with group := some i })
  return i

def markCompound : Edit Unit := modify ({ · with compound := true })

end Graph

end CobolFlow
